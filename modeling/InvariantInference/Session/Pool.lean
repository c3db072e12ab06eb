import InvariantInference.Dictionary
import InvariantInference.Session

/-!
# Session pools

A pool holds one session for every implementation of a program. The sessions
are opened once and used for many verifications.
-/

namespace InvariantInference

/-- Sessions by the names of their implementations. -/
structure SessionPool (σ : Type) where
  sessions : Dictionary σ

namespace SessionPool

variable {σ : Type}

/-- Opens a session for every implementation, in order of declaration (`open`). The first
    fault is that of the pool. -/
def start (oracle : Oracle σ) (program : Program) : Except Fault (SessionPool σ) := do
  let opened ← program.implementations.mapM (fun i => do
    let session ← oracle program i
    return (i.name.value, session))
  return ⟨.ofList opened⟩

/-- The number of sessions. -/
def size (pool : SessionPool σ) : Nat := pool.sessions.size

/-- The session of an implementation. -/
def get? (pool : SessionPool σ) (name : String) : Option σ := pool.sessions.get? name

/-- Replaces the session of an implementation. -/
def set (pool : SessionPool σ) (name : String) (session : σ) : SessionPool σ :=
  ⟨pool.sessions.insert name session⟩

/-- Verifies an implementation once under a hypothesis (`verify_under`). -/
def verifyUnder [Session σ] (pool : SessionPool σ) (name : String) (hypothesis : Expr) :
    Except Fault Verdict × SessionPool σ :=
  match pool.get? name with
  | none => (.error ⟨name, .session, "no session was opened"⟩, pool)
  | some session =>
    let (answer, session) := Session.verifyUnder session hypothesis
    (answer, pool.set name session)

end SessionPool

end InvariantInference
