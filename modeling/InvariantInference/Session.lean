import InvariantInference.Program
import InvariantInference.Verdict

/-!
# Verification sessions

A session verifies one implementation, over and over, under hypotheses that are
pushed before and popped after. Every call may fault, and changes the session
whether it faults or not.
-/

namespace InvariantInference

/-- What kind of thing went wrong in a session. -/
inductive FaultKind where
  /-- The session cannot be used. -/
  | session
  /-- The prover answered with something that could not be interpreted. -/
  | unexpectedOutput
  deriving DecidableEq, Repr

namespace FaultKind

/-- All kinds. -/
def all : List FaultKind := [session, unexpectedOutput]

/-- The wording of a kind. -/
def render : FaultKind → String
  | session => "session fault"
  | unexpectedOutput => "unexpected prover output"

/-- The name of a kind in manifests. -/
def label : FaultKind → String
  | session => "session"
  | unexpectedOutput => "unexpected-output"

end FaultKind

/-- A fault of the session of an implementation (`OracleFault`). -/
structure Fault where
  implementation : String
  kind : FaultKind
  message : String
  deriving DecidableEq, Repr

namespace Fault

/-- A fault in one line. -/
def render (f : Fault) : String :=
  "oracle fault in `" ++ f.implementation ++ "` (" ++ f.kind.render ++ "): " ++ f.message

end Fault

/-- The states of type `σ` are sessions: hypotheses can be pushed and popped, and the
    implementation verified under those that are pushed (`VerifierSession`). -/
class Session (σ : Type) where
  push : σ → Expr → Except Fault Unit × σ
  verify : σ → Except Fault Verdict × σ
  pop : σ → Except Fault Unit × σ

/-- An oracle opens sessions for implementations (`VerifierOracle`). -/
abbrev Oracle (σ : Type) := Program → Implementation → Except Fault σ

namespace Session

variable {σ : Type} [Session σ]

/-- Verifies once under a hypothesis (`verify_under`). A push that succeeded is followed by
    a verification and a pop; one that faulted is followed by nothing. A fault of the
    verification hides one of the pop. -/
def verifyUnder (s : σ) (hypothesis : Expr) : Except Fault Verdict × σ :=
  match Session.push s hypothesis with
  | (.error fault, s) => (.error fault, s)
  | (.ok (), s) =>
    let (verdict, s) := Session.verify s
    let (popped, s) := Session.pop s
    match verdict, popped with
    | .error fault, _ => (.error fault, s)
    | .ok _, .error fault => (.error fault, s)
    | .ok verdict, .ok () => (.ok verdict, s)

end Session

end InvariantInference
