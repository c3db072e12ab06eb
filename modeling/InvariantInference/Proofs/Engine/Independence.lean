import Mathlib
import InvariantInference.Proofs.Engine.Discipline
import InvariantInference.Proofs.Engine.Sessions

/-!
# Independent runs

The sessions of an engine outlive its runs. What a run leaves in a model session
is what it has counted, and a session that is to fault on no verification never
looks at what it has counted. So with such sessions a run is the same whatever
the engine was asked for before.
-/

namespace InvariantInference

variable {σ τ : Type}

/-! ## Verifications that leave sessions as they were -/

/-- A session stays in the relation to another one when it is verified. -/
def Session.Absorbs [Session τ] (R : σ → τ → Prop) : Prop :=
  ∀ (s : σ) (t : τ) (hypothesis : Expr), R s t → R s (Session.verifyUnder t hypothesis).2

namespace SessionPool

variable {R : σ → τ → Prop} {p : SessionPool σ} {q : SessionPool τ}

theorem related_self {R : σ → σ → Prop} {p : SessionPool σ}
    (each : ∀ name s, p.get? name = some s → R s s) : Related R p p := by
  intro name
  cases found : p.get? name with
  | none => exact .none
  | some s => exact .some (each name s found)

theorem Related.absorb [Session τ] (absorbs : Session.Absorbs R) (related : Related R p q)
    (name : String) (hypothesis : Expr) : Related R p (q.verifyUnder name hypothesis).2 := by
  intro other
  rw [get?_verifyUnder]
  have here := related other
  by_cases same : other = name
  · rw [if_pos same, ← same]
    generalize p.get? other = first at here ⊢
    generalize q.get? other = second at here ⊢
    cases here with
    | none => exact .none
    | some alike => exact .some (absorbs _ _ hypothesis alike)
  · rw [if_neg same]
    exact here

end SessionPool

namespace Engine

variable [Session τ] {R : σ → τ → Prop} {e : Engine σ} {d : Engine τ}

theorem Alike.absorb (alike : Alike R e d) (absorbs : Session.Absorbs R) (request : Request) :
    Alike R e (d.perform request).2 := by
  cases request with
  | infer config =>
    refine ⟨alike.candidates, alike.graph, ?_⟩
    apply Run.finish_preserves (P := fun run => e.pool.Related R run.pool)
    · intro run current _ related
      rw [Run.step_pool]
      exact related.absorb absorbs _ _
    · exact alike.pool
  | verifyUnder name hypothesis =>
    exact ⟨alike.candidates, alike.graph, alike.pool.absorb absorbs name hypothesis⟩

/-- Whatever an engine is asked for leaves it as it was, if verifications do so with its
    sessions. -/
theorem Alike.absorbAll (alike : Alike R e d) (absorbs : Session.Absorbs R)
    (requests : List Request) : Alike R e (d.performAll requests).2 := by
  induction requests generalizing d with
  | nil => exact alike
  | cons request rest ih => exact ih (alike.absorb absorbs request)

end Engine

/-! ## Sessions that never fault -/

/-- The sessions differ in what they have counted at most, and are to fault on no
    verification. -/
def Model.Session.Recounts (s t : Model.Session) : Prop :=
  s.script.faultOnAttempt = none ∧
    ∃ verifications pushes, t = { s with verifications, pushes }

namespace Model.Session

theorem recounts_self {s : Session} (faultless : s.script.faultOnAttempt = none) :
    s.Recounts s := ⟨faultless, s.verifications, s.pushes, rfl⟩

theorem absorbs_recounts : InvariantInference.Session.Absorbs Recounts := by
  rintro s t hypothesis ⟨faultless, verifications, pushes, rfl⟩
  rw [verifyUnder_eq]
  exact ⟨faultless, verifications + 1, pushes + 1, rfl⟩

/-- A session that is to fault on no verification answers by its stack and its script. -/
theorem verifyUnder_of_faultless {s : Session} (faultless : s.script.faultOnAttempt = none)
    (hypothesis : Expr) :
    (InvariantInference.Session.verifyUnder s hypothesis).1 =
      match s.script.forced with
      | some outcome => .ok (.ofOutcome outcome)
      | none => .ok (s.under hypothesis).evaluate := by
  rw [verifyUnder_eq, faultless]
  rfl

theorem simulates_recounts : InvariantInference.Session.Simulates Recounts := by
  rintro s t hypothesis ⟨faultless, verifications, pushes, rfl⟩
  constructor
  · rw [verifyUnder_of_faultless faultless, verifyUnder_of_faultless (by exact faultless)]
    rfl
  · rw [verifyUnder_eq, verifyUnder_eq]
    exact ⟨faultless, verifications + 1, pushes + 1, rfl⟩

end Model.Session

namespace Engine

variable {program : Program} {scripts : Dictionary Script} {e : Engine Model.Session}

theorem faultless_of_setUp (accepted : setUp program (Model.oracle scripts) = .ok e)
    (faultless : ∀ name script, scripts.get? name = some script → script.faultOnAttempt = none)
    {name : String} {session : Model.Session} (found : e.pool.get? name = some session) :
    session.script.faultOnAttempt = none := by
  obtain ⟨-, -, started⟩ := setUp_eq_ok_iff.mp accepted
  obtain ⟨i, -, -, opened⟩ := SessionPool.opened_of_start started found
  obtain ⟨p, callees, -, -, rfl⟩ := Model.Session.oracle_eq_ok_iff.mp opened
  show ((scripts.get? i.name.value).getD .plain).faultOnAttempt = none
  cases scripted : scripts.get? i.name.value with
  | none => rfl
  | some script => exact faultless _ script scripted

/-- Two runs of an engine with the same options have the same result and the same events, whatever
    the engine was asked for before them and between them, if no session is to fault. -/
theorem runs_are_independent (accepted : setUp program (Model.oracle scripts) = .ok e)
    (faultless : ∀ name script, scripts.get? name = some script → script.faultOnAttempt = none)
    (config : Config) (earlier between : List Request) :
    let first := (e.performAll earlier).2
    let second := ((first.infer config).2.2.performAll between).2
    (second.infer config).1 = (first.infer config).1 ∧
      (second.infer config).2.1 = (first.infer config).2.1 := by
  intro first second
  have opened : Alike Model.Session.Recounts e e :=
    ⟨rfl, rfl, SessionPool.related_self fun name session found =>
      Model.Session.recounts_self (faultless_of_setUp accepted faultless found)⟩
  have before : Alike Model.Session.Recounts e first :=
    opened.absorbAll Model.Session.absorbs_recounts earlier
  have ran : Alike Model.Session.Recounts e (first.infer config).2.2 :=
    before.absorb Model.Session.absorbs_recounts (.infer config)
  have after : Alike Model.Session.Recounts e second :=
    ran.absorbAll Model.Session.absorbs_recounts between
  obtain ⟨result, events, -⟩ := before.infer Model.Session.simulates_recounts config
  obtain ⟨result', events', -⟩ := after.infer Model.Session.simulates_recounts config
  exact ⟨result'.trans result.symm, events'.trans events.symm⟩

/-- A script that makes the callee time out. -/
def timeoutScripts : Dictionary Script := .ofList [("Callee", ⟨some .timedOut, none, .session⟩)]

/-- On the guarded call with this script a run makes three rounds, also after a run with the other
    schedule and a verification of the caller. -/
theorem runs_are_independent_guardedCall :
    ∃ e, setUp Program.guardedCall (Model.oracle timeoutScripts) = .ok e ∧
      let first := e.infer .standard
      let between := [Request.infer ⟨true, .roundRobin, .normal⟩,
        .verifyUnder "Caller" (.ofBool true)]
      let second := (first.2.2.performAll between).2.infer .standard
      first.1.iterations = 3 ∧ second.1 = first.1 ∧ second.2.1 = first.2.1 := by
  have faultless : ∀ name script, timeoutScripts.get? name = some script →
      script.faultOnAttempt = none := by
    intro name script found
    have entry : timeoutScripts.get? name = if name = "Callee" then some _ else none :=
      Dictionary.get?_insert _ _ _ _
    rw [entry] at found
    split at found <;> cases found
    rfl
  have accepted : setUp Program.guardedCall (Model.oracle timeoutScripts) = .ok _ := rfl
  exact ⟨_, rfl, by cbv, runs_are_independent accepted faultless .standard [] _⟩

end Engine

end InvariantInference
