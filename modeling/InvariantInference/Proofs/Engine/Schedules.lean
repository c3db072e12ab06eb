import Mathlib
import InvariantInference.Proofs.Engine.Completeness
import InvariantInference.Proofs.Engine.Maximality

/-!
# Schedules

On a guarded-Horn program whose candidates occur in one condition each, all runs
that reach a fixpoint without a mixed last verdict end with the same assignment,
whatever their schedules. No implementation refutes a true candidate under the
last assignment of one run, so the other run stays above it, and vice versa.

None of the conditions can be left out. An implementation that left with a mixed
verdict is verified again if something that it assumes falls later, and what
falls later depends on the schedule. A candidate of two conditions can fall
without a notice to all that assume one of them. And where one fact may stand in
the way of another, less can be proved with more assumed.
-/

namespace InvariantInference

open Model (oracle RefutesNone)

namespace Engine

variable {program : Program} {e e' : Engine Model.Session} {config config' : Config}

/-- No implementation has a mixed last verdict in a run that tolerates genuine
    violations. A run that does not flushes after such a verdict. -/
def Unmixed (e : Engine Model.Session) (config : Config) : Prop :=
  config.continueAtError = true → ∀ (id : Nat) (v : Classified),
    Run.LastVerdict (e.setting config) (Run.start (e.setting config) e.pool) id
      (e.lastRun config) v → ¬ v.Mixed

/-- A run that records no errors is unmixed. -/
theorem unmixed_of_outcome_ne (prepared : Prepared program (oracle .empty) e)
    (clean : ∀ i ∈ program.implementations,
      (e.infer config).1.outcome? i.name.value ≠ some .errors) : e.Unmixed config := by
  intro _ id v last mixed
  obtain ⟨j, place, recorded⟩ :=
    last.outcome_eq (Run.proper_start prepared.ready) prepared.build
  rw [mixed.1] at recorded
  exact clean j (List.mem_of_getElem? place) recorded

/-- At an unmixed fixpoint no implementation refutes a true candidate. -/
theorem refutesNone_lastRun (prepared : Prepared program (oracle .empty) e)
    (horn : program.GuardedHorn e.candidates) (exclusive : program.Exclusive e.candidates)
    (fixpoint : (e.infer config).1.termination = .fixpoint) (unmixed : e.Unmixed config) :
    ∀ i ∈ program.implementations,
      RefutesNone program e.candidates i (e.lastRun config).assignment := by
  intro i declared
  obtain ⟨id, place⟩ := List.mem_iff_getElem?.mp declared
  have exhaustive := exhaustive_lastRun prepared horn exclusive fixpoint
  obtain ⟨v, last, known⟩ := exhaustive.visited place (by rw [worklist_lastRun]; simp)
  refine known.resolve_left ?_
  cases tolerant : config.continueAtError with
  | true => exact unmixed tolerant id v last
  | false => exact (last.not_mixed tolerant).resolve_left (active_of_fixpoint fixpoint)

/-- Runs that reach unmixed fixpoints end with the same assignment, whatever their
    schedules and sessions. -/
theorem infer_assignment_eq (prepared : Prepared program (oracle .empty) e)
    (prepared' : Prepared program (oracle .empty) e') (horn : program.GuardedHorn e.candidates)
    (exclusive : program.Exclusive e.candidates)
    (fixpoint : (e.infer config).1.termination = .fixpoint)
    (fixpoint' : (e'.infer config').1.termination = .fixpoint)
    (unmixed : e.Unmixed config) (unmixed' : e'.Unmixed config') :
    (e.infer config).1.assignment = (e'.infer config').1.assignment := by
  have candidates : e'.candidates = e.candidates :=
    Except.ok.inj (prepared'.collect.symm.trans prepared.collect)
  have distinct := Candidates.nodup_names_collect prepared.collect
  have names := (proper_lastRun prepared.build prepared.ready config).names
  have names' := (proper_lastRun prepared'.build prepared'.ready config').names
  have spared := refutesNone_lastRun prepared horn exclusive fixpoint unmixed
  have spared' := refutesNone_lastRun prepared' (candidates ▸ horn) (candidates ▸ exclusive)
    fixpoint' unmixed'
  simp only [setting, candidates] at names names' spared'
  -- Each run stays above the assignment that the other one ends with.
  have above := above_lastRun prepared horn config names' spared'
  have above' := above_lastRun prepared' (candidates ▸ horn) config' (candidates ▸ names)
    (candidates ▸ spared)
  have entries : (e.lastRun config).assignment.entries =
      (e'.lastRun config').assignment.entries := by
    refine entries_eq_of_true_iff (names.trans names'.symm) (names ▸ distinct) fun name => ?_
    exact ⟨above' name, above name⟩
  rw [infer_result, infer_result, Run.result, Run.result]
  simp only [Assignment.freeze, entries]

/-- In the guarded call both schedules refute `P` and keep `Q`. -/
theorem infer_assignment_eq_guardedCall :
    ∃ e, setUp Program.guardedCall (oracle .empty) = .ok e ∧
      (e.infer ⟨true, .spin, .abnormal⟩).1.termination = .fixpoint ∧
      (e.infer ⟨true, .roundRobin, .abnormal⟩).1.termination = .fixpoint ∧
      (e.infer ⟨true, .spin, .abnormal⟩).1.assignment.get? "P" = some false ∧
      (e.infer ⟨true, .spin, .abnormal⟩).1.assignment =
        (e.infer ⟨true, .roundRobin, .abnormal⟩).1.assignment := by
  refine ⟨_, rfl, by cbv, by cbv, by cbv, ?_⟩
  have prepared : Prepared Program.guardedCall (oracle .empty) _ := .setUp rfl
  have implementations : Program.guardedCall.implementations =
      [Program.guardedCaller, Program.guardedImplementation] := rfl
  refine infer_assignment_eq prepared prepared ⟨Program.parsed_guardedCall, by decide⟩
    (by unfold Program.Exclusive; decide) (by cbv) (by cbv)
    (unmixed_of_outcome_ne prepared ?_) (unmixed_of_outcome_ne prepared ?_)
  all_goals
    rw [implementations, List.forall_mem_cons, List.forall_mem_singleton]
    exact ⟨ne_of_eq_of_ne (b := some .correct) (by cbv) (by decide),
      ne_of_eq_of_ne (b := some .correct) (by cbv) (by decide)⟩

end Engine

/-! ## Programs on which schedules disagree -/

namespace Program

/-- A library that leaves with a mixed verdict, and a caller that refutes the precondition
    of the library in its second round: by then the library has left, or has not. -/
def rotated : Program :=
  ⟨[.candidate "U", .candidate "V", .candidate "W", .candidate "X",
    .procedure ⟨.none, .synthetic "Lib", [⟨.none, false, .guarded "X" "n > 0"⟩], []⟩,
    .procedure ⟨.none, .synthetic "Main", [], []⟩,
    .implementation (.ofCommands "Main"
      [.assert .none (.guarded "W" "n > 0"), .call .none (.synthetic "Lib")]),
    .implementation (.ofCommands "Lib" maskedCommands)]⟩

/-- Two implementations that share a candidate. The first refutes it in its second round;
    the second assumes what it guards and is not told. -/
def shared : Program :=
  ⟨[.candidate "X", .candidate "Y", .candidate "Z",
    .procedure ⟨.none, .synthetic "P", [], []⟩, .procedure ⟨.none, .synthetic "Q", [], []⟩,
    .implementation (.ofCommands "P"
      [.assert .none (.guarded "Z" "a > 0"), .assert .none (.guarded "X" "a > 0")]),
    .implementation (.ofCommands "Q"
      [.assume .none (.guarded "X" "d > 0"), .assert .none (.guarded "Y" "d > 0")])]⟩

/-- The condition `candidate ==> q ==> conclusion`. -/
def nested (candidate : String) (conclusion : Expr) : Expr :=
  .combine .implies (.ofName candidate) (.combine .implies (.ofName "q") conclusion)

/-- A library that proves less while its precondition is there: once `q` is assumed, `a` is
    known, and this overrules that `!a` is known as well. -/
def overruled : Program :=
  ⟨[.candidate "X", .candidate "Y", .candidate "Z",
    .procedure ⟨.none, .synthetic "Lib", [⟨.none, false, nested "X" (.ofName "a")⟩], []⟩,
    .procedure ⟨.none, .synthetic "Main", [], []⟩,
    .implementation (.ofCommands "Main"
      [.assert .none (nested "Z" (.ofName "a")), .call .none (.synthetic "Lib")]),
    .implementation (.ofCommands "Lib"
      [.assume .none (.not .none (.ofName "a")),
        .assert .none (nested "Y"
          (.not .none (.combine .and (.ofName "a") (.ofName "b"))))])]⟩

theorem parsed_rotated : ∀ e ∈ rotated.conditions, e.Parsed :=
  Expr.parsed_of_texts ["X ==> n > 0", "W ==> n > 0", "U ==> a > 0", "V ==> a > 0", "b > 0"]
    (by cbv)

theorem parsed_shared : ∀ e ∈ shared.conditions, e.Parsed :=
  Expr.parsed_of_texts ["Z ==> a > 0", "X ==> a > 0", "X ==> d > 0", "Y ==> d > 0"] (by cbv)

end Program

namespace Engine

/-- Both schedules reach a fixpoint, and give a candidate different values there. -/
def Disagrees (e : Engine Model.Session) (continueAtError : Bool) : Prop :=
  (e.infer ⟨continueAtError, .spin, .abnormal⟩).1.termination = .fixpoint ∧
    (e.infer ⟨continueAtError, .roundRobin, .abnormal⟩).1.termination = .fixpoint ∧
    ∃ name value, (e.infer ⟨continueAtError, .spin, .abnormal⟩).1.assignment.get? name =
      some value ∧ (e.infer ⟨continueAtError, .roundRobin, .abnormal⟩).1.assignment.get? name =
      some !value

/-- The schedules disagree where a last verdict is mixed, on a guarded-Horn program with a
    candidate of two conditions, and on a program that is not guarded-Horn. -/
theorem schedules_disagree :
    (∃ e, setUp Program.rotated (oracle .empty) = .ok e ∧
      Program.rotated.GuardedHorn e.candidates ∧ Program.rotated.Exclusive e.candidates ∧
      e.Disagrees true) ∧
    (∃ e, setUp Program.shared (oracle .empty) = .ok e ∧
      Program.shared.GuardedHorn e.candidates ∧ ∀ continueAtError, e.Disagrees continueAtError) ∧
    ∃ e, setUp Program.overruled (oracle .empty) = .ok e ∧
      Program.overruled.Exclusive e.candidates ∧
      ∀ continueAtError, e.Disagrees continueAtError := by
  refine ⟨⟨_, rfl, ⟨Program.parsed_rotated, by decide⟩, by unfold Program.Exclusive; decide,
      by cbv, by cbv, "V", true, by cbv, by cbv⟩,
    ⟨_, rfl, ⟨Program.parsed_shared, by decide⟩, ?_⟩,
    ⟨_, rfl, by unfold Program.Exclusive; decide, ?_⟩⟩
  · rintro (_ | _)
    · exact ⟨by cbv, by cbv, "Y", false, by cbv, by cbv⟩
    · exact ⟨by cbv, by cbv, "Y", false, by cbv, by cbv⟩
  · rintro (_ | _)
    · exact ⟨by cbv, by cbv, "Y", true, by cbv, by cbv⟩
    · exact ⟨by cbv, by cbv, "Y", true, by cbv, by cbv⟩

end Engine

end InvariantInference
