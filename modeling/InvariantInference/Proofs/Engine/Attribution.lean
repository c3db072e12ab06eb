import Mathlib
import InvariantInference.Proofs.Engine.Sessions
import InvariantInference.Proofs.Model.Redundancy

/-!
# Candidates that a session refutes

A counterexample refutes the candidate that guards its condition. So a session
of a guarded-Horn program refutes no true candidate iff its steps violate no
obligation that a true name guards.
-/

namespace InvariantInference

open Model (oracle Passes)

namespace Candidates

variable {cs : Candidates} {c : Counterexample} {name : String}

/-- The counterexamples that refute a candidate are those to conditions that it guards. -/
theorem exists_refutation?_iff :
    (∃ r, cs.refutation? c = some r ∧ r.constant = name) ↔
      c.condition.isGuardedBy name ∧ cs.contains name := by
  constructor
  · rintro ⟨r, refutes, rfl⟩
    obtain ⟨span, premise, conclusion, shape, named, candidate⟩ := guard_of_refutation? refutes
    exact ⟨Expr.isGuardedBy_iff.mpr ⟨span, premise, conclusion, shape, named⟩, candidate⟩
  · rintro ⟨guarded, candidate⟩
    obtain ⟨span, premise, conclusion, shape, named⟩ := Expr.isGuardedBy_iff.mp guarded
    have guard : cs.guard? c.condition = some name := by
      rw [guard?, shape]
      exact Option.filter_eq_some_iff.mpr ⟨named, candidate⟩
    simp only [refutation?, annotation?, guard, Option.map_some, Option.some.injEq,
      exists_eq_left', Refutation.constant]
    cases c.kind <;> rfl

end Candidates

namespace Model

variable {program : Program} {cs : Candidates} {i : Implementation} {a : Assignment} {s : Session}

/-- A fresh session of the implementation answers under the assignment, and none of its
    counterexamples refutes a candidate that is true. -/
def RefutesNone (program : Program) (cs : Candidates) (i : Implementation) (a : Assignment) :
    Prop :=
  ∃ s verdict, oracle .empty program i = .ok s ∧
    (Session.verifyUnder s a.hypothesis).1 = .ok verdict ∧
    ∀ c ∈ verdict.errors, ∀ r, cs.refutation? c = some r → a.get? r.constant ≠ some true

/-- An implementation that passes refutes nothing. -/
theorem Passes.refutesNone (passes : Passes program i a) : RefutesNone program cs i a := by
  obtain ⟨s, verdict, opened, answered, correct⟩ := passes
  have idle := Session.idle_of_oracle opened
  have silent := (passes_iff idle).mp ⟨s, verdict, opened, answered, correct⟩
  refine (exists_fresh_iff idle).mpr ?_
  rw [silent]
  simp

/-- An implementation of a guarded-Horn program refutes no true candidate iff its steps
    violate nothing that a true name guards. -/
theorem refutesNone_iff_unrefuted (horn : program.GuardedHorn cs)
    (declared : i ∈ program.implementations) (idle : s.Idle program i)
    (names : a.entries.map (·.1) = cs.names) (distinct : cs.names.Nodup) :
    RefutesNone program cs i a ↔ Step.Unrefuted a.get? s.bodySteps := by
  have reported : ∀ failure, failure ∈ (s.under a.hypothesis).evaluate.errors ↔
      Step.Violates a.get? s.bodySteps failure :=
    fun _ => Session.mem_errors_under_iff horn declared idle names distinct
  rw [RefutesNone, exists_fresh_iff idle]
  constructor
  · intro spared name holds failure guarded violates
    have candidate : cs.contains name := by
      simpa [Candidates.contains, names] using Assignment.mem_names_of_get? holds
    obtain ⟨r, refutes, rfl⟩ := Candidates.exists_refutation?_iff.mpr ⟨guarded, candidate⟩
    exact spared failure ((reported failure).mpr violates) r refutes holds
  · intro unrefuted c member r refutes holds
    obtain ⟨guarded, -⟩ := Candidates.exists_refutation?_iff.mp ⟨r, refutes, rfl⟩
    exact unrefuted r.constant holds c guarded ((reported c).mp member)

end Model

end InvariantInference
