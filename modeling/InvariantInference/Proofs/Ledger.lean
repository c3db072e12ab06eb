import Mathlib
import InvariantInference.Ledger
import InvariantInference.Proofs.Dictionary

/-!
# Records of a ledger

What the two kinds of entries in a ledger, that of a round and that of
refutations, do to the record of every implementation.
-/

namespace InvariantInference

namespace Ledger

variable {l : Ledger} {name other : String} {outcome : Outcome} {genuine : List Counterexample}

/-- The refutations on record of an implementation. -/
def refutations (l : Ledger) (name : String) : List Refutation :=
  ((l.get? name).map (·.refutations)).getD []

theorem mem_refutations {r : Refutation} :
    r ∈ l.refutations name ↔ ∃ record, l.get? name = some record ∧ r ∈ record.refutations := by
  unfold refutations
  cases l.get? name with
  | none => simp
  | some record => simp

/-- A round enters its outcome and its genuine violations, and keeps the refutations. -/
theorem get?_record_self (l : Ledger) (name : String) (outcome : Outcome)
    (genuine : List Counterexample) :
    ∃ record, (l.record name outcome genuine).get? name = some record ∧
      record.outcome = outcome ∧ record.genuine = genuine ∧
      record.refutations = l.refutations name := by
  rw [get?, record, Dictionary.get?_alter, if_pos rfl]
  unfold refutations get?
  cases l.records.get? name with
  | none => exact ⟨_, rfl, rfl, rfl, rfl⟩
  | some record => exact ⟨_, rfl, rfl, rfl, rfl⟩

theorem get?_record_of_ne (differs : other ≠ name) :
    (l.record name outcome genuine).get? other = l.get? other := by
  rw [get?, record, Dictionary.get?_alter, if_neg differs]
  rfl

theorem refutations_record :
    (l.record name outcome genuine).refutations other = l.refutations other := by
  by_cases same : other = name
  · subst same
    obtain ⟨record, found, -, -, kept⟩ := l.get?_record_self other outcome genuine
    rw [refutations, found, ← kept]
    rfl
  · rw [refutations, get?_record_of_ne same]
    rfl

/-- Refutations are added to those of an implementation that has a record. -/
theorem refutations_refuted {record : OutcomeRecord} (found : l.get? name = some record)
    (refuted : List Refutation) :
    (l.refuted name refuted).refutations other =
      if other = name then l.refutations name ++ refuted else l.refutations other := by
  have entered : (l.refuted name refuted).get? other = if other = name then
      some { record with refutations := record.refutations ++ refuted } else l.get? other := by
    unfold Ledger.refuted
    rw [found]
    exact Dictionary.get?_insert _ _ _ _
  unfold refutations
  rw [entered]
  split
  · rw [found]
    rfl
  · rfl

/-- Refutations change nothing else in a record. -/
theorem get?_refuted (l : Ledger) (name other : String) (refuted : List Refutation) :
    (l.refuted name refuted).get? other =
      if other = name then
        (l.get? name).map fun r => { r with refutations := r.refutations ++ refuted }
      else l.get? other := by
  unfold Ledger.refuted
  cases found : l.get? name with
  | none =>
    by_cases same : other = name
    · rw [if_pos same, same]
      exact found
    · rw [if_neg same]
  | some record => exact Dictionary.get?_insert _ _ _ _

@[simp] theorem refuted_nil (l : Ledger) (name : String) : l.refuted name [] = l := by
  unfold Ledger.refuted
  cases found : l.get? name with
  | none => rfl
  | some record =>
    simp only [List.append_nil]
    rw [Dictionary.insert_of_get? found]

/-- The first round of an implementation adds a record. -/
theorem entries_record_of_new (new : name ∉ l.records.names) :
    (l.record name outcome genuine).records.entries =
      l.records.entries ++ [(name, ⟨outcome, genuine, 1, []⟩)] :=
  Dictionary.entries_alter_of_new _ new

/-! ## Attempts -/

/-- The number of rounds on record of an implementation. -/
def attempts (l : Ledger) (name : String) : Nat := ((l.get? name).map (·.attempts)).getD 0

theorem attempts_of_get? {record : OutcomeRecord} (found : l.get? name = some record) :
    l.attempts name = record.attempts := by
  rw [attempts, found]
  rfl

theorem attempts_record :
    (l.record name outcome genuine).attempts other =
      if other = name then l.attempts name + 1 else l.attempts other := by
  unfold attempts
  rw [get?, record, Dictionary.get?_alter]
  split
  · unfold get?
    cases l.records.get? name <;> rfl
  · rfl

theorem attempts_refuted {refuted : List Refutation} :
    (l.refuted name refuted).attempts other = l.attempts other := by
  unfold attempts
  rw [get?_refuted]
  split
  · rename_i same
    rw [same]
    cases l.get? name <;> rfl
  · rfl

/-- A round counts once. -/
theorem total_record :
    (l.record name outcome genuine).records.total (·.attempts) =
      l.records.total (·.attempts) + 1 := by
  apply Nat.add_right_cancel (m := ((l.records.get? name).map (·.attempts)).getD 0)
  rw [record, Dictionary.total_alter]
  cases l.records.get? name with
  | none => rfl
  | some r =>
    simp only [Option.map_some, Option.getD_some]
    omega

/-- Refutations count for nothing. -/
theorem total_refuted {refuted : List Refutation} :
    (l.refuted name refuted).records.total (·.attempts) = l.records.total (·.attempts) := by
  unfold Ledger.refuted
  cases found : l.get? name with
  | none => rfl
  | some r =>
    have changed := l.records.total_alter (·.attempts) name
      (fun _ => { r with refutations := r.refutations ++ refuted })
    rw [show l.records.get? name = some r from found] at changed
    exact Nat.add_right_cancel changed

/-- Refutations are of an implementation that is on record. -/
theorem names_refuted {refuted : List Refutation} :
    (l.refuted name refuted).records.names = l.records.names := by
  unfold Ledger.refuted
  cases found : l.get? name with
  | none => rfl
  | some r =>
    apply (Dictionary.names_alter _ _ _).trans
    rw [if_pos (Dictionary.mem_names_iff.mpr ⟨r, found⟩)]

end Ledger

end InvariantInference
