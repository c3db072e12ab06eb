import Mathlib
import InvariantInference.Proofs.Candidate
import InvariantInference.Proofs.Model.Horn

/-!
# Assignments as hypotheses

An assignment starts with all candidates true. Some of them are disabled, and at
some point it is frozen. Which candidates are false in the end can be told from
these operations alone: those that were disabled before the first freeze
(`Fell`). All that can be asked of an assignment agrees with this, and so does a
session onto which nothing else is pushed: it starts from these values, and knows
nothing besides them.
-/

namespace InvariantInference

namespace Assignment

/-! ## Operations -/

/-- What can be done to an assignment. -/
inductive Operation where
  | disable (name : String)
  | freeze
  deriving DecidableEq, Repr

/-- The assignment after an operation. -/
def perform (a : Assignment) : Operation → Assignment
  | .disable name => a.disable name
  | .freeze => a.freeze

/-- The assignment after some operations, one after the other. -/
def performAll (a : Assignment) (operations : List Operation) : Assignment :=
  operations.foldl perform a

/-- The name was disabled before the first freeze. -/
def Fell (operations : List Operation) (name : String) : Prop :=
  ∃ before after, operations = before ++ .disable name :: after ∧ .freeze ∉ before

variable {a : Assignment} {cs : Candidates} {operations : List Operation} {name : String}

theorem performAll_concat (a : Assignment) (operations : List Operation) (last : Operation) :
    a.performAll (operations ++ [last]) = (a.performAll operations).perform last := by
  simp [performAll]

theorem not_fell_nil (name : String) : ¬ Fell [] name := by
  rintro ⟨before, after, split, -⟩
  simp at split

/-- One more operation makes a name fall only if it disables it before any freeze. -/
theorem fell_concat_iff {last : Operation} :
    Fell (operations ++ [last]) name ↔
      Fell operations name ∨ last = .disable name ∧ .freeze ∉ operations := by
  constructor
  · rintro ⟨before, after, split, unfrozen⟩
    rcases List.eq_nil_or_concat after with rfl | ⟨after, other, rfl⟩
    · obtain ⟨rfl, same⟩ := List.append_inj' split rfl
      exact .inr ⟨List.singleton_inj.mp same, unfrozen⟩
    · rw [List.concat_eq_append, ← List.cons_append, ← List.append_assoc] at split
      obtain ⟨same, -⟩ := List.append_inj' split rfl
      exact .inl ⟨before, after, same, unfrozen⟩
  · rintro (⟨before, after, rfl, unfrozen⟩ | ⟨rfl, unfrozen⟩)
    · exact ⟨before, after ++ [last], by simp, unfrozen⟩
    · exact ⟨operations, [], rfl, unfrozen⟩

/-- An assignment is frozen from the first freeze on. -/
theorem frozen_performAll_allTrue (cs : Candidates) (operations : List Operation) :
    ((allTrue cs).performAll operations).frozen = true ↔ .freeze ∈ operations := by
  induction operations using List.reverseRecOn with
  | nil => simp [performAll, allTrue]
  | append_singleton operations last ih =>
    rw [performAll_concat]
    cases last with
    | disable other => simp [perform, ih]
    | freeze => simp [perform, freeze]

/-- No operation adds, removes or moves a candidate. -/
theorem names_performAll_allTrue (cs : Candidates) (operations : List Operation) :
    ((allTrue cs).performAll operations).entries.map (·.1) = cs.names := by
  induction operations using List.reverseRecOn with
  | nil => simp [performAll, allTrue, Function.comp_def]
  | append_singleton operations last ih =>
    rw [performAll_concat]
    cases last with
    | disable other => rw [perform, names_disable, ih]
    | freeze => exact ih

/-- The candidates that fell are false. -/
theorem get?_performAll_eq_false_iff :
    ((allTrue cs).performAll operations).get? name = some false ↔
      name ∈ cs.names ∧ Fell operations name := by
  induction operations using List.reverseRecOn with
  | nil => simp [performAll, get?_allTrue_ne_false, not_fell_nil]
  | append_singleton operations last ih =>
    have frozen := frozen_performAll_allTrue cs operations
    have names := names_performAll_allTrue cs operations
    rw [performAll_concat, fell_concat_iff]
    generalize (allTrue cs).performAll operations = a at ih frozen names ⊢
    cases last with
    | freeze => simpa [perform, freeze, get?] using ih
    | disable other =>
      rw [perform, get?_disable]
      split
      · rename_i here
        obtain ⟨rfl, active⟩ := here
        have unfrozen : .freeze ∉ operations := by
          rw [← frozen, active]
          exact Bool.false_ne_true
        have listed : (∃ value, a.get? name = some value) ↔ name ∈ cs.names := by
          rw [← names, ← not_iff_not, ← get?_eq_none_iff, Option.eq_none_iff_forall_ne_some]
          simp
        simp [unfrozen, ← listed]
      · rename_i elsewhere
        have spared : ¬ (Operation.disable other = .disable name ∧ .freeze ∉ operations) := by
          rintro ⟨same, unfrozen⟩
          cases same
          refine elsewhere ⟨rfl, ?_⟩
          rwa [← frozen, Bool.not_eq_true] at unfrozen
        rw [ih, or_iff_left spared]

/-! ## Queries -/

/-- Where each name is listed once, its entry is its value. -/
theorem mem_entries_iff_get? {value : Bool} (distinct : (a.entries.map (·.1)).Nodup) :
    (name, value) ∈ a.entries ↔ a.get? name = some value := by
  rw [get?, List.lookup_eq_some_iff]
  constructor
  · intro member
    obtain ⟨before, after, split⟩ := List.append_of_mem member
    refine ⟨before, after, split, fun entry earlier => ?_⟩
    rw [split, List.map_append, List.nodup_append] at distinct
    have apart := distinct.2.2 entry.1 (List.mem_map_of_mem earlier) name (by simp)
    simpa using apart.symm
  · rintro ⟨before, after, split, -⟩
    simp [split]

/-- Where each name is listed once, the true entries count the names that are true. -/
theorem countTrue_eq_ncard (distinct : (a.entries.map (·.1)).Nodup) :
    a.countTrue = {name | (name, true) ∈ a.entries}.ncard := by
  have standing : {name | (name, true) ∈ a.entries} =
      (((a.entries.filter (·.2)).map (·.1)).toFinset : Set String) := by
    ext name
    simp
  have once : ((a.entries.filter (·.2)).map (·.1)).Nodup :=
    distinct.sublist (List.filter_sublist.map _)
  rw [standing, Set.ncard_coe_finset, List.toFinset_card_of_nodup once, List.length_map, countTrue,
    List.countP_eq_length_filter]

/-- A candidate can fall iff disabling it changes its value. -/
theorem canFall_iff_changes :
    a.canFall name ↔ (a.disable name).get? name ≠ a.get? name := by
  constructor
  · intro falls
    obtain ⟨active, value⟩ := canFall_iff.mp falls
    rw [get?_disable, if_pos ⟨rfl, active⟩, value]
    simp
  · intro changes
    by_contra stays
    exact changes (by rw [disable_of_not_canFall stays])

/-- What an assignment of the candidates of a program says after some operations, and what
    it answers. -/
structure Reflects (program : Program) (operations : List Operation) (a : Assignment) : Prop where
  /-- Each candidate is listed once, in order of declaration. -/
  names : a.entries.map (·.1) = program.existentials.map (·.name.value)
  distinct : (a.entries.map (·.1)).Nodup
  fell : ∀ name value, (name, value) ∈ a.entries → (value = false ↔ Fell operations name)
  get : ∀ name value, a.get? name = some value ↔ (name, value) ∈ a.entries
  countTrue : a.countTrue = {name | (name, true) ∈ a.entries}.ncard
  /-- Disabling a name answers whether it was true and nothing was frozen, and so whether it
      changes the value. -/
  falls : ∀ name, a.canFall name ↔ (name, true) ∈ a.entries ∧ .freeze ∉ operations
  changes : ∀ name, a.canFall name ↔ (a.disable name).get? name ≠ a.get? name

theorem reflects_performAll {program : Program} (collected : Candidates.collect program = .ok cs)
    (operations : List Operation) :
    ((allTrue cs).performAll operations).Reflects program operations := by
  have listed := names_performAll_allTrue cs operations
  have distinct : (((allTrue cs).performAll operations).entries.map (·.1)).Nodup := by
    rw [listed]
    exact Candidates.nodup_names_collect collected
  obtain ⟨-, same⟩ := Candidates.collect_eq_ok_iff.mp collected
  refine ⟨?_, distinct, ?_, ?_, countTrue_eq_ncard distinct, ?_, fun _ => canFall_iff_changes⟩
  · rw [listed, same, Candidates.names_existentials]
  · intro name value member
    have candidate : name ∈ cs.names := by
      rw [← listed]
      exact List.mem_map_of_mem member
    rw [mem_entries_iff_get? distinct] at member
    have false_iff := @get?_performAll_eq_false_iff cs operations name
    rw [member] at false_iff
    simpa [candidate] using false_iff
  · exact fun name value => (mem_entries_iff_get? distinct).symm
  · intro name
    rw [canFall_iff, mem_entries_iff_get? distinct, ← frozen_performAll_allTrue cs operations,
      Bool.not_eq_true]
    exact and_comm

/-- The equations in the hypothesis of an assignment are its entries. -/
theorem bindings_hypothesis (a : Assignment) : a.hypothesis.bindings = a.entries :=
  filterMap_binding?_hypothesis a

end Assignment

/-! ## Sessions -/

namespace Model.Session

/-- The session gives the candidates the values of the assignment and starts the walk of its body
    from them, with no condition known, no implication parked and nothing false assumed. -/
structure StartsFrom (a : Assignment) (s : Session) : Prop where
  bindings : s.bindings.Perm a.entries
  lookup : ∀ name, s.bindings.lookup name = a.get? name
  evaluate : s.evaluate = .ofErrors (Step.walk ⟨s.bindings, [], [], false⟩ s.bodySteps)

theorem startsFrom_push {a : Assignment} (distinct : (a.entries.map (·.1)).Nodup) {s : Session}
    (empty : s.stack = []) : (s.push a.hypothesis).2.StartsFrom a := by
  have bindings : (s.push a.hypothesis).2.bindings = a.entries.reverse := bindings_under a empty
  refine ⟨?_, ?_, ?_⟩
  · rw [bindings]
    exact List.reverse_perm a.entries
  · intro name
    rw [bindings]
    exact lookup_reverse distinct name
  · rw [bindings]
    exact evaluate_under a empty

/-- After any operations an assignment lists each candidate once, in order of declaration and
    false iff it fell, and its queries agree with this list. The equations of its hypothesis are
    this list again, and a session with an empty stack onto which it is pushed starts from it. -/
theorem hypothesis_carries_assignment {program : Program} {cs : Candidates}
    (collected : Candidates.collect program = .ok cs) (operations : List Assignment.Operation) :
    let a := (Assignment.allTrue cs).performAll operations
    a.Reflects program operations ∧ a.hypothesis.bindings = a.entries ∧
      ∀ s : Session, s.stack = [] → (s.push a.hypothesis).2.StartsFrom a := by
  intro a
  have reflects : a.Reflects program operations :=
    Assignment.reflects_performAll collected operations
  refine ⟨reflects, a.bindings_hypothesis, ?_⟩
  intro s empty
  exact startsFrom_push reflects.distinct empty

/-- A candidate that is disabled twice, a name that is none, and a candidate that is disabled too
    late. -/
def lateOperations : List Assignment.Operation :=
  [.disable "Q", .disable "Z", .disable "Q", .freeze, .disable "P"]

/-- Of the candidates of the guarded call only `Q` falls, and its session knows so. -/
theorem hypothesis_carries_assignment_guardedCall :
    ∃ cs s, Candidates.collect Program.guardedCall = .ok cs ∧
      oracle .empty Program.guardedCall Program.guardedCaller = .ok s ∧
      let a := (Assignment.allTrue cs).performAll lateOperations
      a.Reflects Program.guardedCall lateOperations ∧ a.entries = [("P", true), ("Q", false)] ∧
        a.hypothesis.bindings = [("P", true), ("Q", false)] ∧
        (s.push a.hypothesis).2.StartsFrom a := by
  have collected : Candidates.collect Program.guardedCall =
      .ok ⟨[.synthetic "P", .synthetic "Q"]⟩ := rfl
  obtain ⟨reflects, bindings, starts⟩ := hypothesis_carries_assignment collected lateOperations
  refine ⟨_, _, collected, rfl, reflects, by decide, ?_, starts _ rfl⟩
  rw [bindings]
  decide

end Model.Session

end InvariantInference
