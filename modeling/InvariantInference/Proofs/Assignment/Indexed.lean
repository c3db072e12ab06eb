import Mathlib
import InvariantInference.Proofs.Dictionary
import InvariantInference.Proofs.Model.Hypothesis

/-!
# Assignments with an index

An assignment can keep the places of its candidates by name, so that it never
searches its entries. The index is made once, from the names of the candidates, and
fits the entries ever after, since no operation moves one. So an assignment with an
index gives the answers of one without, whatever was done to it.
-/

namespace InvariantInference

namespace Assignment

variable {plain : Assignment} {cs : Candidates} {name : String}

/-- Truth values of the candidates, in their order, and the place of each name. -/
structure Indexed where
  entries : List (String × Bool)
  index : Dictionary Nat
  frozen : Bool

namespace Indexed

/-- Every candidate is true. -/
def allTrue (cs : Candidates) : Indexed where
  entries := cs.names.map ((·, true))
  index := .ofList cs.names.zipIdx
  frozen := false

/-- The value at the place of a name. -/
def get? (a : Indexed) (name : String) : Option Bool :=
  (a.index.get? name).bind fun place => (a.entries[place]?).map (·.2)

/-- Makes the entry at the place of a name false; tells whether this changed it. -/
def disable (a : Indexed) (name : String) : Bool × Indexed :=
  if a.frozen then
    (false, a)
  else
    match a.index.get? name with
    | none => (false, a)
    | some place =>
      if (a.entries[place]?).any (·.2) then
        (true, { a with entries := a.entries.modify place fun entry => (entry.1, false) })
      else
        (false, a)

/-- The assignment after an operation. -/
def perform (a : Indexed) : Operation → Indexed
  | .disable name => (a.disable name).2
  | .freeze => { a with frozen := true }

/-- The assignment after some operations, one after the other. -/
def performAll (a : Indexed) (operations : List Operation) : Indexed := operations.foldl perform a

variable {a : Indexed}

/-! ## What is represented -/

/-- The entries are those of the assignment, and the index tells their places. -/
structure Represents (a : Indexed) (plain : Assignment) : Prop where
  entries : a.entries = plain.entries
  frozen : a.frozen = plain.frozen
  distinct : (plain.entries.map (·.1)).Nodup
  index : ∀ name place, a.index.get? name = some place ↔
    (plain.entries.map (·.1))[place]? = some name

theorem Represents.index_eq_some_iff (represents : a.Represents plain) {place : Nat} :
    a.index.get? name = some place ↔ ∃ value, plain.entries[place]? = some (name, value) := by
  rw [represents.index, List.getElem?_map, Option.map_eq_some_iff]
  constructor
  · rintro ⟨⟨_, value⟩, found, rfl⟩
    exact ⟨value, found⟩
  · rintro ⟨value, found⟩
    exact ⟨_, found, rfl⟩

theorem Represents.get? (represents : a.Represents plain) (name : String) :
    a.get? name = plain.get? name := by
  ext value
  rw [← mem_entries_iff_get? represents.distinct, List.mem_iff_getElem?, Indexed.get?,
    Option.bind_eq_some_iff, represents.entries]
  simp only [represents.index_eq_some_iff, Option.map_eq_some_iff]
  constructor
  · rintro ⟨place, ⟨_, found⟩, entry, found', rfl⟩
    rw [found] at found'
    cases found'
    exact ⟨place, found⟩
  · rintro ⟨place, found⟩
    exact ⟨place, ⟨value, found⟩, _, found, rfl⟩

/-- Where each name is listed once, only the entry at its place is lowered. -/
theorem modify_eq_map_lower {entries : List (String × Bool)} {place : Nat} {value : Bool}
    (distinct : (entries.map (·.1)).Nodup) (found : entries[place]? = some (name, value)) :
    (entries.modify place fun entry => (entry.1, false)) = entries.map (lower name) := by
  apply List.ext_getElem?
  intro other
  rw [List.getElem?_modify, List.getElem?_map]
  by_cases here : place = other
  · subst here
    simp [found, lower]
  · cases listed : entries[other]? with
    | none => rfl
    | some entry =>
      have differs : entry.1 ≠ name := by
        rintro rfl
        have below : place < (entries.map (·.1)).length := by
          rw [List.length_map]
          exact (List.getElem?_eq_some_iff.mp found).1
        exact here ((List.getElem?_inj below distinct).mp (by simp [found, listed]))
      obtain ⟨key, old⟩ := entry
      simpa [here, lower] using fun _ => differs

theorem Represents.of_stays (represents : a.Represents plain) (stays : ¬ plain.canFall name) :
    false = plain.canFall name ∧ a.Represents (plain.disable name) := by
  rw [disable_of_not_canFall stays]
  exact ⟨by simpa using stays, represents⟩

/-- The answer is whether the candidate could fall, and only its entry is lowered. -/
theorem Represents.disable (represents : a.Represents plain) (name : String) :
    (a.disable name).1 = plain.canFall name ∧
      (a.disable name).2.Represents (plain.disable name) := by
  have value := represents.get? name
  unfold Indexed.disable
  split
  · rename_i frozen
    refine represents.of_stays fun falls => ?_
    rw [canFall_iff, ← represents.frozen, frozen] at falls
    cases falls.1
  · rename_i active
    split
    · rename_i absent
      refine represents.of_stays fun falls => ?_
      rw [(canFall_iff.mp falls).2, Indexed.get?, absent] at value
      cases value
    · rename_i place known
      obtain ⟨old, found⟩ := represents.index_eq_some_iff.mp known
      rw [Indexed.get?, known, represents.entries, Option.bind_some, found,
        Option.map_some] at value
      rw [represents.entries, found, Option.any_some]
      cases old with
      | false =>
        refine represents.of_stays fun falls => ?_
        rw [(canFall_iff.mp falls).2] at value
        cases value
      | true =>
        have falls : plain.canFall name := by
          rw [canFall_iff, ← represents.frozen, ← value]
          simpa using active
        have lowered := modify_eq_map_lower represents.distinct found
        have names := names_disable plain name
        have after : plain.disable name =
            { plain with entries := plain.entries.map (lower name) } := if_pos falls
        refine ⟨falls.symm, ?_, ?_, ?_, ?_⟩
        · rw [after]
          exact lowered
        · rw [frozen_disable]
          exact represents.frozen
        · rw [names]
          exact represents.distinct
        · rw [names]
          exact represents.index

theorem represents_allTrue (distinct : cs.names.Nodup) :
    (allTrue cs).Represents (Assignment.allTrue cs) := by
  have names : (Assignment.allTrue cs).entries.map (·.1) = cs.names :=
    names_performAll_allTrue cs []
  have keys : (cs.names.zipIdx.map (·.1)).Nodup := by rwa [List.zipIdx_map_fst]
  have listed := Dictionary.entries_ofList keys
  refine ⟨rfl, rfl, by rwa [names], fun name place => ?_⟩
  rw [names, allTrue, ← Dictionary.mem_entries_iff (by rwa [Dictionary.names, listed]), listed,
    List.mem_zipIdx_iff_getElem?]

theorem Represents.perform (represents : a.Represents plain) (operation : Operation) :
    (a.perform operation).Represents (plain.perform operation) := by
  cases operation with
  | disable name => exact (represents.disable name).2
  | freeze => exact ⟨represents.entries, rfl, represents.distinct, represents.index⟩

theorem represents_performAll (distinct : cs.names.Nodup) (operations : List Operation) :
    ((allTrue cs).performAll operations).Represents
      ((Assignment.allTrue cs).performAll operations) := by
  induction operations using List.reverseRecOn with
  | nil => exact represents_allTrue distinct
  | append_singleton operations last ih =>
    rw [performAll_concat, performAll, List.foldl_append]
    exact ih.perform last

/-- With an index or without one, an assignment of the candidates of a program has the same
    entries after the same operations, and gives the same answers. -/
theorem indexed_answers_as_plain {program : Program}
    (collected : Candidates.collect program = .ok cs) (operations : List Operation) :
    let a := (allTrue cs).performAll operations
    let plain := (Assignment.allTrue cs).performAll operations
    a.entries = plain.entries ∧ a.frozen = plain.frozen ∧
      ∀ name, a.get? name = plain.get? name ∧ (a.disable name).1 = plain.canFall name := by
  have represents := represents_performAll (Candidates.nodup_names_collect collected) operations
  exact ⟨represents.entries, represents.frozen,
    fun name => ⟨represents.get? name, (represents.disable name).1⟩⟩

end Indexed

end Assignment

end InvariantInference
