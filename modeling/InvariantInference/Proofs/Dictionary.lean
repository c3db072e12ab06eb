import Mathlib
import InvariantInference.Dictionary

/-!
# Names and totals of dictionaries

A change under a name adds the name where it is new and keeps all others, so a
dictionary that is built by changes holds each name once. What a change adds to
a total over all values shows in the value under its name alone.
-/

namespace InvariantInference

namespace Dictionary

variable {α : Type} {d : Dictionary α} {name : String} {value : α}

/-- The names of a dictionary are those with a value. -/
theorem mem_names_iff : name ∈ d.names ↔ ∃ value, d.get? name = some value := by
  rw [names, List.mem_map]
  constructor
  · rintro ⟨entry, member, rfl⟩
    have found : (d.entries.find? (·.1 = entry.1)).isSome :=
      List.find?_isSome.mpr ⟨entry, member, by simp⟩
    obtain ⟨first, same⟩ := Option.isSome_iff_exists.mp found
    exact ⟨first.2, by rw [get?, same]; rfl⟩
  · rintro ⟨value, found⟩
    obtain ⟨entry, same, -⟩ := Option.map_eq_some_iff.mp found
    have named := List.find?_some same
    exact ⟨entry, List.mem_of_find?_eq_some same, by simpa using named⟩

theorem mem_entries_iff (distinct : d.names.Nodup) :
    (name, value) ∈ d.entries ↔ d.get? name = some value := by
  constructor
  · intro member
    obtain ⟨other, found⟩ := mem_names_iff.mp (List.mem_map_of_mem (f := (·.1)) member)
    obtain ⟨entry, same, rfl⟩ := Option.map_eq_some_iff.mp found
    have named : entry.1 = name := by simpa using List.find?_some same
    have equal := List.inj_on_of_nodup_map distinct (List.mem_of_find?_eq_some same) member named
    rw [found, equal]
  · intro found
    obtain ⟨entry, same, rfl⟩ := Option.map_eq_some_iff.mp found
    have named : entry.1 = name := by simpa using List.find?_some same
    rw [← named]
    exact List.mem_of_find?_eq_some same

theorem mem_sorted_iff (distinct : d.names.Nodup) :
    (name, value) ∈ d.sorted ↔ d.get? name = some value := by
  rw [sorted, List.mem_mergeSort]
  exact mem_entries_iff distinct

theorem perm_sorted (d : Dictionary α) : d.sorted.Perm d.entries := List.mergeSort_perm _ _

/-- Only a new name is added, behind all others. -/
theorem names_alter (d : Dictionary α) (name : String) (f : Option α → α) :
    (d.alter name f).names = if name ∈ d.names then d.names else d.names ++ [name] := by
  obtain ⟨entries⟩ := d
  simp only [names, alter]
  induction entries with
  | nil => rfl
  | cons entry rest ih =>
    obtain ⟨key, value⟩ := entry
    rw [alterEntries]
    by_cases here : key = name
    · simp [here]
    · have elsewhere : name ≠ key := fun same => here same.symm
      rw [if_neg here, List.map_cons, ih]
      by_cases later : name ∈ rest.map (·.1)
      · simp [later]
      · simp [later, elsewhere]

theorem nodup_names_alter (distinct : d.names.Nodup) (f : Option α → α) :
    (d.alter name f).names.Nodup := by
  rw [names_alter]
  split
  · exact distinct
  · rename_i fresh
    exact List.concat_eq_append ▸ distinct.concat fresh

/-- A value under a new name comes behind all others. -/
theorem entries_alter_of_new (f : Option α → α) (new : name ∉ d.names) :
    (d.alter name f).entries = d.entries ++ [(name, f none)] := by
  obtain ⟨entries⟩ := d
  simp only [names, alter] at new ⊢
  induction entries with
  | nil => rfl
  | cons entry rest ih =>
    obtain ⟨key, value⟩ := entry
    rw [List.map_cons, List.mem_cons, not_or] at new
    rw [alterEntries, if_neg (Ne.symm new.1), ih new.2]
    rfl

/-- The dictionary of entries with distinct names holds just these. -/
theorem entries_ofList {entries : List (String × α)} (distinct : (entries.map (·.1)).Nodup) :
    (ofList entries).entries = entries := by
  induction entries using List.reverseRecOn with
  | nil => rfl
  | append_singleton entries entry ih =>
    rw [List.map_append, List.nodup_append] at distinct
    obtain ⟨before, -, apart⟩ := distinct
    have new : entry.1 ∉ (ofList entries).names := by
      rw [names, ih before]
      intro known
      exact apart _ known _ (List.mem_singleton_self _) rfl
    have last : ofList (entries ++ [entry]) = (ofList entries).insert entry.1 entry.2 := by
      rw [ofList, List.foldl_append]
      rfl
    rw [last, insert, entries_alter_of_new _ new, ih before]

/-- Inserting what is there changes nothing. -/
theorem insert_of_get? (found : d.get? name = some value) : d.insert name value = d := by
  obtain ⟨entries⟩ := d
  simp only [get?, insert, alter, Dictionary.mk.injEq] at found ⊢
  induction entries with
  | nil => cases found
  | cons entry rest ih =>
    obtain ⟨key, other⟩ := entry
    rw [alterEntries]
    by_cases here : key = name
    · simp only [here, decide_true, List.find?_cons_of_pos, Option.map_some,
        Option.some.injEq] at found
      rw [if_pos here, found]
    · simp only [here, decide_false, Bool.false_eq_true, not_false_eq_true,
        List.find?_cons_of_neg] at found
      rw [if_neg here, ih found]

/-- The sum of the weights of all values. -/
def total (weight : α → Nat) (d : Dictionary α) : Nat := (d.values.map weight).sum

/-- In a total the new value takes the place of the old one, if there was one. -/
theorem total_alter (weight : α → Nat) (d : Dictionary α) (name : String) (f : Option α → α) :
    (d.alter name f).total weight + ((d.get? name).map weight).getD 0 =
      d.total weight + weight (f (d.get? name)) := by
  obtain ⟨entries⟩ := d
  simp only [total, values, alter, get?]
  induction entries with
  | nil => simp [alterEntries]
  | cons entry rest ih =>
    obtain ⟨key, value⟩ := entry
    rw [alterEntries]
    by_cases here : key = name
    · simp only [here, if_true, List.map_cons, List.sum_cons, decide_true, List.find?_cons_of_pos,
        Option.map_some, Option.getD_some]
      omega
    · simp only [here, if_false, List.map_cons, List.sum_cons, decide_false, Bool.false_eq_true,
        not_false_eq_true, List.find?_cons_of_neg]
      omega

/-- The dictionary with all values replaced. -/
def map {β : Type} (f : α → β) (d : Dictionary α) : Dictionary β :=
  ⟨d.entries.map fun entry => (entry.1, f entry.2)⟩

theorem get?_map {β : Type} (f : α → β) (d : Dictionary α) (name : String) :
    (d.map f).get? name = (d.get? name).map f := by
  obtain ⟨entries⟩ := d
  simp only [get?, map]
  induction entries with
  | nil => rfl
  | cons entry rest ih =>
    obtain ⟨key, value⟩ := entry
    rw [List.map_cons]
    by_cases here : key = name
    · simp [here]
    · simpa [here] using ih

end Dictionary

end InvariantInference
