import Mathlib
import InvariantInference.Assignment

/-!
# Values of assignments

How the operations on an assignment show in the values that it gives to names,
and how these values are read back from the hypothesis that is made of it.
-/

namespace InvariantInference

/-- Exactly the names of some entries have a value. -/
theorem lookup_eq_none_iff {entries : List (String × Bool)} {name : String} :
    entries.lookup name = none ↔ name ∉ entries.map (·.1) := by
  rw [List.lookup_eq_none_iff]
  simp only [bne_iff_ne, ne_eq, List.mem_map, not_exists, not_and]
  exact ⟨fun all entry member same => all entry member same.symm,
    fun none entry member same => none entry member same.symm⟩

namespace Assignment

theorem ext {a b : Assignment} (entries : a.entries = b.entries) (frozen : a.frozen = b.frozen) :
    a = b := by
  cases a
  cases b
  cases entries
  cases frozen
  rfl

theorem get?_eq_none_iff {a : Assignment} {name : String} :
    a.get? name = none ↔ name ∉ a.entries.map (·.1) := lookup_eq_none_iff

theorem mem_names_of_get? {a : Assignment} {name : String} {value : Bool}
    (found : a.get? name = some value) : name ∈ a.entries.map (·.1) := by
  by_contra absent
  rw [get?_eq_none_iff.mpr absent] at found
  cases found

/-! ## Falling -/

theorem canFall_iff {a : Assignment} {name : String} :
    a.canFall name ↔ a.frozen = false ∧ a.get? name = some true := by
  simp [canFall, isTrue]

/-- Lowering an entry changes the value under one name. -/
theorem lookup_map_lower (entries : List (String × Bool)) (name other : String) :
    (entries.map (lower name)).lookup other =
      if other = name then (entries.lookup other).map (fun _ => false)
      else entries.lookup other := by
  induction entries with
  | nil => simp
  | cons entry rest ih =>
    obtain ⟨key, value⟩ := entry
    by_cases here : other = key
    · subst here
      by_cases same : other = name
      · simp [lower, same]
      · simp [lower, same]
    · have differs : (other == key) = false := by simpa using here
      simp only [List.map_cons, lower, List.lookup_cons, differs]
      exact ih

theorem get?_disable (a : Assignment) (name other : String) :
    (a.disable name).get? other =
      if other = name ∧ a.frozen = false then (a.get? other).map (fun _ => false)
      else a.get? other := by
  unfold disable
  split
  · rename_i falls
    have active : a.frozen = false := by
      simp only [canFall, Bool.and_eq_true, Bool.not_eq_true'] at falls
      exact falls.1
    simp only [get?, lookup_map_lower, active, and_true]
  · rename_i stays
    split
    · rename_i changed
      obtain ⟨rfl, active⟩ := changed
      -- A name whose value does not change is no candidate, or false already.
      simp only [canFall, active, Bool.not_false, Bool.true_and, isTrue, decide_eq_true_eq] at stays
      cases value : a.get? other with
      | none => rfl
      | some v =>
        cases v with
        | false => rfl
        | true => exact absurd value stays
    · rfl

@[simp] theorem frozen_disable (a : Assignment) (name : String) :
    (a.disable name).frozen = a.frozen := by
  unfold disable
  split <;> rfl

@[simp] theorem names_disable (a : Assignment) (name : String) :
    (a.disable name).entries.map (·.1) = a.entries.map (·.1) := by
  unfold disable
  split
  · simp [lower, Function.comp_def]
  · rfl

/-- The assignment after several candidates were made false, one after the other. -/
def disableAll (a : Assignment) (names : List String) : Assignment := names.foldl disable a

theorem disableAll_append (a : Assignment) (names more : List String) :
    a.disableAll (names ++ more) = (a.disableAll names).disableAll more :=
  List.foldl_append

theorem get?_disableAll (a : Assignment) (names : List String) (other : String) :
    (a.disableAll names).get? other =
      if other ∈ names ∧ a.frozen = false then (a.get? other).map (fun _ => false)
      else a.get? other := by
  induction names generalizing a with
  | nil => simp [disableAll]
  | cons name names ih =>
    have rest := ih (a.disable name)
    simp only [disableAll, List.foldl_cons] at rest ⊢
    rw [rest, get?_disable, frozen_disable]
    by_cases active : a.frozen = false
    · by_cases same : other = name
      · by_cases later : other ∈ names <;> simp [same, active, Function.comp_def]
      · simp [same, active]
    · simp [active]

@[simp] theorem frozen_disableAll (a : Assignment) (names : List String) :
    (a.disableAll names).frozen = a.frozen := by
  induction names generalizing a with
  | nil => rfl
  | cons name names ih => exact (ih (a.disable name)).trans (frozen_disable a name)

@[simp] theorem names_disableAll (a : Assignment) (names : List String) :
    (a.disableAll names).entries.map (·.1) = a.entries.map (·.1) := by
  induction names generalizing a with
  | nil => rfl
  | cons name names ih => exact (ih (a.disable name)).trans (names_disable a name)

theorem get?_disableAll_of_notMem {a : Assignment} {names : List String} {name : String}
    (spared : name ∉ names) : (a.disableAll names).get? name = a.get? name := by
  rw [get?_disableAll, if_neg (fun fallen => spared fallen.1)]

/-- Whether a candidate can still fall once some have been made false. -/
theorem canFall_disableAll (a : Assignment) (names : List String) (name : String) :
    (a.disableAll names).canFall name ↔ a.canFall name ∧ name ∉ names := by
  simp only [canFall, isTrue, frozen_disableAll, get?_disableAll, Bool.and_eq_true,
    Bool.not_eq_true', decide_eq_true_eq]
  by_cases fallen : name ∈ names ∧ a.frozen = false
  · simp [fallen]
  · rw [if_neg fallen]
    constructor
    · rintro ⟨active, value⟩
      exact ⟨⟨active, value⟩, fun member => fallen ⟨member, active⟩⟩
    · rintro ⟨falls, -⟩
      exact falls

theorem lookup_map_of_mem {names : List String} {name : String} (value : String → Bool)
    (member : name ∈ names) :
    (names.map fun name => (name, value name)).lookup name = some (value name) := by
  induction names with
  | nil => cases member
  | cons first names ih =>
    by_cases same : name = first
    · simp [same]
    · have differs : (name == first) = false := by simpa using same
      rw [List.map_cons, List.lookup_cons, differs]
      exact ih ((List.mem_cons.mp member).resolve_left same)

/-- At first all candidates are true. -/
theorem get?_allTrue {cs : Candidates} {name : String} (member : name ∈ cs.names) :
    (allTrue cs).get? name = some true :=
  lookup_map_of_mem (fun _ => true) member

theorem get?_allTrue_ne_false (cs : Candidates) (name : String) :
    (allTrue cs).get? name ≠ some false := by
  intro value
  have member : name ∈ cs.names := by
    simpa [allTrue, Function.comp_def] using mem_names_of_get? value
  rw [get?_allTrue member] at value
  cases value

theorem disable_ofValues (names : List String) (value : String → Bool) (name : String) :
    (⟨names.map fun other => (other, value other), false⟩ : Assignment).disable name =
      ⟨names.map fun other => (other, value other && other != name), false⟩ := by
  unfold disable
  split
  · simp only [List.map_map]
    rfl
  · rename_i stays
    congr 1
    apply List.map_congr_left
    intro other member
    by_cases same : other = name
    · subst same
      rw [canFall_iff, get?, lookup_map_of_mem value member] at stays
      simp_all
    · simp [same]

/-- Of the candidates exactly those that were made false are false. -/
theorem entries_disableAll_allTrue (cs : Candidates) (fallen : List String) :
    ((allTrue cs).disableAll fallen).entries =
      cs.names.map fun name => (name, !fallen.contains name) := by
  suffices general : ∀ value : String → Bool,
      (⟨cs.names.map fun name => (name, value name), false⟩ : Assignment).disableAll fallen =
        ⟨cs.names.map fun name => (name, value name && !fallen.contains name), false⟩ by
    have result := general fun _ => true
    simp only [Bool.true_and] at result
    exact congrArg entries result
  induction fallen with
  | nil => simp [disableAll]
  | cons first fallen ih =>
    intro value
    rw [disableAll, List.foldl_cons, disable_ofValues, ← disableAll, ih]
    simp only [List.contains_cons, Bool.not_or, Bool.and_assoc]
    rfl

/-! ## The hypothesis of an assignment -/

/-- The conjuncts of a chain of equations are the equations. -/
private theorem conjuncts_foldl (rest : List (String × Bool)) (e : Expr) :
    (rest.foldl (fun e entry => .combine .and e (equation entry)) e).conjuncts =
      e.conjuncts ++ rest.map equation := by
  induction rest generalizing e with
  | nil => simp
  | cons entry rest ih =>
    rw [List.foldl_cons, ih]
    simp [Expr.combine, Expr.conjuncts, equation]

/-- The conjuncts of the hypothesis are the equations of the candidates, or
    `true` where there are none. -/
theorem conjuncts_hypothesis (a : Assignment) :
    a.hypothesis.conjuncts = if a.entries = [] then [.ofBool true] else a.entries.map equation := by
  obtain ⟨entries, frozen⟩ := a
  cases entries with
  | nil => rfl
  | cons first rest =>
    rw [hypothesis, conjuncts_foldl]
    simp [Expr.combine, Expr.conjuncts, equation]

/-- An equation gives its candidate its value. -/
@[simp] theorem binding?_equation (entry : String × Bool) :
    (equation entry).binding? = some entry := rfl

/-- The equations of the hypothesis are the entries of the assignment. -/
theorem filterMap_binding?_hypothesis (a : Assignment) :
    a.hypothesis.conjuncts.filterMap (·.binding?) = a.entries := by
  rw [conjuncts_hypothesis]
  split
  · rename_i empty
    simp [empty, Expr.ofBool, Expr.binding?]
  · rw [List.filterMap_map]
    exact List.filterMap_some

/-- But for equations the hypothesis has no conjuncts, unless there are no candidates. -/
theorem filter_binding?_hypothesis (a : Assignment) :
    a.hypothesis.conjuncts.filter (·.binding?.isNone) =
      if a.entries = [] then [.ofBool true] else [] := by
  rw [conjuncts_hypothesis]
  split
  · rfl
  · simp [List.filter_map, Function.comp_def]

end Assignment

/-- The last of several values decides. Where the names are distinct it does not
    matter which end is looked at first. -/
theorem lookup_reverse {entries : List (String × Bool)}
    (distinct : (entries.map (·.1)).Nodup) (name : String) :
    entries.reverse.lookup name = entries.lookup name := by
  induction entries with
  | nil => rfl
  | cons entry rest ih =>
    obtain ⟨key, value⟩ := entry
    rw [List.map_cons, List.nodup_cons] at distinct
    rw [List.reverse_cons, List.lookup_append, ih distinct.2]
    by_cases here : name = key
    · subst here
      simp [lookup_eq_none_iff.mpr distinct.1]
    · have differs : (name == key) = false := by simpa using here
      simp [List.lookup_cons, differs]

/-- Entries of the same names, in the same order, are equal if the same names are true. -/
theorem entries_eq_of_true_iff {entries entries' : List (String × Bool)}
    (names : entries.map (·.1) = entries'.map (·.1)) (distinct : (entries.map (·.1)).Nodup)
    (same : ∀ name, entries.lookup name = some true ↔ entries'.lookup name = some true) :
    entries = entries' := by
  induction entries generalizing entries' with
  | nil =>
    rw [List.map_nil, eq_comm, List.map_eq_nil_iff] at names
    exact names.symm
  | cons entry rest ih =>
    obtain ⟨key, value⟩ := entry
    cases entries' with
    | nil => cases names
    | cons entry' rest' =>
      obtain ⟨key', value'⟩ := entry'
      obtain ⟨rfl, names'⟩ : key = key' ∧ rest.map (·.1) = rest'.map (·.1) := by
        simpa using names
      rw [List.map_cons, List.nodup_cons] at distinct
      have here : value = value' := by
        have value_iff := same key
        simp only [List.lookup_cons_self, Option.some.injEq] at value_iff
        exact Bool.eq_iff_iff.mpr value_iff
      have there : rest = rest' := by
        refine ih names' distinct.2 fun name => ?_
        by_cases first : name = key
        · -- The name of the first entry has no value in the others.
          subst first
          rw [lookup_eq_none_iff.mpr distinct.1, lookup_eq_none_iff.mpr (names' ▸ distinct.1)]
        · have differs : (name == key) = false := by simpa using first
          have value_iff := same name
          simpa only [List.lookup_cons, differs] using value_iff
      rw [here, there]

end InvariantInference
