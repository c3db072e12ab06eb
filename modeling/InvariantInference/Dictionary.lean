/-!
# Dictionaries

A dictionary maps names to values. It keeps its entries in the order in which
their names first came in; `sorted` lists them by name.
-/

namespace InvariantInference

/-- Values under names, each name once. -/
structure Dictionary (α : Type) where
  entries : List (String × α)
  deriving DecidableEq, Repr

namespace Dictionary

variable {α : Type}

/-- The dictionary without entries. -/
def empty : Dictionary α := ⟨[]⟩

/-- The value under a name. -/
def get? (d : Dictionary α) (name : String) : Option α :=
  (d.entries.find? (·.1 = name)).map (·.2)

/-- Changes the value under a name, or adds one. -/
def alterEntries (name : String) (f : Option α → α) : List (String × α) → List (String × α)
  | [] => [(name, f none)]
  | (key, value) :: rest =>
    if key = name then (key, f (some value)) :: rest else (key, value) :: alterEntries name f rest

/-- The dictionary with the value under a name changed, or added if there was
    none. -/
def alter (d : Dictionary α) (name : String) (f : Option α → α) : Dictionary α :=
  ⟨alterEntries name f d.entries⟩

/-- The dictionary with a value under a name. -/
def insert (d : Dictionary α) (name : String) (value : α) : Dictionary α :=
  d.alter name (fun _ => value)

/-- The dictionary of some entries, the last of each name. -/
def ofList (entries : List (String × α)) : Dictionary α :=
  entries.foldl (fun d entry => d.insert entry.1 entry.2) empty

/-- The number of entries. -/
def size (d : Dictionary α) : Nat := d.entries.length

/-- The names, in the order in which they came in. -/
def names (d : Dictionary α) : List String := d.entries.map (·.1)

/-- The values, in the order of their names. -/
def values (d : Dictionary α) : List α := d.entries.map (·.2)

/-- The entries by name, in the order of code points. -/
def sorted (d : Dictionary α) : List (String × α) :=
  d.entries.mergeSort (fun a b => decide (a.1 ≤ b.1))

/-- The value under a name after a change. -/
theorem get?_alter (d : Dictionary α) (name name' : String) (f : Option α → α) :
    (d.alter name f).get? name' =
      if name' = name then some (f (d.get? name)) else d.get? name' := by
  obtain ⟨entries⟩ := d
  simp only [get?, alter]
  induction entries with
  | nil => by_cases same : name' = name <;> simp [alterEntries, same, eq_comm]
  | cons entry rest ih =>
    obtain ⟨key, value⟩ := entry
    simp only [alterEntries]
    by_cases found : key = name
    · subst found
      by_cases same : name' = key
      · simp [same]
      · have other : ¬ key = name' := fun equal => same equal.symm
        simp [same, other]
    · by_cases here : key = name'
      · have other : ¬ name' = name := fun equal => found (here.trans equal)
        simp [here, other]
      · simp [found, here, ih]

/-- The value under a name after an insertion. -/
theorem get?_insert (d : Dictionary α) (name name' : String) (value : α) :
    (d.insert name value).get? name' = if name' = name then some value else d.get? name' :=
  get?_alter d name name' _

end Dictionary

end InvariantInference
