import Mathlib
import InvariantInference.Proofs.Toml.Readers

/-!
# Where the strings of a document come from

Statements fill the tables of a document. Whatever a statement does to the tables
that are there, it brings in no string that does not stand in its own value. And
the strings that stand in the value of a statement were read as strings. So every
string of a document was read somewhere in its text, and its span is where.
-/

namespace InvariantInference.Toml

variable {text : Located String}

/-- What shows after some steps showed before them, or one of them adds it. -/
theorem exists_of_foldlM {σ α : Type} {step : σ → α → Option σ} {shows : σ → Prop}
    {adds : α → Prop} (each : ∀ s a s', step s a = some s' → shows s' → shows s ∨ adds a)
    {l : List α} {s s' : σ} (folded : l.foldlM step s = some s') (shown : shows s') :
    shows s ∨ ∃ a ∈ l, adds a := by
  induction l generalizing s with
  | nil =>
    cases folded
    exact .inl shown
  | cons a l ih =>
    rw [List.foldlM_cons] at folded
    obtain ⟨next, stepped, rest⟩ := Option.bind_eq_some_iff.mp folded
    rcases ih rest with shown | ⟨a', member, added⟩
    · rcases each s a next stepped shown with shown | added
      · exact .inl shown
      · exact .inr ⟨a, List.mem_cons_self, added⟩
    · exact .inr ⟨a', List.mem_cons_of_mem a member, added⟩

/-- The string stands in the value. -/
inductive Value.Holds (text : Located String) : Value → Prop
  | string : Holds text (.string text.span text.value)
  | array {span : Span} {items : List Value} {v : Value} (member : v ∈ items)
      (holds : Holds text v) : Holds text (.array span items)
  | tables {items : List Value} {v : Value} (member : v ∈ items) (holds : Holds text v) :
      Holds text (.tables items)
  | table {form : TableForm} {span : Option Span} {entries : Entries} {key : Located String}
      {v : Value} (member : (key, v) ∈ entries) (holds : Holds text v) :
      Holds text (.table form span entries)

theorem Value.holds_string_iff {span : Span} {s : String} :
    (Value.string span s).Holds text ↔ text = ⟨span, s⟩ := by
  constructor
  · intro holds
    generalize same : Value.string span s = v at holds
    cases holds <;> cases same
    rfl
  · rintro rfl
    exact .string

namespace Table

/-- The string stands in one of the values. -/
def Lists (text : Located String) (entries : Entries) : Prop :=
  ∃ entry ∈ entries, entry.2.Holds text

theorem holds_table_iff {form : TableForm} {span : Option Span} {entries : Entries} :
    (Value.table form span entries).Holds text ↔ Lists text entries := by
  constructor
  · intro holds
    cases holds with
    | table member holds => exact ⟨_, member, holds⟩
  · rintro ⟨⟨key, v⟩, member, holds⟩
    exact .table member holds

theorem lists_cons_iff {entry : Located String × Value} {entries : Entries} :
    Lists text (entry :: entries) ↔ entry.2.Holds text ∨ Lists text entries := by
  simp [Lists]

theorem lists_append_iff {entries more : Entries} :
    Lists text (entries ++ more) ↔ Lists text entries ∨ Lists text more := by
  simp [Lists, or_and_right, exists_or]

/-! ## Changes to tables -/

/-- The change brings no string into a table but those of `news`. -/
def Brings (news : Located String → Prop) (change : Table → Option Table) : Prop :=
  ∀ t t', change t = some t' → ∀ text, Lists text t'.entries → Lists text t.entries ∨ news text

variable {news : Located String → Prop} {change : Table → Option Table}

theorem lists_of_alter {key : Located String} {f : Option Value → Option Value} {brought : Prop}
    (each : ∀ old v, f old = some v → v.Holds text → (∃ w, old = some w ∧ w.Holds text) ∨ brought)
    {entries entries' : Entries} (altered : alter key f entries = some entries')
    (lists : Lists text entries') : Lists text entries ∨ brought := by
  induction entries generalizing entries' with
  | nil =>
    obtain ⟨v, new, rfl⟩ := Option.map_eq_some_iff.mp altered
    rcases each none v new (by simpa [Lists] using lists) with ⟨w, impossible, -⟩ | news
    · cases impossible
    · exact .inr news
  | cons entry entries ih =>
    obtain ⟨key', w⟩ := entry
    rw [alter] at altered
    split at altered
    · obtain ⟨v, new, rfl⟩ := Option.map_eq_some_iff.mp altered
      rw [lists_cons_iff] at lists ⊢
      rcases lists with holds | lists
      · rcases each (some w) v new holds with ⟨_, same, holds⟩ | news
        · cases same
          exact .inl (.inl holds)
        · exact .inr news
      · exact .inl (.inr lists)
    · obtain ⟨rest, later, rfl⟩ := Option.map_eq_some_iff.mp altered
      rw [lists_cons_iff] at lists ⊢
      rcases lists with holds | lists
      · exact .inl (.inl holds)
      · rcases ih later lists with lists | news
        · exact .inl (.inr lists)
        · exact .inr news

theorem holds_of_alterLast (brings : Brings news change) {items items' : List Value}
    (altered : alterLast change items = some items') {v : Value} (member : v ∈ items')
    (holds : v.Holds text) : (∃ w ∈ items, w.Holds text) ∨ news text := by
  fun_induction alterLast change items generalizing items' with
  | case1 => cases altered
  | case2 form span entries =>
    obtain ⟨t, changed, rfl⟩ := Option.map_eq_some_iff.mp altered
    rw [List.mem_singleton] at member
    rw [member, toValue, holds_table_iff] at holds
    rcases brings _ _ changed text holds with lists | news
    · exact .inl ⟨_, List.mem_singleton_self _, holds_table_iff.mpr lists⟩
    · exact .inr news
  | case3 => cases altered
  | case4 first rest _ _ ih =>
    obtain ⟨rest', later, rfl⟩ := Option.map_eq_some_iff.mp altered
    rcases List.mem_cons.mp member with rfl | member
    · exact .inl ⟨_, List.mem_cons_self, holds⟩
    · rcases ih later member with ⟨w, inside, holds⟩ | news
      · exact .inl ⟨w, List.mem_cons_of_mem _ inside, holds⟩
      · exact .inr news

/-- A change at the end of a path brings in what it brings in there. -/
theorem brings_descend (brings : Brings news change) (dotted : Bool)
    (path : List (Located String)) : Brings news (descend dotted change path) := by
  induction path with
  | nil => exact brings
  | cons key path ih =>
    intro t t' changed text lists
    obtain ⟨entries, altered, rfl⟩ := Option.map_eq_some_iff.mp changed
    refine lists_of_alter ?_ altered lists
    intro old v new holds
    have inner : ∀ u, (descend dotted change path u).map toValue = some v →
        Lists text u.entries ∨ news text := by
      intro u found
      obtain ⟨u', changed, rfl⟩ := Option.map_eq_some_iff.mp found
      exact ih u u' changed text (holds_table_iff.mp holds)
    split at new
    · rcases inner _ new with ⟨_, impossible, -⟩ | news
      · cases impossible
      · exact .inr news
    · rename_i form span entries
      split at new
      · cases new
      · rcases inner _ new with lists | news
        · exact .inl ⟨_, rfl, holds_table_iff.mpr lists⟩
        · exact .inr news
    · rename_i items
      obtain ⟨items', altered, rfl⟩ := Option.map_eq_some_iff.mp new
      cases holds with
      | tables member holds =>
        rcases holds_of_alterLast ih altered member holds with ⟨w, inside, holds⟩ | news
        · exact .inl ⟨_, rfl, .tables inside holds⟩
        · exact .inr news
    · cases new

theorem brings_insertPair (path : List (Located String)) (key : Located String) (v : Value) :
    Brings (fun text => v.Holds text) (insertPair path key v) := by
  refine brings_descend (fun t t' changed text lists => ?_) true path
  split at changed
  · cases changed
  · obtain ⟨entries, altered, rfl⟩ := Option.map_eq_some_iff.mp changed
    refine lists_of_alter (fun old w new holds => ?_) altered lists
    split at new
    · cases new
      exact .inr holds
    · cases new

/-- No string stands in a table without entries. -/
theorem not_holds_empty {form : TableForm} {span : Option Span} :
    ¬ (Value.table form span []).Holds text := by
  rw [holds_table_iff]
  rintro ⟨_, impossible, -⟩
  cases impossible

theorem brings_openTable (path : List (Located String)) (key : Located String) (span : Span) :
    Brings (fun _ => False) (openTable path key span) := by
  refine brings_descend (fun t t' changed text lists => .inl ?_) false path
  split at changed
  · cases changed
    rcases lists_append_iff.mp lists with lists | ⟨_, member, holds⟩
    · exact lists
    · rw [List.mem_singleton.mp member] at holds
      exact absurd holds not_holds_empty
  · rename_i entries found
    cases changed
    obtain ⟨⟨key', _⟩, here, rfl⟩ := Option.map_eq_some_iff.mp found
    rcases lists_append_iff.mp lists with ⟨entry, member, holds⟩ | ⟨_, member, holds⟩
    · exact ⟨entry, List.mem_of_mem_filter member, holds⟩
    · -- What was under the key has moved to the end.
      rw [List.mem_singleton.mp member, holds_table_iff] at holds
      exact ⟨_, List.mem_of_find?_eq_some here, holds_table_iff.mpr holds⟩
  · cases changed

theorem brings_pushTable (path : List (Located String)) (key : Located String) (span : Span) :
    Brings (fun _ => False) (pushTable path key span) := by
  refine brings_descend (fun t t' changed text lists => ?_) false path
  obtain ⟨entries, altered, rfl⟩ := Option.map_eq_some_iff.mp changed
  refine lists_of_alter (fun old w new holds => .inl ?_) altered lists
  split at new
  · cases new
    cases holds with
    | tables member holds =>
      rw [List.mem_singleton.mp member] at holds
      exact absurd holds not_holds_empty
  · cases new
    cases holds with
    | tables member holds =>
      rcases List.mem_append.mp member with member | member
      · exact ⟨_, rfl, .tables member holds⟩
      · rw [List.mem_singleton.mp member] at holds
        exact absurd holds not_holds_empty
  · cases new

@[simp] theorem entries_extendTo (t : Table) (v : Value) : (t.extendTo v).entries = t.entries := by
  unfold extendTo
  split <;> rfl

end Table

/-! ## Statements -/

/-- The string stands in the value of the statement. -/
def Statement.Holds (text : Located String) : Statement → Prop
  | .pair _ v => v.Holds text
  | _ => False

namespace Progress

theorem lists_of_add {p p' : Progress} {s : Statement} (added : p.add s = some p')
    (lists : Table.Lists text p'.root.entries) :
    Table.Lists text p.root.entries ∨ s.Holds text := by
  cases s with
  | pair path v =>
    obtain ⟨root, changed, same⟩ := Option.bind_eq_some_iff.mp added
    cases same
    have fills : Table.Brings (fun text => v.Holds text)
        (fun t => (t.extendTo v).insertPair path.steps path.key v) := by
      intro t t' changed text lists
      rw [← Table.entries_extendTo t v]
      exact Table.brings_insertPair path.steps path.key v _ _ changed text lists
    exact Table.brings_descend fills false p.current _ _ changed _ lists
  | header path span =>
    obtain ⟨root, changed, same⟩ := Option.bind_eq_some_iff.mp added
    cases same
    exact Table.brings_openTable path.steps path.key span _ _ changed _ lists
  | arrayHeader path span =>
    obtain ⟨root, changed, same⟩ := Option.bind_eq_some_iff.mp added
    cases same
    exact Table.brings_pushTable path.steps path.key span _ _ changed _ lists

/-- Every string of a document stands in one of its statements. -/
theorem holds_of_foldlM_add {p p' : Progress} {statements : List Statement}
    (filled : statements.foldlM add p = some p') (lists : Table.Lists text p'.root.entries) :
    Table.Lists text p.root.entries ∨ ∃ s ∈ statements, s.Holds text :=
  exists_of_foldlM (fun _ _ _ added lists => lists_of_add added lists) filled lists

end Progress

/-! ## Values -/

namespace Reader

variable {c c' : Cursor} {v : Value}

/-- A string that is read with its span. -/
def locatedString : Reader (Located String) := located Reader.text

theorem finds_of_scalar (read : scalar.read c = some (v, c')) (holds : v.Holds text) :
    locatedString.Finds c text := by
  obtain ⟨found, _, readFound, last⟩ := read_bind_iff.mp read
  obtain ⟨rfl, rfl⟩ := read_pure_iff.mp last
  obtain ⟨make, readMake, rfl⟩ := read_located_iff.mp readFound
  obtain ⟨r, member, readMake⟩ := exists_of_read_firstOf readMake
  simp only [List.mem_cons, List.not_mem_nil, or_false] at member
  -- Only the first of the alternatives makes strings.
  rcases member with rfl | rfl | rfl | rfl | rfl | rfl | rfl <;>
    obtain ⟨_, _, readValue, last⟩ := read_bind_iff.mp readMake <;>
    obtain ⟨rfl, rfl⟩ := read_pure_iff.mp last
  · rw [Value.holds_string_iff.mp holds]
    exact finds_of_read (read_located_iff.mpr ⟨_, readValue, rfl⟩)
  all_goals cases holds

variable {inner : Reader Value}

theorem finds_of_mem_array {items : List Value} (read : (array inner).read c = some (items, c'))
    (member : v ∈ items) : inner.Finds c v := by
  obtain ⟨_, _, opening, read⟩ := read_bind_iff.mp read
  obtain ⟨found, _, readItems, read⟩ := read_bind_iff.mp read
  obtain ⟨_, _, _, read⟩ := read_bind_iff.mp read
  obtain ⟨_, _, _, last⟩ := read_bind_iff.mp read
  obtain ⟨rfl, -⟩ := read_pure_iff.mp last
  rcases read_optional_iff.mp readItems with ⟨items, rfl, readSome⟩ | ⟨rfl, -⟩
  · obtain ⟨_, _, readAll, read⟩ := read_bind_iff.mp readSome
    obtain ⟨_, _, _, last⟩ := read_bind_iff.mp read
    obtain ⟨rfl, -⟩ := read_pure_iff.mp last
    refine .of_bind opening ((finds_of_mem_separated readAll member).trans
      fun here stop readItem => ?_)
    obtain ⟨_, _, filling, readItem⟩ := read_bind_iff.mp readItem
    obtain ⟨_, _, readItem, read⟩ := read_bind_iff.mp readItem
    obtain ⟨_, _, _, last⟩ := read_bind_iff.mp read
    obtain ⟨rfl, -⟩ := read_pure_iff.mp last
    exact .of_bind filling (finds_of_read readItem)
  · cases member

theorem finds_of_pair {path : Path} (read : (pair inner).read c = some ((path, v), c')) :
    inner.Finds c v := by
  obtain ⟨_, _, readPath, read⟩ := read_bind_iff.mp read
  obtain ⟨_, _, readSign, read⟩ := read_bind_iff.mp read
  obtain ⟨_, _, readBlanks, read⟩ := read_bind_iff.mp read
  obtain ⟨_, _, readValue, last⟩ := read_bind_iff.mp read
  obtain ⟨same, -⟩ := read_pure_iff.mp last
  cases same
  exact .of_bind readPath (.of_bind readSign (.of_bind readBlanks (finds_of_read readValue)))

theorem finds_of_inlineTable {entries : Entries}
    (read : (inlineTable inner).read c = some (entries, c')) (lists : Table.Lists text entries) :
    ∃ v, inner.Finds c v ∧ v.Holds text := by
  obtain ⟨_, _, opening, read⟩ := read_bind_iff.mp read
  obtain ⟨found, _, readItems, read⟩ := read_bind_iff.mp read
  obtain ⟨_, _, _, read⟩ := read_bind_iff.mp read
  obtain ⟨_, _, _, last⟩ := read_bind_iff.mp read
  simp only at last
  split at last
  · rename_i t filled
    obtain ⟨rfl, -⟩ := read_pure_iff.mp last
    have brought := exists_of_foldlM
      (fun t item t' inserted =>
        Table.brings_insertPair item.1.steps item.1.key item.2 t t' inserted text)
      filled lists
    rcases brought with ⟨_, impossible, -⟩ | ⟨⟨path, v⟩, member, holds⟩
    · cases impossible
    refine ⟨v, .of_bind opening ?_, holds⟩
    rcases read_optional_iff.mp readItems with ⟨items, rfl, readSome⟩ | ⟨rfl, -⟩
    · refine (finds_of_mem_separated readSome member).trans fun here stop readItem => ?_
      obtain ⟨_, _, readPair, read⟩ := read_bind_iff.mp readItem
      obtain ⟨_, _, _, done⟩ := read_bind_iff.mp read
      obtain ⟨rfl, -⟩ := read_pure_iff.mp done
      exact finds_of_pair readPair
    · cases member
  · cases last

theorem finds_of_value (depth : Nat) (read : (value depth).read c = some (v, c'))
    (holds : v.Holds text) : locatedString.Finds c text := by
  induction depth generalizing c c' v with
  | zero => exact finds_of_scalar read holds
  | succ depth ih =>
    have inside : ∀ {c v}, (defer fun _ => value depth).Finds c v → v.Holds text →
        locatedString.Finds c text :=
      fun finds holds => finds.trans fun here stop read => ih read holds
    rw [value] at read
    obtain ⟨r, member, read⟩ := exists_of_read_firstOf read
    simp only [List.mem_cons, List.not_mem_nil, or_false] at member
    rcases member with rfl | rfl | rfl
    · obtain ⟨_, _, found, last⟩ := read_bind_iff.mp read
      obtain ⟨rfl, -⟩ := read_pure_iff.mp last
      obtain ⟨items, readItems, rfl⟩ := read_located_iff.mp found
      cases holds with
      | array member holds => exact inside (finds_of_mem_array readItems member) holds
    · obtain ⟨_, _, found, last⟩ := read_bind_iff.mp read
      obtain ⟨rfl, -⟩ := read_pure_iff.mp last
      obtain ⟨entries, readEntries, rfl⟩ := read_located_iff.mp found
      obtain ⟨v, finds, holds⟩ := finds_of_inlineTable readEntries (Table.holds_table_iff.mp holds)
      exact inside finds holds
    · exact finds_of_scalar read holds

/-- A string in a statement of a document is found where the statement is. -/
theorem finds_of_statement {s : Statement} (read : statement.read c = some (s, c'))
    (holds : s.Holds text) : locatedString.Finds c text := by
  obtain ⟨r, member, read⟩ := exists_of_read_firstOf read
  simp only [List.mem_cons, List.not_mem_nil, or_false] at member
  rcases member with rfl | rfl | rfl <;> obtain ⟨_, _, readPart, last⟩ := read_bind_iff.mp read <;>
    obtain ⟨rfl, -⟩ := read_pure_iff.mp last
  · cases holds
  · cases holds
  · exact (finds_of_pair readPart).trans fun here stop read =>
      finds_of_value nestingLimit read holds

theorem finds_of_line {s : Statement} (read : line.read c = some (some s, c')) :
    statement.Finds c s := by
  obtain ⟨_, _, leading, read⟩ := read_bind_iff.mp read
  obtain ⟨_, _, readStatement, read⟩ := read_bind_iff.mp read
  obtain ⟨_, _, _, read⟩ := read_bind_iff.mp read
  obtain ⟨_, _, _, last⟩ := read_bind_iff.mp read
  obtain ⟨rfl, -⟩ := read_pure_iff.mp last
  rcases read_optional_iff.mp readStatement with ⟨_, same, readStatement⟩ | ⟨impossible, -⟩
  · cases same
    exact .of_bind leading (finds_of_read readStatement)
  · cases impossible

theorem finds_of_statements {found : List Statement} (read : statements.read c = some (found, c'))
    {s : Statement} (member : s ∈ found) : statement.Finds c s := by
  obtain ⟨_, _, mark, read⟩ := read_bind_iff.mp read
  obtain ⟨lines, _, readLines, read⟩ := read_bind_iff.mp read
  obtain ⟨last, _, readLast, done⟩ := read_bind_iff.mp read
  obtain ⟨rfl, -⟩ := read_pure_iff.mp done
  simp only [List.mem_filterMap, id_eq, exists_eq_right, List.mem_append, List.mem_singleton]
    at member
  refine .of_bind mark ?_
  rcases member with member | rfl
  · refine (finds_of_mem_many readLines member).trans fun here stop readLine => ?_
    obtain ⟨_, _, readLine, read⟩ := read_bind_iff.mp readLine
    obtain ⟨_, _, _, done⟩ := read_bind_iff.mp read
    obtain ⟨rfl, -⟩ := read_pure_iff.mp done
    exact finds_of_line readLine
  · exact .of_bind readLines (finds_of_line readLast)

end Reader

/-- Every string of a document is found in its text. -/
theorem finds_of_parse {source : String} {document : Table} (parsed : parse source = some document)
    (holds : document.toValue.Holds text) :
    Reader.locatedString.Finds (.ofString source) text := by
  obtain ⟨statements, readStatements, rest⟩ := Option.bind_eq_some_iff.mp parsed
  obtain ⟨filled, added, last⟩ := Option.bind_eq_some_iff.mp rest
  cases last
  rcases Progress.holds_of_foldlM_add added (Table.holds_table_iff.mp holds) with
    ⟨_, impossible, -⟩ | ⟨s, member, holds⟩
  · cases impossible
  · obtain ⟨_, read⟩ := Reader.exists_of_run readStatements
    exact (Reader.finds_of_statements read member).trans fun here stop readOne =>
      Reader.finds_of_statement readOne holds

end InvariantInference.Toml
