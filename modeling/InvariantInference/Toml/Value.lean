import InvariantInference.Span
import InvariantInference.Binary64.Decimal
import InvariantInference.Toml.Moment

/-!
# Documents

The values of a TOML document with the spans of their texts. A table keeps its
entries in the order of the text, and remembers how it was written, which
decides how later lines may extend it.
-/

namespace InvariantInference.Toml

/-- A floating point number. -/
inductive Floating where
  | finite (negative : Bool) (magnitude : Binary64)
  | infinite (negative : Bool)
  | nan

namespace Floating

/-- The number with the fewest digits that read back, never with an exponent
    and always with a point. -/
def text : Floating → String
  | finite negative magnitude =>
    (if negative then "-" else "") ++ magnitude.shortest.positional
  | infinite negative => if negative then "-inf" else "inf"
  | nan => "NaN"

end Floating

/-- How a table was written. -/
inductive TableForm where
  /-- In braces. -/
  | inline
  /-- Under a header of its own. -/
  | header
  /-- Only as a step of the path in the header of another table. -/
  | implied
  /-- Only as a step of a dotted key. -/
  | dotted
  deriving DecidableEq, Repr

/-- A value of a document. -/
inductive Value where
  | string (span : Span) (text : String)
  | integer (span : Span) (value : Int)
  | float (span : Span) (value : Floating)
  | boolean (span : Span) (value : Bool)
  | datetime (span : Span) (moment : Moment)
  | array (span : Span) (items : List Value)
  /-- An array of tables, each under a header in double brackets. -/
  | tables (items : List Value)
  /-- A table; one that was only a step of a path has no text of its own. -/
  | table (form : TableForm) (span : Option Span) (entries : List (Located String × Value))

/-- The entries of a table. -/
abbrev Entries := List (Located String × Value)

namespace Value

/-- The span of a value, if it has a text of its own. An array of tables runs
    from its first table to its last. -/
def span? : Value → Option Span
  | string span _ => some span
  | integer span _ => some span
  | float span _ => some span
  | boolean span _ => some span
  | datetime span _ => some span
  | array span _ => some span
  | tables items =>
    match items.head?, items.getLast? with
    | some (table _ (some first) _), some (table _ (some last) _) =>
      some (.between first.offset last.stop)
    | _, _ => none
  | table _ span _ => span

/-- The kind of a value, in words. -/
def kindName : Value → String
  | string _ _ => "string"
  | integer _ _ => "integer"
  | float _ _ => "float"
  | boolean _ _ => "boolean"
  | datetime _ _ => "datetime"
  | array _ _ | tables _ => "array"
  | table _ _ _ => "table"

end Value

/-- A table in the course of being filled. -/
structure Table where
  form : TableForm
  span : Option Span
  entries : Entries

namespace Table

/-- The table as a value. -/
def toValue (t : Table) : Value := .table t.form t.span t.entries

/-- The value under a key. -/
def get? (t : Table) (key : String) : Option Value :=
  (t.entries.find? (·.1.value = key)).map (·.2)

/-- Replaces what stands under a key, or adds it at the end. -/
def alter (key : Located String) (f : Option Value → Option Value) : Entries → Option Entries
  | [] => (f none).map (fun value => [(key, value)])
  | (key', value) :: rest =>
    if key'.value = key.value then
      (f (some value)).map (fun value' => (key', value') :: rest)
    else
      (alter key f rest).map ((key', value) :: ·)

/-- Changes the last of some tables. -/
def alterLast (f : Table → Option Table) : List Value → Option (List Value)
  | [] => none
  | [.table form span entries] => (f ⟨form, span, entries⟩).map (fun t => [t.toValue])
  | [_] => none
  | value :: rest => (alterLast f rest).map (value :: ·)

/-- Changes the table at the end of a path. Missing steps are created; a step
    into an array of tables is one into its last table. A table in braces is
    closed, and dotted keys do not reach into a table that has a header. -/
def descend (dotted : Bool) (f : Table → Option Table) :
    List (Located String) → Table → Option Table
  | [], t => f t
  | key :: path, t =>
    let step (next : Table) : Option Table := descend dotted f path next
    let entries := alter key (fun
      | none => (step ⟨if dotted then .dotted else .implied, none, []⟩).map toValue
      | some (.table form span entries) =>
        if form = .inline ∨ (dotted ∧ form = .header) then none
        else (step ⟨form, span, entries⟩).map toValue
      | some (.tables items) => (alterLast step items).map .tables
      | some _ => none) t.entries
    entries.map (fun entries => { t with entries })

/-- Adds the value of a dotted key: the steps of the key, its last part, and
    the value. A key is given once, and only dotted keys fill the tables that
    dotted keys made. -/
def insertPair (path : List (Located String)) (key : Located String) (value : Value) (t : Table) :
    Option Table :=
  descend true (fun t =>
    if decide (t.form = .dotted) = path.isEmpty then none
    else
      (alter key (fun
        | none => some value
        | some _ => none) t.entries).map (fun entries => { t with entries })) path t

/-- The table whose span now reaches to the end of one of its values. -/
def extendTo (value : Value) (t : Table) : Table :=
  match t.span, value.span? with
  | some span, some last => { t with span := some (.between span.offset last.stop) }
  | _, _ => t

/-- Opens the table of a header: a new one, or one that was only implied and
    from now on stands where its header does. -/
def openTable (path : List (Located String)) (key : Located String) (span : Span) (t : Table) :
    Option Table :=
  descend false (fun t =>
    match t.get? key.value with
    | none => some { t with entries := t.entries ++ [(key, .table .header (some span) [])] }
    | some (.table .implied _ entries) =>
      let others := t.entries.filter (·.1.value ≠ key.value)
      some { t with entries := others ++ [(key, .table .header (some span) entries)] }
    | some _ => none) path t

/-- Adds a table to the array of tables that a header names. -/
def pushTable (path : List (Located String)) (key : Located String) (span : Span) (t : Table) :
    Option Table :=
  let new : Value := .table .header (some span) []
  descend false (fun t =>
    (alter key (fun
      | none => some (.tables [new])
      | some (.tables items) => some (.tables (items ++ [new]))
      | some _ => none) t.entries).map (fun entries => { t with entries })) path t

end Table

end InvariantInference.Toml
