import InvariantInference.Toml.Scalar

/-!
# Reading documents

A document is a sequence of lines: key and value, or the header of the table
that the following lines fill. Reading fails on a text that is no document, on
a key that is given twice and on a table that is defined twice.
-/

namespace InvariantInference.Toml

/-- How deep arrays and tables in braces may nest, and of how many parts a key
    may consist. -/
def nestingLimit : Nat := 79

/-- A dotted key: the steps to the table it speaks of, and its last part. -/
structure Path where
  steps : List (Located String)
  key : Located String

/-- A line of a document that says something. -/
inductive Statement where
  | pair (path : Path) (value : Value)
  | header (path : Path) (span : Span)
  | arrayHeader (path : Path) (span : Span)

namespace Reader

/-- One part of a key. -/
def simpleKey : Reader (Located String) :=
  located (firstOf [
    basicString,
    literalString,
    do
      let chars ← many1 (satisfy (fun c => c.isAlphanum || c = '-' || c = '_'))
      return String.ofList chars])

/-- A key, its parts separated by points. -/
def path : Reader Path := do
  let part : Reader (Located String) := do
    blanks
    let key ← simpleKey
    blanks
    return key
  let parts ← separated part (char '.')
  check (parts.length ≤ nestingLimit)
  match parts.getLast? with
  | some key => return ⟨parts.dropLast, key⟩
  | none => fail

/-- A key, an equals sign and a value. -/
def pair (value : Reader Value) : Reader (Path × Value) := do
  let path ← path
  discard (char '=')
  blanks
  return (path, ← value)

/-- An array in brackets; a comma may stand after its last item. -/
def array (value : Reader Value) : Reader (List Value) := do
  discard (char '[')
  let item : Reader Value := do
    filler
    let v ← value
    filler
    return v
  let items ← optional (do
    let items ← separated item (char ',')
    discard (optional (char ','))
    return items)
  filler
  discard (char ']')
  return items.getD []

/-- A table in braces, on one line and without a comma at its end. -/
def inlineTable (value : Reader Value) : Reader Entries := do
  discard (char '\x7b')
  let item : Reader (Path × Value) := do
    let found ← pair value
    blanks
    return found
  let items ← optional (separated item (char ','))
  blanks
  discard (char '\x7d')
  let filled := (items.getD []).foldlM
    (fun t (path, v) => t.insertPair path.steps path.key v) (⟨.inline, none, []⟩ : Table)
  match filled with
  | some t => return t.entries
  | none => fail

/-- A value in which arrays and tables in braces nest at most `depth` deep. -/
def value : Nat → Reader Value
  | 0 => scalar
  | depth + 1 =>
    let inner : Reader Value := defer fun _ => value depth
    firstOf [
      do
        let found ← located (array inner)
        return .array found.span found.value,
      do
        let found ← located (inlineTable inner)
        return .table .inline (some found.span) found.value,
      scalar]

/-- A statement without the blanks around it. -/
def statement : Reader Statement :=
  firstOf [
    do
      let found ← located (do string "[["; let p ← path; string "]]"; return p)
      return .arrayHeader found.value found.span,
    do
      let found ← located (do discard (char '['); let p ← path; discard (char ']'); return p)
      return .header found.value found.span,
    do
      let (path, v) ← pair (value nestingLimit)
      return .pair path v]

/-- A line without its end. -/
def line : Reader (Option Statement) := do
  blanks
  let found ← optional statement
  blanks
  discard (optional comment)
  return found

/-- The statements of a document, which may start with a byte order mark. -/
def statements : Reader (List Statement) := do
  discard (optional (char '\ufeff'))
  let lines ← many (do let found ← line; newline; return found)
  let last ← line
  return (lines ++ [last]).filterMap id

end Reader

/-- A document in the course of being read: its root and the path of the table
    that the next lines fill. -/
structure Progress where
  root : Table
  current : List (Located String)

namespace Progress

/-- An empty document. -/
def start : Progress := ⟨⟨.header, none, []⟩, []⟩

/-- The document after one more statement. -/
def add (p : Progress) : Statement → Option Progress
  | .pair path v => do
    let fill (t : Table) : Option Table := (t.extendTo v).insertPair path.steps path.key v
    return { p with root := ← p.root.descend false fill p.current }
  | .header path span => do
    return ⟨← p.root.openTable path.steps path.key span, path.steps ++ [path.key]⟩
  | .arrayHeader path span => do
    return ⟨← p.root.pushTable path.steps path.key span, path.steps ++ [path.key]⟩

end Progress

/-- The table that a text describes, or `none` if it is no document. -/
def parse (source : String) : Option Table := do
  let statements ← Reader.statements.run source
  let filled ← statements.foldlM Progress.add Progress.start
  return filled.root

end InvariantInference.Toml
