import InvariantInference.Text.Quoted
import InvariantInference.Toml.Value

/-!
# The shape of manifests

Before a manifest is given a meaning its tables have to have the right shape:
fields present, known, and of the right kind. A decoder takes a value of a
document apart or says what is wrong with its shape and where.

The entries of a table are looked at in the order of the text, and fields that
are missing are found after all that are there. A record may also be written as
an array of its fields in their order.
-/

namespace InvariantInference.Manifest

open Toml

/-- What is wrong with the shape of a manifest. -/
inductive ShapeFault where
  | missingField (name : String)
  | unknownField (name : String) (expected : List String)
  | unknownVariant (name : String) (expected : List String)
  /-- A choice among names that is written as neither a string nor a table. -/
  | noVariant
  /-- A choice that is written as a table needs exactly one entry. -/
  | variantEntries (more : Bool)
  /-- The entry of a choice that is written as a table has to be empty. -/
  | variantPayload (message : String)
  | invalidType (got want : String)
  | invalidValue (got : Int) (want : String)
  | invalidLength (length : Nat) (want : String)
  deriving DecidableEq, Repr

namespace ShapeFault

/-- The wording of a fault. -/
def message : ShapeFault → String
  | missingField name => "missing field " ++ Text.ticked name
  | unknownField name expected =>
    "unknown field " ++ Text.ticked name ++ ", " ++ Text.expectedOneOf expected
  | unknownVariant name expected =>
    "unknown variant " ++ Text.ticked name ++ ", " ++ Text.expectedOneOf expected
  | noVariant => "wanted string or table"
  | variantEntries more =>
    "wanted exactly 1 element, " ++ if more then "more than 1 element" else "found 0 elements"
  | variantPayload message => message
  | invalidType got want => "invalid type: " ++ got ++ ", expected " ++ want
  | invalidValue got want =>
    "invalid value: integer " ++ Text.ticked (toString got) ++ ", expected " ++ want
  | invalidLength length want => "invalid length " ++ toString length ++ ", expected " ++ want

end ShapeFault

/-- A fault and the span of the text at fault, as far as there is one. -/
structure ShapeError where
  fault : ShapeFault
  span : Option Span
  deriving DecidableEq, Repr

/-- Takes a value of a document apart. -/
abbrev Decoder (α : Type) := Value → Except ShapeError α

/-- The name under which a date shows itself as the only entry of a table. -/
def datetimeKey : String := "$__toml_private_datetime"

/-- What a value is, in messages. -/
def describe : Value → String
  | .string _ text => "string " ++ Text.quoted text
  | .integer _ n => "integer " ++ Text.ticked (toString n)
  | .float _ x => "floating point " ++ Text.ticked x.text
  | .boolean _ b => "boolean " ++ Text.ticked (if b then "true" else "false")
  | .array _ _ | .tables _ => "sequence"
  | .datetime _ _ | .table _ _ _ => "map"

/-- A value that is not what was wanted. -/
def mismatch {α : Type} (v : Value) (want : String) : Except ShapeError α :=
  .error ⟨.invalidType (describe v) want, v.span?⟩

/-- Points an error without a place at `span`. -/
def pointAt {α : Type} (span : Option Span) : Except ShapeError α → Except ShapeError α
  | .error ⟨fault, none⟩ => .error ⟨fault, span⟩
  | result => result

/-- Decodes the value of an entry; an error that has no place of its own points
    at the value, or else at the key. -/
def entry {α : Type} (d : Decoder α) (key : Located String) (v : Value) : Except ShapeError α :=
  pointAt (v.span?.or (some key.span)) (d v)

namespace Decoder

variable {α : Type}

/-- A string. -/
def text : Decoder String
  | .string _ s => .ok s
  | v => mismatch v "a string"

/-- A truth value. -/
def boolean : Decoder Bool
  | .boolean _ b => .ok b
  | v => mismatch v "a boolean"

/-- A natural number. -/
def natural : Decoder Nat
  | .integer span n =>
    if 0 ≤ n then .ok n.toNat else .error ⟨.invalidValue n "usize", some span⟩
  | v => mismatch v "usize"

/-- A sequence of values. -/
def sequence (d : Decoder α) : Decoder (List α)
  | .array _ items | .tables items => items.mapM d
  | v => mismatch v "a sequence"

/-- A value with its span. A table that has no text of its own cannot be
    located: its first key is taken for the place. -/
def located (d : Decoder α) : Decoder (Located α) := fun v =>
  match v.span?, v with
  | some span, _ => do return ⟨span, ← d v⟩
  | none, .table _ _ ((key, _) :: _) =>
    .error ⟨.invalidType ("string " ++ Text.quoted key.value) "a borrowed string", some key.span⟩
  | none, _ => mismatch v "a spanned value"

/-- A table whose keys are free: its entries, by key. -/
def mapping (d : Decoder α) : Decoder (List (String × α))
  | .table _ span entries => pointAt span (do
    let decoded ← entries.mapM (fun (key, v) => do return (key.value, ← entry d key v))
    return decoded.mergeSort (fun a b => decide (a.1 ≤ b.1)))
  | .datetime span m =>
    .error ⟨.invalidType ("string " ++ Text.quoted m.render) "a spanned value", some span⟩
  | v => mismatch v "a map"

/-- One of several named things: its name, or a table that holds nothing but
    an empty entry of that name. -/
def choice (all : List α) (label : α → String) : Decoder α
  | .string span s => pick s span
  | .table _ span entries =>
    match entries with
    | [] => .error ⟨.variantEntries false, span⟩
    | [(key, payload)] => do
      let chosen ← pick key.value key.span
      pointAt span (unit payload)
      return chosen
    | _ => .error ⟨.variantEntries true, span⟩
  | v => .error ⟨.noVariant, v.span?⟩
where
  /-- The thing of a name. -/
  pick (name : String) (span : Span) : Except ShapeError α :=
    match all.find? (fun a => label a = name) with
    | some a => .ok a
    | none => .error ⟨.unknownVariant name (all.map label), some span⟩
  /-- Nothing. -/
  unit : Value → Except ShapeError Unit
    | .array span items =>
      if items.isEmpty then .ok () else .error ⟨.variantPayload "expected empty table", some span⟩
    | .table _ span entries =>
      if entries.isEmpty then .ok () else .error ⟨.variantPayload "expected empty table", span⟩
    | .tables items => .error ⟨.variantPayload "expected empty array", (Value.tables items).span?⟩
    | v => .error ⟨.variantPayload ("expected table, found " ++ v.kindName), v.span?⟩

end Decoder

/-- A record in the course of being decoded: the name of its type, the names of
    its fields, its place, its entries, and whether they were written as an
    array. -/
structure Record where
  typeName : String
  fields : List String
  span : Option Span
  entries : Entries
  positional : Bool

namespace Record

variable {α : Type}

/-- The record that a value describes. -/
def ofValue (typeName : String) (fields : List String) : Decoder Record
  | .table _ span entries => .ok ⟨typeName, fields, span, entries, false⟩
  | .datetime span m =>
    .ok ⟨typeName, fields, some span, [(⟨span, datetimeKey⟩, .string span m.render)], false⟩
  | .array span items => .ok ⟨typeName, fields, some span, named items, true⟩
  | .tables items => .ok ⟨typeName, fields, (Value.tables items).span?, named items, true⟩
  | v => mismatch v ("struct " ++ typeName)
where
  /-- The items of an array under the names of the fields. -/
  named (items : List Value) : Entries :=
    (fields.zip items).map (fun (name, v) => (⟨(v.span?).getD .none, name⟩, v))

/-- The value of a field. -/
def get? (r : Record) (name : String) : Option (Located String × Value) :=
  r.entries.find? (·.1.value = name)

/-- Decodes a field if it is there. -/
def optional (r : Record) (name : String) (d : Decoder α) : Except ShapeError (Option α) :=
  match r.get? name with
  | none => .ok none
  | some (key, v) => do return some (← entry d key v)

/-- Decodes a field that has to be there. -/
def required (r : Record) (name : String) (d : Decoder α) : Except ShapeError α := do
  match ← r.optional name d with
  | some a => return a
  | none =>
    if r.positional then
      let want :=
        "struct " ++ r.typeName ++ " with " ++ toString r.fields.length ++
          (if r.fields.length = 1 then " element" else " elements")
      .error ⟨.invalidLength (r.fields.idxOf name) want, r.span⟩
    else
      .error ⟨.missingField name, r.span⟩

/-- Looks at all entries in the order of the text. Each entry of a known field
    has to decode; an entry of another name is an error in a closed record. -/
def examine (r : Record) (closed : Bool)
    (decoders : List (String × (Value → Except ShapeError Unit))) : Except ShapeError Unit :=
  r.entries.forM (fun (key, v) =>
    match decoders.lookup key.value with
    | some d => entry d key v
    | none =>
      if closed then .error ⟨.unknownField key.value r.fields, some key.span⟩ else .ok ())

end Record

/-- Whether a value decodes, without the result. -/
def examining {α : Type} (d : Decoder α) : Value → Except ShapeError Unit := fun v => do
  discard (d v)

end InvariantInference.Manifest
