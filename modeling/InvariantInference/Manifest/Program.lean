import InvariantInference.Manifest.Shape
import InvariantInference.Program
import InvariantInference.Toml.Document

/-!
# Programs in manifests

The tables `constant`, `procedure` and `implementation` of a manifest describe
a program. All of them are checked for their shape first. Then constants,
procedures and implementations are given their meaning in this order, each kind
in the order of the text, and the first fault is reported. Other tables are
left to other readers.
-/

namespace InvariantInference.Manifest

open Toml

/-- Why a text describes no program. -/
inductive ProgramFault where
  /-- The text is no document at all. -/
  | malformed
  | shape (fault : ShapeFault)
  /-- The text of a contract or command. -/
  | source (fault : SourceFault)
  | unsupportedAttribute (key constant kind : String)
  | bodyAndBlocks (implementation : String)
  deriving DecidableEq, Repr

namespace ProgramFault

/-- The wording of a fault. -/
def message : ProgramFault → String
  | malformed => "invalid document"
  | shape fault => fault.message
  | source fault => fault.message
  | unsupportedAttribute key constant kind =>
    "attribute " ++ Text.ticked key ++ " on " ++ Text.ticked constant ++ " has unsupported " ++
      kind ++ " value"
  | bodyAndBlocks implementation =>
    "implementation " ++ Text.ticked implementation ++ " declares both `body` and `blocks`"

end ProgramFault

/-- A fault and the span of the text at fault. -/
structure ProgramError where
  fault : ProgramFault
  span : Span
  deriving DecidableEq, Repr

/-- A constant as it is written. -/
structure ConstantEntry where
  name : Located String
  type : Option String
  existential : Option Bool
  attributes : List (String × Located Value)

/-- A procedure as it is written. -/
structure ProcedureEntry where
  name : Located String
  requires : List (Located String)
  ensures : List (Located String)

/-- A block as it is written. -/
structure BlockEntry where
  label : Located String
  commands : List (Located String)

/-- An implementation as it is written. -/
structure ImplementationEntry where
  name : Option (Located String)
  procedure : Located String
  body : Option (List (Located String))
  blocks : Option (List BlockEntry)

/-- The program tables of a manifest (`ManifestDoc`). -/
structure ProgramTables where
  constants : List ConstantEntry
  procedures : List ProcedureEntry
  implementations : List ImplementationEntry

namespace Decoder

/-- A string with its span. -/
def locatedText : Decoder (Located String) := located text

/-- Strings with their spans. -/
def locatedTexts : Decoder (List (Located String)) := sequence locatedText

/-- The attributes of a constant, by key. -/
def attributes : Decoder (List (String × Located Value)) := mapping (located .ok)

/-- A constant. -/
def constant : Decoder ConstantEntry := fun v => do
  let r ← Record.ofValue "ConstantEntry" ["name", "type", "existential", "attributes"] v
  r.examine false [("name", examining locatedText), ("type", examining text),
    ("existential", examining boolean), ("attributes", examining attributes)]
  return {
    name := ← r.required "name" locatedText
    type := ← r.optional "type" text
    existential := ← r.optional "existential" boolean
    attributes := (← r.optional "attributes" attributes).getD [] }

/-- A procedure. -/
def procedure : Decoder ProcedureEntry := fun v => do
  let r ← Record.ofValue "ProcedureEntry" ["name", "requires", "ensures"] v
  r.examine false [("name", examining locatedText), ("requires", examining locatedTexts),
    ("ensures", examining locatedTexts)]
  return {
    name := ← r.required "name" locatedText
    requires := (← r.optional "requires" locatedTexts).getD []
    ensures := (← r.optional "ensures" locatedTexts).getD [] }

/-- A block. -/
def block : Decoder BlockEntry := fun v => do
  let r ← Record.ofValue "BlockEntry" ["label", "cmds"] v
  r.examine false [("label", examining locatedText), ("cmds", examining locatedTexts)]
  return {
    label := ← r.required "label" locatedText
    commands := (← r.optional "cmds" locatedTexts).getD [] }

/-- An implementation. -/
def implementation : Decoder ImplementationEntry := fun v => do
  let r ← Record.ofValue "ImplementationEntry" ["name", "procedure", "body", "blocks"] v
  r.examine false [("name", examining locatedText), ("procedure", examining locatedText),
    ("body", examining locatedTexts), ("blocks", examining (sequence block))]
  return {
    name := ← r.optional "name" locatedText
    procedure := ← r.required "procedure" locatedText
    body := ← r.optional "body" locatedTexts
    blocks := ← r.optional "blocks" (sequence block) }

/-- The program tables. -/
def programTables : Decoder ProgramTables := fun v => do
  let r ← Record.ofValue "ManifestDoc" ["constant", "procedure", "implementation"] v
  r.examine false [("constant", examining (sequence constant)),
    ("procedure", examining (sequence procedure)),
    ("implementation", examining (sequence implementation))]
  return {
    constants := (← r.optional "constant" (sequence constant)).getD []
    procedures := (← r.optional "procedure" (sequence procedure)).getD []
    implementations := (← r.optional "implementation" (sequence implementation)).getD [] }

end Decoder

/-- Where the text inside a quoted string is taken to start: one byte behind the start of its
    span (`inner_offset`). -/
def innerOffset (text : Located String) : Nat := text.span.offset + 1

/-- Reads a text inside the manifest; spans point into the manifest. -/
def readInner {α : Type} (read : String → Nat → Except SourceError α) (text : Located String) :
    Except ProgramError α :=
  match read text.value (innerOffset text) with
  | .ok a => .ok a
  | .error e => .error ⟨.source e.fault, e.span⟩

namespace ConstantEntry

/-- An attribute from the value under its key. -/
def attributeOf (constant : String) : String × Located Value → Except ProgramError Attribute
  | (key, ⟨span, v⟩) =>
    let made (value : AttributeValue) : Except ProgramError Attribute :=
      .ok ⟨span, ⟨span, key⟩, value⟩
    match v with
    | .boolean _ b => made (.bool b)
    | .integer _ n => made (.int n)
    | .string _ s => made (.str s)
    | v => .error ⟨.unsupportedAttribute key constant v.kindName, span⟩

/-- The constant that an entry describes (`lower_constant`). The field `existential` counts
    as an attribute before all others. -/
def meaning (e : ConstantEntry) : Except ProgramError Constant := do
  let flags := e.existential.toList.map (fun b =>
    (⟨e.name.span, ⟨e.name.span, "existential"⟩, .bool b⟩ : Attribute))
  let attributes ← e.attributes.mapM (attributeOf e.name.value)
  return ⟨e.name.span, e.name, (e.type.map .ofName).getD .bool, flags ++ attributes⟩

end ConstantEntry

namespace ProcedureEntry

/-- The procedure that an entry describes (`lower_procedure`). -/
def meaning (e : ProcedureEntry) : Except ProgramError Procedure := do
  let requires ← e.requires.mapM (readInner Contract.parse)
  let ensures ← e.ensures.mapM (readInner Contract.parse)
  return ⟨e.name.span, e.name, requires, ensures⟩

end ProcedureEntry

namespace ImplementationEntry

/-- The label of the block that a body is. -/
def entryLabel : String := "entry"

/-- The implementation that an entry describes (`lower_implementation`). It is named after
    its procedure unless it has a name of its own. -/
def meaning (e : ImplementationEntry) : Except ProgramError Implementation := do
  let name := e.name.getD e.procedure
  let blocks ← match e.body, e.blocks with
    | some _, some _ => .error ⟨.bodyAndBlocks name.value, name.span⟩
    | body, none => do
      let commands ← (body.getD []).mapM (readInner Command.parse)
      pure [⟨name.span, ⟨name.span, entryLabel⟩, commands⟩]
    | none, some blocks => blocks.mapM (fun b => do
      let commands ← b.commands.mapM (readInner Command.parse)
      return (⟨b.label.span, b.label, commands⟩ : Block))
  return ⟨name.span, name, e.procedure, blocks⟩

end ImplementationEntry

/-- The program that program tables describe. -/
def ProgramTables.meaning (tables : ProgramTables) : Except ProgramError Program := do
  let constants ← tables.constants.mapM (·.meaning)
  let procedures ← tables.procedures.mapM (·.meaning)
  let implementations ← tables.implementations.mapM (·.meaning)
  return ⟨constants.map .constant ++ procedures.map .procedure ++
    implementations.map .implementation⟩

/-- The program that the tables of a document describe. -/
def programOfDocument (document : Table) : Except ProgramError Program :=
  match Decoder.programTables document.toValue with
  | .ok tables => tables.meaning
  | .error e => .error ⟨.shape e.fault, e.span.getD .none⟩

/-- The program that a manifest describes (`parse_manifest`). -/
def parseProgram (source : String) : Except ProgramError Program :=
  match Toml.parse source with
  | none => .error ⟨.malformed, .none⟩
  | some document => programOfDocument document

end InvariantInference.Manifest
