import Mathlib
import InvariantInference.Manifest.Program
import InvariantInference.Proofs.Except
import InvariantInference.Proofs.Toml.Quotation

/-!
# The texts of a manifest

The program tables of a manifest hold texts: contracts and commands. Each of them
is a string of the document, so it stands somewhere in the manifest between quotes.
The decoders take strings out of the values they decode and add none.
-/

namespace InvariantInference.Manifest

open Toml

/-- The texts of the contracts. -/
def ProcedureEntry.contracts (e : ProcedureEntry) : List (Located String) :=
  e.requires ++ e.ensures

/-- The texts of the commands. -/
def ImplementationEntry.commands (e : ImplementationEntry) : List (Located String) :=
  e.body.getD [] ++ (e.blocks.getD []).flatMap (·.commands)

/-- The texts of the contracts. -/
def ProgramTables.contracts (tables : ProgramTables) : List (Located String) :=
  tables.procedures.flatMap (·.contracts)

/-- The texts of the commands. -/
def ProgramTables.commands (tables : ProgramTables) : List (Located String) :=
  tables.implementations.flatMap (·.commands)

namespace Decoder

variable {α : Type} {d : Decoder α} {texts : α → List (Located String)} {v : Value}

/-- The texts of what is decoded stand in the value that it is decoded from. -/
def Takes (d : Decoder α) (texts : α → List (Located String)) : Prop :=
  ∀ v a, d v = .ok a → ∀ text ∈ texts a, v.Holds text

theorem takes_locatedText : Takes locatedText (fun text => [text]) := by
  intro v a decoded text member
  obtain rfl := List.mem_singleton.mp member
  unfold locatedText located at decoded
  split at decoded
  · rename_i v _ _ span spanned
    obtain ⟨s, taken, same⟩ := bind_eq_ok_iff.mp decoded
    cases same
    cases v <;> cases taken
    cases spanned
    exact .string
  · cases decoded
  · cases decoded

theorem takes_sequence (takes : Takes d texts) : Takes (sequence d) (List.flatMap texts) := by
  intro v found decoded text member
  obtain ⟨a, inside, member⟩ := List.mem_flatMap.mp member
  cases v with
  | array span items =>
    obtain ⟨w, inItems, taken⟩ := (mem_of_mapM decoded).2 a inside
    exact .array inItems (takes w a taken text member)
  | tables items =>
    obtain ⟨w, inItems, taken⟩ := (mem_of_mapM decoded).2 a inside
    exact .tables inItems (takes w a taken text member)
  | _ => cases decoded

theorem holds_of_mem_named {fields : List String} {items : List Value}
    {field : Located String × Value} (member : field ∈ Record.ofValue.named fields items) :
    field.2 ∈ items := by
  obtain ⟨⟨name, w⟩, paired, rfl⟩ := List.mem_map.mp member
  exact (List.of_mem_zip paired).2

/-- What stands in a field of a record stands in its value. A date is the one value with a
    field that it does not hold. -/
theorem holds_of_field {typeName : String} {fields : List String} {r : Record}
    (record : Record.ofValue typeName fields v = .ok r) {field : Located String × Value}
    (member : field ∈ r.entries) (known : field.1.value ≠ datetimeKey) {text : Located String}
    (holds : field.2.Holds text) : v.Holds text := by
  cases v with
  | table form span entries =>
    cases record
    exact .table member holds
  | datetime span moment =>
    cases record
    rw [List.mem_singleton.mp member] at known
    exact absurd rfl known
  | array span items =>
    cases record
    exact .array (holds_of_mem_named member) holds
  | tables items =>
    cases record
    exact .tables (holds_of_mem_named member) holds
  | _ => cases record

theorem ok_of_entry {key : Located String} {a : α} (decoded : entry d key v = .ok a) :
    d v = .ok a := by
  unfold entry pointAt at decoded
  split at decoded
  · cases decoded
  · exact decoded

section Fields

variable {typeName name : String} {fields : List String} {r : Record} {text : Located String}
  (record : Record.ofValue typeName fields v = .ok r) (known : name ≠ datetimeKey)

include record known

theorem holds_of_optional (takes : Takes d texts) {o : Option (List α)}
    (decoded : r.optional name (sequence d) = .ok o)
    (member : text ∈ (o.getD []).flatMap texts) : v.Holds text := by
  unfold Record.optional at decoded
  split at decoded
  · cases decoded
    cases member
  · rename_i key w found
    obtain ⟨a, taken, same⟩ := bind_eq_ok_iff.mp decoded
    cases same
    have named := List.find?_some found
    rw [decide_eq_true_eq] at named
    refine holds_of_field record (List.mem_of_find?_eq_some found) ?_
      (takes_sequence takes w a (ok_of_entry taken) text member)
    rwa [named]

theorem holds_of_optional_texts {o : Option (List (Located String))}
    (decoded : r.optional name locatedTexts = .ok o) (member : text ∈ o.getD []) :
    v.Holds text := by
  refine holds_of_optional record known takes_locatedText decoded ?_
  rwa [List.flatMap_singleton']

end Fields

/-! ## The program tables -/

theorem takes_procedure : Takes procedure (·.contracts) := by
  intro v e decoded text member
  obtain ⟨r, record, decoded⟩ := bind_eq_ok_iff.mp decoded
  obtain ⟨-, decoded⟩ := check_bind_eq_ok_iff.mp decoded
  obtain ⟨name, -, decoded⟩ := bind_eq_ok_iff.mp decoded
  obtain ⟨requires, readRequires, decoded⟩ := bind_eq_ok_iff.mp decoded
  obtain ⟨ensures, readEnsures, same⟩ := bind_eq_ok_iff.mp decoded
  cases same
  rcases List.mem_append.mp member with member | member
  · exact holds_of_optional_texts record (by decide) readRequires member
  · exact holds_of_optional_texts record (by decide) readEnsures member

theorem takes_block : Takes block (·.commands) := by
  intro v e decoded text member
  obtain ⟨r, record, decoded⟩ := bind_eq_ok_iff.mp decoded
  obtain ⟨-, decoded⟩ := check_bind_eq_ok_iff.mp decoded
  obtain ⟨label, -, decoded⟩ := bind_eq_ok_iff.mp decoded
  obtain ⟨commands, readCommands, same⟩ := bind_eq_ok_iff.mp decoded
  cases same
  exact holds_of_optional_texts record (by decide) readCommands member

theorem takes_implementation : Takes implementation (·.commands) := by
  intro v e decoded text member
  obtain ⟨r, record, decoded⟩ := bind_eq_ok_iff.mp decoded
  obtain ⟨-, decoded⟩ := check_bind_eq_ok_iff.mp decoded
  obtain ⟨name, -, decoded⟩ := bind_eq_ok_iff.mp decoded
  obtain ⟨procedure, -, decoded⟩ := bind_eq_ok_iff.mp decoded
  obtain ⟨body, readBody, decoded⟩ := bind_eq_ok_iff.mp decoded
  obtain ⟨blocks, readBlocks, same⟩ := bind_eq_ok_iff.mp decoded
  cases same
  rcases List.mem_append.mp member with member | member
  · exact holds_of_optional_texts record (by decide) readBody member
  · exact holds_of_optional record (by decide) takes_block readBlocks member

theorem takes_programTables :
    Takes programTables (fun tables => tables.contracts ++ tables.commands) := by
  intro v tables decoded text member
  obtain ⟨r, record, decoded⟩ := bind_eq_ok_iff.mp decoded
  obtain ⟨-, decoded⟩ := check_bind_eq_ok_iff.mp decoded
  obtain ⟨constants, -, decoded⟩ := bind_eq_ok_iff.mp decoded
  obtain ⟨procedures, readProcedures, decoded⟩ := bind_eq_ok_iff.mp decoded
  obtain ⟨implementations, readImplementations, same⟩ := bind_eq_ok_iff.mp decoded
  cases same
  rcases List.mem_append.mp member with member | member
  · exact holds_of_optional record (by decide) takes_procedure readProcedures member
  · exact holds_of_optional record (by decide) takes_implementation readImplementations member

end Decoder

/-- The first byte of a text is taken to be the one behind the start of its span. It is that
    one in single quotes; in triple quotes two more bytes come before it, and the line end that
    is dropped. -/
theorem exists_quotes {manifest : String} {document : Table} {tables : ProgramTables}
    (parsed : Toml.parse manifest = some document)
    (decoded : Decoder.programTables document.toValue = .ok tables) {text : Located String}
    (member : text ∈ tables.contracts ++ tables.commands) :
    ∃ (q : Quotation) (before after : List Char), q.Quotes manifest before after text ∧
      bytes (before ++ q.lead) =
        innerOffset text + if q.triple then 2 + bytes q.dropped else 0 := by
  obtain ⟨q, before, after, quotes⟩ :=
    exists_quotes_of_parse parsed (Decoder.takes_programTables _ _ decoded text member)
  refine ⟨q, before, after, quotes, ?_⟩
  rw [bytes_append, quotes.spells.bytes_lead, innerOffset, quotes.span, Nat.add_assoc]

end InvariantInference.Manifest
