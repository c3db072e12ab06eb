import Mathlib
import InvariantInference.Proofs.Expr.Shift
import InvariantInference.Proofs.Manifest.Texts

/-!
# Texts inside manifests

Contracts and commands are texts inside a manifest, and their spans are those
of the manifest. Such a text is read as it is read alone, and then moved by the
byte behind the start of its quotes. The first text at fault is reported. Where it
is in single quotes it is reported where it stands; in triple quotes the place that
is reported lies before the place of the fault.
-/

namespace InvariantInference.Manifest

/-- The error of a text inside a manifest that starts at byte `base`. -/
def ProgramError.ofSource (base : Nat) (e : SourceError) : ProgramError :=
  ⟨.source e.fault, e.span.shift base⟩

/-- The program tables of a manifest whose tables have the right shape. -/
def ProgramTables.ofManifest? (manifest : String) : Option ProgramTables :=
  (Toml.parse manifest).bind fun document => (Decoder.programTables document.toValue).toOption

/-! ## Reading a text -/

section Inner

variable {α : Type}

/-- What a text is read as alone, moved to where it is taken to stand. -/
def readMoved (read : String → Nat → Except SourceError α) (move : Nat → α → α)
    (text : Located String) : Except ProgramError α :=
  ((read text.value 0).map (move (innerOffset text))).mapError (.ofSource (innerOffset text))

/-- The fault that a text has alone, moved to where it is taken to stand. -/
def textFault? (read : String → Nat → Except SourceError α) (text : Located String) :
    Option ProgramError :=
  (failure? (read text.value 0)).map (.ofSource (innerOffset text))

variable {read : String → Nat → Except SourceError α} {move : Nat → α → α}
  (shifts : ∀ source base, read source base = shiftResult base (move base) (read source 0))

include shifts

/-- A text inside a manifest is read alone and moved. -/
theorem readInner_eq (text : Located String) : readInner read text = readMoved read move text := by
  rw [readInner, shifts, readMoved]
  cases read text.value 0 <;> rfl

theorem failure?_readInner (text : Located String) :
    failure? (readInner read text) = textFault? read text := by
  rw [readInner_eq shifts, readMoved, textFault?]
  cases read text.value 0 <;> rfl

theorem failure?_mapM_readInner (texts : List (Located String)) :
    failure? (texts.mapM (readInner read)) = texts.findSome? (textFault? read) := by
  simp only [failure?_mapM, failure?_readInner shifts]

theorem forall₂_of_mapM_readInner {texts : List (Located String)} {values : List α}
    (mapped : texts.mapM (readInner read) = .ok values) :
    List.Forall₂ (fun text value => readMoved read move text = .ok value) texts values := by
  simp only [← readInner_eq shifts]
  exact forall₂_of_mapM mapped

end Inner

/-! ## The first fault -/

/-- A value that no attribute can have. -/
def attributeFault? (constant : String) : String × Located Toml.Value → Option ProgramError
  | (_, ⟨_, .boolean _ _⟩) | (_, ⟨_, .integer _ _⟩) | (_, ⟨_, .string _ _⟩) => none
  | (key, ⟨span, v⟩) => some ⟨.unsupportedAttribute key constant v.kindName, span⟩

/-- The first fault of a constant, which holds no text. -/
def ConstantEntry.fault? (e : ConstantEntry) : Option ProgramError :=
  e.attributes.findSome? (attributeFault? e.name.value)

theorem ConstantEntry.failure?_meaning (e : ConstantEntry) :
    failure? e.meaning = e.fault? := by
  have each : ∀ a, failure? (attributeOf e.name.value a) = attributeFault? e.name.value a := by
    rintro ⟨key, span, v⟩
    cases v <;> rfl
  rw [meaning, failure?_bind_pure, failure?_mapM, fault?]
  simp only [each]

theorem ProcedureEntry.failure?_meaning (e : ProcedureEntry) :
    failure? e.meaning = e.contracts.findSome? (textFault? Contract.parse) := by
  rw [meaning, failure?_bind fun _ => failure?_bind_pure, contracts, List.findSome?_append,
    failure?_mapM_readInner Contract.parse_shift, failure?_mapM_readInner Contract.parse_shift]

/-- The first fault of an implementation. -/
def ImplementationEntry.fault? (e : ImplementationEntry) : Option ProgramError :=
  if e.body.isSome ∧ e.blocks.isSome then
    let name := e.name.getD e.procedure
    some ⟨.bodyAndBlocks name.value, name.span⟩
  else e.commands.findSome? (textFault? Command.parse)

theorem findSome?_flatMap {α β γ : Type} {f : α → List β} {g : β → Option γ} {l : List α} :
    (l.flatMap f).findSome? g = l.findSome? (fun a => (f a).findSome? g) := by
  induction l with
  | nil => rfl
  | cons a l ih =>
    rw [List.flatMap_cons, List.findSome?_append, ih, List.findSome?_cons]
    cases (f a).findSome? g <;> rfl

theorem ImplementationEntry.failure?_meaning (e : ImplementationEntry) :
    failure? e.meaning = e.fault? := by
  obtain ⟨name, procedure, body, blocks⟩ := e
  cases blocks with
  | none =>
    have read : failure? (meaning ⟨name, procedure, body, none⟩) =
        (failure? ((body.getD []).mapM (readInner Command.parse))).or none := by
      cases body <;> exact failure?_bind fun _ => rfl
    rw [read, Option.or_none, failure?_mapM_readInner Command.parse_shift, fault?,
      if_neg (by simp), commands, Option.getD_none, List.flatMap_nil, List.append_nil]
  | some blocks =>
    cases body with
    | some _ => rfl
    | none =>
      rw [fault?, if_neg (by simp), commands, Option.getD_none, List.nil_append,
        Option.getD_some, findSome?_flatMap]
      simp only [meaning, failure?_bind_pure, failure?_mapM,
        failure?_readInner Command.parse_shift]

/-- The first fault of the program tables: constants come before procedures, and these before
    implementations. -/
def ProgramTables.fault? (tables : ProgramTables) : Option ProgramError :=
  ((tables.constants.findSome? (·.fault?)).or
    (tables.contracts.findSome? (textFault? Contract.parse))).or
      (tables.implementations.findSome? (·.fault?))

theorem ProgramTables.failure?_meaning (tables : ProgramTables) :
    failure? tables.meaning = tables.fault? := by
  rw [meaning, failure?_bind fun _ => failure?_bind fun _ => failure?_bind_pure]
  simp only [failure?_mapM, ConstantEntry.failure?_meaning, ProcedureEntry.failure?_meaning,
    ImplementationEntry.failure?_meaning]
  rw [fault?, contracts, findSome?_flatMap, Option.or_assoc]

/-! ## What the texts are read as -/

/-- The contract is what the text is read as. -/
def ReadsContract (text : Located String) (contract : Contract) : Prop :=
  readMoved Contract.parse Contract.shift text = .ok contract

/-- The command is what the text is read as. -/
def ReadsCommand (text : Located String) (command : Command) : Prop :=
  readMoved Command.parse Command.shift text = .ok command

theorem ProcedureEntry.reads_of_meaning {e : ProcedureEntry} {p : Procedure}
    (meant : e.meaning = .ok p) :
    List.Forall₂ ReadsContract e.contracts (p.requires ++ p.ensures) := by
  obtain ⟨requires, readRequires, meant⟩ := bind_eq_ok_iff.mp meant
  obtain ⟨ensures, readEnsures, same⟩ := bind_eq_ok_iff.mp meant
  cases same
  exact List.rel_append (forall₂_of_mapM_readInner Contract.parse_shift readRequires)
    (forall₂_of_mapM_readInner Contract.parse_shift readEnsures)

theorem ImplementationEntry.reads_of_meaning {e : ImplementationEntry} {i : Implementation}
    (meant : e.meaning = .ok i) : List.Forall₂ ReadsCommand e.commands i.commands := by
  obtain ⟨name, procedure, body, blocks⟩ := e
  cases blocks with
  | none =>
    have read : (body.getD []).mapM (readInner Command.parse) = .ok i.commands := by
      cases body <;>
      · obtain ⟨commands, read, same⟩ := bind_eq_ok_iff.mp meant
        cases same
        rw [Implementation.commands, List.flatMap_singleton]
        exact read
    rw [commands, Option.getD_none, List.flatMap_nil, List.append_nil]
    exact forall₂_of_mapM_readInner Command.parse_shift read
  | some blocks =>
    cases body with
    | some _ => cases meant
    | none =>
      obtain ⟨_, mapped, same⟩ := bind_eq_ok_iff.mp meant
      cases same
      refine List.rel_flatMap (forall₂_of_mapM mapped) ?_
      intro entry block meant
      obtain ⟨commands, read, same⟩ := bind_eq_ok_iff.mp meant
      cases same
      exact forall₂_of_mapM_readInner Command.parse_shift read

theorem ProgramTables.reads_of_meaning {tables : ProgramTables} {program : Program}
    (meant : tables.meaning = .ok program) :
    List.Forall₂ ReadsContract tables.contracts
        (program.procedures.flatMap fun p => p.requires ++ p.ensures) ∧
      List.Forall₂ ReadsCommand tables.commands (program.implementations.flatMap (·.commands)) := by
  obtain ⟨constants, -, meant⟩ := bind_eq_ok_iff.mp meant
  obtain ⟨procedures, meantProcedures, meant⟩ := bind_eq_ok_iff.mp meant
  obtain ⟨implementations, meantImplementations, same⟩ := bind_eq_ok_iff.mp meant
  cases same
  have declared : Program.procedures ⟨constants.map .constant ++ procedures.map .procedure ++
        implementations.map .implementation⟩ = procedures ∧
      Program.implementations ⟨constants.map .constant ++ procedures.map .procedure ++
        implementations.map .implementation⟩ = implementations := by
    simp [Program.procedures, Program.implementations, Declaration.procedure?,
      Declaration.implementation?, List.filterMap_map]
  rw [declared.1, declared.2]
  exact ⟨List.rel_flatMap (forall₂_of_mapM meantProcedures)
      fun _ _ => ProcedureEntry.reads_of_meaning,
    List.rel_flatMap (forall₂_of_mapM meantImplementations)
      fun _ _ => ImplementationEntry.reads_of_meaning⟩

/-! ## Manifests -/

theorem exists_of_ofManifest? {manifest : String} {tables : ProgramTables}
    (given : ProgramTables.ofManifest? manifest = some tables) :
    ∃ document, Toml.parse manifest = some document ∧
      Decoder.programTables document.toValue = .ok tables := by
  obtain ⟨document, parsed, decoded⟩ := Option.bind_eq_some_iff.mp given
  refine ⟨document, parsed, ?_⟩
  cases result : Decoder.programTables document.toValue with
  | error e =>
    rw [result] at decoded
    cases decoded
  | ok found =>
    rw [result] at decoded
    cases decoded
    rfl

theorem parseProgram_eq {manifest : String} {tables : ProgramTables}
    (given : ProgramTables.ofManifest? manifest = some tables) :
    parseProgram manifest = tables.meaning := by
  obtain ⟨document, parsed, decoded⟩ := exists_of_ofManifest? given
  simp only [parseProgram, parsed, programOfDocument, decoded]

/-- Where a text stands only moves what it is read as: its tokens, the expression, contract or
    command that it spells, and the place of its fault. The texts inside a manifest are read as
    they are alone and moved by the byte behind the start of their span, and the first fault
    among them is reported. So they are moved to where they stand if they are in single quotes.
    A text in triple quotes starts two bytes later, and behind the line end that is dropped, and
    what is reported for it lies as many bytes before the place it is about. -/
theorem offsets_only_shift_spans (source : String) (base : Nat) (manifest : String) :
    (Token.ofSource source base =
        shiftResult base (·.map (Token.shift base)) (Token.ofSource source 0) ∧
      Expr.parse source base = shiftResult base (Expr.shift base) (Expr.parse source 0) ∧
      Contract.parse source base =
        shiftResult base (Contract.shift base) (Contract.parse source 0) ∧
      Command.parse source base = shiftResult base (Command.shift base) (Command.parse source 0)) ∧
    (∀ text : Located String,
      readInner Contract.parse text = readMoved Contract.parse Contract.shift text ∧
      readInner Command.parse text = readMoved Command.parse Command.shift text) ∧
    ∀ tables, ProgramTables.ofManifest? manifest = some tables →
      (∀ error, parseProgram manifest = .error error ↔ tables.fault? = some error) ∧
      (∀ program, parseProgram manifest = .ok program →
        List.Forall₂ ReadsContract tables.contracts
          (program.procedures.flatMap fun p => p.requires ++ p.ensures) ∧
        List.Forall₂ ReadsCommand tables.commands
          (program.implementations.flatMap (·.commands))) ∧
      ∀ text ∈ tables.contracts ++ tables.commands,
        ∃ (q : Toml.Quotation) (before after : List Char),
          q.Quotes manifest before after text ∧
          Toml.bytes (before ++ q.lead) =
            innerOffset text + (if q.triple then 2 + Toml.bytes q.dropped else 0) ∧
          (innerOffset text = Toml.bytes (before ++ q.lead) ↔ q.triple = false) := by
  refine ⟨?_, ?_, ?_⟩
  · exact ⟨Token.ofSource_shift source base, Expr.parse_shift source base,
      Contract.parse_shift source base, Command.parse_shift source base⟩
  · intro text
    exact ⟨readInner_eq Contract.parse_shift text, readInner_eq Command.parse_shift text⟩
  · intro tables given
    obtain ⟨document, parsed, decoded⟩ := exists_of_ofManifest? given
    refine ⟨fun error => ?_, fun program meant => ?_, fun text member => ?_⟩
    · rw [← tables.failure?_meaning, ← parseProgram_eq given, failure?_eq_some_iff]
    · rw [parseProgram_eq given] at meant
      exact ProgramTables.reads_of_meaning meant
    · obtain ⟨q, before, after, quotes, start⟩ := exists_quotes parsed decoded member
      refine ⟨q, before, after, quotes, start, ?_⟩
      rw [start]
      cases q.triple <;> simp

/-- A manifest with a contract that ends behind its arrow, in such quotes. -/
def unfinished (quotes : String) : String :=
  "[[procedure]]\nname = \"P\"\nrequires = [" ++ quotes ++ "p ==>" ++ quotes ++ "]\n"

/-- The fault stands at byte 5 of the contract, whose first byte is byte 38 of the manifest. -/
theorem offsets_only_shift_spans_unfinished :
    (ProgramTables.ofManifest? (unfinished "\"")).map (·.contracts) = some [⟨⟨37, 7⟩, "p ==>"⟩] ∧
    Contract.parse "p ==>" 0 = .error ⟨.noExpression, ⟨5, 0⟩⟩ ∧
    Contract.parse "p ==>" 38 = .error ⟨.noExpression, ⟨43, 0⟩⟩ ∧
    parseProgram (unfinished "\"") = .error ⟨.source .noExpression, ⟨43, 0⟩⟩ := by
  obtain ⟨moved, -, embedded⟩ := offsets_only_shift_spans "p ==>" 38 (unfinished "\"")
  have alone : Contract.parse "p ==>" 0 = .error ⟨.noExpression, ⟨5, 0⟩⟩ := by cbv
  have contracts : (ProgramTables.ofManifest? (unfinished "\"")).map (·.contracts) =
      some [⟨⟨37, 7⟩, "p ==>"⟩] := by decide +kernel
  have first : (ProgramTables.ofManifest? (unfinished "\"")).bind (·.fault?) =
      some ⟨.source .noExpression, ⟨43, 0⟩⟩ := by decide +kernel
  obtain ⟨tables, given, fault⟩ := Option.bind_eq_some_iff.mp first
  refine ⟨contracts, alone, ?_, ((embedded tables given).1 _).mpr fault⟩
  rw [moved.2.2.1, alone]
  rfl

/-- In triple quotes the contract starts at byte 40, so that its fault stands at byte 45. It is
    reported at byte 43. -/
theorem fault_in_triple_quotes_misplaced :
    unfinished "\"\"\"" =
      "[[procedure]]\nname = \"P\"\nrequires = [\"\"\"" ++ "p ==>" ++ "\"\"\"]\n" ∧
    "[[procedure]]\nname = \"P\"\nrequires = [\"\"\"".utf8ByteSize = 40 ∧
    Contract.parse "p ==>" 0 = .error ⟨.noExpression, ⟨5, 0⟩⟩ ∧
    Contract.parse "p ==>" 40 = .error ⟨.noExpression, ⟨45, 0⟩⟩ ∧
    parseProgram (unfinished "\"\"\"") = .error ⟨.source .noExpression, ⟨43, 0⟩⟩ := by
  refine ⟨by decide +kernel, by decide +kernel, by cbv, by cbv, ?_⟩
  rw [← failure?_eq_some_iff]
  decide +kernel

end InvariantInference.Manifest
