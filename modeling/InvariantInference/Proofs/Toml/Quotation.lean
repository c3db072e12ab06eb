import Mathlib
import InvariantInference.Proofs.Toml.Origin

/-!
# How strings are written

A string of a document is written in quotes, single or triple ones. Behind triple
quotes a line end is dropped. So the string itself starts one byte behind the start
of its span where the quotes are single, and at least three bytes behind it where
they are triple. From there on it stands in the document as it is, unless it is
written with backslashes or carriage returns.
-/

namespace InvariantInference.Toml

/-- The line end that a text starts with, if it does. -/
def lineEnd : List Char → List Char
  | '\n' :: _ => ['\n']
  | '\r' :: '\n' :: _ => ['\r', '\n']
  | _ => []

theorem lineEnd_eq_nil_of_append {chars more : List Char} (none : lineEnd (chars ++ more) = []) :
    lineEnd chars = [] := by
  fun_cases lineEnd chars
  · cases none
  · cases none
  · rfl

/-- How a string is written: its quotes, the line end that is dropped behind the opening ones,
    and what stands between that and the closing ones. -/
structure Quotation where
  quote : Char
  /-- Whether the quotes are triple ones. -/
  triple : Bool
  dropped : List Char
  body : List Char

namespace Quotation

/-- The quotes at each end. -/
def quotes (q : Quotation) : List Char := List.replicate (if q.triple then 3 else 1) q.quote

/-- What is written before the string itself. -/
def lead (q : Quotation) : List Char := q.quotes ++ q.dropped

/-- All that is written. -/
def written (q : Quotation) : List Char := q.lead ++ q.body ++ q.quotes

/-- This is a way to write the string. -/
structure Spells (q : Quotation) (s : String) : Prop where
  quote : q.quote = '"' ∨ q.quote = '\''
  dropped : q.dropped = if q.triple then lineEnd (q.dropped ++ q.body) else []
  verbatim : (q.quote = '"' → '\\' ∉ q.body) → '\r' ∉ q.body → s.toList = q.body

/-- This is how the string stands in the document, between `before` and `after`. -/
structure Quotes (q : Quotation) (source : String) (before after : List Char)
    (text : Located String) : Prop where
  source : source.toList = before ++ q.written ++ after
  span : text.span = ⟨bytes before, bytes q.written⟩
  spells : q.Spells text.value

theorem Spells.bytes_lead {q : Quotation} {s : String} (spells : q.Spells s) :
    bytes q.lead = 1 + if q.triple then 2 + bytes q.dropped else 0 := by
  have one : q.quote.utf8Size = 1 := by
    rcases spells.quote with same | same <;> rw [same] <;> rfl
  have dropped := spells.dropped
  cases triple : q.triple with
  | false =>
    rw [triple] at dropped
    simp [lead, quotes, triple, dropped, one]
  | true =>
    simp [lead, quotes, triple, one, List.replicate]
    omega

end Quotation

namespace Reader

variable {α : Type} {quote : Char} {c c' : Cursor} {s : String}

/-! ## What stands for itself -/

/-- Characters that may stand for others between such quotes. -/
def Special (quote x : Char) : Prop := x = '\r' ∨ quote = '"' ∧ x = '\\'

/-- The piece spells itself, or has a special character in it. -/
def Faithful (quote : Char) (spelled : α → List Char) (piece : List Char) (a : α) : Prop :=
  piece = spelled a ∨ ∃ x ∈ piece, Special quote x

theorem Faithful.eq {spelled : α → List Char} {piece : List Char} {a : α}
    (faithful : Faithful quote spelled piece a) (backslash : quote = '"' → '\\' ∉ piece)
    (carriage : '\r' ∉ piece) : spelled a = piece := by
  rcases faithful with same | ⟨x, member, rfl | ⟨double, rfl⟩⟩
  · exact same.symm
  · exact absurd member carriage
  · exact absurd member (backslash double)

theorem Faithful.append {β : Type} {spelled : α → List Char} {spelled' : β → List Char}
    {piece piece' : List Char} {a : α} {b : β} (first : Faithful quote spelled piece a)
    (second : Faithful quote spelled' piece' b) :
    Faithful quote (fun both : α × β => spelled both.1 ++ spelled' both.2) (piece ++ piece')
      (a, b) := by
  rcases first with rfl | ⟨x, member, special⟩
  · rcases second with rfl | ⟨x, member, special⟩
    · exact .inl rfl
    · exact .inr ⟨x, List.mem_append_right _ member, special⟩
  · exact .inr ⟨x, List.mem_append_left _ member, special⟩

/-- What is read is faithful. -/
def ReadsFaithfully (quote : Char) (spelled : α → List Char) (r : Reader α) : Prop :=
  ∀ c a c', r.read c = some (a, c') →
    ∃ piece, Faithful quote spelled piece a ∧ c.Reaches piece c'

theorem faithful_satisfy (p : Char → Bool) :
    ReadsFaithfully quote (fun x => [x]) (satisfy p) :=
  fun _ x _ read => ⟨[x], .inl rfl, (reaches_of_satisfy read).2⟩

theorem faithful_firstOf {spelled : α → List Char} {rs : List (Reader α)}
    (each : ∀ r ∈ rs, ReadsFaithfully quote spelled r) :
    ReadsFaithfully quote spelled (firstOf rs) := by
  intro c a c' read
  obtain ⟨r, member, read⟩ := exists_of_read_firstOf read
  exact each r member c a c' read

theorem faithful_many {spelled : α → List Char} {r : Reader α}
    (each : ReadsFaithfully quote spelled r) :
    ReadsFaithfully quote (List.flatMap spelled) (many r) := by
  intro c found c' read
  obtain ⟨pieces, all, reached⟩ := exists_of_read_many (Faithful quote spelled) each read
  refine ⟨_, ?_, reached⟩
  clear reached read
  induction all with
  | nil => exact .inl rfl
  | cons first _ ih => exact first.append ih

/-- What is spelled may be put in other words. -/
theorem ReadsFaithfully.map {β : Type} {spelled : α → List Char} {spelled' : β → List Char}
    {r : Reader α} (each : ReadsFaithfully quote spelled r) (f : α → β)
    (same : ∀ a, spelled' (f a) = spelled a) :
    ReadsFaithfully quote spelled' (do return f (← r)) := by
  intro c b c' read
  obtain ⟨a, _, first, last⟩ := read_bind_iff.mp read
  obtain ⟨rfl, rfl⟩ := read_pure_iff.mp last
  obtain ⟨piece, faithful, reached⟩ := each _ _ _ first
  rw [Faithful, ← same a] at faithful
  exact ⟨piece, faithful, reached⟩

theorem reaches_of_discard_char {x : Char} {u : Unit}
    (read : (discard (char x)).read c = some (u, c')) : c.Reaches [x] c' := by
  obtain ⟨_, read⟩ := read_discard_iff.mp read
  exact (reaches_of_char read).2

/-- Whatever is read behind a backslash counts as faithful in double quotes. -/
theorem faithful_of_backslash (spelled : α → List Char) {r : Reader α}
    (opens : ∀ c a c', r.read c = some (a, c') → ∃ more, c.Reaches ('\\' :: more) c') :
    ReadsFaithfully '"' spelled r := by
  intro c a c' read
  obtain ⟨more, reached⟩ := opens c a c' read
  exact ⟨_, .inr ⟨'\\', List.mem_cons_self, .inr ⟨rfl, rfl⟩⟩, reached⟩

theorem reaches_of_backslash {next : Reader α} {a : α}
    (read : (discard (char '\\') >>= fun _ => next).read c = some (a, c')) :
    ∃ more, c.Reaches ('\\' :: more) c' := by
  obtain ⟨_, _, first, rest⟩ := read_bind_iff.mp read
  obtain ⟨more, reached⟩ := next.passes _ _ _ rest
  exact ⟨more, (reaches_of_discard_char first).trans reached⟩

theorem faithful_escape : ReadsFaithfully '"' (fun x => [x]) escape :=
  faithful_of_backslash _ fun _ _ _ => reaches_of_backslash

/-! ## Strings on one line -/

/-- A string is read in one of the ways it can be written. -/
def ReadsQuoted (r : Reader String) : Prop :=
  ∀ c s c', r.read c = some (s, c') → ∃ q : Quotation, q.Spells s ∧ c.Reaches q.written c'

theorem quoted_oneLine (known : quote = '"' ∨ quote = '\'') {r : Reader Char}
    (each : ReadsFaithfully quote (fun x => [x]) r) :
    ReadsQuoted (do
      discard (char quote)
      let chars ← many r
      discard (char quote)
      return String.ofList chars) := by
  intro c s c' read
  obtain ⟨_, _, opening, read⟩ := read_bind_iff.mp read
  obtain ⟨chars, _, middle, read⟩ := read_bind_iff.mp read
  obtain ⟨_, _, closing, last⟩ := read_bind_iff.mp read
  obtain ⟨rfl, rfl⟩ := read_pure_iff.mp last
  obtain ⟨body, faithful, reached⟩ := faithful_many each _ _ _ middle
  refine ⟨⟨quote, false, [], body⟩, ⟨known, rfl, ?_⟩, ?_⟩
  · intro backslash carriage
    rw [String.toList_ofList, ← faithful.eq backslash carriage, List.flatMap_singleton']
  · exact ((reaches_of_discard_char opening).trans reached).trans (reaches_of_discard_char closing)

theorem quoted_basicString : ReadsQuoted basicString := by
  refine quoted_oneLine (.inl rfl) (faithful_firstOf ?_)
  simp only [List.forall_mem_cons, List.not_mem_nil, false_implies, implies_true, and_true]
  exact ⟨faithful_satisfy _, faithful_escape⟩

theorem quoted_literalString : ReadsQuoted literalString :=
  quoted_oneLine (.inr rfl) (faithful_satisfy _)

/-! ## Strings over several lines -/

theorem reaches_of_newline {u : Unit} (read : newline.read c = some (u, c')) :
    c.Reaches ['\n'] c' ∨ c.Reaches ['\r', '\n'] c' := by
  obtain ⟨r, member, read⟩ := exists_of_read_firstOf read
  simp only [List.mem_cons, List.not_mem_nil, or_false] at member
  rcases member with rfl | rfl
  · exact .inl (reaches_of_discard_char read)
  · obtain ⟨_, _, first, second⟩ := read_bind_iff.mp read
    exact .inr ((reaches_of_discard_char first).trans (reaches_of_discard_char second))

theorem lineEnd_of_newline_eq_none (read : newline.read c = none) : lineEnd c.rest = [] := by
  obtain ⟨pos, rest, left⟩ := c
  fun_cases lineEnd rest
  · cases read
  · cases read
  · rfl

/-- The line end behind the opening quotes is all that is dropped. -/
theorem reaches_of_optional_newline {o : Option Unit} {body more : List Char}
    (read : (optional newline).read c = some (o, c')) (here : c'.rest = body ++ more) :
    ∃ dropped, dropped = lineEnd (dropped ++ body) ∧ c.Reaches dropped c' := by
  rcases read_optional_iff.mp read with ⟨_, _, read⟩ | ⟨-, rfl, read⟩
  · rcases reaches_of_newline read with reached | reached
    · exact ⟨_, rfl, reached⟩
    · exact ⟨_, rfl, reached⟩
  · have none := lineEnd_of_newline_eq_none read
    rw [here] at none
    exact ⟨[], (lineEnd_eq_nil_of_append none).symm, .refl _⟩

theorem reaches_of_many_char {x : Char} {found : List Char}
    (read : (many (char x)).read c = some (found, c')) :
    found = List.replicate found.length x ∧ c.Reaches found c' := by
  obtain ⟨pieces, all, reached⟩ := exists_of_read_many (fun piece y => y = x ∧ piece = [x])
    (fun _ _ _ read => ⟨_, ⟨(reaches_of_char read).1, rfl⟩, (reaches_of_char read).2⟩) read
  have same : found = List.replicate found.length x ∧ pieces.flatten = found := by
    clear read reached
    induction all with
    | nil => exact ⟨rfl, rfl⟩
    | cons here _ ih =>
      obtain ⟨rfl, rfl⟩ := here
      exact ⟨congrArg _ ih.1, congrArg _ ih.2⟩
  rw [same.2] at reached
  exact ⟨same.1, reached⟩

theorem reaches_of_many1_char {x : Char} {found : List Char}
    (read : (many1 (char x)).read c = some (found, c')) :
    found = List.replicate found.length x ∧ c.Reaches found c' := by
  obtain ⟨first, _, readFirst, read⟩ := read_bind_iff.mp read
  obtain ⟨more, _, readMore, last⟩ := read_bind_iff.mp read
  obtain ⟨rfl, rfl⟩ := read_pure_iff.mp last
  obtain ⟨rfl, reached⟩ := reaches_of_char readFirst
  obtain ⟨same, reached'⟩ := reaches_of_many_char readMore
  exact ⟨congrArg _ same, reached.trans reached'⟩

theorem faithful_looseQuotes : ReadsFaithfully quote id (looseQuotes quote) := by
  intro c found c' read
  obtain ⟨_, _, first, read⟩ := read_bind_iff.mp read
  obtain ⟨_, _, checked, last⟩ := read_bind_iff.mp read
  obtain ⟨-, rfl⟩ := read_check_iff.mp checked
  obtain ⟨rfl, rfl⟩ := read_pure_iff.mp last
  exact ⟨found, .inl rfl, (reaches_of_many1_char first).2⟩

/-- Of the quotes at the end the last three close the string. -/
theorem reaches_of_closingQuotes {found : List Char}
    (read : (closingQuotes quote).read c = some (found, c')) :
    c.Reaches (found ++ List.replicate 3 quote) c' := by
  obtain ⟨all, _, first, read⟩ := read_bind_iff.mp read
  obtain ⟨_, _, checked, last⟩ := read_bind_iff.mp read
  obtain ⟨enough, rfl⟩ := read_check_iff.mp checked
  obtain ⟨rfl, rfl⟩ := read_pure_iff.mp last
  obtain ⟨same, reached⟩ := reaches_of_many1_char first
  rw [Bool.and_eq_true, decide_eq_true_eq] at enough
  have split : all = all.drop 3 ++ List.replicate 3 quote := by
    rw [same, List.drop_replicate, List.replicate_append_replicate, Nat.sub_add_cancel enough.1]
  rw [← split]
  exact reached

theorem faithful_lineFeed :
    ReadsFaithfully quote id (do newline; return ['\n'] : Reader (List Char)) := by
  intro c found c' read
  obtain ⟨_, _, first, last⟩ := read_bind_iff.mp read
  obtain ⟨rfl, rfl⟩ := read_pure_iff.mp last
  rcases reaches_of_newline first with reached | reached
  · exact ⟨_, .inl rfl, reached⟩
  · exact ⟨_, .inr ⟨'\r', List.mem_cons_self, .inl rfl⟩, reached⟩

theorem quoted_multiline (known : quote = '"' ∨ quote = '\'') {pieces : List (Reader (List Char))}
    (each : ∀ r ∈ pieces, ReadsFaithfully quote id r) : ReadsQuoted (multiline quote pieces) := by
  intro c s c' read
  obtain ⟨_, _, opening, read⟩ := read_bind_iff.mp read
  obtain ⟨_, _, skipped, read⟩ := read_bind_iff.mp read
  obtain ⟨chunks, _, middle, read⟩ := read_bind_iff.mp read
  obtain ⟨loose, _, closing, last⟩ := read_bind_iff.mp read
  obtain ⟨rfl, rfl⟩ := read_pure_iff.mp last
  obtain ⟨_, skipped⟩ := read_discard_iff.mp skipped
  have all : ∀ r ∈ pieces ++ [(do newline; return ['\n']), looseQuotes quote],
      ReadsFaithfully quote id r := by
    simp only [List.forall_mem_append, List.forall_mem_cons, List.not_mem_nil, false_implies,
      implies_true, and_true]
    exact ⟨each, faithful_lineFeed, faithful_looseQuotes⟩
  obtain ⟨body, faithful, reached⟩ := faithful_many (faithful_firstOf all) _ _ _ middle
  have reached' := reached.trans (reaches_of_closingQuotes closing)
  rw [← List.append_assoc] at reached'
  have here := reached'.rest
  rw [List.append_assoc] at here
  obtain ⟨dropped, first, passed⟩ := reaches_of_optional_newline skipped here
  refine ⟨⟨quote, true, dropped, body ++ loose⟩, ⟨known, first, ?_⟩, ?_⟩
  · intro backslash carriage
    have whole := faithful.append (.inl rfl : Faithful quote id loose loose)
    rw [String.toList_ofList, ← whole.eq backslash carriage, List.flatMap_id]
    rfl
  · have behind := ((reaches_of_string opening).trans passed).trans reached'
    rw [String.toList_ofList, ← List.append_assoc] at behind
    exact behind

theorem quoted_multilineBasic : ReadsQuoted multilineBasic := by
  refine quoted_multiline (.inl rfl) ?_
  simp only [List.forall_mem_cons, List.not_mem_nil, false_implies, implies_true, and_true]
  refine ⟨(faithful_satisfy _).map _ fun _ => rfl, faithful_of_backslash _ ?_,
    faithful_escape.map _ fun _ => rfl⟩
  intro c a c' read
  obtain ⟨_, _, first, last⟩ := read_bind_iff.mp read
  obtain ⟨-, rfl⟩ := read_pure_iff.mp last
  exact reaches_of_backslash first

theorem quoted_multilineLiteral : ReadsQuoted multilineLiteral := by
  refine quoted_multiline (.inr rfl) ?_
  simp only [List.forall_mem_cons, List.not_mem_nil, false_implies, implies_true, and_true]
  exact (faithful_satisfy _).map _ fun _ => rfl

theorem quoted_text : ReadsQuoted text := by
  intro c s c' read
  obtain ⟨r, member, read⟩ := exists_of_read_firstOf read
  simp only [List.mem_cons, List.not_mem_nil, or_false] at member
  rcases member with rfl | rfl | rfl | rfl
  · exact quoted_multilineBasic c s c' read
  · exact quoted_basicString c s c' read
  · exact quoted_multilineLiteral c s c' read
  · exact quoted_literalString c s c' read

end Reader

/-! ## Documents -/

/-- Every string of a document stands somewhere in its source. -/
theorem exists_quotes_of_parse {source : String} {document : Table}
    (parsed : parse source = some document) {text : Located String}
    (holds : document.toValue.Holds text) :
    ∃ (q : Quotation) (before after : List Char), q.Quotes source before after text := by
  obtain ⟨before, here, stop, reached, read⟩ := finds_of_parse parsed holds
  obtain ⟨s, readText, rfl⟩ := Reader.read_located_iff.mp read
  obtain ⟨q, spells, passed⟩ := Reader.quoted_text _ _ _ readText
  have start : here.pos = bytes before := by
    rw [reached.pos]
    exact Nat.zero_add _
  refine ⟨q, before, stop.rest, (reached.trans passed).rest, ?_, spells⟩
  rw [Span.between, passed.pos, start, Nat.add_sub_cancel_left]

end InvariantInference.Toml
