import Mathlib
import InvariantInference.Clause
import InvariantInference.Proofs.Except
import InvariantInference.Proofs.Token.Slices
import InvariantInference.Proofs.Expr.Acceptance

/-!
# Spans are exact

The span of every node of an expression that was read holds the text of this
node: the slice that it denotes, read by itself, is the node again, moved to the
start of the slice. The spans of contracts and commands hold those of what they
are made of.

A phrase is read from consecutive tokens, and its span reaches from the first of
them to the last (`Placed.fits`). So do the nodes inside it, which are phrases of
some of its tokens (`Placed.inner`), and a slice that tokens cover is read as
these tokens again, whatever stood around it.
-/

namespace InvariantInference

namespace Span

/-- The other span lies inside the span. -/
def Contains (outer inner : Span) : Prop :=
  outer.offset ≤ inner.offset ∧ inner.stop ≤ outer.stop

instance (outer inner : Span) : Decidable (outer.Contains inner) :=
  inferInstanceAs (Decidable (_ ∧ _))

/-- In a text whose first byte is byte `base` the span holds the characters of
    `slice`, and neither starts nor ends within a character. -/
def Denotes (span : Span) (source : String) (base : Nat) (slice : String) : Prop :=
  ∃ before after, source = before ++ slice ++ after ∧
    span = ⟨base + before.utf8ByteSize, slice.utf8ByteSize⟩

end Span

namespace Expr

variable {rank : Nat} {ts : List Token} {e : Expr}

/-! ## Nodes -/

/-- The expressions inside an expression. -/
def inner : Expr → List Expr
  | lit _ _ | ident _ _ | atom _ _ => []
  | not _ operand => operand :: operand.inner
  | binary _ _ left right => left :: left.inner ++ right :: right.inner

/-- The expression and those inside it. -/
def subexpressions (e : Expr) : List Expr := e :: e.inner

/-- The expression moved `base` bytes to the right. -/
def shift (base : Nat) : Expr → Expr
  | lit span value => lit (span.shift base) value
  | ident span name => ident (span.shift base) ⟨name.span.shift base, name.value⟩
  | atom span text => atom (span.shift base) text
  | not span operand => not (span.shift base) (operand.shift base)
  | binary span op left right => binary (span.shift base) op (left.shift base) (right.shift base)

@[simp] theorem span_withSpan (span : Span) (e : Expr) : (e.withSpan span).span = span := by
  cases e <;> rfl

@[simp] theorem inner_withSpan (span : Span) (e : Expr) : (e.withSpan span).inner = e.inner := by
  cases e <;> rfl

@[simp] theorem span_shift (base : Nat) (e : Expr) : (e.shift base).span = e.span.shift base := by
  cases e <;> rfl

theorem shift_withSpan (base : Nat) (span : Span) (e : Expr) :
    (e.withSpan span).shift base = (e.shift base).withSpan (span.shift base) := by
  cases e <;> rfl

theorem shift_combine (base : Nat) (op : BinOp) (left right : Expr) :
    (combine op left right).shift base = combine op (left.shift base) (right.shift base) := by
  simp [combine, shift, Span.shift_join]

/-! ## Atoms -/

theorem inner_ofAtomTokens (t : Token) (more : List Token) : (ofAtomTokens t more).inner = [] := by
  unfold ofAtomTokens
  split <;> rfl

/-- The span of an atom reaches from its first token to its last. -/
theorem span_ofAtomTokens (t : Token) (more : List Token) :
    (ofAtomTokens t more).span = t.span.join (more.getLast?.getD t).span := by
  unfold ofAtomTokens
  split
  · simp [span]
  · rfl

/-- An atom that is an identifier is its only token. -/
theorem eq_of_ofAtomTokens {t : Token} {more : List Token} {span : Span} {name : Located String}
    (same : ofAtomTokens t more = ident span name) : t = ⟨.ident name.value, name.span⟩ := by
  unfold ofAtomTokens at same
  split at same
  · rename_i kind
    cases same
    rw [← kind]
  · cases same

/-- Moved tokens make a moved atom. -/
theorem shift_ofAtomTokens (base : Nat) (t : Token) (more : List Token) :
    (ofAtomTokens t more).shift base =
      ofAtomTokens (t.shift base) (more.map (Token.shift base)) := by
  have last : ((more.map (Token.shift base)).getLast?.getD (t.shift base)).span =
      (more.getLast?.getD t).span.shift base := by
    rw [List.getLast?_map, Option.getD_map]
    rfl
  unfold ofAtomTokens
  split
  · rename_i name kind
    simp [Token.shift, kind, shift]
  · rename_i other
    split
    · rename_i name kind empty
      exact absurd (List.map_eq_nil_iff.mp empty) (other name kind)
    · rw [last, shift, Span.shift_join]
      simp [Token.shift, Function.comp_def]

/-! ## Moving a phrase -/

/-- Moved tokens spell the moved tree. -/
theorem Placed.shift (base : Nat) (placed : Placed rank ts e) :
    Placed rank (ts.map (Token.shift base)) (e.shift base) := by
  induction placed with
  | looser _ ih => exact ih.looser
  | binary op _ kind _ ihFirst ihSecond =>
    rw [List.map_append, List.map_cons, shift_combine]
    exact ihFirst.binary op kind ihSecond
  | not kind _ ih =>
    rw [List.map_cons, Expr.shift, Span.shift_join, ← span_shift]
    exact ih.not kind
  | lit kind => exact .lit kind
  | group opens _ closes ih =>
    rw [List.map_cons, List.map_append, List.map_singleton, shift_withSpan, Span.shift_join]
    exact ih.group opens closes
  | atom run =>
    rw [List.map_cons, shift_ofAtomTokens]
    refine .atom ?_
    simpa [Function.comp_def, Token.shift] using run

/-! ## Phrases and their parts -/

/-- Some tokens spell every phrase. -/
theorem Placed.ne_nil (placed : Placed rank ts e) : ts ≠ [] := by
  rintro rfl
  exact placed.phrase.ne_nil rfl

/-- What stands inside a phrase is a phrase of some of its tokens. -/
theorem Placed.inner (placed : Placed rank ts e) {s : Expr} (member : s ∈ e.inner) :
    ∃ rank' part, part <:+: ts ∧ Placed rank' part s := by
  induction placed with
  | looser _ ih => exact ih member
  | @binary op t ts ts' left right first _ second ihFirst ihSecond =>
    have before : ts <:+: ts ++ t :: ts' := (List.prefix_append ts _).isInfix
    have behind : ts' <:+: ts ++ t :: ts' :=
      ((List.suffix_cons t ts').trans (List.suffix_append ts _)).isInfix
    simp only [combine, Expr.inner, List.cons_append, List.mem_cons, List.mem_append] at member
    rcases member with rfl | member | rfl | member
    · exact ⟨_, ts, before, first⟩
    · obtain ⟨rank', part, within, placed⟩ := ihFirst member
      exact ⟨rank', part, within.trans before, placed⟩
    · exact ⟨_, ts', behind, second⟩
    · obtain ⟨rank', part, within, placed⟩ := ihSecond member
      exact ⟨rank', part, within.trans behind, placed⟩
  | @not t ts e _ operand ih =>
    have behind : ts <:+: t :: ts := (List.suffix_cons t ts).isInfix
    simp only [Expr.inner, List.mem_cons] at member
    rcases member with rfl | member
    · exact ⟨_, ts, behind, operand⟩
    · obtain ⟨rank', part, within, placed⟩ := ih member
      exact ⟨rank', part, within.trans behind, placed⟩
  | lit _ => simp [Expr.inner] at member
  | @group opening closing ts e _ _ _ ih =>
    have enclosed : ts <:+: opening :: (ts ++ [closing]) := ⟨[opening], [closing], by simp⟩
    rw [inner_withSpan] at member
    obtain ⟨rank', part, within, placed⟩ := ih member
    exact ⟨rank', part, within.trans enclosed, placed⟩
  | atom _ => simp [inner_ofAtomTokens] at member

theorem Placed.subexpression (placed : Placed rank ts e) {s : Expr}
    (member : s ∈ e.subexpressions) : ∃ rank' part, part <:+: ts ∧ Placed rank' part s := by
  rcases List.mem_cons.mp member with rfl | member
  · exact ⟨rank, ts, List.infix_rfl, placed⟩
  · exact placed.inner member

/-- An identifier was read from a token, whatever parentheses stand around it. -/
theorem Placed.name {span : Span} {name : Located String}
    (placed : Placed rank ts (ident span name)) : ⟨.ident name.value, name.span⟩ ∈ ts := by
  generalize whole : ident span name = e at placed
  induction placed generalizing span with
  | looser _ ih => exact ih whole
  | @group opening closing ts e _ _ _ ih =>
    cases e with
    | ident inside name' =>
      simp only [withSpan, ident.injEq] at whole
      have found := ih (congrArg (ident inside) whole.2)
      simp [found]
    | _ => cases whole
  | atom _ => simp [eq_of_ofAtomTokens whole.symm]
  | _ => cases whole

/-! ## Spans and slices -/

/-- Where a slice is these tokens, the span holds the slice. -/
def Fits (span : Span) (ts : List Token) : Prop :=
  ∀ pos slice, Token.Covers pos slice ts → span = ⟨pos, slice.length⟩

theorem fits_token (t : Token) : Fits t.span [t] := by
  intro pos slice covers
  have first : t.span.offset = pos := covers.first t (by simp)
  have last : t.span.stop = pos + slice.length := covers.last t (by simp)
  obtain ⟨kind, offset, length⟩ := t
  simp only [Span.stop] at first last
  rw [Span.mk.injEq]
  omega

/-- The join of two spans holds what lies between them. -/
theorem Fits.join {a b : Span} {us : List Token} (first : Fits a ts) (second : Fits b us)
    (some : ts ≠ []) (some' : us ≠ []) (between : List Token) :
    Fits (a.join b) (ts ++ (between ++ us)) := by
  intro pos slice covers
  obtain ⟨left, post, same, coversLeft⟩ := covers.left some
  rw [← List.append_assoc] at covers
  obtain ⟨pre, right, same', coversRight⟩ := covers.right some'
  rw [first pos left coversLeft, second _ right coversRight]
  have lengths := congrArg List.length same
  have lengths' := congrArg List.length same'
  rw [List.length_append] at lengths lengths'
  simp only [Span.join, Span.between, Span.stop, Span.mk.injEq]
  omega

/-- The span of a phrase holds it. -/
theorem Placed.fits (placed : Placed rank ts e) : Fits e.span ts := by
  induction placed with
  | looser _ ih => exact ih
  | @binary op t _ _ _ _ first _ second ihFirst ihSecond =>
    exact ihFirst.join ihSecond first.ne_nil second.ne_nil [t]
  | @not t _ _ _ operand ih => exact (fits_token t).join ih (by simp) operand.ne_nil []
  | @lit t _ _ => exact fits_token t
  | @group opening closing ts _ _ _ _ _ =>
    rw [span_withSpan]
    exact (fits_token opening).join (fits_token closing) (by simp) (by simp) ts
  | @atom t more _ =>
    rw [span_ofAtomTokens]
    rcases List.eq_nil_or_concat more with rfl | ⟨between, last, rfl⟩
    · simpa using fits_token t
    · simpa using (fits_token t).join (fits_token last) (by simp) (by simp) between

/-! ## Reading a slice again -/

/-- The slice that the tokens of a phrase cover is read as this phrase, moved to
    the start of the slice. -/
theorem Placed.reread (placed : Placed rank ts e) {pos : Nat} {slice : List Char}
    (covers : Token.Covers pos slice ts) :
    ∃ e', parse (String.ofList slice) 0 = .ok e' ∧ e = e'.shift pos := by
  have scanned : Token.scan (pos + 0) slice = _ := Token.scan_eq_ok_iff.mpr covers.lexes
  obtain ⟨tokens, scanned, same⟩ := Token.exists_scan_of_shift scanned
  obtain ⟨ts', last, rfl, rfl, ended⟩ := List.map_eq_append_iff.mp same
  obtain ⟨stop, rfl, ends⟩ := List.map_eq_singleton_iff.mp ended
  have whole : Placed 0 (ts'.map (Token.shift pos)) e := placed.mono (Nat.zero_le rank)
  have kinds : ts'.map (·.kind) = (ts'.map (Token.shift pos)).map (·.kind) := by
    simp [Function.comp_def, Token.shift]
  -- At place 0 the same kinds are a phrase, and moved to `pos` it is this one.
  obtain ⟨e', placed', -⟩ := whole.phrase.placed kinds
  have read : ofTokens (ts' ++ [stop]) = .ok e' := placed'.read_whole (congrArg Token.kind ends)
  refine ⟨e', ?_, whole.unique (placed'.shift pos)⟩
  rw [parse, Token.ofSource, String.toList_ofList, scanned]
  exact read

/-- The text holds these tokens one after the other, before its end marker. -/
def Holds (source : String) (base : Nat) (ts : List Token) : Prop :=
  ∃ before after, after ≠ [] ∧ Token.Lexes base source.toList (before ++ (ts ++ after))

variable {source : String} {base : Nat} {us : List Token} {a b : Span}

/-- So it holds every part of them. -/
theorem Holds.part (holds : Holds source base ts) (part : us <:+: ts) : Holds source base us := by
  obtain ⟨before, after, more, lexes⟩ := holds
  obtain ⟨left, right, rfl⟩ := part
  refine ⟨before ++ left, right ++ after, by simp [more], ?_⟩
  simpa using lexes

/-- Characters of a text that is read are at the span that counts those before them. -/
theorem denotes_of_lexes {tokens : List Token} (lexes : Token.Lexes base source.toList tokens)
    {pre slice post : List Char} (split : source.toList = pre ++ slice ++ post) :
    Span.Denotes ⟨base + pre.length, slice.length⟩ source base (String.ofList slice) := by
  have single := lexes.utf8Size
  rw [split, List.forall_mem_append, List.forall_mem_append] at single
  refine ⟨String.ofList pre, String.ofList post, ?_, ?_⟩
  · rw [← String.ofList_append, ← String.ofList_append, ← split, String.ofList_toList]
  · rw [Token.utf8ByteSize_ofList_of_forall single.1.1,
      Token.utf8ByteSize_ofList_of_forall single.1.2]

/-- The tokens that a text holds cover a slice of it. -/
theorem Holds.covers (holds : Holds source base ts) (some : ts ≠ []) :
    ∃ pos slice, Token.Covers pos slice ts ∧
      Span.Denotes ⟨pos, slice.length⟩ source base (String.ofList slice) := by
  obtain ⟨before, after, more, lexes⟩ := holds
  obtain ⟨pre, slice, post, split, covers⟩ := lexes.cut some more
  exact ⟨_, slice, covers, denotes_of_lexes lexes split⟩

theorem Fits.denotes (fits : Fits a ts) (holds : Holds source base ts) (some : ts ≠ []) :
    ∃ slice, a.Denotes source base slice := by
  obtain ⟨pos, slice, covers, denotes⟩ := holds.covers some
  rw [fits pos slice covers]
  exact ⟨_, denotes⟩

/-- The span of some tokens holds that of a part of them. -/
theorem Fits.contains (outer : Fits a ts) (inner : Fits b us) (holds : Holds source base ts)
    (part : us <:+: ts) (some : us ≠ []) : a.Contains b := by
  have some' : ts ≠ [] := by
    rintro rfl
    exact some (List.infix_nil.mp part)
  obtain ⟨pos, slice, covers, -⟩ := holds.covers some'
  obtain ⟨pre, slice', post, rfl, covers'⟩ := covers.cut part some
  rw [outer pos _ covers, inner _ slice' covers']
  simp only [Span.Contains, Span.stop, List.length_append]
  omega

/-- The span of an identifier's token holds its name. -/
theorem Holds.name {span : Span} {name : String} (holds : Holds source base ts)
    (member : ⟨.ident name, span⟩ ∈ ts) : span.Denotes source base name := by
  obtain ⟨before, after, -, lexes⟩ := holds
  have member' : ⟨.ident name, span⟩ ∈ before ++ (ts ++ after) := by simp [member]
  obtain ⟨pre, post, split, same⟩ := lexes.text member' (by simp)
  have denotes := denotes_of_lexes lexes split
  rw [← same, String.ofList_toList] at denotes
  exact denotes

/-! ## Exact spans -/

/-- The spans of an expression in a text whose first byte is byte `base`: the
    expression is what its slice of the text spells, moved to where the slice
    starts; it holds the expressions inside it; and an identifier's own span
    holds its name. -/
structure Exact (source : String) (base : Nat) (e : Expr) : Prop where
  slice : ∃ slice e', e.span.Denotes source base slice ∧ parse slice 0 = .ok e' ∧
    e = e'.shift e.span.offset
  nested : ∀ s ∈ e.subexpressions, e.span.Contains s.span
  named : ∀ span name, e = ident span name →
    span.Contains name.span ∧ name.span.Denotes source base name.value

theorem Placed.exact (placed : Placed rank ts e) (holds : Holds source base ts) :
    e.Exact source base where
  slice := by
    obtain ⟨pos, slice, covers, denotes⟩ := holds.covers placed.ne_nil
    obtain ⟨e', read, same⟩ := placed.reread covers
    have fits := placed.fits pos slice covers
    refine ⟨String.ofList slice, e', ?_, read, ?_⟩
    · rw [fits]
      exact denotes
    · rw [fits]
      exact same
  nested := by
    intro s member
    obtain ⟨rank', part, within, placed'⟩ := placed.subexpression member
    exact placed.fits.contains placed'.fits holds within placed'.ne_nil
  named := by
    rintro span name rfl
    have member := placed.name
    refine ⟨?_, holds.name member⟩
    have alone : [⟨.ident name.value, name.span⟩] <:+: ts :=
      (List.singleton_infix_iff _ ts).mpr member
    exact placed.fits.contains (fits_token _) holds alone (by simp)

/-- The spans of a phrase are exact, and those of all phrases in it. -/
theorem Placed.exact_subexpressions (placed : Placed rank ts e) (holds : Holds source base ts) :
    ∀ s ∈ e.subexpressions, s.Exact source base := by
  intro s member
  obtain ⟨rank', part, within, placed'⟩ := placed.subexpression member
  exact placed'.exact (holds.part within)

/-- What is read up to an end marker is a phrase. -/
theorem exists_placed {α : Type} {last : Span} {body : List Token} {value : α} (finish : Expr → α)
    (read : (do
      let (e, rest) ← parseNext last body
      Token.expectEnd last rest
      return finish e) = .ok value) :
    ∃ taken after e, body = taken ++ after ∧ after ≠ [] ∧ Placed 0 taken e ∧ value = finish e := by
  obtain ⟨⟨e, rest⟩, read, finished⟩ := bind_eq_ok_iff.mp read
  obtain ⟨u, ended, same⟩ := bind_eq_ok_iff.mp finished
  obtain ⟨stop, more, rfl, -⟩ := expectEnd_eq_ok_iff.mp ended
  obtain ⟨taken, rfl, placed⟩ := parseNext_placed read
  exact ⟨taken, stop :: more, e, rfl, by simp, placed, (Except.ok.inj same).symm⟩

/-- A text holds its tokens, but for some of the last. -/
theorem holds_of_ofSource {after : List Token}
    (scanned : Token.ofSource source base = .ok (ts ++ after)) (more : after ≠ []) :
    Holds source base ts := ⟨[], after, more, Token.scan_eq_ok_iff.mp scanned⟩

/-- The spans of an expression that takes a whole text are exact. -/
theorem exact_of_body {α : Type} {last : Span} {value : α} (finish : Expr → α)
    (scanned : Token.ofSource source base = .ok ts)
    (read : (do
      let (e, rest) ← parseNext last ts
      Token.expectEnd last rest
      return finish e) = .ok value) :
    ∃ e, value = finish e ∧ (∃ slice, e.span.Denotes source base slice) ∧
      ∀ s ∈ e.subexpressions, s.Exact source base := by
  obtain ⟨taken, after, e, rfl, more, placed, rfl⟩ := exists_placed finish read
  have holds : Holds source base taken := holds_of_ofSource scanned more
  exact ⟨e, rfl, placed.fits.denotes holds placed.ne_nil, placed.exact_subexpressions holds⟩

/-- So are those of an expression behind a word, and the span from the word on
    holds that of the expression. -/
theorem exact_of_keyword {α : Type} {last : Span} {value : α} {t : Token} (finish : Expr → α)
    (scanned : Token.ofSource source base = .ok (t :: ts))
    (read : (do
      let (e, rest) ← parseNext last ts
      Token.expectEnd last rest
      return finish e) = .ok value) :
    ∃ e, value = finish e ∧ (∃ slice, (t.span.join e.span).Denotes source base slice) ∧
      (t.span.join e.span).Contains e.span ∧ ∀ s ∈ e.subexpressions, s.Exact source base := by
  obtain ⟨taken, after, e, rfl, more, placed, rfl⟩ := exists_placed finish read
  have holds : Holds source base (t :: taken) := holds_of_ofSource scanned more
  have behind : taken <:+: t :: taken := (List.suffix_cons t taken).isInfix
  have fits : Fits (t.span.join e.span) (t :: taken) :=
    (fits_token t).join placed.fits (by simp) placed.ne_nil []
  refine ⟨e, rfl, fits.denotes holds (by simp), ?_, ?_⟩
  · exact fits.contains placed.fits holds behind placed.ne_nil
  · exact placed.exact_subexpressions (holds.part behind)

end Expr

namespace Contract

/-- The span of a contract holds that of its condition, whose spans are exact. -/
structure Exact (source : String) (base : Nat) (contract : Contract) : Prop where
  slice : ∃ slice, contract.span.Denotes source base slice
  contains : contract.span.Contains contract.condition.span
  condition : ∀ s ∈ contract.condition.subexpressions, s.Exact source base

theorem exact_of_ofTokens {source : String} {base : Nat} {ts : List Token} {contract : Contract}
    (scanned : Token.ofSource source base = .ok ts) (read : ofTokens ts = .ok contract) :
    contract.Exact source base := by
  unfold ofTokens at read
  split at read
  · rename_i span body
    obtain ⟨e, rfl, slice, contains, exact⟩ :=
      Expr.exact_of_keyword (fun e => Contract.mk (span.join e.span) true e) scanned read
    exact ⟨slice, contains, exact⟩
  · obtain ⟨e, rfl, slice, exact⟩ :=
      Expr.exact_of_body (fun e => Contract.mk e.span false e) scanned read
    exact ⟨slice, ⟨Nat.le_refl _, Nat.le_refl _⟩, exact⟩

end Contract

namespace Command

/-- The span of a command holds that of its callee, which holds the name of the
    callee, or of its condition, whose spans are exact. -/
def Exact (source : String) (base : Nat) (command : Command) : Prop :=
  (∃ slice, command.span.Denotes source base slice) ∧
    match command with
    | call span callee =>
      span.Contains callee.span ∧ callee.span.Denotes source base callee.value
    | assert span condition | assume span condition =>
      span.Contains condition.span ∧ ∀ s ∈ condition.subexpressions, s.Exact source base

/-- The spans of a call are exact. -/
theorem exact_call {source : String} {base : Nat} {span nameSpan : Span} {name : String}
    (holds : Expr.Holds source base [⟨.call, span⟩, ⟨.ident name, nameSpan⟩]) :
    (call (span.join nameSpan) ⟨nameSpan, name⟩).Exact source base := by
  have callee := Expr.fits_token ⟨.ident name, nameSpan⟩
  have fits : Expr.Fits (span.join nameSpan) [⟨.call, span⟩, ⟨.ident name, nameSpan⟩] :=
    (Expr.fits_token ⟨.call, span⟩).join callee (by simp) (by simp) []
  refine ⟨fits.denotes holds (by simp), ?_, holds.name (by simp)⟩
  exact fits.contains callee holds (List.suffix_cons _ _).isInfix (by simp)

theorem exact_of_ofTokens {source : String} {base : Nat} {ts : List Token} {command : Command}
    (scanned : Token.ofSource source base = .ok ts) (read : ofTokens ts = .ok command) :
    command.Exact source base := by
  unfold ofTokens at read
  split at read
  · cases read
  · rename_i span operands
    split at read
    · cases read
    · rename_i name nameSpan rest
      obtain ⟨u, ended, same⟩ := bind_eq_ok_iff.mp read
      cases same
      obtain ⟨stop, more, rfl, -⟩ := Expr.expectEnd_eq_ok_iff.mp ended
      exact exact_call ⟨[], stop :: more, by simp, Token.scan_eq_ok_iff.mp scanned⟩
    · cases read
  · rename_i span body
    obtain ⟨e, rfl, exact⟩ :=
      Expr.exact_of_keyword (fun e => assert (span.join e.span) e) scanned read
    exact exact
  · rename_i span body
    obtain ⟨e, rfl, exact⟩ :=
      Expr.exact_of_keyword (fun e => assume (span.join e.span) e) scanned read
    exact exact
  · cases read

end Command

/-- Spans are exact: those of all nodes of an expression that is read, and those
    of contracts and commands. -/
theorem spans_are_exact (source : String) (base : Nat) :
    (∀ e, Expr.parse source base = .ok e → ∀ s ∈ e.subexpressions, s.Exact source base) ∧
    (∀ contract, Contract.parse source base = .ok contract → contract.Exact source base) ∧
      ∀ command, Command.parse source base = .ok command → command.Exact source base := by
  refine ⟨fun e read => ?_, fun contract read => ?_, fun command read => ?_⟩
  · obtain ⟨ts, scanned, read⟩ := bind_eq_ok_iff.mp read
    obtain ⟨e', rfl, -, exact⟩ := Expr.exact_of_body id scanned read
    exact exact
  · obtain ⟨ts, scanned, read⟩ := bind_eq_ok_iff.mp read
    exact Contract.exact_of_ofTokens scanned read
  · obtain ⟨ts, scanned, read⟩ := bind_eq_ok_iff.mp read
    exact Command.exact_of_ofTokens scanned read

/-- What `!( (a) ) && f(y)>0 ==> b` spells from byte 7 on. The parentheses belong
    to the span of the identifier and not to that of its name. -/
def guardedGroup : Expr :=
  .binary ⟨7, 24⟩ .implies
    (.binary ⟨7, 18⟩ .and
      (.not ⟨7, 8⟩ (.ident ⟨8, 7⟩ ⟨⟨11, 1⟩, "a"⟩))
      (.atom ⟨19, 6⟩ "f(y) > 0"))
    (.ident ⟨30, 1⟩ ⟨⟨30, 1⟩, "b"⟩)

theorem spans_are_exact_guardedGroup :
    (Expr.parse "!( (a) ) && f(y)>0 ==> b" 7 = .ok guardedGroup ∧
      ∀ s ∈ guardedGroup.subexpressions, s.Exact "!( (a) ) && f(y)>0 ==> b" 7) ∧
    (Contract.parse "free (b)" 0 = .ok ⟨⟨0, 8⟩, true, .ident ⟨5, 3⟩ ⟨⟨6, 1⟩, "b"⟩⟩ ∧
      Contract.Exact "free (b)" 0 ⟨⟨0, 8⟩, true, .ident ⟨5, 3⟩ ⟨⟨6, 1⟩, "b"⟩⟩) ∧
    Command.parse "call  p" 0 = .ok (.call ⟨0, 7⟩ ⟨⟨6, 1⟩, "p"⟩) ∧
      Command.Exact "call  p" 0 (.call ⟨0, 7⟩ ⟨⟨6, 1⟩, "p"⟩) := by
  have expression : Expr.parse "!( (a) ) && f(y)>0 ==> b" 7 = .ok guardedGroup := by cbv
  have contract : Contract.parse "free (b)" 0 =
      .ok ⟨⟨0, 8⟩, true, .ident ⟨5, 3⟩ ⟨⟨6, 1⟩, "b"⟩⟩ := by cbv
  have command : Command.parse "call  p" 0 = .ok (.call ⟨0, 7⟩ ⟨⟨6, 1⟩, "p"⟩) := by cbv
  exact ⟨⟨expression, (spans_are_exact _ _).1 _ expression⟩,
    ⟨contract, (spans_are_exact _ _).2.1 _ contract⟩,
    command, (spans_are_exact _ _).2.2 _ command⟩

end InvariantInference
