import Mathlib
import InvariantInference.Proofs.Token.Spelling

/-!
# Slices of a text

The tokens of a text, as a relation that says which characters each of them is.
Consecutive tokens can be cut out of their text: the slice from the first of
them to the last is read as these tokens and no others (`Lexes.cut`), since no
token becomes longer when the text behind it is cut off. A text that is moved
is read as the same tokens, moved with it (`scan_shift`).
-/

namespace InvariantInference

namespace TokenKind

/-- A word spells itself. -/
@[simp] theorem text_ofWord (word : String) : (ofWord word).text = word := by
  unfold ofWord
  split <;> rfl

end TokenKind

namespace Token

/-! ## Cutting a text behind a token -/

/-- A run of characters that stops in a text stops in every cut of it. -/
theorem takeWhile_append_of_isPrefix {p : Char → Bool} {cs rest : List Char}
    (cut : rest <+: cs.dropWhile p) : (cs.takeWhile p ++ rest).takeWhile p = cs.takeWhile p := by
  have all : ∀ c ∈ cs.takeWhile p, p c := fun c member => List.mem_takeWhile_imp member
  rw [List.takeWhile_append_of_pos all]
  cases rest with
  | nil => simp
  | cons c rest =>
    obtain ⟨tail, same⟩ := cut
    have stops : p c = false := by
      have := List.head?_dropWhile_not p cs
      rw [← same] at this
      simpa using this
    simp [stops]

/-- The token of this kind is the longest at the head of `c :: (lexeme ++ rest)`,
    and of that text cut anywhere behind `lexeme`. -/
structure Cuts (c : Char) (lexeme rest : List Char) (kind : TokenKind) : Prop where
  text : kind.text.toList = c :: lexeme
  munched : ∀ rest', rest' <+: rest → munch? c (lexeme ++ rest') = some (kind, lexeme.length)

/-- Operators of one character are cut where they are read alone. -/
theorem cuts_symbol {c : Char} {cs : List Char} (symbol : isSymbol c)
    (munched : munch? c cs = some (.op c.toString, 0)) : Cuts c [] cs (.op c.toString) := by
  refine ⟨by simp [TokenKind.text, Char.toString], ?_⟩
  rintro cs' ⟨tail, rfl⟩
  rw [List.nil_append]
  unfold munch?
  split
  case h_6 | h_7 => simp [munch?] at munched
  case h_12 => simp [symbol]
  all_goals cases symbol

/-- An equality sign is cut where no arrow is read. -/
theorem cuts_eqEq {cs : List Char} (noArrow : ∀ tail, cs ≠ '>' :: tail) :
    Cuts '=' ['='] cs .eqEq := by
  refine ⟨rfl, ?_⟩
  rintro cs' ⟨tail, rfl⟩
  match cs', noArrow with
  | [], _ => rfl
  | c :: cs', noArrow =>
    have other : c ≠ '>' := fun same => noArrow (cs' ++ tail) (by simp [same])
    simp [munch?, other]

/-- A negation is cut where no inequality is read. -/
theorem cuts_bang {cs : List Char} (noEquality : ∀ tail, cs ≠ '=' :: tail) :
    Cuts '!' [] cs .bang := by
  refine ⟨rfl, ?_⟩
  rintro cs' ⟨tail, rfl⟩
  match cs', noEquality with
  | [], _ => rfl
  | c :: cs', noEquality =>
    have other : c ≠ '=' := fun same => noEquality (cs' ++ tail) (by simp [same])
    simp [munch?, other]

/-- What is read at the head of a text is cut from it. -/
theorem exists_cuts {c : Char} {cs : List Char} {kind : TokenKind} {more : Nat}
    (munched : munch? c cs = some (kind, more)) :
    ∃ lexeme rest, cs = lexeme ++ rest ∧ more = lexeme.length ∧ Cuts c lexeme rest kind := by
  have read := munched
  unfold munch? at munched
  split at munched
  case h_12 =>
    split at munched
    · rename_i symbol
      cases munched
      exact ⟨[], cs, rfl, rfl, cuts_symbol symbol read⟩
    split at munched
    · rename_i digit
      cases munched
      refine ⟨_, _, List.takeWhile_append_dropWhile.symm, rfl, by simp [TokenKind.text], ?_⟩
      intro cs' cut
      rw [munch?_of_ordinary (notMem_of_class digit (by decide)),
        isSymbol_of_class digit (by decide), digit, takeWhile_append_of_isPrefix cut]
      rfl
    split at munched
    · rename_i start
      cases munched
      refine ⟨_, _, List.takeWhile_append_dropWhile.symm, rfl, by simp, ?_⟩
      intro cs' cut
      rw [munch?_of_ordinary (notMem_of_class start (by decide)),
        isSymbol_of_class start (by decide), isDigit_of_isWordStart start, start,
        takeWhile_append_of_isPrefix cut]
      rfl
    · cases munched
  all_goals cases munched
  case h_1 => exact ⟨['=', '>'], _, rfl, rfl, rfl, fun _ _ => rfl⟩
  case h_2 noArrow => exact ⟨['='], _, rfl, rfl, cuts_eqEq noArrow⟩
  case h_3 => exact ⟨['|'], _, rfl, rfl, rfl, fun _ _ => rfl⟩
  case h_4 => exact ⟨['&'], _, rfl, rfl, rfl, fun _ _ => rfl⟩
  case h_9 noEquality => exact ⟨[], _, rfl, rfl, cuts_bang noEquality⟩
  case h_10 | h_11 => exact ⟨[], _, rfl, rfl, rfl, fun _ _ => rfl⟩
  all_goals exact ⟨['='], _, rfl, rfl, rfl, fun _ _ => rfl⟩

/-! ## The tokens of a text -/

/-- The characters from place `pos` on are these tokens and blanks. -/
inductive Lexes : Nat → List Char → List Token → Prop
  | done (pos : Nat) : Lexes pos [] [⟨.eof, ⟨pos, 0⟩⟩]
  | blank {pos : Nat} {c : Char} {cs : List Char} {ts : List Token} (blank : isBlank c)
      (later : Lexes (pos + 1) cs ts) : Lexes pos (c :: cs) ts
  | token {pos : Nat} {c : Char} {lexeme rest : List Char} {kind : TokenKind} {ts : List Token}
      (visible : isBlank c = false) (cuts : Cuts c lexeme rest kind)
      (later : Lexes (pos + (lexeme.length + 1)) rest ts) :
      Lexes pos (c :: (lexeme ++ rest)) (⟨kind, ⟨pos, lexeme.length + 1⟩⟩ :: ts)

theorem Cuts.munch {c : Char} {lexeme rest : List Char} {kind : TokenKind}
    (cuts : Cuts c lexeme rest kind) : munch? c (lexeme ++ rest) = some (kind, lexeme.length) :=
  cuts.munched rest List.prefix_rfl

theorem Cuts.of_isPrefix {c : Char} {lexeme rest rest' : List Char} {kind : TokenKind}
    (cuts : Cuts c lexeme rest kind) (shorter : rest' <+: rest) : Cuts c lexeme rest' kind :=
  ⟨cuts.text, fun cs cut => cuts.munched cs (cut.trans shorter)⟩

/-- Scanning finds the tokens of a text. -/
theorem scan_eq_ok_iff {pos : Nat} {cs : List Char} {ts : List Token} :
    scan pos cs = .ok ts ↔ Lexes pos cs ts := by
  constructor
  · intro scanned
    fun_induction scan pos cs generalizing ts with
    | case1 pos =>
      cases scanned
      exact .done pos
    | case2 pos c rest blank ih => exact .blank blank (ih scanned)
    | case3 pos c rest visible stray => cases scanned
    | case4 pos c rest visible kind more munched tokens later ih =>
      cases scanned
      obtain ⟨lexeme, rest, rfl, rfl, cuts⟩ := exists_cuts munched
      rw [List.drop_left] at ih later
      exact .token (by simpa using visible) cuts (ih later)
    | case5 pos c rest visible kind more munched error later ih => cases scanned
  · intro lexes
    induction lexes with
    | done pos => rw [scan]
    | blank blank _ ih =>
      rw [scan, if_pos blank]
      exact ih
    | token visible cuts _ ih =>
      rw [scan]
      simp [visible, cuts.munch, ih]

namespace Lexes

variable {pos : Nat} {cs : List Char} {ts before after : List Token}

/-- The text at the span of a token is the text of the token. -/
theorem text (lexes : Lexes pos cs ts) {t : Token} (member : t ∈ ts) (visible : t.kind ≠ .eof) :
    ∃ pre post, cs = pre ++ t.kind.text.toList ++ post ∧
      t.span = ⟨pos + pre.length, t.kind.text.toList.length⟩ := by
  induction lexes with
  | done pos =>
    rw [List.mem_singleton] at member
    exact absurd (by rw [member]) visible
  | @blank pos c cs ts _ _ ih =>
    obtain ⟨pre, post, rfl, span⟩ := ih member
    refine ⟨c :: pre, post, rfl, ?_⟩
    rw [span, List.length_cons, Span.mk.injEq]
    omega
  | @token pos c lexeme rest kind ts _ cuts _ ih =>
    rcases List.mem_cons.mp member with rfl | member
    · exact ⟨[], rest, by simp [cuts.text], by simp [cuts.text]⟩
    · obtain ⟨pre, post, rfl, span⟩ := ih member
      refine ⟨c :: (lexeme ++ pre), post, by simp, ?_⟩
      rw [span, List.length_cons, List.length_append, Span.mk.injEq]
      omega

/-- Where a list of one token is split before its end, nothing comes first. -/
theorem eq_nil_of_append_eq_singleton {t : Token} (whole : ts ++ after = [t]) (some : after ≠ []) :
    ts = [] := by
  rcases List.append_eq_singleton_iff.mp whole with ⟨empty, -⟩ | ⟨-, empty⟩
  · exact empty
  · exact absurd empty some

/-- The text can be cut off before a token. -/
theorem drop (lexes : Lexes pos cs (before ++ ts)) (some : ts ≠ []) :
    ∃ pre cs', cs = pre ++ cs' ∧ Lexes (pos + pre.length) cs' ts ∧
      ∀ t ∈ ts.head?, t.span.offset = pos + pre.length := by
  generalize whole : before ++ ts = tokens at lexes
  induction lexes generalizing before with
  | done pos =>
    obtain rfl := eq_nil_of_append_eq_singleton whole some
    rw [List.nil_append] at whole
    subst whole
    exact ⟨[], [], rfl, .done pos, by simp⟩
  | @blank pos c cs tokens blank later ih =>
    obtain ⟨pre, cs', rfl, lexes, first⟩ := ih whole
    have moved : pos + 1 + pre.length = pos + (c :: pre).length := by
      rw [List.length_cons]
      omega
    rw [moved] at lexes first
    exact ⟨c :: pre, cs', rfl, lexes, first⟩
  | @token pos c lexeme rest kind tokens visible cuts later ih =>
    cases before with
    | nil =>
      rw [List.nil_append] at whole
      subst whole
      exact ⟨[], _, rfl, .token visible cuts later, by simp⟩
    | cons t before =>
      rw [List.cons_append, List.cons.injEq] at whole
      obtain ⟨pre, cs', rfl, lexes, first⟩ := ih whole.2
      have moved : pos + (lexeme.length + 1) + pre.length = pos + (c :: (lexeme ++ pre)).length := by
        rw [List.length_cons, List.length_append]
        omega
      rw [moved] at lexes first
      exact ⟨c :: (lexeme ++ pre), cs', by simp, lexes, first⟩

/-- The text can be cut off behind a token. -/
theorem take (lexes : Lexes pos cs (ts ++ after)) (more : after ≠ []) :
    ∃ slice post, cs = slice ++ post ∧
      Lexes pos slice (ts ++ [⟨.eof, ⟨pos + slice.length, 0⟩⟩]) ∧
      ∀ t ∈ ts.getLast?, t.span.stop = pos + slice.length := by
  generalize whole : ts ++ after = tokens at lexes
  induction lexes generalizing ts with
  | done pos =>
    obtain rfl := eq_nil_of_append_eq_singleton whole more
    exact ⟨[], [], rfl, .done pos, by simp⟩
  | @blank pos c cs tokens blank later ih =>
    obtain ⟨slice, post, rfl, lexes, last⟩ := ih whole
    have moved : pos + 1 + slice.length = pos + (c :: slice).length := by
      rw [List.length_cons]
      omega
    rw [moved] at lexes last
    exact ⟨c :: slice, post, rfl, .blank blank lexes, last⟩
  | @token pos c lexeme rest kind tokens visible cuts later ih =>
    match ts, whole with
    | [], _ => exact ⟨[], _, rfl, .done pos, by simp⟩
    | [t], whole =>
      rw [List.cons_append, List.cons.injEq] at whole
      obtain ⟨rfl, -⟩ := whole
      have alone : Lexes pos (c :: (lexeme ++ [])) _ :=
        .token visible (cuts.of_isPrefix List.nil_prefix) (.done _)
      rw [List.append_nil] at alone
      exact ⟨c :: lexeme, rest, rfl, alone, by simp [Span.stop]⟩
    | t :: t' :: ts, whole =>
      rw [List.cons_append, List.cons.injEq] at whole
      obtain ⟨rfl, whole⟩ := whole
      obtain ⟨slice, post, rfl, lexes, last⟩ := ih whole
      have moved : pos + (lexeme.length + 1) + slice.length =
          pos + (c :: (lexeme ++ slice)).length := by
        rw [List.length_cons, List.length_append]
        omega
      have shorter := cuts.of_isPrefix (List.prefix_append slice post)
      refine ⟨c :: (lexeme ++ slice), post, by simp, ?_, ?_⟩
      · rw [← moved]
        exact .token visible shorter lexes
      · rw [List.getLast?_cons_cons, ← moved]
        exact last

end Lexes

/-- The text from place `pos` on is these tokens, with no blanks around them. -/
structure Covers (pos : Nat) (slice : List Char) (ts : List Token) : Prop where
  lexes : Lexes pos slice (ts ++ [⟨.eof, ⟨pos + slice.length, 0⟩⟩])
  first : ∀ t ∈ ts.head?, t.span.offset = pos
  last : ∀ t ∈ ts.getLast?, t.span.stop = pos + slice.length

/-- Consecutive tokens can be cut out of a text. -/
theorem Lexes.cut {pos : Nat} {cs : List Char} {before ts after : List Token}
    (lexes : Lexes pos cs (before ++ (ts ++ after))) (some : ts ≠ []) (more : after ≠ []) :
    ∃ pre slice post, cs = pre ++ slice ++ post ∧ Covers (pos + pre.length) slice ts := by
  obtain ⟨pre, cs', rfl, lexes, first⟩ := lexes.drop (by simp [some])
  obtain ⟨slice, post, rfl, lexes, last⟩ := lexes.take more
  refine ⟨pre, slice, post, by simp, lexes, ?_, last⟩
  rwa [List.head?_append_of_ne_nil _ some] at first

namespace Covers

variable {pos : Nat} {cs : List Char} {ts us : List Token}

/-- The first of the tokens that a slice covers start where it starts. -/
theorem left (covers : Covers pos cs (ts ++ us)) (some : ts ≠ []) :
    ∃ slice post, cs = slice ++ post ∧ Covers pos slice ts := by
  have lexes := covers.lexes
  rw [List.append_assoc] at lexes
  obtain ⟨slice, post, same, lexes, last⟩ := lexes.take (by simp)
  refine ⟨slice, post, same, lexes, ?_, last⟩
  have first := covers.first
  rwa [List.head?_append_of_ne_nil _ some] at first

/-- The last of the tokens that a slice covers end where it ends. -/
theorem right (covers : Covers pos cs (ts ++ us)) (some : us ≠ []) :
    ∃ pre slice, cs = pre ++ slice ∧ Covers (pos + pre.length) slice us := by
  have lexes := covers.lexes
  rw [List.append_assoc] at lexes
  obtain ⟨pre, slice, rfl, lexes, first⟩ := lexes.drop (by simp)
  have last := covers.last
  rw [List.getLast?_append_of_ne_nil _ some] at last
  rw [List.head?_append_of_ne_nil _ some] at first
  rw [List.length_append, ← Nat.add_assoc] at lexes last
  exact ⟨pre, slice, rfl, lexes, first, last⟩

/-- Consecutive tokens can be cut out of those that a slice covers. -/
theorem cut (covers : Covers pos cs ts) (part : us <:+: ts) (some : us ≠ []) :
    ∃ pre slice post, cs = pre ++ slice ++ post ∧ Covers (pos + pre.length) slice us := by
  obtain ⟨before, after, rfl⟩ := part
  rw [List.append_assoc] at covers
  obtain ⟨pre, cs', rfl, covers'⟩ := covers.right (by simp [some])
  obtain ⟨slice, post, rfl, covers''⟩ := covers'.left some
  exact ⟨pre, slice, post, by simp, covers''⟩

end Covers

/-! ## Bytes -/

/-- The characters of words and numbers are single bytes. -/
theorem utf8Size_of_isWordChar {c : Char} (word : isWordChar c) : c.utf8Size = 1 := by
  simp only [isWordChar, Char.isAlphanum, Char.isAlpha, Char.isUpper, Char.isLower, Char.isDigit,
    Bool.or_eq_true, Bool.and_eq_true, decide_eq_true_eq, ge_iff_le,
    UInt32.le_iff_toNat_le] at word
  rw [Char.utf8Size_eq_one_iff, UInt32.le_iff_toNat_le]
  have upperZ : 'Z'.val.toNat = 90 := rfl
  have lowerZ : 'z'.val.toNat = 122 := rfl
  have nine : '9'.val.toNat = 57 := rfl
  have limit : (127 : UInt32).toNat = 127 := rfl
  rcases word with ((upper | lower) | digit) | rfl
  · omega
  · omega
  · omega
  · decide

/-- The characters of a token are single bytes. -/
theorem utf8Size_of_lexical {kind : TokenKind} (lexical : kind.Lexical) :
    ∀ c ∈ kind.text.toList, c.utf8Size = 1 := by
  cases kind with
  | op text =>
    rcases lexical with long | ⟨c, symbol, rfl⟩
    · simp only [TokenKind.longOperators, List.mem_cons, List.not_mem_nil, or_false] at long
      rcases long with rfl | rfl | rfl | rfl <;> simp [TokenKind.text] <;> decide
    · simp only [isSymbol, List.contains_eq_mem, decide_eq_true_eq, List.mem_cons,
        List.not_mem_nil, or_false] at symbol
      rcases symbol with rfl | rfl | rfl | rfl | rfl | rfl | rfl | rfl | rfl | rfl | rfl <;>
        simp [TokenKind.text] <;> decide
  | int text =>
    intro c member
    refine utf8Size_of_isWordChar ?_
    simp [isWordChar, Char.isAlphanum, lexical.2 c member]
  | ident name =>
    obtain ⟨⟨c, cs, spelled, start, chars⟩, -⟩ := lexical
    have first : isWordChar c := by
      simp only [isWordStart, Bool.or_eq_true] at start
      rcases start with alpha | underscore
      · simp [isWordChar, Char.isAlphanum, alpha]
      · simp [isWordChar, underscore]
    change ∀ d ∈ name.toList, _
    rw [spelled, List.forall_mem_cons]
    exact ⟨utf8Size_of_isWordChar first, fun d member => utf8Size_of_isWordChar (chars d member)⟩
  | eof => exact lexical.elim
  | _ =>
    simp only [TokenKind.text, String.reduceToList, List.forall_mem_cons, List.not_mem_nil,
      false_implies, implies_true]
    decide

/-- All characters of a text that is read are single bytes. -/
theorem Lexes.utf8Size {pos : Nat} {cs : List Char} {ts : List Token} (lexes : Lexes pos cs ts) :
    ∀ c ∈ cs, c.utf8Size = 1 := by
  induction lexes with
  | done pos => simp
  | blank blank _ ih =>
    rw [List.forall_mem_cons]
    refine ⟨?_, ih⟩
    simp only [isBlank, Bool.or_eq_true, decide_eq_true_eq] at blank
    rcases blank with (((rfl | rfl) | rfl) | rfl) | rfl <;> rfl
  | token _ cuts _ ih =>
    have chars := utf8Size_of_lexical (munch?_lexical cuts.munch)
    rw [cuts.text] at chars
    rw [← List.cons_append, List.forall_mem_append]
    exact ⟨chars, ih⟩

/-- A text of single bytes has as many bytes as characters. -/
theorem utf8ByteSize_ofList_of_forall {cs : List Char} (single : ∀ c ∈ cs, c.utf8Size = 1) :
    (String.ofList cs).utf8ByteSize = cs.length := by
  induction cs with
  | nil => rfl
  | cons c cs ih =>
    rw [List.forall_mem_cons] at single
    rw [String.ofList_cons, String.utf8ByteSize_append, String.utf8ByteSize_singleton, single.1,
      ih single.2, List.length_cons]
    omega

/-! ## Moving a text -/

/-- The token moved `base` bytes to the right. -/
def shift (base : Nat) (t : Token) : Token := ⟨t.kind, t.span.shift base⟩

end Token

/-- The error moved `base` bytes to the right. -/
def SourceError.shift (base : Nat) (e : SourceError) : SourceError := ⟨e.fault, e.span.shift base⟩

namespace Token

/-- A text that is moved is read as the same tokens, or fails in the same way. -/
theorem scan_shift (base pos : Nat) (cs : List Char) :
    scan (base + pos) cs =
      ((scan pos cs).map (·.map (shift base))).mapError (SourceError.shift base) := by
  fun_induction scan pos cs with
  | case1 pos =>
    rw [scan]
    rfl
  | case2 pos c rest blank ih =>
    rw [scan, if_pos blank, Nat.add_assoc]
    exact ih
  | case3 pos c rest visible stray =>
    rw [scan, if_neg visible, stray]
    rfl
  | case4 pos c rest visible kind more munched tokens later ih =>
    rw [scan, if_neg visible, munched]
    simp only
    rw [Nat.add_assoc, ih, later]
    rfl
  | case5 pos c rest visible kind more munched error later ih =>
    rw [scan, if_neg visible, munched]
    simp only
    rw [Nat.add_assoc, ih, later]
    rfl

/-- The tokens of a moved text are those of the text, moved. -/
theorem exists_scan_of_shift {base pos : Nat} {cs : List Char} {ts : List Token}
    (scanned : scan (base + pos) cs = .ok ts) :
    ∃ ts', scan pos cs = .ok ts' ∧ ts'.map (shift base) = ts := by
  rw [scan_shift] at scanned
  cases unmoved : scan pos cs with
  | error error =>
    rw [unmoved] at scanned
    cases scanned
  | ok ts' =>
    rw [unmoved] at scanned
    exact ⟨ts', rfl, Except.ok.inj scanned⟩

end Token

end InvariantInference
