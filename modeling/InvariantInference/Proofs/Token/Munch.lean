import Mathlib
import InvariantInference.Proofs.Token.Slices

/-!
# Longest match

Each kind of token has a pattern, and several patterns may match at one place
of a text. The token that is read there has the longest match of all, and a
word that is a keyword is no identifier. A text is read from its start to its
end in this way, or up to the first place where no pattern matches; what lies
between its tokens is blank.
-/

namespace InvariantInference

namespace TokenKind

/-! ## Patterns -/

/-- The letters of words. -/
def IsLetter (c : Char) : Prop := 'a' ≤ c ∧ c ≤ 'z' ∨ 'A' ≤ c ∧ c ≤ 'Z' ∨ c = '_'

/-- The digits of numbers. -/
def IsNumeral (c : Char) : Prop := '0' ≤ c ∧ c ≤ '9'

/-- The operators that have no kind of their own. -/
def operators : List String :=
  ["!=", "<=", ">=", "<", ">", "+", "-", "*", "/", "%", ".", ",", "[", "]", ":="]

/-- The kinds whose texts are words. -/
def keywords : List TokenKind := [litTrue, litFalse, call, assert, assume, free]

/-- The text of a token of this kind matches the pattern of the kind. Every word matches that of
    identifiers, be it a keyword or not. -/
def Patterned : TokenKind → Prop
  | op text => text ∈ operators
  | int text => text.toList ≠ [] ∧ ∀ c ∈ text.toList, IsNumeral c
  | ident name => ∃ c cs, name.toList = c :: cs ∧ IsLetter c ∧ ∀ d ∈ cs, IsLetter d ∨ IsNumeral d
  | eof => False
  | _ => True

/-- The pattern of this kind matches at the head of a text. -/
def MatchesAt (kind : TokenKind) (cs : List Char) : Prop :=
  kind.Patterned ∧ kind.text.toList <+: cs

/-- A token of the first kind is not taken where there is one of the second: it is shorter, the
    same, or an identifier that spells a keyword. -/
def Yields (other kind : TokenKind) : Prop :=
  other.text.toList.length < kind.text.toList.length ∨ other = kind ∨
    kind ∈ keywords ∧ other = ident kind.text

/-- The token to be taken at the head of a text. -/
structure Longest (kind : TokenKind) (cs : List Char) : Prop where
  here : kind.MatchesAt cs
  best : ∀ other : TokenKind, other.MatchesAt cs → other.Yields kind

theorem mem_operators_iff {text : String} :
    text ∈ operators ↔ text ∈ longOperators ∨ ∃ c, Token.isSymbol c ∧ text = c.toString := by
  have parts : operators.Perm (longOperators ++
      ['<', '>', '+', '-', '*', '/', '%', '.', ',', '[', ']'].map Char.toString) := by
    decide +kernel
  rw [parts.mem_iff, List.mem_append, List.mem_map]
  simp only [Token.isSymbol, List.contains_iff_mem, @eq_comm _ text]

theorem isNumeral_iff {c : Char} : IsNumeral c ↔ c.isDigit := by
  simp [IsNumeral, Char.isDigit, Char.le_def]

theorem isLetter_iff {c : Char} : IsLetter c ↔ Token.isWordStart c := by
  simp only [IsLetter, Token.isWordStart, Char.isAlpha, Char.isUpper, Char.isLower, Char.le_def,
    Bool.or_eq_true, Bool.and_eq_true, decide_eq_true_eq, ge_iff_le]
  tauto

theorem isWordChar_iff {c : Char} : Token.isWordChar c ↔ IsLetter c ∨ IsNumeral c := by
  rw [isLetter_iff, isNumeral_iff]
  simp only [Token.isWordChar, Token.isWordStart, Char.isAlphanum, Bool.or_eq_true]
  tauto

/-- What is read matches its pattern. -/
theorem Lexical.patterned {kind : TokenKind} (lexical : kind.Lexical) : kind.Patterned := by
  cases kind with
  | op text => exact mem_operators_iff.mpr lexical
  | int text => exact ⟨lexical.1, fun c member => isNumeral_iff.mpr (lexical.2 c member)⟩
  | ident name =>
    obtain ⟨⟨c, cs, spelled, start, chars⟩, -⟩ := lexical
    exact ⟨c, cs, spelled, isLetter_iff.mpr start, fun d member => isWordChar_iff.mp (chars d member)⟩
  | eof => exact lexical
  | _ => trivial

theorem yields_ofWord (name : String) : (ident name).Yields (ofWord name) := by
  unfold ofWord
  split
  case h_7 => exact .inr (.inl rfl)
  all_goals exact .inr (.inr ⟨by decide, rfl⟩)

end TokenKind

namespace Token

variable {c : Char} {cs ds lexeme rest : List Char} {kind other : TokenKind}

/-! ## What is read at one place -/

/-- Of a text that begins with some characters of a class a run of the class takes these at least. -/
theorem takeWhile_append_cases {p : Char → Bool} (all : ∀ d ∈ ds, p d) (rest : List Char) :
    (ds ++ rest).takeWhile p = ds ∨ ds.length < ((ds ++ rest).takeWhile p).length := by
  rw [List.takeWhile_append_of_pos all, List.length_append]
  by_cases stops : rest.takeWhile p = []
  · left
    rw [stops, List.append_nil]
  · right
    have more := List.length_pos_iff.mpr stops
    omega

/-- Where an operator of one character matches, it is read or a longer one. -/
theorem exists_munch_symbol (symbol : isSymbol c) (cs : List Char) :
    ∃ kind more, munch? c cs = some (kind, more) ∧ (TokenKind.op c.toString).Yields kind := by
  unfold munch?
  split
  case h_6 | h_7 => exact ⟨_, _, rfl, .inl (by decide)⟩
  case h_12 => exact ⟨_, _, if_pos symbol, .inr (.inl rfl)⟩
  all_goals cases symbol

/-- Where a word matches, it is read or a longer one. -/
theorem exists_munch_word (start : isWordStart c) (chars : ∀ d ∈ ds, isWordChar d)
    (spelled : other.text.toList = c :: ds)
    (yields : other.Yields (.ofWord (String.ofList (c :: ds)))) (rest : List Char) :
    ∃ kind more, munch? c (ds ++ rest) = some (kind, more) ∧ other.Yields kind := by
  rw [munch?_of_ordinary (notMem_of_class start (by decide)), isSymbol_of_class start (by decide),
    isDigit_of_isWordStart start, start]
  refine ⟨_, _, rfl, ?_⟩
  rcases takeWhile_append_cases chars rest with same | longer
  · rw [same]
    exact yields
  · left
    rw [spelled, TokenKind.text_ofWord, String.toList_ofList, List.length_cons, List.length_cons]
    omega

/-- Where a number matches, it is read or a longer one. -/
theorem exists_munch_number (digit : c.isDigit) (digits : ∀ d ∈ ds, d.isDigit)
    (rest : List Char) :
    ∃ kind more, munch? c (ds ++ rest) = some (kind, more) ∧
      (TokenKind.int (String.ofList (c :: ds))).Yields kind := by
  rw [munch?_of_ordinary (notMem_of_class digit (by decide)), isSymbol_of_class digit (by decide),
    digit]
  refine ⟨_, _, rfl, ?_⟩
  rcases takeWhile_append_cases digits rest with same | longer
  · rw [same]
    exact .inr (.inl rfl)
  · left
    simp only [TokenKind.text, String.toList_ofList, List.length_cons]
    omega

/-- Where a pattern matches, a token is read to which this match yields. -/
theorem exists_munch (here : other.MatchesAt (c :: cs)) :
    ∃ kind more, munch? c cs = some (kind, more) ∧ other.Yields kind := by
  obtain ⟨pattern, rest, spelled⟩ := here
  have word : ∀ (d : Char) (ds : List Char), other.text.toList = d :: ds → isWordStart d →
      ds.all isWordChar → other.Yields (.ofWord (String.ofList (d :: ds))) →
      ∃ kind more, munch? c cs = some (kind, more) ∧ other.Yields kind := by
    intro d ds text start chars yields
    rw [text, List.cons_append, List.cons.injEq] at spelled
    obtain ⟨rfl, rfl⟩ := spelled
    exact exists_munch_word start (List.all_eq_true.mp chars) text yields rest
  have itself : other.Yields other := .inr (.inl rfl)
  cases other with
  | litTrue => exact word 't' ['r', 'u', 'e'] rfl rfl rfl itself
  | litFalse => exact word 'f' ['a', 'l', 's', 'e'] rfl rfl rfl itself
  | call => exact word 'c' ['a', 'l', 'l'] rfl rfl rfl itself
  | assert => exact word 'a' ['s', 's', 'e', 'r', 't'] rfl rfl rfl itself
  | assume => exact word 'a' ['s', 's', 'u', 'm', 'e'] rfl rfl rfl itself
  | free => exact word 'f' ['r', 'e', 'e'] rfl rfl rfl itself
  | ident name =>
    obtain ⟨d, ds, text, letter, chars⟩ := pattern
    have same : String.ofList (d :: ds) = name := by rw [← text, String.ofList_toList]
    refine word d ds text (TokenKind.isLetter_iff.mp letter) ?_ ?_
    · exact List.all_eq_true.mpr fun e member => TokenKind.isWordChar_iff.mpr (chars e member)
    · rw [same]
      exact TokenKind.yields_ofWord name
  | int text =>
    obtain ⟨nonempty, digits⟩ := pattern
    obtain ⟨d, ds, chars⟩ := List.exists_cons_of_ne_nil nonempty
    have same : text = String.ofList (d :: ds) := by rw [← chars, String.ofList_toList]
    rw [TokenKind.text, chars, List.cons_append, List.cons.injEq] at spelled
    obtain ⟨rfl, rfl⟩ := spelled
    rw [chars, List.forall_mem_cons] at digits
    rw [same]
    exact exists_munch_number (TokenKind.isNumeral_iff.mp digits.1)
      (fun e member => TokenKind.isNumeral_iff.mp (digits.2 e member)) rest
  | op text =>
    rcases TokenKind.mem_operators_iff.mp pattern with long | ⟨d, symbol, rfl⟩
    · simp only [TokenKind.longOperators, List.mem_cons, List.not_mem_nil, or_false] at long
      rcases long with rfl | rfl | rfl | rfl <;>
        (cases spelled; exact ⟨_, _, rfl, itself⟩)
    · have first : d = c := by simpa [TokenKind.text, Char.toString] using congrArg List.head? spelled
      rw [first]
      exact exists_munch_symbol (first ▸ symbol) cs
  | eof => exact pattern.elim
  | eqEq =>
    cases spelled
    by_cases arrow : ∃ tail, rest = '>' :: tail
    · obtain ⟨tail, rfl⟩ := arrow
      exact ⟨.implies, 2, rfl, .inl (by decide)⟩
    · exact ⟨.eqEq, 1, (cuts_eqEq fun tail same => arrow ⟨tail, same⟩).munch, itself⟩
  | bang =>
    cases spelled
    by_cases unequal : ∃ tail, rest = '=' :: tail
    · obtain ⟨tail, rfl⟩ := unequal
      exact ⟨.op "!=", 1, rfl, .inl (by decide)⟩
    · exact ⟨.bang, 0, (cuts_bang fun tail same => unequal ⟨tail, same⟩).munch, itself⟩
  | implies | orOr | andAnd | lparen | rparen =>
    cases spelled
    exact ⟨_, _, rfl, itself⟩

/-- What is read is the longest match, and a keyword before an identifier. -/
theorem Cuts.longest (cuts : Cuts c lexeme rest kind) : kind.Longest (c :: (lexeme ++ rest)) := by
  refine ⟨⟨(munch?_lexical cuts.munch).patterned, rest, ?_⟩, ?_⟩
  · rw [cuts.text, List.cons_append]
  · intro other here
    obtain ⟨kind', more, munched, yields⟩ := exists_munch here
    rw [cuts.munch] at munched
    cases munched
    exact yields

/-- Where nothing is read, no pattern matches. -/
theorem not_matchesAt_of_munch (stray : munch? c cs = none) (kind : TokenKind) :
    ¬ kind.MatchesAt (c :: cs) := by
  intro here
  obtain ⟨kind', more, munched, -⟩ := exists_munch here
  rw [stray] at munched
  cases munched

/-! ## What is read of a text -/

/-- The characters from place `pos` on are these tokens and blanks, where `rest` comes behind
    them. -/
inductive Munches (rest : List Char) : Nat → List Char → List Token → Prop
  | done (pos : Nat) : Munches rest pos [] []
  | blank {pos : Nat} {c : Char} {cs : List Char} {ts : List Token} (blank : isBlank c)
      (later : Munches rest (pos + 1) cs ts) : Munches rest pos (c :: cs) ts
  | token {pos : Nat} {c : Char} {lexeme cs : List Char} {kind : TokenKind} {ts : List Token}
      (visible : isBlank c = false) (cuts : Cuts c lexeme (cs ++ rest) kind)
      (later : Munches rest (pos + (lexeme.length + 1)) cs ts) :
      Munches rest pos (c :: (lexeme ++ cs)) (⟨kind, ⟨pos, lexeme.length + 1⟩⟩ :: ts)

theorem add_length_token {pos : Nat} {before : List Char} :
    pos + (c :: (lexeme ++ before)).length = pos + (lexeme.length + 1) + before.length := by
  rw [List.length_cons, List.length_append]
  omega

/-- A text is read up to its end, or up to a character that is no blank and where no token
    starts. -/
theorem scan_munches (pos : Nat) (cs : List Char) :
    ∃ before after tokens, cs = before ++ after ∧ Munches after pos before tokens ∧
      (after = [] ∧ scan pos cs = .ok (tokens ++ [⟨.eof, ⟨pos + before.length, 0⟩⟩]) ∨
        ∃ c rest, after = c :: rest ∧ isBlank c = false ∧ munch? c rest = none ∧
          scan pos cs = .error ⟨.strayCharacter c, ⟨pos + before.length, c.utf8Size⟩⟩) := by
  fun_induction scan pos cs with
  | case1 pos => exact ⟨[], [], [], rfl, .done pos, .inl ⟨rfl, rfl⟩⟩
  | case2 pos c rest blank ih =>
    obtain ⟨before, after, tokens, rfl, munches, ends⟩ := ih
    refine ⟨c :: before, after, tokens, rfl, .blank blank munches, ?_⟩
    rwa [List.length_cons, Nat.add_comm before.length, ← Nat.add_assoc]
  | case3 pos c rest visible stray =>
    exact ⟨[], c :: rest, [], rfl, .done pos, .inr ⟨c, rest, rfl, by simpa using visible, stray, rfl⟩⟩
  | case4 pos c rest visible kind more munched tokens later ih =>
    obtain ⟨lexeme, rest, rfl, rfl, cuts⟩ := exists_cuts munched
    rw [List.drop_left] at ih later
    rw [later] at ih
    obtain ⟨before, after, tokens, rfl, munches, ⟨rfl, read⟩ | ⟨d, rest, -, -, -, read⟩⟩ := ih
    · cases read
      refine ⟨c :: (lexeme ++ before), [], _ :: tokens, by simp,
        .token (by simpa using visible) cuts munches, .inl ⟨rfl, ?_⟩⟩
      rw [add_length_token]
      rfl
    · cases read
  | case5 pos c rest visible kind more munched error later ih =>
    obtain ⟨lexeme, rest, rfl, rfl, cuts⟩ := exists_cuts munched
    rw [List.drop_left] at ih later
    rw [later] at ih
    obtain ⟨before, after, tokens, rfl, munches, ⟨rfl, read⟩ | ⟨d, rest, rfl, stray, none, read⟩⟩ :=
      ih
    · cases read
    · cases read
      refine ⟨c :: (lexeme ++ before), d :: rest, _ :: tokens, by simp,
        .token (by simpa using visible) cuts munches, .inr ⟨d, rest, rfl, stray, none, ?_⟩⟩
      rw [add_length_token]

namespace Munches

variable {pos : Nat} {ts : List Token}

/-- What is read of a text with something behind it is read of the text alone. -/
theorem lexes (munches : Munches rest pos cs ts) :
    Lexes pos cs (ts ++ [⟨.eof, ⟨pos + cs.length, 0⟩⟩]) := by
  induction munches with
  | done pos => exact .done pos
  | @blank pos c cs ts blank _ ih =>
    apply Lexes.blank blank
    rwa [List.length_cons, Nat.add_comm cs.length, ← Nat.add_assoc]
  | @token pos c lexeme cs kind ts visible cuts _ ih =>
    rw [add_length_token, List.cons_append]
    exact .token visible (cuts.of_isPrefix (List.prefix_append cs rest)) ih

theorem le_offset (munches : Munches rest pos cs ts) : ∀ t ∈ ts, pos ≤ t.span.offset := by
  induction munches with
  | done pos => simp
  | blank _ _ ih =>
    intro t member
    have := ih t member
    omega
  | token _ _ _ ih =>
    rw [List.forall_mem_cons]
    refine ⟨le_refl _, fun t member => ?_⟩
    have := ih t member
    omega

/-- The tokens come one after the other, and none is empty. -/
theorem ordered (munches : Munches rest pos cs ts) :
    (∀ t ∈ ts, 0 < t.span.length) ∧ ts.Pairwise fun t u => t.span.stop ≤ u.span.offset := by
  induction munches with
  | done pos => simp
  | blank _ _ ih => exact ih
  | token _ _ later ih =>
    rw [List.forall_mem_cons, List.pairwise_cons]
    exact ⟨⟨Nat.succ_pos _, ih.1⟩, later.le_offset, ih.2⟩

/-- Each token is the longest match at its place. -/
theorem longest (munches : Munches rest pos cs ts) {t : Token} (member : t ∈ ts) :
    ∃ pre post, cs = pre ++ t.kind.text.toList ++ post ∧
      t.span = ⟨pos + pre.length, t.kind.text.toList.length⟩ ∧
      t.kind.Longest (t.kind.text.toList ++ post ++ rest) := by
  induction munches with
  | done pos => cases member
  | @blank pos c cs ts _ _ ih =>
    obtain ⟨pre, post, rfl, span, longest⟩ := ih member
    refine ⟨c :: pre, post, rfl, ?_, longest⟩
    rw [span, List.length_cons, Span.mk.injEq]
    omega
  | @token pos c lexeme cs kind ts _ cuts _ ih =>
    rcases List.mem_cons.mp member with rfl | member
    · refine ⟨[], cs, ?_, ?_, ?_⟩
      · rw [cuts.text, List.nil_append, List.cons_append]
      · rw [cuts.text]
        rfl
      · rw [cuts.text, List.append_assoc, List.cons_append]
        exact cuts.longest
    · obtain ⟨pre, post, rfl, span, longest⟩ := ih member
      refine ⟨c :: (lexeme ++ pre), post, by simp, ?_, longest⟩
      rw [span, List.length_cons, List.length_append, Span.mk.injEq]
      omega

/-- A character that is no blank lies within a token. -/
theorem covered (munches : Munches rest pos cs ts) {pre post : List Char}
    (split : cs = pre ++ c :: post) (visible : isBlank c = false) :
    ∃ t ∈ ts, t.span.offset ≤ pos + pre.length ∧ pos + pre.length < t.span.stop := by
  induction munches generalizing pre with
  | done pos => simp at split
  | @blank pos d cs ts blank _ ih =>
    cases pre with
    | nil =>
      cases split
      rw [visible] at blank
      cases blank
    | cons d pre =>
      cases split
      obtain ⟨t, member, first, last⟩ := ih rfl
      rw [List.length_cons]
      exact ⟨t, member, by omega, by omega⟩
  | @token pos d lexeme cs kind ts _ _ _ ih =>
    by_cases inside : pre.length < lexeme.length + 1
    · refine ⟨_, List.mem_cons_self, ?_⟩
      simp only [Span.stop]
      omega
    · have behind : cs = pre.drop (lexeme.length + 1) ++ c :: post := by
        have dropped := congrArg (List.drop (lexeme.length + 1)) split
        rwa [← List.cons_append, List.drop_left' (List.length_cons), List.drop_append_of_le_length
          (by omega)] at dropped
      obtain ⟨t, member, first, last⟩ := ih behind
      rw [List.length_drop] at first last
      exact ⟨t, List.mem_cons_of_mem _ member, by omega, by omega⟩

end Munches

/-! ## Texts -/

/-- How tokens lie in the text `before`, whose first byte is byte `base` and behind which comes
    `after`: none is empty, they come one after the other, each is the longest match of the text
    at its span, and what lies in none of them is blank. -/
structure Tiles (base : Nat) (before after : String) (tokens : List Token) : Prop where
  nonempty : ∀ t ∈ tokens, 0 < t.span.length
  ordered : tokens.Pairwise fun t u => t.span.stop ≤ u.span.offset
  longest : ∀ t ∈ tokens, ∃ pre post, before = pre ++ t.kind.text ++ post ∧
    t.span = ⟨base + pre.utf8ByteSize, t.kind.text.utf8ByteSize⟩ ∧
    t.kind.Longest (t.kind.text ++ post ++ after).toList
  gaps : ∀ pre c post, before = pre ++ String.singleton c ++ post →
    (∀ t ∈ tokens, base + pre.utf8ByteSize < t.span.offset ∨
      t.span.stop ≤ base + pre.utf8ByteSize) → c ∈ [' ', '\t', '\r', '\n', '\x0c']

theorem mem_blanks_iff : c ∈ [' ', '\t', '\r', '\n', '\x0c'] ↔ isBlank c := by
  simp [isBlank, or_assoc]

theorem utf8ByteSize_of_forall {text : String} (single : ∀ c ∈ text.toList, c.utf8Size = 1) :
    text.utf8ByteSize = text.toList.length := by
  have size := utf8ByteSize_ofList_of_forall single
  rwa [String.ofList_toList] at size

/-- What is read of a text, in terms of its bytes. -/
theorem Munches.tiles {base : Nat} {before after : String} {tokens : List Token}
    (munches : Munches after.toList base before.toList tokens) :
    Tiles base before after tokens := by
  have single := munches.lexes.utf8Size
  refine ⟨munches.ordered.1, munches.ordered.2, ?_, ?_⟩
  · intro t member
    obtain ⟨pre, post, split, span, longest⟩ := munches.longest member
    rw [split, List.forall_mem_append, List.forall_mem_append] at single
    refine ⟨String.ofList pre, String.ofList post, ?_, ?_, ?_⟩
    · apply String.toList_inj.mp
      simp [split]
    · rw [utf8ByteSize_ofList_of_forall single.1.1, utf8ByteSize_of_forall single.1.2]
      exact span
    · simpa using longest
  · intro pre c post split outside
    have chars : before.toList = pre.toList ++ c :: post.toList := by simp [split]
    rw [chars, List.forall_mem_append] at single
    rw [utf8ByteSize_of_forall single.1] at outside
    rw [mem_blanks_iff]
    by_contra visible
    obtain ⟨t, member, first, last⟩ := munches.covered chars (by simpa using visible)
    have := outside t member
    omega

/-- Reading a text is longest match, and loses nothing but blanks. Where it fails, it has read the
    text up to the first place that is not blank and where no pattern matches. -/
theorem ofSource_is_longest_match (source : String) (base : Nat) :
    (∀ ts, ofSource source base = .ok ts →
      ∃ tokens, ts = tokens ++ [⟨.eof, ⟨base + source.utf8ByteSize, 0⟩⟩] ∧
        Tiles base source "" tokens) ∧
    ∀ e, ofSource source base = .error e →
      ∃ before c after tokens, source = before ++ String.singleton c ++ after ∧
        e = ⟨.strayCharacter c, ⟨base + before.utf8ByteSize, c.utf8Size⟩⟩ ∧
        c ∉ [' ', '\t', '\r', '\n', '\x0c'] ∧
        (∀ kind : TokenKind, ¬ kind.MatchesAt (c :: after.toList)) ∧
        Tiles base before (String.singleton c ++ after) tokens ∧
        ofSource before base = .ok (tokens ++ [⟨.eof, ⟨base + before.utf8ByteSize, 0⟩⟩]) := by
  obtain ⟨before, after, tokens, split, munches, read⟩ := scan_munches base source.toList
  have size := utf8ByteSize_ofList_of_forall munches.lexes.utf8Size
  constructor
  · intro ts accepted
    rcases read with ⟨rfl, scanned⟩ | ⟨c, rest, rfl, -, -, scanned⟩
    · rw [List.append_nil] at split
      subst split
      rw [String.ofList_toList] at size
      have same := accepted.symm.trans scanned
      cases same
      refine ⟨tokens, by rw [size], Munches.tiles munches⟩
    · cases accepted.symm.trans scanned
  · intro e refused
    rcases read with ⟨rfl, scanned⟩ | ⟨c, rest, rfl, visible, stray, scanned⟩
    · cases refused.symm.trans scanned
    · cases refused.symm.trans scanned
      refine ⟨String.ofList before, c, String.ofList rest, tokens, ?_, ?_, ?_, ?_, ?_, ?_⟩
      · apply String.toList_inj.mp
        simp [split]
      · rw [size]
      · rw [mem_blanks_iff, visible]
        simp
      · rw [String.toList_ofList]
        exact not_matchesAt_of_munch stray
      · apply Munches.tiles
        simpa using munches
      · rw [size, ofSource, String.toList_ofList, scan_eq_ok_iff]
        exact munches.lexes

/-- A keyword is not read where a longer word begins with it. The longest match at an exclamation
    mark may leave an equals sign behind that is none. -/
theorem ofSource_is_longest_match_leftover :
    (∃ tokens, ofSource "call caller<=1" 10 = .ok (tokens ++ [⟨.eof, ⟨24, 0⟩⟩]) ∧
      tokens.map (·.kind) = [.call, .ident "caller", .op "<=", .int "1"] ∧
      Tiles 10 "call caller<=1" "" tokens) ∧
    ∃ before after tokens, "p !==> q" = before ++ "=" ++ after ∧
      ofSource "p !==> q" 5 = .error ⟨.strayCharacter '=', ⟨5 + before.utf8ByteSize, 1⟩⟩ ∧
      Tiles 5 before ("=" ++ after) tokens := by
  constructor
  · have read : ofSource "call caller<=1" 10 = .ok [⟨.call, ⟨10, 4⟩⟩, ⟨.ident "caller", ⟨15, 6⟩⟩,
        ⟨.op "<=", ⟨21, 2⟩⟩, ⟨.int "1", ⟨23, 1⟩⟩, ⟨.eof, ⟨24, 0⟩⟩] := by cbv
    obtain ⟨tokens, same, tiles⟩ := (ofSource_is_longest_match "call caller<=1" 10).1 _ read
    have size : 10 + "call caller<=1".utf8ByteSize = 24 := by decide +kernel
    rw [size] at same
    refine ⟨tokens, by rw [read, same], ?_, tiles⟩
    have kinds := congrArg (fun ts => ts.dropLast.map (·.kind)) same
    simpa using kinds.symm
  · have read : ofSource "p !==> q" 5 = .error ⟨.strayCharacter '=', ⟨9, 1⟩⟩ := by cbv
    obtain ⟨before, c, after, tokens, split, same, -, -, tiles, -⟩ :=
      (ofSource_is_longest_match "p !==> q" 5).2 _ read
    injection same with fault span
    cases fault
    refine ⟨before, after, tokens, split, ?_, tiles⟩
    rw [read, span]
    rfl

end Token

end InvariantInference
