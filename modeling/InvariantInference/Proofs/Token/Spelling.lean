import Mathlib
import InvariantInference.Token.Lexer

/-!
# Tokens and their spelling

Which kinds of token a text can hold, and which tokens are read from a text that
was put together from the spellings of some tokens. A spelling is read back as
the token that it was made of wherever a blank, a parenthesis or a comma comes
after it, whatever else comes later.
-/

namespace InvariantInference

namespace TokenKind

open Token (isSymbol isWordStart isWordChar)

/-- The operators of two characters. -/
def longOperators : List String := ["!=", "<=", ">=", ":="]

/-- The kinds of token that are read from texts. -/
def Lexical : TokenKind → Prop
  | op text => text ∈ longOperators ∨ ∃ c, isSymbol c ∧ text = c.toString
  | int text => text.toList ≠ [] ∧ ∀ c ∈ text.toList, c.isDigit
  | ident name => (∃ c cs, name.toList = c :: cs ∧ isWordStart c ∧ ∀ d ∈ cs, isWordChar d) ∧
      ofWord name = ident name
  | eof => False
  | _ => True

end TokenKind

namespace Token

/-! ## Classes of characters -/

/-- A character that starts a word is no digit. -/
theorem isDigit_of_isWordStart {c : Char} (word : isWordStart c) : c.isDigit = false := by
  simp only [isWordStart, Char.isAlpha, Char.isUpper, Char.isLower, Bool.or_eq_true,
    Bool.and_eq_true, decide_eq_true_eq, ge_iff_le, UInt32.le_iff_toNat_le] at word
  simp only [Char.isDigit, Bool.and_eq_false_iff, decide_eq_false_iff_not, ge_iff_le,
    UInt32.le_iff_toNat_le]
  have nine : '9'.val.toNat = 57 := rfl
  have upperA : 'A'.val.toNat = 65 := rfl
  have lowerA : 'a'.val.toNat = 97 := rfl
  rcases word with (upper | lower) | rfl
  · omega
  · omega
  · exact .inr (by decide)

/-- A character of a class is none of those outside the class. -/
theorem notMem_of_class {p : Char → Bool} {c : Char} {others : List Char} (inside : p c)
    (outside : others.all (fun d => !p d)) : c ∉ others := by
  intro member
  have excluded := List.all_eq_true.mp outside c member
  simp [inside] at excluded

/-- A character of a class without operators is no operator. -/
theorem isSymbol_of_class {p : Char → Bool} {c : Char} (inside : p c)
    (outside : ['<', '>', '+', '-', '*', '/', '%', '.', ',', '[', ']'].all (fun d => !p d)) :
    isSymbol c = false := by
  rw [isSymbol, List.contains_eq_mem, decide_eq_false_iff_not]
  exact notMem_of_class inside outside

/-- A character of a class without blanks is no blank. -/
theorem isBlank_of_class {p : Char → Bool} {c : Char} (inside : p c)
    (outside : [' ', '\t', '\r', '\n', '\x0c'].all (fun d => !p d)) : isBlank c = false := by
  have other := notMem_of_class inside outside
  simp only [List.mem_cons, List.not_mem_nil, or_false, not_or] at other
  simp [isBlank, other]

/-- The characters that may come after every spelling. -/
def isDelimiter (c : Char) : Bool := c = ' ' || c = '(' || c = ')' || c = ','

/-- A text before which every spelling ends. -/
def Ends (cs : List Char) : Prop := ∀ c ∈ cs.head?, isDelimiter c

/-- What comes at the head of a text before which every spelling ends. -/
theorem Ends.cases {cs : List Char} (ends : Ends cs) :
    cs = [] ∨
      ∃ rest, cs = ' ' :: rest ∨ cs = '(' :: rest ∨ cs = ')' :: rest ∨ cs = ',' :: rest := by
  cases cs with
  | nil => exact .inl rfl
  | cons c rest =>
    have delimiter : isDelimiter c := ends c (by simp)
    simp only [isDelimiter, Bool.or_eq_true, decide_eq_true_eq] at delimiter
    rcases delimiter with ((rfl | rfl) | rfl) | rfl <;> simp

/-- A run of characters ends before a delimiter that is not one of them. -/
theorem takeWhile_append_of_ends {p : Char → Bool} {cs rest : List Char} (all : ∀ c ∈ cs, p c)
    (ends : Ends rest) (stops : p ' ' = false ∧ p '(' = false ∧ p ')' = false ∧ p ',' = false) :
    (cs ++ rest).takeWhile p = cs := by
  rw [List.takeWhile_append_of_pos all]
  have nothing : rest.takeWhile p = [] := by
    rcases ends.cases with rfl | ⟨tail, rfl | rfl | rfl | rfl⟩ <;> simp [stops]
  rw [nothing, List.append_nil]

/-! ## Reading one token -/

/-- Words, numbers and symbols are read where no other rule applies. -/
theorem munch?_of_ordinary {c : Char} {cs : List Char}
    (ordinary : c ∉ ['=', '|', '&', '!', '<', '>', ':', '(', ')']) :
    munch? c cs =
      if isSymbol c then some (.op c.toString, 0)
      else if c.isDigit then
        some (.int (String.ofList (c :: cs.takeWhile Char.isDigit)),
          (cs.takeWhile Char.isDigit).length)
      else if isWordStart c then
        some (.ofWord (String.ofList (c :: cs.takeWhile isWordChar)),
          (cs.takeWhile isWordChar).length)
      else none := by
  unfold munch?
  split
  case h_12 => rfl
  all_goals simp at ordinary

/-- A word is read whole. -/
theorem munch?_word {c : Char} {cs rest : List Char} (start : isWordStart c)
    (word : ∀ d ∈ cs, isWordChar d) (ends : Ends rest) :
    munch? c (cs ++ rest) = some (.ofWord (String.ofList (c :: cs)), cs.length) := by
  have whole := takeWhile_append_of_ends word ends (by decide)
  rw [munch?_of_ordinary (notMem_of_class start (by decide)), isSymbol_of_class start (by decide),
    isDigit_of_isWordStart start, start, whole]
  rfl

/-- A number is read whole. -/
theorem munch?_number {c : Char} {cs rest : List Char} (digit : c.isDigit)
    (digits : ∀ d ∈ cs, d.isDigit) (ends : Ends rest) :
    munch? c (cs ++ rest) = some (.int (String.ofList (c :: cs)), cs.length) := by
  have whole := takeWhile_append_of_ends digits ends (by decide)
  rw [munch?_of_ordinary (notMem_of_class digit (by decide)), isSymbol_of_class digit (by decide),
    digit, whole]
  rfl

/-- An operator of one character is read alone. -/
theorem munch?_symbol {c : Char} {rest : List Char} (symbol : isSymbol c) (ends : Ends rest) :
    munch? c rest = some (.op c.toString, 0) := by
  simp only [isSymbol, List.contains_eq_mem, decide_eq_true_eq, List.mem_cons, List.not_mem_nil,
    or_false] at symbol
  rcases symbol with rfl | rfl | rfl | rfl | rfl | rfl | rfl | rfl | rfl | rfl | rfl <;>
    rcases ends.cases with rfl | ⟨tail, rfl | rfl | rfl | rfl⟩ <;> rfl

/-- The characters of a spelling: the first, which is no blank, and those after
    it, with which it is read as the token. -/
def ReadAs (kind : TokenKind) (rest : List Char) : Prop :=
  ∃ c cs, kind.text.toList = c :: cs ∧ isBlank c = false ∧
    munch? c (cs ++ rest) = some (kind, cs.length)

/-- A spelling is read back wherever spellings end. -/
theorem readAs_of_ends {kind : TokenKind} {rest : List Char} (lexical : kind.Lexical)
    (ends : Ends rest) : ReadAs kind rest := by
  have word : ∀ (c : Char) (cs : List Char), kind.text.toList = c :: cs → isWordStart c →
      cs.all isWordChar → TokenKind.ofWord (String.ofList (c :: cs)) = kind →
      ReadAs kind rest := by
    intro c cs spelled start chars same
    refine ⟨c, cs, spelled, isBlank_of_class start (by decide), ?_⟩
    rw [munch?_word start (List.all_eq_true.mp chars) ends, same]
  cases kind with
  | implies => exact ⟨'=', ['=', '>'], rfl, rfl, rfl⟩
  | orOr => exact ⟨'|', ['|'], rfl, rfl, rfl⟩
  | andAnd => exact ⟨'&', ['&'], rfl, rfl, rfl⟩
  | eqEq =>
    refine ⟨'=', ['='], rfl, rfl, ?_⟩
    rcases ends.cases with rfl | ⟨tail, rfl | rfl | rfl | rfl⟩ <;> rfl
  | bang =>
    refine ⟨'!', [], rfl, rfl, ?_⟩
    rcases ends.cases with rfl | ⟨tail, rfl | rfl | rfl | rfl⟩ <;> rfl
  | lparen => exact ⟨'(', [], rfl, rfl, rfl⟩
  | rparen => exact ⟨')', [], rfl, rfl, rfl⟩
  | litTrue => exact word 't' ['r', 'u', 'e'] rfl rfl rfl rfl
  | litFalse => exact word 'f' ['a', 'l', 's', 'e'] rfl rfl rfl rfl
  | call => exact word 'c' ['a', 'l', 'l'] rfl rfl rfl rfl
  | assert => exact word 'a' ['s', 's', 'e', 'r', 't'] rfl rfl rfl rfl
  | assume => exact word 'a' ['s', 's', 'u', 'm', 'e'] rfl rfl rfl rfl
  | free => exact word 'f' ['r', 'e', 'e'] rfl rfl rfl rfl
  | op text =>
    rcases lexical with long | ⟨c, symbol, rfl⟩
    · simp only [TokenKind.longOperators, List.mem_cons, List.not_mem_nil, or_false] at long
      rcases long with rfl | rfl | rfl | rfl
      · exact ⟨'!', ['='], rfl, rfl, rfl⟩
      · exact ⟨'<', ['='], rfl, rfl, rfl⟩
      · exact ⟨'>', ['='], rfl, rfl, rfl⟩
      · exact ⟨':', ['='], rfl, rfl, rfl⟩
    · exact ⟨c, [], by simp [TokenKind.text, Char.toString],
        isBlank_of_class symbol (by decide), munch?_symbol symbol ends⟩
  | int text =>
    obtain ⟨nonempty, digits⟩ := lexical
    obtain ⟨c, cs, spelled⟩ := List.exists_cons_of_ne_nil nonempty
    rw [spelled] at digits
    have same : String.ofList (c :: cs) = text := by rw [← spelled, String.ofList_toList]
    have digit : c.isDigit := digits c (by simp)
    refine ⟨c, cs, spelled, isBlank_of_class digit (by decide), ?_⟩
    rw [munch?_number digit (fun d member => digits d (by simp [member])) ends, same]
  | ident name =>
    obtain ⟨⟨c, cs, spelled, start, chars⟩, same⟩ := lexical
    refine word c cs spelled start (List.all_eq_true.mpr chars) ?_
    rw [← spelled, String.ofList_toList, same]
  | eof => exact lexical.elim

/-- An opening parenthesis is read back everywhere. -/
theorem readAs_lparen (rest : List Char) : ReadAs .lparen rest := ⟨'(', [], rfl, rfl, rfl⟩

/-- A negation is read back unless an equality sign comes after it. -/
theorem readAs_bang {rest : List Char} (other : ∀ c ∈ rest.head?, c ≠ '=') :
    ReadAs .bang rest := by
  refine ⟨'!', [], rfl, rfl, ?_⟩
  cases rest with
  | nil => rfl
  | cons c rest =>
    have differs : c ≠ '=' := other c (by simp)
    simp only [List.nil_append, List.length_nil]
    unfold munch?
    split <;> simp_all

/-- A word is a keyword or an identifier that is none. -/
theorem lexical_ofWord {c : Char} {cs : List Char} (start : isWordStart c)
    (word : ∀ d ∈ cs, isWordChar d) : (TokenKind.ofWord (String.ofList (c :: cs))).Lexical := by
  generalize spelled : String.ofList (c :: cs) = name
  have chars : name.toList = c :: cs := by rw [← spelled, String.toList_ofList]
  unfold TokenKind.ofWord
  split
  case h_7 other =>
    refine ⟨⟨c, cs, chars, start, word⟩, ?_⟩
    unfold TokenKind.ofWord
    split <;> simp_all
  all_goals trivial

/-- The tokens that are read are those of the kinds that can be read. -/
theorem munch?_lexical {c : Char} {cs : List Char} {kind : TokenKind} {more : Nat}
    (munched : munch? c cs = some (kind, more)) : kind.Lexical := by
  unfold munch? at munched
  split at munched
  case h_12 =>
    split at munched
    · rename_i symbol
      simp only [Option.some.injEq, Prod.mk.injEq] at munched
      obtain ⟨rfl, -⟩ := munched
      exact .inr ⟨c, symbol, rfl⟩
    · split at munched
      · rename_i digit
        simp only [Option.some.injEq, Prod.mk.injEq] at munched
        obtain ⟨rfl, -⟩ := munched
        refine ⟨by simp, ?_⟩
        rw [String.toList_ofList, List.forall_mem_cons]
        exact ⟨digit, fun d member => List.mem_takeWhile_imp member⟩
      · split at munched
        · rename_i start
          simp only [Option.some.injEq, Prod.mk.injEq] at munched
          obtain ⟨rfl, -⟩ := munched
          exact lexical_ofWord start (fun d member => List.mem_takeWhile_imp member)
        · simp at munched
  all_goals
    simp only [Option.some.injEq, Prod.mk.injEq] at munched
    obtain ⟨rfl, -⟩ := munched
    simp [TokenKind.Lexical, TokenKind.longOperators]

/-- All tokens of a text but the end marker are of kinds that can be read. -/
theorem scan_lexical {pos : Nat} {cs : List Char} {ts : List Token}
    (scanned : scan pos cs = .ok ts) : ∀ t ∈ ts, t.kind = .eof ∨ t.kind.Lexical := by
  fun_induction scan pos cs generalizing ts with
  | case1 pos =>
    simp only [Except.ok.injEq] at scanned
    subst scanned
    simp
  | case2 pos c rest blank ih => exact ih scanned
  | case3 pos c rest visible stray => simp at scanned
  | case4 pos c rest visible kind more munched tokens later ih =>
    simp only [Except.ok.injEq] at scanned
    subst scanned
    rw [List.forall_mem_cons]
    exact ⟨.inr (munch?_lexical munched), ih later⟩
  | case5 pos c rest visible kind more munched error later ih => simp at scanned

/-! ## Reading a text -/

/-- The tokens of a text are of these kinds, the end marker left out. -/
def Scans (cs : List Char) (kinds : List TokenKind) : Prop :=
  ∀ pos, ∃ ts, scan pos cs = .ok ts ∧ ts.map (·.kind) = kinds ++ [.eof]

theorem scans_nil : Scans [] [] := fun pos => ⟨[⟨.eof, ⟨pos, 0⟩⟩], by simp [scan], rfl⟩

/-- A space is skipped. -/
theorem Scans.space {cs : List Char} {kinds : List TokenKind} (scans : Scans cs kinds) :
    Scans (' ' :: cs) kinds := by
  intro pos
  obtain ⟨ts, scanned, same⟩ := scans (pos + 1)
  refine ⟨ts, ?_, same⟩
  rw [scan]
  exact scanned

/-- A spelling that is read back comes before the tokens of the rest. -/
theorem Scans.spelling {kind : TokenKind} {cs : List Char} {kinds : List TokenKind}
    (scans : Scans cs kinds) (read : ReadAs kind cs) :
    Scans (kind.text.toList ++ cs) (kind :: kinds) := by
  intro pos
  obtain ⟨c, more, spelled, visible, munched⟩ := read
  obtain ⟨ts, scanned, same⟩ := scans (pos + (more.length + 1))
  refine ⟨⟨kind, ⟨pos, more.length + 1⟩⟩ :: ts, ?_, by simp [same]⟩
  rw [spelled, List.cons_append, scan]
  simp [visible, munched, scanned]

end Token

end InvariantInference
