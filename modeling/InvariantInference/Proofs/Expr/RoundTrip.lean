import Mathlib
import InvariantInference.Clause
import InvariantInference.Proofs.Except
import InvariantInference.Proofs.Expr.Reading
import InvariantInference.Proofs.Token.Spelling

/-!
# Texts of expressions

An expression that was read from a text is readable: its names and atoms are
made of words that can be read. A readable expression is read back from its own
text, up to spans, so no two different expressions have the same text. This is
why a fact base can keep texts in place of conditions.
-/

namespace InvariantInference

namespace Command

/-- The condition that a command asserts or assumes. -/
def condition? : Command → Option Expr
  | call _ _ => none
  | assert _ condition => some condition
  | assume _ condition => some condition

end Command

namespace Expr

open Token (Scans Ends ReadAs)

/-! ## Expressions that were read -/

/-- An expression that was read from a text: by itself, as the condition of a
    contract, or as the condition of a command. -/
inductive Parsed : Expr → Prop
  | expr {source : String} {base : Nat} {e : Expr} (read : parse source base = .ok e) : Parsed e
  | contract {source : String} {base : Nat} {c : Contract}
      (read : Contract.parse source base = .ok c) : Parsed c.condition
  | command {source : String} {base : Nat} {c : Command} {e : Expr}
      (read : Command.parse source base = .ok c) (condition : c.condition? = some e) : Parsed e

theorem parsed_of_texts (texts : List String) {es : List Expr}
    (read : texts.map (parse · 0) = es.map .ok) : ∀ e ∈ es, e.Parsed := by
  intro e member
  have result : .ok e ∈ es.map (Except.ok (ε := SourceError)) := List.mem_map_of_mem member
  rw [← read] at result
  obtain ⟨text, -, parsed⟩ := List.mem_map.mp result
  exact .expr parsed

/-- An expression whose names and atoms are made of words that can be read. -/
def Readable : Expr → Prop
  | lit _ _ => True
  | ident _ name => (TokenKind.ident name.value).Lexical
  | atom _ text => ∃ ks, IsAtom ks ∧ (∀ k ∈ ks, k.Lexical) ∧ text = canonicalText (ks.map (·.text))
  | not _ operand => operand.Readable
  | binary _ _ left right => left.Readable ∧ right.Readable

/-- Spans do not matter for readability. -/
theorem readable_erase {e : Expr} : e.erase.Readable ↔ e.Readable := by
  induction e with
  | not _ _ ih => exact ih
  | binary _ _ _ _ ihLeft ihRight => exact and_congr ihLeft ihRight
  | _ => exact Iff.rfl

/-- Tokens with matching parentheses hold no end marker. -/
theorem Balanced.eof_notMem {ks : List TokenKind} (balanced : Balanced ks) : .eof ∉ ks := by
  induction balanced with
  | nil => simp
  | word plain _ ih => simp [plain.2.2.symm, ih]
  | group _ _ ihInside ihRest => simp [ihInside, ihRest]

/-- A run holds no end marker. -/
theorem AtomRun.eof_notMem {ks : List TokenKind} (run : AtomRun ks) : .eof ∉ ks := by
  induction run with
  | nil => simp
  | @word k ks atomic _ ih =>
    have other : TokenKind.eof ≠ k := by
      rintro rfl
      cases atomic
    simp [other, ih]
  | application inside _ ih => simp [inside.eof_notMem, ih]

/-- A phrase holds no end marker. -/
theorem Phrase.eof_notMem {rank : Nat} {ks : List TokenKind} {e : Expr}
    (phrase : Phrase rank ks e) : .eof ∉ ks := by
  induction phrase with
  | looser _ ih => exact ih
  | binary op _ _ ihLeft ihRight => cases op <;> simp [ihLeft, ihRight, BinOp.kind]
  | not _ ih => simp [ih]
  | lit value => cases value <;> simp [literalKind]
  | group _ ih => simp [ih]
  | name name => simp
  | atom isAtom => exact isAtom.run.eof_notMem

/-- A phrase of words that can be read spells a readable expression. -/
theorem Phrase.readable {rank : Nat} {ks : List TokenKind} {e : Expr} (phrase : Phrase rank ks e)
    (lexical : ∀ k ∈ ks, k.Lexical) : e.Readable := by
  induction phrase with
  | looser _ ih => exact ih lexical
  | binary op _ _ ihLeft ihRight =>
    exact ⟨ihLeft fun k member => lexical k (by simp [member]),
      ihRight fun k member => lexical k (by simp [member])⟩
  | not _ ih => exact ih fun k member => lexical k (by simp [member])
  | lit value => trivial
  | group _ ih => exact ih fun k member => lexical k (by simp [member])
  | name name => exact lexical (.ident name) (by simp)
  | @atom ks isAtom => exact ⟨ks, isAtom, lexical, rfl⟩

/-- What is read from tokens of a text is readable. -/
theorem readable_of_parseNext {source : String} {base : Nat} {ts body rest : List Token}
    {last : Span} {e : Expr} (scanned : Token.ofSource source base = .ok ts)
    (part : ∀ t ∈ body, t ∈ ts) (read : parseNext last body = .ok (e, rest)) : e.Readable := by
  obtain ⟨taken, rfl, phrase⟩ := parseNext_phrase read
  refine readable_erase.mp (phrase.readable ?_)
  intro k member
  obtain ⟨t, isTaken, rfl⟩ := List.mem_map.mp member
  rcases Token.scan_lexical scanned t (part t (by simp [isTaken])) with ends | lexical
  · rw [ends] at member
    exact absurd member phrase.eof_notMem
  · exact lexical

/-- Every expression that was read from a text is readable. -/
theorem Parsed.readable {e : Expr} (parsed : Parsed e) : e.Readable := by
  cases parsed with
  | expr read =>
    simp only [parse, ofTokens, bind_eq_ok_iff] at read
    obtain ⟨ts, scanned, ⟨e', rest⟩, read, _, -, same⟩ := read
    cases same
    exact readable_of_parseNext scanned (fun _ => id) read
  | contract read =>
    simp only [Contract.parse, bind_eq_ok_iff] at read
    obtain ⟨ts, scanned, read⟩ := read
    unfold Contract.ofTokens at read
    split at read <;> simp only [bind_eq_ok_iff] at read <;>
      obtain ⟨⟨e', rest⟩, read, _, -, same⟩ := read <;> cases same
    · exact readable_of_parseNext scanned (fun t => List.mem_cons_of_mem _) read
    · exact readable_of_parseNext scanned (fun _ => id) read
  | command read condition =>
    simp only [Command.parse, bind_eq_ok_iff] at read
    obtain ⟨ts, scanned, read⟩ := read
    unfold Command.ofTokens at read
    split at read
    · cases read
    · split at read
      · cases read
      · simp only [bind_eq_ok_iff] at read
        obtain ⟨_, -, same⟩ := read
        cases same
        cases condition
      · cases read
    · simp only [bind_eq_ok_iff] at read
      obtain ⟨⟨e', rest⟩, read, _, -, same⟩ := read
      cases same
      cases condition
      exact readable_of_parseNext scanned (fun t => List.mem_cons_of_mem _) read
    · simp only [bind_eq_ok_iff] at read
      obtain ⟨⟨e', rest⟩, read, _, -, same⟩ := read
      cases same
      cases condition
      exact readable_of_parseNext scanned (fun t => List.mem_cons_of_mem _) read
    · cases read

/-! ## Spelling an expression -/

/-- The text is read as tokens of these kinds wherever spellings end. -/
def Spelled (text : String) (ks : List TokenKind) : Prop :=
  ∀ cs kinds, Ends cs → Scans cs kinds → Scans (text.toList ++ cs) (ks ++ kinds)

/-- A word that can be read is spelled by its text. -/
theorem spelled_text {k : TokenKind} (lexical : k.Lexical) : Spelled k.text [k] :=
  fun _ _ ends scans => scans.spelling (Token.readAs_of_ends lexical ends)

/-- A closing parenthesis ends every spelling. -/
theorem ends_rparen (cs : List Char) : Ends (')' :: cs) := by simp [Ends, Token.isDelimiter]

/-- A space ends every spelling. -/
theorem ends_space (cs : List Char) : Ends (' ' :: cs) := by simp [Ends, Token.isDelimiter]

/-- What is spelled can be put in parentheses. -/
theorem Spelled.parenthesize {text : String} {ks : List TokenKind} (spelled : Spelled text ks) :
    Spelled (parenthesize text) (.lparen :: (ks ++ [.rparen])) := by
  intro cs kinds ends scans
  have closed : Scans (')' :: cs) (.rparen :: kinds) :=
    spelled_text (k := .rparen) trivial cs kinds ends scans
  have inside := spelled _ _ (ends_rparen cs) closed
  have opened := inside.spelling (Token.readAs_lparen _)
  simpa [Expr.parenthesize, TokenKind.text] using opened

/-- Two spellings with a word between them. -/
theorem Spelled.join {left right : String} {ks ks' : List TokenKind} {k : TokenKind}
    (first : Spelled left ks) (lexical : k.Lexical) (second : Spelled right ks') :
    Spelled (left ++ " " ++ k.text ++ " " ++ right) (ks ++ k :: ks') := by
  intro cs kinds ends scans
  have later := (second cs kinds ends scans).space
  have joined := spelled_text lexical _ _ (ends_space _) later
  have whole := first _ _ (ends_space _) joined.space
  simpa using whole

theorem canonicalText_cons (word : String) (words : List String) :
    ∃ more, canonicalText (word :: words) = word ++ more := by
  cases words with
  | nil => exact ⟨"", by simp [canonicalText]⟩
  | cons next rest =>
    refine ⟨glue word next ++ canonicalText (next :: rest), ?_⟩
    simp [canonicalText, String.append_assoc]

/-- Only an opening parenthesis is spelled as one. -/
theorem eq_lparen_of_text {k : TokenKind} (lexical : k.Lexical) (text : k.text = "(") :
    k = .lparen := by
  have read : ReadAs k [] := Token.readAs_of_ends lexical (by simp [Ends])
  obtain ⟨c, cs, spelled, -, munched⟩ := read
  rw [text] at spelled
  cases spelled
  cases munched
  rfl

/-- Where two neighbours of an atom are not spaced, the first is still read. -/
theorem readAs_of_glue {k next : TokenKind} {more : List Char} (lexical : k.Lexical)
    (close : k.text = "(" ∨ next.text = "(" ∨ next.text = ")" ∨ next.text = ",") :
    ReadAs k (next.text.toList ++ more) := by
  rcases close with opens | text | text | text
  · rw [eq_lparen_of_text lexical opens]
    exact Token.readAs_lparen _
  all_goals
    rw [text]
    exact Token.readAs_of_ends lexical (by simp [Ends, Token.isDelimiter])

/-- The canonical text of some words is read as these words. -/
theorem spelled_canonicalText {ks : List TokenKind} (lexical : ∀ k ∈ ks, k.Lexical) :
    Spelled (canonicalText (ks.map (·.text))) ks := by
  intro cs kinds ends scans
  induction ks with
  | nil => exact scans
  | cons k ks ih =>
    rw [List.forall_mem_cons] at lexical
    cases ks with
    | nil => exact spelled_text lexical.1 cs kinds ends scans
    | cons next ks =>
      have later := ih lexical.2
      obtain ⟨more, starts⟩ := canonicalText_cons next.text (ks.map (·.text))
      simp only [List.map_cons, canonicalText, String.toList_append, List.append_assoc] at later ⊢
      unfold glue
      split
      · rename_i close
        refine later.spelling ?_
        rw [starts, String.toList_append, List.append_assoc]
        exact readAs_of_glue lexical.1 close
      · exact later.space.spelling (Token.readAs_of_ends lexical.1 (ends_space _))

/-- No word but a connective starts with an equality sign. -/
theorem head_text_ne {k : TokenKind} (lexical : k.Lexical) (atomic : k.isAtomic) :
    ∃ c cs, k.text.toList = c :: cs ∧ c ≠ '=' := by
  cases k with
  | op text =>
    rcases lexical with long | ⟨c, symbol, rfl⟩
    · simp only [TokenKind.longOperators, List.mem_cons, List.not_mem_nil, or_false] at long
      rcases long with rfl | rfl | rfl | rfl <;> exact ⟨_, _, rfl, by decide⟩
    · refine ⟨c, [], by simp [TokenKind.text, Char.toString], ?_⟩
      rintro rfl
      cases symbol
  | int text =>
    obtain ⟨nonempty, digits⟩ := lexical
    obtain ⟨c, cs, spelled⟩ := List.exists_cons_of_ne_nil nonempty
    refine ⟨c, cs, spelled, ?_⟩
    rintro rfl
    cases digits '=' (by simp [spelled])
  | ident name =>
    obtain ⟨⟨c, cs, spelled, start, -⟩, -⟩ := lexical
    refine ⟨c, cs, spelled, ?_⟩
    rintro rfl
    cases start
  | _ => cases atomic

/-- The text of an expression does not start with an equality sign, so a negation
    sign in front of it is read as one. -/
theorem head_renderAt_ne {e : Expr} (readable : e.Readable) (context : Nat) :
    ∃ c cs, (e.renderAt context).toList = c :: cs ∧ c ≠ '=' := by
  have grouped : ∀ text, ∃ c cs, (parenthesize text).toList = c :: cs ∧ c ≠ '=' :=
    fun text => ⟨'(', text.toList ++ [')'], by simp [parenthesize], by decide⟩
  have extended : ∀ (text more : String), (∃ c cs, text.toList = c :: cs ∧ c ≠ '=') →
      ∃ c cs, (text ++ more).toList = c :: cs ∧ c ≠ '=' := by
    rintro text more ⟨c, cs, spelled, other⟩
    exact ⟨c, cs ++ more.toList, by simp [spelled], other⟩
  induction e generalizing context with
  | lit _ value =>
    cases value
    · exact ⟨'f', ['a', 'l', 's', 'e'], by simp [renderAt], by decide⟩
    · exact ⟨'t', ['r', 'u', 'e'], by simp [renderAt], by decide⟩
  | ident _ name => exact head_text_ne readable rfl
  | atom _ text =>
    obtain ⟨ks, isAtom, lexical, rfl⟩ := readable
    obtain ⟨k, ks, rfl⟩ := List.exists_cons_of_ne_nil isAtom.nonempty
    rw [List.forall_mem_cons] at lexical
    obtain ⟨more, starts⟩ := canonicalText_cons k.text (ks.map (·.text))
    rw [renderAt]
    split
    · exact grouped _
    · rw [List.map_cons, starts]
      exact extended _ _ (head_text_ne lexical.1 isAtom.run.head)
  | not _ operand _ =>
    exact ⟨'!', (operand.renderAt negationRank).toList, by simp [renderAt], by decide⟩
  | binary _ op left right ihLeft _ =>
    simp only [renderAt]
    split
    · exact grouped _
    · simp only [String.append_assoc]
      exact extended _ _ (ihLeft readable.1 _)

/-- The text of a readable expression is read as a phrase that spells it. -/
theorem spelled_renderAt {e : Expr} (readable : e.Readable) {context : Nat}
    (small : context ≤ negationRank) :
    ∃ ks, Spelled (e.renderAt context) ks ∧ Phrase context ks e.erase := by
  induction e generalizing context with
  | lit _ value =>
    refine ⟨[literalKind value], ?_, (Phrase.lit value).mono small⟩
    cases value
    · exact spelled_text (k := .litFalse) trivial
    · exact spelled_text (k := .litTrue) trivial
  | ident _ name => exact ⟨[.ident name.value], spelled_text readable, (Phrase.name _).mono small⟩
  | atom _ text =>
    obtain ⟨ks, isAtom, lexical, rfl⟩ := readable
    have spelled := spelled_canonicalText lexical
    have phrase : Phrase negationRank ks (.atom .none (canonicalText (ks.map (·.text)))) :=
      .atom isAtom
    rw [renderAt]
    split
    · exact ⟨_, spelled.parenthesize, (phrase.mono (Nat.zero_le _)).group.mono small⟩
    · exact ⟨ks, spelled, phrase.mono small⟩
  | not _ operand ih =>
    obtain ⟨ks, spelled, phrase⟩ := ih readable le_rfl
    refine ⟨.bang :: ks, ?_, phrase.not.mono small⟩
    intro cs kinds ends scans
    have later := spelled cs kinds ends scans
    obtain ⟨c, more, starts, other⟩ := head_renderAt_ne (e := operand) readable negationRank
    have signed := later.spelling (Token.readAs_bang (by rw [starts]; simpa using other))
    simpa [renderAt, TokenKind.text] using signed
  | binary _ op left right ihLeft ihRight =>
    have leftSmall : op.leftRank ≤ negationRank := by cases op <;> decide
    have rightSmall : op.rightRank ≤ negationRank := by cases op <;> decide
    obtain ⟨ks, spelledLeft, first⟩ := ihLeft readable.1 leftSmall
    obtain ⟨ks', spelledRight, second⟩ := ihRight readable.2 rightSmall
    have spelled : Spelled _ (ks ++ op.kind :: ks') :=
      spelledLeft.join (k := op.kind) (by cases op <;> trivial) spelledRight
    have symbol : op.kind.text = op.symbol := by cases op <;> rfl
    rw [symbol] at spelled
    have phrase := Phrase.binary op first second
    simp only [renderAt]
    split
    · exact ⟨_, spelled.parenthesize, (phrase.mono (Nat.zero_le _)).group.mono small⟩
    · exact ⟨_, spelled, phrase.mono (by omega)⟩

/-! ## Reading back -/

/-- A readable expression is read back from its text, up to spans. -/
theorem parse_render {e : Expr} (readable : e.Readable) (base : Nat) :
    ∃ e', parse e.render base = .ok e' ∧ e'.erase = e.erase := by
  obtain ⟨ks, spelled, phrase⟩ := spelled_renderAt readable (Nat.zero_le _)
  have scans := spelled [] [] (by simp [Ends]) Token.scans_nil
  rw [List.append_nil, List.append_nil] at scans
  obtain ⟨ts, scanned, kinds⟩ := scans base
  obtain ⟨taken, ended, rfl, kinds', last⟩ := List.map_eq_append_iff.mp kinds
  obtain ⟨t, none, rfl, ends, empty⟩ := List.map_eq_cons_iff.mp last
  rw [List.map_eq_nil_iff] at empty
  subst empty
  obtain ⟨e', read, same⟩ := phrase.read_whole kinds' ends
  exact ⟨e', bind_eq_ok_iff.mpr ⟨_, scanned, read⟩, same⟩

theorem erase_eq_of_render_eq {e e' : Expr} (readable : e.Readable) (readable' : e'.Readable)
    (same : e.render = e'.render) : e.erase = e'.erase := by
  obtain ⟨first, read, erased⟩ := parse_render readable 0
  obtain ⟨second, read', erased'⟩ := parse_render readable' 0
  rw [same, read'] at read
  cases read
  rw [← erased, ← erased']

/-- Spans do not show in the text of an expression. -/
theorem renderAt_erase (e : Expr) (context : Nat) :
    e.erase.renderAt context = e.renderAt context := by
  induction e generalizing context with
  | not _ _ ih => simp only [erase, renderAt, ih]
  | binary _ _ _ _ ihLeft ihRight => simp only [erase, renderAt, ihLeft, ihRight]
  | _ => rfl

theorem render_eq_iff {e e' : Expr} (readable : e.Readable) (readable' : e'.Readable) :
    e.render = e'.render ↔ e.erase = e'.erase := by
  constructor
  · intro same
    exact erase_eq_of_render_eq readable readable' same
  · intro same
    rw [render, render, ← renderAt_erase e, ← renderAt_erase e', same]

/-- The expression that is read from a text is read back from its own text, up to spans,
    and it shares this text with no expression that differs in more than its spans. -/
theorem parse_render_of_parse {source : String} {base : Nat} {e : Expr}
    (read : parse source base = .ok e) :
    (∀ start, ∃ e', parse e.render start = .ok e' ∧ e'.erase = e.erase) ∧
      ∀ other : Expr, other.Parsed → (other.render = e.render ↔ other.erase = e.erase) := by
  have readable : e.Readable := (Parsed.expr read).readable
  refine ⟨fun start => parse_render readable start, ?_⟩
  intro other parsed
  exact render_eq_iff parsed.readable readable

/-- Two texts with different groups and spaces are read as the same expression, which is
    read back from a third text. -/
theorem parse_render_of_parse_grouped :
    ∃ e other, parse "!(a + b) == (c-1) && f( x ,(y ==> true) ) ==> (p ==> q || r)" 0 = .ok e ∧
      parse "((!(a+b)) == (c - 1) && f(x,( y==>true ))) ==> p ==> (q||r)" 4 = .ok other ∧
      other.erase = e.erase ∧ ∃ e', parse e.render 7 = .ok e' ∧ e'.erase = e.erase := by
  have texts : (do
      let e ← parse "!(a + b) == (c-1) && f( x ,(y ==> true) ) ==> (p ==> q || r)" 0
      let other ← parse "((!(a+b)) == (c - 1) && f(x,( y==>true ))) ==> p ==> (q||r)" 4
      return (other.render, e.render) : Except SourceError (String × String)) =
        .ok ("!(a + b) == (c - 1) && f(x,(y ==> true)) ==> p ==> q || r",
          "!(a + b) == (c - 1) && f(x,(y ==> true)) ==> p ==> q || r") := by
    cbv
  simp only [bind_eq_ok_iff] at texts
  obtain ⟨e, first, other, second, texts⟩ := texts
  obtain ⟨text, text'⟩ := Prod.mk.inj (Except.ok.inj texts)
  have back := parse_render_of_parse first
  refine ⟨e, other, first, second, ?_, back.1 7⟩
  exact (back.2 other (.expr second)).mp (text.trans text'.symm)

end Expr

end InvariantInference
