import InvariantInference.Expr
import InvariantInference.Token.Lexer

/-!
# Reading expressions

The grammar, from the loosest to the tightest:

    expr    = or [ "==>" expr ]
    or      = and { "||" and }
    and     = eq { "&&" eq }
    eq      = unary { "==" unary }
    unary   = "!" unary | primary
    primary = "true" | "false" | "(" expr ")" | atom

An atom is a maximal run of identifiers, numbers and operators, in which an
identifier may be followed by a parenthesised group of arbitrary tokens. A lone
identifier is an identifier; any other atom is kept as its canonical text.

The functions work on the tokens that are left, and every result comes with the
fact that it left fewer. A list of tokens need not hold an end marker: at its
end an error points at `last`, the span of its last token.
-/

namespace InvariantInference

namespace Expr

/-- The left-grouping connectives, as tiers of the grammar. -/
inductive Tier where
  | or
  | and
  | eq
  deriving DecidableEq, Repr

namespace Tier

/-- The connective of a tier. -/
def op : Tier → BinOp
  | or => .or
  | and => .and
  | eq => .eq

/-- The token that spells the connective of a tier. -/
def kind : Tier → TokenKind
  | or => .orOr
  | and => .andAnd
  | eq => .eqEq

/-- The place of a tier in the descent of the grammar. -/
def depth : Tier → Nat
  | or => 5
  | and => 3
  | eq => 1

end Tier

/-- Where the reading of an atom stands: between its words, just after an
    identifier or not, or inside a group with so many parentheses open around
    the innermost. -/
inductive AtomPlace where
  | between (afterIdent : Bool)
  | inside (depth : Nat)
  deriving DecidableEq, Repr

/-- Puts a token in front of those that were taken. -/
def prepend (t : Token) : List Token × List Token → List Token × List Token
  | (taken, rest) => (t :: taken, rest)

/-- Reads on in an atom: the tokens that belong to it, and those after it (`parse_atom`). -/
def takeAtom (last : Span) (place : AtomPlace) :
    List Token → Except SourceError (List Token × List Token)
  | [] =>
    match place with
    | .between _ => .ok ([], [])
    | .inside _ => .error ⟨.endOfInput, last⟩
  | t :: rest =>
    match place with
    | .between afterIdent =>
      if t.kind.isAtomic then
        (takeAtom last (.between t.kind.isIdent) rest).map (prepend t)
      else if afterIdent ∧ t.kind = .lparen then
        (takeAtom last (.inside 0) rest).map (prepend t)
      else
        .ok ([], t :: rest)
    | .inside depth =>
      match t.kind, depth with
      | .eof, _ => .error ⟨.unclosedGroup, t.span⟩
      | .lparen, depth => (takeAtom last (.inside (depth + 1)) rest).map (prepend t)
      | .rparen, 0 => (takeAtom last (.between false) rest).map (prepend t)
      | .rparen, depth + 1 => (takeAtom last (.inside depth) rest).map (prepend t)
      | _, depth => (takeAtom last (.inside depth) rest).map (prepend t)

/-- The text between two neighbours in an atom: nothing after an opening
    parenthesis and nothing before a parenthesis or a comma, else a space. -/
def glue (left right : String) : String :=
  if left = "(" ∨ right = "(" ∨ right = ")" ∨ right = "," then "" else " "

/-- The canonical text of an atom, which does not depend on how its words were spaced
    (`canonical_atom`). -/
def canonicalText : List String → String
  | [] => ""
  | [word] => word
  | word :: next :: rest => word ++ glue word next ++ canonicalText (next :: rest)

/-- The expression that the tokens of an atom stand for. -/
def ofAtomTokens (first : Token) (more : List Token) : Expr :=
  match first.kind, more with
  | .ident name, [] => ident first.span ⟨first.span, name⟩
  | _, _ =>
    atom (first.span.join ((more.getLast?.getD first).span))
      (canonicalText ((first :: more).map (·.kind.text)))

/-- Tokens that were taken behind another one. -/
theorem map_prepend_eq_ok_iff {r : Except SourceError (List Token × List Token)} {t : Token}
    {taken rest : List Token} :
    r.map (prepend t) = .ok (taken, rest) ↔ ∃ more, r = .ok (more, rest) ∧ taken = t :: more := by
  cases r with
  | error e => simp [Except.map]
  | ok pair =>
    obtain ⟨more, left⟩ := pair
    simp only [Except.map, prepend, Except.ok.injEq, Prod.mk.injEq]
    constructor
    · rintro ⟨rfl, rfl⟩
      exact ⟨more, ⟨rfl, rfl⟩, rfl⟩
    · rintro ⟨_, ⟨rfl, rfl⟩, rfl⟩
      exact ⟨rfl, rfl⟩

/-- Nothing is lost: what an atom takes and what it leaves is what there was. -/
theorem takeAtom_append {last : Span} {place : AtomPlace} {ts taken rest : List Token}
    (result : takeAtom last place ts = .ok (taken, rest)) : taken ++ rest = ts := by
  induction ts generalizing place taken with
  | nil => cases place <;> simp_all [takeAtom]
  | cons t ts ih =>
    unfold takeAtom at result
    split at result
    · split at result
      · obtain ⟨more, equal, rfl⟩ := map_prepend_eq_ok_iff.mp result
        simp [ih equal]
      · split at result
        · obtain ⟨more, equal, rfl⟩ := map_prepend_eq_ok_iff.mp result
          simp [ih equal]
        · simp_all
    · split at result
      · simp at result
      all_goals
        obtain ⟨more, equal, rfl⟩ := map_prepend_eq_ok_iff.mp result
        simp [ih equal]

/-- An atom leaves no more tokens than there were. -/
theorem takeAtom_length {last : Span} {place : AtomPlace} {ts taken rest : List Token}
    (result : takeAtom last place ts = .ok (taken, rest)) : rest.length ≤ ts.length := by
  have equal := takeAtom_append result
  rw [← equal, List.length_append]
  omega

/-- The result of reading an expression at the head of `ts`: the expression and
    the tokens after it, of which there are fewer. -/
abbrev Reading (ts : List Token) :=
  Except SourceError { r : Expr × List Token // r.2.length < ts.length }

mutual

/-- Reads an expression of the loosest tier (`parse_implies_expr`). -/
def implication (last : Span) (ts : List Token) : Reading ts :=
  match chain last .or ts with
  | .error e => .error e
  | .ok ⟨(left, []), shorter⟩ => .ok ⟨(left, []), shorter⟩
  | .ok ⟨(left, t :: rest), shorter⟩ =>
    if t.kind = .implies then
      match implication last rest with
      | .error e => .error e
      | .ok ⟨(right, rest'), shorter'⟩ =>
        .ok ⟨(combine .implies left right, rest'), by simp at shorter shorter' ⊢; omega⟩
    else
      .ok ⟨(left, t :: rest), shorter⟩
termination_by 8 * ts.length + 7
decreasing_by
  · simp [Tier.depth]
  · simp only [List.length_cons] at shorter
    omega

/-- Reads operands of one tier, joined by its connective. -/
def chain (last : Span) (tier : Tier) (ts : List Token) : Reading ts :=
  match operand last tier ts with
  | .error e => .error e
  | .ok ⟨(left, rest), shorter⟩ =>
    match links last tier left rest with
    | .error e => .error e
    | .ok ⟨(e, rest'), noLonger⟩ => .ok ⟨(e, rest'), by simp at shorter noLonger ⊢; omega⟩
termination_by 8 * ts.length + tier.depth + 1
decreasing_by
  · omega
  · simp only at shorter
    omega

/-- Reads the operands after `left`, each behind the connective of the tier. -/
def links (last : Span) (tier : Tier) (left : Expr) (ts : List Token) :
    Except SourceError { r : Expr × List Token // r.2.length ≤ ts.length } :=
  match ts with
  | [] => .ok ⟨(left, []), by simp⟩
  | t :: rest =>
    if t.kind = tier.kind then
      match operand last tier rest with
      | .error e => .error e
      | .ok ⟨(right, rest'), shorter⟩ =>
        match links last tier (combine tier.op left right) rest' with
        | .error e => .error e
        | .ok ⟨(e, rest''), noLonger⟩ =>
          .ok ⟨(e, rest''), by simp at shorter noLonger ⊢; omega⟩
    else
      .ok ⟨(left, t :: rest), by simp⟩
termination_by 8 * ts.length
decreasing_by
  · cases tier <;> simp only [Tier.depth, List.length_cons] <;> omega
  · simp only [List.length_cons] at shorter ⊢
    omega

/-- Reads one operand of a tier: a chain of the next tighter tier. -/
def operand (last : Span) (tier : Tier) (ts : List Token) : Reading ts :=
  match tier with
  | .or => chain last .and ts
  | .and => chain last .eq ts
  | .eq => unary last ts
termination_by 8 * ts.length + tier.depth
decreasing_by
  all_goals simp [Tier.depth]

/-- Reads a negation or a primary expression (`parse_unary_expr`). -/
def unary (last : Span) (ts : List Token) : Reading ts :=
  match ts with
  | [] => .error ⟨.endOfInput, last⟩
  | t :: rest =>
    match t.kind with
    | .bang =>
      match unary last rest with
      | .error e => .error e
      | .ok ⟨(e, rest'), shorter⟩ =>
        .ok ⟨(not (t.span.join e.span) e, rest'), by simp at shorter ⊢; omega⟩
    | .litTrue => .ok ⟨(lit t.span true, rest), by simp⟩
    | .litFalse => .ok ⟨(lit t.span false, rest), by simp⟩
    | .lparen =>
      match implication last rest with
      | .error e => .error e
      | .ok ⟨(_, []), _⟩ => .error ⟨.endOfInput, last⟩
      | .ok ⟨(e, close :: rest'), shorter⟩ =>
        if close.kind = .rparen then
          .ok ⟨(e.withSpan (t.span.join close.span), rest'), by simp at shorter ⊢; omega⟩
        else
          .error ⟨.unclosedParenthesis, close.span⟩
    | kind =>
      if kind.isAtomic then
        match taken : takeAtom last (.between kind.isIdent) rest with
        | .error e => .error e
        | .ok (more, rest') =>
          .ok ⟨(ofAtomTokens t more, rest'), by
            have noLonger := takeAtom_length taken
            simp; omega⟩
      else
        .error ⟨.noExpression, t.span⟩
termination_by 8 * ts.length
decreasing_by
  all_goals simp only [List.length_cons]; omega

end

/-- Reads the expression at the head of `ts`: the expression and the tokens
    after it. -/
def parseNext (last : Span) (ts : List Token) : Except SourceError (Expr × List Token) :=
  (implication last ts).map (·.val)

end Expr

namespace Token

/-- The span of the last token, where errors at the end of the tokens point. -/
def lastSpan (ts : List Token) : Span :=
  match ts.getLast? with
  | some t => t.span
  | none => .none

/-- Succeeds at the end marker (`expect_eof`). -/
def expectEnd (last : Span) : List Token → Except SourceError Unit
  | [] => .error ⟨.trailingInput, last⟩
  | t :: _ => if t.kind = .eof then .ok () else .error ⟨.trailingInput, t.span⟩

end Token

namespace Expr

/-- The expression that a whole list of tokens spells (`parse_expr_eof`). -/
def ofTokens (ts : List Token) : Except SourceError Expr := do
  let (e, rest) ← parseNext (Token.lastSpan ts) ts
  Token.expectEnd (Token.lastSpan ts) rest
  return e

/-- The expression that a whole text spells, its first byte being byte `base`
    (`parse_expr`). -/
def parse (source : String) (base : Nat) : Except SourceError Expr := do
  ofTokens (← Token.ofSource source base)

end Expr

end InvariantInference
