import Mathlib
import InvariantInference.Proofs.Expr.Reading

/-!
# Derivations

A derivation says how tokens come from a symbol of the grammar:

    expr    = or [ "==>" expr ]
    or      = and { "||" and }
    and     = eq { "&&" eq }
    eq      = unary { "==" unary }
    unary   = "!" unary | primary
    primary = "true" | "false" | "(" expr ")" | atom

Derivations are data, so that two of them for the same tokens can be told apart.
There never are two: what follows a phrase does not carry it on, and so each
part of a derivation ends where the tokens say. The phrases of the ranked
grammar are what is derived, with the tree of the derivation.
-/

namespace InvariantInference

namespace Expr

/-! ## Symbols and derivations -/

/-- A word of an atom, or an identifier with a group right behind it. -/
inductive Piece where
  | word (k : TokenKind) (atomic : k.isAtomic)
  | application (name : String) (inner : List TokenKind) (balanced : Balanced inner)

/-- The tokens of a piece. -/
def Piece.yield : Piece → List TokenKind
  | word k _ => [k]
  | application name inner _ => .ident name :: .lparen :: (inner ++ [.rparen])

/-- The symbols of the grammar. -/
inductive Symbol where
  | expr
  | chain (tier : Tier)
  | unary
  | primary

/-- What a tier joins. -/
def Tier.operand : Tier → Symbol
  | or => .chain .and
  | and => .chain .eq
  | eq => .unary

mutual

/-- How tokens are derived from a symbol. -/
inductive Derivation : Symbol → Type
  | plain (only : Derivation (.chain .or)) : Derivation .expr
  | implies (premise : Derivation (.chain .or)) (conclusion : Derivation .expr) : Derivation .expr
  | chain {tier : Tier} (first : Derivation tier.operand) (more : Links tier) :
      Derivation (.chain tier)
  | not (operand : Derivation .unary) : Derivation .unary
  | primary (inner : Derivation .primary) : Derivation .unary
  | literal (value : Bool) : Derivation .primary
  | group (inside : Derivation .expr) : Derivation .primary
  | atom (first : Piece) (more : List Piece) : Derivation .primary

/-- How the tokens after the first operand of a tier are derived. -/
inductive Links : Tier → Type
  | done {tier : Tier} : Links tier
  | link {tier : Tier} (next : Derivation tier.operand) (more : Links tier) : Links tier

end

/-- The tokens of some pieces. -/
def Piece.yieldAll (pieces : List Piece) : List TokenKind := pieces.flatMap Piece.yield

mutual

/-- The tokens that are derived. -/
def Derivation.yield {sym : Symbol} : Derivation sym → List TokenKind
  | .plain only => only.yield
  | .implies premise conclusion => premise.yield ++ .implies :: conclusion.yield
  | .chain first more => first.yield ++ more.yield
  | .not operand => .bang :: operand.yield
  | .primary inner => inner.yield
  | .literal value => [literalKind value]
  | .group inside => .lparen :: (inside.yield ++ [.rparen])
  | .atom first more => Piece.yieldAll (first :: more)

/-- The tokens that are derived after the first operand of a tier. -/
def Links.yield {tier : Tier} : Links tier → List TokenKind
  | .done => []
  | .link next more => tier.kind :: (next.yield ++ more.yield)

end

/-- The tree of an atom: a lone identifier stands for itself, and all else for its canonical
    text. -/
def atomTree : List TokenKind → Expr
  | [.ident name] => .ident .none (.synthetic name)
  | ks => .atom .none (canonicalText (ks.map (·.text)))

mutual

/-- The tree of a derivation, without spans. -/
def Derivation.tree {sym : Symbol} : Derivation sym → Expr
  | .plain only => only.tree
  | .implies premise conclusion => .binary .none .implies premise.tree conclusion.tree
  | .chain first more => more.tree first.tree
  | .not operand => .not .none operand.tree
  | .primary inner => inner.tree
  | .literal value => .lit .none value
  | .group inside => inside.tree
  | .atom first more => atomTree (Piece.yieldAll (first :: more))

/-- The tree of what stands on the left, with the other operands of the tier joined to it one
    after the other. -/
def Links.tree {tier : Tier} (left : Expr) : Links tier → Expr
  | .done => left
  | .link next more => more.tree (.binary .none tier.op left next.tree)

end

/-! ## There is one derivation -/

/-- The rank of the phrases that a symbol stands for. -/
def Symbol.rank : Symbol → Nat
  | expr => 1
  | chain tier => tier.rank
  | unary => negationRank
  | primary => negationRank

theorem Symbol.rank_operand (tier : Tier) : tier.operand.rank = tier.rank + 1 := by
  cases tier <;> rfl

/-- A group ends where its parentheses match. -/
theorem Balanced.unique {inner inner' rest rest' : List TokenKind} (first : Balanced inner)
    (second : Balanced inner') (same : inner ++ .rparen :: rest = inner' ++ .rparen :: rest') :
    inner = inner' ∧ rest = rest' := by
  induction first generalizing inner' rest rest' with
  | nil =>
    cases second with
    | nil => simpa using same
    | word plain => exact absurd (List.cons.inj same).1.symm plain.2.1
    | group => cases (List.cons.inj same).1
  | word plain _ ih =>
    cases second with
    | nil => exact absurd (List.cons.inj same).1 plain.2.1
    | word plain' more =>
      rw [List.cons_append, List.cons_append, List.cons.injEq] at same
      obtain ⟨rfl, same⟩ := same
      obtain ⟨rfl, rfl⟩ := ih more same
      exact ⟨rfl, rfl⟩
    | group => exact absurd (List.cons.inj same).1 plain.1
  | group _ _ ihInside ihRest =>
    cases second with
    | nil => cases (List.cons.inj same).1
    | word plain => exact absurd (List.cons.inj same).1.symm plain.1
    | group inside more =>
      simp only [List.cons_append, List.append_assoc, List.cons.injEq, true_and] at same
      obtain ⟨rfl, after⟩ := ihInside inside same
      obtain ⟨rfl, rfl⟩ := ihRest more after
      exact ⟨rfl, rfl⟩

theorem Piece.yieldAll_cons_ne_nil (piece : Piece) (pieces : List Piece) :
    yieldAll (piece :: pieces) ≠ [] := by
  cases piece <;> simp [yieldAll, yield]

/-- Pieces start with a word. -/
theorem Piece.yieldAll_cons_ne {piece : Piece} {pieces : List Piece} {k : TokenKind}
    {rest ks : List TokenKind} (other : k.isAtomic = false) :
    yieldAll (piece :: pieces) ++ rest ≠ k :: ks := by
  intro same
  cases piece with
  | word k' atomic =>
    cases (List.cons.inj same).1
    rw [other] at atomic
    cases atomic
  | application name inner balanced =>
    cases (List.cons.inj same).1
    cases other

/-- Pieces do not start where others end. -/
theorem Piece.not_closes_yieldAll_cons (piece : Piece) (pieces : List Piece)
    (rest : List TokenKind) : ¬ Closes negationRank (yieldAll (piece :: pieces) ++ rest) := by
  intro closes
  cases same : yieldAll (piece :: pieces) ++ rest with
  | nil => exact yieldAll_cons_ne_nil piece pieces (List.append_eq_nil_iff.mp same).1
  | cons k ks =>
    rw [same, closes_cons] at closes
    exact yieldAll_cons_ne (isAtomic_of_joinRank_lt closes).1 same

/-- No group stands where pieces start or end. -/
theorem Piece.yieldAll_ne_lparen {pieces : List Piece} {rest ks : List TokenKind}
    (closes : Closes negationRank rest) : yieldAll pieces ++ rest ≠ .lparen :: ks := by
  intro same
  cases pieces with
  | nil =>
    rw [show rest = .lparen :: ks from same, closes_cons] at closes
    exact (isAtomic_of_joinRank_lt closes).2 rfl
  | cons piece pieces => exact yieldAll_cons_ne rfl same

/-- Tokens fall into pieces in one way only. -/
theorem Piece.unique {pieces pieces' : List Piece} {rest rest' : List TokenKind}
    (closes : Closes negationRank rest) (closes' : Closes negationRank rest')
    (same : yieldAll pieces ++ rest = yieldAll pieces' ++ rest') :
    pieces = pieces' ∧ rest = rest' := by
  induction pieces generalizing pieces' with
  | nil =>
    cases pieces' with
    | nil => exact ⟨rfl, same⟩
    | cons piece' pieces' =>
      rw [show rest = yieldAll (piece' :: pieces') ++ rest' from same] at closes
      exact absurd closes (not_closes_yieldAll_cons _ _ _)
  | cons piece pieces ih =>
    cases pieces' with
    | nil =>
      rw [show rest' = yieldAll (piece :: pieces) ++ rest from same.symm] at closes'
      exact absurd closes' (not_closes_yieldAll_cons _ _ _)
    | cons piece' pieces' =>
      simp only [yieldAll, List.flatMap_cons, List.append_assoc] at same
      -- After an identifier a parenthesis is that of its group, so the kinds of pieces agree.
      cases piece with
      | word k atomic =>
        cases piece' with
        | word k' atomic' =>
          obtain ⟨rfl, after⟩ := List.cons.inj same
          obtain ⟨rfl, rfl⟩ := ih after
          exact ⟨rfl, rfl⟩
        | application name' inner' balanced' =>
          exact absurd (List.cons.inj same).2 (yieldAll_ne_lparen closes)
      | application name inner balanced =>
        cases piece' with
        | word k' atomic' =>
          exact absurd (List.cons.inj same).2.symm (yieldAll_ne_lparen closes')
        | application name' inner' balanced' =>
          simp only [yield, List.cons_append, List.append_assoc, List.cons.injEq,
            TokenKind.ident.injEq, true_and, List.nil_append] at same
          obtain ⟨rfl, same⟩ := same
          obtain ⟨rfl, after⟩ := balanced.unique balanced' same
          obtain ⟨rfl, rfl⟩ := ih after
          exact ⟨rfl, rfl⟩

/-- What is joined to an operand does not carry it on. -/
theorem Links.closes {tier : Tier} (links : Links tier) {rest : List TokenKind}
    (closes : Closes tier.rank rest) : Closes tier.operand.rank (links.yield ++ rest) := by
  rw [Symbol.rank_operand]
  cases links with
  | done => exact closes.mono (Nat.le_succ _)
  | link next more =>
    rw [Links.yield, List.cons_append, closes_cons, Tier.joinRank_kind]
    omega

/-- Behind the tokens of a tier, nothing is joined. -/
theorem Links.not_closes_kind (tier : Tier) (ks : List TokenKind) :
    ¬ Closes tier.rank (tier.kind :: ks) := by
  rw [closes_cons, Tier.joinRank_kind]
  cases tier <;> decide

/-- A primary expression is no negation. -/
theorem Derivation.primary_ne_bang (d : Derivation .primary) {rest ks : List TokenKind} :
    d.yield ++ rest ≠ .bang :: ks := by
  intro same
  cases d with
  | literal value =>
    rw [yield] at same
    cases value <;> cases (List.cons.inj same).1
  | group inside =>
    rw [yield] at same
    cases (List.cons.inj same).1
  | atom first more =>
    rw [yield] at same
    exact Piece.yieldAll_cons_ne rfl same

mutual

/-- Tokens that start with what is derived from a symbol do so in one way only. -/
theorem Derivation.unique {sym : Symbol} {rest rest' : List TokenKind}
    (closes : Closes sym.rank rest) (closes' : Closes sym.rank rest') :
    ∀ (d d' : Derivation sym), d.yield ++ rest = d'.yield ++ rest' → d = d' ∧ rest = rest'
  | .plain only, d', same => by
    cases d' with
    | plain only' =>
      rw [Derivation.yield, Derivation.yield] at same
      obtain ⟨rfl, rfl⟩ :=
        only.unique (closes.mono (by decide)) (closes'.mono (by decide)) only' same
      exact ⟨rfl, rfl⟩
    | implies premise conclusion =>
      rw [Derivation.yield, Derivation.yield, List.append_assoc, List.cons_append] at same
      -- The arrow ends the premise, but an expression does not end before it.
      obtain ⟨-, rfl⟩ :=
        only.unique (closes.mono (by decide)) (closes_cons.mpr (by decide)) premise same
      exact absurd (closes_cons.mp closes) (by decide)
  | .implies premise conclusion, d', same => by
    cases d' with
    | plain only =>
      rw [Derivation.yield, Derivation.yield, List.append_assoc, List.cons_append] at same
      obtain ⟨-, rfl⟩ :=
        premise.unique (closes_cons.mpr (by decide)) (closes'.mono (by decide)) only same
      exact absurd (closes_cons.mp closes') (by decide)
    | implies premise' conclusion' =>
      simp only [Derivation.yield, List.append_assoc, List.cons_append] at same
      obtain ⟨rfl, after⟩ :=
        premise.unique (closes_cons.mpr (by decide)) (closes_cons.mpr (by decide)) premise' same
      obtain ⟨rfl, rfl⟩ := conclusion.unique closes closes' conclusion' (List.cons.inj after).2
      exact ⟨rfl, rfl⟩
  | .chain first more, d', same => by
    cases d' with
    | chain first' more' =>
      simp only [Derivation.yield, List.append_assoc] at same
      obtain ⟨rfl, after⟩ := first.unique (more.closes closes) (more'.closes closes') first' same
      obtain ⟨rfl, rfl⟩ := more.unique closes closes' more' after
      exact ⟨rfl, rfl⟩
  | .not operand, d', same => by
    cases d' with
    | not operand' =>
      rw [Derivation.yield, Derivation.yield] at same
      obtain ⟨rfl, rfl⟩ := operand.unique closes closes' operand' (List.cons.inj same).2
      exact ⟨rfl, rfl⟩
    | primary inner' =>
      rw [Derivation.yield, Derivation.yield] at same
      exact absurd same.symm inner'.primary_ne_bang
  | .primary inner, d', same => by
    cases d' with
    | not operand' =>
      rw [Derivation.yield, Derivation.yield] at same
      exact absurd same inner.primary_ne_bang
    | primary inner' =>
      rw [Derivation.yield, Derivation.yield] at same
      obtain ⟨rfl, rfl⟩ := @Derivation.unique .primary _ _ closes closes' inner inner' same
      exact ⟨rfl, rfl⟩
  | .literal value, d', same => by
    cases d' with
    | literal value' =>
      obtain ⟨kinds, after⟩ := List.cons.inj same
      cases value <;> cases value' <;> first | exact ⟨rfl, after⟩ | cases kinds
    | group inside' =>
      rw [Derivation.yield, Derivation.yield] at same
      cases value <;> cases (List.cons.inj same).1
    | atom first' more' =>
      rw [Derivation.yield, Derivation.yield] at same
      cases value <;> exact absurd same.symm (Piece.yieldAll_cons_ne rfl)
  | .group inside, d', same => by
    cases d' with
    | literal value' =>
      rw [Derivation.yield, Derivation.yield] at same
      cases value' <;> cases (List.cons.inj same).1
    | group inside' =>
      simp only [Derivation.yield, List.cons_append, List.append_assoc, List.cons.injEq, true_and,
        List.nil_append] at same
      obtain ⟨rfl, after⟩ :=
        inside.unique (closes_cons.mpr (by decide)) (closes_cons.mpr (by decide)) inside' same
      exact ⟨rfl, (List.cons.inj after).2⟩
    | atom first' more' =>
      rw [Derivation.yield, Derivation.yield] at same
      exact absurd same.symm (Piece.yieldAll_cons_ne rfl)
  | .atom first more, d', same => by
    cases d' with
    | literal value' =>
      rw [Derivation.yield, Derivation.yield] at same
      cases value' <;> exact absurd same (Piece.yieldAll_cons_ne rfl)
    | group inside' =>
      rw [Derivation.yield, Derivation.yield] at same
      exact absurd same (Piece.yieldAll_cons_ne rfl)
    | atom first' more' =>
      rw [Derivation.yield, Derivation.yield] at same
      obtain ⟨pieces, rfl⟩ := Piece.unique closes closes' same
      cases pieces
      exact ⟨rfl, rfl⟩

/-- Tokens are joined to an operand in one way only. -/
theorem Links.unique {tier : Tier} {rest rest' : List TokenKind} (closes : Closes tier.rank rest)
    (closes' : Closes tier.rank rest') :
    ∀ (links links' : Links tier), links.yield ++ rest = links'.yield ++ rest' →
      links = links' ∧ rest = rest'
  | .done, links', same => by
    cases links' with
    | done => exact ⟨rfl, same⟩
    | link next' more' =>
      rw [show rest = _ from same] at closes
      exact absurd closes (Links.not_closes_kind tier _)
  | .link next more, links', same => by
    cases links' with
    | done =>
      rw [show rest' = _ from same.symm] at closes'
      exact absurd closes' (Links.not_closes_kind tier _)
    | link next' more' =>
      simp only [Links.yield, List.cons_append, List.append_assoc, List.cons.injEq, true_and]
        at same
      obtain ⟨rfl, after⟩ := next.unique (more.closes closes) (more'.closes closes') next' same
      obtain ⟨rfl, rfl⟩ := more.unique closes closes' more' after
      exact ⟨rfl, rfl⟩

end

/-- No tokens are derived from a symbol in two ways. -/
theorem Derivation.yield_injective {sym : Symbol} {d d' : Derivation sym}
    (same : d.yield = d'.yield) : d = d' := by
  have closes : Closes sym.rank [] := by simp [Closes]
  exact (d.unique closes closes d' (by rw [same])).1

/-! ## Derivations are phrases -/

/-- Pieces are a run. -/
theorem Piece.atomRun (pieces : List Piece) : AtomRun (yieldAll pieces) := by
  induction pieces with
  | nil => exact .nil
  | cons piece pieces ih =>
    cases piece with
    | word k atomic => exact .word atomic ih
    | application name inner balanced =>
      simpa [yieldAll, yield] using AtomRun.application balanced ih

/-- A run falls into pieces. -/
theorem AtomRun.exists_pieces {ks : List TokenKind} (run : AtomRun ks) :
    ∃ pieces, Piece.yieldAll pieces = ks := by
  induction run with
  | nil => exact ⟨[], rfl⟩
  | word atomic _ ih =>
    obtain ⟨pieces, rfl⟩ := ih
    exact ⟨.word _ atomic :: pieces, rfl⟩
  | @application name inner _ inside _ ih =>
    obtain ⟨pieces, rfl⟩ := ih
    exact ⟨.application name inner inside :: pieces, by simp [Piece.yieldAll, Piece.yield]⟩

/-- An atom is kept as its canonical text. -/
theorem IsAtom.atomTree {ks : List TokenKind} (isAtom : IsAtom ks) :
    atomTree ks = .atom .none (canonicalText (ks.map (·.text))) := by
  unfold Expr.atomTree
  split
  · exact absurd rfl (isAtom.notName _)
  · rfl

/-- A run of words is a phrase with the tree of an atom. -/
theorem AtomRun.phrase {ks : List TokenKind} (run : AtomRun ks) (nonempty : ks ≠ []) :
    Phrase negationRank ks (atomTree ks) := by
  by_cases isName : ∃ name, ks = [.ident name]
  · obtain ⟨name, rfl⟩ := isName
    exact .name name
  · have isAtom : IsAtom ks := ⟨nonempty, fun name same => isName ⟨name, same⟩, run⟩
    rw [isAtom.atomTree]
    exact .atom isAtom

mutual

/-- What is derived from a symbol is a phrase of its rank, with the tree of the derivation. -/
theorem Derivation.phrase {sym : Symbol} : ∀ d : Derivation sym, Phrase sym.rank d.yield d.tree
  | .plain only => only.phrase.looser
  | .implies premise conclusion => .binary .implies premise.phrase conclusion.phrase
  | .chain first more => by
    have operand := first.phrase
    rw [Symbol.rank_operand] at operand
    exact more.phrase operand.looser
  | .not operand => operand.phrase.not
  | .primary inner => inner.phrase
  | .literal value => .lit value
  | .group inside => inside.phrase.looser.group
  | .atom first more => (Piece.atomRun _).phrase (Piece.yieldAll_cons_ne_nil first more)

/-- What is joined to a phrase of the rank of a tier makes another one. -/
theorem Links.phrase {tier : Tier} {ks : List TokenKind} {left : Expr}
    (first : Phrase tier.rank ks left) :
    ∀ links : Links tier, Phrase tier.rank (ks ++ links.yield) (links.tree left)
  | .done => by simpa [Links.yield, Links.tree] using first
  | .link next more => by
    have second := next.phrase
    have joined : Phrase tier.rank (ks ++ tier.kind :: next.yield)
        (.binary .none tier.op left next.tree) := by
      cases tier <;> exact .binary _ first second
    simpa [Links.yield, Links.tree] using more.phrase joined

end

/-- The symbol that stands for the phrases of a rank. -/
def Symbol.ofRank : Nat → Symbol
  | 0 | 1 => expr
  | 2 => chain .or
  | 3 => chain .and
  | 4 => chain .eq
  | _ => unary

/-- One more operand, behind the others of a tier. -/
def Links.snoc {tier : Tier} (next : Derivation tier.operand) : Links tier → Links tier
  | .done => .link next .done
  | .link first more => .link first (more.snoc next)

theorem Links.yield_snoc {tier : Tier} (next : Derivation tier.operand) :
    ∀ links : Links tier, (links.snoc next).yield = links.yield ++ tier.kind :: next.yield
  | .done => by simp [snoc, yield]
  | .link first more => by simp [snoc, yield, more.yield_snoc next]

theorem Links.tree_snoc {tier : Tier} (next : Derivation tier.operand) (left : Expr) :
    ∀ links : Links tier,
      (links.snoc next).tree left = .binary .none tier.op (links.tree left) next.tree
  | .done => by simp [snoc, tree]
  | .link first more => by simp [snoc, tree, more.tree_snoc next]

/-- These tokens are derived from a symbol, with this tree. -/
def Derivable (sym : Symbol) (ks : List TokenKind) (e : Expr) : Prop :=
  ∃ d : Derivation sym, d.yield = ks ∧ d.tree = e

/-- A chain is joined to one more operand. -/
theorem Derivable.link (tier : Tier) {ks ks' : List TokenKind} {left right : Expr}
    (first : Derivable (.chain tier) ks left) (second : Derivable tier.operand ks' right) :
    Derivable (.chain tier) (ks ++ tier.kind :: ks') (.binary .none tier.op left right) := by
  obtain ⟨d, rfl, rfl⟩ := first
  obtain ⟨next, rfl, rfl⟩ := second
  cases d with
  | chain first more =>
    refine ⟨.chain first (more.snoc next), ?_, ?_⟩
    · simp [Derivation.yield, more.yield_snoc]
    · simp [Derivation.tree, more.tree_snoc]

/-- An operand of a tier is a chain of it. -/
theorem Derivable.chain (tier : Tier) {ks : List TokenKind} {e : Expr}
    (only : Derivable tier.operand ks e) : Derivable (.chain tier) ks e := by
  obtain ⟨d, rfl, rfl⟩ := only
  exact ⟨.chain d .done, by simp [Derivation.yield, Links.yield],
    by simp [Derivation.tree, Links.tree]⟩

/-- A run of words is an operand. -/
theorem AtomRun.derivable {ks : List TokenKind} (run : AtomRun ks) (nonempty : ks ≠ []) :
    Derivable .unary ks (atomTree ks) := by
  obtain ⟨pieces, rfl⟩ := run.exists_pieces
  cases pieces with
  | nil => exact absurd rfl nonempty
  | cons first more => exact ⟨.primary (.atom first more), rfl, rfl⟩

/-- Every phrase is derived from the symbol of its rank, with its tree. -/
theorem Phrase.derivable {rank : Nat} {ks : List TokenKind} {e : Expr} (phrase : Phrase rank ks e) :
    Derivable (Symbol.ofRank rank) ks e := by
  induction phrase with
  | @looser rank ks e tighter ih =>
    match rank, ih with
    | 0, ih => exact ih
    | 1, ⟨d, yields, tree⟩ => exact ⟨.plain d, yields, tree⟩
    | 2, ih => exact Derivable.chain .or ih
    | 3, ih => exact Derivable.chain .and ih
    | 4, ih => exact Derivable.chain .eq ih
    | n + 5, ih => exact ih
  | @binary op ks ks' left right _ _ ihLeft ihRight =>
    cases op with
    | implies =>
      obtain ⟨premise, rfl, rfl⟩ := ihLeft
      obtain ⟨conclusion, rfl, rfl⟩ := ihRight
      exact ⟨.implies premise conclusion, rfl, rfl⟩
    | or => exact Derivable.link .or ihLeft ihRight
    | and => exact Derivable.link .and ihLeft ihRight
    | eq => exact Derivable.link .eq ihLeft ihRight
  | not _ ih =>
    obtain ⟨operand, rfl, rfl⟩ := ih
    exact ⟨.not operand, rfl, rfl⟩
  | lit value => exact ⟨.primary (.literal value), rfl, rfl⟩
  | group _ ih =>
    obtain ⟨inside, rfl, rfl⟩ := ih
    exact ⟨.primary (.group inside), rfl, rfl⟩
  | name name => exact AtomRun.derivable (.word rfl .nil) (by simp)
  | @atom ks isAtom =>
    have derivable := isAtom.run.derivable isAtom.nonempty
    rwa [isAtom.atomTree] at derivable

/-- Expressions are derived exactly where they are phrases. -/
theorem derivable_expr_iff {ks : List TokenKind} {e : Expr} :
    Derivable .expr ks e ↔ Phrase 0 ks e := by
  constructor
  · rintro ⟨d, rfl, rfl⟩
    exact d.phrase.looser
  · intro phrase
    exact phrase.derivable

end Expr

end InvariantInference
