import Mathlib
import InvariantInference.Expr.Printer
import InvariantInference.Expr.Parser

/-!
# The grammar of expressions

The grammar as a relation between the kinds of some tokens and the tree that
they spell, without its spans. It is written down apart from the functions that
read: phrases have ranks, which say how tightly they bind, and a phrase of a
higher rank can stand wherever one of a lower rank can.

The same grammar over the tokens themselves also says where the spans of the
tree come from. What is read is such a phrase (`parseNext_placed`), and every
such phrase is read, up to a token that cannot carry it on (`Placed.read`).
-/

namespace InvariantInference

namespace BinOp

/-- The token that spells a connective. -/
def kind : BinOp → TokenKind
  | implies => .implies
  | or => .orOr
  | and => .andAnd
  | eq => .eqEq

end BinOp

namespace Expr

/-! ## Trees without spans -/

/-- The expression as if it stood in no text. -/
def erase : Expr → Expr
  | lit _ value => lit .none value
  | ident _ name => ident .none (.synthetic name.value)
  | atom _ text => atom .none text
  | not _ operand => not .none operand.erase
  | binary _ op left right => binary .none op left.erase right.erase

@[simp] theorem erase_withSpan (span : Span) (e : Expr) : (e.withSpan span).erase = e.erase := by
  cases e <;> rfl

@[simp] theorem erase_combine (op : BinOp) (left right : Expr) :
    (combine op left right).erase = binary .none op left.erase right.erase := rfl

/-! ## The grammar -/

/-- The kinds of arbitrary tokens with matching parentheses. -/
inductive Balanced : List TokenKind → Prop
  | nil : Balanced []
  | word {k : TokenKind} {ks : List TokenKind} (plain : k ≠ .lparen ∧ k ≠ .rparen ∧ k ≠ .eof)
      (rest : Balanced ks) : Balanced (k :: ks)
  | group {inner ks : List TokenKind} (inside : Balanced inner) (rest : Balanced ks) :
      Balanced (.lparen :: (inner ++ .rparen :: ks))

/-- The kinds of a run of identifiers, numbers and operators, in which an
    identifier may be followed by a group. -/
inductive AtomRun : List TokenKind → Prop
  | nil : AtomRun []
  | word {k : TokenKind} {ks : List TokenKind} (atomic : k.isAtomic) (rest : AtomRun ks) :
      AtomRun (k :: ks)
  | application {name : String} {inner ks : List TokenKind} (inside : Balanced inner)
      (rest : AtomRun ks) : AtomRun (.ident name :: .lparen :: (inner ++ .rparen :: ks))

/-- A run starts with an identifier, a number or an operator. -/
theorem AtomRun.head {k : TokenKind} {ks : List TokenKind} (run : AtomRun (k :: ks)) :
    k.isAtomic := by
  cases run with
  | word atomic _ => exact atomic
  | application _ _ => rfl

/-- The kinds of the tokens of an atom: a run that is more than an identifier. -/
structure IsAtom (ks : List TokenKind) : Prop where
  nonempty : ks ≠ []
  notName : ∀ name, ks ≠ [.ident name]
  run : AtomRun ks

/-- The token that spells a truth value. -/
def literalKind (value : Bool) : TokenKind := if value then .litTrue else .litFalse

/-- The tokens of these kinds spell this tree as a phrase of this rank. -/
inductive Phrase : Nat → List TokenKind → Expr → Prop
  | looser {rank : Nat} {ks : List TokenKind} {e : Expr} (tighter : Phrase (rank + 1) ks e) :
      Phrase rank ks e
  | binary (op : BinOp) {ks ks' : List TokenKind} {left right : Expr}
      (first : Phrase op.leftRank ks left) (second : Phrase op.rightRank ks' right) :
      Phrase op.rank (ks ++ op.kind :: ks') (.binary .none op left right)
  | not {ks : List TokenKind} {e : Expr} (operand : Phrase negationRank ks e) :
      Phrase negationRank (.bang :: ks) (.not .none e)
  | lit (value : Bool) : Phrase negationRank [literalKind value] (.lit .none value)
  | group {ks : List TokenKind} {e : Expr} (inside : Phrase 0 ks e) :
      Phrase negationRank (.lparen :: (ks ++ [.rparen])) e
  | name (name : String) : Phrase negationRank [.ident name] (.ident .none (.synthetic name))
  | atom {ks : List TokenKind} (isAtom : IsAtom ks) :
      Phrase negationRank ks (.atom .none (canonicalText (ks.map (·.text))))

/-- No rank is above that of the operand of a negation. -/
theorem Phrase.rank_le {rank : Nat} {ks : List TokenKind} {e : Expr} (phrase : Phrase rank ks e) :
    rank ≤ negationRank := by
  induction phrase with
  | looser _ ih => omega
  | binary op => cases op <;> decide
  | _ => exact Nat.le_refl _

theorem Phrase.mono {rank rank' : Nat} {ks : List TokenKind} {e : Expr}
    (phrase : Phrase rank ks e) (lower : rank' ≤ rank) : Phrase rank' ks e := by
  induction lower with
  | refl => exact phrase
  | step _ ih => exact ih phrase.looser

/-! ## The grammar with its spans -/

/-- The tokens spell this tree as a phrase of this rank, and the spans of the
    tree are theirs. Parentheses widen the span at its root and no other. -/
inductive Placed : Nat → List Token → Expr → Prop
  | looser {rank : Nat} {ts : List Token} {e : Expr} (tighter : Placed (rank + 1) ts e) :
      Placed rank ts e
  | binary (op : BinOp) {t : Token} {ts ts' : List Token} {left right : Expr}
      (first : Placed op.leftRank ts left) (kind : t.kind = op.kind)
      (second : Placed op.rightRank ts' right) :
      Placed op.rank (ts ++ t :: ts') (combine op left right)
  | not {t : Token} {ts : List Token} {e : Expr} (kind : t.kind = .bang)
      (operand : Placed negationRank ts e) :
      Placed negationRank (t :: ts) (.not (t.span.join e.span) e)
  | lit {t : Token} {value : Bool} (kind : t.kind = literalKind value) :
      Placed negationRank [t] (.lit t.span value)
  | group {opening closing : Token} {ts : List Token} {e : Expr} (opens : opening.kind = .lparen)
      (inside : Placed 0 ts e) (closes : closing.kind = .rparen) :
      Placed negationRank (opening :: (ts ++ [closing]))
        (e.withSpan (opening.span.join closing.span))
  | atom {t : Token} {more : List Token} (run : AtomRun ((t :: more).map (·.kind))) :
      Placed negationRank (t :: more) (ofAtomTokens t more)

theorem Placed.mono {rank rank' : Nat} {ts : List Token} {e : Expr} (placed : Placed rank ts e)
    (lower : rank' ≤ rank) : Placed rank' ts e := by
  induction lower with
  | refl => exact placed
  | step _ ih => exact ih placed.looser

theorem erase_ofAtomTokens {t : Token} {more : List Token}
    (isAtom : IsAtom ((t :: more).map (·.kind))) :
    (ofAtomTokens t more).erase =
      .atom .none (canonicalText (((t :: more).map (·.kind)).map (·.text))) := by
  unfold ofAtomTokens
  split
  · rename_i name kind
    exact absurd (by simp [kind]) (isAtom.notName name)
  · simp [erase, Function.comp_def]

theorem erase_ofAtomTokens_name {t : Token} {name : String} (kind : t.kind = .ident name) :
    (ofAtomTokens t []).erase = .ident .none (.synthetic name) := by
  simp [ofAtomTokens, kind, erase]

/-- The tokens of an atom are a phrase. -/
theorem phrase_ofAtomTokens {t : Token} {more : List Token}
    (run : AtomRun ((t :: more).map (·.kind))) :
    Phrase negationRank ((t :: more).map (·.kind)) (ofAtomTokens t more).erase := by
  by_cases isName : ∃ name, (t :: more).map (·.kind) = [.ident name]
  · obtain ⟨name, kinds⟩ := isName
    simp only [List.map_cons, List.cons.injEq, List.map_eq_nil_iff] at kinds
    obtain ⟨kind, rfl⟩ := kinds
    rw [erase_ofAtomTokens_name kind, List.map_cons, kind]
    exact .name name
  · have isAtom : IsAtom ((t :: more).map (·.kind)) :=
      ⟨by simp, fun name kinds => isName ⟨name, kinds⟩, run⟩
    rw [erase_ofAtomTokens isAtom]
    exact .atom isAtom

/-- Without its spans a phrase is one of the kinds of its tokens. -/
theorem Placed.phrase {rank : Nat} {ts : List Token} {e : Expr} (placed : Placed rank ts e) :
    Phrase rank (ts.map (·.kind)) e.erase := by
  induction placed with
  | looser _ ih => exact ih.looser
  | binary op _ kind _ ihFirst ihSecond =>
    rw [List.map_append, List.map_cons, kind, erase_combine]
    exact .binary op ihFirst ihSecond
  | not kind _ ih =>
    rw [List.map_cons, kind]
    exact ih.not
  | @lit t value kind =>
    rw [List.map_singleton, kind]
    exact .lit value
  | group opens _ closes ih =>
    rw [List.map_cons, List.map_append, List.map_singleton, opens, closes, erase_withSpan]
    exact ih.group
  | atom run => exact phrase_ofAtomTokens run

/-- Tokens of the kinds of a phrase spell it with spans. -/
theorem Phrase.placed {rank : Nat} {ks : List TokenKind} {e : Expr} (phrase : Phrase rank ks e)
    {ts : List Token} (kinds : ts.map (·.kind) = ks) : ∃ e', Placed rank ts e' ∧ e'.erase = e := by
  induction phrase generalizing ts with
  | looser _ ih =>
    obtain ⟨e', placed, same⟩ := ih kinds
    exact ⟨e', placed.looser, same⟩
  | binary op _ _ ihFirst ihSecond =>
    obtain ⟨first, more, rfl, firstKinds, rest⟩ := List.map_eq_append_iff.mp kinds
    obtain ⟨t, second, rfl, kind, secondKinds⟩ := List.map_eq_cons_iff.mp rest
    obtain ⟨left, placed, sameLeft⟩ := ihFirst firstKinds
    obtain ⟨right, placed', sameRight⟩ := ihSecond secondKinds
    exact ⟨_, placed.binary op kind placed', by rw [erase_combine, sameLeft, sameRight]⟩
  | not _ ih =>
    obtain ⟨t, more, rfl, kind, kinds⟩ := List.map_eq_cons_iff.mp kinds
    obtain ⟨e', placed, same⟩ := ih kinds
    exact ⟨_, placed.not kind, by rw [erase, same]⟩
  | lit value =>
    obtain ⟨t, rfl, kind⟩ := List.map_eq_singleton_iff.mp kinds
    exact ⟨_, .lit kind, rfl⟩
  | group _ ih =>
    obtain ⟨opening, more, rfl, opens, rest⟩ := List.map_eq_cons_iff.mp kinds
    obtain ⟨inner, more, rfl, innerKinds, rest⟩ := List.map_eq_append_iff.mp rest
    obtain ⟨closing, rfl, closes⟩ := List.map_eq_singleton_iff.mp rest
    obtain ⟨e', placed, same⟩ := ih innerKinds
    exact ⟨_, placed.group opens closes, by rw [erase_withSpan, same]⟩
  | name name =>
    obtain ⟨t, rfl, kind⟩ := List.map_eq_singleton_iff.mp kinds
    refine ⟨_, .atom ?_, erase_ofAtomTokens_name kind⟩
    rw [List.map_singleton, kind]
    exact .word rfl .nil
  | atom isAtom =>
    cases ts with
    | nil => exact absurd kinds.symm isAtom.nonempty
    | cons t more =>
      subst kinds
      exact ⟨_, .atom isAtom.run, erase_ofAtomTokens isAtom⟩

/-! ## Reading atoms -/

/-- How tightly a token joins what stands before it to what comes after it. A
    token that ends every phrase joins nothing; a token that cannot come after
    a phrase counts as tighter than all phrases. -/
def joinRank : TokenKind → Nat
  | .eof | .rparen => 0
  | .implies => BinOp.implies.rank
  | .orOr => BinOp.or.rank
  | .andAnd => BinOp.and.rank
  | .eqEq => BinOp.eq.rank
  | _ => negationRank

/-- Kinds of tokens that do not carry on a phrase of this rank. -/
def Closes (rank : Nat) (ks : List TokenKind) : Prop := ∀ k ∈ ks.head?, joinRank k < max 1 rank

theorem Closes.mono {rank rank' : Nat} {ks : List TokenKind} (closes : Closes rank ks)
    (higher : rank ≤ rank') : Closes rank' ks := by
  intro k member
  have := closes k member
  omega

theorem closes_cons {rank : Nat} {k : TokenKind} {ks : List TokenKind} :
    Closes rank (k :: ks) ↔ joinRank k < max 1 rank := by
  simp [Closes]

/-- Tokens that do not carry on a phrase of this rank. -/
def Follows (rank : Nat) (rest : List Token) : Prop := Closes rank (rest.map (·.kind))

theorem Follows.joinRank_lt {rank : Nat} {rest : List Token} (follows : Follows rank rest)
    {t : Token} (next : t ∈ rest.head?) : joinRank t.kind < max 1 rank :=
  follows t.kind (by simp_all)

/-- A token that does not carry on an atom is none of its words and opens no
    group. -/
theorem isAtomic_of_joinRank_lt {k : TokenKind} (joins : joinRank k < negationRank) :
    k.isAtomic = false ∧ k ≠ .lparen := by
  cases k <;> first | exact absurd joins (Nat.lt_irrefl _) | exact ⟨rfl, by simp⟩

section Steps

variable (last : Span) (t : Token) (ts : List Token)

theorem takeAtom_atomic (afterIdent : Bool) (atomic : t.kind.isAtomic) :
    takeAtom last (.between afterIdent) (t :: ts) =
      (takeAtom last (.between t.kind.isIdent) ts).map (prepend t) := by
  obtain ⟨kind, span⟩ := t
  cases kind <;> first | rfl | cases atomic

theorem takeAtom_open (opens : t.kind = .lparen) :
    takeAtom last (.between true) (t :: ts) = (takeAtom last (.inside 0) ts).map (prepend t) := by
  obtain ⟨kind, span⟩ := t
  cases opens
  rfl

theorem takeAtom_nest (depth : Nat) (opens : t.kind = .lparen) :
    takeAtom last (.inside depth) (t :: ts) =
      (takeAtom last (.inside (depth + 1)) ts).map (prepend t) := by
  obtain ⟨kind, span⟩ := t
  cases opens
  cases depth <;> rfl

theorem takeAtom_unnest (depth : Nat) (closes : t.kind = .rparen) :
    takeAtom last (.inside (depth + 1)) (t :: ts) =
      (takeAtom last (.inside depth) ts).map (prepend t) := by
  obtain ⟨kind, span⟩ := t
  cases closes
  rfl

theorem takeAtom_close (closes : t.kind = .rparen) :
    takeAtom last (.inside 0) (t :: ts) = (takeAtom last (.between false) ts).map (prepend t) := by
  obtain ⟨kind, span⟩ := t
  cases closes
  rfl

theorem takeAtom_within (depth : Nat)
    (plain : t.kind ≠ .lparen ∧ t.kind ≠ .rparen ∧ t.kind ≠ .eof) :
    takeAtom last (.inside depth) (t :: ts) =
      (takeAtom last (.inside depth) ts).map (prepend t) := by
  obtain ⟨kind, span⟩ := t
  cases kind <;> first | (cases depth <;> rfl) | simp at plain

theorem takeAtom_end (depth : Nat) (ends : t.kind = .eof) :
    takeAtom last (.inside depth) (t :: ts) = .error ⟨.unclosedGroup, t.span⟩ := by
  obtain ⟨kind, span⟩ := t
  cases ends
  cases depth <;> rfl

theorem takeAtom_stop (afterIdent : Bool) (word : t.kind.isAtomic = false)
    (opens : afterIdent = true → t.kind ≠ .lparen) :
    takeAtom last (.between afterIdent) (t :: ts) = .ok ([], t :: ts) := by
  rw [takeAtom]
  simp only [word, Bool.false_eq_true, if_false]
  rw [if_neg (fun group => opens group.1 group.2)]

end Steps

/-- Puts tokens in front of those that were taken. -/
def prependAll (ts : List Token) : List Token × List Token → List Token × List Token
  | (taken, rest) => (ts ++ taken, rest)

private theorem map_prepend_prependAll (t : Token) (ts : List Token)
    (r : Except SourceError (List Token × List Token)) :
    (r.map (prependAll ts)).map (prepend t) = r.map (prependAll (t :: ts)) := by
  cases r <;> rfl

private theorem map_prependAll_prependAll (ts ts' : List Token)
    (r : Except SourceError (List Token × List Token)) :
    (r.map (prependAll ts')).map (prependAll ts) = r.map (prependAll (ts ++ ts')) := by
  cases r with
  | error e => rfl
  | ok pair => simp [Except.map, prependAll]

/-- Inside a group tokens with matching parentheses are taken. -/
theorem takeAtom_balanced {last : Span} {inner : List TokenKind} (balanced : Balanced inner)
    {ts rest : List Token} (kinds : ts.map (·.kind) = inner) (depth : Nat) :
    takeAtom last (.inside depth) (ts ++ rest) =
      (takeAtom last (.inside depth) rest).map (prependAll ts) := by
  induction balanced generalizing ts rest depth with
  | nil =>
    rw [List.map_eq_nil_iff] at kinds
    subst kinds
    rw [List.nil_append]
    cases takeAtom last (.inside depth) rest <;> rfl
  | word plain _ ih =>
    obtain ⟨t, ts, rfl, rfl, more⟩ := List.map_eq_cons_iff.mp kinds
    rw [List.cons_append, takeAtom_within _ _ _ _ plain, ih more, map_prepend_prependAll]
  | group _ _ ihInside ihRest =>
    obtain ⟨opening, ts, rfl, opens, kinds⟩ := List.map_eq_cons_iff.mp kinds
    obtain ⟨inside, ts, rfl, inner', kinds⟩ := List.map_eq_append_iff.mp kinds
    obtain ⟨closing, ts, rfl, closes, more⟩ := List.map_eq_cons_iff.mp kinds
    rw [List.cons_append, takeAtom_nest _ _ _ _ opens, List.append_assoc, ihInside inner',
      List.cons_append, takeAtom_unnest _ _ _ _ closes, ihRest more, map_prepend_prependAll,
      map_prepend_prependAll, map_prependAll_prependAll]
    rfl

/-- A run is taken whole where a token comes that does not carry it on. -/
theorem takeAtom_run {last : Span} {ks : List TokenKind} (run : AtomRun ks) {ts rest : List Token}
    (kinds : ts.map (·.kind) = ks) (follows : Follows negationRank rest) (afterIdent : Bool) :
    takeAtom last (.between afterIdent) (ts ++ rest) = .ok (ts, rest) := by
  induction run generalizing ts afterIdent with
  | nil =>
    rw [List.map_eq_nil_iff] at kinds
    subst kinds
    cases rest with
    | nil => rfl
    | cons t rest =>
      obtain ⟨notAtomic, notOpen⟩ := isAtomic_of_joinRank_lt (closes_cons.mp follows)
      simp [takeAtom, notAtomic, notOpen]
  | word atomic _ ih =>
    obtain ⟨t, ts, rfl, rfl, more⟩ := List.map_eq_cons_iff.mp kinds
    rw [List.cons_append, takeAtom_atomic _ _ _ _ atomic, ih more]
    rfl
  | application inside _ ih =>
    obtain ⟨head, ts, rfl, named, kinds⟩ := List.map_eq_cons_iff.mp kinds
    obtain ⟨opening, ts, rfl, opens, kinds⟩ := List.map_eq_cons_iff.mp kinds
    obtain ⟨within, ts, rfl, inner', kinds⟩ := List.map_eq_append_iff.mp kinds
    obtain ⟨closing, ts, rfl, closes, more⟩ := List.map_eq_cons_iff.mp kinds
    have atomic : head.kind.isAtomic := by rw [named]; rfl
    have afterName : head.kind.isIdent = true := by rw [named]; rfl
    rw [List.cons_append, takeAtom_atomic _ _ _ _ atomic, afterName, List.cons_append,
      takeAtom_open _ _ _ opens, List.append_assoc, takeAtom_balanced inside inner',
      List.cons_append, takeAtom_close _ _ _ closes, ih more]
    simp [Except.map, prepend, prependAll]

/-- The kinds that complete an atom from some place in it on. -/
inductive Completes : AtomPlace → List TokenKind → Prop
  | run {afterIdent : Bool} {ks : List TokenKind} (run : AtomRun ks) :
      Completes (.between afterIdent) ks
  | group {ks : List TokenKind} (inside : Completes (.inside 0) ks) :
      Completes (.between true) (.lparen :: ks)
  | close {inner ks : List TokenKind} (balanced : Balanced inner) (run : AtomRun ks) :
      Completes (.inside 0) (inner ++ .rparen :: ks)
  | unnest {depth : Nat} {inner ks : List TokenKind} (balanced : Balanced inner)
      (outer : Completes (.inside depth) ks) :
      Completes (.inside (depth + 1)) (inner ++ .rparen :: ks)

/-- Outside an identifier's group a run completes the atom, or a group and a run. -/
theorem Completes.between {afterIdent : Bool} {ks : List TokenKind}
    (completes : Completes (.between afterIdent) ks) :
    AtomRun ks ∨ afterIdent = true ∧
      ∃ inner ks', Balanced inner ∧ AtomRun ks' ∧ ks = .lparen :: (inner ++ .rparen :: ks') := by
  cases completes with
  | run run => exact .inl run
  | group inside =>
    cases inside with
    | close balanced run => exact .inr ⟨rfl, _, _, balanced, run, rfl⟩

/-- A word and what completes the atom after it are a run. -/
theorem Completes.atomRun {k : TokenKind} {ks : List TokenKind} (atomic : k.isAtomic)
    (completes : Completes (.between k.isIdent) ks) : AtomRun (k :: ks) := by
  rcases completes.between with run | ⟨isIdent, inner, ks', balanced, run, rfl⟩
  · exact .word atomic run
  · cases k with
    | ident name => exact .application balanced run
    | _ => cases isIdent

/-- Any other token may stand in front of what completes a group. -/
theorem Completes.within {depth : Nat} {k : TokenKind} {ks : List TokenKind}
    (plain : k ≠ .lparen ∧ k ≠ .rparen ∧ k ≠ .eof) (completes : Completes (.inside depth) ks) :
    Completes (.inside depth) (k :: ks) := by
  cases completes with
  | close balanced run => exact .close (balanced.word plain) run
  | unnest balanced outer => exact .unnest (balanced.word plain) outer

/-- What completes a nested group and the one around it, completes the outer one
    from the parenthesis on that opens the inner one. -/
theorem Completes.nest {depth : Nat} {ks : List TokenKind}
    (completes : Completes (.inside (depth + 1)) ks) :
    Completes (.inside depth) (.lparen :: ks) := by
  cases completes with
  | unnest balanced outer =>
    cases outer with
    | close balanced' run => simpa using Completes.close (balanced.group balanced') run
    | unnest balanced' outer' => simpa using Completes.unnest (balanced.group balanced') outer'

/-- The tokens that are taken complete the atom. -/
theorem takeAtom_completes {last : Span} {place : AtomPlace} {ts taken rest : List Token}
    (result : takeAtom last place ts = .ok (taken, rest)) :
    Completes place (taken.map (·.kind)) := by
  induction ts generalizing place taken with
  | nil =>
    cases place with
    | between afterIdent =>
      simp only [takeAtom, Except.ok.injEq, Prod.mk.injEq] at result
      obtain ⟨rfl, -⟩ := result
      exact .run .nil
    | inside depth => simp [takeAtom] at result
  | cons t ts ih =>
    -- A token that is taken stands in front of what is taken after it.
    have taking : ∀ {place'}, (takeAtom last place' ts).map (prepend t) = .ok (taken, rest) →
        ∃ more, taken = t :: more ∧ Completes place' (more.map (·.kind)) := by
      intro place' mapped
      obtain ⟨more, read, same⟩ := map_prepend_eq_ok_iff.mp mapped
      exact ⟨more, same, ih read⟩
    cases place with
    | between afterIdent =>
      by_cases atomic : t.kind.isAtomic
      · rw [takeAtom_atomic _ _ _ _ atomic] at result
        obtain ⟨more, rfl, completes⟩ := taking result
        exact .run (completes.atomRun atomic)
      by_cases opens : afterIdent = true ∧ t.kind = .lparen
      · obtain ⟨rfl, kind⟩ := opens
        rw [takeAtom_open _ _ _ kind] at result
        obtain ⟨more, rfl, completes⟩ := taking result
        rw [List.map_cons, kind]
        exact .group completes
      · rw [takeAtom_stop _ _ _ _ (by simpa using atomic) (fun after kind => opens ⟨after, kind⟩)]
          at result
        simp only [Except.ok.injEq, Prod.mk.injEq] at result
        obtain ⟨rfl, -⟩ := result
        exact .run .nil
    | inside depth =>
      by_cases ends : t.kind = .eof
      · rw [takeAtom_end _ _ _ _ ends] at result
        cases result
      by_cases opens : t.kind = .lparen
      · rw [takeAtom_nest _ _ _ _ opens] at result
        obtain ⟨more, rfl, completes⟩ := taking result
        rw [List.map_cons, opens]
        exact completes.nest
      by_cases closes : t.kind = .rparen
      · cases depth with
        | zero =>
          rw [takeAtom_close _ _ _ closes] at result
          obtain ⟨more, rfl, completes⟩ := taking result
          rcases completes.between with run | ⟨afterIdent, -⟩
          · rw [List.map_cons, closes]
            exact .close .nil run
          · cases afterIdent
        | succ depth =>
          rw [takeAtom_unnest _ _ _ _ closes] at result
          obtain ⟨more, rfl, completes⟩ := taking result
          rw [List.map_cons, closes]
          exact .unnest .nil completes
      · rw [takeAtom_within _ _ _ _ ⟨opens, closes, ends⟩] at result
        obtain ⟨more, rfl, completes⟩ := taking result
        exact completes.within ⟨opens, closes, ends⟩

end Expr

end InvariantInference
