import Mathlib
import InvariantInference.Proofs.Except
import InvariantInference.Proofs.Expr.Grammar

/-!
# Reading phrases

What each function that reads an expression returns, in terms of the functions
that it calls. From this follow the two directions between reading and the
grammar: a phrase is read back as its tree where a token comes that does not
carry it on, and what is read is a phrase.
-/

namespace InvariantInference

namespace Expr

/-! ## The functions that read -/

variable {last : Span} {tier : Tier} {ts rest : List Token} {e left : Expr}

/-- The operands of a tier at the head of `ts`, joined, and the tokens after them. -/
def readChain (last : Span) (tier : Tier) (ts : List Token) :
    Except SourceError (Expr × List Token) := (chain last tier ts).map (·.val)

/-- The operands after `left`, joined to it, and the tokens after them. -/
def readLinks (last : Span) (tier : Tier) (left : Expr) (ts : List Token) :
    Except SourceError (Expr × List Token) := (links last tier left ts).map (·.val)

/-- One operand of a tier at the head of `ts`, and the tokens after it. -/
def readOperand (last : Span) (tier : Tier) (ts : List Token) :
    Except SourceError (Expr × List Token) := (operand last tier ts).map (·.val)

/-- A negation or a primary expression at the head of `ts`, and the tokens after it. -/
def readUnary (last : Span) (ts : List Token) : Except SourceError (Expr × List Token) :=
  (unary last ts).map (·.val)

/-- Something is made of what was read, and the same tokens are left. -/
theorem bind_make_eq_ok_iff {α β : Type} {read : Except SourceError (α × List Token)}
    (make : α → β) {result : β} :
    (read >>= fun r => .ok (make r.1, r.2)) = .ok (result, rest) ↔
      ∃ value, read = .ok (value, rest) ∧ result = make value := by
  rw [bind_eq_ok_iff]
  constructor
  · rintro ⟨⟨value, left⟩, found, same⟩
    cases same
    exact ⟨value, found, rfl⟩
  · rintro ⟨value, found, rfl⟩
    exact ⟨(value, rest), found, rfl⟩

/-- An expression is a chain, and behind an arrow another expression. -/
theorem parseNext_eq (last : Span) (ts : List Token) :
    parseNext last ts = readChain last .or ts >>= fun read =>
      match read.2 with
      | [] => .ok read
      | t :: rest =>
        if t.kind = .implies then
          parseNext last rest >>= fun read' => .ok (combine .implies read.1 read'.1, read'.2)
        else .ok read := by
  simp only [parseNext, readChain]
  rw [implication]
  rcases chain last .or ts with error | ⟨⟨left, mid⟩, shorter⟩
  · rfl
  · cases mid with
    | nil => rfl
    | cons t mid =>
      by_cases implies : t.kind = .implies
      · rcases read : implication last mid with error | ⟨⟨right, rest⟩, shorter'⟩
        · simp [Except.map, implies, read, bind, Except.bind]
        · simp [Except.map, implies, read, bind, Except.bind]
      · simp [Except.map, implies, bind, Except.bind]

/-- An expression is a chain, or an implication between a chain and an expression. -/
theorem parseNext_eq_ok_iff :
    parseNext last ts = .ok (e, rest) ↔
      ∃ left mid, readChain last .or ts = .ok (left, mid) ∧
        (e = left ∧ rest = mid ∧ (∀ t ∈ mid.head?, t.kind ≠ .implies) ∨
          ∃ t mid' right, mid = t :: mid' ∧ t.kind = .implies ∧
            parseNext last mid' = .ok (right, rest) ∧ e = combine .implies left right) := by
  rw [parseNext_eq, bind_eq_ok_iff, Prod.exists]
  refine exists_congr fun left => exists_congr fun mid => and_congr_right fun _ => ?_
  cases mid with
  | nil => simp [eq_comm]
  | cons t mid =>
    by_cases implies : t.kind = .implies
    · simp [implies, bind_make_eq_ok_iff]
    · simp [implies, eq_comm (a := e), eq_comm (a := rest)]

/-- A chain is an operand and what is joined to it. -/
theorem readChain_eq (last : Span) (tier : Tier) (ts : List Token) :
    readChain last tier ts =
      readOperand last tier ts >>= fun read => readLinks last tier read.1 read.2 := by
  simp only [readChain, readOperand, readLinks]
  rw [chain]
  rcases operand last tier ts with error | ⟨⟨left, mid⟩, shorter⟩
  · rfl
  · rcases linked : links last tier left mid with error | ⟨⟨e, rest⟩, noLonger⟩
    · simp [Except.map, linked, bind, Except.bind]
    · simp [Except.map, linked, bind, Except.bind]

theorem readChain_eq_ok_iff :
    readChain last tier ts = .ok (e, rest) ↔
      ∃ left mid, readOperand last tier ts = .ok (left, mid) ∧
        readLinks last tier left mid = .ok (e, rest) := by
  rw [readChain_eq, bind_eq_ok_iff, Prod.exists]

theorem readLinks_nil (last : Span) (tier : Tier) (left : Expr) :
    readLinks last tier left [] = .ok (left, []) := by
  rw [readLinks, links]
  rfl

theorem readLinks_cons (last : Span) (tier : Tier) (left : Expr) (t : Token) (ts : List Token) :
    readLinks last tier left (t :: ts) =
      if t.kind = tier.kind then
        readOperand last tier ts >>= fun read =>
          readLinks last tier (combine tier.op left read.1) read.2
      else .ok (left, t :: ts) := by
  simp only [readOperand, readLinks]
  rw [links]
  by_cases same : t.kind = tier.kind
  · rcases operand last tier ts with error | ⟨⟨right, mid⟩, shorter⟩
    · simp [Except.map, same, bind, Except.bind]
    · rcases linked : links last tier (combine tier.op left right) mid with
        error | ⟨⟨e, rest⟩, noLonger⟩
      · simp [Except.map, same, linked, bind, Except.bind]
      · simp [Except.map, same, linked, bind, Except.bind]
  · simp [Except.map, same]

/-- What is joined to an operand: nothing, or an operand behind the connective of
    the tier and what is joined to both. -/
theorem readLinks_eq_ok_iff :
    readLinks last tier left ts = .ok (e, rest) ↔
      (e = left ∧ rest = ts ∧ ∀ t ∈ ts.head?, t.kind ≠ tier.kind) ∨
        ∃ t ts' right mid, ts = t :: ts' ∧ t.kind = tier.kind ∧
          readOperand last tier ts' = .ok (right, mid) ∧
          readLinks last tier (combine tier.op left right) mid = .ok (e, rest) := by
  cases ts with
  | nil =>
    rw [readLinks_nil]
    simp [eq_comm]
  | cons t ts =>
    rw [readLinks_cons]
    by_cases same : t.kind = tier.kind
    · simp [same, bind_eq_ok_iff]
    · simp [same, eq_comm]

/-- The operands of a tier are the chains of the next tighter one. -/
theorem readOperand_eq (last : Span) (tier : Tier) (ts : List Token) :
    readOperand last tier ts =
      match tier with
      | .or => readChain last .and ts
      | .and => readChain last .eq ts
      | .eq => readUnary last ts := by
  simp only [readOperand]
  cases tier <;> rw [operand] <;> rfl

theorem readUnary_nil (last : Span) : readUnary last [] = .error ⟨.endOfInput, last⟩ := by
  rw [readUnary, unary]
  rfl

theorem readUnary_cons (last : Span) (t : Token) (ts : List Token) :
    readUnary last (t :: ts) =
      match t.kind with
      | .bang =>
        readUnary last ts >>= fun read => .ok (not (t.span.join read.1.span) read.1, read.2)
      | .litTrue => .ok (lit t.span true, ts)
      | .litFalse => .ok (lit t.span false, ts)
      | .lparen =>
        parseNext last ts >>= fun read =>
          match read.2 with
          | [] => .error ⟨.endOfInput, last⟩
          | close :: rest =>
            if close.kind = .rparen then
              .ok (read.1.withSpan (t.span.join close.span), rest)
            else .error ⟨.unclosedParenthesis, close.span⟩
      | kind =>
        if kind.isAtomic then
          takeAtom last (.between kind.isIdent) ts >>= fun read =>
            .ok (ofAtomTokens t read.1, read.2)
        else .error ⟨.noExpression, t.span⟩ := by
  obtain ⟨kind, span⟩ := t
  simp only [readUnary, parseNext]
  rw [unary.eq_def]
  cases kind with
  | bang =>
    simp only
    rcases unary last ts with error | ⟨⟨operand, rest⟩, shorter⟩ <;> rfl
  | litTrue | litFalse => rfl
  | lparen =>
    simp only
    rcases implication last ts with error | ⟨⟨inner, mid⟩, shorter⟩
    · rfl
    · cases mid with
      | nil => rfl
      | cons close mid =>
        by_cases closes : close.kind = .rparen
        · simp [Except.map, closes, bind, Except.bind]
        · simp [Except.map, closes, bind, Except.bind]
  | op | int | ident =>
    simp only [TokenKind.isAtomic, if_true]
    split <;> (rename_i taken; simp [Except.map, taken, bind, Except.bind])
  | _ => rfl

theorem readUnary_bang {t : Token} (kind : t.kind = .bang) :
    readUnary last (t :: ts) = .ok (e, rest) ↔
      ∃ operand, readUnary last ts = .ok (operand, rest) ∧
        e = not (t.span.join operand.span) operand := by
  rw [readUnary_cons, kind]
  exact bind_make_eq_ok_iff fun operand => not (t.span.join operand.span) operand

theorem readUnary_literal {t : Token} {value : Bool} (kind : t.kind = literalKind value) :
    readUnary last (t :: ts) = .ok (e, rest) ↔ e = lit t.span value ∧ rest = ts := by
  cases value <;> simp [readUnary_cons, kind, literalKind, eq_comm]

theorem readUnary_lparen {t : Token} (kind : t.kind = .lparen) :
    readUnary last (t :: ts) = .ok (e, rest) ↔
      ∃ inner close, parseNext last ts = .ok (inner, close :: rest) ∧ close.kind = .rparen ∧
        e = inner.withSpan (t.span.join close.span) := by
  simp only [readUnary_cons, kind, bind_eq_ok_iff, Prod.exists]
  constructor
  · rintro ⟨inner, mid, read, closed⟩
    cases mid with
    | nil => cases closed
    | cons close mid =>
      by_cases closes : close.kind = .rparen
      · simp only [closes, if_true] at closed
        cases closed
        exact ⟨inner, close, read, closes, rfl⟩
      · simp only [closes, if_false] at closed
        cases closed
  · rintro ⟨inner, close, read, closes, rfl⟩
    exact ⟨inner, close :: rest, read, if_pos closes⟩

theorem readUnary_atomic {t : Token} (atomic : t.kind.isAtomic) :
    readUnary last (t :: ts) = .ok (e, rest) ↔
      ∃ more, takeAtom last (.between t.kind.isIdent) ts = .ok (more, rest) ∧
        e = ofAtomTokens t more := by
  rw [readUnary_cons]
  obtain ⟨kind, span⟩ := t
  cases kind <;> first | exact bind_make_eq_ok_iff _ | cases atomic

/-! ## Phrases are read -/

namespace Tier

/-- The rank of the connective of a tier. -/
def rank (tier : Tier) : Nat := tier.op.rank

/-- The token of a tier joins at its rank. -/
theorem joinRank_kind (tier : Tier) : joinRank tier.kind = tier.rank := by cases tier <;> rfl

/-- No other token joins at the rank of a tier. -/
theorem kind_of_joinRank {tier : Tier} {k : TokenKind} (joins : joinRank k < tier.rank) :
    k ≠ tier.kind := by
  rintro rfl
  rw [joinRank_kind] at joins
  exact Nat.lt_irrefl _ joins

/-- What holds of negations, and of a tier if it holds of its operands, holds of every tier. -/
theorem rank_induction {P : Nat → Prop} (unaries : P negationRank)
    (chain : ∀ tier : Tier, P (tier.rank + 1) → P tier.rank) (tier : Tier) : P tier.rank := by
  have equations : P Tier.eq.rank := chain .eq unaries
  have conjunctions : P Tier.and.rank := chain .and equations
  cases tier with
  | or => exact chain .or conjunctions
  | and => exact conjunctions
  | eq => exact equations

end Tier

/-- Reads a phrase of some rank. -/
def readAt (last : Span) (rank : Nat) (ts : List Token) : Except SourceError (Expr × List Token) :=
  match rank with
  | 0 | 1 => parseNext last ts
  | 2 => readChain last .or ts
  | 3 => readChain last .and ts
  | 4 => readChain last .eq ts
  | _ => readUnary last ts

/-- The chains of a tier are the phrases of its rank. -/
theorem readAt_rank (last : Span) (tier : Tier) (ts : List Token) :
    readAt last tier.rank ts = readChain last tier ts := by cases tier <;> rfl

/-- The operands of a tier are the phrases of the next rank. -/
theorem readAt_rank_succ (last : Span) (tier : Tier) (ts : List Token) :
    readAt last (tier.rank + 1) ts = readOperand last tier ts := by
  rw [readOperand_eq]
  cases tier <;> rfl

/-- The tokens are read as this tree wherever no token carries it on. -/
def ReadsAt (rank : Nat) (ts : List Token) (e : Expr) : Prop :=
  ∀ (last : Span) (rest : List Token), Follows rank rest →
    readAt last rank (ts ++ rest) = .ok (e, rest)

/-- The tokens are read as this tree, and then what is joined to it in this tier.
    Unlike `ReadsAt` this allows the connective of the tier to come next, as it
    does after the left operand of a chain. -/
def Leads (tier : Tier) (ts : List Token) (e : Expr) : Prop :=
  ∀ (last : Span) (rest : List Token), Follows (tier.rank + 1) rest →
    ∀ result, readLinks last tier e rest = .ok result →
      readChain last tier (ts ++ rest) = .ok result

/-- An operand leads a chain. -/
theorem ReadsAt.leads (reads : ReadsAt (tier.rank + 1) ts e) : Leads tier ts e := by
  intro last rest follows result linked
  have read := reads last rest follows
  rw [readAt_rank_succ] at read
  exact readChain_eq_ok_iff.mpr ⟨e, rest, read, linked⟩

/-- What leads a chain is read whole where nothing is joined to it. -/
theorem Leads.readsAt (leads : Leads tier ts e) : ReadsAt tier.rank ts e := by
  intro last rest follows
  rw [readAt_rank]
  apply leads last rest (follows.mono (Nat.le_succ _))
  refine readLinks_eq_ok_iff.mpr (.inl ⟨rfl, rfl, ?_⟩)
  intro t member
  have positive : 1 ≤ tier.rank := by cases tier <;> decide
  have joins := follows.joinRank_lt member
  rw [Nat.max_eq_right positive] at joins
  exact Tier.kind_of_joinRank joins

variable {t : Token} {ts' : List Token} {right : Expr}

/-- What leads a chain can be joined to one more operand. -/
theorem Leads.link (leads : Leads tier ts left) (kind : t.kind = tier.kind)
    (reads : ReadsAt (tier.rank + 1) ts' right) :
    Leads tier (ts ++ t :: ts') (combine tier.op left right) := by
  intro last rest follows result linked
  have read := reads last rest follows
  rw [readAt_rank_succ] at read
  have joins : joinRank t.kind < max 1 (tier.rank + 1) := by
    rw [kind, Tier.joinRank_kind]
    omega
  rw [List.append_assoc, List.cons_append]
  apply leads last (t :: (ts' ++ rest)) (closes_cons.mpr joins)
  exact readLinks_eq_ok_iff.mpr (.inr ⟨t, ts' ++ rest, right, rest, rfl, kind, read, linked⟩)

/-- A chain is read as an expression where no implication follows. -/
theorem ReadsAt.expression (reads : ReadsAt 2 ts e) : ReadsAt 1 ts e := by
  intro last rest follows
  have read := reads last rest (follows.mono (by decide))
  refine parseNext_eq_ok_iff.mpr ⟨e, rest, read, .inl ⟨rfl, rfl, ?_⟩⟩
  intro t member implies
  have joins := follows.joinRank_lt member
  rw [implies] at joins
  exact absurd joins (by decide)

/-- An implication is read from its premise and its conclusion. -/
theorem ReadsAt.implies (first : ReadsAt 2 ts left) (kind : t.kind = .implies)
    (second : ReadsAt 1 ts' right) : ReadsAt 1 (ts ++ t :: ts') (combine .implies left right) := by
  intro last rest follows
  have joins : joinRank t.kind < max 1 2 := by
    rw [kind]
    decide
  have readFirst := first last (t :: (ts' ++ rest)) (closes_cons.mpr joins)
  rw [List.append_assoc, List.cons_append]
  exact parseNext_eq_ok_iff.mpr ⟨left, _, readFirst,
    .inr ⟨t, ts' ++ rest, right, rfl, kind, second last rest follows, rfl⟩⟩

/-- An expression is read in parentheses, whatever follows them. -/
theorem ReadsAt.group {opening closing : Token} (opens : opening.kind = .lparen)
    (inside : ReadsAt 0 ts e) (closes : closing.kind = .rparen) :
    ReadsAt negationRank (opening :: (ts ++ [closing]))
      (e.withSpan (opening.span.join closing.span)) := by
  intro last rest _
  have joins : joinRank closing.kind < max 1 0 := by
    rw [closes]
    decide
  have read := inside last (closing :: rest) (closes_cons.mpr joins)
  rw [List.cons_append, List.append_assoc, List.singleton_append]
  exact (readUnary_lparen opens).mpr ⟨e, closing, read, closes, rfl⟩

/-- A negation is read from its operand. -/
theorem ReadsAt.not (kind : t.kind = .bang) (operand : ReadsAt negationRank ts e) :
    ReadsAt negationRank (t :: ts) (.not (t.span.join e.span) e) := by
  intro last rest follows
  exact (readUnary_bang kind).mpr ⟨e, operand last rest follows, rfl⟩

/-- An atom is read from its tokens. -/
theorem readsAt_atom (run : AtomRun ((t :: ts).map (·.kind))) :
    ReadsAt negationRank (t :: ts) (ofAtomTokens t ts) := by
  intro last rest follows
  have whole : takeAtom last (.between false) (t :: ts ++ rest) = .ok (t :: ts, rest) :=
    takeAtom_run run rfl follows false
  rw [List.cons_append, takeAtom_atomic _ _ _ _ run.head, map_prepend_eq_ok_iff] at whole
  obtain ⟨more, taken, same⟩ := whole
  rw [List.cons.injEq] at same
  rw [← same.2] at taken
  exact (readUnary_atomic run.head).mpr ⟨ts, taken, rfl⟩

/-- Every phrase is read back as its tree. A phrase of the rank of a tier also
    leads a chain of that tier, which is what the induction needs for left
    operands. -/
theorem Placed.read {rank : Nat} (placed : Placed rank ts e) :
    ReadsAt rank ts e ∧ ∀ tier : Tier, tier.rank = rank → Leads tier ts e := by
  have noTier : ∀ {P : Tier → Prop} (tier : Tier), tier.rank = negationRank → P tier := by
    intro P tier same
    cases tier <;> exact absurd same (by decide)
  induction placed with
  | @looser rank ts e tighter ih =>
    have small := tighter.phrase.rank_le
    have chains : ∀ tier : Tier, tier.rank = rank → Leads tier ts e := by
      rintro tier rfl
      exact ih.1.leads
    refine ⟨?_, chains⟩
    match rank, small with
    | 0, _ => exact ih.1
    | 1, _ => exact ih.1.expression
    | 2, _ => exact (chains .or rfl).readsAt
    | 3, _ => exact (chains .and rfl).readsAt
    | 4, _ => exact (chains .eq rfl).readsAt
    | n + 5, small => exact absurd small (by simp [negationRank])
  | @binary op t ts ts' left right _ kind _ ihLeft ihRight =>
    have chain : ∀ tier : Tier, tier.op = op →
        Leads tier (ts ++ t :: ts') (combine op left right) := by
      rintro tier rfl
      have leads : Leads tier ts left := ihLeft.2 tier (by cases tier <;> rfl)
      have reads : ReadsAt (tier.rank + 1) ts' right := by cases tier <;> exact ihRight.1
      cases tier <;> exact leads.link kind reads
    cases op with
    | implies =>
      refine ⟨ihLeft.1.implies kind ihRight.1, fun tier same => ?_⟩
      cases tier <;> exact absurd same (by decide)
    | or =>
      refine ⟨(chain .or rfl).readsAt, fun tier same => ?_⟩
      cases tier <;> first | exact chain .or rfl | exact absurd same (by decide)
    | and =>
      refine ⟨(chain .and rfl).readsAt, fun tier same => ?_⟩
      cases tier <;> first | exact chain .and rfl | exact absurd same (by decide)
    | eq =>
      refine ⟨(chain .eq rfl).readsAt, fun tier same => ?_⟩
      cases tier <;> first | exact chain .eq rfl | exact absurd same (by decide)
  | not kind _ ih => exact ⟨ih.1.not kind, noTier⟩
  | lit kind => exact ⟨fun _ _ _ => (readUnary_literal kind).mpr ⟨rfl, rfl⟩, noTier⟩
  | group opens _ closes ih => exact ⟨ih.1.group opens closes, noTier⟩
  | atom run => exact ⟨readsAt_atom run, noTier⟩

/-- Tokens spell no two trees. -/
theorem Placed.unique {rank : Nat} {e' : Expr} (placed : Placed rank ts e)
    (placed' : Placed rank ts e') : e = e' := by
  have read := placed.read.1 .none [] (by simp [Follows, Closes])
  have read' := placed'.read.1 .none [] (by simp [Follows, Closes])
  rw [read] at read'
  cases read'
  rfl

/-- A phrase before an end marker is read whole, with the spans of its tokens. -/
theorem Placed.read_whole {stop : Token} (placed : Placed 0 ts e) (ends : stop.kind = .eof) :
    ofTokens (ts ++ [stop]) = .ok e := by
  have joins : joinRank stop.kind < max 1 0 := by
    rw [ends]
    decide
  have read := placed.read.1 (Token.lastSpan (ts ++ [stop])) [stop] (closes_cons.mpr joins)
  change parseNext _ _ = _ at read
  simp [ofTokens, read, Token.expectEnd, ends, bind, Except.bind, pure, Except.pure]

/-- A phrase before an end marker is read whole, up to its spans. -/
theorem Phrase.read_whole {ks : List TokenKind} (phrase : Phrase 0 ks e) {stop : Token}
    (kinds : ts.map (·.kind) = ks) (ends : stop.kind = .eof) :
    ∃ e', ofTokens (ts ++ [stop]) = .ok e' ∧ e'.erase = e := by
  obtain ⟨e', placed, same⟩ := phrase.placed kinds
  exact ⟨e', placed.read_whole ends, same⟩

/-! ## What is read is a phrase -/

/-- The tokens before `rest` spell the tree as a phrase of this rank. -/
def Spells (rank : Nat) (ts rest : List Token) (e : Expr) : Prop :=
  ∃ taken, ts = taken ++ rest ∧ Placed rank taken e

/-- Whatever is read from at most `size` tokens is a phrase of this rank. -/
def ReadsOnly (last : Span) (rank size : Nat) : Prop :=
  ∀ ts rest e, ts.length ≤ size → readAt last rank ts = .ok (e, rest) → Spells rank ts rest e

/-- What is joined to a phrase of the rank of a tier makes another one. -/
theorem readLinks_placed {size : Nat} (operands : ReadsOnly last (tier.rank + 1) size)
    {before : List Token} (short : ts.length ≤ size) (first : Placed tier.rank before left)
    (linked : readLinks last tier left ts = .ok (e, rest)) :
    ∃ taken, ts = taken ++ rest ∧ Placed tier.rank (before ++ taken) e := by
  -- On the number of tokens; each operand that is joined leaves fewer of them.
  induction length : ts.length using Nat.strong_induction_on generalizing ts left before with
  | _ n ih =>
    rcases readLinks_eq_ok_iff.mp linked with
      ⟨rfl, rfl, -⟩ | ⟨t, ts, right, mid, rfl, kind, read, more⟩
    · exact ⟨[], rfl, by simpa using first⟩
    · rw [List.length_cons] at length short
      rw [← readAt_rank_succ] at read
      obtain ⟨taken, rfl, second⟩ := operands ts mid right (by omega) read
      rw [List.length_append] at length short
      have joined : Placed tier.rank (before ++ t :: taken) (combine tier.op left right) := by
        cases tier <;> exact Placed.binary _ first kind second
      obtain ⟨taken', rfl, placed⟩ := ih mid.length (by omega) (by omega) joined more rfl
      exact ⟨t :: (taken ++ taken'), by simp, by simpa using placed⟩

/-- Chains are phrases if their operands are. -/
theorem ReadsOnly.chain {size : Nat} (operands : ReadsOnly last (tier.rank + 1) size) :
    ReadsOnly last tier.rank size := by
  intro ts rest e short read
  rw [readAt_rank, readChain_eq_ok_iff] at read
  obtain ⟨left, mid, read, linked⟩ := read
  rw [← readAt_rank_succ] at read
  obtain ⟨taken, rfl, first⟩ := operands ts mid left short read
  rw [List.length_append] at short
  obtain ⟨taken', rfl, placed⟩ := readLinks_placed operands (by omega) first.looser linked
  exact ⟨taken ++ taken', by simp, placed⟩

/-- Chains are phrases if negations and primary expressions are. -/
theorem ReadsOnly.chains {size : Nat} (unaries : ReadsOnly last negationRank size) (tier : Tier) :
    ReadsOnly last tier.rank size :=
  Tier.rank_induction (P := fun rank => ReadsOnly last rank size) unaries
    (fun _ => ReadsOnly.chain) tier

/-- Expressions are phrases if chains are, and the expressions of fewer tokens. -/
theorem ReadsOnly.expression {size : Nat} (chains : ReadsOnly last 2 size)
    (fewer : ∀ n < size, ReadsOnly last 1 n) : ReadsOnly last 1 size := by
  intro ts rest e short read
  obtain ⟨left, mid, read, result⟩ := parseNext_eq_ok_iff.mp read
  obtain ⟨taken, rfl, first⟩ := chains ts mid left short read
  rcases result with ⟨rfl, rfl, -⟩ | ⟨t, mid, right, rfl, kind, readRight, rfl⟩
  · exact ⟨taken, rfl, first.looser⟩
  · rw [List.length_append, List.length_cons] at short
    obtain ⟨taken', rfl, second⟩ := fewer mid.length (by omega) mid rest right le_rfl readRight
    exact ⟨taken ++ t :: taken', by simp, .binary .implies first kind second⟩

/-- Nothing else starts a negation or a primary expression. -/
theorem readUnary_other {t : Token} (other : t.kind ≠ .bang ∧ t.kind ≠ .litTrue ∧
    t.kind ≠ .litFalse ∧ t.kind ≠ .lparen) (word : t.kind.isAtomic = false) :
    readUnary last (t :: ts) = .error ⟨.noExpression, t.span⟩ := by
  rw [readUnary_cons]
  obtain ⟨kind, span⟩ := t
  cases kind <;> simp_all [TokenKind.isAtomic]

/-- Negations and primary expressions are phrases if what stands inside them is. -/
theorem readUnary_placed (operands : ReadsOnly last negationRank ts.length)
    (inside : ReadsOnly last 1 ts.length) {t : Token}
    (read : readUnary last (t :: ts) = .ok (e, rest)) : Spells negationRank (t :: ts) rest e := by
  by_cases bang : t.kind = .bang
  · obtain ⟨operand, readOperand, rfl⟩ := (readUnary_bang bang).mp read
    obtain ⟨taken, rfl, placed⟩ := operands ts rest operand le_rfl readOperand
    exact ⟨t :: taken, rfl, placed.not bang⟩
  by_cases literal : ∃ value, t.kind = literalKind value
  · obtain ⟨value, kind⟩ := literal
    obtain ⟨rfl, rfl⟩ := (readUnary_literal kind).mp read
    exact ⟨[t], rfl, .lit kind⟩
  by_cases opens : t.kind = .lparen
  · obtain ⟨inner, close, readInner, closes, rfl⟩ := (readUnary_lparen opens).mp read
    obtain ⟨taken, rfl, placed⟩ := inside ts (close :: rest) inner le_rfl readInner
    exact ⟨t :: (taken ++ [close]), by simp, placed.looser.group opens closes⟩
  by_cases atomic : t.kind.isAtomic
  · obtain ⟨more, taken, rfl⟩ := (readUnary_atomic atomic).mp read
    refine ⟨t :: more, by simp [takeAtom_append taken], .atom ?_⟩
    exact (takeAtom_completes taken).atomRun atomic
  · rw [readUnary_other ⟨bang, fun kind => literal ⟨true, kind⟩,
      fun kind => literal ⟨false, kind⟩, opens⟩ (by simpa using atomic)] at read
    cases read

/-- Whatever is read is a phrase: negations and primary expressions, and whole
    expressions. -/
theorem readsOnly (last : Span) (size : Nat) :
    ReadsOnly last negationRank size ∧ ReadsOnly last 1 size := by
  induction size using Nat.strong_induction_on with
  | _ size ih =>
    have unaries : ReadsOnly last negationRank size := by
      intro ts rest e short read
      cases ts with
      | nil =>
        change readUnary last [] = .ok (e, rest) at read
        rw [readUnary_nil] at read
        cases read
      | cons t ts =>
        obtain ⟨operands, inside⟩ := ih ts.length short
        exact readUnary_placed operands inside read
    exact ⟨unaries, .expression (unaries.chains .or) fun n fewer => (ih n fewer).2⟩

/-- What is read as an expression is a phrase of the tokens that are left out. -/
theorem parseNext_placed (read : parseNext last ts = .ok (e, rest)) : Spells 0 ts rest e := by
  obtain ⟨taken, same, placed⟩ := (readsOnly last ts.length).2 ts rest e le_rfl read
  exact ⟨taken, same, placed.looser⟩

theorem parseNext_phrase (read : parseNext last ts = .ok (e, rest)) :
    ∃ taken, ts = taken ++ rest ∧ Phrase 0 (taken.map (·.kind)) e.erase := by
  obtain ⟨taken, same, placed⟩ := parseNext_placed read
  exact ⟨taken, same, placed.phrase⟩

end Expr

end InvariantInference
