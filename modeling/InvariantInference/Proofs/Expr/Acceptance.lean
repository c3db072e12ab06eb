import Mathlib
import InvariantInference.Clause
import InvariantInference.Proofs.Except
import InvariantInference.Proofs.Expr.Derivation
import InvariantInference.Proofs.Expr.RoundTrip

/-!
# What the parser accepts

The tokens before an end marker are read exactly if they are derived from an
expression, and as the tree of their derivation.

Whatever tokens there are, with an end marker or without one, reading keeps to
them. What it leaves is the end of what it was given, it has consumed something
and no end marker, and where it fails it points at one of the tokens or at their
end.
-/

namespace InvariantInference

namespace Expr

variable {last : Span} {tier : Tier} {ts rest : List Token} {e left : Expr} {error : SourceError}

/-! ## What is consumed -/

/-- Something was consumed, but no end marker, and `rest` is left. -/
def Consumes (ts rest : List Token) : Prop :=
  ∃ taken, taken ≠ [] ∧ ts = taken ++ rest ∧ ∀ t ∈ taken, t.kind ≠ .eof

theorem kind_ne_eof (unended : .eof ∉ ts.map (·.kind)) : ∀ t ∈ ts, t.kind ≠ .eof := by
  intro t member ends
  have listed : t.kind ∈ ts.map (·.kind) := List.mem_map_of_mem member
  rw [ends] at listed
  exact unended listed

/-- There is something to read in every phrase. -/
theorem Phrase.ne_nil {rank : Nat} {ks : List TokenKind} {e : Expr} (phrase : Phrase rank ks e) :
    ks ≠ [] := by
  induction phrase with
  | looser _ ih => exact ih
  | atom isAtom => exact isAtom.nonempty
  | _ => simp

/-- Reading a phrase consumes its tokens. -/
theorem Spells.consumes {rank : Nat} (spells : Spells rank ts rest e) : Consumes ts rest := by
  obtain ⟨taken, same, placed⟩ := spells
  exact ⟨taken, fun empty => placed.phrase.ne_nil (by rw [empty]; rfl), same,
    kind_ne_eof placed.phrase.eof_notMem⟩

/-- What is left is the end of what there was. -/
theorem Consumes.isSuffix (consumes : Consumes ts rest) : rest <:+ ts := by
  obtain ⟨taken, -, rfl, -⟩ := consumes
  exact List.suffix_append taken rest

theorem parseNext_consumes (read : parseNext last ts = .ok (e, rest)) : Consumes ts rest :=
  (parseNext_placed read).consumes

theorem readChain_consumes (read : readChain last tier ts = .ok (e, rest)) : Consumes ts rest := by
  rw [← readAt_rank] at read
  exact ((readsOnly last ts.length).1.chains tier ts rest e le_rfl read).consumes

theorem readUnary_consumes (read : readUnary last ts = .ok (e, rest)) : Consumes ts rest :=
  ((readsOnly last ts.length).1 ts rest e le_rfl read).consumes

theorem readOperand_consumes (read : readOperand last tier ts = .ok (e, rest)) :
    Consumes ts rest := by
  rw [readOperand_eq] at read
  cases tier with
  | or => exact readChain_consumes read
  | and => exact readChain_consumes read
  | eq => exact readUnary_consumes read

/-- What completes an atom holds no end marker. -/
theorem Completes.eof_notMem {place : AtomPlace} {ks : List TokenKind}
    (completes : Completes place ks) : .eof ∉ ks := by
  induction completes with
  | run run => exact run.eof_notMem
  | group _ ih => simp [ih]
  | close balanced run => simp [balanced.eof_notMem, run.eof_notMem]
  | unnest balanced _ ih => simp [balanced.eof_notMem, ih]

/-- A group is completed by its parenthesis at least. -/
theorem Completes.ne_nil {depth : Nat} {ks : List TokenKind}
    (completes : Completes (.inside depth) ks) : ks ≠ [] := by
  cases completes <;> simp

/-! ## Where errors point -/

/-- The error points at one of the tokens, or at their end. -/
def Blames (last : Span) (ts : List Token) (error : SourceError) : Prop :=
  error.span = last ∨ ∃ t ∈ ts, error.span = t.span

theorem Blames.of_suffix (blames : Blames last rest error) (suffix : rest <:+ ts) :
    Blames last ts error := by
  rcases blames with atEnd | ⟨t, member, same⟩
  · exact .inl atEnd
  · exact .inr ⟨t, suffix.mem member, same⟩

theorem Blames.cons {t : Token} (blames : Blames last ts error) : Blames last (t :: ts) error :=
  blames.of_suffix (List.suffix_cons t ts)

theorem blames_head (last : Span) (t : Token) (ts : List Token) (fault : SourceFault) :
    Blames last (t :: ts) ⟨fault, t.span⟩ := .inr ⟨t, by simp, rfl⟩

theorem blames_end (last : Span) (ts : List Token) (fault : SourceFault) :
    Blames last ts ⟨fault, last⟩ := .inl rfl

/-- Reading an expression fails in its first chain, or behind its arrow. -/
theorem parseNext_error (failed : parseNext last ts = .error error) :
    readChain last .or ts = .error error ∨
      ∃ left t mid, readChain last .or ts = .ok (left, t :: mid) ∧
        parseNext last mid = .error error := by
  rw [parseNext_eq] at failed
  rcases bind_eq_error_iff.mp failed with first | ⟨⟨left, mid⟩, read, failed⟩
  · exact .inl first
  · cases mid with
    | nil => cases failed
    | cons t mid =>
      refine .inr ⟨left, t, mid, read, ?_⟩
      by_cases implies : t.kind = .implies
      · simp only [implies, if_true] at failed
        rcases bind_eq_error_iff.mp failed with behind | ⟨right, -, impossible⟩
        · exact behind
        · cases impossible
      · simp only [implies, if_false] at failed
        cases failed

/-- Reading a chain fails in its first operand, or in what is joined to it. -/
theorem readChain_error (failed : readChain last tier ts = .error error) :
    readOperand last tier ts = .error error ∨
      ∃ left mid, readOperand last tier ts = .ok (left, mid) ∧
        readLinks last tier left mid = .error error := by
  rw [readChain_eq] at failed
  rcases bind_eq_error_iff.mp failed with first | ⟨⟨left, mid⟩, read, failed⟩
  · exact .inl first
  · exact .inr ⟨left, mid, read, failed⟩

/-- Reading what is joined to an operand fails in the next operand, or in what is joined to both. -/
theorem readLinks_error (failed : readLinks last tier left ts = .error error) :
    ∃ t ts', ts = t :: ts' ∧
      (readOperand last tier ts' = .error error ∨
        ∃ right mid, readOperand last tier ts' = .ok (right, mid) ∧
          readLinks last tier (combine tier.op left right) mid = .error error) := by
  cases ts with
  | nil =>
    rw [readLinks_nil] at failed
    cases failed
  | cons t ts =>
    refine ⟨t, ts, rfl, ?_⟩
    rw [readLinks_cons] at failed
    by_cases same : t.kind = tier.kind
    · rw [if_pos same] at failed
      rcases bind_eq_error_iff.mp failed with next | ⟨⟨right, mid⟩, read, failed⟩
      · exact .inl next
      · exact .inr ⟨right, mid, read, failed⟩
    · rw [if_neg same] at failed
      cases failed

/-- Reading an atom fails at one of its tokens, or at their end. -/
theorem takeAtom_blames {place : AtomPlace} (failed : takeAtom last place ts = .error error) :
    Blames last ts error := by
  induction ts generalizing place with
  | nil =>
    cases place with
    | between afterIdent => cases failed
    | inside depth =>
      cases failed
      exact blames_end last [] _
  | cons t ts ih =>
    -- Behind a token that is taken, whatever fails does so among the tokens after it.
    have later : ∀ {place'}, (takeAtom last place' ts).map (prepend t) = .error error →
        Blames last (t :: ts) error := by
      intro place' mapped
      refine Blames.cons (@ih place' ?_)
      cases read : takeAtom last place' ts with
      | error error' => simpa [read, Except.map] using mapped
      | ok pair => simp [read, Except.map] at mapped
    cases place with
    | between afterIdent =>
      by_cases atomic : t.kind.isAtomic
      · rw [takeAtom_atomic _ _ _ _ atomic] at failed
        exact later failed
      by_cases opens : afterIdent = true ∧ t.kind = .lparen
      · obtain ⟨rfl, kind⟩ := opens
        rw [takeAtom_open _ _ _ kind] at failed
        exact later failed
      · rw [takeAtom_stop _ _ _ _ (by simpa using atomic) (fun after kind => opens ⟨after, kind⟩)]
          at failed
        cases failed
    | inside depth =>
      by_cases ends : t.kind = .eof
      · rw [takeAtom_end _ _ _ _ ends] at failed
        cases failed
        exact blames_head last t ts _
      by_cases opens : t.kind = .lparen
      · rw [takeAtom_nest _ _ _ _ opens] at failed
        exact later failed
      by_cases closes : t.kind = .rparen
      · cases depth with
        | zero =>
          rw [takeAtom_close _ _ _ closes] at failed
          exact later failed
        | succ depth =>
          rw [takeAtom_unnest _ _ _ _ closes] at failed
          exact later failed
      · rw [takeAtom_within _ _ _ _ ⟨opens, closes, ends⟩] at failed
        exact later failed

/-- Every failure to read a phrase of this rank from at most `size` tokens points at one of them, or
    at their end. -/
def FailsWithin (last : Span) (rank size : Nat) : Prop :=
  ∀ ts error, ts.length ≤ size → readAt last rank ts = .error error → Blames last ts error

/-- So does every failure to read what is joined to an operand, if those of operands do. -/
theorem readLinks_blames {size : Nat} (operands : FailsWithin last (tier.rank + 1) size)
    (short : ts.length ≤ size) (failed : readLinks last tier left ts = .error error) :
    Blames last ts error := by
  -- On the number of tokens, as each operand that is read leaves fewer of them.
  induction length : ts.length using Nat.strong_induction_on generalizing ts left with
  | _ n ih =>
    obtain ⟨t, ts, rfl, failed | ⟨right, mid, read, failed⟩⟩ := readLinks_error failed
    · rw [List.length_cons] at short
      rw [← readAt_rank_succ] at failed
      exact (operands ts error (by omega) failed).cons
    · have suffix := (readOperand_consumes read).isSuffix
      have fewer := suffix.length_le
      rw [List.length_cons] at length short
      exact ((ih mid.length (by omega) (by omega) failed rfl).of_suffix suffix).cons

theorem FailsWithin.chain {size : Nat} (operands : FailsWithin last (tier.rank + 1) size) :
    FailsWithin last tier.rank size := by
  intro ts error short failed
  rw [readAt_rank] at failed
  rcases readChain_error failed with failed | ⟨left, mid, read, failed⟩
  · rw [← readAt_rank_succ] at failed
    exact operands ts error short failed
  · have suffix := (readOperand_consumes read).isSuffix
    have fewer := suffix.length_le
    exact (readLinks_blames operands (by omega) failed).of_suffix suffix

theorem FailsWithin.chains {size : Nat} (unaries : FailsWithin last negationRank size)
    (tier : Tier) : FailsWithin last tier.rank size :=
  Tier.rank_induction (P := fun rank => FailsWithin last rank size) unaries
    (fun _ => FailsWithin.chain) tier

theorem FailsWithin.expression {size : Nat} (chains : FailsWithin last 2 size)
    (fewer : ∀ n < size, FailsWithin last 1 n) : FailsWithin last 1 size := by
  intro ts error short failed
  rcases parseNext_error failed with failed | ⟨left, t, mid, read, failed⟩
  · exact chains ts error short failed
  · have suffix := (readChain_consumes read).isSuffix
    have shorter := suffix.length_le
    rw [List.length_cons] at shorter
    exact ((fewer mid.length (by omega) mid error le_rfl failed).cons).of_suffix suffix

/-- Reading a negation or a primary expression fails at its first token, or in what stands
    inside it. -/
theorem readUnary_error {t : Token} (failed : readUnary last (t :: ts) = .error error) :
    error.span = t.span ∨ readUnary last ts = .error error ∨ parseNext last ts = .error error ∨
      (∃ inner mid, parseNext last ts = .ok (inner, mid) ∧ Blames last mid error) ∨
      takeAtom last (.between t.kind.isIdent) ts = .error error := by
  rw [readUnary_cons] at failed
  -- A negation, the two truth values, a group, and an atom or what starts none of them.
  split at failed
  · rcases bind_eq_error_iff.mp failed with operand | ⟨read, -, impossible⟩
    · exact .inr (.inl operand)
    · cases impossible
  · cases failed
  · cases failed
  · refine .inr (.inr ?_)
    rcases bind_eq_error_iff.mp failed with inside | ⟨⟨inner, mid⟩, read, failed⟩
    · exact .inl inside
    · refine .inr (.inl ⟨inner, mid, read, ?_⟩)
      cases mid with
      | nil =>
        cases failed
        exact blames_end last [] _
      | cons close mid =>
        by_cases closes : close.kind = .rparen
        · simp only [closes, if_true] at failed
          cases failed
        · simp only [closes, if_false] at failed
          cases failed
          exact blames_head last close mid _
  · split at failed
    · rcases bind_eq_error_iff.mp failed with taken | ⟨read, -, impossible⟩
      · exact .inr (.inr (.inr (.inr taken)))
      · cases impossible
    · cases failed
      exact .inl rfl

theorem readUnary_blames (operands : FailsWithin last negationRank ts.length)
    (inside : FailsWithin last 1 ts.length) {t : Token}
    (failed : readUnary last (t :: ts) = .error error) : Blames last (t :: ts) error := by
  rcases readUnary_error failed with here | failed | failed | ⟨inner, mid, read, blames⟩ | failed
  · exact .inr ⟨t, by simp, here⟩
  · exact (operands ts error le_rfl failed).cons
  · exact (inside ts error le_rfl failed).cons
  · exact (blames.of_suffix (parseNext_consumes read).isSuffix).cons
  · exact (takeAtom_blames failed).cons

/-- Failures to read negations and primary expressions, and whole expressions, point at one of the
    tokens or at their end. -/
theorem failsWithin (last : Span) (size : Nat) :
    FailsWithin last negationRank size ∧ FailsWithin last 1 size := by
  induction size using Nat.strong_induction_on with
  | _ size ih =>
    have unaries : FailsWithin last negationRank size := by
      intro ts error short failed
      cases ts with
      | nil =>
        change readUnary last [] = .error error at failed
        rw [readUnary_nil] at failed
        cases failed
        exact blames_end last [] _
      | cons t ts =>
        obtain ⟨operands, inside⟩ := ih ts.length short
        exact readUnary_blames operands inside failed
    exact ⟨unaries, .expression (unaries.chains .or) fun n fewer => (ih n fewer).2⟩

/-! ## Reading keeps to its tokens -/

/-- A result that keeps to the tokens it was read from. -/
structure Confined (last : Span) (ts : List Token)
    (result : Except SourceError (Expr × List Token)) : Prop where
  consumes : ∀ e rest, result = .ok (e, rest) → Consumes ts rest
  blames : ∀ error, result = .error error → Blames last ts error

theorem confined_parseNext (last : Span) (ts : List Token) :
    Confined last ts (parseNext last ts) where
  consumes _ _ read := parseNext_consumes read
  blames error failed := (failsWithin last ts.length).2 ts error le_rfl failed

theorem confined_readChain (last : Span) (tier : Tier) (ts : List Token) :
    Confined last ts (readChain last tier ts) where
  consumes _ _ read := readChain_consumes read
  blames error failed := by
    rw [← readAt_rank] at failed
    exact (failsWithin last ts.length).1.chains tier ts error le_rfl failed

theorem confined_readUnary (last : Span) (ts : List Token) :
    Confined last ts (readUnary last ts) where
  consumes _ _ read := readUnary_consumes read
  blames error failed := (failsWithin last ts.length).1 ts error le_rfl failed

/-- A result that keeps to the tokens of an atom from some place on. Between its words the atom may
    end at once; a group does not. -/
structure ConfinedAtom (last : Span) (place : AtomPlace) (ts : List Token)
    (result : Except SourceError (List Token × List Token)) : Prop where
  splits : ∀ taken rest, result = .ok (taken, rest) → ts = taken ++ rest
  unended : ∀ taken rest, result = .ok (taken, rest) → ∀ t ∈ taken, t.kind ≠ .eof
  nonempty : ∀ taken rest, result = .ok (taken, rest) →
    (∃ depth, place = .inside depth) → taken ≠ []
  blames : ∀ error, result = .error error → Blames last ts error

theorem confinedAtom_takeAtom (last : Span) (place : AtomPlace) (ts : List Token) :
    ConfinedAtom last place ts (takeAtom last place ts) where
  splits taken rest read := (takeAtom_append read).symm
  unended taken rest read := kind_ne_eof (takeAtom_completes read).eof_notMem
  nonempty taken rest read := by
    rintro ⟨depth, rfl⟩ rfl
    exact (takeAtom_completes read).ne_nil rfl
  blames error failed := takeAtom_blames failed

/-- A result of reading all tokens up to an end marker. -/
structure ConfinedWhole {α : Type} (ts : List Token) (result : Except SourceError α) : Prop where
  consumes : ∀ value, result = .ok value →
    ∃ stop rest, stop.kind = .eof ∧ Consumes ts (stop :: rest)
  blames : ∀ error, result = .error error → Blames (Token.lastSpan ts) ts error

/-- Nothing but an end marker ends what is read. -/
theorem expectEnd_eq_ok_iff {u : Unit} :
    Token.expectEnd last ts = .ok u ↔ ∃ stop rest, ts = stop :: rest ∧ stop.kind = .eof := by
  cases ts with
  | nil => simp [Token.expectEnd]
  | cons t ts => simp [Token.expectEnd]

theorem expectEnd_blames (failed : Token.expectEnd last ts = .error error) :
    Blames last ts error := by
  cases ts with
  | nil =>
    cases failed
    exact blames_end last [] _
  | cons t ts =>
    by_cases ends : t.kind = .eof
    · simp [Token.expectEnd, ends] at failed
    · simp only [Token.expectEnd, ends, if_false, Except.error.injEq] at failed
      rw [← failed]
      exact blames_head last t ts _

theorem ConfinedWhole.of_blames {α : Type} (blames : Blames (Token.lastSpan ts) ts error) :
    ConfinedWhole ts (.error error : Except SourceError α) where
  consumes value read := by cases read
  blames error' failed := by
    cases failed
    exact blames

/-- Something and an end marker are read whole. -/
theorem confinedWhole_expectEnd {α : Type} (taken rest : List Token)
    (nonempty : taken ≠ []) (unended : ∀ t ∈ taken, t.kind ≠ .eof) (value : α) :
    ConfinedWhole (taken ++ rest) (do
      Token.expectEnd (Token.lastSpan (taken ++ rest)) rest
      return value) := by
  constructor
  · intro value' read
    obtain ⟨u, ended, -⟩ := bind_eq_ok_iff.mp read
    obtain ⟨stop, rest, rfl, ends⟩ := expectEnd_eq_ok_iff.mp ended
    exact ⟨stop, rest, ends, taken, nonempty, rfl, unended⟩
  · intro error failed
    rcases bind_eq_error_iff.mp failed with failed | ⟨u, -, failed⟩
    · exact (expectEnd_blames failed).of_suffix (List.suffix_append taken rest)
    · cases failed

/-- So is an expression between some words and an end marker. -/
theorem confinedWhole_parseNext {α : Type} {skipped : List Token} (body : List Token)
    (skips : ∀ t ∈ skipped, t.kind ≠ .eof) (finish : Expr → α) :
    ConfinedWhole (skipped ++ body) (do
      let (e, rest) ← parseNext (Token.lastSpan (skipped ++ body)) body
      Token.expectEnd (Token.lastSpan (skipped ++ body)) rest
      return finish e) := by
  have confined := confined_parseNext (Token.lastSpan (skipped ++ body)) body
  cases read : parseNext (Token.lastSpan (skipped ++ body)) body with
  | error error =>
    exact .of_blames ((confined.blames error read).of_suffix (List.suffix_append skipped body))
  | ok result =>
    obtain ⟨e, rest⟩ := result
    obtain ⟨taken, nonempty, rfl, unended⟩ := confined.consumes e rest read
    have whole := confinedWhole_expectEnd (skipped ++ taken) rest (by simp [nonempty])
      (List.forall_mem_append.mpr ⟨skips, unended⟩) (finish e)
    rw [List.append_assoc] at whole
    exact whole

theorem confinedWhole_expr (ts : List Token) : ConfinedWhole ts (ofTokens ts) :=
  confinedWhole_parseNext ts (List.forall_mem_nil _) id

theorem confinedWhole_contract (ts : List Token) : ConfinedWhole ts (Contract.ofTokens ts) := by
  unfold Contract.ofTokens
  split
  · rename_i span body
    have skips : ∀ t ∈ [Token.mk .free span], t.kind ≠ .eof := by simp
    exact confinedWhole_parseNext body skips
      fun condition => Contract.mk (span.join condition.span) true condition
  · exact confinedWhole_parseNext ts (List.forall_mem_nil _)
      fun condition => Contract.mk condition.span false condition

theorem confinedWhole_command (ts : List Token) : ConfinedWhole ts (Command.ofTokens ts) := by
  unfold Command.ofTokens
  split
  · exact .of_blames (blames_end _ _ _)
  · rename_i span operands
    split
    · exact .of_blames (blames_end _ _ _)
    · rename_i name nameSpan rest
      have skips : ∀ t ∈ [Token.mk .call span, ⟨.ident name, nameSpan⟩], t.kind ≠ .eof := by simp
      exact confinedWhole_expectEnd _ rest (by simp) skips
        (Command.call (span.join nameSpan) ⟨nameSpan, name⟩)
    · exact .of_blames (blames_head _ _ _ _).cons
  · rename_i span body
    have skips : ∀ t ∈ [Token.mk .assert span], t.kind ≠ .eof := by simp
    exact confinedWhole_parseNext body skips
      fun condition => Command.assert (span.join condition.span) condition
  · rename_i span body
    have skips : ∀ t ∈ [Token.mk .assume span], t.kind ≠ .eof := by simp
    exact confinedWhole_parseNext body skips
      fun condition => Command.assume (span.join condition.span) condition
  · exact .of_blames (blames_head _ _ _ _)

/-! ## The parser accepts exactly its grammar -/

/-- What is read before the only end marker is a phrase of all the tokens there. -/
theorem phrase_of_ofTokens {stop : Token} (plain : ∀ t ∈ ts, t.kind ≠ .eof)
    (read : ofTokens (ts ++ [stop]) = .ok e) : Phrase 0 (ts.map (·.kind)) e.erase := by
  simp only [ofTokens, bind_eq_ok_iff] at read
  obtain ⟨⟨e', rest⟩, read, u, ended, same⟩ := read
  cases same
  obtain ⟨marker, more, rfl, marks⟩ := expectEnd_eq_ok_iff.mp ended
  obtain ⟨taken, split, phrase⟩ := parseNext_phrase read
  -- The marker that ended the reading is `stop`, as there is none before it.
  rcases List.append_eq_append_iff.mp split with ⟨between, rfl, tail⟩ | ⟨between, rfl, tail⟩
  · cases between with
    | nil => simpa using phrase
    | cons t between => simp at tail
  · cases between with
    | nil => simpa using phrase
    | cons t between =>
      obtain ⟨rfl, -⟩ := List.cons.inj tail
      exact absurd marks (plain marker (by simp))

/-- The tokens before an end marker are read exactly if they are derived from an expression, which
    they are in one way at most, and they are read as the tree of their derivation. Whatever tokens
    there are, reading keeps to them: the result consumes something and no end marker, and an error
    points at one of the tokens or at their end. -/
theorem parser_accepts_exactly_grammar :
    (∀ (ts : List Token) (stop : Token), (∀ t ∈ ts, t.kind ≠ .eof) → stop.kind = .eof →
      ((∃ e, ofTokens (ts ++ [stop]) = .ok e) ↔
        ∃ d : Derivation .expr, d.yield = ts.map (·.kind)) ∧
      (∀ d d' : Derivation .expr, d.yield = ts.map (·.kind) → d'.yield = ts.map (·.kind) →
        d = d') ∧
      ∀ (e : Expr) (d : Derivation .expr), ofTokens (ts ++ [stop]) = .ok e →
        d.yield = ts.map (·.kind) → e.erase = d.tree) ∧
    ∀ (last : Span) (ts : List Token),
      Confined last ts (parseNext last ts) ∧
      (∀ tier, Confined last ts (readChain last tier ts)) ∧
      Confined last ts (readUnary last ts) ∧
      (∀ place, ConfinedAtom last place ts (takeAtom last place ts)) ∧
      ConfinedWhole ts (ofTokens ts) ∧
      ConfinedWhole ts (Contract.ofTokens ts) ∧
      ConfinedWhole ts (Command.ofTokens ts) := by
  constructor
  case right =>
    intro last ts
    exact ⟨confined_parseNext last ts, fun tier => confined_readChain last tier ts,
      confined_readUnary last ts, fun place => confinedAtom_takeAtom last place ts,
      confinedWhole_expr ts, confinedWhole_contract ts, confinedWhole_command ts⟩
  intro ts stop plain ends
  have accepted : ∀ e, ofTokens (ts ++ [stop]) = .ok e →
      ∃ d : Derivation .expr, d.yield = ts.map (·.kind) ∧ d.tree = e.erase := by
    intro e read
    exact derivable_expr_iff.mpr (phrase_of_ofTokens plain read)
  refine ⟨⟨?_, ?_⟩, ?_, ?_⟩
  · intro ⟨e, read⟩
    obtain ⟨d, yields, -⟩ := accepted e read
    exact ⟨d, yields⟩
  · intro ⟨d, yields⟩
    obtain ⟨e, read, -⟩ := d.phrase.looser.read_whole yields.symm ends
    exact ⟨e, read⟩
  · intro d d' yields yields'
    exact Derivation.yield_injective (yields.trans yields'.symm)
  · intro e d read yields
    obtain ⟨d', yields', tree⟩ := accepted e read
    obtain rfl := Derivation.yield_injective (yields.trans yields'.symm)
    exact tree.symm

/-- `p ==> f(x) > 0 && !q`, derived. -/
def guardedBound : Derivation .expr :=
  .implies
    (.chain (.chain (.chain (.primary (.atom (.word (.ident "p") rfl) [])) .done) .done) .done)
    (.plain (.chain (.chain
      (.chain (.primary (.atom (.application "f" [.ident "x"] (.word (by decide) .nil))
        [.word (.op ">") rfl, .word (.int "0") rfl])) .done)
      (.link (.chain (.not (.primary (.atom (.word (.ident "q") rfl) []))) .done) .done)) .done))

theorem parser_accepts_exactly_grammar_guardedBound :
    (∃ e, ofTokens ([.ident "p", .implies, .ident "f", .lparen, .ident "x", .rparen, .op ">",
        .int "0", .andAnd, .bang, .ident "q", .eof].map (Token.mk · .none)) = .ok e ∧
      e.erase = .binary .none .implies (.ident .none (.synthetic "p"))
        (.binary .none .and (.atom .none "f(x) > 0")
          (.not .none (.ident .none (.synthetic "q"))))) ∧
    ∀ d : Derivation .expr, d.yield ≠ [.ident "p", .implies] := by
  have accepts := parser_accepts_exactly_grammar.1
  constructor
  · obtain ⟨derived, -, tree⟩ := accepts (guardedBound.yield.map (Token.mk · .none))
      ⟨.eof, .none⟩ (by decide) rfl
    obtain ⟨e, read⟩ := derived.mpr ⟨guardedBound, rfl⟩
    exact ⟨e, read, tree e guardedBound read rfl⟩
  · intro d yields
    obtain ⟨derived, -⟩ := accepts ([.ident "p", .implies].map (Token.mk · .none))
      ⟨.eof, .none⟩ (by decide) rfl
    obtain ⟨e, read⟩ := derived.mpr ⟨d, yields⟩
    have refused : ofTokens ([.ident "p", .implies, .eof].map (Token.mk · .none)) =
        .error ⟨.noExpression, .none⟩ := by cbv
    cases refused.symm.trans read

end Expr

end InvariantInference
