import Mathlib
import InvariantInference.Proofs.Expr.Spans

/-!
# Reading a text elsewhere

What a text is read as does not depend on where it stands. Tokens that are
moved are read as the same expression, contract or command with all spans moved
along, and where reading fails it fails in the same way at the moved place.
Reading takes its spans from tokens only, at the end of the tokens from the
last one; there is one at least, as every text has an end.
-/

namespace InvariantInference

/-- A result of reading moved `base` bytes to the right: its value is moved by `move`. -/
def shiftResult {α β : Type} (base : Nat) (move : α → β) (result : Except SourceError α) :
    Except SourceError β := (result.map move).mapError (SourceError.shift base)

/-- What two computations do one after the other is moved if each of them is. -/
theorem shiftResult_bind {α β γ δ : Type} {base : Nat} {move : α → γ} {move' : β → δ}
    {first : Except SourceError α} {first' : Except SourceError γ}
    {next : α → Except SourceError β} {next' : γ → Except SourceError δ}
    (before : first' = shiftResult base move first)
    (after : ∀ value, first = .ok value → next' (move value) = shiftResult base move' (next value)) :
    (first' >>= next') = shiftResult base move' (first >>= next) := by
  subst before
  cases first with
  | error error => rfl
  | ok value => exact after value rfl

namespace Expr

variable {base : Nat} {last : Span} {tier : Tier} {ts : List Token}

/-! ## Moved tokens -/

/-- What was read and what is left, moved. -/
def shiftRead (base : Nat) (read : Expr × List Token) : Expr × List Token :=
  (read.1.shift base, read.2.map (Token.shift base))

/-- What an atom takes and what it leaves, moved. -/
def shiftTaken (base : Nat) (taken : List Token × List Token) : List Token × List Token :=
  (taken.1.map (Token.shift base), taken.2.map (Token.shift base))

theorem takeAtom_shift (base : Nat) (last : Span) (place : AtomPlace) (ts : List Token) :
    takeAtom (last.shift base) place (ts.map (Token.shift base)) =
      shiftResult base (shiftTaken base) (takeAtom last place ts) := by
  induction ts generalizing place with
  | nil => cases place <;> rfl
  | cons t ts ih =>
    have later : ∀ {place'},
        (takeAtom (last.shift base) place' (ts.map (Token.shift base))).map
            (prepend (t.shift base)) =
          shiftResult base (shiftTaken base) ((takeAtom last place' ts).map (prepend t)) := by
      intro place'
      rw [ih place']
      cases takeAtom last place' ts <;> rfl
    -- The kind of the token and the place decide alone whether it is taken.
    obtain ⟨kind, span⟩ := t
    cases place with
    | between afterIdent => cases afterIdent <;> cases kind <;> first | exact later | rfl
    | inside depth => cases depth <;> cases kind <;> first | exact later | rfl

/-- Phrases of this rank are read alike from at most `size` tokens and from the same tokens
    moved. -/
def Shifts (base : Nat) (last : Span) (rank size : Nat) : Prop :=
  ∀ ts : List Token, ts.length ≤ size →
    readAt (last.shift base) rank (ts.map (Token.shift base)) =
      shiftResult base (shiftRead base) (readAt last rank ts)

theorem readLinks_shift {size : Nat} (operands : Shifts base last (tier.rank + 1) size)
    (left : Expr) (short : ts.length ≤ size) :
    readLinks (last.shift base) tier (left.shift base) (ts.map (Token.shift base)) =
      shiftResult base (shiftRead base) (readLinks last tier left ts) := by
  -- On the number of tokens, as each operand that is read leaves fewer of them.
  induction length : ts.length using Nat.strong_induction_on generalizing ts left with
  | _ n ih =>
    cases ts with
    | nil =>
      rw [List.map_nil, readLinks_nil, readLinks_nil]
      rfl
    | cons t ts =>
      rw [List.length_cons] at length short
      rw [List.map_cons, readLinks_cons, readLinks_cons]
      by_cases same : t.kind = tier.kind
      · rw [if_pos (show (t.shift base).kind = tier.kind from same), if_pos same]
        have operand := operands ts (by omega)
        rw [readAt_rank_succ, readAt_rank_succ] at operand
        apply shiftResult_bind operand
        intro read found
        have fewer := (readOperand_consumes found).isSuffix.length_le
        rw [shiftRead, ← shift_combine]
        exact ih read.2.length (by omega) _ (by omega) rfl
      · rw [if_neg (show (t.shift base).kind ≠ tier.kind from same), if_neg same]
        rfl

theorem Shifts.chain {size : Nat} (operands : Shifts base last (tier.rank + 1) size) :
    Shifts base last tier.rank size := by
  intro ts short
  have operand := operands ts short
  rw [readAt_rank_succ, readAt_rank_succ] at operand
  rw [readAt_rank, readAt_rank, readChain_eq, readChain_eq]
  apply shiftResult_bind operand
  intro read found
  have fewer := (readOperand_consumes found).isSuffix.length_le
  exact readLinks_shift operands read.1 (by omega)

theorem Shifts.chains {size : Nat} (unaries : Shifts base last negationRank size) (tier : Tier) :
    Shifts base last tier.rank size :=
  Tier.rank_induction (P := fun rank => Shifts base last rank size) unaries
    (fun _ => Shifts.chain) tier

theorem Shifts.expression {size : Nat} (chains : Shifts base last 2 size)
    (fewer : ∀ n < size, Shifts base last 1 n) : Shifts base last 1 size := by
  intro ts short
  change parseNext _ _ = shiftResult base (shiftRead base) (parseNext last ts)
  rw [parseNext_eq, parseNext_eq]
  apply shiftResult_bind (chains ts short)
  intro read found
  obtain ⟨left, mid⟩ := read
  cases mid with
  | nil => rfl
  | cons t mid =>
    have shorter := (readChain_consumes found).isSuffix.length_le
    rw [List.length_cons] at shorter
    simp only [shiftRead, List.map_cons]
    by_cases implies : t.kind = .implies
    · rw [if_pos (show (t.shift base).kind = .implies from implies), if_pos implies]
      apply shiftResult_bind (fewer mid.length (by omega) mid le_rfl)
      intro read' _
      simp only [shiftRead, ← shift_combine]
      rfl
    · rw [if_neg (show (t.shift base).kind ≠ .implies from implies), if_neg implies]
      rfl

theorem readUnary_shift (operands : Shifts base last negationRank ts.length)
    (inside : Shifts base last 1 ts.length) (t : Token) :
    readUnary (last.shift base) ((t :: ts).map (Token.shift base)) =
      shiftResult base (shiftRead base) (readUnary last (t :: ts)) := by
  have atom : ∀ afterIdent,
      (takeAtom (last.shift base) (.between afterIdent) (ts.map (Token.shift base)) >>= fun read =>
          .ok (ofAtomTokens (t.shift base) read.1, read.2)) =
        shiftResult base (shiftRead base)
          (takeAtom last (.between afterIdent) ts >>= fun read =>
            .ok (ofAtomTokens t read.1, read.2)) := by
    intro afterIdent
    apply shiftResult_bind (takeAtom_shift base last _ ts)
    intro read _
    rw [shiftTaken, ← shift_ofAtomTokens]
    rfl
  rw [List.map_cons, readUnary_cons, readUnary_cons]
  obtain ⟨kind, span⟩ := t
  cases kind with
  | bang =>
    apply shiftResult_bind (operands ts le_rfl)
    intro read _
    simp only [shiftRead, Token.shift, span_shift, ← Span.shift_join]
    rfl
  | lparen =>
    apply shiftResult_bind (inside ts le_rfl)
    intro read _
    obtain ⟨inner, mid⟩ := read
    cases mid with
    | nil => rfl
    | cons close mid =>
      simp only [shiftRead, List.map_cons]
      by_cases closes : close.kind = .rparen
      · rw [if_pos (show (close.shift base).kind = .rparen from closes), if_pos closes]
        simp only [Token.shift, ← Span.shift_join, ← shift_withSpan]
        rfl
      · rw [if_neg (show (close.shift base).kind ≠ .rparen from closes), if_neg closes]
        rfl
  | op | int => exact atom false
  | ident => exact atom true
  | _ => rfl

theorem shifts (base : Nat) (last : Span) (size : Nat) :
    Shifts base last negationRank size ∧ Shifts base last 1 size := by
  induction size using Nat.strong_induction_on with
  | _ size ih =>
    have unaries : Shifts base last negationRank size := by
      intro ts short
      change readUnary _ _ = shiftResult base (shiftRead base) (readUnary last ts)
      cases ts with
      | nil =>
        rw [List.map_nil, readUnary_nil, readUnary_nil]
        rfl
      | cons t ts =>
        obtain ⟨operands, inside⟩ := ih ts.length short
        exact readUnary_shift operands inside t
    exact ⟨unaries, .expression (unaries.chains .or) fun n fewer => (ih n fewer).2⟩

/-- Moved tokens are read as the moved expression, or fail at the moved place. -/
theorem parseNext_shift (base : Nat) (last : Span) (ts : List Token) :
    parseNext (last.shift base) (ts.map (Token.shift base)) =
      shiftResult base (shiftRead base) (parseNext last ts) :=
  (shifts base last ts.length).2 ts le_rfl

end Expr

namespace Token

theorem lastSpan_shift (base : Nat) {ts : List Token} (some : ts ≠ []) :
    lastSpan (ts.map (shift base)) = (lastSpan ts).shift base := by
  obtain ⟨before, t, rfl⟩ := List.eq_nil_or_concat ts |>.resolve_left some
  simp [lastSpan, shift]

theorem expectEnd_shift (base : Nat) (last : Span) (ts : List Token) :
    expectEnd (last.shift base) (ts.map (shift base)) =
      shiftResult base id (expectEnd last ts) := by
  cases ts with
  | nil => rfl
  | cons t ts =>
    rw [List.map_cons, expectEnd, expectEnd]
    by_cases ends : t.kind = .eof
    · rw [if_pos (show (t.shift base).kind = .eof from ends), if_pos ends]
      rfl
    · rw [if_neg (show (t.shift base).kind ≠ .eof from ends), if_neg ends]
      rfl

/-- The tokens of a text hold its end at least. -/
theorem ne_nil_of_scan {pos : Nat} {cs : List Char} {ts : List Token}
    (scanned : scan pos cs = .ok ts) : ts ≠ [] := by
  have lexes := scan_eq_ok_iff.mp scanned
  induction lexes with
  | done => simp
  | blank _ later ih => exact ih (scan_eq_ok_iff.mpr later)
  | token => simp

theorem ofSource_shift (source : String) (base : Nat) :
    ofSource source base = shiftResult base (·.map (shift base)) (ofSource source 0) :=
  scan_shift base 0 source.toList

/-- What is read from the tokens of a text is read from those of the text elsewhere, moved. -/
theorem shiftResult_ofSource {α : Type} {base : Nat} {move : α → α}
    {read : List Token → Except SourceError α}
    (shifts : ∀ ts, ts ≠ [] → read (ts.map (shift base)) = shiftResult base move (read ts))
    (source : String) :
    (ofSource source base >>= read) = shiftResult base move (ofSource source 0 >>= read) :=
  shiftResult_bind (ofSource_shift source base) fun ts scanned => shifts ts (ne_nil_of_scan scanned)

end Token

/-! ## Expressions, contracts and commands -/

/-- An expression that takes all tokens up to the end is moved with them, and so is what is made
    of it. -/
theorem Expr.whole_shift {α : Type} {base : Nat} {move : α → α} (finish finish' : Expr → α)
    (same : ∀ e : Expr, finish' (e.shift base) = move (finish e)) (last : Span) (ts : List Token) :
    (do
      let (e, rest) ← parseNext (last.shift base) (ts.map (Token.shift base))
      Token.expectEnd (last.shift base) rest
      return finish' e) =
    shiftResult base move (do
      let (e, rest) ← parseNext last ts
      Token.expectEnd last rest
      return finish e) := by
  apply shiftResult_bind (parseNext_shift base last ts)
  intro read _
  apply shiftResult_bind (Token.expectEnd_shift base last read.2)
  intro u _
  change .ok (finish' (read.1.shift base)) = shiftResult base move (.ok (finish read.1))
  rw [same]
  rfl

/-- So is what is made of an expression behind a word, with the span from the word on. -/
theorem Expr.keyword_shift {α : Type} {base : Nat} {move : α → α} (make : Span → Expr → α)
    (same : ∀ span e, make (span.shift base) (e.shift base) = move (make span e))
    (span last : Span) (ts : List Token) :
    (do
      let (e, rest) ← parseNext (last.shift base) (ts.map (Token.shift base))
      Token.expectEnd (last.shift base) rest
      return make ((span.shift base).join e.span) e) =
    shiftResult base move (do
      let (e, rest) ← parseNext last ts
      Token.expectEnd last rest
      return make (span.join e.span) e) := by
  refine whole_shift (fun e => make (span.join e.span) e)
    (fun e => make ((span.shift base).join e.span) e) (fun e => ?_) last ts
  rw [span_shift, ← Span.shift_join, same]

theorem Expr.ofTokens_shift (base : Nat) {ts : List Token} (some : ts ≠ []) :
    ofTokens (ts.map (Token.shift base)) = shiftResult base (shift base) (ofTokens ts) := by
  rw [ofTokens, Token.lastSpan_shift base some]
  exact whole_shift id id (fun _ => rfl) _ ts

theorem Expr.parse_shift (source : String) (base : Nat) :
    parse source base = shiftResult base (shift base) (parse source 0) :=
  Token.shiftResult_ofSource (fun _ => ofTokens_shift base) source

namespace Contract

/-- The contract moved `base` bytes to the right. -/
def shift (base : Nat) (contract : Contract) : Contract :=
  ⟨contract.span.shift base, contract.free, contract.condition.shift base⟩

theorem ofTokens_shift (base : Nat) {ts : List Token} (some : ts ≠ []) :
    ofTokens (ts.map (Token.shift base)) = shiftResult base (shift base) (ofTokens ts) := by
  have last := Token.lastSpan_shift base some
  rw [ofTokens.eq_def, ofTokens.eq_def, last]
  cases ts with
  | nil => exact absurd rfl some
  | cons t ts =>
    obtain ⟨kind, span⟩ := t
    have plain : ∀ e : Expr, mk (e.shift base).span false (e.shift base) =
        shift base (mk e.span false e) := by
      intro e
      rw [Expr.span_shift]
      rfl
    have whole := Expr.whole_shift (fun e => mk e.span false e) (fun e => mk e.span false e) plain
      (Token.lastSpan (⟨kind, span⟩ :: ts)) (⟨kind, span⟩ :: ts)
    cases kind with
    | free => exact Expr.keyword_shift (fun span e => mk span true e) (fun _ _ => rfl) span _ ts
    | _ => exact whole

theorem parse_shift (source : String) (base : Nat) :
    parse source base = shiftResult base (shift base) (parse source 0) :=
  Token.shiftResult_ofSource (fun _ => ofTokens_shift base) source

end Contract

namespace Command

/-- The command moved `base` bytes to the right. -/
def shift (base : Nat) : Command → Command
  | call span callee => call (span.shift base) ⟨callee.span.shift base, callee.value⟩
  | assert span condition => assert (span.shift base) (condition.shift base)
  | assume span condition => assume (span.shift base) (condition.shift base)

theorem ofTokens_shift (base : Nat) {ts : List Token} (some : ts ≠ []) :
    ofTokens (ts.map (Token.shift base)) = shiftResult base (shift base) (ofTokens ts) := by
  have last := Token.lastSpan_shift base some
  rw [ofTokens.eq_def, ofTokens.eq_def, last]
  cases ts with
  | nil => exact absurd rfl some
  | cons t ts =>
    obtain ⟨kind, span⟩ := t
    cases kind with
    | call =>
      cases ts with
      | nil => rfl
      | cons t ts =>
        obtain ⟨kind, nameSpan⟩ := t
        cases kind with
        | ident name =>
          apply shiftResult_bind (Token.expectEnd_shift base _ ts)
          intro u _
          simp only [← Span.shift_join]
          rfl
        | _ => rfl
    | assert => exact Expr.keyword_shift assert (fun _ _ => rfl) span _ ts
    | assume => exact Expr.keyword_shift assume (fun _ _ => rfl) span _ ts
    | _ => rfl

theorem parse_shift (source : String) (base : Nat) :
    parse source base = shiftResult base (shift base) (parse source 0) :=
  Token.shiftResult_ofSource (fun _ => ofTokens_shift base) source

end Command

end InvariantInference
