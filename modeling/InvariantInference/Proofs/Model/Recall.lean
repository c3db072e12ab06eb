import Mathlib
import InvariantInference.Proofs.Model.Retention

/-!
# Recall

When an implication is asked for, its premises are assumed and its conclusion is
asked for. So an implication that was assumed is found to hold if it fires once
its premises are assumed, or if a premise is false. It fires if no conjunct of
its premises is an implication of its own. A premise that was false when the
implication was assumed stays false unless the assumptions contradict each
other.
-/

namespace InvariantInference

variable {b : String → Option Bool} {v : Valuation}

namespace Expr

/-- No conjunct is an implication, unless its premise is an identifier that is bound. -/
def Plain (b : String → Option Bool) : Expr → Prop
  | binary _ .and left right => left.Plain b ∧ right.Plain b
  | binary _ .implies guard conclusion =>
    guard.bound b = some false ∨ guard.bound b = some true ∧ conclusion.Plain b
  | _ => True

/-- A conjunct is an identifier that is bound to false. -/
def Refuted (b : String → Option Bool) : Expr → Prop
  | ident _ name => b name.value = some false
  | binary _ .and left right => left.Refuted b ∨ right.Refuted b
  | binary _ .implies guard conclusion => guard.bound b = some true ∧ conclusion.Refuted b
  | _ => False

/-- The expression leads from some premises, one after the other, to a conclusion. Identifiers
    that are bound to true do not count as premises. -/
inductive Curried (b : String → Option Bool) : Expr → List Expr → Expr → Prop
  | conclusion {e : Expr} (plain : e.Plain b) : Curried b e [] e
  | guard {span : Span} {guard e c : Expr} {premises : List Expr}
      (bound : guard.bound b = some true) (rest : Curried b e premises c) :
      Curried b (.binary span .implies guard e) premises c
  | premise {span : Span} {premise e c : Expr} {premises : List Expr} (plain : premise.Plain b)
      (rest : Curried b e premises c) :
      Curried b (.binary span .implies premise e) (premise :: premises) c

/-- Without premises that count, all is conclusion. -/
theorem Curried.plain_of_nil {e c : Expr} (curried : Curried b e [] c) :
    e.Plain b ∧ (e.Refuted b → c.Refuted b) := by
  generalize none : ([] : List Expr) = premises at curried
  induction curried with
  | conclusion plain => exact ⟨plain, id⟩
  | guard bound _ ih =>
    obtain ⟨plain, refuted⟩ := ih none
    exact ⟨.inr ⟨bound, plain⟩, fun isRefuted => refuted isRefuted.2⟩
  | premise => cases none

theorem ident_of_bound {e : Expr} {value : Bool} (bound : e.bound b = some value) :
    ∃ span name, e = ident span name ∧ b name.value = some value := by
  cases e with
  | ident span name => exact ⟨span, name, rfl, bound⟩
  | _ => cases bound

/-- A refuted expression is false, whatever the identifiers mean that are not bound. -/
theorem Refuted.value (agrees : ∀ name value, b name = some value → v.ident name = value) {e : Expr}
    (refuted : e.Refuted b) : e.value v = false := by
  induction e with
  | ident span name => exact agrees _ _ refuted
  | binary span op left right ihLeft ihRight =>
    cases op with
    | and =>
      rcases refuted with first | second
      · simp [Expr.value, BinOp.table, ihLeft first]
      · simp [Expr.value, BinOp.table, ihRight second]
    | implies =>
      obtain ⟨bound, concluded⟩ := refuted
      obtain ⟨span', name, rfl, bound⟩ := ident_of_bound bound
      simp [Expr.value, BinOp.table, agrees _ _ bound, ihRight concluded]
    | _ => cases refuted
  | _ => cases refuted

end Expr

namespace Facts

variable {f f' : Facts} {e : Expr}

/-! ## Values that stay -/

theorem eval_of_bound (bindings : ∀ name, f.bindings.lookup name = b name) {value : Bool}
    (bound : e.bound b = some value) : f.eval e = some value := by
  obtain ⟨span, name, rfl, given⟩ := Expr.ident_of_bound bound
  rw [eval, bindings, given, Option.some_or]

/-- The texts of conjunctions and implications are never known. -/
theorem Regular.notMem_known (regular : f.Regular b) (readable : e.Readable)
    (other : e.isFact = false) : e.render ∉ f.known := by
  intro known
  obtain ⟨e', readable', fact, same⟩ := regular.known _ known
  rw [Expr.isFact_congr (Expr.erase_eq_of_render_eq readable' readable same), other] at fact
  cases fact

/-- Regular facts evaluate a refuted expression to false. -/
theorem Regular.eval_of_refuted (regular : f.Regular b) (readable : e.Readable)
    (refuted : e.Refuted b) : f.eval e = some false := by
  induction e with
  | ident span name =>
    rw [eval, regular.bindings]
    simp only [Expr.Refuted] at refuted
    rw [refuted, Option.some_or]
  | binary span op left right ihLeft ihRight =>
    cases op with
    | and =>
      rw [eval, if_neg (regular.notMem_known readable rfl), apply]
      rcases refuted with first | second
      · rw [ihLeft readable.1 first]
        rfl
      · rw [ihRight readable.2 second]
        cases f.eval left with
        | none => rfl
        | some value => cases value <;> rfl
    | implies =>
      obtain ⟨bound, concluded⟩ := refuted
      rw [eval, if_neg (regular.notMem_known readable rfl), apply,
        eval_of_bound regular.bindings bound, ihRight readable.2 concluded]
      rfl
    | _ => cases refuted
  | _ => cases refuted

/-- A connective that is decided stays so when more is decided. -/
theorem apply_mono {op : BinOp} {left left' right right' : Option Bool} {value : Bool}
    (first : ∀ b, left = some b → left' = some b) (second : ∀ b, right = some b → right' = some b)
    (decided : apply op left right = some value) : apply op left' right' = some value := by
  rcases left with _ | left <;> rcases right with _ | right
  · cases op <;> simp [apply, both, either, follows, agree] at decided
  · rw [second right rfl]
    cases op <;> cases right <;> rcases left' with _ | _ | _ <;>
      simp_all [apply, both, either, follows, agree]
  · rw [first left rfl]
    cases op <;> cases left <;> rcases right' with _ | _ | _ <;>
      simp_all [apply, both, either, follows, agree]
  · rw [first left rfl, second right rfl]
    exact decided

/-- What was known before is true if what is known now is. -/
theorem Grows.sound (grows : f.Grows f') (sound : f'.Sound v) :
    (Facts.mk f.bindings f.known [] false).Sound v where
  bindings name value bound := sound.bindings name value (grows.bindings ▸ bound)
  known text known := sound.known text (grows.known known)
  parked := by simp
  reachable := rfl

/-- Two values of one condition are both its truth value. -/
theorem Grows.eval_eq (grows : f.Grows f') (sound : f'.Sound v) (readable : e.Readable)
    {value : Bool} (decided : f.eval e = some value) (decided' : (f'.eval e).isSome) :
    f'.eval e = some value := by
  obtain ⟨value', found⟩ := Option.isSome_iff_exists.mp decided'
  have before := (grows.sound sound).value_of_eval readable ((f.eval_mk [] false e).trans decided)
  rw [found, ← sound.value_of_eval readable found, before]

theorem Grows.isSome_lookup (grows : f.Grows f') (found : (f.lookup e).isSome) :
    (f'.lookup e).isSome := by
  unfold lookup at found ⊢
  split
  · rfl
  · split
    · rfl
    · rename_i unknown unknown'
      rw [if_neg (fun known => unknown (grows.known known)),
        if_neg (fun known => unknown' (grows.known known))] at found
      exact found

/-- Unless the assumptions contradict each other, values that are decided stay. -/
theorem Grows.eval_mono (grows : f.Grows f') (sound : f'.Sound v) (readable : e.Readable)
    {value : Bool} (decided : f.eval e = some value) : f'.eval e = some value := by
  apply grows.eval_eq sound readable decided
  induction e generalizing value with
  | lit => rfl
  | ident span name =>
    rw [eval] at decided ⊢
    rw [grows.bindings, Option.isSome_or]
    rcases Option.or_eq_some_iff.mp decided with bound | ⟨-, found⟩
    · rw [bound, Option.isSome_some, Bool.true_or]
    · rw [grows.isSome_lookup (Option.isSome_of_eq_some found), Bool.or_true]
  | atom span text =>
    rw [eval] at decided ⊢
    exact grows.isSome_lookup (Option.isSome_of_eq_some decided)
  | not span operand ih =>
    rw [eval] at decided ⊢
    rw [Option.isSome_or, Option.isSome_map]
    rcases Option.or_eq_some_iff.mp decided with found | ⟨-, negated⟩
    · rw [grows.isSome_lookup (Option.isSome_of_eq_some found), Bool.true_or]
    · obtain ⟨inner, evaluated, -⟩ := Option.map_eq_some_iff.mp negated
      rw [ih readable evaluated, Bool.or_true]
  | binary span op left right ihLeft ihRight =>
    have first : ∀ value, f.eval left = some value → f'.eval left = some value :=
      fun _ here => grows.eval_eq sound readable.1 here (ihLeft readable.1 here)
    have second : ∀ value, f.eval right = some value → f'.eval right = some value :=
      fun _ here => grows.eval_eq sound readable.2 here (ihRight readable.2 here)
    rw [eval] at decided ⊢
    split
    · rfl
    · rename_i unknown
      rw [if_neg (fun known => unknown (grows.known known))] at decided
      rw [apply_mono first second decided, Option.isSome_some]

/-! ## Assuming an identifier that is bound -/

/-- The text of an identifier that is bound makes no difference to any value. -/
theorem Regular.eval_cons (regular : f.Regular b) {guard : Expr} {value : Bool}
    (bound : guard.bound b = some value) (guardReadable : guard.Readable) (readable : e.Readable)
    (parked : List (Expr × Expr)) (unreachable : Bool) :
    (Facts.mk f.bindings (guard.render :: f.known) parked unreachable).eval e = f.eval e := by
  obtain ⟨span, name, rfl, given⟩ := Expr.ident_of_bound bound
  have looked : ∀ e : Expr, e.Readable → e.erase ≠ (Expr.ident span name).erase →
      (Facts.mk f.bindings ((Expr.ident span name).render :: f.known) parked unreachable).lookup e =
        f.lookup e := by
    intro e readable differs
    have text : e.render ≠ (Expr.ident span name).render := fun same =>
      differs (Expr.erase_eq_of_render_eq readable guardReadable same)
    have negated : e.negate.render ≠ (Expr.ident span name).render := fun same =>
      Expr.render_negate_ne rfl guardReadable readable same.symm
    simp only [lookup, List.mem_cons, text, negated, false_or]
  induction e with
  | lit => rfl
  | ident span' name' =>
    rw [eval, eval]
    by_cases same : name'.value = name.value
    · rw [same, regular.bindings, given, Option.some_or, Option.some_or]
    · rw [looked _ readable (by simp [Expr.erase, Located.synthetic, same])]
  | atom span' text => exact looked _ readable (by simp [Expr.erase])
  | not span' operand ih =>
    rw [eval, eval, looked _ readable (by simp [Expr.erase]), ih readable]
  | binary span' op left right ihLeft ihRight =>
    have text : (Expr.binary span' op left right).render ≠ (Expr.ident span name).render := by
      intro same
      cases Expr.erase_eq_of_render_eq readable guardReadable same
    simp only [eval, List.mem_cons, text, false_or, ihLeft readable.1, ihRight readable.2]

/-- To assume an identifier that is bound makes no difference to any value. -/
theorem Regular.eval_assume (regular : f.Regular b) (quiet : f.Quiet []) {guard : Expr}
    {value : Bool} (bound : guard.bound b = some value) (guardReadable : guard.Readable)
    (readable : e.Readable) : (f.assume guard).eval e = f.eval e := by
  have unchanged := fun {e : Expr} (readable : e.Readable) =>
    regular.eval_cons (e := e) bound guardReadable readable f.parked
  obtain ⟨span, name, rfl, -⟩ := Expr.ident_of_bound bound
  have idle : f.parked.find? (Facts.mk f.bindings ((Expr.ident span name).render :: f.known)
      f.parked (f.unreachable || f.contradicts (.ident span name))).fires = none := by
    apply List.find?_eq_none.mpr
    intro p isParked
    rw [fires, unchanged (regular.parked p isParked).1]
    simpa using quiet (by simp) p isParked
  rw [Facts.assume, settle_learn_fact rfl]
  split
  · rw [settle]
    exact f.eval_mk _ _ e
  · rw [settle_fire_of_none idle, settle]
    exact unchanged readable _

/-! ## Plain conditions -/

theorem holds_of_unreachable (unreachable : f.unreachable) (e : Expr) : f.holds e := by
  rw [holds.eq_def]
  split <;> simp [unreachable]

/-- What became of an implication that was assumed. -/
theorem Retained.implication {span : Span} {premise conclusion : Expr}
    (retained : Retained f [] (.binary span .implies premise conclusion)) :
    f.unreachable ∨ Released f [] premise conclusion ∨
      ∃ earlier : Facts, earlier.Grows f ∧ earlier.eval premise = some false := by
  cases retained with
  | queued queued => cases queued
  | known fact => cases fact
  | unreachable unreachable => exact .inl unreachable
  | parked parked same same' => exact .inr (.inl (.inl ⟨_, parked, same, same'⟩))
  | released retained => exact .inr (.inl (.inr retained))
  | dropped grows refuted => exact .inr (.inr ⟨_, grows, refuted⟩)

/-- An implication whose premise is true has fired. -/
theorem Released.fired {premise conclusion : Expr} (released : Released f [] premise conclusion)
    (quiet : f.Quiet []) (holds : f.eval premise = some true) : Retained f [] conclusion := by
  rcases released with ⟨p, parked, same, -⟩ | retained
  · rw [← f.eval_congr same] at holds
    exact absurd holds (quiet (by simp) p parked)
  · exact retained

/-- An implication that was assumed has given way to its conclusion if its premise is bound to
    true. -/
theorem Retained.of_guard {span : Span} {guard conclusion : Expr}
    (retained : Retained f [] (.binary span .implies guard conclusion)) (regular : f.Regular b)
    (quiet : f.Quiet []) (bound : guard.bound b = some true) : Retained f [] conclusion := by
  rcases retained.implication with unreachable | released | ⟨earlier, grows, refuted⟩
  · exact .unreachable unreachable
  · exact released.fired quiet (eval_of_bound regular.bindings bound)
  · have bindings : ∀ name, earlier.bindings.lookup name = b name := by
      intro name
      rw [← grows.bindings]
      exact regular.bindings name
    rw [eval_of_bound bindings bound] at refuted
    cases refuted

/-- The text of a fact that was assumed is known. -/
theorem Retained.mem_known (retained : Retained f [] e) (reachable : f.unreachable = false)
    (fact : e.isFact) : e.render ∈ f.known := by
  cases retained with
  | queued queued => cases queued
  | known _ known => exact known
  | unreachable unreachable =>
    rw [reachable] at unreachable
    cases unreachable
  | _ => cases fact

/-- Both sides of a conjunction that was assumed are retained. -/
theorem Retained.conjuncts {span : Span} {left right : Expr}
    (retained : Retained f [] (.binary span .and left right)) :
    Retained f [] left ∧ Retained f [] right := by
  cases retained with
  | queued queued => cases queued
  | known fact => cases fact
  | unreachable unreachable => exact ⟨.unreachable unreachable, .unreachable unreachable⟩
  | both first second => exact ⟨first, second⟩

/-- A plain condition that was assumed evaluates to true, unless it is refuted. -/
theorem Retained.eval_plain (retained : Retained f [] e) (regular : f.Regular b)
    (quiet : f.Quiet []) (reachable : f.unreachable = false) (plain : e.Plain b)
    (unrefuted : ¬ e.Refuted b) : f.eval e = some true := by
  induction e with
  | lit span value =>
    cases retained with
    | queued queued => cases queued
    | known fact => cases fact
    | unreachable unreachable => rw [reachable] at unreachable; cases unreachable
    | literal => rfl
  | ident span name =>
    have looked : f.lookup (.ident span name) = some true :=
      if_pos (retained.mem_known reachable rfl)
    rw [eval, looked, regular.bindings]
    cases bound : b name.value with
    | none => rfl
    | some value =>
      cases value with
      | true => rfl
      | false => exact absurd bound unrefuted
  | atom span text => exact if_pos (retained.mem_known reachable rfl)
  | not span operand ih =>
    have looked : f.lookup (.not span operand) = some true :=
      if_pos (retained.mem_known reachable rfl)
    rw [eval, looked, Option.some_or]
  | binary span op left right ihLeft ihRight =>
    rw [eval]
    split
    · rfl
    · rename_i unknown
      cases op with
      | or => exact absurd (retained.mem_known reachable rfl) unknown
      | eq => exact absurd (retained.mem_known reachable rfl) unknown
      | and =>
        obtain ⟨first, second⟩ := retained.conjuncts
        rw [ihLeft first plain.1 fun refuted => unrefuted (.inl refuted),
          ihRight second plain.2 fun refuted => unrefuted (.inr refuted)]
        rfl
      | implies =>
        rcases plain with bound | ⟨bound, plain⟩
        · rw [eval_of_bound regular.bindings bound]
          rfl
        · rw [eval_of_bound regular.bindings bound,
            ihRight (retained.of_guard regular quiet bound) plain fun refuted =>
              unrefuted ⟨bound, refuted⟩]
          rfl

/-! ## Conditions with one premise -/

/-- A condition is ready to be shown: it is plain and retained, or it has one premise and waits to
    fire, or its premise is false. -/
inductive Armed (b : String → Option Bool) (f : Facts) : Expr → Prop
  | plain {e : Expr} (plain : e.Plain b) (unrefuted : ¬ e.Refuted b) (retained : Retained f [] e) :
      Armed b f e
  | guard {span : Span} {guard e : Expr} (bound : guard.bound b = some true) (armed : Armed b f e) :
      Armed b f (.binary span .implies guard e)
  | premise {span : Span} {premise e : Expr} (plain : premise.Plain b) (plain' : e.Plain b)
      (unrefuted : ¬ e.Refuted b)
      (state : Released f [] premise e ∨ f.eval premise = some false) :
      Armed b f (.binary span .implies premise e)

theorem Armed.assume (armed : Armed b f e) (regular : f.Regular b) (quiet : f.Quiet [])
    (readable : e.Readable) {guard : Expr} (bound : guard.bound b = some true)
    (guardReadable : guard.Readable) : Armed b (f.assume guard) e := by
  induction armed with
  | plain plain unrefuted retained => exact .plain plain unrefuted (retained.assume guard)
  | guard bound' _ ih => exact .guard bound' (ih readable.2)
  | premise plain plain' unrefuted state =>
    refine .premise plain plain' unrefuted ?_
    rcases state with released | fails
    · exact .inl (released.assume guard)
    · rw [regular.eval_assume quiet bound guardReadable readable.1]
      exact .inr fails

theorem holds_implies_iff {span : Span} {premise conclusion : Expr} :
    f.holds (.binary span .implies premise conclusion) ↔
      f.unreachable ∨ f.eval premise = some false ∨ (f.assume premise).holds conclusion := by
  rw [holds, Bool.or_eq_true, Bool.or_eq_true, decide_eq_true_eq, or_assoc]

/-- A condition other than an implication is plain if it is ready, and evaluates to true. -/
theorem Armed.holds_other (armed : Armed b f e) (regular : f.Regular b) (quiet : f.Quiet [])
    (other : ∀ span premise conclusion, e ≠ .binary span .implies premise conclusion) :
    f.holds e := by
  by_cases unreachable : f.unreachable
  · exact holds_of_unreachable unreachable e
  · rw [Bool.not_eq_true] at unreachable
    cases armed with
    | plain plain unrefuted retained =>
      rw [Facts.holds_other other, retained.eval_plain regular quiet unreachable plain unrefuted]
      simp
    | guard => exact absurd rfl (other _ _ _)
    | premise => exact absurd rfl (other _ _ _)

/-- What is ready holds. -/
theorem Armed.holds (armed : Armed b f e) (regular : f.Regular b) (quiet : f.Quiet [])
    (readable : e.Readable) : f.holds e := by
  induction e generalizing f with
  | binary span op premise conclusion _ ih =>
    by_cases implies : op = .implies
    · subst implies
      have regular' := regular.assume readable.1
      have quiet' := quiet.assume premise
      rw [holds_implies_iff]
      -- A premise that is bound to true leaves the conclusion to be shown.
      have guarded : premise.bound b = some true → Armed b f conclusion →
          (f.assume premise).holds conclusion := by
        intro bound armed
        exact ih (armed.assume regular quiet readable.2 bound readable.1) regular' quiet' readable.2
      cases armed with
      | plain plain unrefuted retained =>
        rcases plain with bound | ⟨bound, plain⟩
        · exact .inr (.inl (eval_of_bound regular.bindings bound))
        · refine .inr (.inr (guarded bound (.plain plain ?_ ?_)))
          · exact fun refuted => unrefuted ⟨bound, refuted⟩
          · exact retained.of_guard regular quiet bound
      | guard bound armed => exact .inr (.inr (guarded bound armed))
      | premise plain plain' unrefuted state =>
        rcases state with released | fails
        · by_cases refuted : premise.Refuted b
          · exact .inr (.inl (regular.eval_of_refuted readable.1 refuted))
          · -- Once the premise is assumed it is true, and the implication has fired.
            refine .inr (.inr ?_)
            by_cases unreachable : (f.assume premise).unreachable
            · exact holds_of_unreachable unreachable conclusion
            · rw [Bool.not_eq_true] at unreachable
              have holds := (f.retained_assume rfl).eval_plain regular' quiet' unreachable plain
                refuted
              have fired := (released.assume premise).fired quiet' holds
              exact ih (.plain plain' unrefuted fired) regular' quiet' readable.2
        · exact .inr (.inl fails)
    · exact armed.holds_other regular quiet (by simp [implies])
  | _ => exact armed.holds_other regular quiet (by simp)

/-! ## Where the assumptions agree -/

/-- If no valuation was ruled out under which the premises are true, a condition that was assumed
    holds. -/
theorem Sound.holds (sound : f.Sound v) (regular : f.Regular b) (quiet : f.Quiet [])
    (readable : e.Readable) {premises : List Expr} {c : Expr} (curried : e.Curried b premises c)
    (retained : Retained f [] e) (holds : e.value v) (premised : ∀ p ∈ premises, p.value v) :
    f.holds e := by
  have agrees : ∀ name value, b name = some value → v.ident name = value := by
    intro name value bound
    exact sound.bindings name value ((regular.bindings name).trans bound)
  have unrefuted : ∀ {e : Expr}, e.value v → ¬ e.Refuted b := by
    intro e holds refuted
    rw [refuted.value agrees] at holds
    cases holds
  induction curried generalizing f with
  | conclusion plain =>
    have armed : Armed b f _ := .plain plain (unrefuted holds) retained
    exact armed.holds regular quiet readable
  | @guard span guard e c premises bound _ ih =>
    have guardHolds : guard.value v :=
      sound.value_of_eval readable.1 (eval_of_bound regular.bindings bound)
    have concluded : e.value v := by
      simpa [Expr.value, BinOp.table, guardHolds] using holds
    refine holds_implies_iff.mpr (.inr (.inr ?_))
    exact ih (sound.assume readable.1 guardHolds) (regular.assume readable.1)
      (quiet.assume guard) readable.2 ((retained.of_guard regular quiet bound).assume guard)
      concluded premised
  | @premise span premise e c premises plain _ ih =>
    rw [List.forall_mem_cons] at premised
    have concluded : e.value v := by
      simpa [Expr.value, BinOp.table, premised.1] using holds
    have sound' := sound.assume readable.1 premised.1
    have regular' := regular.assume readable.1
    have quiet' := quiet.assume premise
    have evaluated := (f.retained_assume rfl).eval_plain regular' quiet' sound'.reachable plain
      (unrefuted premised.1)
    refine holds_implies_iff.mpr (.inr (.inr ?_))
    refine ih sound' regular' quiet' readable.2 ?_ concluded premised.2
    rcases (retained.assume premise).implication with unreachable | released | ⟨_, grows, refuted⟩
    · exact .unreachable unreachable
    · exact released.fired quiet' evaluated
    · rw [grows.eval_mono sound' readable.1 refuted] at evaluated
      cases evaluated

/-- If some valuation is left, a condition with one premise that was assumed is ready. -/
theorem Sound.armed (sound : f.Sound v) (regular : f.Regular b) (quiet : f.Quiet [])
    (readable : e.Readable) {premises : List Expr} {c : Expr} (curried : e.Curried b premises c)
    (few : premises.length ≤ 1) (unrefuted : ¬ c.Refuted b) (retained : Retained f [] e) :
    Armed b f e := by
  induction curried with
  | conclusion plain => exact .plain plain unrefuted retained
  | guard bound _ ih =>
    exact .guard bound (ih readable.2 few unrefuted (retained.of_guard regular quiet bound))
  | premise plain rest ih =>
    obtain rfl := List.length_eq_zero_iff.mp (Nat.le_zero.mp (Nat.le_of_succ_le_succ few))
    obtain ⟨plain', refuted⟩ := rest.plain_of_nil
    refine .premise plain plain' (fun isRefuted => unrefuted (refuted isRefuted)) ?_
    rcases retained.implication with unreachable | released | ⟨_, grows, refuted⟩
    · rw [sound.reachable] at unreachable
      cases unreachable
    · exact .inl released
    · exact .inr (grows.eval_mono sound readable.1 refuted)

/-! ## Right after an assumption -/

theorem assume_of_true {span : Span} {premise conclusion : Expr}
    (holds : f.eval premise = some true) :
    f.assume (.binary span .implies premise conclusion) = f.assume conclusion := by
  rw [assume, settle, holds]
  rfl

theorem assume_of_false {span : Span} {premise conclusion : Expr}
    (fails : f.eval premise = some false) :
    f.assume (.binary span .implies premise conclusion) = f := by
  simp only [assume, settle, fails]

theorem assume_of_undecided {span : Span} {premise conclusion : Expr}
    (undecided : f.eval premise = none) :
    f.assume (.binary span .implies premise conclusion) =
      { f with parked := f.parked ++ [(premise, conclusion)] } := by
  simp only [assume, settle, undecided]

/-- Right after it was assumed, a condition with one premise is ready, whatever else was
    assumed. -/
theorem armed_assume (regular : f.Regular b) {premises : List Expr} {e' c : Expr}
    (curried : e'.Curried b premises c) (few : premises.length ≤ 1) (unrefuted : ¬ c.Refuted b)
    (same : e'.erase = e.erase) : Armed b (f.assume e) e' := by
  induction curried generalizing e with
  | conclusion plain => exact .plain plain unrefuted (f.retained_assume same.symm)
  | guard bound _ ih =>
    obtain ⟨span', guard', conclusion', rfl, first, second⟩ := Expr.eq_binary_of_erase same
    have holds : f.eval guard' = some true := by
      rw [← f.eval_congr first]
      exact eval_of_bound regular.bindings bound
    rw [assume_of_true holds]
    exact .guard bound (ih few unrefuted second)
  | premise plain rest ih =>
    obtain ⟨span', premise', conclusion', rfl, first, second⟩ := Expr.eq_binary_of_erase same
    obtain rfl := List.length_eq_zero_iff.mp (Nat.le_zero.mp (Nat.le_of_succ_le_succ few))
    obtain ⟨plain', refuted⟩ := rest.plain_of_nil
    refine .premise plain plain' (fun isRefuted => unrefuted (refuted isRefuted)) ?_
    cases decided : f.eval premise' with
    | none =>
      rw [assume_of_undecided decided]
      exact .inl (.inl ⟨(premise', conclusion'), by simp, first.symm, second.symm⟩)
    | some value =>
      cases value with
      | true =>
        rw [assume_of_true decided]
        exact .inl (.inr (f.retained_assume second.symm))
      | false =>
        rw [assume_of_false decided]
        exact .inr ((f.eval_congr first).trans decided)

end Facts

end InvariantInference
