import Mathlib
import InvariantInference.Proofs.Model.Propagation

/-!
# What fact bases keep

Whatever is assumed, a fact base only learns more: bindings stay, known texts
stay known, and what is unreachable stays so. A condition that was assumed is
retained: its text is known, or its conjuncts are retained, or it is an
implication that waits, or has given way to its conclusion, or was dropped when
its premise was false. Spans do not matter for any of this. Between two
assumptions no implication waits whose premise is true.
-/

namespace InvariantInference

namespace Expr

variable {e e' : Expr}

/-- Whether the text of an expression becomes known when the expression is assumed. -/
def isFact : Expr → Bool
  | lit _ _ | binary _ .and _ _ | binary _ .implies _ _ => false
  | _ => true

theorem render_congr (same : e.erase = e'.erase) : e.render = e'.render := by
  rw [render, render, ← renderAt_erase e, ← renderAt_erase e', same]

theorem isFact_erase (e : Expr) : e.erase.isFact = e.isFact := by
  cases e with
  | binary span op left right => cases op <;> rfl
  | _ => rfl

theorem isFact_congr (same : e.erase = e'.erase) : e.isFact = e'.isFact := by
  rw [← isFact_erase e, ← isFact_erase e', same]

theorem eq_lit_of_erase {span : Span} {value : Bool} (same : (lit span value).erase = e.erase) :
    ∃ span', e = lit span' value := by
  cases e with
  | lit span' => cases same; exact ⟨span', rfl⟩
  | _ => cases same

theorem eq_binary_of_erase {span : Span} {op : BinOp} {left right : Expr}
    (same : (binary span op left right).erase = e.erase) :
    ∃ span' left' right', e = binary span' op left' right' ∧ left.erase = left'.erase ∧
      right.erase = right'.erase := by
  cases e with
  | binary span' op' left' right' =>
    simp only [erase, binary.injEq, true_and] at same
    obtain ⟨rfl, first, second⟩ := same
    exact ⟨span', left', right', rfl, first, second⟩
  | _ => cases same

end Expr

namespace Facts

variable {f f' : Facts} {tasks tasks' rest : List Task} {e e' : Expr}

/-! ## Evaluation -/

/-- Evaluation looks at the bindings and the known texts only. -/
theorem eval_mk (f : Facts) (parked : List (Expr × Expr)) (unreachable : Bool) (e : Expr) :
    (mk f.bindings f.known parked unreachable).eval e = f.eval e := by
  induction e with
  | not _ _ ih => simp only [eval, lookup, ih]
  | binary _ _ _ _ ihLeft ihRight => simp only [eval, ihLeft, ihRight]
  | _ => simp only [eval, lookup]

theorem lookup_congr (f : Facts) (same : e.erase = e'.erase) : f.lookup e = f.lookup e' := by
  have negated : e.negate.render = e'.negate.render :=
    Expr.render_congr (by simp [Expr.negate, Expr.erase, same])
  rw [lookup, lookup, Expr.render_congr same, negated]

/-- Spans do not matter for evaluation. -/
theorem eval_erase (f : Facts) (e : Expr) : f.eval e.erase = f.eval e := by
  have erased : ∀ e : Expr, e.erase.erase = e.erase := by
    intro e
    induction e with
    | not _ _ ih => simp only [Expr.erase, ih]
    | binary _ _ _ _ ihLeft ihRight => simp only [Expr.erase, ihLeft, ihRight]
    | _ => rfl
  induction e with
  | lit => rfl
  | ident span name =>
    have looked := f.lookup_congr (erased (.ident span name))
    simp only [Expr.erase] at looked
    simp only [Expr.erase, eval, looked]
    rfl
  | atom span text =>
    have looked := f.lookup_congr (erased (.atom span text))
    simpa only [Expr.erase, eval] using looked
  | not span operand ih =>
    have looked := f.lookup_congr (erased (.not span operand))
    simp only [Expr.erase] at looked
    simp only [Expr.erase, eval, looked, ih]
  | binary span op left right ihLeft ihRight =>
    have text := Expr.render_congr (erased (.binary span op left right))
    simp only [Expr.erase] at text
    simp only [Expr.erase, eval, text, ihLeft, ihRight]

theorem eval_congr (f : Facts) (same : e.erase = e'.erase) : f.eval e = f.eval e' := by
  rw [← f.eval_erase e, ← f.eval_erase e', same]

/-! ## Tasks -/

theorem settle_fire_of_none (none : f.parked.find? f.fires = none) :
    f.settle (.fire :: rest) = f.settle rest := by
  rw [settle]
  split
  · rfl
  · rename_i found
    rw [none] at found
    cases found

theorem settle_fire_of_some {premise conclusion : Expr}
    (found : f.parked.find? f.fires = some (premise, conclusion)) :
    f.settle (.fire :: rest) =
      settle { f with parked := f.parked.eraseP f.fires } (.learn conclusion :: .fire :: rest) := by
  rw [settle]
  split
  · rename_i none
    rw [found] at none
    cases none
  · rename_i found'
    rw [found] at found'
    cases found'
    rfl

theorem settle_learn_fact (fact : e.isFact) :
    f.settle (.learn e :: rest) =
      if e.render ∈ f.known then
        settle { f with unreachable := f.unreachable || f.contradicts e } rest
      else
        settle { f with
          unreachable := f.unreachable || f.contradicts e
          known := e.render :: f.known } (.fire :: rest) := by
  rw [settle.eq_def]
  cases e with
  | lit => cases fact
  | binary span op left right => cases op <;> first | rfl | cases fact
  | _ => rfl

/-! ## Growth -/

/-- The facts `f'` have what `f` has, and may have learned more. -/
structure Grows (f f' : Facts) : Prop where
  bindings : f'.bindings = f.bindings
  known : f.known ⊆ f'.known
  unreachable : f.unreachable → f'.unreachable

theorem Grows.refl (f : Facts) : f.Grows f := ⟨rfl, fun _ => id, id⟩

theorem Grows.trans {f'' : Facts} (first : f.Grows f') (second : f'.Grows f'') : f.Grows f'' :=
  ⟨second.bindings.trans first.bindings, fun _ known => second.known (first.known known),
    fun unreachable => second.unreachable (first.unreachable unreachable)⟩

/-! ## Retention -/

/-- A condition that was assumed, or is about to be, is not lost. -/
inductive Retained (f : Facts) (tasks : List Task) : Expr → Prop
  | queued {e e' : Expr} (queued : .learn e' ∈ tasks) (same : e'.erase = e.erase) :
      Retained f tasks e
  | known {e : Expr} (fact : e.isFact) (known : e.render ∈ f.known) : Retained f tasks e
  | literal {span : Span} : Retained f tasks (.lit span true)
  | unreachable {e : Expr} (unreachable : f.unreachable) : Retained f tasks e
  | both {span : Span} {left right : Expr} (first : Retained f tasks left)
      (second : Retained f tasks right) : Retained f tasks (.binary span .and left right)
  | parked {span : Span} {premise conclusion : Expr} {p : Expr × Expr} (parked : p ∈ f.parked)
      (same : p.1.erase = premise.erase) (same' : p.2.erase = conclusion.erase) :
      Retained f tasks (.binary span .implies premise conclusion)
  | released {span : Span} {premise conclusion : Expr} (retained : Retained f tasks conclusion) :
      Retained f tasks (.binary span .implies premise conclusion)
  | dropped {span : Span} {premise conclusion : Expr} {earlier : Facts} (grows : earlier.Grows f)
      (refuted : earlier.eval premise = some false) :
      Retained f tasks (.binary span .implies premise conclusion)

/-- An implication waits, or its conclusion is retained. -/
def Released (f : Facts) (tasks : List Task) (premise conclusion : Expr) : Prop :=
  (∃ p ∈ f.parked, p.1.erase = premise.erase ∧ p.2.erase = conclusion.erase) ∨
    Retained f tasks conclusion

/-- Every condition that is to be learned, and every implication that waits, is retained in the
    next state. -/
structure Keeps (f : Facts) (tasks : List Task) (f' : Facts) (tasks' : List Task) : Prop where
  grows : f.Grows f'
  queued : ∀ e, .learn e ∈ tasks → ∀ e', e.erase = e'.erase → Retained f' tasks' e'
  parked : ∀ p ∈ f.parked, p ∈ f'.parked ∨ ∀ e, p.2.erase = e.erase → Retained f' tasks' e

theorem Keeps.retained (keeps : Keeps f tasks f' tasks') (retained : Retained f tasks e) :
    Retained f' tasks' e := by
  induction retained with
  | queued queued same => exact keeps.queued _ queued _ same
  | known fact known => exact .known fact (keeps.grows.known known)
  | literal => exact .literal
  | unreachable unreachable => exact .unreachable (keeps.grows.unreachable unreachable)
  | both _ _ left right => exact .both left right
  | parked parked same same' =>
    rcases keeps.parked _ parked with waits | retained
    · exact .parked waits same same'
    · exact .released (retained _ same')
  | released _ ih => exact .released ih
  | dropped grows refuted => exact .dropped (grows.trans keeps.grows) refuted

theorem Keeps.released {premise conclusion : Expr} (keeps : Keeps f tasks f' tasks')
    (released : Released f tasks premise conclusion) : Released f' tasks' premise conclusion := by
  rcases released with ⟨p, parked, same, same'⟩ | retained
  · rcases keeps.parked p parked with waits | retained
    · exact .inl ⟨p, waits, same, same'⟩
    · exact .inr (retained _ same')
  · exact .inr (keeps.retained retained)

theorem Keeps.after {f'' : Facts} {tasks'' : List Task} (second : Keeps f' tasks' f'' tasks'')
    (first : Keeps f tasks f' tasks') : Keeps f tasks f'' tasks'' where
  grows := first.grows.trans second.grows
  queued e queued e' same := second.retained (first.queued e queued e' same)
  parked p parked := by
    rcases first.parked p parked with waits | retained
    · exact second.parked p waits
    · exact .inr fun e same => second.retained (retained e same)

/-- A condition that is learned is the only task that is done in one go. -/
theorem keeps_learn (grows : f.Grows f')
    (learned : ∀ e', e.erase = e'.erase → Retained f' tasks' e')
    (queued : ∀ e, .learn e ∈ rest → .learn e ∈ tasks') (parked : f.parked ⊆ f'.parked) :
    Keeps f (.learn e :: rest) f' tasks' where
  grows := grows
  queued e' isQueued e'' same := by
    rcases List.mem_cons.mp isQueued with here | later
    · cases here
      exact learned e'' same
    · exact .queued (queued e' later) same
  parked p isParked := .inl (parked isParked)

theorem isFact_of_other (notTrue : ∀ span, e = .lit span true → False)
    (notFalse : ∀ span, e = .lit span false → False)
    (notAnd : ∀ span left right, e = .binary span .and left right → False)
    (notImplies : ∀ span premise conclusion, e = .binary span .implies premise conclusion → False) :
    e.isFact := by
  cases e with
  | lit span value => cases value <;> simp_all
  | binary span op left right => cases op <;> simp_all [Expr.isFact]
  | _ => rfl

/-- What was assumed, is about to be or waits is retained when all tasks are done. -/
theorem keeps_settle (f : Facts) (tasks : List Task) : Keeps f tasks (f.settle tasks) [] := by
  fun_induction settle f tasks with
  | case1 f => exact ⟨.refl f, by simp, fun _ => .inl⟩
  | case2 f rest none ih =>
    refine ih.after ⟨.refl f, ?_, fun _ => .inl⟩
    intro e queued e' same
    exact .queued (by simpa using queued) same
  | case3 f rest premise conclusion found ih =>
    refine ih.after ⟨⟨rfl, fun _ => id, id⟩, ?_, ?_⟩
    · intro e queued e' same
      exact .queued (List.mem_cons_of_mem _ queued) same
    · intro p isParked
      refine (mem_eraseP_or_eq isParked found).imp id ?_
      rintro rfl e same
      exact .queued List.mem_cons_self same
  | case4 f span rest ih =>
    refine ih.after (keeps_learn (.refl f) ?_ (fun _ => id) (fun _ => id))
    intro e same
    obtain ⟨span', rfl⟩ := Expr.eq_lit_of_erase same
    exact .literal
  | case5 f span rest ih =>
    refine ih.after (keeps_learn ⟨rfl, fun _ => id, fun _ => rfl⟩ ?_ (fun _ => id) (fun _ => id))
    intro e same
    exact .unreachable rfl
  | case6 f span left right rest ih =>
    refine ih.after (keeps_learn (.refl f) ?_ ?_ (fun _ => id))
    · intro e same
      obtain ⟨span', left', right', rfl, first, second⟩ := Expr.eq_binary_of_erase same
      exact .both (.queued (by simp) first) (.queued (by simp) second)
    · intro e later
      exact List.mem_cons_of_mem _ (List.mem_cons_of_mem _ later)
  | case7 f span premise conclusion rest holds ih =>
    refine ih.after (keeps_learn (.refl f) ?_ (fun _ => List.mem_cons_of_mem _) (fun _ => id))
    intro e same
    obtain ⟨span', premise', conclusion', rfl, -, second⟩ := Expr.eq_binary_of_erase same
    exact .released (.queued (by simp) second)
  | case8 f span premise conclusion rest fails ih =>
    refine ih.after (keeps_learn (.refl f) ?_ (fun _ => id) (fun _ => id))
    intro e same
    obtain ⟨span', premise', conclusion', rfl, first, -⟩ := Expr.eq_binary_of_erase same
    exact .dropped (.refl f) ((f.eval_congr first).symm.trans fails)
  | case9 f span premise conclusion rest undecided ih =>
    refine ih.after (keeps_learn ⟨rfl, fun _ => id, id⟩ ?_ (fun _ => id)
      (List.subset_append_left _ _))
    intro e same
    obtain ⟨span', premise', conclusion', rfl, first, second⟩ := Expr.eq_binary_of_erase same
    exact .parked (p := (premise, conclusion)) (by simp) first second
  | case10 f e rest notTrue notFalse notAnd notImplies unreachable known ih =>
    refine ih.after (keeps_learn ⟨rfl, fun _ => id, ?_⟩ ?_ (fun _ => id) (fun _ => id))
    · intro before
      simp [unreachable, before]
    · intro e' same
      have fact := isFact_of_other notTrue notFalse notAnd notImplies
      exact .known (Expr.isFact_congr same ▸ fact) (Expr.render_congr same ▸ known)
  | case11 f e rest notTrue notFalse notAnd notImplies unreachable new ih =>
    refine ih.after (keeps_learn ⟨rfl, List.subset_cons_self _ _, ?_⟩ ?_
      (fun _ => List.mem_cons_of_mem _) (fun _ => id))
    · intro before
      simp [unreachable, before]
    · intro e' same
      have fact := isFact_of_other notTrue notFalse notAnd notImplies
      exact .known (Expr.isFact_congr same ▸ fact) (Expr.render_congr same ▸ List.mem_cons_self)

/-- By an assumption nothing is forgotten. -/
theorem grows_assume (f : Facts) (e : Expr) : f.Grows (f.assume e) := (keeps_settle f _).grows

/-- A condition is retained once it was assumed. -/
theorem retained_assume (f : Facts) (same : e.erase = e'.erase) : Retained (f.assume e) [] e' :=
  (keeps_settle f [.learn e]).queued e (by simp) e' same

theorem Retained.assume (retained : Retained f [] e) (e' : Expr) :
    Retained (f.assume e') [] e := by
  have more : Keeps f [] f [.learn e'] := ⟨.refl f, by simp, fun _ => .inl⟩
  exact ((keeps_settle f _).after more).retained retained

theorem Released.assume {premise conclusion : Expr} (released : Released f [] premise conclusion)
    (e : Expr) : Released (f.assume e) [] premise conclusion := by
  have more : Keeps f [] f [.learn e] := ⟨.refl f, by simp, fun _ => .inl⟩
  exact ((keeps_settle f _).after more).released released

/-! ## Quiescence -/

/-- Unless implications are about to fire, none waits whose premise is true. -/
def Quiet (f : Facts) (tasks : List Task) : Prop :=
  .fire ∉ tasks → ∀ p ∈ f.parked, f.eval p.1 ≠ some true

theorem quiet_settle (quiet : f.Quiet tasks) : (f.settle tasks).Quiet [] := by
  fun_induction settle f tasks with
  | case1 f => exact quiet
  | case2 f rest none ih =>
    refine ih fun _ p isParked holds => ?_
    exact List.find?_eq_none.mp none p isParked (by simpa [fires] using holds)
  | case3 f rest premise conclusion found ih => exact ih fun idle => absurd (by simp) idle
  | case4 f span rest ih | case6 f span left right rest ih
  | case7 f span premise conclusion rest _ ih | case8 f span premise conclusion rest _ ih =>
    exact ih fun idle => quiet (by simpa using idle)
  | case5 f span rest ih =>
    refine ih fun idle p isParked => ?_
    rw [eval_mk]
    exact quiet (by simpa using idle) p isParked
  | case9 f span premise conclusion rest undecided ih =>
    refine ih fun idle p isParked => ?_
    rw [eval_mk]
    rcases List.mem_append.mp isParked with before | here
    · exact quiet (by simpa using idle) p before
    · rw [List.mem_singleton.mp here, undecided]
      simp
  | case10 f e rest _ _ _ _ unreachable known ih =>
    refine ih fun idle p isParked => ?_
    rw [eval_mk]
    exact quiet (by simpa using idle) p isParked
  | case11 f e rest _ _ _ _ unreachable new ih => exact ih fun idle => absurd (by simp) idle

theorem Quiet.assume (quiet : f.Quiet []) (e : Expr) : (f.assume e).Quiet [] :=
  quiet_settle fun _ => quiet (by simp)

/-! ## Texts -/

/-- The facts have some bindings, know only texts that become known by assumption, and keep
    implications that can be read. -/
structure Regular (b : String → Option Bool) (f : Facts) : Prop where
  bindings : ∀ name, f.bindings.lookup name = b name
  known : ∀ text ∈ f.known, ∃ e : Expr, e.Readable ∧ e.isFact ∧ e.render = text
  parked : ∀ p ∈ f.parked, p.1.Readable ∧ p.2.Readable

/-- What is to be learned first, and what later. -/
theorem forall_learn_cons {P : Expr → Prop} :
    (∀ e', .learn e' ∈ Task.learn e :: rest → P e') ↔ P e ∧ ∀ e', .learn e' ∈ rest → P e' := by
  simp [or_imp, forall_and]

theorem regular_settle {b : String → Option Bool} (regular : f.Regular b)
    (readable : ∀ e, .learn e ∈ tasks → e.Readable) : (f.settle tasks).Regular b := by
  fun_induction settle f tasks with
  | case1 f => exact regular
  | case2 f rest none ih => exact ih regular fun e queued => readable e (by simp [queued])
  | case3 f rest premise conclusion found ih =>
    have fired := (regular.parked _ (List.mem_of_find?_eq_some found)).2
    refine ih ⟨regular.bindings, regular.known, ?_⟩ (forall_learn_cons.mpr ⟨fired, readable⟩)
    exact fun p isParked => regular.parked p (List.mem_of_mem_eraseP isParked)
  | case4 f span rest ih => exact ih regular (forall_learn_cons.mp readable).2
  | case5 f span rest ih =>
    exact ih ⟨regular.bindings, regular.known, regular.parked⟩ (forall_learn_cons.mp readable).2
  | case6 f span left right rest ih =>
    obtain ⟨both, later⟩ := forall_learn_cons.mp readable
    exact ih regular (forall_learn_cons.mpr ⟨both.1, forall_learn_cons.mpr ⟨both.2, later⟩⟩)
  | case7 f span premise conclusion rest holds ih =>
    obtain ⟨both, later⟩ := forall_learn_cons.mp readable
    exact ih regular (forall_learn_cons.mpr ⟨both.2, later⟩)
  | case8 f span premise conclusion rest fails ih =>
    exact ih regular (forall_learn_cons.mp readable).2
  | case9 f span premise conclusion rest undecided ih =>
    obtain ⟨both, later⟩ := forall_learn_cons.mp readable
    refine ih ⟨regular.bindings, regular.known, ?_⟩ later
    rw [List.forall_mem_append, List.forall_mem_singleton]
    exact ⟨regular.parked, both⟩
  | case10 f e rest notTrue notFalse notAnd notImplies unreachable known ih =>
    exact ih ⟨regular.bindings, regular.known, regular.parked⟩ (forall_learn_cons.mp readable).2
  | case11 f e rest notTrue notFalse notAnd notImplies unreachable new ih =>
    obtain ⟨here, later⟩ := forall_learn_cons.mp readable
    refine ih ⟨regular.bindings, ?_, regular.parked⟩ fun e queued => later e (by simpa using queued)
    rw [List.forall_mem_cons]
    exact ⟨⟨e, here, isFact_of_other notTrue notFalse notAnd notImplies, rfl⟩, regular.known⟩

theorem Regular.assume {b : String → Option Bool} (regular : f.Regular b) (readable : e.Readable) :
    (f.assume e).Regular b := by
  apply regular_settle regular
  intro e' queued
  cases List.mem_singleton.mp queued
  exact readable

end Facts

end InvariantInference
