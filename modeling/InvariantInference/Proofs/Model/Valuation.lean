import Mathlib
import InvariantInference.Model.Facts
import InvariantInference.Proofs.Expr.RoundTrip

/-!
# Facts and truth

What fact bases say about truth. A valuation gives every identifier and every
atom a truth value, and so every expression one. Facts that were gathered from
conditions that are true under a valuation are true under it, whatever is
evaluated, assumed or asked for.
-/

namespace InvariantInference

/-- A truth value for every identifier and every atom. -/
structure Valuation where
  ident : String → Bool
  atom : String → Bool

namespace BinOp

/-- The truth table of a connective. -/
def table : BinOp → Bool → Bool → Bool
  | implies, left, right => !left || right
  | or, left, right => left || right
  | and, left, right => left && right
  | eq, left, right => left == right

end BinOp

namespace Expr

/-- The truth value of an expression under a valuation. -/
def value (v : Valuation) : Expr → Bool
  | lit _ value => value
  | ident _ name => v.ident name.value
  | atom _ text => v.atom text
  | not _ operand => !operand.value v
  | binary _ op left right => op.table (left.value v) (right.value v)

/-- Spans do not matter for truth. -/
@[simp] theorem value_erase (v : Valuation) (e : Expr) : e.erase.value v = e.value v := by
  induction e with
  | not _ _ ih => simp only [erase, value, ih]
  | binary _ _ _ _ ihLeft ihRight => simp only [erase, value, ihLeft, ihRight]
  | _ => rfl

/-- Expressions with the same text are true under the same valuations. -/
theorem value_eq_of_render_eq {e e' : Expr} (readable : e.Readable) (readable' : e'.Readable)
    (same : e.render = e'.render) (v : Valuation) : e.value v = e'.value v := by
  rw [← value_erase, erase_eq_of_render_eq readable readable' same, value_erase]

/-- An expression is true iff all its conjuncts are. -/
theorem value_iff_conjuncts (v : Valuation) (e : Expr) :
    e.value v ↔ ∀ c ∈ e.conjuncts, c.value v := by
  induction e with
  | binary _ op left right ihLeft ihRight =>
    cases op with
    | and =>
      simp only [conjuncts, List.forall_mem_append, ← ihLeft, ← ihRight]
      simp [value, BinOp.table]
    | _ => simp [conjuncts]
  | _ => simp [conjuncts]

/-- A true equation gives an identifier its value. -/
theorem ident_of_binding? {v : Valuation} {e : Expr} {name : String} {b : Bool}
    (equation : e.binding? = some (name, b)) (holds : e.value v) : v.ident name = b := by
  unfold binding? at equation
  split at equation
  · simp only [Option.some.injEq, Prod.mk.injEq] at equation
    obtain ⟨rfl, rfl⟩ := equation
    simpa [value, BinOp.table] using holds
  · cases equation

/-- The conjuncts of a readable expression are readable. -/
theorem Readable.conjuncts {e c : Expr} (readable : e.Readable) (member : c ∈ e.conjuncts) :
    c.Readable := by
  induction e with
  | binary _ op left right ihLeft ihRight =>
    cases op with
    | and =>
      rcases List.mem_append.mp member with first | second
      · exact ihLeft readable.1 first
      · exact ihRight readable.2 second
    | _ =>
      rw [List.mem_singleton.mp member]
      exact readable
  | _ =>
    rw [List.mem_singleton.mp member]
    exact readable

end Expr

namespace Facts

variable {v : Valuation}

/-- Facts that are true under a valuation. Their texts are those of readable
    expressions, so that a text stands for one condition only. -/
structure Sound (v : Valuation) (f : Facts) : Prop where
  bindings : ∀ name b, f.bindings.lookup name = some b → v.ident name = b
  known : ∀ text ∈ f.known, ∃ e : Expr, e.Readable ∧ e.render = text ∧ e.value v
  parked : ∀ p ∈ f.parked, p.1.Readable ∧ p.2.Readable ∧ (p.1.value v → p.2.value v)
  reachable : f.unreachable = false

/-- What a task adds is true. -/
def Task.Sound (v : Valuation) : Task → Prop
  | learn condition => condition.Readable ∧ condition.value v
  | fire => True

/-! ## Evaluation -/

/-- A known text is that of a true condition. -/
theorem Sound.value_of_mem {f : Facts} (sound : f.Sound v) {e : Expr} (readable : e.Readable)
    (member : e.render ∈ f.known) : e.value v := by
  obtain ⟨e', readable', same, holds⟩ := sound.known _ member
  rw [← Expr.value_eq_of_render_eq readable' readable same]
  exact holds

/-- What is looked up is the truth value. -/
theorem Sound.value_of_lookup {f : Facts} (sound : f.Sound v) {e : Expr} {b : Bool}
    (readable : e.Readable) (found : f.lookup e = some b) : e.value v = b := by
  unfold lookup at found
  split at found
  · rename_i member
    cases found
    exact sound.value_of_mem readable member
  · split at found
    · rename_i member
      cases found
      have negated : e.negate.value v := sound.value_of_mem (e := e.negate) readable member
      simpa [Expr.negate, Expr.value] using negated
    · cases found

/-- A connective is decided only as its truth table has it. -/
theorem table_of_apply {op : BinOp} {left right : Option Bool} {l r b : Bool}
    (first : ∀ b, left = some b → l = b) (second : ∀ b, right = some b → r = b)
    (decided : apply op left right = some b) : op.table l r = b := by
  rcases left with _ | left <;> rcases right with _ | right
  · cases op <;> simp [apply, both, either, follows, agree] at decided
  · have := second right rfl
    subst this
    cases op <;> cases r <;>
      simp_all [apply, both, either, follows, agree, BinOp.table]
  · have := first left rfl
    subst this
    cases op <;> cases l <;>
      simp_all [apply, both, either, follows, agree, BinOp.table]
  · have := first left rfl
    subst this
    have := second right rfl
    subst this
    cases op <;> cases l <;> cases r <;>
      simp_all [apply, both, either, follows, agree, BinOp.table]

/-- Where the facts decide an expression, they give it its truth value. -/
theorem Sound.value_of_eval {f : Facts} (sound : f.Sound v) {e : Expr} {b : Bool}
    (readable : e.Readable) (decided : f.eval e = some b) : e.value v = b := by
  induction e generalizing b with
  | lit _ value =>
    cases decided
    rfl
  | ident span name =>
    rcases Option.or_eq_some_iff.mp decided with bound | ⟨-, found⟩
    · exact sound.bindings _ _ bound
    · exact sound.value_of_lookup readable found
  | atom span text => exact sound.value_of_lookup readable decided
  | not span operand ih =>
    rcases Option.or_eq_some_iff.mp decided with found | ⟨-, negated⟩
    · exact sound.value_of_lookup readable found
    · obtain ⟨b, evaluated, rfl⟩ := Option.map_eq_some_iff.mp negated
      rw [Expr.value, ih readable evaluated]
  | binary span op left right ihLeft ihRight =>
    rw [eval] at decided
    split at decided
    · rename_i member
      cases decided
      exact sound.value_of_mem readable member
    · exact table_of_apply (fun _ => ihLeft readable.1) (fun _ => ihRight readable.2) decided

/-! ## Assumption -/

/-- A true equation contradicts no true fact. -/
theorem Sound.not_contradicts {f : Facts} (sound : f.Sound v) {e : Expr} (holds : e.value v) :
    f.contradicts e = false := by
  unfold contradicts
  split
  · rename_i name b equation
    have given := Expr.ident_of_binding? equation holds
    rw [decide_eq_false_iff_not]
    intro bound
    have opposite := sound.bindings name _ bound
    rw [given] at opposite
    simp at opposite
  · rfl

/-- Doing tasks that add what is true leaves the facts true. -/
theorem sound_settle {f : Facts} {tasks : List Task} (sound : f.Sound v)
    (told : ∀ task ∈ tasks, task.Sound v) : (f.settle tasks).Sound v := by
  fun_induction settle f tasks with
  | case1 f => exact sound
  | case2 f rest none ih => exact ih sound fun task member => told task (by simp [member])
  | case3 f rest premise conclusion found ih =>
    rw [List.forall_mem_cons] at told
    obtain ⟨readable, readable', implies⟩ := sound.parked _ (List.mem_of_find?_eq_some found)
    have fires : f.eval premise = some true := by
      simpa [fires] using List.find?_some found
    have concluded : conclusion.value v := implies (sound.value_of_eval readable fires)
    refine ih ⟨sound.bindings, sound.known, ?_, sound.reachable⟩ ?_
    · exact fun p member => sound.parked p (List.mem_of_mem_eraseP member)
    · rw [List.forall_mem_cons, List.forall_mem_cons]
      exact ⟨⟨readable', concluded⟩, trivial, told.2⟩
  | case4 f rest span ih =>
    rw [List.forall_mem_cons] at told
    exact ih sound told.2
  | case5 f rest span ih =>
    rw [List.forall_mem_cons] at told
    cases told.1.2
  | case6 f rest span left right ih =>
    rw [List.forall_mem_cons] at told
    obtain ⟨⟨readable, holds⟩, later⟩ := told
    simp only [Expr.value, BinOp.table, Bool.and_eq_true] at holds
    refine ih sound ?_
    rw [List.forall_mem_cons, List.forall_mem_cons]
    exact ⟨⟨readable.1, holds.1⟩, ⟨readable.2, holds.2⟩, later⟩
  | case7 f rest span premise conclusion decided ih =>
    rw [List.forall_mem_cons] at told
    obtain ⟨⟨readable, holds⟩, later⟩ := told
    have premised := sound.value_of_eval readable.1 decided
    simp only [Expr.value, BinOp.table, premised, Bool.not_true, Bool.false_or] at holds
    refine ih sound ?_
    rw [List.forall_mem_cons]
    exact ⟨⟨readable.2, holds⟩, later⟩
  | case8 f rest span premise conclusion decided ih =>
    rw [List.forall_mem_cons] at told
    exact ih sound told.2
  | case9 f rest span premise conclusion undecided ih =>
    rw [List.forall_mem_cons] at told
    obtain ⟨⟨readable, holds⟩, later⟩ := told
    refine ih ⟨sound.bindings, sound.known, ?_, sound.reachable⟩ later
    rw [List.forall_mem_append, List.forall_mem_singleton]
    refine ⟨sound.parked, readable.1, readable.2, fun premised => ?_⟩
    simpa [Expr.value, BinOp.table, premised] using holds
  | case10 f e rest _ _ _ _ unreachable _ ih =>
    rw [List.forall_mem_cons] at told
    have reached : unreachable = false := by
      simp only [unreachable, sound.reachable, sound.not_contradicts told.1.2, Bool.or_self]
    exact ih ⟨sound.bindings, sound.known, sound.parked, reached⟩ told.2
  | case11 f e rest _ _ _ _ unreachable _ ih =>
    rw [List.forall_mem_cons] at told
    obtain ⟨⟨readable, holds⟩, later⟩ := told
    have reached : unreachable = false := by
      simp only [unreachable, sound.reachable, sound.not_contradicts holds, Bool.or_self]
    refine ih ⟨sound.bindings, ?_, sound.parked, reached⟩ ?_
    · rw [List.forall_mem_cons]
      exact ⟨⟨e, readable, rfl, holds⟩, sound.known⟩
    · rw [List.forall_mem_cons]
      exact ⟨trivial, later⟩

/-- Assuming what is true leaves the facts true. -/
theorem Sound.assume {f : Facts} (sound : f.Sound v) {e : Expr} (readable : e.Readable)
    (holds : e.value v) : (f.assume e).Sound v :=
  sound_settle sound (by rw [List.forall_mem_singleton]; exact ⟨readable, holds⟩)

/-! ## Entailment -/

/-- Conditions other than implications hold if they evaluate to true. -/
theorem holds_other {f : Facts} {e : Expr}
    (other : ∀ span premise conclusion, e ≠ .binary span .implies premise conclusion) :
    f.holds e = (f.unreachable || f.eval e = some true) := by
  rw [holds.eq_def]
  split
  · rename_i span premise conclusion
    exact absurd rfl (other span premise conclusion)
  · rfl

/-- What holds by facts that are true is true. -/
theorem Sound.value_of_holds {f : Facts} (sound : f.Sound v) {e : Expr} (readable : e.Readable)
    (held : f.holds e) : e.value v := by
  have evaluated : ∀ {f : Facts} {e : Expr}, f.Sound v → e.Readable → f.holds e →
      (∀ span premise conclusion, e ≠ .binary span .implies premise conclusion) →
      e.value v := by
    intro f e sound readable held other
    rw [holds_other other, sound.reachable, Bool.false_or, decide_eq_true_eq] at held
    exact sound.value_of_eval readable held
  induction e generalizing f with
  | binary span op premise conclusion _ ih =>
    by_cases implies : op = .implies
    · subst implies
      rw [holds] at held
      simp only [sound.reachable, Bool.false_or, Bool.or_eq_true, decide_eq_true_eq] at held
      rcases held with refuted | held
      · simp [Expr.value, BinOp.table, sound.value_of_eval readable.1 refuted]
      · -- Under a true premise the facts stay true once it is assumed.
        cases premised : premise.value v with
        | false => simp [Expr.value, BinOp.table, premised]
        | true =>
          have concluded := ih (sound.assume readable.1 premised) readable.2 held
          simp [Expr.value, BinOp.table, concluded]
    · refine evaluated sound readable held fun _ _ _ same => ?_
      cases same
      exact implies rfl
  | _ => exact evaluated sound readable held (by simp)

end Facts

end InvariantInference
