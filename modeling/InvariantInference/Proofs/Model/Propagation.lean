import Mathlib
import InvariantInference.Proofs.Model.Valuation

/-!
# Propagation

Where only clauses are assumed, that is leaves and implications between leaves,
the facts are exactly what the clauses derive: `Derives` is the smallest set of
texts that holds the assumed leaves and is closed under the assumed
implications. The order in which implications are parked and fired does not
show.
-/

namespace InvariantInference

namespace Expr

/-- Whether an expression is an identifier or an atom. -/
def isLeaf : Expr → Bool
  | ident _ _ | atom _ _ => true
  | _ => false

/-- Whether an expression is a leaf or an implication between leaves. -/
def isClause : Expr → Bool
  | binary _ .implies premise conclusion => premise.isLeaf && conclusion.isLeaf
  | e => e.isLeaf

/-- The value that some bindings give to an expression. -/
def bound (b : String → Option Bool) (e : Expr) : Option Bool := e.name?.bind b

/-- What a clause concludes: that of an implication, and a leaf itself. -/
def conclusion : Expr → Expr
  | binary _ .implies _ conclusion => conclusion
  | e => e

/-- A clause is a leaf or an implication between leaves. -/
theorem isClause_cases {e : Expr} (clause : e.isClause) :
    e.isLeaf ∨ ∃ span premise conclusion, e = .binary span .implies premise conclusion ∧
      premise.isLeaf ∧ conclusion.isLeaf := by
  cases e with
  | binary span op left right =>
    cases op with
    | implies =>
      simp only [isClause, Bool.and_eq_true] at clause
      exact .inr ⟨span, left, right, rfl, clause⟩
    | _ => exact .inl clause
  | _ => exact .inl clause

/-- A leaf is a clause. -/
theorem isClause_of_isLeaf {e : Expr} (leaf : e.isLeaf) : e.isClause := by
  cases e <;> first | rfl | cases leaf

/-- A leaf is no equation. -/
theorem binding?_of_isLeaf {e : Expr} (leaf : e.isLeaf) : e.binding? = none := by
  cases e with
  | ident => rfl
  | atom => rfl
  | _ => cases leaf

/-- No leaf has the text of a negation. -/
theorem render_negate_ne {e e' : Expr} (leaf : e.isLeaf) (readable : e.Readable)
    (readable' : e'.Readable) : e.render ≠ e'.negate.render := by
  intro same
  have erased : e.erase = e'.negate.erase := erase_eq_of_render_eq readable readable' same
  cases e with
  | ident => cases erased
  | atom => cases erased
  | _ => cases leaf

end Expr

/-- The texts that clauses derive under some bindings. An implication whose premise
    is bound to false derives nothing; its premise need not be derived if it is
    bound to true. -/
inductive Derives (b : String → Option Bool) (cs : List Expr) : String → Prop
  | fact {e : Expr} (member : e ∈ cs) (leaf : e.isLeaf) : Derives b cs e.render
  | guarded {span : Span} {premise conclusion : Expr}
      (member : .binary span .implies premise conclusion ∈ cs)
      (holds : premise.bound b = some true) : Derives b cs conclusion.render
  | rule {span : Span} {premise conclusion : Expr}
      (member : .binary span .implies premise conclusion ∈ cs)
      (unbound : premise.bound b = none) (derived : Derives b cs premise.render) :
      Derives b cs conclusion.render

/-- Conditions that are clauses and were made of words that can be read. -/
def Clauses (cs : List Expr) : Prop := ∀ e ∈ cs, e.isClause ∧ e.Readable

variable {b : String → Option Bool} {cs : List Expr}

/-- A leaf is one more clause. -/
theorem Clauses.concat {e : Expr} (clauses : Clauses cs) (leaf : e.isLeaf) (readable : e.Readable) :
    Clauses (cs ++ [e]) := by
  unfold Clauses
  rw [List.forall_mem_append, List.forall_mem_singleton]
  exact ⟨clauses, Expr.isClause_of_isLeaf leaf, readable⟩

theorem Derives.mono {b' : String → Option Bool} {cs' : List Expr} {text : String}
    (derives : Derives b cs text) (more : cs ⊆ cs')
    (truer : ∀ name, b name = some true → b' name = some true)
    (unbound : ∀ name, b name = none → b' name = none) : Derives b' cs' text := by
  induction derives with
  | fact member leaf => exact .fact (more member) leaf
  | @guarded span premise conclusion member holds =>
    refine .guarded (more member) ?_
    obtain ⟨name, named, bound⟩ := Option.bind_eq_some_iff.mp holds
    exact Option.bind_eq_some_iff.mpr ⟨name, named, truer name bound⟩
  | @rule span premise conclusion member free _ ih =>
    refine .rule (more member) ?_ ih
    rw [Expr.bound, Option.bind_eq_none_iff] at free ⊢
    exact fun name named => unbound name (free name named)

theorem Derives.weaken {cs' : List Expr} {text : String} (derives : Derives b cs text)
    (more : cs ⊆ cs') : Derives b cs' text :=
  derives.mono more (fun _ => id) (fun _ => id)

/-- What clauses derive are the texts of leaves. -/
theorem Derives.leaf {text : String} (clauses : Clauses cs) (derives : Derives b cs text) :
    ∃ e : Expr, e.isLeaf ∧ e.Readable ∧ e.render = text := by
  have conclusion : ∀ {span premise conclusion},
      Expr.binary span .implies premise conclusion ∈ cs →
        conclusion.isLeaf ∧ conclusion.Readable := by
    intro span premise conclusion member
    obtain ⟨clause, readable⟩ := clauses _ member
    simp only [Expr.isClause, Bool.and_eq_true] at clause
    exact ⟨clause.2, readable.2⟩
  cases derives with
  | fact member leaf => exact ⟨_, leaf, (clauses _ member).2, rfl⟩
  | guarded member _ => exact ⟨_, (conclusion member).1, (conclusion member).2, rfl⟩
  | rule member _ _ => exact ⟨_, (conclusion member).1, (conclusion member).2, rfl⟩

namespace Facts

/-- A clause that is not lost: it is still to be learned, or known, or it is an
    implication that is refuted, parked, or replaced by its conclusion. -/
inductive Kept (b : String → Option Bool) (f : Facts) (tasks : List Task) : Expr → Prop
  | queued {e : Expr} (queued : .learn e ∈ tasks) : Kept b f tasks e
  | known {e : Expr} (leaf : e.isLeaf) (known : e.render ∈ f.known) : Kept b f tasks e
  | refuted {span : Span} {premise conclusion : Expr} (refuted : premise.bound b = some false) :
      Kept b f tasks (.binary span .implies premise conclusion)
  | parked {span : Span} {premise conclusion : Expr}
      (parked : (premise, conclusion) ∈ f.parked) :
      Kept b f tasks (.binary span .implies premise conclusion)
  | replaced {span : Span} {premise conclusion : Expr} (kept : Kept b f tasks conclusion) :
      Kept b f tasks (.binary span .implies premise conclusion)

/-- The state of an assumption on the way: nothing is known, parked or to be
    learned but what the clauses derive, and no clause is lost. Parked
    implications whose premises are known are about to fire. -/
structure Propagates (b : String → Option Bool) (cs : List Expr) (f : Facts)
    (tasks : List Task) : Prop where
  bindings : ∀ name, f.bindings.lookup name = b name
  reachable : f.unreachable = false
  known : ∀ text ∈ f.known, Derives b cs text
  parked : ∀ p ∈ f.parked, p.1.bound b = none ∧ ∃ span, .binary span .implies p.1 p.2 ∈ cs
  learned : ∀ e, .learn e ∈ tasks → e ∈ cs ∨ e.isLeaf ∧ Derives b cs e.render
  kept : ∀ e ∈ cs, Kept b f tasks e
  saturated : .fire ∉ tasks → ∀ p ∈ f.parked, p.1.render ∉ f.known

/-- A clause stays kept if nothing known is forgotten, and what was to be learned
    or was parked is kept in the next state. -/
theorem Kept.next {f f' : Facts} {tasks tasks' : List Task} {e : Expr} (kept : Kept b f tasks e)
    (queued : ∀ e, .learn e ∈ tasks → Kept b f' tasks' e) (known : f.known ⊆ f'.known)
    (parked : ∀ p ∈ f.parked, p ∈ f'.parked ∨ Kept b f' tasks' p.2) : Kept b f' tasks' e := by
  induction kept with
  | queued isQueued => exact queued _ isQueued
  | known leaf isKnown => exact .known leaf (known isKnown)
  | refuted refuted => exact .refuted refuted
  | parked isParked =>
    rcases parked _ isParked with stays | kept
    · exact .parked stays
    · exact .replaced kept
  | replaced _ ih => exact .replaced ih

variable {f : Facts} {tasks : List Task}

/-- The value of a leaf: that of its name if it is bound, and else whether it is
    known. -/
theorem Propagates.eval_leaf (state : f.Propagates b cs tasks) (clauses : Clauses cs) {e : Expr}
    (leaf : e.isLeaf) (readable : e.Readable) :
    f.eval e = (e.bound b).or (if e.render ∈ f.known then some true else none) := by
  have negated : e.negate.render ∉ f.known := by
    intro member
    obtain ⟨e', leaf', readable', same⟩ := (state.known _ member).leaf clauses
    exact Expr.render_negate_ne leaf' readable' readable same
  have looked : f.lookup e = if e.render ∈ f.known then some true else none := by
    simp only [lookup, negated, if_false]
  cases e with
  | ident span name => simp only [eval, looked, state.bindings, Expr.bound, Expr.name?, Option.bind]
  | atom span text => simp only [eval, looked, Expr.bound, Expr.name?, Option.bind, Option.none_or]
  | _ => cases leaf

/-- A leaf is true iff it is bound to true, or unbound and known. -/
theorem Propagates.eval_eq_true_iff (state : f.Propagates b cs tasks) (clauses : Clauses cs)
    {e : Expr} (leaf : e.isLeaf) (readable : e.Readable) :
    f.eval e = some true ↔ e.bound b = some true ∨ e.bound b = none ∧ e.render ∈ f.known := by
  rw [state.eval_leaf clauses leaf readable]
  cases e.bound b with
  | some value => simp
  | none => simp

/-- A leaf is false iff it is bound to false. -/
theorem Propagates.eval_eq_false_iff (state : f.Propagates b cs tasks) (clauses : Clauses cs)
    {e : Expr} (leaf : e.isLeaf) (readable : e.Readable) :
    f.eval e = some false ↔ e.bound b = some false := by
  rw [state.eval_leaf clauses leaf readable]
  cases e.bound b with
  | some value => simp
  | none => simp

/-- A member of a list is taken out or stays. -/
theorem mem_eraseP_or_eq {α : Type} {p : α → Bool} {l : List α} {a found : α}
    (member : a ∈ l) (first : l.find? p = some found) : a ∈ l.eraseP p ∨ a = found := by
  induction l with
  | nil => cases member
  | cons head rest ih =>
    by_cases holds : p head
    · simp only [List.find?_cons, holds, Option.some.injEq] at first
      subst first
      rw [List.eraseP_cons_of_pos holds]
      exact (List.mem_cons.mp member).symm
    · simp only [List.find?_cons, holds] at first
      rw [List.eraseP_cons_of_neg holds]
      rcases List.mem_cons.mp member with rfl | later
      · exact .inl List.mem_cons_self
      · exact (ih later first).imp (List.mem_cons_of_mem head) id

/-! ### One task -/

variable {rest : List Task} {span : Span} {premise conclusion e : Expr}

/-- Where no parked implication can fire, all of them stay parked. -/
theorem Propagates.idle (state : f.Propagates b cs (.fire :: rest)) (clauses : Clauses cs)
    (none : f.parked.find? f.fires = none) : f.Propagates b cs rest := by
  refine ⟨state.bindings, state.reachable, state.known, state.parked, ?_, ?_, ?_⟩
  · exact fun e queued => state.learned e (List.mem_cons_of_mem _ queued)
  · intro e member
    refine (state.kept e member).next (fun e queued => ?_) (fun _ => id) (fun _ => .inl)
    exact .queued (by simpa using queued)
  · intro _ p isParked known
    obtain ⟨unbound, span, member⟩ := state.parked p isParked
    obtain ⟨clause, readable⟩ := clauses _ member
    simp only [Expr.isClause, Bool.and_eq_true] at clause
    have stuck := List.find?_eq_none.mp none p isParked
    simp only [fires, decide_eq_true_eq] at stuck
    exact stuck ((state.eval_eq_true_iff clauses clause.1 readable.1).mpr (.inr ⟨unbound, known⟩))

/-- A parked implication that fires gives its conclusion to be learned. -/
theorem Propagates.fired (state : f.Propagates b cs (.fire :: rest)) (clauses : Clauses cs)
    (found : f.parked.find? f.fires = some (premise, conclusion)) :
    { f with parked := f.parked.eraseP f.fires }.Propagates b cs
      (.learn conclusion :: .fire :: rest) := by
  obtain ⟨unbound, span, member⟩ := state.parked _ (List.mem_of_find?_eq_some found)
  obtain ⟨clause, readable⟩ := clauses _ member
  simp only [Expr.isClause, Bool.and_eq_true] at clause
  have holds : f.eval premise = some true := by simpa [fires] using List.find?_some found
  have derived : Derives b cs conclusion.render := by
    rcases (state.eval_eq_true_iff clauses clause.1 readable.1).mp holds with bound | ⟨-, known⟩
    · rw [unbound] at bound
      cases bound
    · exact .rule member unbound (state.known _ known)
  refine ⟨state.bindings, state.reachable, state.known, ?_, ?_, ?_, by simp⟩
  · exact fun p isParked => state.parked p (List.mem_of_mem_eraseP isParked)
  · intro e queued
    rcases List.mem_cons.mp queued with same | later
    · cases same
      exact .inr ⟨clause.2, derived⟩
    · exact state.learned e later
  · intro e member
    refine (state.kept e member).next ?_ (fun _ => id) ?_
    · exact fun e queued => .queued (List.mem_cons_of_mem _ queued)
    · intro p isParked
      refine (mem_eraseP_or_eq isParked found).imp id ?_
      rintro rfl
      exact .queued List.mem_cons_self

/-- An implication that is to be learned is one of the clauses. -/
theorem Propagates.implication
    (state : f.Propagates b cs (.learn (.binary span .implies premise conclusion) :: rest))
    (clauses : Clauses cs) :
    .binary span .implies premise conclusion ∈ cs ∧ premise.isLeaf ∧ premise.Readable ∧
      conclusion.isLeaf := by
  rcases state.learned _ List.mem_cons_self with member | ⟨leaf, -⟩
  · obtain ⟨clause, readable⟩ := clauses _ member
    simp only [Expr.isClause, Bool.and_eq_true] at clause
    exact ⟨member, clause.1, readable.1, clause.2⟩
  · cases leaf

/-- Once a condition was learned, all clauses are kept if the condition is. -/
theorem Propagates.kept_rest {f' : Facts} {tasks' : List Task}
    (state : f.Propagates b cs (.learn e :: rest)) (learned : Kept b f' tasks' e)
    (queued : ∀ e, .learn e ∈ rest → .learn e ∈ tasks') (known : f.known ⊆ f'.known)
    (parked : f.parked ⊆ f'.parked) : ∀ e ∈ cs, Kept b f' tasks' e := by
  intro e' member
  refine (state.kept e' member).next ?_ known (fun p isParked => .inl (parked isParked))
  intro e' isQueued
  rcases List.mem_cons.mp isQueued with same | later
  · cases same
    exact learned
  · exact .queued (queued e' later)

/-- An implication with a true premise gives its conclusion to be learned. -/
theorem Propagates.released
    (state : f.Propagates b cs (.learn (.binary span .implies premise conclusion) :: rest))
    (clauses : Clauses cs) (holds : f.eval premise = some true) :
    f.Propagates b cs (.learn conclusion :: rest) := by
  obtain ⟨member, leaf, readable, leaf'⟩ := state.implication clauses
  have derived : Derives b cs conclusion.render := by
    rcases (state.eval_eq_true_iff clauses leaf readable).mp holds with bound | ⟨unbound, known⟩
    · exact .guarded member bound
    · exact .rule member unbound (state.known _ known)
  refine ⟨state.bindings, state.reachable, state.known, state.parked, ?_, ?_, ?_⟩
  · intro e queued
    rcases List.mem_cons.mp queued with same | later
    · cases same
      exact .inr ⟨leaf', derived⟩
    · exact state.learned e (List.mem_cons_of_mem _ later)
  · exact state.kept_rest (.replaced (.queued List.mem_cons_self))
      (fun _ => List.mem_cons_of_mem _) (fun _ => id) (fun _ => id)
  · exact fun quiet => state.saturated (by simpa using quiet)

/-- An implication with a false premise is dropped. -/
theorem Propagates.dropped
    (state : f.Propagates b cs (.learn (.binary span .implies premise conclusion) :: rest))
    (clauses : Clauses cs) (fails : f.eval premise = some false) : f.Propagates b cs rest := by
  obtain ⟨-, leaf, readable, -⟩ := state.implication clauses
  have refuted := (state.eval_eq_false_iff clauses leaf readable).mp fails
  refine ⟨state.bindings, state.reachable, state.known, state.parked, ?_, ?_, ?_⟩
  · exact fun e queued => state.learned e (List.mem_cons_of_mem _ queued)
  · exact state.kept_rest (.refuted refuted) (fun _ => id) (fun _ => id) (fun _ => id)
  · exact fun quiet => state.saturated (by simpa using quiet)

/-- An implication with an undecided premise is parked. -/
theorem Propagates.parks
    (state : f.Propagates b cs (.learn (.binary span .implies premise conclusion) :: rest))
    (clauses : Clauses cs) (undecided : f.eval premise = none) :
    { f with parked := f.parked ++ [(premise, conclusion)] }.Propagates b cs rest := by
  obtain ⟨member, leaf, readable, -⟩ := state.implication clauses
  rw [state.eval_leaf clauses leaf readable, Option.or_eq_none_iff] at undecided
  obtain ⟨unbound, unknown⟩ := undecided
  have fresh : premise.render ∉ f.known := by simpa using unknown
  refine ⟨state.bindings, state.reachable, state.known, ?_, ?_, ?_, ?_⟩
  · rw [List.forall_mem_append, List.forall_mem_singleton]
    exact ⟨state.parked, unbound, span, member⟩
  · exact fun e queued => state.learned e (List.mem_cons_of_mem _ queued)
  · exact state.kept_rest (.parked (by simp)) (fun _ => id) (fun _ => id)
      (List.subset_append_left _ _)
  · intro quiet
    rw [List.forall_mem_append, List.forall_mem_singleton]
    exact ⟨state.saturated (by simpa using quiet), fresh⟩

/-- A leaf that is known already is skipped. -/
theorem Propagates.recalled (state : f.Propagates b cs (.learn e :: rest)) (leaf : e.isLeaf)
    (known : e.render ∈ f.known) : f.Propagates b cs rest := by
  refine ⟨state.bindings, state.reachable, state.known, state.parked, ?_, ?_, ?_⟩
  · exact fun e queued => state.learned e (List.mem_cons_of_mem _ queued)
  · exact state.kept_rest (.known leaf known) (fun _ => id) (fun _ => id) (fun _ => id)
  · exact fun quiet => state.saturated (by simpa using quiet)

/-- A new leaf becomes known, and parked implications may fire. -/
theorem Propagates.added (state : f.Propagates b cs (.learn e :: rest)) (leaf : e.isLeaf) :
    { f with known := e.render :: f.known }.Propagates b cs (.fire :: rest) := by
  have derived : Derives b cs e.render := by
    rcases state.learned e List.mem_cons_self with member | ⟨-, derived⟩
    · exact .fact member leaf
    · exact derived
  refine ⟨state.bindings, state.reachable, ?_, state.parked, ?_, ?_, by simp⟩
  · rw [List.forall_mem_cons]
    exact ⟨derived, state.known⟩
  · intro e queued
    refine state.learned e (List.mem_cons_of_mem _ ?_)
    simpa using queued
  · exact state.kept_rest (.known leaf List.mem_cons_self) (fun _ => List.mem_cons_of_mem _)
      (List.subset_cons_self _ _) (fun _ => id)

/-! ### All tasks -/

/-- Doing the tasks leaves nothing to be done, and derives what the clauses do. -/
theorem propagates_settle (state : f.Propagates b cs tasks) (clauses : Clauses cs) :
    (f.settle tasks).Propagates b cs [] := by
  -- What is to be learned is a clause.
  have clause : ∀ {f : Facts} {e : Expr} {rest : List Task},
      f.Propagates b cs (.learn e :: rest) → e.isClause := by
    intro f e rest state
    rcases state.learned e List.mem_cons_self with member | ⟨leaf, -⟩
    · exact (clauses e member).1
    · exact Expr.isClause_of_isLeaf leaf
  fun_induction settle f tasks with
  | case1 f => exact state
  | case2 f rest none ih => exact ih (state.idle clauses none)
  | case3 f rest premise conclusion found ih => exact ih (state.fired clauses found)
  | case4 f rest span ih => cases clause state
  | case5 f rest span ih => cases clause state
  | case6 f rest span left right ih => cases clause state
  | case7 f rest span premise conclusion holds ih => exact ih (state.released clauses holds)
  | case8 f rest span premise conclusion fails ih => exact ih (state.dropped clauses fails)
  | case9 f rest span premise conclusion undecided ih => exact ih (state.parks clauses undecided)
  | case10 f e rest _ _ _ notImplies unreachable known ih =>
    rcases Expr.isClause_cases (clause state) with leaf | ⟨span, premise, conclusion, rfl, -⟩
    · have reached : unreachable = false := by
        simp [unreachable, state.reachable, contradicts, Expr.binding?_of_isLeaf leaf]
      rw [reached, ← state.reachable] at ih ⊢
      exact ih (state.recalled leaf known)
    · exact absurd rfl (notImplies span premise conclusion)
  | case11 f e rest _ _ _ notImplies unreachable new ih =>
    rcases Expr.isClause_cases (clause state) with leaf | ⟨span, premise, conclusion, rfl, -⟩
    · have reached : unreachable = false := by
        simp [unreachable, state.reachable, contradicts, Expr.binding?_of_isLeaf leaf]
      rw [reached, ← state.reachable] at ih ⊢
      exact ih (state.added leaf)
    · exact absurd rfl (notImplies span premise conclusion)

/-! ### Closed facts -/

/-- Facts between two assumptions: all that the clauses derive is known. -/
def Closed (b : String → Option Bool) (cs : List Expr) (f : Facts) : Prop := f.Propagates b cs []

/-- With nothing left to be learned, a leaf is kept only if it is known. -/
theorem Kept.mem_known (kept : Kept b f [] e) (leaf : e.isLeaf) : e.render ∈ f.known := by
  cases kept with
  | queued queued => cases queued
  | known _ known => exact known
  | refuted _ => cases leaf
  | parked _ => cases leaf
  | replaced _ => cases leaf

/-- What is known is what the clauses derive. -/
theorem Closed.mem_known_iff (closed : f.Closed b cs) (clauses : Clauses cs) {text : String} :
    text ∈ f.known ↔ Derives b cs text := by
  refine ⟨closed.known text, fun derives => ?_⟩
  -- An implication that is not refuted and cannot be parked is kept by its conclusion.
  have concluded : ∀ {span premise conclusion},
      Expr.binary span .implies premise conclusion ∈ cs → premise.bound b ≠ some false →
      (premise, conclusion) ∉ f.parked → conclusion.render ∈ f.known := by
    intro span premise conclusion member open' unparked
    have clause := (clauses _ member).1
    simp only [Expr.isClause, Bool.and_eq_true] at clause
    cases closed.kept _ member with
    | queued queued => cases queued
    | known leaf _ => cases leaf
    | refuted refuted => exact absurd refuted open'
    | parked parked => exact absurd parked unparked
    | replaced kept => exact kept.mem_known clause.2
  induction derives with
  | fact member leaf => exact (closed.kept _ member).mem_known leaf
  | guarded member holds =>
    refine concluded member (by simp [holds]) fun isParked => ?_
    have unbound := (closed.parked _ isParked).1
    rw [holds] at unbound
    cases unbound
  | rule member unbound _ ih =>
    exact concluded member (by simp [unbound]) fun isParked =>
      closed.saturated (by simp) _ isParked ih

/-- Before anything is assumed nothing is known. -/
theorem closed_ofBindings (bindings : List (String × Bool)) :
    (ofBindings bindings).Closed (bindings.lookup ·) [] :=
  ⟨fun _ => rfl, rfl, by simp [ofBindings], by simp [ofBindings], by simp, by simp,
    by simp [ofBindings]⟩

/-- Assuming a clause adds what it derives together with the others. -/
theorem Closed.assume (closed : f.Closed b cs) (clauses : Clauses (cs ++ [e])) :
    (f.assume e).Closed b (cs ++ [e]) := by
  refine propagates_settle ⟨closed.bindings, closed.reachable, ?_, ?_, ?_, ?_, ?_⟩ clauses
  · exact fun text known => (closed.known text known).weaken (List.subset_append_left _ _)
  · intro p isParked
    obtain ⟨unbound, span, member⟩ := closed.parked p isParked
    exact ⟨unbound, span, List.mem_append_left _ member⟩
  · intro e' queued
    cases List.mem_singleton.mp queued
    exact .inl (by simp)
  · rw [List.forall_mem_append, List.forall_mem_singleton]
    refine ⟨fun e' member => ?_, .queued (by simp)⟩
    exact (closed.kept e' member).next (by simp) (fun _ => id) (fun _ => .inl)
  · exact fun _ => closed.saturated (by simp)

end Facts

/-- The clauses entail a clause: they derive it, or it is an implication whose
    premise is refuted, or whose conclusion they derive together with its premise. -/
def Entails (b : String → Option Bool) (cs : List Expr) : Expr → Prop
  | .binary _ .implies premise conclusion =>
    premise.bound b = some false ∨ Derives b (cs ++ [premise]) conclusion.render
  | e => Derives b cs e.render

/-- A leaf is entailed iff it is derived. -/
theorem entails_leaf_iff {e : Expr} (leaf : e.isLeaf) :
    Entails b cs e ↔ Derives b cs e.render := by
  cases e <;> first | exact Iff.rfl | cases leaf

namespace Facts

variable {f : Facts} {e : Expr}

/-- A leaf holds iff it is derived. -/
theorem Closed.holds_leaf_iff (closed : f.Closed b cs) (clauses : Clauses cs) (leaf : e.isLeaf)
    (readable : e.Readable) (unbound : e.bound b = none) :
    f.holds e ↔ Derives b cs e.render := by
  have evaluated := closed.eval_eq_true_iff clauses leaf readable
  rw [unbound, closed.mem_known_iff clauses] at evaluated
  have held : f.holds e = (f.unreachable || f.eval e = some true) := by
    cases e <;> first | rfl | cases leaf
  rw [held, closed.reachable, Bool.false_or, decide_eq_true_eq, evaluated]
  simp

/-- A clause holds iff it is entailed. -/
theorem Closed.holds_iff (closed : f.Closed b cs) (clauses : Clauses cs) (clause : e.isClause)
    (readable : e.Readable) (unbound : e.conclusion.bound b = none) :
    f.holds e ↔ Entails b cs e := by
  rcases Expr.isClause_cases clause with leaf | ⟨span, premise, conclusion, rfl, leaf, leaf'⟩
  · have own : e.conclusion = e := by
      cases e <;> first | rfl | cases leaf
    rw [entails_leaf_iff leaf]
    exact closed.holds_leaf_iff clauses leaf readable (own ▸ unbound)
  · have extended := clauses.concat leaf readable.1
    have concluded := (closed.assume extended).holds_leaf_iff extended leaf' readable.2 unbound
    rw [holds, closed.reachable, Bool.false_or, Bool.or_eq_true, decide_eq_true_eq, concluded,
      closed.eval_eq_false_iff clauses leaf readable.1]
    rfl

end Facts

end InvariantInference
