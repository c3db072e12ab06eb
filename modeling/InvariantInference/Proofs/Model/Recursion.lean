import Mathlib
import InvariantInference.Proofs.Model.Assumptions

/-!
# Assumption as a recursion

To assume a conjunction is to assume its sides, to assume an implication that
counts is to assume its conclusion, and whatever becomes known makes parked
implications fire, each of which assumes its own conclusion and may park and
fire others on the way. `Performs` tells the outcome of this recursion and the
number of its calls. It ends on all facts and all conditions: firing takes an
implication out for good, so the calls are bounded by the size of what is assumed
and of what is parked. Once it has ended, no parked implication can fire.
-/

namespace InvariantInference

namespace Facts

/-- A task that is done by recursion leads from `f` to `f'` in so many calls. Every round of the
    firing counts as one. -/
inductive Performs : Facts → Task → Nat → Facts → Prop
  | skipped {f : Facts} {span : Span} : Performs f (.learn (.lit span true)) 1 f
  | refuted {f : Facts} {span : Span} :
      Performs f (.learn (.lit span false)) 1 { f with unreachable := true }
  | both {f f' f'' : Facts} {span : Span} {left right : Expr} {m n : Nat}
      (first : Performs f (.learn left) m f') (second : Performs f' (.learn right) n f'') :
      Performs f (.learn (.binary span .and left right)) (m + n + 1) f''
  | released {f f' : Facts} {span : Span} {premise conclusion : Expr} {n : Nat}
      (holds : f.eval premise = some true) (concluded : Performs f (.learn conclusion) n f') :
      Performs f (.learn (.binary span .implies premise conclusion)) (n + 1) f'
  | dropped {f : Facts} {span : Span} {premise conclusion : Expr}
      (fails : f.eval premise = some false) :
      Performs f (.learn (.binary span .implies premise conclusion)) 1 f
  | parks {f : Facts} {span : Span} {premise conclusion : Expr}
      (undecided : f.eval premise = none) :
      Performs f (.learn (.binary span .implies premise conclusion)) 1
        { f with parked := f.parked ++ [(premise, conclusion)] }
  | recalled {f : Facts} {e : Expr} (fact : e.isFact) (known : e.render ∈ f.known) :
      Performs f (.learn e) 1 { f with unreachable := f.unreachable || f.contradicts e }
  | added {f f' : Facts} {e : Expr} {n : Nat} (fact : e.isFact) (new : e.render ∉ f.known)
      (fires : Performs { f with
        unreachable := f.unreachable || f.contradicts e
        known := e.render :: f.known } .fire n f') :
      Performs f (.learn e) (n + 1) f'
  | idle {f : Facts} (none : f.parked.find? f.fires = none) : Performs f .fire 1 f
  | fired {f f' f'' : Facts} {premise conclusion : Expr} {m n : Nat}
      (found : f.parked.find? f.fires = some (premise, conclusion))
      (concluded : Performs { f with parked := f.parked.eraseP f.fires } (.learn conclusion) m f')
      (again : Performs f' .fire n f'') : Performs f .fire (m + n + 1) f''

variable {f f' : Facts} {task : Task} {e : Expr} {n : Nat}

/-! ## Outcome and number of calls -/

/-- A task is done as by recursion before the other tasks are. -/
theorem Performs.settle_cons (performs : Performs f task n f') (rest : List Task) :
    f.settle (task :: rest) = f'.settle rest := by
  induction performs generalizing rest with
  | skipped => rw [settle]
  | refuted => rw [settle]
  | both _ _ first second => rw [settle, first, second]
  | released holds _ concluded => simp only [settle, holds, concluded]
  | dropped fails => simp only [settle, fails]
  | parks undecided => simp only [settle, undecided]
  | recalled fact known => rw [settle_learn_fact fact, if_pos known]
  | added fact new _ fires => rw [settle_learn_fact fact, if_neg new, fires]
  | idle none => rw [settle_fire_of_none none]
  | fired found _ _ concluded again => rw [settle_fire_of_some found, concluded, again]

/-- Every call is paid for by what it takes away: the weight of its task, and that of the
    implications that it fires. -/
theorem Performs.calls_le (performs : Performs f task n f') :
    n + f'.weight [] ≤ f.weight [task] := by
  induction performs with
  | skipped | refuted | dropped | idle =>
    simp only [weight, totalWeight, Task.weight, Expr.size]
    omega
  | both _ _ first second =>
    simp only [weight, totalWeight, Task.weight, Expr.size] at first second ⊢
    omega
  | released _ _ concluded =>
    simp only [weight, totalWeight, Task.weight, Expr.size] at concluded ⊢
    omega
  | parks =>
    simp only [weight, totalWeight, totalWeight_append, parkedWeight, Task.weight, Expr.size]
    omega
  | @recalled f e =>
    have positive := e.size_pos
    simp only [weight, totalWeight, Task.weight]
    omega
  | @added f f' e _ _ _ _ fires =>
    have positive := e.size_pos
    simp only [weight, totalWeight, Task.weight] at fires ⊢
    omega
  | fired found _ _ concluded again =>
    -- What the implication weighed pays for its conclusion and for the next round.
    have taken := totalWeight_eraseP parkedWeight found
    simp only [weight, totalWeight, parkedWeight, Task.weight] at taken concluded again ⊢
    omega

/-! ## The recursion ends -/

/-- Tasks that are done by recursion, one after the other, lead from `f` to `f'`. -/
inductive PerformsAll : Facts → List Task → Facts → Prop
  | nil {f : Facts} : PerformsAll f [] f
  | cons {f f' f'' : Facts} {task : Task} {rest : List Task} {n : Nat}
      (first : Performs f task n f') (later : PerformsAll f' rest f'') :
      PerformsAll f (task :: rest) f''

/-- The recursion ends on all tasks. -/
theorem performsAll_settle (f : Facts) (tasks : List Task) :
    PerformsAll f tasks (f.settle tasks) := by
  -- The tasks that `settle` puts in front are the calls that the recursion makes.
  fun_induction settle f tasks with
  | case1 f => exact .nil
  | case2 f rest none later => exact .cons (.idle none) later
  | case3 f rest premise conclusion found ih =>
    obtain _ | ⟨concluded, _ | ⟨again, later⟩⟩ := ih
    exact .cons (.fired found concluded again) later
  | case4 f rest span later => exact .cons .skipped later
  | case5 f rest span later => exact .cons .refuted later
  | case6 f rest span left right ih =>
    obtain _ | ⟨first, _ | ⟨second, later⟩⟩ := ih
    exact .cons (.both first second) later
  | case7 f rest span premise conclusion holds ih =>
    obtain _ | ⟨concluded, later⟩ := ih
    exact .cons (.released holds concluded) later
  | case8 f rest span premise conclusion fails later => exact .cons (.dropped fails) later
  | case9 f rest span premise conclusion undecided later => exact .cons (.parks undecided) later
  | case10 f e rest notTrue notFalse notAnd notImplies unreachable known later =>
    exact .cons (.recalled (isFact_of_other notTrue notFalse notAnd notImplies) known) later
  | case11 f e rest notTrue notFalse notAnd notImplies unreachable new ih =>
    obtain _ | ⟨fires, later⟩ := ih
    exact .cons (.added (isFact_of_other notTrue notFalse notAnd notImplies) new fires) later

/-- The recursion ends on every condition. -/
theorem exists_performs_assume (f : Facts) (e : Expr) :
    ∃ n, Performs f (.learn e) n (f.assume e) := by
  obtain _ | ⟨performs, _ | _⟩ := performsAll_settle f [.learn e]
  exact ⟨_, performs⟩

/-- Assuming any condition ends on any facts: the recursion has an outcome, which is what `assume`
    gives, and makes no more calls than the condition and the parked implications weigh. Whatever
    was assumed before, no parked implication has a true premise, and one more assumption forgets
    no known text and leaves nothing reachable that was not. -/
theorem assume_ends_quiescent :
    (∀ (f : Facts) (e : Expr), (∃ n, Performs f (.learn e) n (f.assume e)) ∧
      ∀ n f', Performs f (.learn e) n f' → f' = f.assume e ∧ n ≤ f.weight [.learn e]) ∧
    ∀ (bindings : List (String × Bool)) (conditions : List Expr),
      let f := (ofBindings bindings).assumeAll conditions
      (∀ p ∈ f.parked, f.eval p.1 ≠ some true) ∧
      ∀ e, f.known ⊆ (f.assume e).known ∧ (f.unreachable → (f.assume e).unreachable) := by
  constructor
  · intro f e
    refine ⟨exists_performs_assume f e, fun n f' performs => ⟨?_, ?_⟩⟩
    · have outcome := performs.settle_cons []
      rw [settle] at outcome
      exact outcome.symm
    · exact (Nat.le_add_right _ _).trans performs.calls_le
  · intro bindings conditions f
    refine ⟨quiet_assumeAll (by simp), fun e => ?_⟩
    exact ⟨(f.grows_assume e).known, (f.grows_assume e).unreachable⟩

/-- The conditions `p ==> q` and `q ==> p ==> r`. -/
def nested : List Expr :=
  [.binary ⟨0, 7⟩ .implies (.ident ⟨0, 1⟩ ⟨⟨0, 1⟩, "p"⟩) (.ident ⟨6, 1⟩ ⟨⟨6, 1⟩, "q"⟩),
    .binary ⟨0, 13⟩ .implies (.ident ⟨0, 1⟩ ⟨⟨0, 1⟩, "q"⟩) (.binary ⟨6, 7⟩ .implies
      (.ident ⟨6, 1⟩ ⟨⟨6, 1⟩, "p"⟩) (.ident ⟨12, 1⟩ ⟨⟨12, 1⟩, "r"⟩))]

/-- Once `p` is assumed, `p ==> q` fires; on the way `q ==> p ==> r` fires, and `p ==> r` is
    assumed. -/
theorem assume_ends_quiescent_nested :
    ∃ e, Expr.parse "p" 0 = .ok e ∧
      ["p ==> q", "q ==> p ==> r"].map (Expr.parse · 0) = nested.map .ok ∧
      let f := (ofBindings []).assumeAll nested
      f.known = [] ∧ f.parked.length = 2 ∧ (f.assume e).known = ["r", "q", "p"] ∧
      (f.assume e).parked = [] ∧ ∃ n ≤ 12, Performs f (.learn e) n (f.assume e) := by
  have start : Expr.parse "p" 0 = .ok (.ident ⟨0, 1⟩ ⟨⟨0, 1⟩, "p"⟩) := by cbv
  have weight : ((ofBindings []).assumeAll nested).weight
      [.learn (.ident ⟨0, 1⟩ ⟨⟨0, 1⟩, "p"⟩)] = 12 := by cbv
  refine ⟨_, start, by cbv, by cbv, by cbv, by cbv, by cbv, ?_⟩
  obtain ⟨⟨n, performs⟩, bounded⟩ := assume_ends_quiescent.1 _ _
  exact ⟨n, weight ▸ (bounded n _ performs).2, performs⟩

end Facts

end InvariantInference
