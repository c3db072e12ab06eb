import Mathlib
import InvariantInference.Proofs.Model.Recall
import InvariantInference.Proofs.Model.Soundness

/-!
# Conditions that were assumed

A condition that was assumed holds from then on, within limits: conjuncts of its
conclusion and of its premises are no implications, and the assumptions do not
contradict each other. How much of this is needed depends on the number of
premises, and `Secured` says so. A walk therefore does not report a condition
that it has come across before.
-/

namespace InvariantInference

variable {v : Valuation}

namespace Facts

variable {e : Expr}

/-- The facts after some conditions were assumed, one after the other. -/
def assumeAll (f : Facts) (conditions : List Expr) : Facts := conditions.foldl assume f

/-- Some valuation agrees with the bindings and makes all conditions true. -/
def Consistent (bindings : List (String × Bool)) (conditions : List Expr) : Prop :=
  ∃ v : Valuation, (∀ name value, bindings.lookup name = some value → v.ident name = value) ∧
    ∀ c ∈ conditions, c.value v

/-- What makes sure that a condition holds that was assumed after the conditions `earlier` and
    before the conditions `later`. -/
inductive Secured (bindings : List (String × Bool)) (earlier : List Expr) (e : Expr)
    (later : List Expr) : Prop
  /-- All that was assumed can be true, together with the premises. -/
  | consistent {premises : List Expr} {c : Expr} (curried : e.Curried (bindings.lookup ·) premises c)
      (consistent : Consistent bindings (earlier ++ e :: later ++ premises))
  /-- There are no premises. -/
  | plain {c : Expr} (curried : e.Curried (bindings.lookup ·) [] c)
      (unrefuted : ¬ c.Refuted (bindings.lookup ·))
  /-- There is one premise, and nothing was assumed since. -/
  | fresh {premise c : Expr} (curried : e.Curried (bindings.lookup ·) [premise] c)
      (unrefuted : ¬ c.Refuted (bindings.lookup ·)) (last : later = [])
  /-- There is one premise, and all that was assumed can be true. -/
  | single {premise c : Expr} (curried : e.Curried (bindings.lookup ·) [premise] c)
      (unrefuted : ¬ c.Refuted (bindings.lookup ·))
      (consistent : Consistent bindings (earlier ++ e :: later))

variable {bindings : List (String × Bool)} {conditions earlier later : List Expr}

theorem regular_assumeAll (readable : ∀ c ∈ conditions, c.Readable) :
    ((ofBindings bindings).assumeAll conditions).Regular (bindings.lookup ·) := by
  refine List.foldlRecOn conditions assume ⟨fun _ => rfl, ?_, ?_⟩ ?_
  · simp [ofBindings]
  · simp [ofBindings]
  · exact fun f regular c member => regular.assume (readable c member)

theorem quiet_assumeAll : ((ofBindings bindings).assumeAll conditions).Quiet [] := by
  apply List.foldlRecOn (motive := fun f => f.Quiet []) conditions assume
  · simp [Quiet, ofBindings]
  · exact fun f quiet c _ => quiet.assume c

theorem sound_assumeAll
    (agrees : ∀ name value, bindings.lookup name = some value → v.ident name = value)
    (readable : ∀ c ∈ conditions, c.Readable) (holds : ∀ c ∈ conditions, c.value v) :
    ((ofBindings bindings).assumeAll conditions).Sound v := by
  refine List.foldlRecOn conditions assume ⟨agrees, ?_, ?_, rfl⟩ ?_
  · simp [ofBindings]
  · simp [ofBindings]
  · exact fun f sound c member => sound.assume (readable c member) (holds c member)

theorem retained_assumeAll {e' : Expr} (same : e.erase = e'.erase) :
    Retained ((ofBindings bindings).assumeAll (earlier ++ e :: later)) [] e' := by
  rw [assumeAll, List.foldl_append, List.foldl_cons]
  apply List.foldlRecOn (motive := fun f => Retained f [] e') later assume
  · exact retained_assume _ same
  · exact fun f retained c _ => retained.assume c

/-- A condition that was assumed holds if it is secured. -/
theorem Secured.holds {e' : Expr} (secured : Secured bindings earlier e' later)
    (readable : ∀ c ∈ earlier ++ e :: later, c.Readable) (readable' : e'.Readable)
    (same : e.erase = e'.erase) :
    ((ofBindings bindings).assumeAll (earlier ++ e :: later)).holds e' := by
  have regular : ((ofBindings bindings).assumeAll (earlier ++ e :: later)).Regular _ :=
    regular_assumeAll readable
  have quiet : ((ofBindings bindings).assumeAll (earlier ++ e :: later)).Quiet [] := quiet_assumeAll
  have retained : Retained ((ofBindings bindings).assumeAll (earlier ++ e :: later)) [] e' :=
    retained_assumeAll same
  have assumed : ∀ {v : Valuation}, (∀ c ∈ earlier ++ e' :: later, c.value v) →
      ∀ c ∈ earlier ++ e :: later, c.value v := by
    intro v holds c member
    rw [List.forall_mem_append, List.forall_mem_cons] at holds
    rcases List.mem_append.mp member with before | here
    · exact holds.1 c before
    · rcases List.mem_cons.mp here with rfl | after
      · rw [← Expr.value_erase, same, Expr.value_erase]
        exact holds.2.1
      · exact holds.2.2 c after
  cases secured with
  | consistent curried consistent =>
    obtain ⟨v, agrees, holds⟩ := consistent
    rw [List.forall_mem_append] at holds
    have sound := sound_assumeAll agrees readable (assumed holds.1)
    exact sound.holds regular quiet readable' curried retained (holds.1 e' (by simp)) holds.2
  | plain curried unrefuted =>
    obtain ⟨plain, refuted⟩ := curried.plain_of_nil
    have armed : Armed _ _ e' :=
      .plain plain (fun isRefuted => unrefuted (refuted isRefuted)) retained
    exact armed.holds regular quiet readable'
  | fresh curried unrefuted last =>
    subst last
    rw [List.forall_mem_append] at readable
    have before : ((ofBindings bindings).assumeAll earlier).Regular _ :=
      regular_assumeAll readable.1
    rw [assumeAll, List.foldl_append] at regular quiet ⊢
    exact (armed_assume before curried le_rfl unrefuted same.symm).holds regular quiet readable'
  | single curried unrefuted consistent =>
    obtain ⟨v, agrees, holds⟩ := consistent
    have sound := sound_assumeAll agrees readable (assumed holds)
    exact (sound.armed regular quiet readable' curried le_rfl unrefuted retained).holds regular
      quiet readable'

/-- Whether a condition holds once some conditions were assumed, all given by their texts. -/
def holdsAfter (bindings : List (String × Bool)) (assumed : List String) (asked : String) :
    Except SourceError Bool := do
  let conditions ← assumed.mapM (Expr.parse · 0)
  let condition ← Expr.parse asked 0
  return ((ofBindings bindings).assumeAll conditions).holds condition

/-- Conditions that were assumed and do not hold: an identifier that is bound to false, as the
    condition and as its conclusion; an implication that is a conjunct, or a premise; an
    implication with two premises that the assumptions rule out; and one with a premise that was
    false when it was assumed and true later. -/
theorem assumed_condition_fails :
    holdsAfter [("X", false)] ["X"] "X" = .ok false ∧
    holdsAfter [("X", false)] ["p ==> X"] "p ==> X" = .ok false ∧
    holdsAfter [] ["(p ==> q) && r"] "(p ==> q) && r" = .ok false ∧
    holdsAfter [] ["(s ==> t) ==> q"] "(s ==> t) ==> q" = .ok false ∧
    holdsAfter [] ["!a", "p ==> u ==> a", "p && u ==> a ==> b"] "p && u ==> a ==> b" =
      .ok false ∧
    holdsAfter [] ["!a", "a ==> b", "a"] "a ==> b" = .ok false := by
  refine ⟨?_, ?_, ?_, ?_, ?_, ?_⟩ <;> cbv

end Facts

namespace Model

namespace Step

theorem after_eq_assumeAll (f : Facts) (steps : List Step) :
    after f steps = f.assumeAll (steps.filterMap assumed?) := by
  fun_induction after f steps with
  | case1 f => rfl
  | case2 f condition rest ih => exact ih
  | case3 f failure rest ih => exact ih

end Step

namespace Session

open Facts (ofBindings Secured)

/-- A condition that was assumed holds from then on, whatever was assumed before and after it, if
    it is secured. So a walk never reports a condition that was assumed or asserted before it, or
    is a precondition, if it is secured: both may stand in different places of the source. -/
theorem assumed_condition_holds :
    (∀ (bindings : List (String × Bool)) (earlier : List Expr) (e : Expr) (later : List Expr),
      (∀ c ∈ earlier ++ e :: later, c.Parsed) → Secured bindings earlier e later →
      ((ofBindings bindings).assumeAll (earlier ++ e :: later)).holds e) ∧
    ∀ (program : Program) (s : Session), (∀ e ∈ program.conditions, e.Parsed) →
      s.Reached program Admissible →
      ∀ before failure after, s.steps = before ++ .check failure :: after →
      ∀ earlier e later, before.filterMap Step.assumed? = earlier ++ e :: later →
        e.erase = failure.condition.erase → Secured s.bindings earlier failure.condition later →
        ¬ s.Reports before failure := by
  constructor
  · intro bindings earlier e later parsed secured
    have readable : ∀ c ∈ earlier ++ e :: later, c.Readable := fun c member =>
      (parsed c member).readable
    exact secured.holds readable (readable e (by simp)) rfl
  · intro program s read reached before failure after split earlier e later assumed same secured
    obtain ⟨session, admissible⟩ := of_reached reached
    have readable := readable_of_mem_steps session admissible read
    rw [split, List.forall_mem_append, List.forall_mem_cons] at readable
    rw [reports_iff, Step.after_eq_assumeAll, assumed, Bool.not_eq_false]
    refine secured.holds ?_ readable.2.1 same
    intro c member
    rw [← assumed] at member
    obtain ⟨step, isStep, same⟩ := List.mem_filterMap.mp member
    cases step with
    | assume condition =>
      cases same
      exact readable.1 _ isStep
    | check => cases same

/-- The condition `P ==> x > 0` as it is read from an assertion. -/
def assertedBound : Expr :=
  .binary ⟨7, 11⟩ .implies (.ident ⟨7, 1⟩ ⟨⟨7, 1⟩, "P"⟩) (.atom ⟨13, 5⟩ "x > 0")

/-- A procedure that requires this condition. -/
def boundedProcedure : Procedure :=
  ⟨.none, .synthetic "Main", [⟨.none, false, .guarded "P" "x > 0"⟩], []⟩

/-- Its implementation, which asserts it. -/
def assertingImplementation : Implementation :=
  ⟨.none, .synthetic "Main", .synthetic "Main",
    [⟨.none, .synthetic "entry", [.assert ⟨0, 18⟩ assertedBound]⟩]⟩

def restated : Program :=
  ⟨[.procedure boundedProcedure, .implementation assertingImplementation]⟩

/-- The assertion is not reported. And `X ==> r` holds once it was assumed with `X` bound to true,
    also if `!r` was assumed after it. -/
theorem assumed_condition_holds_restated :
    (∃ e e', Expr.parse "X ==> r" 0 = .ok e ∧ Expr.parse "!r" 0 = .ok e' ∧
      ((ofBindings [("X", true)]).assumeAll [e, e']).holds e) ∧
    ∃ (s : Session) (before after : List Step) (failure : Counterexample),
      s.Reached restated Admissible ∧ s.steps = before ++ .check failure :: after ∧
      failure.kind = .assertion ∧ ¬ s.Reports before failure := by
  constructor
  · have first : Expr.parse "X ==> r" 0 = .ok (.binary ⟨0, 7⟩ .implies
        (.ident ⟨0, 1⟩ ⟨⟨0, 1⟩, "X"⟩) (.ident ⟨6, 1⟩ ⟨⟨6, 1⟩, "r"⟩)) := by cbv
    have second : Expr.parse "!r" 0 = .ok (.not ⟨0, 2⟩ (.ident ⟨1, 1⟩ ⟨⟨1, 1⟩, "r"⟩)) := by cbv
    refine ⟨_, _, first, second, assumed_condition_holds.1 _ [] _ [_] ?_ ?_⟩
    · simpa using ⟨.expr first, .expr second⟩
    · refine .plain (.guard rfl (.conclusion trivial)) ?_
      show ¬ List.lookup "r" [("X", true)] = some false
      decide
  · let opened : Session :=
      ⟨assertingImplementation, boundedProcedure, .empty, .plain, [], 0, 0⟩
    have session : oracle .empty restated assertingImplementation = .ok opened := rfl
    have required : Expr.parse "P ==> x > 0" 0 = .ok (.guarded "P" "x > 0") := by cbv
    have asserted : Command.parse "assert P ==> x > 0" 0 = .ok (.assert ⟨0, 18⟩ assertedBound) := by
      cbv
    have read : ∀ e ∈ restated.conditions, e.Parsed := by
      have listed : restated.conditions = [_, _] := rfl
      rw [listed, List.forall_mem_cons, List.forall_mem_singleton]
      exact ⟨.expr required, .command asserted rfl⟩
    have reached : opened.Reached restated Admissible := .opened (by decide) session
    refine ⟨opened, [.assume (.guarded "P" "x > 0")], _, _, reached, rfl, rfl, ?_⟩
    refine assumed_condition_holds.2 _ _ read reached _ _ _ rfl [] _ [] rfl rfl ?_
    refine .single (.premise trivial (.conclusion trivial)) id ?_
    refine ⟨⟨fun _ => true, fun _ => true⟩, ?_, by decide⟩
    intro name value bound
    cases bound

end Session

end Model

end InvariantInference
