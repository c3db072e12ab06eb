import Mathlib
import InvariantInference.Proofs.Model.Retention
import InvariantInference.Proofs.Model.Sites

/-!
# What a verdict depends on

The bindings of a fact base are read at the identifiers of the conditions that are
assumed and asked for, and nowhere else. So the same facts under other bindings go
the same way, step by step, as long as the bindings agree on these identifiers. A
candidate that occurs neither in the conditions that a verification is about nor in
what else is pushed can therefore have either value.
-/

namespace InvariantInference

namespace Expr

variable {names : String → Prop} {e : Expr}

/-- All identifiers of the expression are among these names. -/
def Within (names : String → Prop) (e : Expr) : Prop := ∀ name, e.mentions name → names name

@[simp] theorem within_ident {span : Span} {name : Located String} :
    (ident span name).Within names ↔ names name.value := by
  simp [Within, mentions]

@[simp] theorem within_not {span : Span} {operand : Expr} :
    (not span operand).Within names ↔ operand.Within names := Iff.rfl

@[simp] theorem within_binary {span : Span} {op : BinOp} {left right : Expr} :
    (binary span op left right).Within names ↔ left.Within names ∧ right.Within names := by
  simp [Within, mentions, or_imp, forall_and]

/-- An equation mentions the name that it binds. -/
theorem Within.of_binding? {name : String} {value : Bool} (within : e.Within names)
    (equation : e.binding? = some (name, value)) : names name := by
  unfold binding? at equation
  split at equation
  · cases equation
    exact within_ident.mp (within_binary.mp within).1
  · cases equation

end Expr

namespace Facts

variable {names : String → Prop} {f : Facts} {b : List (String × Bool)} {e : Expr}
  {tasks rest : List Task}

/-- The same facts under other bindings. -/
def rebind (f : Facts) (b : List (String × Bool)) : Facts := { f with bindings := b }

/-- The bindings of the facts and the other ones agree on these names, and nothing else is
    mentioned by the implications that wait. -/
structure Blind (names : String → Prop) (b : List (String × Bool)) (f : Facts) : Prop where
  agree : ∀ name, names name → b.lookup name = f.bindings.lookup name
  parked : ∀ p ∈ f.parked, p.1.Within names ∧ p.2.Within names

/-! ## Evaluation -/

theorem Blind.eval (blind : f.Blind names b) (within : e.Within names) :
    (f.rebind b).eval e = f.eval e := by
  induction e with
  | lit => rfl
  | atom => rfl
  | ident span name =>
    rw [Facts.eval, Facts.eval, rebind, blind.agree _ (Expr.within_ident.mp within)]
    rfl
  | not span operand ih =>
    rw [Facts.eval, Facts.eval, ih (Expr.within_not.mp within)]
    rfl
  | binary span op left right ihLeft ihRight =>
    obtain ⟨first, second⟩ := Expr.within_binary.mp within
    rw [Facts.eval, Facts.eval, ihLeft first, ihRight second]
    rfl

theorem Blind.fires (blind : f.Blind names b) :
    ∀ p ∈ f.parked, (f.rebind b).fires p = f.fires p := by
  intro p isParked
  rw [Facts.fires, Facts.fires, blind.eval (blind.parked p isParked).1]

theorem Blind.contradicts (blind : f.Blind names b) (within : e.Within names) :
    (f.rebind b).contradicts e = f.contradicts e := by
  unfold Facts.contradicts
  split
  · rename_i name value equation
    rw [rebind, blind.agree name (within.of_binding? equation)]
  · rfl

/-! ## Assumption -/

/-- What two predicates agree on they erase alike. -/
theorem eraseP_congr {α : Type} {p q : α → Bool} {l : List α} (same : ∀ a ∈ l, p a = q a) :
    l.eraseP p = l.eraseP q := by
  induction l with
  | nil => rfl
  | cons a l ih =>
    rw [List.forall_mem_cons] at same
    rw [List.eraseP_cons, List.eraseP_cons, same.1, ih same.2]

/-- Under other bindings the tasks lead to the same facts, as long as the bindings agree on what
    the tasks and the implications that wait mention. -/
theorem Blind.settle (blind : f.Blind names b)
    (within : ∀ e, .learn e ∈ tasks → e.Within names) :
    (f.rebind b).settle tasks = (f.settle tasks).rebind b ∧ (f.settle tasks).Blind names b := by
  fun_induction Facts.settle f tasks with
  | case1 f =>
    rw [Facts.settle]
    exact ⟨rfl, blind⟩
  | case2 f rest none ih =>
    have none' : (f.rebind b).parked.find? (f.rebind b).fires = Option.none :=
      (List.find?_congr blind.fires).trans none
    rw [settle_fire_of_none none']
    exact ih blind fun e queued => within e (List.mem_cons_of_mem _ queued)
  | case3 f rest premise conclusion found ih =>
    have found' : (f.rebind b).parked.find? (f.rebind b).fires = some (premise, conclusion) :=
      (List.find?_congr blind.fires).trans found
    have left : (f.rebind b).parked.eraseP (f.rebind b).fires = f.parked.eraseP f.fires :=
      eraseP_congr blind.fires
    rw [settle_fire_of_some found', left]
    have fired := (blind.parked _ (List.mem_of_find?_eq_some found)).2
    refine ih ⟨blind.agree, ?_⟩ (forall_learn_cons.mpr ⟨fired, within⟩)
    exact fun p isParked => blind.parked p (List.mem_of_mem_eraseP isParked)
  | case4 f span rest ih =>
    rw [Facts.settle]
    exact ih blind (forall_learn_cons.mp within).2
  | case5 f span rest ih =>
    rw [Facts.settle]
    exact ih ⟨blind.agree, blind.parked⟩ (forall_learn_cons.mp within).2
  | case6 f span left right rest ih =>
    obtain ⟨both, later⟩ := forall_learn_cons.mp within
    obtain ⟨first, second⟩ := Expr.within_binary.mp both
    rw [Facts.settle]
    exact ih blind (forall_learn_cons.mpr ⟨first, forall_learn_cons.mpr ⟨second, later⟩⟩)
  | case7 f span premise conclusion rest holds ih =>
    obtain ⟨both, later⟩ := forall_learn_cons.mp within
    obtain ⟨first, second⟩ := Expr.within_binary.mp both
    rw [Facts.settle, blind.eval first, holds]
    exact ih blind (forall_learn_cons.mpr ⟨second, later⟩)
  | case8 f span premise conclusion rest fails ih =>
    obtain ⟨both, later⟩ := forall_learn_cons.mp within
    rw [Facts.settle, blind.eval (Expr.within_binary.mp both).1, fails]
    exact ih blind later
  | case9 f span premise conclusion rest undecided ih =>
    obtain ⟨both, later⟩ := forall_learn_cons.mp within
    rw [Facts.settle, blind.eval (Expr.within_binary.mp both).1, undecided]
    refine ih ⟨blind.agree, ?_⟩ later
    rw [List.forall_mem_append, List.forall_mem_singleton]
    exact ⟨blind.parked, Expr.within_binary.mp both⟩
  | case10 f e rest notTrue notFalse notAnd notImplies unreachable known ih =>
    obtain ⟨here, later⟩ := forall_learn_cons.mp within
    have fact := isFact_of_other notTrue notFalse notAnd notImplies
    have known' : e.render ∈ (f.rebind b).known := known
    rw [settle_learn_fact fact, if_pos known', blind.contradicts here]
    exact ih ⟨blind.agree, blind.parked⟩ later
  | case11 f e rest notTrue notFalse notAnd notImplies unreachable new ih =>
    obtain ⟨here, later⟩ := forall_learn_cons.mp within
    have fact := isFact_of_other notTrue notFalse notAnd notImplies
    have new' : e.render ∉ (f.rebind b).known := new
    rw [settle_learn_fact fact, if_neg new', blind.contradicts here]
    exact ih ⟨blind.agree, blind.parked⟩ (by simpa using later)

theorem Blind.assume (blind : f.Blind names b) (within : e.Within names) :
    (f.rebind b).assume e = (f.assume e).rebind b ∧ (f.assume e).Blind names b := by
  apply blind.settle
  intro e' queued
  cases List.mem_singleton.mp queued
  exact within

/-- Under other bindings that agree on what a condition mentions the condition holds alike. -/
theorem Blind.holds (blind : f.Blind names b) (within : e.Within names) :
    (f.rebind b).holds e = f.holds e := by
  have evaluated : ∀ {f : Facts} {e : Expr}, f.Blind names b → e.Within names →
      (∀ span premise conclusion, e ≠ .binary span .implies premise conclusion) →
      (f.rebind b).holds e = f.holds e := by
    intro f e blind within other
    rw [holds_other other, holds_other other, blind.eval within]
    rfl
  induction e generalizing f with
  | binary span op premise conclusion _ ih =>
    by_cases implies : op = .implies
    · subst implies
      obtain ⟨first, second⟩ := Expr.within_binary.mp within
      -- The hypothetical facts are the same but for the bindings, too.
      obtain ⟨same, blind'⟩ := blind.assume first
      rw [Facts.holds, Facts.holds, blind.eval first, same, ih blind' second]
      rfl
    · refine evaluated blind within fun _ _ _ same => ?_
      cases same
      exact implies rfl
  | _ => exact evaluated blind within (by simp)

end Facts

namespace Model

/-! ## Walks -/

/-- Under other bindings that agree on what the steps mention a walk reports the same
    counterexamples, in the same order. -/
theorem Step.walk_rebind {names : String → Prop} {f : Facts} {b : List (String × Bool)}
    {steps : List Step} (blind : f.Blind names b)
    (within : ∀ step ∈ steps, step.condition.Within names) :
    walk (f.rebind b) steps = walk f steps := by
  fun_induction walk f steps with
  | case1 f => rfl
  | case2 f condition rest ih =>
    rw [List.forall_mem_cons] at within
    obtain ⟨same, blind'⟩ := blind.assume (e := condition) within.1
    rw [walk, same]
    exact ih blind' within.2
  | case3 f failure rest held ih =>
    rw [List.forall_mem_cons] at within
    have same : (f.rebind b).holds failure.condition = f.holds failure.condition :=
      blind.holds within.1
    rw [walk, same, if_pos held]
    exact ih blind within.2
  | case4 f failure rest fails ih =>
    rw [List.forall_mem_cons] at within
    have same : (f.rebind b).holds failure.condition = f.holds failure.condition :=
      blind.holds within.1
    rw [walk, same, if_neg fails, ih blind within.2]

/-! ## Sessions -/

/-- The names that occur in what the verification of an implementation is about: in its body, in
    the contracts of its procedure, or in those of a procedure that it calls. -/
inductive Mentions (program : Program) (i : Implementation) (name : String) : Prop
  | body {e : Expr} (condition : e ∈ i.conditions) (mentioned : e.mentions name)
  | contract {p : Procedure} {e : Expr} (found : program.procedure? i.procedure.value = some p)
      (condition : e ∈ p.conditions) (mentioned : e.mentions name)
  | callee {callee : Located String} {p : Procedure} {e : Expr} (called : callee ∈ i.callees)
      (found : program.procedure? callee.value = some p) (condition : e ∈ p.conditions)
      (mentioned : e.mentions name)

/-- The names that occur in what is assumed of some hypotheses: in a conjunct that is no
    equation. -/
def Supposes (hypotheses : List Expr) (name : String) : Prop :=
  ∃ h ∈ hypotheses, ∃ c ∈ h.conjuncts, c.binding? = none ∧ c.mentions name

namespace Session

variable {program : Program} {i : Implementation} {s s' : Session}

/-- Sessions with the same steps come to the same verdict if their bindings agree on what the
    steps mention. -/
theorem evaluate_congr (names : String → Prop) (steps : s'.steps = s.steps)
    (agree : ∀ name, names name → s'.bindings.lookup name = s.bindings.lookup name)
    (within : ∀ step ∈ s.steps, step.condition.Within names) : s'.evaluate = s.evaluate := by
  have blind : (Facts.ofBindings s.bindings).Blind names s'.bindings :=
    ⟨agree, by simp [Facts.ofBindings]⟩
  rw [evaluate, evaluate, steps, ← Step.walk_rebind blind within]
  rfl

/-- The steps of the body are about what the implementation mentions. -/
theorem Idle.within_bodySteps (idle : s.Idle program i) :
    ∀ step ∈ s.bodySteps, step.condition.Within (Mentions program i) := by
  intro step member name mentioned
  rcases condition_bodySteps member with inside | own | ⟨callee, p, called, found, condition⟩
  · rw [idle.implementation] at inside
    exact .body inside mentioned
  · exact .contract idle.procedure own mentioned
  · rw [idle.implementation] at called
    rw [get?_of_resolve idle.callees called] at found
    exact .callee called found condition mentioned

/-- Of several hypotheses the one that was pushed last decides the value of a name. -/
theorem lookup_bindings {a : Assignment} (distinct : (a.entries.map (·.1)).Nodup) (s : Session)
    (above below : List Expr) (name : String) :
    ({ s with stack := above ++ a.hypothesis :: below } : Session).bindings.lookup name =
      (({ s with stack := above } : Session).bindings.lookup name).or
        ((a.get? name).or (({ s with stack := below } : Session).bindings.lookup name)) := by
  have entries := lookup_reverse distinct name
  simp only [bindings, hypotheses, List.reverse_append, List.reverse_cons, List.flatMap_append,
    List.flatMap_cons, List.flatMap_nil, List.append_nil, List.filterMap_append,
    Assignment.filterMap_binding?_hypothesis, List.lookup_append, entries, Assignment.get?]

/-- The hypotheses of assignments of the same names make the same steps. -/
theorem steps_congr {a a' : Assignment} (names : a'.entries.map (·.1) = a.entries.map (·.1))
    (s : Session) (above below : List Expr) :
    ({ s with stack := above ++ a'.hypothesis :: below } : Session).steps =
      ({ s with stack := above ++ a.hypothesis :: below } : Session).steps := by
  have empty : a'.entries = [] ↔ a.entries = [] := by
    rw [← List.map_eq_nil_iff (f := (·.1)), names, List.map_eq_nil_iff]
  simp only [steps_eq, hypotheses, List.reverse_append, List.reverse_cons, List.flatMap_append,
    List.flatMap_cons, List.flatMap_nil, List.append_nil, List.filter_append,
    Assignment.filter_binding?_hypothesis, empty]
  rfl

/-- What is assumed of the hypotheses are the conjuncts that are no equations, and those of an
    assignment are equations. -/
theorem within_hypotheses {a : Assignment} {above below : List Expr} {c : Expr}
    (member : c ∈ ({ s with stack := above ++ a.hypothesis :: below } : Session).hypotheses)
    (other : c.binding? = none) : c.Within (Supposes (above ++ below)) := by
  intro name mentioned
  obtain ⟨h, pushed, conjunct⟩ := List.mem_flatMap.mp member
  rw [List.mem_reverse, List.mem_append, List.mem_cons] at pushed
  rcases pushed with later | rfl | earlier
  · exact ⟨h, List.mem_append_left _ later, c, conjunct, other, mentioned⟩
  · rw [Assignment.conjuncts_hypothesis] at conjunct
    split at conjunct
    · rw [List.mem_singleton.mp conjunct] at mentioned
      cases mentioned
    · obtain ⟨entry, -, rfl⟩ := List.mem_map.mp conjunct
      cases other
  · exact ⟨h, List.mem_append_right _ earlier, c, conjunct, other, mentioned⟩

/-- A verdict depends only on the values of the candidates that the implementation mentions, and
    of those that occur in what else is assumed: under two assignments of the same candidates that
    agree on them a session comes to the same verdict, with the same counterexamples in the same
    order, whatever else is on its stack. -/
theorem verdict_depends_on_mentioned {scripts : Dictionary Script}
    (opened : oracle scripts program i = .ok s) {declaring : Program} {cs : Candidates}
    (collected : Candidates.collect declaring = .ok cs) {a a' : Assignment}
    (values : a.entries.map (·.1) = cs.names) (values' : a'.entries.map (·.1) = cs.names)
    (above below : List Expr)
    (agree : ∀ name ∈ cs.names, Mentions program i name ∨ Supposes (above ++ below) name →
      a'.get? name = a.get? name) (verifications pushes : Nat) :
    evaluate { s with stack := above ++ a'.hypothesis :: below, verifications, pushes } =
      evaluate { s with stack := above ++ a.hypothesis :: below, verifications, pushes } := by
  have distinct := Candidates.nodup_names_collect collected
  have idle := idle_of_oracle opened
  apply evaluate_congr fun name => Mentions program i name ∨ Supposes (above ++ below) name
  · exact steps_congr (values'.trans values.symm) _ above below
  · intro name mentioned
    have same : a'.get? name = a.get? name := by
      by_cases candidate : name ∈ cs.names
      · exact agree name candidate mentioned
      · rw [Assignment.get?_eq_none_iff.mpr (values' ▸ candidate),
          Assignment.get?_eq_none_iff.mpr (values ▸ candidate)]
    have before := lookup_bindings (values ▸ distinct) s above below name
    have after := lookup_bindings (values' ▸ distinct) s above below name
    rw [same, ← before] at after
    exact after
  · rw [steps_eq, List.forall_mem_append]
    constructor
    · intro step member name mentioned
      obtain ⟨c, assumed, rfl⟩ := List.mem_map.mp member
      obtain ⟨hypothesis, other⟩ := List.mem_filter.mp assumed
      have equation := Option.isNone_iff_eq_none.mp other
      exact .inr (within_hypotheses (s := s) hypothesis equation name mentioned)
    · intro step member name mentioned
      exact .inl (idle.within_bodySteps step member name mentioned)

/-- A procedure whose precondition `P` guards. -/
def guardedMain : Procedure :=
  ⟨.none, .synthetic "Main", [⟨.none, false, .guarded "P" "x > 0"⟩], []⟩

/-- An implementation of it that relies on the precondition. -/
def relyingMain : Implementation :=
  ⟨.none, .synthetic "Main", .synthetic "Main",
    [⟨.none, .synthetic "entry", [.assert ⟨0, 12⟩ (.atom ⟨7, 5⟩ "x > 0")]⟩]⟩

/-- The program of both, with a candidate `A` that occurs nowhere. -/
def bystander : Program :=
  ⟨[.candidate "P", .candidate "A", .procedure guardedMain, .implementation relyingMain]⟩

theorem not_mentions_bystander : ¬ Mentions bystander relyingMain "A" := by
  intro mentions
  have conditions : relyingMain.conditions = [.atom ⟨7, 5⟩ "x > 0"] := rfl
  have contracts : guardedMain.conditions = [.guarded "P" "x > 0"] := rfl
  have declared : bystander.procedure? relyingMain.procedure.value = some guardedMain := rfl
  have callees : relyingMain.callees = [] := rfl
  cases mentions with
  | body condition mentioned =>
    rw [conditions] at condition
    rw [List.mem_singleton.mp condition] at mentioned
    cases mentioned
  | contract found condition mentioned =>
    rw [declared] at found
    cases found
    rw [contracts] at condition
    rw [List.mem_singleton.mp condition] at mentioned
    cases mentioned
  | callee called =>
    rw [callees] at called
    cases called

/-- Where `P` is false the assertion fails, also if `P ==> y > 0` is pushed, and the value of `A`
    makes no difference. -/
theorem verdict_depends_on_mentioned_bystander :
    ∃ s, oracle .empty bystander relyingMain = .ok s ∧
      evaluate { s with
        stack := [Assignment.hypothesis ⟨[("P", false), ("A", true)], false⟩,
          .guarded "P" "y > 0"] } =
      evaluate { s with
        stack := [Assignment.hypothesis ⟨[("P", false), ("A", false)], false⟩,
          .guarded "P" "y > 0"] } ∧
      (evaluate { s with
        stack := [Assignment.hypothesis ⟨[("P", false), ("A", true)], false⟩,
          .guarded "P" "y > 0"] }).outcome = .errors := by
  have collected : Candidates.collect bystander = .ok ⟨[.synthetic "P", .synthetic "A"]⟩ := rfl
  have opened : oracle .empty bystander relyingMain =
      .ok ⟨relyingMain, guardedMain, .empty, .plain, [], 0, 0⟩ := rfl
  refine ⟨_, opened, ?_, by cbv⟩
  refine verdict_depends_on_mentioned opened collected rfl rfl [] [.guarded "P" "y > 0"] ?_ 0 0
  intro name candidate mentioned
  rcases List.mem_pair.mp candidate with rfl | rfl
  · rfl
  · exfalso
    rcases mentioned with mentions | ⟨h, pushed, c, conjunct, -, mentioned⟩
    · exact not_mentions_bystander mentions
    · rw [List.mem_singleton.mp pushed] at conjunct
      rw [List.mem_singleton.mp conjunct] at mentioned
      cases mentioned

/-- Where `A ==> x > 0` is pushed the value of `A` makes a difference, although the implementation
    does not mention `A`: the assertion follows if `A` is true, and fails if it is false. -/
theorem verdict_depends_on_hypothesis :
    ∃ s cs, oracle .empty bystander relyingMain = .ok s ∧
      Candidates.collect bystander = .ok cs ∧
      ∃ a a' : Assignment, a.entries.map (·.1) = cs.names ∧ a'.entries.map (·.1) = cs.names ∧
        (∀ name ∈ cs.names, Mentions bystander relyingMain name → a'.get? name = a.get? name) ∧
        (evaluate { s with stack := [a.hypothesis, .guarded "A" "x > 0"] }).outcome = .correct ∧
        (evaluate { s with stack := [a'.hypothesis, .guarded "A" "x > 0"] }).outcome = .errors := by
  refine ⟨_, ⟨[.synthetic "P", .synthetic "A"]⟩, rfl, rfl, ⟨[("P", false), ("A", true)], false⟩,
    ⟨[("P", false), ("A", false)], false⟩, rfl, rfl, ?_, by cbv, by cbv⟩
  intro name candidate mentions
  rcases List.mem_pair.mp candidate with rfl | rfl
  · rfl
  · exact absurd mentions not_mentions_bystander

end Session

end Model

end InvariantInference
