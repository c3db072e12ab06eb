import Mathlib
import InvariantInference.Proofs.Model.Horn

/-!
# Candidates that can fall unnoticed

If a candidate guards only conditions that an implementation checks before it
assumes them, and all these checks succeed while the candidate is true, then the
implementation violates nothing new once the candidate has fallen. Where the
check succeeded the conclusion was derived already, so assuming the condition
added nothing. In particular a correct implementation stays correct, and one
that refutes no true candidate still refutes none.
-/

namespace InvariantInference

namespace Expr

/-- Whether a condition is an implication from this name. -/
def isGuardedBy (name : String) (e : Expr) : Bool :=
  match e.implication? with
  | some (premise, _) => premise.name? = some name
  | none => false

/-- The conditions that a name guards. -/
theorem isGuardedBy_iff {name : String} {e : Expr} :
    e.isGuardedBy name ↔ ∃ span premise conclusion,
      e = .binary span .implies premise conclusion ∧ premise.name? = some name := by
  constructor
  · intro guarded
    cases e with
    | binary span op premise conclusion =>
      cases op with
      | implies => exact ⟨span, premise, conclusion, rfl, of_decide_eq_true guarded⟩
      | _ => cases guarded
    | _ => cases guarded
  · rintro ⟨span, premise, conclusion, rfl, named⟩
    exact decide_eq_true named

/-- Expressions with the same text are bound alike. -/
theorem bound_eq_of_render_eq {e e' : Expr} (readable : e.Readable) (readable' : e'.Readable)
    (same : e.render = e'.render) (b : String → Option Bool) : e.bound b = e'.bound b := by
  have name?_erase : ∀ e : Expr, e.erase.name? = e.name? := by
    intro e
    cases e <;> rfl
  rw [bound, bound, ← name?_erase e, ← name?_erase e',
    erase_eq_of_render_eq readable readable' same]

end Expr

variable {b b' : String → Option Bool} {cs : List Expr} {name : String}

/-- Assuming a leaf that is bound derives nothing but its own text. -/
theorem Derives.drop {premise : Expr} {text : String} (clauses : Clauses (cs ++ [premise]))
    (leaf : premise.isLeaf) (bound : premise.bound b ≠ none)
    (derives : Derives b (cs ++ [premise]) text) (other : text ≠ premise.render) :
    Derives b cs text := by
  have implication : ∀ {span p c}, Expr.binary span .implies p c ∈ cs ++ [premise] →
      Expr.binary span .implies p c ∈ cs := by
    intro span p c member
    rcases List.mem_append.mp member with inside | last
    · exact inside
    · rw [← List.mem_singleton.mp last] at leaf
      cases leaf
  have readable : premise.Readable := (clauses premise (by simp)).2
  induction derives with
  | fact member leaf =>
    rcases List.mem_append.mp member with inside | last
    · exact .fact inside leaf
    · rw [List.mem_singleton.mp last] at other
      exact absurd rfl other
  | guarded member holds => exact .guarded (implication member) holds
  | @rule span p c member unbound _ ih =>
    refine .rule (implication member) unbound (ih fun same => bound ?_)
    rw [← Expr.bound_eq_of_render_eq (clauses _ member).2.1 readable same]
    exact unbound

/-- The bindings differ in one name, which is true and falls. -/
structure Lowers (name : String) (b b' : String → Option Bool) : Prop where
  before : b name = some true
  after : b' name = some false
  others : ∀ other, other ≠ name → b' other = b other

/-- Where a name falls, all other leaves are bound as before. -/
theorem Lowers.bound_eq (lowers : Lowers name b b') {e : Expr} (other : e.name? ≠ some name) :
    e.bound b' = e.bound b := by
  cases named : e.name? with
  | none => simp [Expr.bound, named]
  | some found =>
    have differs : found ≠ name := by
      rintro rfl
      exact other named
    simp [Expr.bound, named, lowers.others found differs]

/-- The conclusions of all implications from a name are derived. -/
def Redundant (name : String) (b : String → Option Bool) (cs : List Expr) : Prop :=
  ∀ span premise conclusion, Expr.binary span .implies premise conclusion ∈ cs →
    premise.name? = some name → Derives b cs conclusion.render

/-- Where the implications from a name are redundant its fall costs nothing. -/
theorem Derives.lower {more : List Expr} {text : String} (derives : Derives b (cs ++ more) text)
    (lowers : Lowers name b b') (redundant : Redundant name b' cs)
    (leaves : ∀ e ∈ more, e.isLeaf) : Derives b' (cs ++ more) text := by
  induction derives with
  | fact member leaf => exact .fact member leaf
  | @guarded span premise conclusion member holds =>
    by_cases named : premise.name? = some name
    · rcases List.mem_append.mp member with inside | extra
      · exact (redundant _ _ _ inside named).weaken (List.subset_append_left _ _)
      · cases leaves _ extra
    · exact .guarded member ((lowers.bound_eq named).trans holds)
  | @rule span premise conclusion member unbound _ ih =>
    have named : premise.name? ≠ some name := by
      intro named
      simp [Expr.bound, named, lowers.before] at unbound
    exact .rule member ((lowers.bound_eq named).trans unbound) ih

/-- What is entailed stays entailed where the implications from the name that falls are
    redundant. -/
theorem Entails.lower {e : Expr} (entailed : Entails b cs e) (clause : e.isClause)
    (lowers : Lowers name b b') (redundant : Redundant name b' cs) : Entails b' cs e := by
  rcases Expr.isClause_cases clause with leaf | ⟨span, premise, conclusion, rfl, leaf, -⟩
  · rw [entails_leaf_iff leaf, ← List.append_nil cs] at entailed ⊢
    exact entailed.lower lowers redundant (by simp)
  · by_cases named : premise.name? = some name
    · exact .inl (by simp [Expr.bound, named, lowers.after])
    · rcases entailed with refuted | derives
      · exact .inl ((lowers.bound_eq named).trans refuted)
      · exact .inr (derives.lower lowers redundant (by simpa using leaf))

namespace Model.Step

/-- All obligations are entailed where they are checked. -/
def Silent (b : String → Option Bool) (steps : List Step) : Prop :=
  ∀ before failure later, steps = before ++ .check failure :: later →
    Entails b (assumptions before) failure.condition

/-- Nothing is violated along silent steps. -/
theorem silent_iff {steps : List Step} :
    Silent b steps ↔ ∀ failure, ¬ Violates b steps failure := by
  constructor
  · rintro silent failure ⟨before, later, split, fails⟩
    exact fails (silent before failure later split)
  · intro none before failure later split
    by_contra fails
    exact none failure ⟨before, later, split, fails⟩

/-- No obligation is violated that a true name guards. -/
def Unrefuted (b : String → Option Bool) (steps : List Step) : Prop :=
  ∀ name, b name = some true → ∀ failure : Counterexample, failure.condition.isGuardedBy name →
    ¬ Violates b steps failure

theorem Silent.unrefuted {steps : List Step} (silent : Silent b steps) : Unrefuted b steps :=
  fun _ _ failure _ => silent_iff.mp silent failure

/-- What a name guards is assumed only after it was checked. -/
def Checked (name : String) (steps : List Step) : Prop :=
  ∀ before condition later, steps = before ++ .assume condition :: later →
    condition.isGuardedBy name → ∃ failure, .check failure ∈ before ∧ failure.condition = condition

theorem assumptions_subset {before later : List Step} :
    assumptions before ⊆ assumptions (before ++ later) := by
  rw [assumptions, assumptions, List.filterMap_append]
  exact List.subset_append_left _ _

section Fall

variable {steps : List Step}
  (clauses : ∀ step ∈ steps, step.condition.isClause ∧ step.condition.Readable)
  (unbound : ∀ step ∈ steps, step.condition.conclusion.bound b' = none)
  (unrefuted : Unrefuted b steps) (checked : Checked name steps) (lowers : Lowers name b b')

include clauses unbound unrefuted checked lowers

/-- Where no true name is refuted, all implications from a name that are assumed were
    checked before, and are redundant. -/
theorem redundant_assumptions {before later : List Step} (split : steps = before ++ later) :
    Redundant name b' (assumptions before) := by
  -- On the length of `before`: the check comes earlier than the assumption.
  induction length : before.length using Nat.strong_induction_on generalizing before later with
  | _ n ih =>
    intro span premise conclusion member named
    obtain ⟨step, isStep, assumption⟩ := List.mem_filterMap.mp member
    cases step with
    | check failure => cases assumption
    | assume condition =>
      cases assumption
      obtain ⟨first, second, rfl⟩ := List.mem_iff_append.mp isStep
      have guarded : (Expr.binary span .implies premise conclusion).isGuardedBy name :=
        Expr.isGuardedBy_iff.mpr ⟨_, _, _, rfl, named⟩
      obtain ⟨failure, earlier, same⟩ := checked first _ (second ++ later) (by simp [split]) guarded
      obtain ⟨front, back, rfl⟩ := List.mem_iff_append.mp earlier
      have place : steps = front ++ .check failure :: (back ++ .assume
          (.binary span .implies premise conclusion) :: (second ++ later)) := by simp [split]
      have entailed : Entails b (assumptions front) failure.condition := by
        by_contra fails
        exact unrefuted name lowers.before failure (same ▸ guarded) ⟨front, _, place, fails⟩
      rw [same] at entailed
      obtain ⟨clause, readable⟩ := clauses (.check failure) (by simp [place])
      have free := unbound (.check failure) (by simp [place])
      rw [condition, same] at clause readable free
      simp only [Expr.isClause, Bool.and_eq_true] at clause
      have redundant := ih front.length (by simp [← length]) place rfl
      rcases entailed with refuted | derives
      · simp [Expr.bound, named, lowers.before] at refuted
      · have derives' := derives.lower lowers redundant (by simpa using clause.1)
        have fallen : premise.bound b' = some false := by simp [Expr.bound, named, lowers.after]
        have other : conclusion.render ≠ premise.render := by
          intro text
          have same := Expr.bound_eq_of_render_eq readable.2 readable.1 text b'
          rw [fallen] at same
          exact Option.some_ne_none _ (same.symm.trans free)
        have assumed : Clauses (assumptions front) :=
          clauses_assumptions fun step member => clauses step (by simp [place, member])
        have dropped := derives'.drop (assumed.concat clause.1 readable.1) clause.1
          (by simp [fallen]) other
        rw [List.append_assoc]
        exact dropped.weaken assumptions_subset

/-- What is violated after the fall of a name was violated before it. -/
theorem Violates.of_lower {failure : Counterexample} (violates : Violates b' steps failure) :
    Violates b steps failure := by
  obtain ⟨before, later, split, fails⟩ := violates
  refine ⟨before, later, split, fun entailed => fails ?_⟩
  have redundant := redundant_assumptions clauses unbound unrefuted checked lowers split
  have clause : failure.condition.isClause := (clauses (.check failure) (by simp [split])).1
  exact entailed.lower clause lowers redundant

/-- The fall of a name refutes no other one. -/
theorem Unrefuted.lower : Unrefuted b' steps := by
  intro other holds failure guarded violates
  have differs : other ≠ name := by
    rintro rfl
    rw [lowers.after] at holds
    cases holds
  rw [lowers.others other differs] at holds
  exact unrefuted other holds failure guarded
    (violates.of_lower clauses unbound unrefuted checked lowers)

end Fall

end Model.Step

/-! ## Falls in an assignment -/

/-- A candidate that can fall is true before it is made false, and false after it. -/
theorem Assignment.lowers_disable {a : Assignment} (falls : a.canFall name) :
    Lowers name a.get? (a.disable name).get? := by
  simp only [canFall, isTrue, Bool.and_eq_true, Bool.not_eq_true', decide_eq_true_eq] at falls
  refine ⟨falls.2, ?_, fun other differs => ?_⟩
  · simp [get?_disable, falls]
  · simp [get?_disable, differs]

namespace Model

variable {program : Program} {i : Implementation} {s : Session} {cs : Candidates} {a : Assignment}
  (horn : program.GuardedHorn cs) (declared : i ∈ program.implementations)
  (idle : s.Idle program i)

include horn declared idle

/-- An implementation of a guarded-Horn program passes iff its steps are silent. -/
theorem passes_iff_silent (names : a.entries.map (·.1) = cs.names) (distinct : cs.names.Nodup) :
    Passes program i a ↔ Step.Silent a.get? s.bodySteps := by
  rw [passes_iff idle, List.eq_nil_iff_forall_not_mem, Step.silent_iff]
  exact forall_congr' fun failure =>
    not_congr (Session.mem_errors_under_iff horn declared idle names distinct)

/-- When candidates fall that guard only what is checked before it is assumed, nothing is
    violated that was not violated before. -/
theorem violates_of_disableAll {fallen : List String} (names : a.entries.map (·.1) = cs.names)
    (unrefuted : Step.Unrefuted a.get? s.bodySteps)
    (checked : ∀ name ∈ fallen, a.canFall name → Step.Checked name s.bodySteps)
    {failure : Counterexample}
    (violates : Step.Violates (a.disableAll fallen).get? s.bodySteps failure) :
    Step.Violates a.get? s.bodySteps failure := by
  induction fallen generalizing a with
  | nil => exact violates
  | cons name fallen ih =>
    rw [List.forall_mem_cons] at checked
    by_cases falls : a.canFall name
    · have names' : (a.disable name).entries.map (·.1) = cs.names :=
        (Assignment.names_disable a name).trans names
      have clauses := Session.clauses_bodySteps horn declared idle
      have unbound := Session.unbound_bodySteps horn declared idle names'
      have lowers := Assignment.lowers_disable falls
      have one := ih names' (unrefuted.lower clauses unbound (checked.1 falls) lowers)
        (fun other member falls =>
          checked.2 other member ((Assignment.canFall_disableAll a [name] other).mp falls).1)
        violates
      exact one.of_lower clauses unbound unrefuted (checked.1 falls) lowers
    · have same : a.disableAll (name :: fallen) = a.disableAll fallen := by
        rw [Assignment.disableAll, List.foldl_cons, Assignment.disable_of_not_canFall falls]
        rfl
      rw [same] at violates
      exact ih names unrefuted checked.2 violates

theorem silent_disableAll {fallen : List String} (names : a.entries.map (·.1) = cs.names)
    (silent : Step.Silent a.get? s.bodySteps)
    (checked : ∀ name ∈ fallen, a.canFall name → Step.Checked name s.bodySteps) :
    Step.Silent (a.disableAll fallen).get? s.bodySteps := by
  rw [Step.silent_iff] at silent ⊢
  intro failure violates
  exact silent failure (violates_of_disableAll horn declared idle names
    (Step.silent_iff.mpr silent).unrefuted checked violates)

theorem unrefuted_disableAll {fallen : List String} (names : a.entries.map (·.1) = cs.names)
    (unrefuted : Step.Unrefuted a.get? s.bodySteps)
    (checked : ∀ name ∈ fallen, a.canFall name → Step.Checked name s.bodySteps) :
    Step.Unrefuted (a.disableAll fallen).get? s.bodySteps := by
  intro name holds failure guarded violates
  have before : a.get? name = some true := by
    rw [Assignment.get?_disableAll] at holds
    split at holds
    · cases value : a.get? name <;> simp [value] at holds
    · exact holds
  exact unrefuted name before failure guarded
    (violates_of_disableAll horn declared idle names unrefuted checked violates)

end Model

end InvariantInference
