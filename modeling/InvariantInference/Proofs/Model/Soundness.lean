import Mathlib
import InvariantInference.Proofs.Assignment
import InvariantInference.Proofs.Model.Valuation
import InvariantInference.Proofs.Model.Walk

/-!
# Soundness of model sessions

An obligation that a session does not report is true under every valuation that
makes the hypotheses true and everything that was assumed before it. A correct
verdict therefore says that the obligations of the implementation follow from
its hypotheses, from its own preconditions, and from what it assumes and is
given by its callees.
-/

namespace InvariantInference

/-! ## What an implementation is given, and what it owes -/

namespace Command

/-- The conditions that may be relied on after a command without having been
    checked. -/
def givens (program : Program) : Command → List Expr
  | call _ callee =>
    (program.procedure? callee.value).toList.flatMap (fun p =>
      (p.requires.filter (·.free)).map (·.condition) ++ p.ensures.map (·.condition))
  | assert _ _ => []
  | assume _ condition => [condition]

/-- The conditions that are to be checked at a command. -/
def obligations (program : Program) : Command → List Expr
  | call _ callee =>
    (program.procedure? callee.value).toList.flatMap (fun p =>
      (p.requires.filter (!·.free)).map (·.condition))
  | assert _ condition => [condition]
  | assume _ _ => []

end Command

namespace Model

namespace Step

/-- The condition that a step checks. -/
def obligation? : Step → Option Expr
  | assume _ => none
  | check failure => some failure.condition

variable {v : Valuation}

/-- Facts stay true along steps that assume what is true. -/
theorem sound_after {f : Facts} {steps : List Step} (sound : f.Sound v)
    (assumed : ∀ c, .assume c ∈ steps → c.Readable ∧ c.value v) : (after f steps).Sound v := by
  fun_induction after f steps with
  | case1 f => exact sound
  | case2 f condition rest ih =>
    obtain ⟨readable, holds⟩ := assumed condition (by simp)
    exact ih (sound.assume readable holds) fun c member => assumed c (by simp [member])
  | case3 f failure rest ih => exact ih sound fun c member => assumed c (by simp [member])

/-- The preconditions of a callee that are checked. -/
theorem obligations_preconditions {callee : String} {site : Span} {trace : List String}
    (contracts : List Contract) :
    (contracts.flatMap (ofPrecondition callee site trace)).filterMap obligation? =
      (contracts.filter (!·.free)).map (·.condition) := by
  induction contracts with
  | nil => rfl
  | cons c contracts ih =>
    rw [List.flatMap_cons, List.filterMap_append, ih]
    cases free : c.free <;> simp [ofPrecondition, free, obligation?]

/-- The postconditions of an implementation that are checked. -/
theorem obligations_postconditions {trace : List String} (contracts : List Contract) :
    (contracts.flatMap (ofPostcondition trace)).filterMap obligation? =
      (contracts.filter (!·.free)).map (·.condition) := by
  induction contracts with
  | nil => rfl
  | cons c contracts ih =>
    rw [List.flatMap_cons, List.filterMap_append, ih]
    cases free : c.free <;> simp [ofPostcondition, free, obligation?]

/-- What is only assumed is not checked. -/
theorem obligations_assumes {α : Type} (l : List α) (e : α → Expr) :
    (l.map (fun a => .assume (e a))).filterMap obligation? = [] := by
  simp [List.filterMap_map, Function.comp_def, obligation?]

/-- The checks of a command are its obligations. -/
theorem obligations_ofCommand {program : Program} {callees : Dictionary Procedure}
    {trace : List String} {c : Command}
    (resolved : ∀ callee ∈ c.callee?, callees.get? callee.value = program.procedure? callee.value) :
    (ofCommand callees trace c).filterMap obligation? = c.obligations program := by
  cases c with
  | assume span condition => rfl
  | assert span condition => rfl
  | call span callee =>
    rw [ofCommand, resolved callee rfl, Command.obligations]
    cases program.procedure? callee.value with
    | none => rfl
    | some p =>
      simp only [List.filterMap_append, obligations_preconditions, obligations_assumes,
        List.append_nil, Option.toList_some, List.flatMap_singleton]

/-- The checks of blocks are the obligations of their commands. -/
theorem obligations_ofBlocks {program : Program} {callees : Dictionary Procedure}
    {trace : List String} {blocks : List Block}
    (resolved : ∀ c ∈ blocks.flatMap (·.commands), ∀ callee ∈ c.callee?,
      callees.get? callee.value = program.procedure? callee.value) :
    (ofBlocks callees trace blocks).filterMap obligation? =
      (blocks.flatMap (·.commands)).flatMap (·.obligations program) := by
  induction blocks generalizing trace with
  | nil => rfl
  | cons b blocks ih =>
    rw [List.flatMap_cons, List.forall_mem_append] at resolved
    rw [ofBlocks, List.filterMap_append, ih resolved.2, List.flatMap_cons, List.flatMap_append,
      List.filterMap_flatMap]
    congr 1
    exact List.flatMap_congr fun c member => obligations_ofCommand (resolved.1 c member)

/-- If a walk along the steps reports nothing then the obligations are true under
    the valuation wherever the facts and the givens are, and the facts are true
    after the steps. -/
def Secures (v : Valuation) (steps : List Step) (givens obligations : List Expr) : Prop :=
  ∀ f : Facts, f.Sound v → walk f steps = [] → (∀ c ∈ givens, c.value v) →
    (after f steps).Sound v ∧ ∀ c ∈ obligations, c.value v

theorem secures_nil : Secures v [] [] [] := fun _ sound _ _ => ⟨sound, by simp⟩

theorem Secures.append {first second : List Step} {givens givens' obligations obligations'}
    (secures : Secures v first givens obligations)
    (secures' : Secures v second givens' obligations') :
    Secures v (first ++ second) (givens ++ givens') (obligations ++ obligations') := by
  intro f sound silent given
  rw [walk_append, List.append_eq_nil_iff] at silent
  rw [List.forall_mem_append] at given
  obtain ⟨sound', held⟩ := secures f sound silent.1 given.1
  obtain ⟨sound'', held'⟩ := secures' _ sound' silent.2 given.2
  rw [after_append, List.forall_mem_append]
  exact ⟨sound'', held, held'⟩

theorem Secures.flatMap {α : Type} {l : List α} {steps : α → List Step}
    {givens obligations : α → List Expr}
    (each : ∀ a ∈ l, Secures v (steps a) (givens a) (obligations a)) :
    Secures v (l.flatMap steps) (l.flatMap givens) (l.flatMap obligations) := by
  induction l with
  | nil => exact secures_nil
  | cons a l ih =>
    rw [List.forall_mem_cons] at each
    exact each.1.append (ih each.2)

/-- What is assumed has to be given. -/
theorem secures_assume {c : Expr} (readable : c.Readable) : Secures v [.assume c] [c] [] := by
  intro f sound _ given
  exact ⟨sound.assume readable (given c (by simp)), by simp⟩

/-- A condition whose check is silent is true. -/
theorem value_of_silent {f : Facts} (sound : f.Sound v) {failure : Counterexample}
    {rest : List Step} (readable : failure.condition.Readable)
    (silent : walk f (.check failure :: rest) = []) :
    failure.condition.value v ∧ walk f rest = [] := by
  rw [walk] at silent
  split at silent
  · rename_i held
    exact ⟨sound.value_of_holds readable held, silent⟩
  · cases silent

/-- What is checked, and assumed from then on, is secured. -/
theorem secures_check_assume (failure : Counterexample) (readable : failure.condition.Readable) :
    Secures v [.check failure, .assume failure.condition] [] [failure.condition] := by
  intro f sound silent _
  obtain ⟨holds, -⟩ := value_of_silent sound readable silent
  exact ⟨sound.assume readable holds, by simpa using holds⟩

/-- What is checked is secured. -/
theorem secures_check (failure : Counterexample) (readable : failure.condition.Readable) :
    Secures v [.check failure] [] [failure.condition] := by
  intro f sound silent _
  obtain ⟨holds, -⟩ := value_of_silent sound readable silent
  exact ⟨sound, by simpa using holds⟩

/-- Fewer obligations are secured by more givens. -/
theorem Secures.mono {steps : List Step} {givens givens' obligations obligations' : List Expr}
    (secures : Secures v steps givens obligations) (more : givens ⊆ givens')
    (fewer : obligations' ⊆ obligations) : Secures v steps givens' obligations' := by
  intro f sound silent given
  obtain ⟨sound', held⟩ := secures f sound silent fun c member => given c (more member)
  exact ⟨sound', fun c member => held c (fewer member)⟩

/-- Assuming some conditions takes them as given. -/
theorem secures_assumes {α : Type} {l : List α} {e : α → Expr}
    (readable : ∀ a ∈ l, (e a).Readable) :
    Secures v (l.map (fun a => .assume (e a))) (l.map e) [] := by
  induction l with
  | nil => exact secures_nil
  | cons a l ih =>
    rw [List.forall_mem_cons] at readable
    exact (secures_assume readable.1).append (ih readable.2)

/-- The conditions of strict contracts are among those that the contracts bring. -/
theorem strict_subset (contracts : List Contract) :
    (contracts.filter (!·.free)).map (·.condition) ⊆
      contracts.flatMap (fun c => if c.free then [] else [c.condition]) := by
  intro e member
  obtain ⟨c, checked, rfl⟩ := List.mem_map.mp member
  obtain ⟨isContract, strict⟩ := List.mem_filter.mp checked
  refine List.mem_flatMap.mpr ⟨c, isContract, ?_⟩
  simp only [Bool.not_eq_true'] at strict
  simp [strict]

/-- The preconditions of a callee are checked, but for those that are free. -/
theorem secures_preconditions {callee : String} {site : Span} {trace : List String}
    {contracts : List Contract} (readable : ∀ c ∈ contracts, c.condition.Readable) :
    Secures v (contracts.flatMap (ofPrecondition callee site trace))
      ((contracts.filter (·.free)).map (·.condition))
      ((contracts.filter (!·.free)).map (·.condition)) := by
  have each : ∀ c ∈ contracts, Secures v (ofPrecondition callee site trace c)
      (if c.free then [c.condition] else []) (if c.free then [] else [c.condition]) := by
    intro c member
    unfold ofPrecondition
    split
    · exact secures_assume (readable c member)
    · exact secures_check_assume ⟨.precondition callee, c.condition, site, trace⟩
        (readable c member)
  refine (Secures.flatMap each).mono ?_ (strict_subset contracts)
  intro e member
  obtain ⟨c, isContract, given⟩ := List.mem_flatMap.mp member
  split at given
  · rename_i free
    rw [List.mem_singleton.mp given]
    exact List.mem_map.mpr ⟨c, List.mem_filter.mpr ⟨isContract, free⟩, rfl⟩
  · cases given

/-- The postconditions of an implementation are checked, but for those that are
    free. -/
theorem secures_postconditions {trace : List String} {contracts : List Contract}
    (readable : ∀ step ∈ contracts.flatMap (ofPostcondition trace), step.condition.Readable) :
    Secures v (contracts.flatMap (ofPostcondition trace)) []
      ((contracts.filter (!·.free)).map (·.condition)) := by
  have each : ∀ c ∈ contracts, Secures v (ofPostcondition trace c) []
      (if c.free then [] else [c.condition]) := by
    intro c member
    have own : ∀ step ∈ ofPostcondition trace c, step.condition.Readable := fun step isStep =>
      readable step (List.mem_flatMap.mpr ⟨c, member, isStep⟩)
    unfold ofPostcondition at own ⊢
    split
    · exact secures_nil
    · rename_i strict
      simp only [strict] at own
      exact secures_check _ (own _ (List.mem_singleton.mpr rfl))
  exact (Secures.flatMap each).mono (by simp) (strict_subset contracts)

/-- The steps of a command secure what it owes. -/
theorem secures_ofCommand {program : Program} {callees : Dictionary Procedure}
    {trace : List String} {c : Command}
    (readable : ∀ step ∈ ofCommand callees trace c, step.condition.Readable)
    (resolved : ∀ callee ∈ c.callee?, callees.get? callee.value = program.procedure? callee.value) :
    Secures v (ofCommand callees trace c) (c.givens program) (c.obligations program) := by
  cases c with
  | assume span condition =>
    exact secures_assume (readable (.assume condition) (by simp [ofCommand]))
  | assert span condition =>
    exact secures_check_assume ⟨.assertion, condition, span, trace⟩
      (readable (.assume condition) (by simp [ofCommand]))
  | call span callee =>
    have found := resolved callee rfl
    rw [ofCommand] at readable ⊢
    cases declared : program.procedure? callee.value with
    | none =>
      rw [declared] at found
      simp only [found, Command.givens, Command.obligations, declared]
      exact secures_nil
    | some p =>
      rw [declared] at found
      simp only [found] at readable ⊢
      rw [List.forall_mem_append] at readable
      have requires : ∀ c ∈ p.requires, c.condition.Readable := by
        intro c member
        refine readable.1 (.assume c.condition) (List.mem_flatMap.mpr ⟨c, member, ?_⟩)
        unfold ofPrecondition
        split <;> simp
      have ensures : ∀ c ∈ p.ensures, c.condition.Readable := fun c member =>
        readable.2 (.assume c.condition) (List.mem_map.mpr ⟨c, member, rfl⟩)
      refine ((secures_preconditions requires).append (secures_assumes ensures)).mono ?_ ?_
      · simp [Command.givens, declared]
      · simp [Command.obligations, declared]

/-- The steps of blocks secure what their commands owe. -/
theorem secures_ofBlocks {program : Program} {callees : Dictionary Procedure}
    {trace : List String} {blocks : List Block}
    (readable : ∀ step ∈ ofBlocks callees trace blocks, step.condition.Readable)
    (resolved : ∀ c ∈ blocks.flatMap (·.commands), ∀ callee ∈ c.callee?,
      callees.get? callee.value = program.procedure? callee.value) :
    Secures v (ofBlocks callees trace blocks)
      ((blocks.flatMap (·.commands)).flatMap (·.givens program))
      ((blocks.flatMap (·.commands)).flatMap (·.obligations program)) := by
  induction blocks generalizing trace with
  | nil => exact secures_nil
  | cons b blocks ih =>
    rw [ofBlocks, List.forall_mem_append] at readable
    rw [List.flatMap_cons, List.forall_mem_append] at resolved
    rw [ofBlocks, List.flatMap_cons, List.flatMap_append, List.flatMap_append]
    refine (Secures.flatMap fun c member => ?_).append (ih readable.2 resolved.2)
    refine secures_ofCommand (fun step isStep => ?_) (resolved.1 c member)
    exact readable.1 step (List.mem_flatMap.mpr ⟨c, member, isStep⟩)

end Step

namespace Session

/-- The hypotheses that are pushed: expressions that were read, and those that are
    made of assignments. -/
def Admissible (hypothesis : Expr) : Prop :=
  hypothesis.Parsed ∨ ∃ a : Assignment, hypothesis = a.hypothesis

/-- The conditions that an implementation may rely on: its preconditions, what it
    assumes, and what its callees grant it. -/
def givens (program : Program) (s : Session) : List Expr :=
  s.procedure.requires.map (·.condition) ++ s.implementation.commands.flatMap (·.givens program)

/-- The conditions that an implementation owes: its assertions, the preconditions
    of its callees, and its postconditions, unless they are free. -/
def obligations (program : Program) (s : Session) : List Expr :=
  s.implementation.commands.flatMap (·.obligations program) ++
    (s.procedure.ensures.filter (!·.free)).map (·.condition)

/-- The walk reports the obligation that comes after these steps. -/
def Reports (s : Session) (before : List Step) (failure : Counterexample) : Prop :=
  Step.walk (.ofBindings s.bindings) (before ++ [.check failure]) =
    Step.walk (.ofBindings s.bindings) before ++ [failure]

variable {program : Program} {s : Session} {v : Valuation}

/-- A conjunct of a hypothesis is an equation or readable. The equations of an
    assignment need not be: its names may be any texts. -/
theorem Admissible.readable {hypothesis c : Expr} (admissible : Admissible hypothesis)
    (member : c ∈ hypothesis.conjuncts) (other : c.binding?.isNone) : c.Readable := by
  rcases admissible with parsed | ⟨a, rfl⟩
  · exact parsed.readable.conjuncts member
  · rw [Assignment.conjuncts_hypothesis] at member
    split at member
    · rw [List.mem_singleton.mp member]
      trivial
    · obtain ⟨entry, -, rfl⟩ := List.mem_map.mp member
      cases other

/-- Where all hypotheses are true, so are their conjuncts. -/
theorem value_of_mem_hypotheses (hypotheses : ∀ h ∈ s.stack, h.value v) :
    ∀ c ∈ s.hypotheses, c.value v := by
  intro c member
  obtain ⟨h, pushed, conjunct⟩ := List.mem_flatMap.mp member
  exact (Expr.value_iff_conjuncts v h).mp (hypotheses h (List.mem_reverse.mp pushed)) c conjunct

/-- Where all hypotheses are true, so is what is known at the start. -/
theorem sound_ofBindings (hypotheses : ∀ h ∈ s.stack, h.value v) :
    (Facts.ofBindings s.bindings).Sound v := by
  refine ⟨fun name b bound => ?_, by simp [Facts.ofBindings], by simp [Facts.ofBindings], rfl⟩
  obtain ⟨before, after, split, -⟩ := List.lookup_eq_some_iff.mp bound
  have isBinding : (name, b) ∈ s.bindings := by
    change (name, b) ∈ (Facts.ofBindings s.bindings).bindings
    simp [split]
  obtain ⟨c, member, equation⟩ := List.mem_filterMap.mp (List.mem_reverse.mp isBinding)
  exact Expr.ident_of_binding? equation (value_of_mem_hypotheses hypotheses c member)

/-- All steps of a session are about readable conditions. -/
theorem readable_of_mem_steps (session : s.Of program) (admissible : ∀ h ∈ s.stack, Admissible h)
    (read : ∀ e ∈ program.conditions, e.Parsed) :
    ∀ step ∈ s.steps, step.condition.Readable := by
  rw [steps_eq, List.forall_mem_append]
  refine ⟨fun step member => ?_,
    fun step member => (read _ (session.condition_mem member)).readable⟩
  obtain ⟨c, hypothesis, rfl⟩ := List.mem_map.mp member
  obtain ⟨isHypothesis, other⟩ := List.mem_filter.mp hypothesis
  obtain ⟨h, pushed, conjunct⟩ := List.mem_flatMap.mp isHypothesis
  exact (admissible h (List.mem_reverse.mp pushed)).readable conjunct other

/-- The steps of a session secure what its implementation owes. -/
theorem secures_steps (session : s.Of program)
    (readable : ∀ step ∈ s.steps, step.condition.Readable) :
    Step.Secures v s.steps (s.hypotheses.filter (·.binding?.isNone) ++ s.givens program)
      (s.obligations program) := by
  rw [steps_eq, bodySteps] at readable ⊢
  simp only [List.forall_mem_append, List.forall_mem_map, Step.condition] at readable
  obtain ⟨hypotheses, ⟨requires, inside⟩, ensures⟩ := readable
  refine ((Step.secures_assumes (e := id) hypotheses).append
    (((Step.secures_assumes requires).append
    (Step.secures_ofBlocks inside session.resolved)).append
      (Step.secures_postconditions ensures))).mono ?_ ?_
  · simp [givens, Implementation.commands]
  · simp [obligations, Implementation.commands]

/-- A session checks what its implementation owes, in the order of the program. -/
theorem obligations_steps (session : s.Of program) :
    s.steps.filterMap Step.obligation? = s.obligations program := by
  have hypotheses := Step.obligations_assumes (s.hypotheses.filter (·.binding?.isNone)) id
  simp only [steps_eq, bodySteps, List.filterMap_append, Step.obligations_assumes,
    Step.obligations_postconditions, Step.obligations_ofBlocks session.resolved, List.nil_append]
  exact congrArg (· ++ _) hypotheses

/-- A walk reports an obligation iff the facts before it do not make it hold. -/
theorem reports_iff {before : List Step} {failure : Counterexample} :
    s.Reports before failure ↔
      (Step.after (.ofBindings s.bindings) before).holds failure.condition = false := by
  unfold Reports
  rw [Step.walk_append]
  cases held : (Step.after (.ofBindings s.bindings) before).holds failure.condition with
  | false => simp [Step.walk, held]
  | true => simp [Step.walk, held]

/-- Every obligation that a session does not report is true wherever the
    hypotheses and all that was assumed before it are. If the verdict is correct
    then the obligations are true wherever the hypotheses and the givens are. -/
theorem unreported_obligation_holds (read : ∀ e ∈ program.conditions, e.Parsed)
    (reached : s.Reached program Admissible) :
    s.steps.filterMap Step.obligation? = s.obligations program ∧
    (∀ before failure after, s.steps = before ++ .check failure :: after →
      (s.Reports before failure → failure ∈ s.evaluate.errors) ∧
      (¬ s.Reports before failure → ∀ v : Valuation, (∀ h ∈ s.stack, h.value v) →
        (∀ c, .assume c ∈ before → c.value v) → failure.condition.value v)) ∧
    (s.evaluate.outcome = .correct → ∀ v : Valuation, (∀ h ∈ s.stack, h.value v) →
      (∀ c ∈ s.givens program, c.value v) → ∀ c ∈ s.obligations program, c.value v) := by
  obtain ⟨session, admissible⟩ := of_reached reached
  have readable := readable_of_mem_steps session admissible read
  refine ⟨obligations_steps session, fun before failure after split => ⟨?_, ?_⟩, ?_⟩
  · intro reported
    rw [reports_iff] at reported
    simp [evaluate, Verdict.ofErrors, split, Step.walk_append, Step.walk, reported]
  · intro unreported v hypotheses assumed
    rw [reports_iff, Bool.not_eq_false] at unreported
    rw [split, List.forall_mem_append, List.forall_mem_cons] at readable
    have sound := Step.sound_after (sound_ofBindings hypotheses) fun c member =>
      ⟨readable.1 _ member, assumed c member⟩
    exact sound.value_of_holds readable.2.1 unreported
  · intro correct v hypotheses given
    have silent : Step.walk (.ofBindings s.bindings) s.steps = [] := by
      simpa [evaluate, Verdict.ofErrors] using correct
    refine (secures_steps session readable _ (sound_ofBindings hypotheses) silent ?_).2
    rw [List.forall_mem_append]
    refine ⟨fun c member => ?_, given⟩
    exact value_of_mem_hypotheses hypotheses c (List.mem_of_mem_filter member)

/-- In the guarded call, with `P` false and `Q` true, the callee is correct, so
    its postcondition follows from what it assumes. -/
theorem unreported_obligation_holds_guardedCall :
    ∃ s : Session, s.implementation = Program.guardedImplementation ∧
      s.stack = [Assignment.hypothesis ⟨[("P", false), ("Q", true)], false⟩] ∧
      s.evaluate.outcome = .correct ∧
      ∀ v : Valuation, v.ident "P" = false → v.ident "Q" = true → v.atom "r > 0" →
        ∀ c ∈ s.obligations Program.guardedCall, c.value v := by
  let hypothesis := Assignment.hypothesis ⟨[("P", false), ("Q", true)], false⟩
  let opened : Session := ⟨Program.guardedImplementation, Program.guardedProcedure, .empty, .plain,
    [], 0, 0⟩
  have session : oracle .empty Program.guardedCall Program.guardedImplementation = .ok opened := rfl
  have reached : (opened.push hypothesis).2.Reached Program.guardedCall Admissible :=
    .push (.opened (by decide) session) (.inr ⟨_, rfl⟩)
  have correct : (opened.push hypothesis).2.evaluate.outcome = .correct := by cbv
  refine ⟨_, rfl, rfl, correct, fun v p q r => ?_⟩
  refine (unreported_obligation_holds Program.parsed_guardedCall reached).2.2 correct v ?_ ?_
  · have assigned : hypothesis.value v := by
      change ((v.ident "P" == false) && (v.ident "Q" == true)) = true
      simp [p, q]
    exact List.forall_mem_singleton.mpr assigned
  · have given : (opened.push hypothesis).2.givens Program.guardedCall =
        [.guarded "P" "x > 0", .atom ⟨0, 5⟩ "r > 0"] := rfl
    have required : (Expr.guarded "P" "x > 0").value v := by
      change (!v.ident "P" || v.atom "x > 0") = true
      simp [p]
    rw [given, List.forall_mem_cons, List.forall_mem_singleton]
    exact ⟨required, r⟩

end Session

end Model

end InvariantInference
