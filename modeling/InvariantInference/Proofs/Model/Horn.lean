import Mathlib
import InvariantInference.Engine.Round
import InvariantInference.Proofs.Assignment
import InvariantInference.Proofs.Candidate
import InvariantInference.Proofs.Model.Propagation
import InvariantInference.Proofs.Model.Walk

/-!
# Guarded-Horn programs

In a guarded-Horn program every condition is a clause whose conclusion is no
candidate. Under an assignment a session reports exactly the obligations that
the conditions assumed before them do not entail, with the candidates bound to
their values. A candidate that is true lets more be derived, which is why an
obligation that fails with more candidates true also fails with fewer.
-/

namespace InvariantInference

namespace Expr

/-- Whether a condition is a clause whose conclusion is no candidate; a candidate
    may only guard it. -/
def isGuardedHorn (cs : Candidates) (e : Expr) : Bool :=
  e.isClause && !e.conclusion.name?.any cs.contains

end Expr

/-- A program all of whose conditions were read from texts and are guarded-Horn. -/
structure Program.GuardedHorn (cs : Candidates) (program : Program) : Prop where
  read : ∀ e ∈ program.conditions, e.Parsed
  horn : ∀ e ∈ program.conditions, e.isGuardedHorn cs

namespace Model

namespace Step

/-- The conditions that some steps assume, in order. -/
def assumptions (steps : List Step) : List Expr := steps.filterMap assumed?

/-- Steps about clauses assume clauses. -/
theorem clauses_assumptions {steps : List Step}
    (clauses : ∀ step ∈ steps, step.condition.isClause ∧ step.condition.Readable) :
    Clauses (assumptions steps) := by
  intro e member
  obtain ⟨step, isStep, assumption⟩ := List.mem_filterMap.mp member
  cases step with
  | assume condition =>
    cases assumption
    exact clauses _ isStep
  | check failure => cases assumption

/-- What is known after steps that assume clauses. -/
theorem closed_after {b : String → Option Bool} {cs : List Expr} {f : Facts} {steps : List Step}
    (closed : f.Closed b cs) (clauses : Clauses (cs ++ assumptions steps)) :
    (after f steps).Closed b (cs ++ assumptions steps) := by
  fun_induction after f steps generalizing cs with
  | case1 f => simpa [assumptions] using closed
  | case2 f condition rest ih =>
    have split : cs ++ assumptions (.assume condition :: rest) =
        (cs ++ [condition]) ++ assumptions rest := by simp [assumptions, assumed?]
    rw [split] at clauses ⊢
    refine ih (closed.assume ?_) clauses
    exact fun e member => clauses e (List.mem_append_left _ member)
  | case3 f failure rest ih => exact ih closed clauses

/-- A walk reports the obligations that do not hold where they are checked. -/
theorem mem_walk_iff {f : Facts} {steps : List Step} {failure : Counterexample} :
    failure ∈ walk f steps ↔ ∃ before later, steps = before ++ .check failure :: later ∧
      (after f before).holds failure.condition = false := by
  constructor
  · intro reported
    fun_induction walk f steps with
    | case1 f => cases reported
    | case2 f condition rest ih =>
      obtain ⟨before, later, rfl, fails⟩ := ih reported
      exact ⟨.assume condition :: before, later, rfl, fails⟩
    | case3 f failure' rest held ih =>
      obtain ⟨before, later, rfl, fails⟩ := ih reported
      exact ⟨.check failure' :: before, later, rfl, fails⟩
    | case4 f failure' rest fails ih =>
      rcases List.mem_cons.mp reported with rfl | reported
      · exact ⟨[], rest, rfl, Bool.not_eq_true _ ▸ fails⟩
      · obtain ⟨before, later, rfl, fails⟩ := ih reported
        exact ⟨.check failure' :: before, later, rfl, fails⟩
  · rintro ⟨before, later, rfl, fails⟩
    rw [walk_append, walk, fails]
    simp

/-- An obligation that the conditions assumed before it do not entail. -/
def Violates (b : String → Option Bool) (steps : List Step) (failure : Counterexample) : Prop :=
  ∃ before later, steps = before ++ .check failure :: later ∧
    ¬ Entails b (assumptions before) failure.condition

/-- A walk along clauses reports what they do not entail. -/
theorem mem_walk_iff_violates {b : List (String × Bool)} {steps : List Step}
    (clauses : ∀ step ∈ steps, step.condition.isClause ∧ step.condition.Readable)
    (unbound : ∀ step ∈ steps, step.condition.conclusion.bound (b.lookup ·) = none)
    {failure : Counterexample} :
    failure ∈ walk (.ofBindings b) steps ↔ Violates (b.lookup ·) steps failure := by
  rw [mem_walk_iff]
  refine exists_congr fun before => exists_congr fun later => and_congr_right fun split => ?_
  subst split
  rw [List.forall_mem_append, List.forall_mem_cons] at clauses unbound
  have assumed := clauses_assumptions clauses.1
  rw [← List.nil_append (assumptions before)] at assumed
  have closed := closed_after (Facts.closed_ofBindings b) assumed
  rw [List.nil_append] at closed assumed
  have held := closed.holds_iff assumed clauses.2.1.1 clauses.2.1.2 unbound.2.1
  rw [← Bool.not_eq_true]
  exact not_congr held

/-- With fewer candidates true, fewer conditions are entailed, but for those whose
    guards have become false. -/
theorem Violates.of_fewer {b b' : String → Option Bool} {steps : List Step}
    {failure : Counterexample} (violates : Violates b steps failure)
    (fewer : ∀ name, b' name = some true → b name = some true)
    (unbound : ∀ name, b' name = none → b name = none) {span : Span} {premise conclusion : Expr}
    (guarded : failure.condition = .binary span .implies premise conclusion)
    (guard : premise.bound b' = some true) : Violates b' steps failure := by
  obtain ⟨before, later, split, fails⟩ := violates
  refine ⟨before, later, split, fun entailed => fails ?_⟩
  rw [guarded] at entailed ⊢
  rcases entailed with refuted | derives
  · rw [guard] at refuted
    cases refuted
  · exact .inr (derives.mono (fun _ => id) fewer unbound)

end Step

/-! ## Sessions between two verifications -/

namespace Session

variable {program : Program} {i : Implementation} {s s' : Session}

/-- A session as it was opened for an implementation, but for its script and what
    it has counted since. -/
structure Idle (program : Program) (i : Implementation) (s : Session) : Prop where
  implementation : s.implementation = i
  procedure : program.procedure? i.procedure.value = some s.procedure
  callees : resolve program i = .ok s.callees
  stack : s.stack = []

/-- A session that was opened is idle. -/
theorem idle_of_oracle {scripts : Dictionary Script} (opened : oracle scripts program i = .ok s) :
    s.Idle program i := by
  obtain ⟨p, callees, procedure, resolved, rfl⟩ := oracle_eq_ok_iff.mp opened
  exact ⟨rfl, procedure, resolved, rfl⟩

/-- An idle session is one of its program. -/
theorem Idle.of (idle : s.Idle program i) (declared : i ∈ program.implementations) :
    s.Of program := by
  refine ⟨?_, ?_, ?_⟩
  · rw [idle.implementation]
    exact declared
  · rw [idle.implementation]
    exact idle.procedure
  · rw [idle.implementation]
    exact fun callee called => get?_of_resolve idle.callees called

/-- Idle sessions of one implementation walk the same body. -/
theorem Idle.bodySteps_eq (idle : s.Idle program i) (idle' : s'.Idle program i) :
    s.bodySteps = s'.bodySteps := by
  have procedure : s.procedure = s'.procedure :=
    Option.some.inj (idle.procedure.symm.trans idle'.procedure)
  have callees : s.callees = s'.callees := Except.ok.inj (idle.callees.symm.trans idle'.callees)
  simp only [bodySteps, labels, procedure, callees, idle.implementation, idle'.implementation]

/-- The session while it verifies under a hypothesis. -/
def under (s : Session) (hypothesis : Expr) : Session :=
  { s with
    stack := hypothesis :: s.stack
    verifications := s.verifications + 1
    pushes := s.pushes + 1 }

/-- What a session answers under a hypothesis, and the session afterwards: the
    verification is counted, and nothing else changes. -/
theorem verifyUnder_eq (s : Session) (hypothesis : Expr) :
    Session.verifyUnder s hypothesis =
      (if s.script.faultOnAttempt = some (s.verifications + 1) then
          .error (s.fault s.script.faultKind
            ("scripted fault on attempt " ++ toString (s.verifications + 1)))
        else
          match s.script.forced with
          | some outcome => .ok (.ofOutcome outcome)
          | none => .ok (s.under hypothesis).evaluate,
        { s.under hypothesis with stack := s.stack }) := by
  simp only [Session.verifyUnder, InvariantInference.Session.push,
    InvariantInference.Session.verify, InvariantInference.Session.pop, push, verify]
  by_cases faulty : s.script.faultOnAttempt = some (s.verifications + 1)
  · simp only [faulty, if_true]
    rfl
  · simp only [faulty, if_false]
    cases s.script.forced <;> rfl

/-- A verification leaves a session idle. -/
theorem Idle.verifyUnder (idle : s.Idle program i) (hypothesis : Expr) :
    (Session.verifyUnder s hypothesis).2.Idle program i := by
  rw [verifyUnder_eq]
  exact ⟨idle.implementation, idle.procedure, idle.callees, idle.stack⟩

/-- The counterexamples that a session answers with are those of its walk. -/
theorem errors_of_verifyUnder {hypothesis : Expr} {verdict : Verdict} {failure : Counterexample}
    (answered : (Session.verifyUnder s hypothesis).1 = .ok verdict)
    (reported : failure ∈ verdict.errors) :
    failure ∈ (s.under hypothesis).evaluate.errors := by
  rw [verifyUnder_eq] at answered
  simp only at answered
  split at answered
  · cases answered
  · split at answered <;> cases answered
    · cases reported
    · exact reported

/-! ## Verification under an assignment -/

/-- Assuming `true` adds nothing. -/
theorem assume_true (f : Facts) : f.assume (.ofBool true) = f := by
  rw [Facts.assume, Expr.ofBool, Facts.settle, Facts.settle]

theorem hypotheses_under (hypothesis : Expr) (empty : s.stack = []) :
    (s.under hypothesis).hypotheses = hypothesis.conjuncts := by
  simp [Session.hypotheses, under, empty]

/-- The only hypothesis that is pushed gives the candidates their values. -/
theorem bindings_under (a : Assignment) (empty : s.stack = []) :
    (s.under a.hypothesis).bindings = a.entries.reverse := by
  rw [Session.bindings, hypotheses_under _ empty, Assignment.filterMap_binding?_hypothesis]

/-- Under an assignment the candidates are bound to their values, and the walk is
    that of the body. -/
theorem evaluate_under (a : Assignment) (empty : s.stack = []) :
    (s.under a.hypothesis).evaluate =
      .ofErrors (Step.walk (.ofBindings a.entries.reverse) s.bodySteps) := by
  have body : (s.under a.hypothesis).bodySteps = s.bodySteps := rfl
  rw [evaluate, steps_eq, bindings_under a empty, hypotheses_under _ empty, body,
    Assignment.filter_binding?_hypothesis]
  split
  · rw [List.map_singleton, List.singleton_append, Step.walk, assume_true]
  · rfl

theorem errors_under (a : Assignment) (idle : s.Idle program i) :
    (s.under a.hypothesis).evaluate.errors =
      Step.walk (.ofBindings a.entries.reverse) s.bodySteps :=
  congrArg Verdict.errors (evaluate_under a idle.stack)

section Body

variable {cs : Candidates} (horn : program.GuardedHorn cs)
  (declared : i ∈ program.implementations) (idle : s.Idle program i)

include horn declared idle

/-- The steps of a guarded-Horn program are about clauses. -/
theorem clauses_bodySteps :
    ∀ step ∈ s.bodySteps, step.condition.isClause ∧ step.condition.Readable := by
  intro step member
  have condition := (idle.of declared).condition_mem member
  have clause := horn.horn _ condition
  simp only [Expr.isGuardedHorn, Bool.and_eq_true] at clause
  exact ⟨clause.1, (horn.read _ condition).readable⟩

/-- No step of a guarded-Horn program concludes a candidate. -/
theorem unbound_bodySteps {a : Assignment} (names : a.entries.map (·.1) = cs.names) :
    ∀ step ∈ s.bodySteps, step.condition.conclusion.bound a.get? = none := by
  intro step member
  have clause := horn.horn _ ((idle.of declared).condition_mem member)
  simp only [Expr.isGuardedHorn, Bool.and_eq_true, Bool.not_eq_true'] at clause
  rw [Expr.bound, Option.bind_eq_none_iff]
  intro name named
  rw [Assignment.get?_eq_none_iff, names]
  simpa [named, Candidates.contains] using clause.2

/-- Under an assignment of the candidates of a guarded-Horn program a session
    reports the obligations that are not entailed. -/
theorem mem_errors_under_iff {a : Assignment} {failure : Counterexample}
    (names : a.entries.map (·.1) = cs.names) (distinct : cs.names.Nodup) :
    failure ∈ (s.under a.hypothesis).evaluate.errors ↔
      Step.Violates a.get? s.bodySteps failure := by
  have lookup : (fun name => a.entries.reverse.lookup name) = a.get? := by
    funext name
    exact lookup_reverse (names ▸ distinct) name
  rw [errors_under a idle,
    Step.mem_walk_iff_violates (clauses_bodySteps horn declared idle), lookup]
  rw [lookup]
  exact unbound_bodySteps horn declared idle names

end Body

end Session

/-- A fresh session of the implementation answers that it is correct under the
    assignment. -/
def Passes (program : Program) (i : Implementation) (a : Assignment) : Prop :=
  ∃ s verdict, oracle .empty program i = .ok s ∧
    (Session.verifyUnder s a.hypothesis).1 = .ok verdict ∧ verdict.outcome = .correct

/-- A session without a script answers with its walk. -/
theorem Session.verifyUnder_plain {s : Session} (plain : s.script = .plain) (hypothesis : Expr) :
    (Session.verifyUnder s hypothesis).1 = .ok (s.under hypothesis).evaluate := by
  rw [verifyUnder_eq, plain]
  rfl

/-- A verdict is correct iff it has no counterexamples. -/
theorem Session.evaluate_correct_iff (s : Session) :
    s.evaluate.outcome = .correct ↔ s.evaluate.errors = [] := by
  simp [evaluate, Verdict.ofErrors]

/-- A verdict with a counterexample is one of errors. -/
theorem Session.evaluate_errors {s : Session} {failure : Counterexample}
    (reported : failure ∈ s.evaluate.errors) : s.evaluate.outcome = .errors := by
  have nonempty : s.evaluate.errors ≠ [] := List.ne_nil_of_mem reported
  simpa [evaluate, Verdict.ofErrors] using nonempty

/-- A fresh session of an implementation answers as any idle session of it would without
    its script. -/
theorem exists_fresh_iff {program : Program} {i : Implementation} {s : Session} {a : Assignment}
    (idle : s.Idle program i) {P : Verdict → Prop} :
    (∃ s' verdict, oracle .empty program i = .ok s' ∧
      (Session.verifyUnder s' a.hypothesis).1 = .ok verdict ∧ P verdict) ↔
        P (s.under a.hypothesis).evaluate := by
  have fresh : ∀ s', oracle .empty program i = .ok s' →
      (Session.verifyUnder s' a.hypothesis).1 = .ok (s.under a.hypothesis).evaluate := by
    intro s' opened
    have idle' := Session.idle_of_oracle opened
    have plain : s'.script = .plain := by
      obtain ⟨p, callees, -, -, rfl⟩ := Session.oracle_eq_ok_iff.mp opened
      rfl
    have same : (s'.under a.hypothesis).evaluate.errors =
        (s.under a.hypothesis).evaluate.errors := by
      rw [Session.errors_under a idle, Session.errors_under a idle', idle.bodySteps_eq idle']
    have evaluated : (s'.under a.hypothesis).evaluate = (s.under a.hypothesis).evaluate :=
      congrArg Verdict.ofErrors same
    rw [Session.verifyUnder_plain plain, evaluated]
  constructor
  · rintro ⟨s', verdict, opened, answered, holds⟩
    rw [fresh s' opened] at answered
    cases answered
    exact holds
  · intro holds
    have opened : oracle .empty program i = .ok ⟨i, s.procedure, s.callees, .plain, [], 0, 0⟩ :=
      Session.oracle_eq_ok_iff.mpr ⟨_, _, idle.procedure, idle.callees, rfl⟩
    exact ⟨_, _, opened, fresh _ opened, holds⟩

/-- An implementation passes iff no session of it has anything to report. -/
theorem passes_iff {program : Program} {i : Implementation} {s : Session} {a : Assignment}
    (idle : s.Idle program i) :
    Passes program i a ↔ (s.under a.hypothesis).evaluate.errors = [] := by
  rw [Passes, exists_fresh_iff (P := fun verdict => verdict.outcome = .correct) idle]
  exact Session.evaluate_correct_iff _

end Model

end InvariantInference
