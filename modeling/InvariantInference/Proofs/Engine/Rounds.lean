import Mathlib
import InvariantInference.Engine

/-!
# Runs as sequences of rounds

A run is a sequence of rounds, each on the head of the worklist. `Rounds` counts
them. What every round preserves holds at the end of a run, and `react_responds`
says once what a round can do to the state and what events it tells, so that an
invariant is checked against a few shapes of the next state and never against the
code of a round. Where the events do not matter `react_cases` leaves them out.
-/

namespace InvariantInference

namespace Run

variable {σ : Type}

/-! ## Sequences of rounds -/

/-- The state `last` is reached from `run` by so many rounds. -/
inductive Rounds [Session σ] (s : Setting) : Nat → Run σ → Run σ → Prop
  | done (run : Run σ) : Rounds s 0 run run
  | round {n : Nat} {run last : Run σ} {current : Nat}
      (head : run.worklist.peek? = some current)
      (rest : Rounds s n (run.step s current).2 last) : Rounds s (n + 1) run last

/-- What each round preserves, a sequence of rounds preserves. -/
theorem Rounds.preserves [Session σ] {s : Setting} {n : Nat} {run last : Run σ}
    {P : Run σ → Prop}
    (step : ∀ (run : Run σ) (current : Nat), run.worklist.peek? = some current → P run →
      P (run.step s current).2)
    (rounds : Rounds s n run last) (initial : P run) : P last := by
  induction rounds with
  | done run => exact initial
  | round head _ ih => exact ih (step _ _ head initial)

/-- A run goes round after round until its worklist is empty. -/
theorem finish_rounds [Session σ] (s : Setting) (run : Run σ) :
    ∃ n, Rounds s n run (run.finish s).2 ∧ (run.finish s).2.worklist.ids = [] := by
  fun_induction finish s run with
  | case1 run empty =>
    refine ⟨0, .done run, ?_⟩
    simpa [Worklist.peek?] using empty
  | case2 run current head round rest ih =>
    obtain ⟨n, rounds, empty⟩ := ih
    exact ⟨n + 1, .round head rounds, empty⟩

/-- What each round preserves holds at the end of a run. -/
theorem finish_preserves [Session σ] {s : Setting} {run : Run σ} {P : Run σ → Prop}
    (step : ∀ (run : Run σ) (current : Nat), run.worklist.peek? = some current → P run →
      P (run.step s current).2)
    (initial : P run) : P (run.finish s).2 := by
  obtain ⟨_, rounds, _⟩ := finish_rounds s run
  exact rounds.preserves step initial

/-! ## What a round does -/

/-- What the session of an implementation answers in the next round. -/
def answer [Session σ] (s : Setting) (current : Nat) (run : Run σ) : Except Fault Verdict :=
  (run.pool.verifyUnder (s.graph.name current) run.assignment.hypothesis).1

/-- What the answer of the next round amounts to. -/
def verdict [Session σ] (s : Setting) (current : Nat) (run : Run σ) : Classified :=
  (run.judge s (run.answer s current)).1

/-- Outside a flush a verdict has to make progress. -/
theorem judge_fst (s : Setting) (run : Run σ) (answer : Except Fault Verdict) :
    (run.judge s answer).1 =
      if run.phase = .flushing then (Classified.ofAnswer s.candidates answer).1
      else ((Classified.ofAnswer s.candidates answer).1.requireProgress run.assignment).1 := by
  simp only [judge]
  split <;> rfl

/-- The state in which the next round reacts to its verdict: the outcome is
    entered, the round is counted and the session has answered. -/
def recorded [Session σ] (s : Setting) (current : Nat) (run : Run σ) : Run σ :=
  { run with
    ledger := run.ledger.record (s.graph.name current) (run.verdict s current).outcome
      (run.verdict s current).genuine
    iterations := run.iterations + 1
    pool := (run.pool.verifyUnder (s.graph.name current) run.assignment.hypothesis).2 }

/-- A round records its verdict and reacts to it. -/
theorem step_eq_react [Session σ] (s : Setting) (current : Nat) (run : Run σ) :
    (run.step s current).2 = ((run.recorded s current).react s current (run.verdict s current)).2 :=
  rfl

/-- What the refutations of a verdict do. -/
def refinement (s : Setting) (current : Nat) (verdict : Classified) (run : Run σ) : Refinement :=
  .refuteAll s.graph run.blacklist current (.start run.assignment run.worklist) verdict.refuted

/-- The state after the refutations of a verdict. -/
def refined (s : Setting) (current : Nat) (verdict : Classified) (run : Run σ) : Run σ :=
  { run with
    assignment := (run.refinement s current verdict).assignment
    worklist := (run.refinement s current verdict).worklist
    ledger := run.ledger.refuted (s.graph.name current) verdict.refuted }

/-- The events that may tell of a reaction to a verdict, and the states that it leads to. -/
inductive Response (s : Setting) (current : Nat) (verdict : Classified) (run : Run σ) :
    List Event → Run σ → Prop
  /-- In a flush, and after an outcome that asks for nothing, the implementation leaves. -/
  | leave (quiet : run.phase = .flushing ∨
      verdict.outcome ≠ .errors ∧ verdict.outcome ≠ .timedOut) :
      Response s current verdict run [.dequeue (s.graph.name current)] (run.leave s current).2
  /-- After a timeout the implementation leaves and never comes back. -/
  | timeout (active : run.phase ≠ .flushing) (outcome : verdict.outcome = .timedOut) :
      Response s current verdict run [.dequeue (s.graph.name current)]
        (Run.leave s current { run with blacklist := run.blacklist.insert current }).2
  /-- A genuine violation starts the flush, unless the run is to go on. -/
  | flush (active : run.phase ≠ .flushing) (outcome : verdict.outcome = .errors)
      (genuine : verdict.hasGenuine = true) (stop : s.config.continueAtError = false) :
      Response s current verdict run [.dequeue (s.graph.name current), .flushBegin]
        (run.flush s current).2
  /-- Where a candidate fell and no violation is genuine the implementation stays. -/
  | stay (active : run.phase ≠ .flushing) (outcome : verdict.outcome = .errors)
      (fell : (run.refinement s current verdict).fell ≠ [])
      (refuted : verdict.hasGenuine = false) :
      Response s current verdict run (run.refinement s current verdict).events
        ((run.refined s current verdict).stay s)
  /-- Otherwise the implementation leaves after the refutations. -/
  | settle (active : run.phase ≠ .flushing) (outcome : verdict.outcome = .errors)
      (rest : (run.refinement s current verdict).fell = [] ∨ verdict.hasGenuine = true) :
      Response s current verdict run
        ((run.refinement s current verdict).events ++ [.dequeue (s.graph.name current)])
        ((run.refined s current verdict).leave s current).2

/-- A reaction to a verdict can lead to the state `next`, whatever events tell of it. -/
def Reaction (s : Setting) (current : Nat) (verdict : Classified) (run next : Run σ) : Prop :=
  ∃ told, Response s current verdict run told next

/-- How `react` answers a verdict, case by case. -/
theorem react_responds (s : Setting) (current : Nat) (verdict : Classified) (run : Run σ) :
    Response s current verdict run (run.react s current verdict).1
      (run.react s current verdict).2 := by
  unfold react
  split
  · rename_i flushing
    exact .leave (.inl flushing)
  · rename_i active
    split
    · rename_i outcome
      split
      · rename_i violated
        simp only [Bool.and_eq_true, Bool.not_eq_true'] at violated
        exact .flush active outcome violated.1 violated.2
      · simp only [refine]
        split
        · rename_i kept
          simp only [Bool.and_eq_true, Bool.not_eq_true', List.isEmpty_eq_false_iff] at kept
          exact .stay active outcome kept.1 kept.2
        · rename_i left
          refine .settle active outcome ?_
          simp only [Bool.and_eq_true, Bool.not_eq_true', List.isEmpty_eq_false_iff, not_and,
            Bool.not_eq_false] at left
          by_cases fell : (run.refinement s current verdict).fell = []
          · exact .inl fell
          · exact .inr (left fell)
    · rename_i outcome
      exact .timeout active outcome
    · rename_i noErrors noTimeout
      exact .leave (.inr ⟨noErrors, noTimeout⟩)

theorem react_cases (s : Setting) (current : Nat) (verdict : Classified) (run : Run σ) :
    Reaction s current verdict run (run.react s current verdict).2 :=
  ⟨_, react_responds s current verdict run⟩

/-- A round reacts to its verdict in the recorded state. -/
theorem step_cases [Session σ] (s : Setting) (current : Nat) (run : Run σ) :
    Reaction s current (run.verdict s current) (run.recorded s current) (run.step s current).2 := by
  rw [step_eq_react]
  exact react_cases s current _ _

/-- A reaction changes neither the number of rounds nor the sessions. -/
theorem Reaction.frame {s : Setting} {current : Nat} {verdict : Classified} {run next : Run σ}
    (reaction : Reaction s current verdict run next) :
    next.iterations = run.iterations ∧ next.pool = run.pool := by
  obtain ⟨_, response⟩ := reaction
  cases response with
  | stay =>
    unfold Run.stay
    split <;> exact ⟨rfl, rfl⟩
  | _ => exact ⟨rfl, rfl⟩

theorem step_iterations [Session σ] (s : Setting) (current : Nat) (run : Run σ) :
    (run.step s current).2.iterations = run.iterations + 1 :=
  (step_cases s current run).frame.1

/-- A round changes the sessions by one verification. -/
theorem step_pool [Session σ] (s : Setting) (current : Nat) (run : Run σ) :
    (run.step s current).2.pool =
      (run.pool.verifyUnder (s.graph.name current) run.assignment.hypothesis).2 :=
  (step_cases s current run).frame.2

theorem Rounds.iterations [Session σ] {s : Setting} {n : Nat} {run last : Run σ}
    (rounds : Rounds s n run last) : last.iterations = run.iterations + n := by
  induction rounds with
  | done run => rfl
  | round head _ ih =>
    rw [ih, step_iterations]
    omega

end Run

end InvariantInference
