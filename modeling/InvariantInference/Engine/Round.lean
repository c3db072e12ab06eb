import InvariantInference.CallGraph
import InvariantInference.Event
import InvariantInference.Ledger
import InvariantInference.Session.Pool
import InvariantInference.Worklist

/-!
# Rounds

A run goes by rounds. A round verifies the implementation at the head of the
worklist under the current assignment and reacts to the verdict: candidates
that were refuted fall, the implementations this may affect are queued again,
and the implementation leaves the worklist or is kept for another round.

Every round makes progress: it starts the flush, or lowers the number of true
candidates, or shortens the worklist while keeping that number. This is
`Run.step_closer`.
-/

namespace InvariantInference

/-- What a run is given and never changes. -/
structure Setting where
  candidates : Candidates
  graph : CallGraph
  config : Config
  deriving DecidableEq, Repr

/-- What a run is doing. -/
inductive Phase where
  /-- The head of the worklist is to be selected. -/
  | refining
  /-- The head of the worklist was selected before and is verified again. -/
  | spinning
  /-- All that is left in the worklist is verified once. -/
  | flushing
  deriving DecidableEq, Repr

namespace Phase

/-- How much a phase leaves to be done: a flush is never left again. -/
def rank : Phase → Nat
  | refining => 1
  | spinning => 1
  | flushing => 0

end Phase

/-- The state of a run between two rounds (`RunState`). -/
structure Run (σ : Type) where
  phase : Phase
  assignment : Assignment
  worklist : Worklist
  blacklist : Blacklist
  ledger : Ledger
  /-- The number of rounds so far. -/
  iterations : Nat
  pool : SessionPool σ

/-! ## What a verdict amounts to -/

namespace Classified

/-- The wording for a verdict that claims errors and names none. -/
def noCounterexamples : String := "oracle reported errors without counterexamples"

/-- The wording for a verdict that refutes nothing new. -/
def nothingNew : String := "oracle refuted only candidates that are already disabled"

/-- What the answer of a session amounts to, and what there is to complain about
    (`verify_round`). A fault, and errors without counterexamples, are inconclusive. -/
def ofAnswer (cs : Candidates) : Except Fault Verdict → Classified × List String
  | .error fault => (.ofOutcome .inconclusive, [fault.render])
  | .ok verdict =>
    if verdict.outcome = .errors && verdict.errors.isEmpty then
      (.ofOutcome .inconclusive, [noCounterexamples])
    else
      (.ofVerdict cs verdict, [])

/-- Whether a candidate that is true is refuted. -/
def isFresh (a : Assignment) (c : Classified) : Bool := c.refuted.any (fun r => a.isTrue r.constant)

/-- A verdict with errors that are neither genuine nor new is inconclusive. -/
def requireProgress (a : Assignment) (c : Classified) : Classified × List String :=
  if c.outcome = .errors && !c.hasGenuine && !c.isFresh a then
    ({ c with outcome := .inconclusive, refuted := [] }, [nothingNew])
  else
    (c, [])

end Classified

/-! ## Refinement -/

namespace CallGraph

/-- The implementations that the fall of a candidate may affect, seen from the
    implementation that refuted it: with a `requires` the callees, with an `ensures` the
    callers (`propagate`). -/
def affected (g : CallGraph) (current : Nat) : Annotation → List Nat
  | .requires _ callee => (g.successors current).filter (g.realizes callee)
  | .ensures _ => g.predecessors current
  | .assert _ => []

end CallGraph

/-- What the refutations of a round have done so far. -/
structure Refinement where
  assignment : Assignment
  worklist : Worklist
  /-- The candidates that fell in this round. -/
  fell : List String
  events : List Event
  deriving DecidableEq, Repr

namespace Refinement

/-- Before the first refutation. -/
def start (a : Assignment) (w : Worklist) : Refinement := ⟨a, w, [], []⟩

/-- One more refutation. Its candidate falls if it still can; every refutation
    of a candidate that fell in this round queues what it may affect. -/
def refute (g : CallGraph) (b : Blacklist) (current : Nat) (s : Refinement) (r : Refutation) :
    Refinement :=
  let falls := s.assignment.canFall r.constant
  let fell := if falls then s.fell ++ [r.constant] else s.fell
  let (added, worklist) :=
    if fell.contains r.constant then s.worklist.enqueueAll b (g.affected current r.annotation)
    else ([], s.worklist)
  { assignment := s.assignment.disable r.constant
    worklist
    fell
    events := s.events ++ .candidateRefuted (g.name current) r ::
      (if falls then [.candidateDisabled r.constant] else []) ++
        added.map (fun id => .enqueue (g.name id)) }

/-- All refutations of a round, in order. -/
def refuteAll (g : CallGraph) (b : Blacklist) (current : Nat) (s : Refinement)
    (refuted : List Refutation) : Refinement :=
  refuted.foldl (refute g b current) s

/-- If a refutation makes nothing fall then nothing has fallen before, and
    nothing changes. If it does then fewer candidates are true. -/
theorem refute_progress (g : CallGraph) (b : Blacklist) (current : Nat) (s : Refinement)
    (r : Refutation) :
    if (refute g b current s r).fell = [] then
      s.fell = [] ∧ (refute g b current s r).assignment = s.assignment ∧
        (refute g b current s r).worklist = s.worklist
    else
      s.fell ≠ [] ∧ (refute g b current s r).assignment.countTrue ≤ s.assignment.countTrue ∨
        (refute g b current s r).assignment.countTrue < s.assignment.countTrue := by
  by_cases falls : s.assignment.canFall r.constant
  · have fewer := Assignment.countTrue_disable_lt falls
    simp [refute, falls, fewer]
  · have same := Assignment.disable_of_not_canFall falls
    by_cases none : s.fell = []
    · simp [refute, falls, same, none]
    · simp [refute, falls, same, none]

/-- Over a whole round: if nothing has fallen, nothing has changed; otherwise
    fewer candidates are true. -/
theorem refuteAll_progress (g : CallGraph) (b : Blacklist) (current : Nat)
    (refuted : List Refutation) (a : Assignment) (w : Worklist) :
    if (refuteAll g b current (start a w) refuted).fell = [] then
      (refuteAll g b current (start a w) refuted).assignment = a ∧
        (refuteAll g b current (start a w) refuted).worklist = w
    else
      (refuteAll g b current (start a w) refuted).assignment.countTrue < a.countTrue := by
  suffices general : ∀ s : Refinement,
      (if s.fell = [] then s.assignment = a ∧ s.worklist = w
        else s.assignment.countTrue < a.countTrue) →
      if (refuteAll g b current s refuted).fell = [] then
        (refuteAll g b current s refuted).assignment = a ∧
          (refuteAll g b current s refuted).worklist = w
      else
        (refuteAll g b current s refuted).assignment.countTrue < a.countTrue by
    exact general _ (by simp [start])
  induction refuted with
  | nil => exact fun s before => before
  | cons r rest ih =>
    intro s before
    refine ih (refute g b current s r) ?_
    have one := refute_progress g b current s r
    by_cases after : (refute g b current s r).fell = []
    · simp only [after, if_true] at one ⊢
      simp only [one.1, if_true] at before
      exact ⟨one.2.1.trans before.1, one.2.2.trans before.2⟩
    · simp only [after, if_false] at one ⊢
      by_cases fellBefore : s.fell = []
      · simp only [fellBefore, if_true] at before
        simp only [fellBefore, ne_eq, not_true_eq_false, false_and, false_or, before.1] at one
        exact one
      · simp only [fellBefore, if_false] at before
        omega

end Refinement

/-! ## One round -/

namespace Run

variable {σ : Type}

/-- The phase after an implementation has left the worklist. -/
def nextPhase (run : Run σ) : Phase :=
  match run.phase with
  | .flushing => .flushing
  | _ => .refining

/-- The implementation leaves the worklist. -/
def leave (s : Setting) (current : Nat) (run : Run σ) : List Event × Run σ :=
  ([.dequeue (s.graph.name current)],
    { run with worklist := run.worklist.dequeue, phase := run.nextPhase })

/-- The implementation leaves the worklist, and what is left there is flushed. -/
def flush (s : Setting) (current : Nat) (run : Run σ) : List Event × Run σ :=
  ([.dequeue (s.graph.name current), .flushBegin],
    { run with
      worklist := run.worklist.dequeue
      assignment := run.assignment.freeze
      phase := .flushing })

/-- The implementation is verified once more, at once or after all others. -/
def stay (s : Setting) (run : Run σ) : Run σ :=
  match s.config.schedule with
  | .spin => { run with phase := .spinning }
  | .roundRobin => { run with worklist := run.worklist.rotate, phase := .refining }

/-- Makes the refuted candidates fall. The implementation is kept if that
    changed anything and no violation is genuine. -/
def refine (s : Setting) (current : Nat) (verdict : Classified) (run : Run σ) :
    List Event × Run σ :=
  let r := Refinement.refuteAll s.graph run.blacklist current
    (.start run.assignment run.worklist) verdict.refuted
  let run := { run with
    assignment := r.assignment
    worklist := r.worklist
    ledger := run.ledger.refuted (s.graph.name current) verdict.refuted }
  if !r.fell.isEmpty && !verdict.hasGenuine then
    (r.events, run.stay s)
  else
    let (events, run) := run.leave s current
    (r.events ++ events, run)

/-- Reacts to a verdict, as `round` does once the outcome is recorded. -/
def react (s : Setting) (current : Nat) (verdict : Classified) (run : Run σ) :
    List Event × Run σ :=
  if run.phase = .flushing then
    run.leave s current
  else
    match verdict.outcome with
    | .errors =>
      if verdict.hasGenuine && !s.config.continueAtError then run.flush s current
      else run.refine s current verdict
    | .timedOut => leave s current { run with blacklist := run.blacklist.insert current }
    | _ => run.leave s current

/-- What a verdict amounts to in the present phase. In a flush nothing can fall
    any more, so nothing new is asked for. -/
def judge (s : Setting) (run : Run σ) (answer : Except Fault Verdict) : Classified × List String :=
  let (verdict, complaints) := Classified.ofAnswer s.candidates answer
  if run.phase = .flushing then
    (verdict, complaints)
  else
    let (verdict, more) := verdict.requireProgress run.assignment
    (verdict, complaints ++ more)

/-- The events before the implementation is verified. -/
def openingEvents (s : Setting) (current : Nat) (run : Run σ) : List Event :=
  .iterationBegin run.iterations ::
    (if run.phase = .spinning then [] else [.implementationSelected (s.graph.name current)]) ++
      [.assignmentSnapshot run.assignment]

/-- One round on the implementation `current`: its events and the state after it. In a flush
    this is one turn of the loop of `flush`, and otherwise `round`. -/
def step [Session σ] (s : Setting) (current : Nat) (run : Run σ) : List Event × Run σ :=
  let name := s.graph.name current
  let (answer, pool) := run.pool.verifyUnder name run.assignment.hypothesis
  let (verdict, complaints) := run.judge s answer
  let (events, next) := react s current verdict { run with
    ledger := run.ledger.record name verdict.outcome verdict.genuine
    iterations := run.iterations + 1
    pool }
  (run.openingEvents s current ++ complaints.map (.exceptionSeen name) ++
    .outcomeRecorded name verdict.outcome :: events, next)

/-! ## Progress -/

/-- The state `next` is closer to the end of the run than `run`. -/
def Closer (next run : Run σ) : Prop :=
  next.phase.rank < run.phase.rank ∨
    next.phase.rank = run.phase.rank ∧
      (next.assignment.countTrue < run.assignment.countTrue ∨
        next.assignment.countTrue = run.assignment.countTrue ∧
          next.worklist.ids.length < run.worklist.ids.length)

/-- Leaving a phase for the next one keeps its rank. -/
theorem rank_nextPhase (run : Run σ) : run.nextPhase.rank = run.phase.rank := by
  unfold nextPhase
  cases run.phase <;> rfl

/-- A queue is shorter without its head. -/
private theorem length_dequeue_lt {w : Worklist} (nonempty : w.ids ≠ []) :
    w.dequeue.ids.length < w.ids.length := by
  have := List.length_pos_iff.mpr nonempty
  simp [Worklist.dequeue]
  omega

/-- Leaving the worklist is progress. -/
theorem leave_closer (s : Setting) (current : Nat) (run : Run σ)
    (nonempty : run.worklist.ids ≠ []) : Closer (run.leave s current).2 run :=
  .inr ⟨rank_nextPhase run, .inr ⟨rfl, length_dequeue_lt nonempty⟩⟩

/-- Refinement is progress. -/
theorem refine_closer (s : Setting) (current : Nat) (verdict : Classified) (run : Run σ)
    (active : run.phase ≠ .flushing) (nonempty : run.worklist.ids ≠ []) :
    Closer (run.refine s current verdict).2 run := by
  have rank : run.phase.rank = 1 := by
    cases phase : run.phase <;> simp_all [Phase.rank]
  have progress := Refinement.refuteAll_progress s.graph run.blacklist current verdict.refuted
    run.assignment run.worklist
  simp only [refine]
  generalize Refinement.refuteAll s.graph run.blacklist current
    (.start run.assignment run.worklist) verdict.refuted = r at progress ⊢
  by_cases fell : r.fell = []
  · simp only [fell, if_true] at progress
    simp only [fell, List.isEmpty_nil, Bool.not_true, Bool.false_and, Bool.false_eq_true, if_false]
    refine .inr ⟨by simp [leave, rank_nextPhase], .inr ⟨by simp [leave, progress.1], ?_⟩⟩
    simpa [leave, progress.2] using length_dequeue_lt nonempty
  · simp only [fell, if_false] at progress
    split
    · unfold stay
      split <;> exact .inr ⟨rank.symm, .inl progress⟩
    · exact .inr ⟨by simp [leave, rank_nextPhase], .inl progress⟩

/-- Reacting to a verdict is progress. -/
theorem react_closer (s : Setting) (current : Nat) (verdict : Classified) (run : Run σ)
    (nonempty : run.worklist.ids ≠ []) : Closer (run.react s current verdict).2 run := by
  unfold react
  split
  · exact leave_closer s current run nonempty
  · rename_i active
    split
    · split
      · refine .inl ?_
        cases phase : run.phase <;> simp_all [flush, Phase.rank]
      · exact refine_closer s current verdict run active nonempty
    · exact leave_closer s current { run with blacklist := run.blacklist.insert current } nonempty
    · exact leave_closer s current run nonempty

/-- Every round is progress. -/
theorem step_closer [Session σ] (s : Setting) (current : Nat) (run : Run σ)
    (nonempty : run.worklist.ids ≠ []) : Closer (run.step s current).2 run :=
  react_closer s current _ { run with
    ledger := _
    iterations := _
    pool := _ } nonempty

end Run

end InvariantInference
