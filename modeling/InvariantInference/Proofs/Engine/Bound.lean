import Mathlib
import InvariantInference.Proofs.Engine.Refinement
import InvariantInference.Proofs.Engine.Setup
import InvariantInference.Proofs.Model.Walk
import InvariantInference.Session.Replay

/-!
# How many rounds a run can have

The budget of a run is the number of its true candidates times the number of
implementations, plus the length of its worklist. Whatever a session answers, a
round costs at least one: it shortens the worklist and lets no candidate fall,
or a candidate falls and the worklist, which holds every implementation at most
once, cannot grow by more than that candidate was worth.
-/

namespace InvariantInference

namespace Run

variable {σ : Type}

/-- A bound on the number of rounds to come, for so many implementations. -/
def budget (n : Nat) (run : Run σ) : Nat :=
  run.assignment.countTrue * n + run.worklist.ids.length

/-- Where the worklist is valid, a candidate that falls pays for every queue. -/
private theorem budget_lt_of_countTrue_lt {n : Nat} {run next : Run σ} {current : Nat}
    (head : run.worklist.peek? = some current) (valid : next.worklist.Valid n)
    (fewer : next.assignment.countTrue < run.assignment.countTrue) :
    next.budget n < run.budget n := by
  have queued : 0 < run.worklist.ids.length :=
    List.length_pos_of_mem (Worklist.mem_of_peek? head)
  have short := valid.length_le
  have paid : (next.assignment.countTrue + 1) * n ≤ run.assignment.countTrue * n :=
    Nat.mul_le_mul_right n fewer
  unfold budget
  rw [Nat.add_mul, Nat.one_mul] at paid
  omega

/-- Without its head a worklist is worth one less. -/
private theorem budget_lt_of_dequeue {n : Nat} {run next : Run σ} {current : Nat}
    (head : run.worklist.peek? = some current)
    (values : next.assignment.countTrue = run.assignment.countTrue)
    (queue : next.worklist = run.worklist.dequeue) : next.budget n < run.budget n := by
  have queued : 0 < run.worklist.ids.length :=
    List.length_pos_of_mem (Worklist.mem_of_peek? head)
  have shorter : run.worklist.dequeue.ids.length = run.worklist.ids.length - 1 :=
    List.length_tail
  unfold budget
  rw [values, queue, shorter]
  omega

/-- Every reaction keeps the worklist valid and costs at least one. -/
theorem Reaction.budget_lt {n : Nat} {s : Setting} {current : Nat} {verdict : Classified}
    {run next : Run σ} (reaction : Reaction s current verdict run next)
    (head : run.worklist.peek? = some current) (valid : run.worklist.Valid n)
    (bounded : ∀ (a : Annotation), ∀ id ∈ s.graph.affected current a, id < n) :
    next.worklist.Valid n ∧ next.budget n < run.budget n := by
  have refinedValid : (run.refined s current verdict).worklist.Valid n :=
    Refinement.valid_refuteAll valid bounded verdict.refuted
  have progress := Refinement.refuteAll_progress s.graph run.blacklist current verdict.refuted
    run.assignment run.worklist
  obtain ⟨_, response⟩ := reaction
  cases response with
  | leave quiet => exact ⟨valid.dequeue, budget_lt_of_dequeue head rfl rfl⟩
  | timeout active outcome => exact ⟨valid.dequeue, budget_lt_of_dequeue head rfl rfl⟩
  | flush active outcome genuine stop => exact ⟨valid.dequeue, budget_lt_of_dequeue head rfl rfl⟩
  | stay active outcome fell refuted =>
    rw [if_neg (by exact fell)] at progress
    unfold Run.stay
    split
    · exact ⟨refinedValid, budget_lt_of_countTrue_lt head refinedValid progress⟩
    · exact ⟨refinedValid.rotate, budget_lt_of_countTrue_lt head refinedValid.rotate progress⟩
  | settle active outcome rest =>
    refine ⟨refinedValid.dequeue, ?_⟩
    by_cases fell : (run.refinement s current verdict).fell = []
    · rw [if_pos (by exact fell)] at progress
      refine budget_lt_of_dequeue head (congrArg Assignment.countTrue progress.1) ?_
      exact congrArg Worklist.dequeue progress.2
    · rw [if_neg (by exact fell)] at progress
      exact budget_lt_of_countTrue_lt head refinedValid.dequeue progress

/-- A sequence of rounds costs at least its length. -/
theorem Rounds.budget_le [Session σ] {s : Setting} {m n : Nat} {run last : Run σ}
    (rounds : Rounds s m run last) (valid : run.worklist.Valid n)
    (bounded : ∀ (current : Nat) (a : Annotation), ∀ id ∈ s.graph.affected current a, id < n) :
    m + last.budget n ≤ run.budget n := by
  induction rounds with
  | done run => simp
  | @round m run last current head rest ih =>
    have one := (step_cases s current run).budget_lt (n := n) head valid (bounded current)
    have less : (run.step s current).2.budget n < run.budget n := one.2
    have later := ih one.1
    omega

end Run

namespace Engine

variable {σ : Type} [Session σ]

omit [Session σ] in
/-- At the start all candidates are true and all implementations are queued. -/
theorem budget_start (e : Engine σ) (config : Config) :
    (Run.start (e.setting config) e.pool).worklist.Valid e.graph.size ∧
      (Run.start (e.setting config) e.pool).budget e.graph.size ≤
        e.graph.size * (e.candidates.members.length + 1) := by
  have valid : (Worklist.ofList e.graph.ids).Valid e.graph.size :=
    Worklist.valid_ofList (fun id member => List.mem_range.mp member)
  have allTrue : (Assignment.allTrue e.candidates).countTrue ≤ e.candidates.members.length := by
    have all := List.countP_le_length (p := fun entry : String × Bool => entry.2)
      (l := (Assignment.allTrue e.candidates).entries)
    simpa [Assignment.countTrue, Assignment.allTrue, Candidates.names] using all
  have values := Nat.mul_le_mul_right e.graph.size allTrue
  have short := valid.length_le
  refine ⟨valid, ?_⟩
  rw [Nat.mul_add, Nat.mul_one, Nat.mul_comm e.graph.size]
  exact Nat.add_le_add values short

/-- Whatever the sessions answer, every sequence of rounds of a run on `n`
    implementations with `k` candidates has at most `n * (k + 1)` rounds, so the
    run ends with an empty worklist; and it counts its rounds, those of a flush
    included. -/
theorem infer_iterations_le {program : Program} {oracle : Oracle σ} {e : Engine σ}
    (prepared : Prepared program oracle e) (config : Config) :
    let s := e.setting config
    let n := program.implementations.length
    let k := e.candidates.members.length
    (∀ (m : Nat) (last : Run σ), Run.Rounds s m (Run.start s e.pool) last → m ≤ n * (k + 1)) ∧
      (∃ last : Run σ, Run.Rounds s (e.infer config).1.iterations (Run.start s e.pool) last ∧
        last.worklist.ids = [] ∧ (e.infer config).1 = last.result s) ∧
      (e.infer config).1.iterations ≤ n * (k + 1) ∧ n * (k + 1) ≤ k + n + k * n := by
  intro s n k
  have size : e.graph.size = n := CallGraph.size_of_build prepared.build
  obtain ⟨valid, initial⟩ := e.budget_start config
  rw [size] at valid initial
  have bounded : ∀ (current : Nat) (a : Annotation), ∀ id ∈ s.graph.affected current a, id < n :=
    fun current a id member => size ▸ CallGraph.lt_size_of_mem_affected prepared.build member
  have all : ∀ (m : Nat) (last : Run σ),
      Run.Rounds s m (Run.start s e.pool) last → m ≤ n * (k + 1) := by
    intro m last rounds
    have cost := rounds.budget_le valid bounded
    exact (Nat.le_of_add_right_le cost).trans initial
  obtain ⟨m, rounds, empty⟩ := Run.finish_rounds s (Run.start s e.pool)
  have counted : (e.infer config).1.iterations = m := by
    have total := rounds.iterations
    rw [show (Run.start s e.pool).iterations = 0 from rfl, Nat.zero_add] at total
    exact total
  refine ⟨all, ⟨_, ?_, empty, rfl⟩, ?_, ?_⟩
  · rw [counted]
    exact rounds
  · rw [counted]
    exact all m _ rounds
  · rw [Nat.mul_add, Nat.mul_one, Nat.mul_comm k n]
    omega

/-- Replies for the guarded call: the caller refutes `P`, then claims errors and names
    none; the callee cannot take a hypothesis. -/
def unhelpfulReplies : Dictionary (List Replay.Reply) := .ofList
  [("Caller",
    [⟨⟨.errors, [⟨.precondition "Callee", .guarded "P" "x > 0", .none, []⟩]⟩, none, none, none⟩,
      ⟨.ofOutcome .errors, none, none, none⟩]),
    ("Callee", [⟨.ofOutcome .correct, some (.session, "full"), none, none⟩])]

/-- With such replies the guarded call, two implementations with two candidates, has
    at most six rounds. -/
theorem infer_iterations_le_guardedCall :
    ∃ e, setUp Program.guardedCall (Replay.oracle unhelpfulReplies none) = .ok e ∧
      (e.infer .standard).1.iterations ≤ 6 := by
  refine ⟨_, rfl, ?_⟩
  have prepared : Prepared Program.guardedCall (Replay.oracle unhelpfulReplies none) _ :=
    .setUp rfl
  exact (infer_iterations_le prepared .standard).2.2.1

end Engine

end InvariantInference
