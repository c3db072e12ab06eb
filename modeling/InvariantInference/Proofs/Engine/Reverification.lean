import Mathlib
import InvariantInference.Proofs.Model.Walk
import InvariantInference.Proofs.Engine.Setup
import InvariantInference.Proofs.Engine.History

/-!
# Affected implementations are verified again

When a candidate falls, the implementations that a refutation of it affects are
queued, unless they are blacklisted. From the queue they do not get lost: not by
rotation, not while another implementation is verified again and again, and not
when the run starts to flush.
-/

namespace InvariantInference

namespace Run

variable {σ : Type} [Session σ] {s : Setting} {run : Run σ} {current id : Nat}

/-- A round in which a candidate falls queues all that its refutations affect. -/
theorem step_queues_affected {r : Refutation} (head : run.worklist.peek? = some current)
    (holds : run.assignment.get? r.constant = some true)
    (falls : (run.step s current).2.assignment.get? r.constant = some false)
    (refuted : r ∈ (run.verdict s current).refuted)
    (affected : id ∈ s.graph.affected current r.annotation) (other : id ≠ current)
    (admitted : run.blacklist.contains id = false) :
    id ∈ (run.step s current).2.worklist.ids := by
  -- Frozen values do not change, and values change by refutations only.
  have unchanged : ¬ (run.step s current).2.assignment.get? r.constant =
      run.assignment.get? r.constant := by
    rw [holds, falls]
    simp
  have refined : id ∈
      ((run.recorded s current).refined s current (run.verdict s current)).worklist.ids := by
    have active : run.assignment.frozen = false := by
      by_contra frozen
      apply unchanged
      rcases (step_cases s current run).assignment_cases with same | same | fallen
      · rw [same]
        rfl
      · rw [same]
        rfl
      · rw [fallen, Assignment.get?_disableAll, if_neg (fun changed => frozen changed.2)]
        rfl
    have could : run.assignment.canFall r.constant := by
      simp [Assignment.canFall, Assignment.isTrue, active, holds]
    exact ((round_progress s current run).queued id).mpr (.inr ⟨r, refuted, could, affected, admitted⟩)
  have first : ((run.recorded s current).refined s current
      (run.verdict s current)).worklist.peek? = some current :=
    peek?_refined head _
  have reaction := step_cases s current run
  generalize (run.step s current).2 = next at unchanged reaction ⊢
  obtain ⟨_, response⟩ := reaction
  cases response with
  | leave | timeout | flush => exact absurd rfl unchanged
  | stay => exact mem_stay.mpr refined
  | settle => exact Worklist.mem_dequeue_of_ne first refined other

end Run

namespace Engine

variable {σ : Type} [Session σ]

/-- Whenever a candidate falls in a round, each implementation that a refutation of it in
    this round affects is verified in a later round of the run, unless it is blacklisted
    because it timed out in an earlier one. -/
theorem affected_verified_again {program : Program} {oracle : Oracle σ} {e : Engine σ}
    (prepared : Prepared program oracle e) (config : Config) {run : Run σ} {current target : Nat}
    {i j : Implementation} {r : Refutation}
    (round : Run.RoundOn (e.setting config) (Run.start (e.setting config) e.pool)
      (e.lastRun config) current run)
    (holds : run.assignment.get? r.constant = some true)
    (falls : (run.step (e.setting config) current).2.assignment.get? r.constant = some false)
    (refuted : r ∈ (run.verdict (e.setting config) current).refuted)
    (refuting : program.implementations[current]? = some i)
    (place : program.implementations[target]? = some j) (affects : i.Affects r.annotation j)
    (other : target ≠ current) :
    (∃ later, Run.RoundOn (e.setting config) (run.step (e.setting config) current).2
      (e.lastRun config) target later) ∨
    (run.blacklist.contains target = true ∧ ∃ earlier,
      Run.RoundOn (e.setting config) (Run.start (e.setting config) e.pool) run target earlier ∧
        earlier.phase ≠ .flushing ∧
        (earlier.verdict (e.setting config) target).outcome = .timedOut) := by
  obtain ⟨⟨m, before⟩, head, -⟩ := round
  cases black : run.blacklist.contains target with
  | true =>
    right
    refine ⟨rfl, ?_⟩
    rcases before.timedOut black with initial | timedOut
    · cases initial
    · exact timedOut
  | false =>
    left
    have affected : target ∈ (e.setting config).graph.affected current r.annotation :=
      (CallGraph.mem_affected_iff prepared.build refuting place).mpr affects
    have queued := Run.step_queues_affected head holds falls refuted affected other black
    have same : ((run.step (e.setting config) current).2.finish (e.setting config)).2 =
        e.lastRun config := (before.next head).finish_eq
    obtain ⟨later, found⟩ := Run.exists_roundOn_finish (s := e.setting config) queued
    rw [same] at found
    exact ⟨later, found⟩

/-- In the guarded call the caller refutes `P` in its first round and moves behind the
    callee, which is verified later. -/
theorem affected_verified_again_guardedCall :
    ∃ e, setUp Program.guardedCall (Model.oracle .empty) = .ok e ∧
      ∃ s, s = e.setting ⟨false, .roundRobin, .abnormal⟩ ∧
        ∃ next, next = ((Run.start s e.pool).step s 0).2 ∧
          next.assignment.get? "P" = some false ∧
          ∃ later, Run.RoundOn s next (e.lastRun ⟨false, .roundRobin, .abnormal⟩) 1 later := by
  refine ⟨_, rfl, _, rfl, _, rfl, by cbv, ?_⟩
  have called : Program.guardedImplementation.procedure ∈ Program.guardedCaller.callees := by
    decide
  have prepared : Prepared Program.guardedCall (Model.oracle .empty) _ := .setUp rfl
  refine (affected_verified_again prepared ⟨false, .roundRobin, .abnormal⟩
    (r := ⟨.requires "P" "Callee",
      ⟨.precondition "Callee", .guarded "P" "x > 0", .none, ["entry"]⟩⟩)
    (Run.roundOn_finish rfl) ?_ ?_ ?_ rfl rfl (.callee called rfl)
    (by decide)).resolve_right ?_
  · cbv
  · cbv
  · cbv
    exact .head _
  · rintro ⟨black, -⟩
    cases black

end Engine

end InvariantInference
