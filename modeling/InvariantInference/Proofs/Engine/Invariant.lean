import Mathlib
import InvariantInference.Proofs.Engine.Bound
import InvariantInference.Proofs.Engine.History

/-!
# The states between two rounds

What holds in every state of a run on an accepted program, whatever the sessions
answer: the worklist holds implementations, each once and none of the blacklist,
the assignment is one of the candidates, and it is frozen iff the run flushes.
Inside a round the second of these fails for a moment: a timeout blacklists the
implementation before it leaves the worklist.
-/

namespace InvariantInference

theorem Worklist.notMem_dequeue {bound : Nat} {w : Worklist} {current : Nat}
    (valid : w.Valid bound) (head : w.peek? = some current) : current ∉ w.dequeue.ids := by
  obtain ⟨ids⟩ := w
  have distinct : ids.Nodup := valid.distinct
  cases ids with
  | nil => simp [dequeue]
  | cons first rest =>
    simp only [peek?, List.head?_cons, Option.some.injEq] at head
    subst head
    exact (List.nodup_cons.mp distinct).1

/-- Two implementations have different names. -/
theorem CallGraph.id_eq_of_name_eq {program : Program} {g : CallGraph}
    (built : build program = .ok g) {u v : Nat} (first : u < g.size) (second : v < g.size)
    (same : g.name u = g.name v) : u = v := by
  rw [size_of_build built] at first second
  have place := List.getElem?_eq_getElem first
  have place' := List.getElem?_eq_getElem second
  apply place_unique built place place'
  rw [← name_of_build built place, ← name_of_build built place', same]

namespace Run

variable {σ : Type} {s : Setting} {current : Nat} {verdict : Classified} {run next : Run σ}

theorem nextPhase_eq_flushing : run.nextPhase = .flushing ↔ run.phase = .flushing := by
  unfold nextPhase
  cases run.phase <;> simp

theorem stay_phase (s : Setting) (run : Run σ) : (run.stay s).phase ≠ .flushing := by
  unfold stay
  split <;> simp

/-- What holds between two rounds. -/
structure Orderly (s : Setting) (run : Run σ) : Prop where
  valid : run.worklist.Valid s.graph.size
  admitted : ∀ id ∈ run.worklist.ids, run.blacklist.contains id = false
  names : run.assignment.entries.map (·.1) = s.candidates.names
  frozen_iff : run.assignment.frozen = true ↔ run.phase = .flushing

theorem Orderly.unfrozen (orderly : run.Orderly s) (active : run.phase ≠ .flushing) :
    run.assignment.frozen = false := by
  by_contra frozen
  rw [Bool.not_eq_false] at frozen
  exact active (orderly.frozen_iff.mp frozen)

theorem Orderly.name_notMem {program : Program} {id : Nat} (orderly : run.Orderly s)
    (built : CallGraph.build program = .ok s.graph) (below : id < s.graph.size)
    (absent : id ∉ run.worklist.ids) : s.graph.name id ∉ run.worklist.ids.map s.graph.name := by
  intro member
  obtain ⟨other, queued, same⟩ := List.mem_map.mp member
  have equal := CallGraph.id_eq_of_name_eq built (orderly.valid.bounded other queued) below same
  exact absent (equal ▸ queued)

theorem orderly_start (s : Setting) (pool : SessionPool σ) : (start s pool).Orderly s where
  valid := Worklist.valid_ofList fun _ member => List.mem_range.mp member
  admitted _ _ := rfl
  names := by simp [start, Assignment.allTrue, Function.comp_def]
  frozen_iff := by simp [start, Assignment.allTrue]

theorem valid_refined {program : Program} (built : CallGraph.build program = .ok s.graph)
    (valid : run.worklist.Valid s.graph.size) (current : Nat) (verdict : Classified) :
    (run.refined s current verdict).worklist.Valid s.graph.size :=
  Refinement.valid_refuteAll valid (fun _ _ => CallGraph.lt_size_of_mem_affected built) _

/-- The refutations of a round queue nothing that is blacklisted. -/
theorem Orderly.admitted_refined (orderly : run.Orderly s) (current : Nat)
    (verdict : Classified) :
    ∀ id ∈ (run.refined s current verdict).worklist.ids, run.blacklist.contains id = false := by
  intro id member
  rcases ((progress_refinement s current verdict run).queued id).mp member with
    queued | ⟨_, _, _, _, admitted⟩
  · exact orderly.admitted id queued
  · exact admitted

theorem Reaction.admitted (reaction : Reaction s current verdict run next)
    (orderly : run.Orderly s) (head : run.worklist.peek? = some current) :
    ∀ id ∈ next.worklist.ids, next.blacklist.contains id = false := by
  have refined := orderly.admitted_refined current verdict
  intro id member
  obtain ⟨_, response⟩ := reaction
  cases response with
  | leave | flush => exact orderly.admitted id (List.mem_of_mem_tail member)
  | timeout active outcome =>
    by_contra black
    rw [Bool.not_eq_false] at black
    -- The blacklist grows by the head, which leaves the worklist in the same step.
    rcases Blacklist.contains_insert.mp black with rfl | known
    · exact Worklist.notMem_dequeue orderly.valid head member
    · rw [orderly.admitted id (List.mem_of_mem_tail member)] at known
      cases known
  | stay =>
    rw [stay_blacklist]
    exact refined id (mem_stay.mp member)
  | settle => exact refined id (List.mem_of_mem_tail member)

theorem Reaction.frozen_iff (reaction : Reaction s current verdict run next)
    (orderly : run.Orderly s) : next.assignment.frozen = true ↔ next.phase = .flushing := by
  have refined : (run.refined s current verdict).assignment.frozen = run.assignment.frozen := by
    rw [assignment_refined, Assignment.frozen_disableAll]
  obtain ⟨_, response⟩ := reaction
  cases response with
  | leave | timeout => exact orderly.frozen_iff.trans nextPhase_eq_flushing.symm
  | flush => exact ⟨fun _ => rfl, fun _ => rfl⟩
  | stay active =>
    rw [stay_assignment, refined, orderly.unfrozen active]
    exact ⟨nofun, fun flushing => absurd flushing (stay_phase s _)⟩
  | settle active => exact (refined ▸ orderly.frozen_iff).trans nextPhase_eq_flushing.symm

/-- A reaction that starts between two rounds ends between two rounds. -/
theorem Reaction.orderly {program : Program} (reaction : Reaction s current verdict run next)
    (built : CallGraph.build program = .ok s.graph) (orderly : run.Orderly s)
    (head : run.worklist.peek? = some current) : next.Orderly s where
  valid := (reaction.budget_lt head orderly.valid
    fun _ _ => CallGraph.lt_size_of_mem_affected built).1
  admitted := reaction.admitted orderly head
  names := by
    rcases reaction.assignment_cases with same | frozen | fallen
    · rw [same]
      exact orderly.names
    · rw [frozen]
      exact orderly.names
    · rw [fallen, Assignment.names_disableAll]
      exact orderly.names
  frozen_iff := reaction.frozen_iff orderly

variable [Session σ]

theorem Orderly.recorded (orderly : run.Orderly s) (current : Nat) :
    (run.recorded s current).Orderly s :=
  ⟨orderly.valid, orderly.admitted, orderly.names, orderly.frozen_iff⟩

theorem Orderly.step {program : Program} (built : CallGraph.build program = .ok s.graph)
    (orderly : run.Orderly s) (head : run.worklist.peek? = some current) :
    (run.step s current).2.Orderly s :=
  (step_cases s current run).orderly built (orderly.recorded current) head

/-- Every state of a run is orderly, whatever its sessions have answered before. -/
theorem Rounds.orderly {program : Program} (built : CallGraph.build program = .ok s.graph)
    {pool : SessionPool σ} {n : Nat} (rounds : Rounds s n (start s pool) run) : run.Orderly s :=
  rounds.preserves (fun _ _ head orderly => orderly.step built head) (orderly_start s pool)

end Run

/-- Every state of a run on an accepted program is orderly. -/
theorem Engine.Prepared.orderly {σ : Type} [Session σ] {program : Program} {oracle : Oracle σ}
    {e : Engine σ} (prepared : Prepared program oracle e) {config : Config} {n : Nat}
    {run : Run σ}
    (rounds : Run.Rounds (e.setting config) n (Run.start (e.setting config) e.pool) run) :
    run.Orderly (e.setting config) :=
  rounds.orderly prepared.build

end InvariantInference
