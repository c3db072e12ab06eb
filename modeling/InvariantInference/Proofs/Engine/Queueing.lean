import Mathlib
import InvariantInference.Proofs.Engine.Log
import InvariantInference.Proofs.Model.Walk
import InvariantInference.Session.Replay

/-!
# What a round queues

The refutations of a round are gone through one after the other, and each may queue
implementations that a later one then finds in the worklist. What is queued in the
end, and in which order, can still be read off the state before the round: the
implementations that refutations of true candidates concern, each where it first
occurs, without those that were queued or blacklisted already.
-/

namespace InvariantInference

/-! ## Refutations -/

namespace Refinement

variable {g : CallGraph} {b : Blacklist} {current : Nat} {a : Assignment} {w : Worklist}
  {refuted : List Refutation} {s : Refinement} {r : Refutation}

/-- The implementations that a refutation on `current` concerns. -/
def targets (g : CallGraph) (current : Nat) (r : Refutation) : List Nat :=
  match r.annotation with
  | .requires _ callee => (g.successors current).filter (g.realizes callee)
  | .ensures _ => g.predecessors current
  | .assert _ => []

/-- What all refutations of true candidates concern, in order and with repeats. -/
def concerned (g : CallGraph) (current : Nat) (a : Assignment) (refuted : List Refutation) :
    List Nat :=
  (refuted.filter fun r => a.get? r.constant = some true).flatMap (targets g current)

/-- What of it is neither queued nor blacklisted, each implementation once. -/
def listed (g : CallGraph) (b : Blacklist) (current : Nat) (a : Assignment) (w : Worklist)
    (refuted : List Refutation) : List Nat :=
  ((concerned g current a refuted).filter fun id => id ∉ w.ids ∧ id ∉ b.ids).eraseDups

theorem targets_eq_affected (g : CallGraph) (current : Nat) (r : Refutation) :
    targets g current r = g.affected current r.annotation := by
  unfold targets CallGraph.affected
  cases r.annotation <;> rfl

theorem concerned_concat_of_true (true : a.get? r.constant = some true) :
    concerned g current a (refuted ++ [r]) =
      concerned g current a refuted ++ targets g current r := by
  simp [concerned, true]

theorem concerned_concat_of_ne (other : a.get? r.constant ≠ some true) :
    concerned g current a (refuted ++ [r]) = concerned g current a refuted := by
  simp [concerned, other]

/-- A refutation counts if its candidate was true before the round: either it makes the
    candidate fall, or an earlier one has. -/
theorem Progress.newcomers (progress : Progress g b current a w refuted s)
    (active : a.frozen = false) :
    newcomers g b current s r =
      if a.get? r.constant = some true then
        ((targets g current r).filter (s.worklist.admits b)).eraseDups
      else [] := by
  have fell : r.constant ∈ (Refinement.refute g b current s r).fell ↔
      a.get? r.constant = some true := by
    rw [(progress.refute r).fell, mem_constants_concat, Assignment.canFall_iff]
    simp [active]
  rw [Refinement.newcomers, Worklist.enqueueAll_eq, targets_eq_affected]
  simp only [fell]

/-- One more refutation adds its part at the end, given that those before it did. -/
theorem listed_concat (progress : Progress g b current a w refuted s) (active : a.frozen = false)
    (ids : s.worklist.ids = w.ids ++ listed g b current a w refuted) :
    listed g b current a w (refuted ++ [r]) =
      listed g b current a w refuted ++ Refinement.newcomers g b current s r := by
  rw [progress.newcomers active]
  by_cases true : a.get? r.constant = some true
  · rw [if_pos true, listed, listed, concerned_concat_of_true true, List.filter_append,
      List.eraseDups_append, List.removeAll, List.filter_filter]
    congr 2
    apply List.filter_congr
    intro id _
    rw [Bool.eq_iff_iff, Worklist.admits_iff, ids, List.mem_append, listed, List.mem_eraseDups,
      Bool.and_eq_true, Bool.not_eq_true', List.elem_eq_contains, List.contains_eq_mem,
      decide_eq_false_iff_not, decide_eq_true_eq]
    tauto
  · rw [if_neg true, List.append_nil, listed, listed, concerned_concat_of_ne true]

/-- All refutations of a round together queue what is listed, and tell so. -/
theorem listed_refuteAll (active : a.frozen = false) (refuted : List Refutation) :
    (refuteAll g b current (start a w) refuted).worklist.ids =
        w.ids ++ listed g b current a w refuted ∧
      (refuteAll g b current (start a w) refuted).events.filterMap Event.enqueued? =
        (listed g b current a w refuted).map g.name := by
  induction refuted using List.reverseRecOn with
  | nil => simp [refuteAll, start, listed, concerned]
  | append_singleton refuted r ih =>
    obtain ⟨ids, events⟩ := ih
    have last : refuteAll g b current (start a w) (refuted ++ [r]) =
        refute g b current (refuteAll g b current (start a w) refuted) r := by
      simp [refuteAll]
    have listed := listed_concat (r := r) (progress_refuteAll a w refuted) active ids
    rw [last, listed]
    constructor
    · rw [(ids_refute _ r).1, ids, List.append_assoc]
    · rw [events_refute, List.filterMap_append, events, enqueued?_news, List.map_append]

/-- Something falls iff a refutation counts. -/
theorem fell_refuteAll_ne_nil_iff (active : a.frozen = false) :
    (refuteAll g b current (start a w) refuted).fell ≠ [] ↔
      ∃ r ∈ refuted, a.get? r.constant = some true := by
  have fell := (@progress_refuteAll g b current a w refuted).fell
  constructor
  · intro some
    obtain ⟨name, member⟩ := List.exists_mem_of_ne_nil _ some
    obtain ⟨named, falls⟩ := (fell name).mp member
    obtain ⟨r, refuted, rfl⟩ := List.mem_map.mp named
    exact ⟨r, refuted, (Assignment.canFall_iff.mp falls).2⟩
  · rintro ⟨r, refuted, true⟩
    apply List.ne_nil_of_mem (a := r.constant)
    exact (fell _).mpr ⟨List.mem_map_of_mem refuted, Assignment.canFall_iff.mpr ⟨active, true⟩⟩

end Refinement

/-! ## Rounds -/

namespace Run

variable {σ : Type} {s : Setting} {verdict : Classified} {run : Run σ}

/-- The verdict has errors, and they start no flush. -/
def Handled (s : Setting) (verdict : Classified) : Prop :=
  verdict.outcome = .errors ∧ (verdict.hasGenuine → s.config.continueAtError)

instance (s : Setting) (verdict : Classified) : Decidable (Handled s verdict) :=
  inferInstanceAs (Decidable (_ ∧ _))

/-- What a round on `current` queues for a verdict. -/
def listed (s : Setting) (current : Nat) (verdict : Classified) (run : Run σ) : List Nat :=
  Refinement.listed s.graph run.blacklist current run.assignment run.worklist verdict.refuted

/-- A true candidate is refuted and no violation is genuine, so `current` is verified again. -/
def Again (verdict : Classified) (run : Run σ) : Prop :=
  (∃ r ∈ verdict.refuted, run.assignment.get? r.constant = some true) ∧ ¬ verdict.hasGenuine

instance (verdict : Classified) (run : Run σ) : Decidable (run.Again verdict) :=
  inferInstanceAs (Decidable (_ ∧ _))

/-- How a verdict that is handled changes the worklist: what is listed is queued and told of,
    and then `current` leaves or is kept as the schedule says. -/
structure Propagates (s : Setting) (current : Nat) (verdict : Classified) (run : Run σ)
    (told : List Event) (next : Run σ) : Prop where
  enqueued : told.filterMap Event.enqueued? = (run.listed s current verdict).map s.graph.name
  leaves : ¬ run.Again verdict →
    next.worklist = Worklist.dequeue ⟨run.worklist.ids ++ run.listed s current verdict⟩
  spins : run.Again verdict → s.config.schedule = .spin →
    next.worklist = ⟨run.worklist.ids ++ run.listed s current verdict⟩
  rotates : run.Again verdict → s.config.schedule = .roundRobin →
    next.worklist = Worklist.rotate ⟨run.worklist.ids ++ run.listed s current verdict⟩

/-- How any other verdict does: only the head leaves, and no candidate falls. -/
structure PassesBy (run : Run σ) (told : List Event) (next : Run σ) : Prop where
  enqueued : told.filterMap Event.enqueued? = []
  worklist : next.worklist = run.worklist.dequeue
  assignment : next.assignment =
    if next.phase = .flushing then run.assignment.freeze else run.assignment

/-- What a verdict does to the worklist, and the events that tell of it. -/
structure QueuesExactly (s : Setting) (current : Nat) (verdict : Classified) (run : Run σ)
    (told : List Event) (next : Run σ) : Prop where
  handled : Handled s verdict → Propagates s current verdict run told next
  passed : ¬ Handled s verdict → PassesBy run told next

theorem react_of_handled (current : Nat) (active : run.phase ≠ .flushing)
    (handled : Handled s verdict) : run.react s current verdict = run.refine s current verdict := by
  obtain ⟨errors, continues⟩ := handled
  have noFlush : ¬ (verdict.hasGenuine && !s.config.continueAtError) := by simpa using continues
  rw [react, if_neg active, errors]
  exact if_neg noFlush

theorem propagates_refine (s : Setting) (current : Nat) (verdict : Classified)
    (unfrozen : run.assignment.frozen = false) :
    Propagates s current verdict run (run.refine s current verdict).1
      (run.refine s current verdict).2 := by
  obtain ⟨ids, events⟩ := @Refinement.listed_refuteAll s.graph run.blacklist current
    run.assignment run.worklist unfrozen verdict.refuted
  have refined : (run.refined s current verdict).worklist =
      ⟨run.worklist.ids ++ run.listed s current verdict⟩ := congrArg Worklist.mk ids
  have again : (!(run.refinement s current verdict).fell.isEmpty && !verdict.hasGenuine) = true ↔
      run.Again verdict := by
    rw [Bool.and_eq_true, Bool.not_eq_true', List.isEmpty_eq_false_iff, refinement,
      Refinement.fell_refuteAll_ne_nil_iff unfrozen, Again]
    simp
  by_cases stays : run.Again verdict
  · have kept : run.refine s current verdict =
        ((run.refinement s current verdict).events, (run.refined s current verdict).stay s) :=
      if_pos (again.mpr stays)
    rw [kept]
    refine ⟨events, fun leaves => absurd stays leaves, fun _ spin => ?_, fun _ robin => ?_⟩
    · rw [stay, spin]
      exact refined
    · rw [stay, robin]
      exact congrArg Worklist.rotate refined
  · have left : run.refine s current verdict =
        ((run.refinement s current verdict).events ++ [.dequeue (s.graph.name current)],
          ((run.refined s current verdict).leave s current).2) :=
      if_neg (fun kept => stays (again.mp kept))
    rw [left]
    refine ⟨?_, fun _ => congrArg Worklist.dequeue refined, fun again => absurd again stays,
      fun again => absurd again stays⟩
    rw [List.filterMap_append]
    exact (List.append_nil _).trans events

theorem passesBy_react (current : Nat) (active : run.phase ≠ .flushing)
    (other : ¬ Handled s verdict) :
    PassesBy run (run.react s current verdict).1 (run.react s current verdict).2 := by
  have leaving : run.nextPhase ≠ .flushing := by
    intro flushing
    exact active (nextPhase_eq_flushing.mp flushing)
  rw [react, if_neg active]
  cases outcome : verdict.outcome with
  | errors =>
    -- Errors that are not handled are those that start the flush.
    have stop : (verdict.hasGenuine && !s.config.continueAtError) = true := by
      by_contra continues
      exact other ⟨outcome, by simpa using continues⟩
    simp only [stop, if_true]
    exact ⟨rfl, rfl, (if_pos rfl).symm⟩
  | _ => exact ⟨rfl, rfl, (if_neg leaving).symm⟩

theorem queuesExactly_react (s : Setting) (current : Nat) (verdict : Classified) (run : Run σ)
    (active : run.phase ≠ .flushing) (unfrozen : run.assignment.frozen = false) :
    QueuesExactly s current verdict run (run.react s current verdict).1
      (run.react s current verdict).2 := by
  refine ⟨fun handled => ?_, passesBy_react current active⟩
  rw [react_of_handled current active handled]
  exact propagates_refine s current verdict unfrozen

variable [Session σ]

/-- A round queues as it reacts: what it tells and records before is not about the worklist. -/
theorem queuesExactly_step (s : Setting) (current : Nat) (run : Run σ)
    (active : run.phase ≠ .flushing) (unfrozen : run.assignment.frozen = false) :
    QueuesExactly s current (run.verdict s current) run (run.step s current).1
      (run.step s current).2 := by
  have told : (run.step s current).1.filterMap Event.enqueued? =
      ((run.recorded s current).react s current (run.verdict s current)).1.filterMap
        Event.enqueued? := by
    rw [step_fst, List.filterMap_append, enqueued?_report, List.nil_append]
  have reacts := queuesExactly_react s current (run.verdict s current) (run.recorded s current)
    active unfrozen
  refine ⟨fun handled => ?_, fun other => ?_⟩
  · obtain ⟨enqueued, leaves, spins, rotates⟩ := reacts.handled handled
    exact ⟨told.trans enqueued, leaves, spins, rotates⟩
  · obtain ⟨enqueued, worklist, assignment⟩ := reacts.passed other
    exact ⟨told.trans enqueued, worklist, assignment⟩

/-- What is queued is exact in every state of a run up to its flush, whatever the verdict: the
    worklist grows by what is listed if the verdict is handled, and does not grow otherwise. It
    is exact for the round on `current` in particular, with the verdict of its session. -/
theorem propagation_exact {program : Program} (built : CallGraph.build program = .ok s.graph)
    {pool : SessionPool σ} {n : Nat} (rounds : Rounds s n (start s pool) run)
    (active : run.phase ≠ .flushing) (current : Nat) :
    (∀ verdict, QueuesExactly s current verdict run (run.react s current verdict).1
      (run.react s current verdict).2) ∧
      QueuesExactly s current (run.verdict s current) run (run.step s current).1
        (run.step s current).2 := by
  have unfrozen := (rounds.orderly built).unfrozen active
  constructor
  · intro verdict
    exact queuesExactly_react s current verdict run active unfrozen
  · exact queuesExactly_step s current run active unfrozen

end Run

namespace Engine

/-- Replies for the guarded call: the callee violates two postconditions that `Q` guards. -/
def repeatedReplies : Dictionary (List Replay.Reply) :=
  let violated (candidate text : String) : Counterexample :=
    ⟨.postcondition, .guarded candidate text, .none, []⟩
  .ofList
    [("Callee", [⟨⟨.errors, [violated "Q" "r > 0", violated "Q" "r > 1"]⟩, none, none, none⟩])]

/-- The guarded call with these replies. -/
def repeatedCall : Engine Replay.Session :=
  (setUp Program.guardedCall (Replay.oracle repeatedReplies none)).toOption.get rfl

/-- The state after the caller has left. -/
def repeatedRun : Run Replay.Session :=
  let s := repeatedCall.setting .standard
  ((Run.start s repeatedCall.pool).step s 0).2

/-- When `Q` falls its caller is queued again, once, although `Q` is refuted twice. -/
theorem propagation_exact_guardedCall :
    let s := repeatedCall.setting .standard
    (repeatedRun.verdict s 1).refuted.map (·.constant) = ["Q", "Q"] ∧
      repeatedRun.worklist = ⟨[1]⟩ ∧ repeatedRun.listed s 1 (repeatedRun.verdict s 1) = [0] ∧
      (repeatedRun.step s 1).1.filterMap Event.enqueued? = ["Caller"] ∧
      (repeatedRun.step s 1).2.worklist = ⟨[1, 0]⟩ := by
  intro s
  have rounds : Run.Rounds s 1 (Run.start s repeatedCall.pool) repeatedRun :=
    .round (by decide +kernel) (.done _)
  have listed : repeatedRun.listed s 1 (repeatedRun.verdict s 1) = [0] := by decide +kernel
  have handled : Run.Handled s (repeatedRun.verdict s 1) := by decide +kernel
  have again : repeatedRun.Again (repeatedRun.verdict s 1) := by decide +kernel
  have built : CallGraph.build Program.guardedCall = .ok s.graph := rfl
  obtain ⟨-, exactly⟩ := Run.propagation_exact built rounds (by decide +kernel) 1
  obtain ⟨enqueued, -, spins, -⟩ := exactly.handled handled
  refine ⟨by decide +kernel, by decide +kernel, listed, ?_, ?_⟩
  · rw [enqueued, listed]
    rfl
  · rw [spins again rfl, listed]
    decide +kernel

end Engine

end InvariantInference
