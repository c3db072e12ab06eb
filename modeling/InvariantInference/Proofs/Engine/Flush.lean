import Mathlib
import InvariantInference.Proofs.Engine.Log
import InvariantInference.Proofs.Ledger
import InvariantInference.Proofs.Model.Walk
import InvariantInference.Session.Replay

/-!
# Flushes

A genuine violation ends the refinement, unless the run is to go on: the
implementation leaves, the assignment is frozen, and what is left in the
worklist is verified once each, in order. No round of a flush queues anything,
lets a candidate fall, or touches the record of another implementation.
-/

namespace InvariantInference

namespace Run

variable {σ : Type} {s : Setting} {current : Nat} {verdict : Classified} {run next : Run σ}
  {told : List Event}

/-- Only a genuine violation makes a run flush. -/
theorem Response.flush_of_phase (response : Response s current verdict run told next)
    (active : run.phase ≠ .flushing) (flushing : next.phase = .flushing) :
    verdict.outcome = .errors ∧ verdict.hasGenuine = true ∧
      told = [.dequeue (s.graph.name current), .flushBegin] ∧ next = (run.flush s current).2 := by
  cases response with
  | leave | timeout => exact absurd (nextPhase_eq_flushing.mp flushing) active
  | flush _ outcome genuine => exact ⟨outcome, genuine, rfl, rfl⟩
  | stay => exact absurd flushing (stay_phase s _)
  | settle => exact absurd (nextPhase_eq_flushing.mp flushing) active

theorem Response.phase_of_flushBegin (response : Response s current verdict run told next)
    (member : .flushBegin ∈ told) : next.phase = .flushing := by
  have refinement : .flushBegin ∉ (run.refinement s current verdict).events := by
    intro member
    cases (told_refinement s current verdict run).kinds _ member
  cases response with
  | leave | timeout => simp at member
  | flush => rfl
  | stay => exact absurd member refinement
  | settle => simp [refinement] at member

variable [Session σ]

/-! ## The rounds of a flush -/

/-- In a flush a round records its outcome, and the implementation leaves. -/
theorem step_of_flushing (flushing : run.phase = .flushing) :
    run.step s current = (run.report s current ++ [.dequeue (s.graph.name current)],
      ((run.recorded s current).leave s current).2) := by
  have reaction : (run.recorded s current).react s current (run.verdict s current) =
      (run.recorded s current).leave s current := if_pos flushing
  apply Prod.ext
  · rw [step_fst, reaction]
    rfl
  · rw [step_eq_react, reaction]

theorem assignment_step_of_flushing (flushing : run.phase = .flushing) :
    (run.step s current).2.assignment = run.assignment := by
  rw [step_of_flushing flushing]
  rfl

theorem worklist_step_of_flushing (flushing : run.phase = .flushing) :
    (run.step s current).2.worklist = run.worklist.dequeue := by
  rw [step_of_flushing flushing]
  rfl

theorem get?_step_of_flushing {name : String} (flushing : run.phase = .flushing)
    (other : name ≠ s.graph.name current) :
    (run.step s current).2.ledger.get? name = run.ledger.get? name := by
  rw [step_of_flushing flushing]
  exact Ledger.get?_record_of_ne other

/-- A flush verifies what is queued once each, in order, all under one assignment. -/
theorem visits_of_flushing (flushing : run.phase = .flushing) :
    (run.visits s).map (fun visit => (visit.1, visit.2.assignment)) =
      run.worklist.ids.map (fun id => (id, run.assignment)) := by
  fun_induction visits s run with
  | case1 run empty =>
    have none : run.worklist.ids = [] := by simpa [Worklist.peek?] using empty
    rw [none]
    rfl
  | case2 run current head ih =>
    have queue : run.worklist.ids = current :: run.worklist.dequeue.ids :=
      List.eq_cons_of_mem_head? head
    rw [queue, List.map_cons, List.map_cons, ih (step_flushing flushing),
      assignment_step_of_flushing flushing, worklist_step_of_flushing flushing]

theorem queued_of_flushing {visit : Nat × Run σ} (flushing : run.phase = .flushing)
    (visited : visit ∈ run.visits s) : visit.1 ∈ run.worklist.ids := by
  have member := List.mem_map_of_mem (f := fun visit => (visit.1, visit.2.assignment)) visited
  rw [visits_of_flushing flushing, List.mem_map] at member
  obtain ⟨id, queued, same⟩ := member
  rw [← congrArg Prod.fst same]
  exact queued

theorem phase_of_visits (flushing : run.phase = .flushing) :
    ∀ visit ∈ run.visits s, visit.2.phase = .flushing := by
  fun_induction visits s run with
  | case1 run empty => simp
  | case2 run current head ih =>
    exact List.forall_mem_cons.mpr ⟨flushing, ih (step_flushing flushing)⟩

theorem assignment_of_flushing (flushing : run.phase = .flushing) :
    (run.finish s).2.assignment = run.assignment := by
  have kept : (run.finish s).2.phase = .flushing ∧
      (run.finish s).2.assignment = run.assignment := by
    apply finish_preserves (P := fun later =>
      later.phase = .flushing ∧ later.assignment = run.assignment)
    · rintro later current - ⟨flushing, same⟩
      exact ⟨step_flushing flushing, (assignment_step_of_flushing flushing).trans same⟩
    · exact ⟨flushing, rfl⟩
  exact kept.2

/-- A flush leaves the records of all implementations that are not queued. -/
theorem get?_of_flushing {name : String} (flushing : run.phase = .flushing)
    (absent : name ∉ run.worklist.ids.map s.graph.name) :
    (run.finish s).2.ledger.get? name = run.ledger.get? name := by
  -- A round only enters a record of its own implementation, so the invariant has to say that
  -- the name stays out of the worklist.
  have kept : (run.finish s).2.phase = .flushing ∧
      name ∉ (run.finish s).2.worklist.ids.map s.graph.name ∧
      (run.finish s).2.ledger.get? name = run.ledger.get? name := by
    apply finish_preserves (P := fun later => later.phase = .flushing ∧
      name ∉ later.worklist.ids.map s.graph.name ∧ later.ledger.get? name = run.ledger.get? name)
    · rintro later current head ⟨flushing, absent, same⟩
      refine ⟨step_flushing flushing, ?_, ?_⟩
      · rw [worklist_step_of_flushing flushing]
        intro member
        obtain ⟨id, queued, named⟩ := List.mem_map.mp member
        exact absent (List.mem_map.mpr ⟨id, List.mem_of_mem_tail queued, named⟩)
      · rw [get?_step_of_flushing flushing, same]
        rintro rfl
        exact absent (List.mem_map_of_mem (Worklist.mem_of_peek? head))
    · exact ⟨flushing, absent, rfl⟩
  exact kept.2.2

/-! ## The events of a flush -/

theorem events_of_flushing (flushing : run.phase = .flushing) :
    ∀ event ∈ (run.finish s).1, event.isReport ∨ ∃ name, event = .dequeue name := by
  intro event member
  rw [finish_fst, List.mem_flatMap] at member
  obtain ⟨⟨id, later⟩, visited, told⟩ := member
  rw [step_of_flushing (phase_of_visits flushing _ visited), List.mem_append,
    List.mem_singleton] at told
  rcases told with reported | left
  · exact .inl (isReport_report reported)
  · exact .inr ⟨_, left⟩

theorem quiet_of_flushing (flushing : run.phase = .flushing) :
    ∀ event ∈ (run.finish s).1,
      event ≠ .flushBegin ∧ event.disabled? = none ∧ event.enqueued? = none := by
  intro event member
  rcases events_of_flushing flushing event member with report | ⟨name, rfl⟩
  · cases event <;> simp_all [Event.isReport, Event.disabled?, Event.enqueued?]
  · simp [Event.disabled?, Event.enqueued?]

omit [Session σ] in
theorem quiet_closingEvents : ∀ event ∈ run.closingEvents s,
    event ≠ .flushBegin ∧ event.disabled? = none ∧ event.enqueued? = none := by
  intro event member
  rcases mem_closingEvents member with rfl | rfl <;> simp [Event.disabled?, Event.enqueued?]

omit [Session σ] in
theorem selected?_closingEvents : (run.closingEvents s).filterMap Event.selected? = [] := by
  apply List.filterMap_eq_nil_iff.mpr
  intro event member
  rcases mem_closingEvents member with rfl | rfl <;> rfl

theorem selected?_of_flushing (flushing : run.phase = .flushing) :
    (run.finish s).1.filterMap Event.selected? = run.worklist.ids.map s.graph.name := by
  have each : ∀ visit ∈ run.visits s,
      (visit.2.step s visit.1).1.filterMap Event.selected? = [s.graph.name visit.1] := by
    intro visit visited
    have flushing := phase_of_visits flushing visit visited
    rw [step_of_flushing flushing, List.filterMap_append, selected?_report (by simp [flushing])]
    rfl
  have visited := congrArg (List.map fun visit => s.graph.name visit.1)
    (visits_of_flushing (s := s) flushing)
  rw [List.map_map, List.map_map] at visited
  rw [finish_fst, List.filterMap_flatMap, List.flatMap_congr each]
  exact (List.flatMap_pure_eq_map _ _).trans visited

/-! ## The start of a flush -/

theorem phase_of_flushBegin (told : .flushBegin ∈ (run.step s current).1) :
    (run.step s current).2.phase = .flushing := by
  obtain ⟨reaction, events, response⟩ := step_told s current run
  rw [events, List.mem_append] at told
  rcases told with reported | reacted
  · cases isReport_report reported
  · exact response.phase_of_flushBegin reacted

/-- The round on `current` finds a genuine violation and lets the flush begin. -/
structure Triggers (s : Setting) (current : Nat) (run : Run σ) : Prop where
  active : run.phase ≠ .flushing
  outcome : (run.verdict s current).outcome = .errors
  genuine : (run.verdict s current).genuine ≠ []
  events : (run.step s current).1 =
    run.report s current ++ [.dequeue (s.graph.name current), .flushBegin]
  next : (run.step s current).2 = ((run.recorded s current).flush s current).2

theorem triggers_of_phase (active : run.phase ≠ .flushing)
    (flushing : (run.step s current).2.phase = .flushing) : Triggers s current run := by
  obtain ⟨told, events, response⟩ := step_told s current run
  obtain ⟨outcome, genuine, rfl, next⟩ := response.flush_of_phase active flushing
  refine ⟨active, outcome, ?_, events, next⟩
  intro none
  simp [Classified.hasGenuine, none] at genuine

/-- A run that flushes began to do so in some round. -/
theorem Rounds.exists_trigger {n : Nat} {first last : Run σ} (rounds : Rounds s n first last)
    (flushing : last.phase = .flushing) :
    first.phase = .flushing ∨ ∃ id run, RoundOn s first last id run ∧ Triggers s id run := by
  induction rounds with
  | done => exact .inl flushing
  | @round n first last current head rest ih =>
    rcases ih flushing with begun | ⟨id, run, round, triggers⟩
    · by_cases already : first.phase = .flushing
      · exact .inl already
      · exact .inr ⟨current, first, ⟨⟨0, .done first⟩, head, n, rest⟩,
          triggers_of_phase already begun⟩
    · exact .inr ⟨id, run, round.extend head, triggers⟩

theorem Triggers.flushing (triggers : Triggers s current run) :
    (run.step s current).2.phase = .flushing := by
  rw [triggers.next]
  rfl

theorem Triggers.left (triggers : Triggers s current run) (orderly : run.Orderly s)
    (head : run.worklist.peek? = some current) :
    current ∉ (run.step s current).2.worklist.ids := by
  rw [triggers.next]
  exact Worklist.notMem_dequeue orderly.valid head

theorem Triggers.record (triggers : Triggers s current run) :
    ∃ record, (run.step s current).2.ledger.get? (s.graph.name current) = some record ∧
      record.outcome = .errors ∧ record.genuine = (run.verdict s current).genuine := by
  obtain ⟨record, found, outcome, genuine, -⟩ := run.ledger.get?_record_self
    (s.graph.name current) (run.verdict s current).outcome (run.verdict s current).genuine
  refine ⟨record, ?_, outcome.trans triggers.outcome, genuine⟩
  rw [triggers.next]
  exact found

/-- Before the flush no event tells of its beginning. -/
theorem Rounds.log_of_active {n : Nat} {first : Run σ} (rounds : Rounds s n first run)
    (active : run.phase ≠ .flushing) :
    ∃ log, (first.finish s).1 = log ++ (run.finish s).1 ∧ .flushBegin ∉ log := by
  have step : ∀ (log : List Event) (run : Run σ) (current : Nat),
      run.worklist.peek? = some current → (.flushBegin ∈ log → run.phase = .flushing) →
      .flushBegin ∈ log ++ (run.step s current).1 → (run.step s current).2.phase = .flushing := by
    intro log run current _ begun told
    rcases List.mem_append.mp told with before | now
    · exact step_flushing (begun before)
    · exact phase_of_flushBegin now
  have initial : .flushBegin ∈ ([] : List Event) → first.phase = .flushing := nofun
  obtain ⟨log, same, begun⟩ := rounds.log_preserves step initial
  exact ⟨log, same, fun told => active (begun told)⟩

/-- The events up to the flush, and those of its rounds. -/
theorem Triggers.log (triggers : Triggers s current run) {n : Nat} {first : Run σ}
    (rounds : Rounds s n first run) (head : run.worklist.peek? = some current) :
    ∃ earlier, (first.finish s).1 = earlier ++ run.report s current ++
        [.dequeue (s.graph.name current), .flushBegin] ++ ((run.step s current).2.finish s).1 ∧
      .flushBegin ∉ earlier ++ run.report s current := by
  obtain ⟨earlier, log, silent⟩ := rounds.log_of_active triggers.active
  refine ⟨earlier, ?_, ?_⟩
  · rw [log, finish_fst_of_head head, triggers.events]
    simp only [List.append_assoc]
  · rw [List.mem_append, not_or]
    refine ⟨silent, fun reported => ?_⟩
    cases isReport_report reported

end Run

namespace Engine

variable {σ : Type} [Session σ] {program : Program} {oracle : Oracle σ} {e : Engine σ}

/-- A run that ends flushed has a round, the trigger, whose genuine violation begins the flush.
    From then on what is in the worklist is verified once each, in order, under the
    assignment of that moment, which is the last one; nothing falls and nothing is queued. The
    trigger is not verified again and keeps its record, and so does all that was not queued. -/
theorem flush_is_complete (prepared : Prepared program oracle e) (config : Config)
    (flushed : (e.infer config).1.termination = .flushed) :
    let s := e.setting config
    let result := (e.infer config).1
    ∃ (current : Nat) (trigger : Run σ) (before after : List Event),
      Run.RoundOn s (Run.start s e.pool) (e.lastRun config) current trigger ∧
      trigger.phase ≠ .flushing ∧ (trigger.verdict s current).outcome = .errors ∧
      (trigger.verdict s current).genuine ≠ [] ∧
      let begun := (trigger.step s current).2
      -- The log up to the beginning of the flush, and after it.
      (e.infer config).2.1 = before ++ .flushBegin :: after ∧ .flushBegin ∉ before ++ after ∧
      (∃ earlier, before ++ [.flushBegin] = earlier ++ (trigger.step s current).1) ∧
      after = ((begun.visits s).flatMap fun visit => (visit.2.step s visit.1).1) ++
        (e.lastRun config).closingEvents s ∧
      (∀ event ∈ after, event.disabled? = none ∧ event.enqueued? = none) ∧
      after.filterMap Event.selected? = begun.worklist.ids.map s.graph.name ∧
      -- The rounds of the flush.
      begun.worklist.ids.Nodup ∧
      (begun.visits s).map (fun visit => (visit.1, visit.2.assignment)) =
        begun.worklist.ids.map (fun id => (id, begun.assignment)) ∧
      result.assignment = begun.assignment ∧
      -- The records that stay.
      (∀ visit ∈ begun.visits s, visit.1 ≠ current) ∧
      (∃ record, result.ledger.get? (s.graph.name current) = some record ∧
        record.outcome = .errors ∧ record.genuine = (trigger.verdict s current).genuine) ∧
      ∀ (id : Nat) (i : Implementation), program.implementations[id]? = some i →
        id ∉ begun.worklist.ids →
        result.ledger.get? i.name.value = begun.ledger.get? i.name.value := by
  intro s result
  have last : (e.lastRun config).phase = .flushing := by
    rw [infer_result, Run.result, Run.termination] at flushed
    split at flushed
    · assumption
    · cases flushed
  obtain ⟨n, rounds, -⟩ := Run.finish_rounds s (Run.start s e.pool)
  have calm : (Run.start s e.pool).phase ≠ .flushing := by simp [Run.start]
  obtain ⟨current, trigger, round, triggers⟩ := (rounds.exists_trigger last).resolve_left calm
  obtain ⟨m, before⟩ := round.before
  have orderly := prepared.orderly before
  have next := orderly.step prepared.build round.head
  have flushing := triggers.flushing
  have left := triggers.left orderly round.head
  have reached : e.lastRun config = ((trigger.step s current).2.finish s).2 :=
    (before.next round.head).finish_eq.symm
  obtain ⟨earlier, log, silent⟩ := triggers.log before round.head
  have quiet : ∀ event ∈ ((trigger.step s current).2.visits s).flatMap
      (fun visit => (visit.2.step s visit.1).1) ++ (e.lastRun config).closingEvents s,
      event ≠ .flushBegin ∧ event.disabled? = none ∧ event.enqueued? = none := by
    rw [← Run.finish_fst]
    exact List.forall_mem_append.mpr ⟨Run.quiet_of_flushing flushing, Run.quiet_closingEvents⟩
  have unqueued : ∀ {id : Nat}, id < s.graph.size →
      id ∉ (trigger.step s current).2.worklist.ids →
      result.ledger.get? (s.graph.name id) =
        (trigger.step s current).2.ledger.get? (s.graph.name id) := by
    intro id below absent
    show (e.lastRun config).ledger.get? _ = _
    rw [reached]
    exact Run.get?_of_flushing flushing (next.name_notMem prepared.build below absent)
  refine ⟨current, trigger, e.openingEvents ++ earlier ++ trigger.report s current ++
    [.dequeue (s.graph.name current)], _, round, triggers.active, triggers.outcome,
    triggers.genuine, ?_, ?_, ⟨e.openingEvents ++ earlier, ?_⟩, rfl,
    fun event member => (quiet event member).2, ?_, next.valid.distinct,
    Run.visits_of_flushing flushing, ?_, ?_, ?_, ?_⟩
  · rw [infer_log, log, Run.finish_fst]
    simp only [List.append_assoc, List.cons_append, List.nil_append]
    rfl
  · intro member
    rcases List.mem_append.mp member with early | late
    · have opening : .flushBegin ∉ e.openingEvents := by simp [openingEvents]
      simp only [List.mem_append, List.mem_singleton, reduceCtorEq, or_false, opening,
        false_or] at early silent
      exact silent early
    · exact (quiet _ late).1 rfl
  · rw [triggers.events]
    simp only [List.append_assoc, List.cons_append, List.nil_append]
  · rw [List.filterMap_append, ← Run.finish_fst, Run.selected?_of_flushing flushing,
      Run.selected?_closingEvents, List.append_nil]
  · show (e.lastRun config).assignment.freeze = _
    rw [reached, Run.assignment_of_flushing flushing, Assignment.freeze,
      ← next.frozen_iff.mpr flushing]
  · intro visit visited same
    have queued := Run.queued_of_flushing flushing visited
    rw [same] at queued
    exact left queued
  · rw [unqueued (orderly.valid.bounded current (Worklist.mem_of_peek? round.head)) left]
    exact triggers.record
  · intro id i place absent
    rw [← CallGraph.name_of_build prepared.build place]
    apply unqueued _ absent
    exact (CallGraph.size_of_build prepared.build).symm ▸ (List.getElem?_eq_some_iff.mp place).1

/-- Replies for the guarded call: the caller refutes `P`, and the next time `Q`, but now with a
    genuine violation; the callee refutes `Q` as well. -/
def failingReplies : Dictionary (List Replay.Reply) := .ofList
  [("Caller",
    [⟨⟨.errors, [⟨.precondition "Callee", .guarded "P" "x > 0", .none, []⟩]⟩, none, none, none⟩,
      ⟨⟨.errors, [⟨.precondition "Callee", .guarded "Q" "r > 0", .none, []⟩,
        ⟨.assertion, .atom ⟨0, 5⟩ "x > 0", .none, []⟩]⟩, none, none, none⟩]),
    ("Callee",
      [⟨⟨.errors, [⟨.postcondition, .guarded "Q" "r > 0", .none, []⟩]⟩, none, none, none⟩])]

/-- The callee of the guarded call is left in the worklist when the flush begins. Its
    refutation of `Q` then comes too late. -/
theorem flush_is_complete_guardedCall :
    ∃ e, setUp Program.guardedCall (Replay.oracle failingReplies none) = .ok e ∧
      (e.infer .standard).1.termination = .flushed ∧
      (e.infer .standard).2.1[6]? = some (.candidateDisabled "P") ∧
      (e.infer .standard).2.1[15]? = some (.outcomeRecorded "Callee" .errors) ∧
      ∃ before after : List Event, (e.infer .standard).2.1 = before ++ .flushBegin :: after ∧
        .flushBegin ∉ before ++ after ∧
        ∀ event ∈ after, event.disabled? = none ∧ event.enqueued? = none := by
  have prepared : Prepared Program.guardedCall (Replay.oracle failingReplies none) _ := .setUp rfl
  refine ⟨_, rfl, by cbv, by cbv, by cbv, ?_⟩
  obtain ⟨-, -, before, after, -, -, -, -, log, once, -, -, quiet, -⟩ :=
    flush_is_complete prepared .standard (by cbv)
  exact ⟨before, after, log, once, quiet⟩

end Engine

end InvariantInference
