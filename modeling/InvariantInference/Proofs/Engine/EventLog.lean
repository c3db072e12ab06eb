import Mathlib
import InvariantInference.Proofs.Engine.Causes

/-!
# What the log determines

Someone who has nothing but the log of a run can follow the run: its events tell
where each round begins, under which assignment it verifies and what came out, which
candidates have fallen so far, and, where no implementation is moved within the
worklist, what is queued at every moment.
-/

namespace InvariantInference

namespace Event

/-- The property holds of every event, with those before it. -/
def Throughout (P : List Event → Event → Prop) (log : List Event) : Prop :=
  ∀ before event after, log = before ++ event :: after → P before event

theorem throughout_of_forall {P : List Event → Event → Prop} {log : List Event}
    (each : ∀ event ∈ log, ∀ before, P before event) : Throughout P log := by
  rintro before event after rfl
  exact each event (by simp) before

theorem Throughout.append {P : List Event → Event → Prop} {log more : List Event}
    (first : Throughout P log) (second : Throughout (fun before => P (log ++ before)) more) :
    Throughout P (log ++ more) := by
  intro before event after same
  rcases List.append_eq_append_iff.mp same with ⟨gap, rfl, rest⟩ | ⟨gap, rfl, rest⟩
  · exact second gap event after rest
  · cases gap with
    | nil =>
      -- The event is the first one of the second log.
      have begins := second [] event after rest.symm
      rw [List.append_nil, List.append_nil] at begins
      exact begins
    | cons head gap =>
      cases rest
      exact first before event gap rfl

/-- A snapshot shows exactly the candidates as true that have not fallen before it. -/
def Shows (cs : Candidates) (before : List Event) (event : Event) : Prop :=
  ∀ a, event = assignmentSnapshot a →
    a.entries = cs.names.map fun name => (name, !(before.filterMap disabled?).contains name)

/-- The events of a round that come once in each. -/
def isMark : Event → Bool
  | iterationBegin _ | assignmentSnapshot _ | outcomeRecorded _ _ => true
  | _ => false

/-- The first and the last event of a log. -/
def isBound : Event → Bool
  | start _ | finish _ _ => true
  | _ => false

/-- What is queued after an event, if the event goes with what was queued before. -/
def requeue (queue : List String) : Event → Option (List String)
  | enqueue name => if name ∈ queue then none else some (queue ++ [name])
  | dequeue name => if queue.head? = some name then some queue.tail else none
  | implementationSelected name => if queue.head? = some name then some queue else none
  | finish _ _ => if queue = [] then some queue else none
  | _ => some queue

/-- What is queued after a log. -/
def replay (queue : List String) (log : List Event) : Option (List String) :=
  log.foldlM requeue queue

theorem replay_append {queue next : List String} {log more : List Event}
    (first : replay queue log = some next) : replay queue (log ++ more) = replay next more := by
  unfold replay at first ⊢
  rw [List.foldlM_append, first]
  rfl

theorem nodup_requeue {queue next : List String} {event : Event} (distinct : queue.Nodup)
    (goes : requeue queue event = some next) : next.Nodup := by
  cases event with
  | enqueue name =>
    obtain ⟨fresh, same⟩ := Option.ite_none_left_eq_some.mp goes
    cases same
    exact List.concat_eq_append ▸ distinct.concat fresh
  | dequeue name =>
    obtain ⟨-, same⟩ := Option.ite_none_right_eq_some.mp goes
    cases same
    exact distinct.tail
  | implementationSelected | finish =>
    obtain ⟨-, same⟩ := Option.ite_none_right_eq_some.mp goes
    cases same
    exact distinct
  | _ =>
    cases goes
    exact distinct

/-- At every moment of a log that can be replayed nothing is queued twice. -/
theorem nodup_replay {queue last : List String} {log more : List Event} (distinct : queue.Nodup)
    (replayed : replay queue (log ++ more) = some last) :
    ∃ next, replay queue log = some next ∧ next.Nodup := by
  induction log generalizing queue with
  | nil => exact ⟨queue, rfl, distinct⟩
  | cons event log ih =>
    obtain ⟨next, goes, rest⟩ := Option.bind_eq_some_iff.mp replayed
    obtain ⟨later, replayed, distinct⟩ := ih (nodup_requeue distinct goes) rest
    refine ⟨later, ?_, distinct⟩
    exact Option.bind_eq_some_iff.mpr ⟨next, goes, replayed⟩

/-- Events that go with a queue and leave it as it is. -/
theorem replay_of_still {queue : List String} {log : List Event}
    (still : ∀ event ∈ log, requeue queue event = some queue) : replay queue log = some queue := by
  induction log with
  | nil => rfl
  | cons event log ih =>
    rw [List.forall_mem_cons] at still
    have one : replay queue [event] = some queue := by
      simp [replay, still.1]
    rw [← List.singleton_append, replay_append one]
    exact ih still.2

/-- Refutations only add to a queue. -/
theorem replay_of_isRefinement {queue : List String} {log : List Event}
    (kinds : ∀ event ∈ log, event.isRefinement)
    (distinct : (queue ++ log.filterMap enqueued?).Nodup) :
    replay queue log = some (queue ++ log.filterMap enqueued?) := by
  induction log generalizing queue with
  | nil => simp [replay]
  | cons event log ih =>
    rw [List.forall_mem_cons] at kinds
    rw [← List.singleton_append, List.filterMap_append] at distinct ⊢
    have one : replay queue [event] = some (queue ++ [event].filterMap enqueued?) := by
      cases event with
      | candidateRefuted | candidateDisabled => simp [replay, requeue, enqueued?]
      | enqueue name =>
        -- What is queued in the end is queued once, so it was not queued before.
        have fresh : name ∉ queue := by
          intro queued
          exact (List.disjoint_of_nodup_append distinct) queued (by simp [enqueued?])
        simp [replay, requeue, enqueued?, fresh]
      | _ => cases kinds.1
    rw [replay_append one, ← List.append_assoc]
    rw [← List.append_assoc] at distinct
    exact ih kinds.2 distinct

end Event

namespace Run

variable {σ : Type} {s : Setting} {current : Nat} {verdict : Classified} {run next : Run σ}
  {told : List Event} {program : Program}

/-! ## The names in the worklist -/

/-- The names of what is in the worklist. -/
def queue (s : Setting) (run : Run σ) : List String := run.worklist.ids.map s.graph.name

theorem queue_start (built : CallGraph.build program = .ok s.graph) (pool : SessionPool σ) :
    (start s pool).queue s = program.implementations.map (·.name.value) := by
  have ids : (start s pool).worklist.ids = s.graph.ids :=
    eraseDups_of_nodup (List.nodup_range)
  rw [queue, ids, CallGraph.names_of_build built]

theorem nodup_queue (built : CallGraph.build program = .ok s.graph)
    (valid : run.worklist.Valid s.graph.size) : (run.queue s).Nodup := by
  apply valid.distinct.map_on
  intro u first v second same
  exact CallGraph.id_eq_of_name_eq built (valid.bounded u first) (valid.bounded v second) same

theorem head?_queue (head : run.worklist.peek? = some current) :
    (run.queue s).head? = some (s.graph.name current) := by
  rw [queue, List.head?_map, show run.worklist.ids.head? = some current from head]
  rfl

theorem replay_dequeue {left : Run σ} (head : run.worklist.peek? = some current)
    (dequeued : left.worklist = run.worklist.dequeue) :
    Event.replay (run.queue s) [.dequeue (s.graph.name current)] = some (left.queue s) := by
  have first : (run.queue s).head? = some (s.graph.name current) := head?_queue head
  have rest : (run.queue s).tail = left.queue s := by
    rw [queue, queue, dequeued, Worklist.dequeue, List.map_tail]
  rw [← rest]
  simp [Event.replay, Event.requeue, first]

/-- The events of refutations tell what they add to the worklist. -/
theorem replay_refinement (built : CallGraph.build program = .ok s.graph)
    (valid : run.worklist.Valid s.graph.size) (current : Nat) (verdict : Classified) :
    Event.replay (run.queue s) (run.refinement s current verdict).events =
      some ((run.refined s current verdict).queue s) := by
  obtain ⟨added, ids, names, -⟩ := (told_refinement s current verdict run).enqueued
  have refined : (run.refined s current verdict).queue s =
      run.queue s ++ (run.refinement s current verdict).events.filterMap Event.enqueued? := by
    rw [queue, Run.refined, ids, List.map_append, names]
    rfl
  have distinct := nodup_queue built (valid_refined built valid current verdict)
  rw [refined] at distinct ⊢
  exact Event.replay_of_isRefinement (told_refinement s current verdict run).kinds distinct

/-- Where the schedule does not rotate, a response tells all that happens to the worklist. -/
theorem Response.replay (response : Response s current verdict run told next)
    (built : CallGraph.build program = .ok s.graph) (spin : s.config.schedule = .spin)
    (valid : run.worklist.Valid s.graph.size) (head : run.worklist.peek? = some current) :
    Event.replay (run.queue s) told = some (next.queue s) := by
  have refinement := replay_refinement built valid current verdict
  cases response with
  | leave | timeout => exact replay_dequeue head rfl
  | flush =>
    have left : Event.replay (run.queue s) [.dequeue (s.graph.name current)] =
        some ((run.flush s current).2.queue s) := replay_dequeue head rfl
    exact Event.replay_append left
  | stay =>
    rw [Run.stay, spin]
    exact refinement
  | settle =>
    rw [Event.replay_append refinement]
    exact replay_dequeue (peek?_refined head verdict) rfl

/-! ## The events of a round -/

theorem Response.chained (response : Response s current verdict run told next) :
    Event.Chained told := by
  have refinement := (told_refinement s current verdict run).chained
  cases response with
  | leave | timeout | flush => exact Event.chained_of_quiet (by simp [Event.disabled?])
  | stay => exact refinement
  | settle => exact refinement.append (Event.chained_of_quiet (by simp [Event.disabled?]))

theorem Response.isMark (response : Response s current verdict run told next) :
    told.filter Event.isMark = [] := by
  rw [List.filter_eq_nil_iff]
  intro event member mark
  have reaction := response.isReaction event member
  cases event <;> simp_all [Event.isMark, Event.isReaction, Event.isRefinement]

variable [Session σ]

theorem step_chained (s : Setting) (current : Nat) (run : Run σ) :
    Event.Chained (run.step s current).1 := by
  obtain ⟨told, events, response⟩ := step_told s current run
  have reported : Event.Chained (run.report s current) :=
    Event.chained_of_quiet (List.filterMap_eq_nil_iff.mp disabled?_report)
  rw [events]
  exact reported.append response.chained

/-- A round begins, shows its assignment and records its outcome, each once. -/
theorem step_marks (s : Setting) (current : Nat) (run : Run σ) :
    (run.step s current).1.filter Event.isMark =
      [.iterationBegin run.iterations, .assignmentSnapshot run.assignment,
        .outcomeRecorded (s.graph.name current) (run.verdict s current).outcome] := by
  obtain ⟨told, events, response⟩ := step_told s current run
  rw [events, List.filter_append, response.isMark, report, preamble, openingEvents]
  split <;> simp [Event.isMark, List.filter_cons]

/-- The only assignment that a round shows is the one under which it verifies, and it does so
    before anything falls. -/
theorem step_shows (s : Setting) (current : Nat) (run : Run σ) :
    Event.Throughout (fun before event => ∀ a, event = .assignmentSnapshot a →
      a = run.assignment ∧ before.filterMap Event.disabled? = []) (run.step s current).1 := by
  obtain ⟨told, events, response⟩ := step_told s current run
  rw [events]
  apply Event.Throughout.append
  · rintro before event after same a rfl
    have shown : .assignmentSnapshot a ∈ run.report s current := by simp [same]
    have quiet : (run.report s current).filterMap Event.disabled? = [] := disabled?_report
    rw [same, List.filterMap_append, List.append_eq_nil_iff] at quiet
    refine ⟨?_, quiet.1⟩
    rcases mem_report.mp shown with early | last
    · rcases mem_preamble early with first | selected | snapshot | ⟨message, seen⟩
      · cases first
      · cases selected
      · cases snapshot
        rfl
      · cases seen
    · cases last
  · rintro before event after same a rfl
    have shown : .assignmentSnapshot a ∈ told := by simp [same]
    cases response.isReaction _ shown

theorem Tracks.shows {log : List Event} (tracks : run.Tracks s (log.filterMap Event.disabled?))
    (current : Nat) :
    Event.Throughout (fun before => Event.Shows s.candidates (log ++ before))
      (run.step s current).1 := by
  intro before event after same a snapshot
  obtain ⟨rfl, quiet⟩ := step_shows s current run before event after same a snapshot
  rw [List.filterMap_append, quiet, List.append_nil, tracks.entries,
    Assignment.entries_disableAll_allTrue]

theorem replay_step (built : CallGraph.build program = .ok s.graph)
    (spin : s.config.schedule = .spin) (orderly : run.Orderly s)
    (head : run.worklist.peek? = some current) :
    Event.replay (run.queue s) (run.step s current).1 = some ((run.step s current).2.queue s) := by
  obtain ⟨told, events, response⟩ := step_told s current run
  have reported : Event.replay (run.queue s) (run.report s current) = some (run.queue s) := by
    apply Event.replay_of_still
    intro event member
    rcases mem_report.mp member with before | rfl
    · rcases mem_preamble before with rfl | rfl | rfl | ⟨message, rfl⟩
      · rfl
      · exact if_pos (head?_queue head)
      · rfl
      · rfl
    · rfl
  rw [events, Event.replay_append reported]
  exact response.replay built spin (orderly.recorded current).valid head

theorem isBound_step {event : Event} (member : event ∈ (run.step s current).1) :
    event.isBound = false := by
  obtain ⟨told, events, response⟩ := step_told s current run
  rw [events, List.mem_append] at member
  rcases member with reported | reacted
  · have report := isReport_report reported
    cases event <;> first | rfl | cases report
  · have reaction := response.isReaction event reacted
    cases event <;> first | rfl | cases reaction

/-! ## The events of a run -/

theorem isBound_finish : ∀ event ∈ (run.finish s).1, event.isBound = false := by
  intro event member
  rw [finish_fst, List.mem_flatMap] at member
  obtain ⟨visit, -, told⟩ := member
  exact isBound_step told

theorem finish_marks (s : Setting) (run : Run σ) :
    (run.finish s).1.filter Event.isMark = (run.visits s).flatMap fun visit =>
      [.iterationBegin visit.2.iterations, .assignmentSnapshot visit.2.assignment,
        .outcomeRecorded (s.graph.name visit.1) (visit.2.verdict s visit.1).outcome] := by
  rw [finish_fst, List.filter_flatMap]
  exact List.flatMap_congr fun visit _ => step_marks s visit.1 visit.2

omit [Session σ] in
theorem closingEvents_eq (s : Setting) (run : Run σ) :
    ∃ ends : List Event,
      run.closingEvents s = ends ++ [.finish (run.reportedEnd s) run.iterations] ∧
      ∀ event ∈ ends, event = .flushEnd := by
  refine ⟨_, rfl, ?_⟩
  cases run.termination with
  | fixpoint => exact nofun
  | flushed => simp

theorem finish_of_empty (empty : run.worklist.peek? = none) : run.finish s = ([], run) := by
  rw [finish]
  split
  · rfl
  · rename_i head
    rw [empty] at head
    cases head

/-- The rounds to come are numbered one after the other. -/
theorem iterations_visits (s : Setting) (run : Run σ) :
    (run.visits s).map (·.2.iterations) = List.range' run.iterations (run.visits s).length ∧
      (run.finish s).2.iterations = run.iterations + (run.visits s).length := by
  fun_induction visits s run with
  | case1 run empty =>
    rw [finish_of_empty empty]
    exact ⟨rfl, rfl⟩
  | case2 run current head ih =>
    rw [step_iterations] at ih
    rw [finish_step head, ih.2, List.map_cons, ih.1, List.length_cons, List.range'_succ]
    refine ⟨rfl, ?_⟩
    omega

end Run

namespace Engine

variable {σ : Type} [Session σ] {program : Program} {oracle : Oracle σ} {e : Engine σ}

theorem log_bounds (e : Engine σ) (config : Config) :
    ∃ inner : List Event, (e.infer config).2.1 = .start e.candidates.names.length ::
        (inner ++ [.finish (e.infer config).1.finish (e.infer config).1.iterations]) ∧
      ∀ event ∈ inner, event.isBound = false := by
  obtain ⟨ends, closing, flushed⟩ := (e.lastRun config).closingEvents_eq (e.setting config)
  refine ⟨((Run.start (e.setting config) e.pool).finish (e.setting config)).1 ++ ends, ?_, ?_⟩
  · rw [infer_log, closing, openingEvents, Candidates.names, List.length_map, List.append_assoc,
      List.append_assoc, List.singleton_append]
    rfl
  · rw [List.forall_mem_append]
    refine ⟨Run.isBound_finish, fun event member => ?_⟩
    rw [flushed event member]
    rfl

theorem log_marks (e : Engine σ) (config : Config) :
    (e.infer config).2.1.filter Event.isMark =
      ((Run.start (e.setting config) e.pool).visits (e.setting config)).flatMap fun visit =>
        [.iterationBegin visit.2.iterations, .assignmentSnapshot visit.2.assignment,
          .outcomeRecorded (e.graph.name visit.1)
            (visit.2.verdict (e.setting config) visit.1).outcome] := by
  have closing :
      ((e.lastRun config).closingEvents (e.setting config)).filter Event.isMark = [] := by
    apply List.filter_eq_nil_iff.mpr
    intro event member
    rcases Run.mem_closingEvents member with rfl | rfl <;> simp [Event.isMark]
  rw [infer_log, List.filter_append, List.filter_append, Run.finish_marks, closing]
  exact List.append_nil _

theorem chained_log (e : Engine σ) (config : Config) : Event.Chained (e.infer config).2.1 := by
  have rounds : Event.Chained
      ((Run.start (e.setting config) e.pool).finish (e.setting config)).1 := by
    have initial : Event.Chained [] := .singleton
    exact Run.finish_log_preserves (P := fun log _ => Event.Chained log)
      (fun log run current _ chained => chained.append (Run.step_chained _ current run)) initial
  have opening : Event.Chained e.openingEvents :=
    Event.chained_of_quiet (by simp [openingEvents, Event.disabled?])
  have closing : Event.Chained ((e.lastRun config).closingEvents (e.setting config)) :=
    Event.chained_of_quiet fun event member => (Run.quiet_closingEvents event member).2.1
  rw [infer_log]
  exact (opening.append rounds).append closing

/-- Every snapshot shows the candidates that have not fallen before it as true. -/
theorem log_shows (e : Engine σ) (config : Config) :
    Event.Throughout (Event.Shows e.candidates) (e.infer config).2.1 := by
  let s := e.setting config
  let P : List Event → Run σ → Prop := fun log run =>
    Event.Throughout (Event.Shows e.candidates) log ∧ run.Tracks s (log.filterMap Event.disabled?)
  have step : ∀ (log : List Event) (run : Run σ) (current : Nat),
      run.worklist.peek? = some current → P log run →
      P (log ++ (run.step s current).1) (run.step s current).2 := by
    rintro log run current - ⟨shows, tracks⟩
    refine ⟨shows.append (tracks.shows current), ?_⟩
    rw [List.filterMap_append]
    exact tracks.step current
  have opening : P e.openingEvents (Run.start s e.pool) := by
    refine ⟨Event.throughout_of_forall ?_, Run.tracks_start s e.pool⟩
    rintro event member before a rfl
    simp [openingEvents] at member
  rw [infer_log]
  apply (Run.finish_log_preserves step opening).1.append
  apply Event.throughout_of_forall
  rintro event member before a rfl
  rcases Run.mem_closingEvents member with flushed | last
  · cases flushed
  · cases last

theorem replay_log (prepared : Prepared program oracle e) {config : Config}
    (spin : config.schedule = .spin) :
    Event.replay (program.implementations.map (·.name.value)) (e.infer config).2.1 = some [] := by
  let s := e.setting config
  have rounds : (e.lastRun config).Orderly s ∧
      Event.replay (program.implementations.map (·.name.value))
        (e.openingEvents ++ ((Run.start s e.pool).finish s).1) =
          some ((e.lastRun config).queue s) := by
    apply Run.finish_log_preserves (P := fun log run => run.Orderly s ∧
      Event.replay (program.implementations.map (·.name.value)) log = some (run.queue s))
    · rintro log run current head ⟨orderly, replayed⟩
      refine ⟨orderly.step prepared.build head, ?_⟩
      rw [Event.replay_append replayed]
      exact Run.replay_step prepared.build spin orderly head
    · refine ⟨Run.orderly_start _ _, ?_⟩
      rw [Run.queue_start prepared.build]
      rfl
  have empty : (e.lastRun config).queue s = [] := by
    rw [Run.queue, worklist_lastRun]
    rfl
  rw [infer_log, Event.replay_append rounds.2, empty]
  apply Event.replay_of_still
  intro event member
  rcases Run.mem_closingEvents member with rfl | rfl <;> rfl

/-- The log of a run begins and ends once; in between it tells of the rounds, numbered from
    0 on, of the assignment of each and of its outcome. The falls so far account for the
    assignments, a refutation for each fall, and, where the schedule does not rotate, the
    events for what is queued. -/
theorem log_determines_run (prepared : Prepared program oracle e) (config : Config) :
    let s := e.setting config
    let result := (e.infer config).1
    let log := (e.infer config).2.1
    let rounds := (Run.start s e.pool).visits s
    let names := program.implementations.map (·.name.value)
    (∃ inner : List Event, log = .start e.candidates.names.length ::
        (inner ++ [.finish result.finish result.iterations]) ∧
      ∀ event ∈ inner, event.isBound = false) ∧
    log.filter Event.isMark = (rounds.flatMap fun (id, run) =>
      [.iterationBegin run.iterations, .assignmentSnapshot run.assignment,
        .outcomeRecorded (s.graph.name id) (run.verdict s id).outcome]) ∧
    rounds.map (fun (_, run) => run.iterations) = List.range result.iterations ∧
    (∀ (before : List Event) (a : Assignment) (after : List Event),
      log = before ++ .assignmentSnapshot a :: after →
      a.entries = e.candidates.names.map fun name =>
        (name, !(before.filterMap Event.disabled?).contains name)) ∧
    (result.assignment.entries = e.candidates.names.map fun name =>
      (name, !(log.filterMap Event.disabled?).contains name)) ∧
    (∀ (before : List Event) (constant : String) (after : List Event),
      log = before ++ .candidateDisabled constant :: after →
      ∃ implementation r, before.getLast? = some (.candidateRefuted implementation r) ∧
        r.constant = constant) ∧
    (config.schedule = .spin →
      Event.replay names log = some [] ∧
      ∀ before after : List Event, log = before ++ after →
        ∃ queue, Event.replay names before = some queue ∧ queue.Nodup) := by
  intro s result log rounds names
  obtain ⟨numbered, total⟩ := Run.iterations_visits s (Run.start s e.pool)
  refine ⟨?_, ?_, ?_, ?_, ?_, ?_, ?_⟩
  · exact log_bounds e config
  · exact log_marks e config
  · have count : result.iterations = rounds.length := total.trans (Nat.zero_add _)
    rw [count, List.range_eq_range']
    exact numbered
  · intro before a after same
    exact log_shows e config before _ after same a rfl
  · rw [← Assignment.entries_disableAll_allTrue]
    exact (tracks_lastRun e config).entries
  · intro before constant after same
    have chained := chained_log e config
    rw [show (e.infer config).2.1 = _ from same] at chained
    exact chained.getLast?
  · intro spin
    have replayed := replay_log prepared spin
    refine ⟨replayed, ?_⟩
    intro before after same
    rw [show (e.infer config).2.1 = _ from same] at replayed
    have distinct : ((Run.start s e.pool).queue s).Nodup :=
      Run.nodup_queue prepared.build (Run.orderly_start s e.pool).valid
    rw [Run.queue_start prepared.build] at distinct
    exact Event.nodup_replay distinct replayed

/-- Replies for the guarded call: the callee refutes `Q`, which concerns its caller. -/
def returningReplies : Dictionary (List Replay.Reply) := .ofList
  [("Callee",
    [⟨⟨.errors, [⟨.postcondition, .guarded "Q" "r > 0", .none, []⟩]⟩, none, none, none⟩])]

/-- The caller of the guarded call leaves, comes back when `Q` falls, and leaves again. -/
theorem log_determines_run_guardedCall :
    ∃ e, setUp Program.guardedCall (Replay.oracle returningReplies none) = .ok e ∧
      (e.infer .standard).2.1[5]? = some (.dequeue "Caller") ∧
      (e.infer .standard).2.1[12]? = some (.enqueue "Caller") ∧
      ((e.infer .standard).1.assignment.entries = e.candidates.names.map fun name =>
        (name, !((e.infer .standard).2.1.filterMap Event.disabled?).contains name)) ∧
      Event.replay ["Caller", "Callee"] (e.infer .standard).2.1 = some [] := by
  have prepared : Prepared Program.guardedCall (Replay.oracle returningReplies none) _ :=
    .setUp rfl
  obtain ⟨-, -, -, -, final, -, queue⟩ := log_determines_run prepared .standard
  exact ⟨_, rfl, by cbv, by cbv, final, (queue rfl).1⟩

end Engine

end InvariantInference
