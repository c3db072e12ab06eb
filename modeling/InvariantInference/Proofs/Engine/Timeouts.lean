import Mathlib
import InvariantInference.Proofs.Engine.Fixpoint
import InvariantInference.Proofs.Engine.Log
import InvariantInference.Session.Replay

/-!
# Timeouts are final

An implementation that timed out is done with for the rest of the run. Outside a
flush it is blacklisted when it leaves the worklist, and what is blacklisted is
never queued, whoever refutes what. In a flush it is not blacklisted; there
nothing is queued any more. `Run.Retired` covers both.
-/

namespace InvariantInference

namespace Event

/-- The event selects an implementation, queues it, or records an outcome of it. -/
def Engages (name : String) (event : Event) : Prop :=
  event.selected? = some name ∨ event.enqueued? = some name ∨
    ∃ outcome, event.outcome? = some (name, outcome)

/-- After a timeout of an implementation no event engages it. -/
def Respects (earlier later : Event) : Prop :=
  ∀ name, earlier = outcomeRecorded name .timedOut → ¬ later.Engages name

theorem enqueue_of_engages {event : Event} {name : String} (reaction : event.isReaction)
    (engages : event.Engages name) : event = enqueue name := by
  rcases engages with selected | enqueued | ⟨outcome, recorded⟩
  · cases event <;> cases selected
    cases reaction
  · cases event <;> cases enqueued
    rfl
  · cases event <;> cases recorded
    cases reaction

end Event

namespace Run

variable {σ : Type} {s : Setting} {current id : Nat} {verdict : Classified} {run next : Run σ}

/-- An implementation that is not queued and will not be. -/
structure Retired (id : Nat) (run : Run σ) : Prop where
  absent : id ∉ run.worklist.ids
  barred : run.phase = .flushing ∨ run.blacklist.contains id = true

theorem Retired.notMem_refined (retired : run.Retired id) (active : run.phase ≠ .flushing) :
    id ∉ (run.refined s current verdict).worklist.ids := by
  intro member
  rcases ((progress_refinement s current verdict run).queued id).mp member with
    queued | ⟨_, _, _, _, admitted⟩
  · exact retired.absent queued
  · rw [retired.barred.resolve_left active] at admitted
    cases admitted

theorem Reaction.retired (reaction : Reaction s current verdict run next)
    (retired : run.Retired id) : next.Retired id := by
  have absent : id ∉ run.worklist.dequeue.ids :=
    fun member => retired.absent (List.mem_of_mem_tail member)
  obtain ⟨_, response⟩ := reaction
  cases response with
  | leave => exact ⟨absent, retired.barred.imp_left nextPhase_eq_flushing.mpr⟩
  | timeout active =>
    have black := retired.barred.resolve_left active
    exact ⟨absent, .inr (Blacklist.contains_insert.mpr (.inr black))⟩
  | flush => exact ⟨absent, .inl rfl⟩
  | stay active =>
    refine ⟨fun member => retired.notMem_refined active (mem_stay.mp member), .inr ?_⟩
    rw [stay_blacklist]
    exact retired.barred.resolve_left active
  | settle active =>
    refine ⟨fun member => ?_, .inr (retired.barred.resolve_left active)⟩
    exact retired.notMem_refined active (List.mem_of_mem_tail member)

/-- A timeout retires the implementation, in a flush or not. -/
theorem Reaction.retired_of_timedOut (reaction : Reaction s current verdict run next)
    (orderly : run.Orderly s) (head : run.worklist.peek? = some current)
    (timedOut : verdict.outcome = .timedOut) : next.Retired current := by
  have absent := Worklist.notMem_dequeue orderly.valid head
  obtain ⟨_, response⟩ := reaction
  cases response with
  | leave quiet =>
    have flushing := quiet.resolve_right fun other => other.2 timedOut
    exact ⟨absent, .inl (nextPhase_eq_flushing.mpr flushing)⟩
  | timeout => exact ⟨absent, .inr (Blacklist.contains_insert.mpr (.inl rfl))⟩
  | flush _ outcome | stay _ outcome | settle _ outcome =>
    rw [timedOut] at outcome
    cases outcome

theorem Retired.ne_head (retired : run.Retired id) (head : run.worklist.peek? = some current) :
    id ≠ current := by
  rintro rfl
  exact retired.absent (Worklist.mem_of_peek? head)

variable [Session σ] {program : Program}

theorem Retired.step (retired : run.Retired id) (current : Nat) :
    (run.step s current).2.Retired id :=
  (step_cases s current run).retired ⟨retired.absent, retired.barred⟩

/-- A round leaves the outcome of what is retired. -/
theorem Retired.step_outcome (retired : run.Retired id)
    (built : CallGraph.build program = .ok s.graph) (orderly : run.Orderly s)
    (below : id < s.graph.size) (head : run.worklist.peek? = some current) :
    (run.step s current).2.outcome? (s.graph.name id) = run.outcome? (s.graph.name id) := by
  rw [Run.step_outcome, if_neg]
  intro same
  have bound := orderly.valid.bounded current (Worklist.mem_of_peek? head)
  exact retired.ne_head head (CallGraph.id_eq_of_name_eq built below bound same)

theorem Rounds.retired {n : Nat} {last : Run σ} (rounds : Rounds s n run last)
    (retired : run.Retired id) : last.Retired id :=
  rounds.preserves (fun _ current _ retired => retired.step current) retired

theorem Rounds.outcome_of_retired {n : Nat} {last : Run σ} (rounds : Rounds s n run last)
    (built : CallGraph.build program = .ok s.graph) (orderly : run.Orderly s)
    (below : id < s.graph.size) (retired : run.Retired id) :
    last.outcome? (s.graph.name id) = run.outcome? (s.graph.name id) := by
  induction rounds with
  | done => rfl
  | @round n run last current head rest ih =>
    rw [ih (orderly.step built head) (retired.step current)]
    exact retired.step_outcome built orderly below head

/-- The report of a round engages only the implementation that is verified. -/
theorem name_of_engages {event : Event} {name : String} (member : event ∈ run.report s current)
    (engages : event.Engages name) : s.graph.name current = name := by
  rcases engages with selected | enqueued | ⟨outcome, recorded⟩
  · rcases mem_report.mp member with before | rfl
    · rcases mem_preamble before with rfl | rfl | rfl | ⟨message, rfl⟩ <;> cases selected
      rfl
    · cases selected
  · have report := isReport_report member
    cases event <;> cases enqueued
    cases report
  · rcases mem_report.mp member with before | rfl
    · rcases mem_preamble before with rfl | rfl | rfl | ⟨message, rfl⟩ <;> cases recorded
    · cases recorded
      rfl

/-- No event of a round engages an implementation that is retired. -/
theorem Retired.not_engages (retired : run.Retired id)
    (built : CallGraph.build program = .ok s.graph) (orderly : run.Orderly s)
    (below : id < s.graph.size) (head : run.worklist.peek? = some current) :
    ∀ event ∈ (run.step s current).1, ¬ event.Engages (s.graph.name id) := by
  obtain ⟨told, events, response⟩ := step_told s current run
  intro event member engages
  rw [events, List.mem_append] at member
  rcases member with reported | reacted
  · have bound := orderly.valid.bounded current (Worklist.mem_of_peek? head)
    have same := name_of_engages reported engages
    exact retired.ne_head head (CallGraph.id_eq_of_name_eq built below bound same.symm)
  · rw [Event.enqueue_of_engages (response.isReaction event reacted) engages] at reacted
    obtain ⟨active, -, other, queued, named, admitted⟩ := response.of_enqueue reacted
    have bound := (valid_refined built (orderly.recorded current).valid current _).bounded
      other queued
    have same := CallGraph.id_eq_of_name_eq built bound below named
    subst same
    have black : run.blacklist.contains other = true := retired.barred.resolve_left active
    have free : run.blacklist.contains other = false := admitted
    rw [free] at black
    cases black

/-- After a timeout a round only says that the implementation leaves. -/
theorem respects_step (s : Setting) (current : Nat) (run : Run σ) :
    (run.step s current).1.Pairwise Event.Respects := by
  obtain ⟨told, events, response⟩ := step_told s current run
  have unrecorded : ∀ {log : List Event}, (∀ event ∈ log, event.outcome? = none) →
      log.Pairwise Event.Respects := by
    intro log none
    refine List.pairwise_of_forall_mem_list fun earlier member later _ name recorded => ?_
    cases recorded
    cases none _ member
  have before : ∀ event ∈ run.preamble s current, event.outcome? = none := by
    intro event member
    rcases mem_preamble member with rfl | rfl | rfl | ⟨message, rfl⟩ <;> rfl
  have after : ∀ event ∈ told, event.outcome? = none := by
    intro event member
    have reaction := response.isReaction event member
    cases event <;> first | rfl | cases reaction
  rw [events, report, List.append_assoc, List.pairwise_append, List.singleton_append,
    List.pairwise_cons]
  refine ⟨unrecorded before, ⟨?_, unrecorded after⟩, ?_⟩
  · intro later reacted name timedOut engages
    rw [Event.enqueue_of_engages (response.isReaction later reacted) engages] at reacted
    obtain ⟨-, errors, -⟩ := response.of_enqueue reacted
    rw [errors] at timedOut
    cases timedOut
  · intro earlier member later _ name recorded
    cases recorded
    cases before _ member

/-- What the log so far says about timeouts: no event after one engages its
    implementation, which is retired and has this outcome on record. -/
structure Final (s : Setting) (log : List Event) (run : Run σ) : Prop where
  orderly : run.Orderly s
  respects : log.Pairwise Event.Respects
  retired : ∀ name, .outcomeRecorded name .timedOut ∈ log → ∃ id < s.graph.size,
    s.graph.name id = name ∧ run.Retired id ∧ run.outcome? name = some .timedOut

theorem outcome_of_mem_step {name : String} {outcome : Outcome}
    (member : .outcomeRecorded name outcome ∈ (run.step s current).1) :
    name = s.graph.name current ∧ outcome = (run.verdict s current).outcome := by
  obtain ⟨told, events, response⟩ := step_told s current run
  rw [events, List.mem_append] at member
  rcases member with reported | reacted
  · rcases mem_report.mp reported with early | same
    · rcases mem_preamble early with same | same | same | ⟨message, same⟩ <;> cases same
    · cases same
      exact ⟨rfl, rfl⟩
  · cases response.isReaction _ reacted

theorem Final.step {log : List Event} (final : Final s log run)
    (built : CallGraph.build program = .ok s.graph) (head : run.worklist.peek? = some current) :
    Final s (log ++ (run.step s current).1) (run.step s current).2 := by
  obtain ⟨orderly, respects, retired⟩ := final
  refine ⟨orderly.step built head, ?_, ?_⟩
  · rw [List.pairwise_append]
    refine ⟨respects, respects_step s current run, ?_⟩
    intro earlier before later now name recorded
    subst recorded
    obtain ⟨id, below, rfl, gone, -⟩ := retired name before
    exact gone.not_engages built orderly below head later now
  · intro name recorded
    rcases List.mem_append.mp recorded with before | now
    · obtain ⟨id, below, rfl, gone, outcome⟩ := retired name before
      exact ⟨id, below, rfl, gone.step current,
        (gone.step_outcome built orderly below head).trans outcome⟩
    · obtain ⟨rfl, timedOut⟩ := outcome_of_mem_step now
      refine ⟨current, orderly.valid.bounded current (Worklist.mem_of_peek? head), rfl, ?_, ?_⟩
      · exact (step_cases s current run).retired_of_timedOut (orderly.recorded current) head
          timedOut.symm
      · rw [step_outcome, if_pos rfl, ← timedOut]

end Run

namespace Engine

variable {σ : Type} [Session σ] {program : Program} {oracle : Oracle σ} {e : Engine σ}

theorem final_lastRun (prepared : Prepared program oracle e) (config : Config) :
    Run.Final (e.setting config) (e.openingEvents ++
      ((Run.start (e.setting config) e.pool).finish (e.setting config)).1)
      (e.lastRun config) := by
  refine Run.finish_log_preserves (fun log run current head final => ?_) ?_
  · exact final.step prepared.build head
  · exact ⟨Run.orderly_start _ _, List.pairwise_singleton _ _, by simp [openingEvents]⟩

/-- Once a round has recorded a timeout of an implementation, no later round verifies it and
    no later event engages it, so the timeout is its last outcome; and no state between two
    rounds, in a flush or not, has an implementation of the blacklist in the worklist. -/
theorem timeout_is_final (prepared : Prepared program oracle e) (config : Config) :
    let s := e.setting config
    (∀ (n : Nat) (run : Run σ), Run.Rounds s n (Run.start s e.pool) run →
      ∀ id ∈ run.worklist.ids, run.blacklist.contains id = false) ∧
    (∀ (id : Nat) (run : Run σ),
      Run.RoundOn s (Run.start s e.pool) (e.lastRun config) id run →
      (run.step s id).2.outcome? (s.graph.name id) = some .timedOut →
      (∀ later, ¬ Run.RoundOn s (run.step s id).2 (e.lastRun config) id later) ∧
        (e.infer config).1.outcome? (s.graph.name id) = some .timedOut) ∧
    ∀ (before after : List Event) (name : String),
      (e.infer config).2.1 = before ++ .outcomeRecorded name .timedOut :: after →
      (∀ event ∈ after, ¬ event.Engages name) ∧
        (e.infer config).1.outcome? name = some .timedOut := by
  intro s
  refine ⟨fun n run rounds => (prepared.orderly rounds).admitted, ?_, ?_⟩
  · rintro id run ⟨⟨m, before⟩, head, n, after⟩ recorded
    have orderly := prepared.orderly before
    have below := orderly.valid.bounded id (Worklist.mem_of_peek? head)
    have timedOut : (run.verdict s id).outcome = .timedOut := by
      rw [Run.step_outcome, if_pos rfl] at recorded
      exact Option.some.inj recorded
    have retired : (run.step s id).2.Retired id :=
      (Run.step_cases s id run).retired_of_timedOut (orderly.recorded id) head timedOut
    constructor
    · rintro later ⟨⟨k, rounds⟩, again, -⟩
      exact (rounds.retired retired).ne_head again rfl
    · have kept := after.outcome_of_retired prepared.build (orderly.step prepared.build head)
        below retired
      exact kept.trans recorded
  · intro before after name split
    obtain ⟨-, respects, retired⟩ := final_lastRun prepared config
    have closing : ∀ event ∈ (e.lastRun config).closingEvents s, event.outcome? = none ∧
        ∀ name, ¬ event.Engages name := by
      intro event member
      rcases Run.mem_closingEvents member with rfl | rfl <;>
        simp [Event.Engages, Event.selected?, Event.enqueued?, Event.outcome?]
    have ordered : (e.infer config).2.1.Pairwise Event.Respects := by
      rw [infer_log, List.pairwise_append]
      refine ⟨respects, ?_, ?_⟩
      · exact List.pairwise_of_forall_mem_list fun _ _ later member name _ =>
          (closing later member).2 name
      · exact fun _ _ later member name _ => (closing later member).2 name
    have recorded : .outcomeRecorded name .timedOut ∈ (e.infer config).2.1 := by
      rw [split]
      exact List.mem_append_right _ List.mem_cons_self
    constructor
    · intro event member
      rw [split, List.pairwise_append, List.pairwise_cons] at ordered
      exact ordered.2.1.1 event member name rfl
    · rw [infer_log, List.mem_append] at recorded
      rcases recorded with before | last
      · obtain ⟨id, -, -, -, outcome⟩ := retired name before
        exact outcome
      · cases (closing _ last).1

/-- Replies for the guarded call: the caller refutes `P`, and `Q` the next time; the callee
    times out. -/
def tardyReplies : Dictionary (List Replay.Reply) := .ofList
  [("Caller",
    [⟨⟨.errors, [⟨.precondition "Callee", .guarded "P" "x > 0", .none, []⟩]⟩, none, none, none⟩,
      ⟨⟨.errors, [⟨.precondition "Callee", .guarded "Q" "r > 0", .none, []⟩]⟩, none, none, none⟩]),
    ("Callee", [⟨.ofOutcome .timedOut, none, none, none⟩])]

/-- Where the schedule rotates, the callee of the guarded call times out before `Q` falls. It
    is affected by that, and is not queued again. -/
theorem timeout_is_final_guardedCall :
    ∃ e, setUp Program.guardedCall (Replay.oracle tardyReplies none) = .ok e ∧
      ∃ log, log = (e.infer ⟨false, .roundRobin, .abnormal⟩).2.1 ∧
        log[10]? = some (.outcomeRecorded "Callee" .timedOut) ∧
        log[17]? = some (.candidateDisabled "Q") ∧
        (∀ event ∈ log.drop 11, ¬ event.Engages "Callee") ∧
        (e.infer ⟨false, .roundRobin, .abnormal⟩).1.outcome? "Callee" = some .timedOut := by
  have parts : ∀ {log : List Event} {event : Event}, log[10]? = some event →
      log = log.take 10 ++ event :: log.drop 11 := by
    intro log event found
    obtain ⟨bound, rfl⟩ := List.getElem?_eq_some_iff.mp found
    rw [List.getElem_cons_drop, List.take_append_drop]
  have prepared : Prepared Program.guardedCall (Replay.oracle tardyReplies none) _ := .setUp rfl
  refine ⟨_, rfl, _, rfl, by cbv, by cbv, ?_⟩
  exact (timeout_is_final prepared ⟨false, .roundRobin, .abnormal⟩).2.2 _ _ "Callee"
    (parts (by cbv))

end Engine

end InvariantInference
