import Mathlib
import InvariantInference.Proofs.Engine.Invariant

/-!
# The log of a run

The events of a run are those of its rounds, one round after the other. A round
first reports what it verifies and what came out, and then tells how it reacts.
The part that takes care is the reaction to refutations: `Refinement.Told` says
how the events of the refutations so far go with the candidates that fell and
the implementations that were queued.
-/

namespace InvariantInference

namespace Event

/-- The events of a round up to its verdict. -/
def isReport : Event → Bool
  | iterationBegin _ | implementationSelected _ | assignmentSnapshot _ | exceptionSeen _ _
  | outcomeRecorded _ _ => true
  | _ => false

/-- The events that refutations lead to. -/
def isRefinement : Event → Bool
  | candidateRefuted _ _ | candidateDisabled _ | enqueue _ => true
  | _ => false

/-- The events of a round after its verdict. -/
def isReaction : Event → Bool
  | dequeue _ | flushBegin => true
  | event => event.isRefinement

theorem isReaction_of_isRefinement {event : Event} (refinement : event.isRefinement) :
    event.isReaction := by
  cases event <;> first | rfl | cases refinement

/-- If the later event is a fall, the earlier one is a refutation of the candidate. -/
def Follows (earlier later : Event) : Prop :=
  ∀ constant, later = candidateDisabled constant →
    ∃ implementation refutation, earlier = candidateRefuted implementation refutation ∧
      refutation.constant = constant

theorem follows_of_disabled?_eq_none {earlier later : Event} (other : later.disabled? = none) :
    Follows earlier later := by
  rintro constant rfl
  cases other

/-- Every fall follows a refutation, whatever stands before the log. -/
def Chained (log : List Event) : Prop := ∀ earlier, (earlier :: log).IsChain Follows

/-- Where nothing falls there is nothing to follow. -/
theorem chained_of_quiet {log : List Event} (quiet : ∀ event ∈ log, event.disabled? = none) :
    Chained log := by
  induction log with
  | nil => exact .singleton
  | cons event log ih =>
    rw [List.forall_mem_cons] at quiet
    intro earlier
    exact .cons_cons (follows_of_disabled?_eq_none quiet.1) (ih quiet.2 event)

theorem chained_pair (implementation : String) (r : Refutation) :
    Chained [candidateRefuted implementation r, candidateDisabled r.constant] := by
  intro earlier
  refine .cons_cons (follows_of_disabled?_eq_none rfl) (List.isChain_pair.mpr ?_)
  intro constant same
  cases same
  exact ⟨implementation, r, rfl, rfl⟩

theorem Chained.append {log more : List Event} (first : Chained log) (second : Chained more) :
    Chained (log ++ more) := by
  intro earlier
  rw [← List.cons_append, List.isChain_append]
  refine ⟨first earlier, (second earlier).tail, ?_⟩
  intro last _ next member
  exact (List.isChain_cons.mp (second last)).1 next member

/-- In such a log a refutation of a candidate stands right before its fall. -/
theorem Chained.getLast? {before after : List Event} {constant : String}
    (chained : Chained (before ++ candidateDisabled constant :: after)) :
    ∃ implementation r, before.getLast? = some (candidateRefuted implementation r) ∧
      r.constant = constant := by
  have chain := chained flushBegin
  rw [← List.cons_append, List.isChain_append] at chain
  have follows := fun last member => chain.2.2 last member _ rfl constant rfl
  rcases List.eq_nil_or_concat before with rfl | ⟨earlier, last, rfl⟩
  · obtain ⟨_, _, same, _⟩ := follows flushBegin rfl
    cases same
  · obtain ⟨implementation, r, rfl, same⟩ := follows last (by simp [List.getLast?_cons])
    exact ⟨implementation, r, by simp, same⟩

theorem mem_filterMap_enqueued? {log : List Event} {name : String} :
    name ∈ log.filterMap enqueued? ↔ enqueue name ∈ log := by
  rw [List.mem_filterMap]
  constructor
  · rintro ⟨event, member, found⟩
    cases event <;> cases found
    exact member
  · intro member
    exact ⟨_, member, rfl⟩

theorem mem_filterMap_disabled? {log : List Event} {constant : String} :
    constant ∈ log.filterMap disabled? ↔ candidateDisabled constant ∈ log := by
  rw [List.mem_filterMap]
  constructor
  · rintro ⟨event, member, found⟩
    cases event <;> cases found
    exact member
  · intro member
    exact ⟨_, member, rfl⟩

end Event

/-! ## Refutations -/

namespace Refinement

variable {g : CallGraph} {b : Blacklist} {current : Nat}

/-- The implementations that one more refutation adds to the worklist. -/
def newcomers (g : CallGraph) (b : Blacklist) (current : Nat) (s : Refinement) (r : Refutation) :
    List Nat :=
  if r.constant ∈ (refute g b current s r).fell then
    (s.worklist.enqueueAll b (g.affected current r.annotation)).1
  else []

/-- The events of one more refutation. -/
def news (g : CallGraph) (b : Blacklist) (current : Nat) (s : Refinement) (r : Refutation) :
    List Event :=
  .candidateRefuted (g.name current) r ::
    ((if s.assignment.canFall r.constant then [.candidateDisabled r.constant] else []) ++
      (newcomers g b current s r).map (fun id => .enqueue (g.name id)))

theorem events_refute (s : Refinement) (r : Refutation) :
    (refute g b current s r).events = s.events ++ news g b current s r := by
  have added : (if (refute g b current s r).fell.contains r.constant then
      s.worklist.enqueueAll b (g.affected current r.annotation) else ([], s.worklist)).1 =
        newcomers g b current s r := by
    rw [newcomers, apply_ite Prod.fst]
    simp only [List.contains_eq_mem, decide_eq_true_eq]
  rw [news, ← added, ← List.cons_append, ← List.append_assoc]
  rfl

theorem ids_refute (s : Refinement) (r : Refutation) :
    (refute g b current s r).worklist.ids = s.worklist.ids ++ newcomers g b current s r ∧
      ∀ id ∈ newcomers g b current s r, b.contains id = false := by
  rw [worklist_refute, newcomers]
  split
  · rw [Worklist.enqueueAll_eq]
    refine ⟨rfl, fun id added => ?_⟩
    rw [List.mem_eraseDups, List.mem_filter, Worklist.admits_iff] at added
    simpa [Blacklist.contains] using added.2.2
  · simp

theorem disabled?_news (s : Refinement) (r : Refutation) :
    (news g b current s r).filterMap Event.disabled? =
      if s.assignment.canFall r.constant then [r.constant] else [] := by
  have enqueued : ∀ ids : List Nat,
      (ids.map fun id => Event.enqueue (g.name id)).filterMap Event.disabled? = [] := by
    intro ids
    simp [List.filterMap_eq_nil_iff, Event.disabled?]
  rw [news, List.filterMap_cons_none rfl, List.filterMap_append, enqueued, List.append_nil]
  split <;> rfl

theorem enqueued?_news (s : Refinement) (r : Refutation) :
    (news g b current s r).filterMap Event.enqueued? =
      (newcomers g b current s r).map g.name := by
  have enqueued : ∀ ids : List Nat,
      (ids.map fun id => Event.enqueue (g.name id)).filterMap Event.enqueued? =
        ids.map g.name := by
    intro ids
    rw [List.filterMap_map]
    exact congrFun List.filterMap_eq_map' ids
  rw [news, List.filterMap_cons_none rfl, List.filterMap_append, enqueued]
  split <;> rfl

theorem isRefinement_news (s : Refinement) (r : Refutation) :
    ∀ event ∈ news g b current s r, event.isRefinement := by
  intro event member
  rw [news, List.mem_cons, List.mem_append, List.mem_map] at member
  rcases member with rfl | falls | ⟨id, -, rfl⟩
  · rfl
  · split at falls
    · rw [List.mem_singleton.mp falls]
      rfl
    · cases falls
  · rfl

theorem chained_news (s : Refinement) (r : Refutation) :
    Event.Chained (news g b current s r) := by
  have enqueued : Event.Chained
      ((newcomers g b current s r).map fun id => Event.enqueue (g.name id)) :=
    Event.chained_of_quiet (by simp [Event.disabled?])
  rw [news]
  split
  · -- The one event that has to follow another one stands right behind it.
    exact (Event.chained_pair _ r).append enqueued
  · have refuted : Event.Chained [.candidateRefuted (g.name current) r] :=
      Event.chained_of_quiet (by simp [Event.disabled?])
    exact refuted.append enqueued

/-- How the events of the refutations so far go with what these have done: they tell
    which candidates of the assignment `a` fell, each once, and what was added to the
    worklist `w`, in order. -/
structure Told (g : CallGraph) (b : Blacklist) (a : Assignment) (w : Worklist) (s : Refinement) :
    Prop where
  kinds : ∀ event ∈ s.events, event.isRefinement
  disabled : s.events.filterMap Event.disabled? = s.fell
  assignment : s.assignment = a.disableAll s.fell
  distinct : s.fell.Nodup
  enqueued : ∃ added, s.worklist.ids = w.ids ++ added ∧
    s.events.filterMap Event.enqueued? = added.map g.name ∧ ∀ id ∈ added, b.contains id = false
  chained : Event.Chained s.events

theorem Told.refute {a : Assignment} {w : Worklist} {s : Refinement} (told : Told g b a w s)
    (r : Refutation) : Told g b a w (refute g b current s r) := by
  obtain ⟨kinds, disabled, assignment, distinct, ⟨added, ids, names, admitted⟩, chained⟩ := told
  obtain ⟨ids', admitted'⟩ := @ids_refute g b current s r
  refine ⟨?_, ?_, ?_, ?_, ⟨added ++ newcomers g b current s r, ?_, ?_, ?_⟩, ?_⟩
  · rw [events_refute]
    exact List.forall_mem_append.mpr ⟨kinds, isRefinement_news s r⟩
  · rw [events_refute, List.filterMap_append, disabled, disabled?_news, fell_refute]
    split
    · rfl
    · exact List.append_nil _
  · rw [assignment_refute, fell_refute]
    split
    · rw [Assignment.disableAll_append, ← assignment]
      rfl
    · rename_i stays
      rw [Assignment.disable_of_not_canFall stays, assignment]
  · rw [fell_refute]
    split
    · rename_i falls
      rw [assignment, Assignment.canFall_disableAll] at falls
      exact List.concat_eq_append ▸ distinct.concat falls.2
    · exact distinct
  · rw [ids', ids, List.append_assoc]
  · rw [events_refute, List.filterMap_append, names, enqueued?_news, List.map_append]
  · exact List.forall_mem_append.mpr ⟨admitted, admitted'⟩
  · rw [events_refute]
    exact chained.append (chained_news s r)

/-- All refutations of a round. -/
theorem told_refuteAll (a : Assignment) (w : Worklist) (refuted : List Refutation) :
    Told g b a w (refuteAll g b current (start a w) refuted) := by
  suffices general : ∀ s : Refinement,
      Told g b a w s → Told g b a w (refuteAll g b current s refuted) by
    apply general
    exact ⟨by simp [start], rfl, rfl, List.nodup_nil, ⟨[], by simp [start]⟩, .singleton⟩
  induction refuted with
  | nil =>
    intro s told
    exact told
  | cons r refuted ih =>
    intro s told
    exact ih _ (told.refute r)

end Refinement

/-! ## Rounds -/

namespace Run

variable {σ : Type} {s : Setting} {current : Nat} {verdict : Classified} {run next : Run σ}
  {told : List Event}

theorem told_refinement (s : Setting) (current : Nat) (verdict : Classified) (run : Run σ) :
    Refinement.Told s.graph run.blacklist run.assignment run.worklist
      (run.refinement s current verdict) :=
  Refinement.told_refuteAll _ _ _

theorem Response.isReaction (response : Response s current verdict run told next) :
    ∀ event ∈ told, event.isReaction := by
  have refinement : ∀ event ∈ (run.refinement s current verdict).events, event.isReaction :=
    fun event member => Event.isReaction_of_isRefinement
      ((told_refinement s current verdict run).kinds event member)
  cases response with
  | leave | timeout | flush => simp [Event.isReaction]
  | stay => exact refinement
  | settle =>
    rw [List.forall_mem_append, List.forall_mem_singleton]
    exact ⟨refinement, rfl⟩

/-- What a response queues is an implementation that is not blacklisted; it does so
    because of errors, and never in a flush. -/
theorem Response.of_enqueue {name : String} (response : Response s current verdict run told next)
    (member : .enqueue name ∈ told) :
    run.phase ≠ .flushing ∧ verdict.outcome = .errors ∧
      ∃ id ∈ (run.refined s current verdict).worklist.ids,
        s.graph.name id = name ∧ run.blacklist.contains id = false := by
  have refined : .enqueue name ∈ (run.refinement s current verdict).events →
      ∃ id ∈ (run.refined s current verdict).worklist.ids,
        s.graph.name id = name ∧ run.blacklist.contains id = false := by
    intro told
    obtain ⟨added, ids, names, admitted⟩ := (told_refinement s current verdict run).enqueued
    rw [← Event.mem_filterMap_enqueued?, names, List.mem_map] at told
    obtain ⟨id, new, named⟩ := told
    refine ⟨id, ?_, named, admitted id new⟩
    rw [Run.refined, ids]
    exact List.mem_append_right _ new
  cases response with
  | leave | timeout | flush => simp at member
  | stay active outcome => exact ⟨active, outcome, refined member⟩
  | settle active outcome =>
    refine ⟨active, outcome, refined ?_⟩
    simpa using member

variable [Session σ]

/-- The events of the next round before its outcome is recorded. -/
def preamble (s : Setting) (current : Nat) (run : Run σ) : List Event :=
  run.openingEvents s current ++
    (run.judge s (run.answer s current)).2.map (.exceptionSeen (s.graph.name current))

/-- The events of the next round up to its outcome. -/
def report (s : Setting) (current : Nat) (run : Run σ) : List Event :=
  run.preamble s current ++
    [.outcomeRecorded (s.graph.name current) (run.verdict s current).outcome]

theorem step_fst (s : Setting) (current : Nat) (run : Run σ) :
    (run.step s current).1 = run.report s current ++
      ((run.recorded s current).react s current (run.verdict s current)).1 := by
  rw [report, List.append_assoc, List.singleton_append]
  rfl

/-- A round reports, and then tells how it reacts. -/
theorem step_told (s : Setting) (current : Nat) (run : Run σ) :
    ∃ told, (run.step s current).1 = run.report s current ++ told ∧
      Response s current (run.verdict s current) (run.recorded s current) told
        (run.step s current).2 :=
  ⟨_, step_fst s current run, react_responds s current _ _⟩

theorem mem_preamble {event : Event} (member : event ∈ run.preamble s current) :
    event = .iterationBegin run.iterations ∨
      event = .implementationSelected (s.graph.name current) ∨
      event = .assignmentSnapshot run.assignment ∨
      ∃ message, event = .exceptionSeen (s.graph.name current) message := by
  simp only [preamble, openingEvents, List.mem_append, List.mem_cons, List.mem_map,
    List.not_mem_nil, or_false] at member
  rcases member with ((first | selected) | snapshot) | ⟨message, -, rfl⟩
  · exact .inl first
  · split at selected
    · cases selected
    · exact .inr (.inl (List.mem_singleton.mp selected))
  · exact .inr (.inr (.inl snapshot))
  · exact .inr (.inr (.inr ⟨message, rfl⟩))

theorem mem_report {event : Event} :
    event ∈ run.report s current ↔ event ∈ run.preamble s current ∨
      event = .outcomeRecorded (s.graph.name current) (run.verdict s current).outcome := by
  rw [report, List.mem_append, List.mem_singleton]

theorem isReport_report {event : Event} (member : event ∈ run.report s current) :
    event.isReport := by
  rcases mem_report.mp member with before | rfl
  · rcases mem_preamble before with rfl | rfl | rfl | ⟨message, rfl⟩ <;> rfl
  · rfl

/-- A report tells nothing of what the events of a report do not tell of. -/
theorem filterMap_report {α : Type} {f : Event → Option α}
    (silent : ∀ event : Event, event.isReport → f event = none) :
    (run.report s current).filterMap f = [] := by
  apply List.filterMap_eq_nil_iff.mpr
  intro event member
  exact silent event (isReport_report member)

theorem disabled?_report : (run.report s current).filterMap Event.disabled? = [] := by
  apply filterMap_report
  intro event report
  cases event <;> first | rfl | cases report

theorem enqueued?_report : (run.report s current).filterMap Event.enqueued? = [] := by
  apply filterMap_report
  intro event report
  cases event <;> first | rfl | cases report

theorem selected?_report (active : run.phase ≠ .spinning) :
    (run.report s current).filterMap Event.selected? = [s.graph.name current] := by
  rw [report, preamble, openingEvents, if_neg active]
  simp [Event.selected?, List.filterMap_cons]

/-! ## Runs -/

/-- The rounds to come, each with its implementation and the state before it. -/
def visits (s : Setting) (run : Run σ) : List (Nat × Run σ) :=
  match _head : run.worklist.peek? with
  | none => []
  | some current => (current, run) :: visits s (run.step s current).2
termination_by (run.phase.rank, run.assignment.countTrue, run.worklist.ids.length)
decreasing_by
  have nonempty : run.worklist.ids ≠ [] := List.ne_nil_of_mem (Worklist.mem_of_peek? _head)
  have closer := step_closer s current run nonempty
  simp only [Prod.lex_def]
  exact closer

theorem visits_of_empty (empty : run.worklist.peek? = none) : run.visits s = [] := by
  rw [visits]
  split
  · rfl
  · rename_i head
    rw [empty] at head
    cases head

theorem visits_of_head (head : run.worklist.peek? = some current) :
    run.visits s = (current, run) :: (run.step s current).2.visits s := by
  rw [visits]
  split
  · rename_i empty
    rw [head] at empty
    cases empty
  · rename_i other head'
    rw [head] at head'
    cases head'
    rfl

/-- The events from a state on are those of the rounds to come. -/
theorem finish_fst (s : Setting) (run : Run σ) :
    (run.finish s).1 = (run.visits s).flatMap fun visit => (visit.2.step s visit.1).1 := by
  fun_induction finish s run with
  | case1 run empty => rw [visits_of_empty empty, List.flatMap_nil]
  | case2 run current head round rest ih => rw [visits_of_head head, List.flatMap_cons, ← ih]

theorem finish_fst_of_head (head : run.worklist.peek? = some current) :
    (run.finish s).1 = (run.step s current).1 ++ ((run.step s current).2.finish s).1 := by
  rw [finish_fst, visits_of_head head, List.flatMap_cons, ← finish_fst]

/-- What each round preserves, together with the log so far, a sequence of rounds preserves. -/
theorem Rounds.log_preserves {P : List Event → Run σ → Prop}
    (step : ∀ (log : List Event) (run : Run σ) (current : Nat),
      run.worklist.peek? = some current → P log run →
      P (log ++ (run.step s current).1) (run.step s current).2)
    {n : Nat} {first : Run σ} (rounds : Rounds s n first run) {log : List Event}
    (initial : P log first) :
    ∃ more, (first.finish s).1 = more ++ (run.finish s).1 ∧ P (log ++ more) run := by
  induction rounds generalizing log with
  | done run => exact ⟨[], rfl, (List.append_nil log).symm ▸ initial⟩
  | @round n first last current head rest ih =>
    obtain ⟨more, same, holds⟩ := ih (step log first current head initial)
    refine ⟨(first.step s current).1 ++ more, ?_, ?_⟩
    · rw [finish_fst_of_head head, same, List.append_assoc]
    · rw [← List.append_assoc]
      exact holds

/-- What each round preserves, together with the log so far, holds at the end of a run. -/
theorem finish_log_preserves {P : List Event → Run σ → Prop}
    (step : ∀ (log : List Event) (run : Run σ) (current : Nat),
      run.worklist.peek? = some current → P log run →
      P (log ++ (run.step s current).1) (run.step s current).2)
    {log : List Event} (initial : P log run) : P (log ++ (run.finish s).1) (run.finish s).2 := by
  obtain ⟨n, rounds, empty⟩ := finish_rounds s run
  obtain ⟨more, same, holds⟩ := rounds.log_preserves step initial
  have last : (run.finish s).2.worklist.peek? = none := by simp [Worklist.peek?, empty]
  have nothing : ((run.finish s).2.finish s).1 = [] := by
    rw [finish_fst, visits_of_empty last, List.flatMap_nil]
  rw [nothing, List.append_nil] at same
  rw [same]
  exact holds

end Run

theorem Run.mem_closingEvents {σ : Type} {s : Setting} {run : Run σ} {event : Event}
    (member : event ∈ run.closingEvents s) :
    event = .flushEnd ∨ event = .finish (run.reportedEnd s) run.iterations := by
  rw [closingEvents, List.mem_append, List.mem_singleton] at member
  rcases member with flushed | last
  · split at flushed
    · cases flushed
    · exact .inl (List.mem_singleton.mp flushed)
  · exact .inr last

namespace Engine

variable {σ : Type} [Session σ]

/-- The log of a run is made of the opening events, those of its rounds and the closing ones. -/
theorem infer_log (e : Engine σ) (config : Config) :
    (e.infer config).2.1 = e.openingEvents ++
      ((Run.start (e.setting config) e.pool).finish (e.setting config)).1 ++
      (e.lastRun config).closingEvents (e.setting config) := rfl

end Engine

end InvariantInference
