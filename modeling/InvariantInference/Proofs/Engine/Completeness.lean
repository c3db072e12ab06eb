import Mathlib
import InvariantInference.Proofs.Engine.Attribution
import InvariantInference.Proofs.Engine.Fixpoint

/-!
# Refutations at a fixpoint

A round that refutes a candidate keeps its implementation in the worklist, unless
it also finds a genuine violation. So an implementation leaves with nothing left
to refute, but for those that leave with such a mixed verdict: an obligation that
failed is assumed from then on, and may hide the violation of another one until
its own candidate has fallen. What falls in the rounds of other implementations
makes no difference, since whoever is affected is queued again.
-/

namespace InvariantInference

open Model (oracle RefutesNone)

namespace Run

/-! ## What a round finds out -/

section

variable {σ : Type} [Session σ] {s : Setting} {run : Run σ} {current : Nat}

/-- A verdict that refutes a true candidate is taken as it is. -/
theorem verdict_of_fresh {v : Verdict} {c : Counterexample} {r : Refutation}
    (answered : run.answer s current = .ok v) (reported : c ∈ v.errors)
    (refutes : s.candidates.refutation? c = some r)
    (holds : run.assignment.get? r.constant = some true) :
    run.verdict s current = .ofVerdict s.candidates v := by
  have nonempty : v.errors.isEmpty = false := by
    rw [List.isEmpty_eq_false_iff]
    exact List.ne_nil_of_mem reported
  have whole : Classified.ofAnswer s.candidates (.ok v) = (.ofVerdict s.candidates v, []) := by
    simp [Classified.ofAnswer, nonempty]
  have refuted : r ∈ (Classified.ofVerdict s.candidates v).refuted :=
    List.mem_filterMap.mpr ⟨c, reported, refutes⟩
  have fresh : (Classified.ofVerdict s.candidates v).isFresh run.assignment = true :=
    List.any_eq_true.mpr ⟨r, refuted, decide_eq_true holds⟩
  rw [verdict, judge_fst, answered, whole]
  simp [Classified.requireProgress, fresh]

end

variable {program : Program} {s : Setting} {first run : Run Model.Session} {current id : Nat}
  {i j : Implementation}

/-- A round refutes every true candidate that guards a violated obligation. -/
theorem Proper.refuted_of_violates (proper : run.Proper .empty program s)
    (built : CallGraph.build program = .ok s.graph) (distinct : s.candidates.names.Nodup)
    (horn : program.GuardedHorn s.candidates)
    (place : program.implementations[current]? = some i) {session : Model.Session}
    (idle : session.Idle program i) {name : String} {failure : Counterexample}
    (holds : run.assignment.get? name = some true) (guarded : failure.condition.isGuardedBy name)
    (violates : Model.Step.Violates run.assignment.get? session.bodySteps failure) :
    (run.verdict s current).outcome = .errors ∧
      ∃ r ∈ (run.verdict s current).refuted, r.constant = name := by
  have declared := List.mem_of_getElem? place
  have candidate : s.candidates.contains name := by
    simpa [Candidates.contains, proper.names] using Assignment.mem_names_of_get? holds
  obtain ⟨r, refutes, rfl⟩ := Candidates.exists_refutation?_iff.mpr ⟨guarded, candidate⟩
  obtain ⟨session', idle', script, answer⟩ :=
    proper.ready.answer declared run.assignment.hypothesis
  have answered : run.answer s current =
      .ok (session'.under run.assignment.hypothesis).evaluate := by
    rw [Run.answer, CallGraph.name_of_build built place, answer]
    exact Model.Session.verifyUnder_plain script _
  have reported : failure ∈ (session'.under run.assignment.hypothesis).evaluate.errors := by
    rw [Model.Session.mem_errors_under_iff horn declared idle' proper.names distinct,
      idle'.bodySteps_eq idle]
    exact violates
  rw [verdict_of_fresh answered reported refutes holds]
  exact ⟨Model.Session.evaluate_errors reported, r,
    List.mem_filterMap.mpr ⟨failure, reported, refutes⟩, rfl⟩

/-- Where a round lets no candidate fall, its implementation refutes none. -/
theorem Proper.refutesNone_of_not_fell (proper : run.Proper .empty program s)
    (built : CallGraph.build program = .ok s.graph) (distinct : s.candidates.names.Nodup)
    (horn : program.GuardedHorn s.candidates)
    (place : program.implementations[current]? = some i) (active : run.assignment.frozen = false)
    (quiet : (run.verdict s current).outcome = .errors →
      ((run.recorded s current).refinement s current (run.verdict s current)).fell = []) :
    RefutesNone program s.candidates i run.assignment := by
  have declared := List.mem_of_getElem? place
  obtain ⟨session, -, idle, -⟩ := proper.ready i declared
  rw [Model.refutesNone_iff_unrefuted horn declared idle proper.names distinct]
  intro name holds failure guarded violates
  obtain ⟨errors, r, refuted, rfl⟩ :=
    proper.refuted_of_violates built distinct horn place idle holds guarded violates
  have could : run.assignment.canFall r.constant := by
    simp [Assignment.canFall, Assignment.isTrue, active, holds]
  have fell := ((round_progress s current run).fell r.constant).mpr
    ⟨List.mem_map_of_mem refuted, could⟩
  rw [quiet errors] at fell
  cases fell

/-- The outcome of the last verdict on an implementation is on record. -/
theorem LastVerdict.outcome_eq {scripts : Dictionary Script} {verdict : Classified}
    (last : LastVerdict s first id run verdict) (proper : first.Proper scripts program s)
    (built : CallGraph.build program = .ok s.graph) :
    ∃ j, program.implementations[id]? = some j ∧
      run.outcome? j.name.value = some verdict.outcome := by
  have properly : ∀ {n : Nat} {run : Run Model.Session}, Rounds s n first run →
      run.Proper scripts program s :=
    fun rounds => rounds.preserves (fun _ _ head proper => proper.step built head) proper
  induction last with
  | here before head =>
    obtain ⟨n, rounds⟩ := before
    obtain ⟨j, place, -, name⟩ := (properly rounds).implementation built head
    refine ⟨j, place, ?_⟩
    rw [step_outcome, name, if_pos rfl]
  | later before head other ih =>
    obtain ⟨j, place, recorded⟩ := ih
    obtain ⟨n, rounds⟩ := before.rounds
    obtain ⟨i, origin, -, name⟩ := (properly rounds).implementation built head
    have differs : j.name.value ≠ i.name.value := fun same =>
      other (CallGraph.place_unique built place origin same).symm
    refine ⟨j, place, ?_⟩
    rw [step_outcome, name, if_neg differs]
    exact recorded

/-! ## Implementations that have left -/

/-- Every implementation that is not queued was verified before; unless its last verdict
    is mixed, it refutes no candidate that is still true. Candidates can fall, and nobody
    is blacklisted. -/
structure Exhaustive (program : Program) (s : Setting) (first run : Run Model.Session) :
    Prop where
  reached : ∃ n, Rounds s n first run
  active : run.assignment.frozen = false
  admitted : ∀ id, run.blacklist.contains id = false
  visited : ∀ {id : Nat} {j : Implementation}, program.implementations[id]? = some j →
    id ∉ run.worklist.ids → ∃ v, LastVerdict s first id run v ∧
      (v.Mixed ∨ RefutesNone program s.candidates j run.assignment)

section Step

variable (exhaustive : Exhaustive program s first run) (proper : run.Proper .empty program s)
  (built : CallGraph.build program = .ok s.graph) (head : run.worklist.peek? = some current)

include exhaustive head

/-- What a round has to keep so that the implementations that have left stay exhausted:
    about the one that it verified the verdict says enough. -/
theorem Exhaustive.of_others (origin : program.implementations[current]? = some i)
    (active : (run.step s current).2.assignment.frozen = false)
    (admitted : ∀ id, (run.step s current).2.blacklist.contains id = false)
    (own : current ∉ (run.step s current).2.worklist.ids → (run.verdict s current).Mixed ∨
      RefutesNone program s.candidates i (run.step s current).2.assignment)
    (others : ∀ {id : Nat} {j : Implementation}, program.implementations[id]? = some j →
      id ≠ current → id ∉ (run.step s current).2.worklist.ids →
      RefutesNone program s.candidates j run.assignment →
      RefutesNone program s.candidates j (run.step s current).2.assignment) :
    Exhaustive program s first (run.step s current).2 := by
  obtain ⟨n, before⟩ := exhaustive.reached
  refine ⟨⟨n + 1, before.next head⟩, active, admitted, fun {id j} place absent => ?_⟩
  by_cases same : id = current
  · subst same
    rw [origin] at place
    cases place
    exact ⟨_, .here ⟨n, before⟩ head, own absent⟩
  · have waiting : id ∉ run.worklist.ids := fun queued =>
      absent ((step_cases s current run).mem_worklist head queued same)
    obtain ⟨v, last, known⟩ := exhaustive.visited place waiting
    exact ⟨v, last.later head (Ne.symm same), known.imp_right (others place same absent)⟩

include proper built

/-- An implementation that the refutations of a round do not queue refutes nothing after
    it if it did not before. -/
theorem Exhaustive.refutesNone_refined (distinct : s.candidates.names.Nodup)
    (horn : program.GuardedHorn s.candidates) (exclusive : program.Exclusive s.candidates)
    (place : program.implementations[id]? = some j)
    (absent :
      id ∉ ((run.recorded s current).refined s current (run.verdict s current)).worklist.ids)
    (before : RefutesNone program s.candidates j run.assignment) :
    RefutesNone program s.candidates j
      ((run.recorded s current).refined s current (run.verdict s current)).assignment := by
  have declared := List.mem_of_getElem? place
  obtain ⟨session, -, idle, -⟩ := proper.ready j declared
  obtain ⟨-, checked⟩ := proper.checked_of_absent built distinct horn exclusive head place idle
    (exhaustive.admitted id) absent
  rw [Model.refutesNone_iff_unrefuted horn declared idle proper.names distinct] at before
  rw [round_assignment, Model.refutesNone_iff_unrefuted horn declared idle
    ((Assignment.names_disableAll _ _).trans proper.names) distinct]
  exact Model.unrefuted_disableAll horn declared idle proper.names before checked

/-- A round keeps all that have left exhausted, or starts the flush. -/
theorem Exhaustive.step (distinct : s.candidates.names.Nodup)
    (horn : program.GuardedHorn s.candidates) (exclusive : program.Exclusive s.candidates) :
    (run.step s current).2.phase = .flushing ∨
      Exhaustive program s first (run.step s current).2 := by
  by_cases flushing : run.phase = .flushing
  · exact .inl (step_flushing flushing)
  obtain ⟨i, origin, -, -⟩ := proper.implementation built head
  have exhausts := exhaustive.of_others head origin
  have refined : ∀ {id : Nat} {j : Implementation}, program.implementations[id]? = some j →
      id ∉ ((run.recorded s current).refined s current (run.verdict s current)).worklist.ids →
      RefutesNone program s.candidates j run.assignment →
      RefutesNone program s.candidates j
        ((run.recorded s current).refined s current (run.verdict s current)).assignment :=
    exhaustive.refutesNone_refined proper built head distinct horn exclusive
  have quiet := proper.refutesNone_of_not_fell built distinct horn origin exhaustive.active
  have first : ((run.recorded s current).refined s current
      (run.verdict s current)).worklist.peek? = some current :=
    peek?_refined head _
  have active : ((run.recorded s current).refined s current
      (run.verdict s current)).assignment.frozen = false := by
    rw [round_assignment, Assignment.frozen_disableAll]
    exact exhaustive.active
  have reaction := step_cases s current run
  generalize (run.step s current).2 = next at exhausts reaction ⊢
  obtain ⟨_, response⟩ := reaction
  cases response with
  | leave silent =>
    have noErrors := (silent.resolve_left flushing).1
    exact .inr (exhausts exhaustive.active exhaustive.admitted
      (fun _ => .inr (quiet fun errors => absurd errors noErrors)) fun _ _ _ before => before)
  | timeout _ timedOut =>
    -- Without scripts no session times out.
    have scripted := (proper.verified built (fun _ _ found => nomatch found) origin).2 timedOut
    exact absurd rfl scripted
  | flush => exact .inl rfl
  | stay _ _ _ _ =>
    refine .inr (exhausts ?_ ?_ (fun absent => ?_) fun place _ absent before => ?_)
    · rw [stay_assignment]
      exact active
    · rw [stay_blacklist]
      exact exhaustive.admitted
    · exact absurd (mem_stay.mpr (Worklist.mem_of_peek? first)) absent
    · rw [stay_assignment]
      exact refined place (mt mem_stay.mpr absent) before
  | settle _ errors rest =>
    refine .inr (exhausts active exhaustive.admitted (fun _ => ?_)
      fun place other absent before => ?_)
    · -- Either nothing fell, and there is nothing to refute, or the verdict is mixed.
      by_cases fell : ((run.recorded s current).refinement s current
          (run.verdict s current)).fell = []
      · right
        rw [show (((run.recorded s current).refined s current
          (run.verdict s current)).leave s current).2.assignment = run.assignment from
          assignment_refined_of_not_fell fell]
        exact quiet fun _ => fell
      · exact .inl ⟨errors, rest.resolve_left fell, refuted_ne_nil_of_fell fell⟩
    · exact refined place
        (fun queued => absent (Worklist.mem_dequeue_of_ne first queued other)) before

end Step

theorem exhaustive_start (built : CallGraph.build program = .ok s.graph)
    (pool : SessionPool Model.Session) : Exhaustive program s (start s pool) (start s pool) := by
  refine ⟨⟨0, .done _⟩, rfl, fun _ => rfl, fun {id j} place absent => ?_⟩
  have below : id < s.graph.size := by
    rw [CallGraph.size_of_build built]
    exact (List.getElem?_eq_some_iff.mp place).1
  exact absurd (List.mem_eraseDups.mpr (List.mem_range.mpr below)) absent

end Run

namespace Engine

/-- At a fixpoint all implementations have left, and all but those with a mixed last
    verdict are exhausted. -/
theorem exhaustive_lastRun {program : Program} {e : Engine Model.Session}
    (prepared : Prepared program (oracle .empty) e) (horn : program.GuardedHorn e.candidates)
    (exclusive : program.Exclusive e.candidates) {config : Config}
    (fixpoint : (e.infer config).1.termination = .fixpoint) :
    Run.Exhaustive program (e.setting config) (Run.start (e.setting config) e.pool)
      (e.lastRun config) := by
  have distinct := Candidates.nodup_names_collect prepared.collect
  have last : (e.lastRun config).Proper .empty program (e.setting config) ∧
      ((e.lastRun config).phase = .flushing ∨ Run.Exhaustive program (e.setting config)
        (Run.start (e.setting config) e.pool) (e.lastRun config)) := by
    refine Run.finish_preserves
      (P := fun run => run.Proper .empty program (e.setting config) ∧
        (run.phase = .flushing ∨ Run.Exhaustive program (e.setting config)
          (Run.start (e.setting config) e.pool) run))
      (fun run current head ⟨proper, upToDate⟩ => ⟨proper.step prepared.build head, ?_⟩)
      ⟨Run.proper_start prepared.ready, .inr (Run.exhaustive_start prepared.build e.pool)⟩
    rcases upToDate with flushing | exhaustive
    · exact .inl (Run.step_flushing flushing)
    · exact exhaustive.step proper prepared.build head distinct horn exclusive
  exact last.2.resolve_left (active_of_fixpoint fixpoint)

/-- At a fixpoint every implementation has been verified and its last verdict is on record;
    unless this verdict was mixed the implementation refutes no candidate that is still
    true. -/
theorem refutesNone_unless_mixed {program : Program} {e : Engine Model.Session}
    (prepared : Prepared program (oracle .empty) e) (horn : program.GuardedHorn e.candidates)
    (exclusive : program.Exclusive e.candidates) (config : Config)
    (fixpoint : (e.infer config).1.termination = .fixpoint) :
    ∀ (id : Nat) (i : Implementation), program.implementations[id]? = some i →
      ∃ v, Run.LastVerdict (e.setting config) (Run.start (e.setting config) e.pool) id
          (e.lastRun config) v ∧
        (e.infer config).1.outcome? i.name.value = some v.outcome ∧
        (v.Mixed ∨ RefutesNone program e.candidates i (e.infer config).1.assignment) := by
  intro id i place
  have exhaustive := exhaustive_lastRun prepared horn exclusive fixpoint
  have left : id ∉ (e.lastRun config).worklist.ids := by
    rw [worklist_lastRun]
    exact List.not_mem_nil
  obtain ⟨v, last, known⟩ := exhaustive.visited place left
  obtain ⟨j, place', recorded⟩ :=
    last.outcome_eq (Run.proper_start prepared.ready) prepared.build
  rw [place] at place'
  cases place'
  exact ⟨v, last, recorded, known⟩

/-- In the guarded call the caller refutes `P` and then nothing more, with genuine
    violations tolerated. -/
theorem refutesNone_unless_mixed_guardedCall :
    ∃ e, setUp Program.guardedCall (oracle .empty) = .ok e ∧
      (e.infer ⟨true, .roundRobin, .abnormal⟩).1.termination = .fixpoint ∧
      (e.infer ⟨true, .roundRobin, .abnormal⟩).1.assignment.get? "P" = some false ∧
      RefutesNone Program.guardedCall e.candidates Program.guardedCaller
        (e.infer ⟨true, .roundRobin, .abnormal⟩).1.assignment := by
  refine ⟨_, rfl, by cbv, by cbv, ?_⟩
  obtain ⟨v, -, recorded, known⟩ := refutesNone_unless_mixed (.setUp rfl)
    ⟨Program.parsed_guardedCall, by decide⟩ (by unfold Program.Exclusive; decide)
    ⟨true, .roundRobin, .abnormal⟩ (by cbv) 0 Program.guardedCaller rfl
  have correct : some v.outcome = some .correct := recorded.symm.trans (by cbv)
  refine known.resolve_left fun mixed => ?_
  rw [mixed.1] at correct
  cases correct

end Engine

/-! ## A mixed verdict -/

/-- An implementation with one block, of the procedure of the same name. -/
def Implementation.ofCommands (name : String) (commands : List Command) : Implementation :=
  ⟨.none, .synthetic name, .synthetic name, [⟨.none, .synthetic "entry", commands⟩]⟩

namespace Program

/-- The first obligation fails and is assumed, which hides the failure of the second one;
    the failure of the third one is genuine. -/
def maskedCommands : List Command :=
  [.assert .none (.guarded "U" "a > 0"), .assert .none (.guarded "V" "a > 0"),
    .assert .none (.atom ⟨0, 5⟩ "b > 0")]

def maskedImplementation : Implementation := .ofCommands "Main" maskedCommands

def masked : Program :=
  ⟨[.candidate "U", .candidate "V", .procedure ⟨.none, .synthetic "Main", [], []⟩,
    .implementation maskedImplementation]⟩

theorem parsed_masked : ∀ e ∈ masked.conditions, e.Parsed :=
  Expr.parsed_of_texts ["U ==> a > 0", "V ==> a > 0", "b > 0"] (by cbv)

end Program

/-- The implementation leaves after the mixed verdict, and `V` stays true at the fixpoint
    under either schedule. But a fresh session refutes `V` there. -/
theorem Engine.mixed_verdict_hides_refutation :
    ∃ e, setUp Program.masked (oracle .empty) = .ok e ∧
      Program.masked.GuardedHorn e.candidates ∧ Program.masked.Exclusive e.candidates ∧
      ∀ schedule, (e.infer ⟨true, schedule, .abnormal⟩).1.termination = .fixpoint ∧
        (e.infer ⟨true, schedule, .abnormal⟩).1.assignment.get? "V" = some true ∧
        ∃ s verdict, oracle .empty Program.masked Program.maskedImplementation = .ok s ∧
          (Session.verifyUnder s
            (e.infer ⟨true, schedule, .abnormal⟩).1.assignment.hypothesis).1 = .ok verdict ∧
          ∃ c ∈ verdict.errors, ∃ r, e.candidates.refutation? c = some r ∧ r.constant = "V" := by
  refine ⟨_, rfl, ⟨Program.parsed_masked, by decide⟩, by unfold Program.Exclusive; decide, ?_⟩
  intro schedule
  cases schedule
  all_goals
    refine ⟨by cbv, by cbv, _, _, rfl, Model.Session.verifyUnder_plain rfl _,
      ⟨.assertion, .guarded "V" "a > 0", .none, ["entry"]⟩, ?_, _, rfl, rfl⟩
    cbv
    exact .head _

end InvariantInference
