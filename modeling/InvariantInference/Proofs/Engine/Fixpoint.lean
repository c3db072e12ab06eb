import Mathlib
import InvariantInference.Proofs.Engine.History
import InvariantInference.Proofs.Engine.Sessions
import InvariantInference.Proofs.Model.Sites

/-!
# Outcomes at a fixpoint

At a fixpoint the outcomes on record are up to date, although an implementation
may have been verified long before the last candidate fell. When a candidate
falls, its condition stands at one site. An implementation that takes the
condition at this site on trust is queued again; all others check it before
they assume it, and stay correct. So at all times whatever is recorded as
correct and is not queued passes under the current assignment.
-/

namespace InvariantInference

open Model (oracle Passes Owes Trusts)

/-! ## Outcomes on record -/

namespace Ledger

variable (l : Ledger) (name other : String)

/-- A round enters its outcome and leaves those of all other implementations. -/
theorem outcome_record (outcome : Outcome) (genuine : List Counterexample) :
    ((l.record name outcome genuine).get? other).map (·.outcome) =
      if other = name then some outcome else (l.get? other).map (·.outcome) := by
  rw [get?, record, Dictionary.get?_alter]
  split
  · cases l.records.get? name <;> rfl
  · rfl

/-- Refutations are entered without a change of outcomes. -/
theorem outcome_refuted (refutations : List Refutation) :
    ((l.refuted name refutations).get? other).map (·.outcome) =
      (l.get? other).map (·.outcome) := by
  unfold refuted
  split
  · rfl
  · rename_i r found
    rw [get?, Dictionary.get?_insert]
    split
    · rename_i same
      rw [same, found]
      rfl
    · rfl

end Ledger

namespace Run

variable {σ : Type} {s : Setting} {current : Nat} {run next : Run σ}

/-- The outcome on record of an implementation. -/
def outcome? (run : Run σ) (name : String) : Option Outcome :=
  (run.ledger.get? name).map (·.outcome)

/-- A reaction changes no outcome. -/
theorem Reaction.outcome_eq {verdict : Classified} (reaction : Reaction s current verdict run next)
    (name : String) : next.outcome? name = run.outcome? name := by
  have refined : (run.refined s current verdict).outcome? name = run.outcome? name :=
    Ledger.outcome_refuted run.ledger (s.graph.name current) name verdict.refuted
  obtain ⟨_, response⟩ := reaction
  cases response with
  | stay =>
    rw [← refined]
    unfold Run.stay
    split <;> rfl
  | settle => exact refined
  | _ => rfl

/-- A round records its outcome, and no other one changes. -/
theorem step_outcome [Session σ] (s : Setting) (current : Nat) (run : Run σ) (name : String) :
    (run.step s current).2.outcome? name =
      if name = s.graph.name current then some (run.verdict s current).outcome
      else run.outcome? name :=
  ((step_cases s current run).outcome_eq name).trans
    (Ledger.outcome_record run.ledger (s.graph.name current) name _ _)

/-- A conclusive outcome is the one that the session answered. -/
theorem answer_of_outcome [Session σ] {outcome : Outcome}
    (found : (run.verdict s current).outcome = outcome) (conclusive : outcome ≠ .inconclusive) :
    ∃ v : Verdict, run.answer s current = .ok v ∧ v.outcome = outcome := by
  have judged : (Classified.ofAnswer s.candidates (run.answer s current)).1.outcome = outcome := by
    rw [verdict, judge_fst] at found
    split at found
    · exact found
    · unfold Classified.requireProgress at found
      split at found
      · exact absurd found.symm conclusive
      · exact found
  cases answered : run.answer s current with
  | error fault =>
    rw [answered] at judged
    exact absurd judged.symm conclusive
  | ok v =>
    rw [answered, Classified.ofAnswer] at judged
    split at judged
    · exact absurd judged.symm conclusive
    · exact ⟨v, rfl, judged⟩

end Run

/-! ## Sessions that at most time out -/

/-- Every script makes its session time out. -/
def Model.OnlyTimeouts (scripts : Dictionary Script) : Prop :=
  ∀ name script, scripts.get? name = some script → script.forced = some .timedOut

/-- A session answers with its walk, or has a script and times out. -/
theorem Model.OnlyTimeouts.answer {scripts : Dictionary Script} (timeouts : OnlyTimeouts scripts)
    {session : Model.Session} {name : String}
    (script : session.script = (scripts.get? name).getD .plain) {hypothesis : Expr} {v : Verdict}
    (answered : (Session.verifyUnder session hypothesis).1 = .ok v) :
    scripts.get? name = none ∧ v = (session.under hypothesis).evaluate ∨
      scripts.get? name ≠ none ∧ v.outcome = .timedOut := by
  cases found : scripts.get? name with
  | none =>
    rw [found] at script
    rw [Session.verifyUnder_plain script] at answered
    exact .inl ⟨rfl, (Except.ok.inj answered).symm⟩
  | some forcing =>
    have forced : session.script.forced = some .timedOut := by
      rw [script, found]
      exact timeouts name forcing found
    rw [Session.verifyUnder_eq, forced] at answered
    simp only at answered
    split at answered
    · cases answered
    · cases answered
      exact .inr ⟨by simp, rfl⟩

/-- An implementation that takes on trust what another one owes and fails to make
    sure of is affected by the refutation. -/
theorem CallGraph.mem_affected_of_trusts {program : Program} {g : CallGraph}
    (built : build program = .ok g) {u v : Nat} {i j : Implementation}
    (first : program.implementations[u]? = some i) (second : program.implementations[v]? = some j)
    {cs : Candidates} {c : Counterexample} {r : Refutation} (refutes : cs.refutation? c = some r)
    {site : Site} (owes : Owes program i c.kind site) (trusts : Trusts program j site) :
    v ∈ g.affected u r.annotation := by
  rw [mem_affected_iff built first second]
  obtain ⟨kind, annotated, rfl⟩ := Option.map_eq_some_iff.mp refutes
  obtain ⟨constant, -, rfl⟩ := Option.map_eq_some_iff.mp annotated
  generalize c.kind = kind at owes
  cases owes with
  | precondition called found required strict =>
    rw [Program.name_of_procedure? found] at trusts
    rcases trusts.realizes_or_free with same | free
    · exact .callee called same
    · rw [strict] at free
      cases free
  | postcondition found ensured =>
    rw [Program.name_of_procedure? found] at trusts
    obtain ⟨callee, called, same⟩ := trusts.calls
    exact .caller called same.symm
  | assertion command => exact absurd trusts Model.not_trusts_assert

/-! ## What is on record and not queued is up to date -/

namespace Run

variable {scripts : Dictionary Script} {program : Program} {s : Setting}
  {run : Run Model.Session} {current : Nat} {i j : Implementation} {id : Nat}

/-- What a round finds out about the implementation that it verifies. -/
theorem Proper.verified (proper : run.Proper scripts program s)
    (built : CallGraph.build program = .ok s.graph) (timeouts : Model.OnlyTimeouts scripts)
    (place : program.implementations[current]? = some i) :
    ((run.verdict s current).outcome = .correct →
      scripts.get? i.name.value = none ∧ Passes program i run.assignment) ∧
    ((run.verdict s current).outcome = .timedOut → scripts.get? i.name.value ≠ none) := by
  obtain ⟨session, idle, script, answer⟩ :=
    proper.ready.answer (List.mem_of_getElem? place) run.assignment.hypothesis
  have answered : ∀ {outcome : Outcome}, (run.verdict s current).outcome = outcome →
      outcome ≠ .inconclusive → ∃ v : Verdict, v.outcome = outcome ∧
        (Session.verifyUnder session run.assignment.hypothesis).1 = .ok v := by
    intro outcome found conclusive
    obtain ⟨v, answered, same⟩ := answer_of_outcome found conclusive
    rw [Run.answer, CallGraph.name_of_build built place, answer] at answered
    exact ⟨v, same, answered⟩
  constructor
  · intro found
    obtain ⟨v, correct, answered⟩ := answered found (by decide)
    rcases timeouts.answer script answered with ⟨plain, rfl⟩ | ⟨-, timedOut⟩
    · exact ⟨plain, (Model.passes_iff idle).mpr ((Model.Session.evaluate_correct_iff _).mp correct)⟩
    · rw [timedOut] at correct
      cases correct
  · intro found
    obtain ⟨v, timedOut, answered⟩ := answered found (by decide)
    rcases timeouts.answer script answered with ⟨-, rfl⟩ | ⟨scripted, -⟩
    · rw [Model.Session.evaluate, Verdict.ofErrors] at timedOut
      simp only at timedOut
      split at timedOut <;> cases timedOut
    · exact scripted

/-- Implementations that a refutation does not affect check what its candidate guards
    before they assume it. -/
theorem Proper.checked_of_refuted (proper : run.Proper scripts program s)
    (built : CallGraph.build program = .ok s.graph) (distinct : s.candidates.names.Nodup)
    (horn : program.GuardedHorn s.candidates) (exclusive : program.Exclusive s.candidates)
    (head : run.worklist.peek? = some current) {r : Refutation}
    (refuted : r ∈ (run.verdict s current).refuted)
    (place : program.implementations[id]? = some j)
    (spared : id ∉ s.graph.affected current r.annotation) {session : Model.Session}
    (idle : session.Idle program j) : Model.Step.Checked r.constant session.bodySteps := by
  obtain ⟨i, refuting, origin, declared, idle', ⟨before, later, split, -⟩, refutes⟩ :=
    proper.violates_of_refuted built distinct horn head refuted
  have obligation : .check r.counterexample ∈ refuting.bodySteps := by simp [split]
  obtain ⟨site, owes, condition⟩ := (idle'.of declared).owes obligation
  rw [idle'.implementation] at owes
  obtain ⟨span, premise, conclusion, shape, named, candidate⟩ :=
    Candidates.guard_of_refutation? refutes
  have mentioned : site.mentions r.constant := by
    have guarded := Expr.isGuardedBy_iff.mpr ⟨span, premise, conclusion, shape, named⟩
    simpa [Site.mentions, condition] using Expr.mentions_of_isGuardedBy guarded
  have once := exclusive r.constant (by simpa [Candidates.contains] using candidate)
  have declared' := List.mem_of_getElem? place
  refine (idle.of declared').checked fun site' trusts mentioned' => spared ?_
  rw [idle.implementation] at trusts
  have same : site' = site := Program.site_unique once (trusts.mem_sites declared')
    (owes.mem_sites declared) mentioned' mentioned
  exact CallGraph.mem_affected_of_trusts built origin place refutes owes (same ▸ trusts)

/-- An implementation that is neither blacklisted nor queued after the refutations of a
    round was not queued before, and checks all that the fallen candidates guard before it
    assumes it. -/
theorem Proper.checked_of_absent (proper : run.Proper scripts program s)
    (built : CallGraph.build program = .ok s.graph) (distinct : s.candidates.names.Nodup)
    (horn : program.GuardedHorn s.candidates) (exclusive : program.Exclusive s.candidates)
    (head : run.worklist.peek? = some current)
    (place : program.implementations[id]? = some j) {session : Model.Session}
    (idle : session.Idle program j) (admitted : run.blacklist.contains id = false)
    (absent :
      id ∉ ((run.recorded s current).refined s current (run.verdict s current)).worklist.ids) :
    id ∉ run.worklist.ids ∧
      ∀ name ∈ Refinement.constants (run.verdict s current).refuted,
        run.assignment.canFall name → Model.Step.Checked name session.bodySteps := by
  have queued := mt ((round_progress s current run).queued id).mpr absent
  push Not at queued
  refine ⟨queued.1, fun name member falls => ?_⟩
  obtain ⟨r, refuted, rfl⟩ := List.mem_map.mp member
  refine proper.checked_of_refuted built distinct horn exclusive head refuted place
    (fun affected => ?_) idle
  exact queued.2 r refuted falls affected admitted

/-- What is recorded as correct has no script, and passes unless it is queued again.
    Only implementations with a script are kept from the queue. -/
structure Settled (scripts : Dictionary Script) (program : Program) (run : Run Model.Session) :
    Prop where
  scripted : ∀ {id : Nat} {j : Implementation}, program.implementations[id]? = some j →
    run.blacklist.contains id → scripts.get? j.name.value ≠ none
  plain : ∀ {id : Nat} {j : Implementation}, program.implementations[id]? = some j →
    run.outcome? j.name.value = some .correct → scripts.get? j.name.value = none
  passes : ∀ {id : Nat} {j : Implementation}, program.implementations[id]? = some j →
    run.outcome? j.name.value = some .correct → id ∉ run.worklist.ids →
    Passes program j run.assignment

/-- Implementations that the refutations of a round do not queue still pass after it. -/
theorem Settled.passes_refined (settled : run.Settled scripts program)
    (proper : run.Proper scripts program s) (built : CallGraph.build program = .ok s.graph)
    (distinct : s.candidates.names.Nodup) (horn : program.GuardedHorn s.candidates)
    (exclusive : program.Exclusive s.candidates) (head : run.worklist.peek? = some current)
    (place : program.implementations[id]? = some j)
    (correct : run.outcome? j.name.value = some .correct)
    (absent :
      id ∉ ((run.recorded s current).refined s current (run.verdict s current)).worklist.ids) :
    Passes program j
      ((run.recorded s current).refined s current (run.verdict s current)).assignment := by
  have declared := List.mem_of_getElem? place
  obtain ⟨session, -, idle, -⟩ := proper.ready j declared
  have admitted : run.blacklist.contains id = false := by
    by_contra black
    exact settled.scripted place (by simpa using black) (settled.plain place correct)
  obtain ⟨waiting, checked⟩ :=
    proper.checked_of_absent built distinct horn exclusive head place idle admitted absent
  have before := (Model.passes_iff_silent horn declared idle proper.names distinct).mp
    (settled.passes place correct waiting)
  rw [round_assignment, Model.passes_iff_silent horn declared idle
    ((Assignment.names_disableAll _ _).trans proper.names) distinct]
  exact Model.silent_disableAll horn declared idle proper.names before checked

/-- An outcome on record after a round was found in it or stood there before. -/
theorem outcome_cases (built : CallGraph.build program = .ok s.graph)
    (origin : program.implementations[current]? = some i)
    (place : program.implementations[id]? = some j) {outcome : Outcome}
    (found : (run.step s current).2.outcome? j.name.value = some outcome) :
    id = current ∧ (run.verdict s current).outcome = outcome ∨
      id ≠ current ∧ run.outcome? j.name.value = some outcome := by
  rw [step_outcome, CallGraph.name_of_build built origin] at found
  split at found
  · rename_i same
    exact .inl ⟨CallGraph.place_unique built place origin same, Option.some.inj found⟩
  · rename_i other
    refine .inr ⟨?_, found⟩
    rintro rfl
    rw [origin] at place
    cases place
    exact other rfl

section Step

variable (settled : run.Settled scripts program) (proper : run.Proper scripts program s)
  (built : CallGraph.build program = .ok s.graph) (timeouts : Model.OnlyTimeouts scripts)

include settled proper built timeouts

/-- What a round has to keep so that the record stays up to date: about the
    implementation that it verified the verdict says enough. -/
theorem Settled.of_others (origin : program.implementations[current]? = some i)
    (scripted : ∀ {id : Nat} {j : Implementation}, program.implementations[id]? = some j →
      (run.step s current).2.blacklist.contains id → scripts.get? j.name.value ≠ none)
    (own : (run.verdict s current).outcome = .correct →
      (run.step s current).2.assignment = run.assignment)
    (others : ∀ {id : Nat} {j : Implementation}, program.implementations[id]? = some j →
      run.outcome? j.name.value = some .correct → id ≠ current →
      id ∉ (run.step s current).2.worklist.ids →
      Passes program j (run.step s current).2.assignment) :
    (run.step s current).2.Settled scripts program := by
  refine ⟨scripted, fun place correct => ?_, fun place correct absent => ?_⟩
  · rcases outcome_cases built origin place correct with ⟨rfl, found⟩ | ⟨-, before⟩
    · exact ((proper.verified built timeouts place).1 found).1
    · exact settled.plain place before
  · rcases outcome_cases built origin place correct with ⟨rfl, found⟩ | ⟨other, before⟩
    · rw [own found]
      exact ((proper.verified built timeouts place).1 found).2
    · exact others place before other absent

/-- A round keeps the record up to date, or starts the flush. -/
theorem Settled.step (distinct : s.candidates.names.Nodup)
    (horn : program.GuardedHorn s.candidates) (exclusive : program.Exclusive s.candidates)
    (head : run.worklist.peek? = some current) :
    (run.step s current).2.phase = .flushing ∨
      (run.step s current).2.Settled scripts program := by
  obtain ⟨i, origin, -, -⟩ := proper.implementation built head
  have settles := settled.of_others proper built timeouts origin
  have first : ((run.recorded s current).refined s current
      (run.verdict s current)).worklist.peek? = some current :=
    peek?_refined head _
  have waiting : ∀ {id : Nat} {j : Implementation}, program.implementations[id]? = some j →
      run.outcome? j.name.value = some .correct → id ≠ current → id ∉ run.worklist.dequeue.ids →
      Passes program j run.assignment :=
    fun place before other absent => settled.passes place before fun queued =>
      absent (Worklist.mem_dequeue_of_ne head queued other)
  have reaction := step_cases s current run
  generalize (run.step s current).2 = next at settles reaction ⊢
  obtain ⟨_, response⟩ := reaction
  cases response with
  | leave quiet => exact .inr (settles settled.scripted (fun _ => rfl) waiting)
  | timeout _ timedOut =>
    refine .inr (settles (fun place black => ?_) (fun _ => rfl) waiting)
    rcases Blacklist.contains_insert.mp black with rfl | known
    · exact (proper.verified built timeouts place).2 timedOut
    · exact settled.scripted place known
  | flush => exact .inl rfl
  | stay _ errors =>
    refine .inr (settles (fun place black => ?_) (fun correct => ?_)
      fun place before _ absent => ?_)
    · rw [stay_blacklist] at black
      exact settled.scripted place black
    · cases errors.symm.trans correct
    · rw [stay_assignment]
      exact settled.passes_refined proper built distinct horn exclusive head place before
        (mt mem_stay.mpr absent)
  | settle _ errors =>
    refine .inr (settles settled.scripted (fun correct => ?_) fun place before other absent => ?_)
    · cases errors.symm.trans correct
    · exact settled.passes_refined proper built distinct horn exclusive head place before
        fun queued => absent (Worklist.mem_dequeue_of_ne first queued other)

end Step

theorem settled_start (pool : SessionPool Model.Session) :
    (start s pool).Settled scripts program where
  scripted _ black := by cases black
  plain _ correct := by cases correct
  passes _ correct := by cases correct

end Run

/-- At a fixpoint every implementation on record as correct is opened without a
    script, and passes under the last assignment. -/
theorem Engine.recorded_correct_passes {program : Program} {scripts : Dictionary Script}
    {e : Engine Model.Session} (prepared : Prepared program (oracle scripts) e)
    (horn : program.GuardedHorn e.candidates) (exclusive : program.Exclusive e.candidates)
    (timeouts : Model.OnlyTimeouts scripts) (config : Config)
    (fixpoint : (e.infer config).1.termination = .fixpoint) :
    ∀ i ∈ program.implementations, (e.infer config).1.outcome? i.name.value = some .correct →
      oracle scripts program i = oracle .empty program i ∧
        Passes program i (e.infer config).1.assignment := by
  have distinct := Candidates.nodup_names_collect prepared.collect
  have last : (e.lastRun config).Proper scripts program (e.setting config) ∧
      ((e.lastRun config).phase = .flushing ∨ (e.lastRun config).Settled scripts program) := by
    refine Run.finish_preserves
      (P := fun run => run.Proper scripts program (e.setting config) ∧
        (run.phase = .flushing ∨ run.Settled scripts program))
      (fun run current head ⟨proper, upToDate⟩ => ⟨proper.step prepared.build head, ?_⟩)
      ⟨Run.proper_start prepared.ready, .inr (Run.settled_start e.pool)⟩
    rcases upToDate with flushing | settled
    · exact .inl (Run.step_flushing flushing)
    · exact settled.step proper prepared.build timeouts distinct horn exclusive head
  have settled := last.2.resolve_left (active_of_fixpoint fixpoint)
  intro i declared correct
  obtain ⟨id, place⟩ := List.mem_iff_getElem?.mp declared
  refine ⟨?_, settled.passes place correct (by simp [worklist_lastRun])⟩
  have plain : scripts.get? i.name.value = none := settled.plain place correct
  rw [oracle, oracle, plain]
  rfl

/-- In the guarded call the caller refutes `P` and is correct without it; the record
    is up to date although the callee never answers in time. -/
theorem Engine.recorded_correct_passes_guardedCall :
    ∃ e, setUp Program.guardedCall
        (oracle (.ofList [("Callee", ⟨some .timedOut, none, .session⟩)])) = .ok e ∧
      (e.infer .standard).1.termination = .fixpoint ∧
      (e.infer .standard).1.assignment.get? "P" = some false ∧
      (e.infer .standard).1.outcome? "Caller" = some .correct ∧
      Passes Program.guardedCall Program.guardedCaller (e.infer .standard).1.assignment := by
  refine ⟨_, rfl, by cbv, by cbv, by cbv, ?_⟩
  refine (recorded_correct_passes (.setUp rfl) ⟨Program.parsed_guardedCall, by decide⟩
    (by unfold Program.Exclusive; decide) ?_ .standard (by cbv) Program.guardedCaller (by decide)
    (by cbv)).2
  intro name script found
  obtain ⟨-, rfl⟩ : name = "Callee" ∧ script = ⟨some .timedOut, none, .session⟩ := by
    rw [Dictionary.ofList, List.foldl_cons, List.foldl_nil, Dictionary.get?_insert] at found
    split at found
    · rename_i same
      exact ⟨same, (Option.some.inj found).symm⟩
    · cases found
  rfl

end InvariantInference
