import Mathlib
import InvariantInference.Proofs.Candidate
import InvariantInference.Proofs.Engine.Discipline
import InvariantInference.Proofs.Engine.Justification

/-!
# Runs without candidates

Without candidates every counterexample is genuine, nothing falls, and no
implementation is queued again. Such a run is plain verification: it verifies
each implementation once, under `true`, in the order of declaration. The options
decide which events tell of it and how the run ends, and nothing else.
-/

namespace InvariantInference

/-- The record of an implementation that is verified once, where every counterexample is
    genuine. -/
def OutcomeRecord.plain : Except Fault Verdict → OutcomeRecord
  | .error _ => ⟨.inconclusive, [], 1, []⟩
  | .ok verdict =>
    if verdict.outcome = .errors ∧ verdict.errors = [] then ⟨.inconclusive, [], 1, []⟩
    else ⟨verdict.outcome, verdict.errors, 1, []⟩

/-- Such a record counts one round and no refutation. -/
theorem OutcomeRecord.eq_plain (answer : Except Fault Verdict) :
    ⟨(plain answer).outcome, (plain answer).genuine, 1, []⟩ = plain answer := by
  cases answer with
  | error fault => rfl
  | ok verdict =>
    simp only [plain]
    split <;> rfl

namespace Candidates

@[simp] theorem refutation?_empty (c : Counterexample) : empty.refutation? c = none := by
  have unguarded : empty.guard? c.condition = none := by
    unfold guard?
    split
    · simp [contains, names, empty]
    · rfl
  simp [refutation?, annotation?, unguarded]

end Candidates

namespace Run

variable {σ : Type} {s : Setting} {run : Run σ}

/-! ## One round -/

/-- Without candidates the phase makes no difference to what an answer amounts to. -/
theorem judge_plain (none : s.candidates = .empty) (run : Run σ) (answer : Except Fault Verdict) :
    (run.judge s answer).1 =
      ⟨(OutcomeRecord.plain answer).outcome, [], (OutcomeRecord.plain answer).genuine⟩ := by
  rw [judge_fst, none]
  cases answer with
  | error fault => split <;> rfl
  | ok verdict =>
    by_cases hollow : verdict.outcome = .errors ∧ verdict.errors = []
    · simp [Classified.ofAnswer, OutcomeRecord.plain, hollow, Classified.ofOutcome,
        Classified.requireProgress]
    · simp [Classified.ofAnswer, OutcomeRecord.plain, hollow, Classified.ofVerdict,
        Classified.requireProgress, Classified.hasGenuine]

variable [Session σ]

/-- Without candidates a round takes its implementation off the worklist and enters what the
    session answered. -/
theorem step_plain (none : s.candidates = .empty) (current : Nat) (run : Run σ) :
    let record := OutcomeRecord.plain (run.answer s current)
    let next := (run.step s current).2
    next.worklist = run.worklist.dequeue ∧ next.assignment.entries = run.assignment.entries ∧
      next.ledger = run.ledger.record (s.graph.name current) record.outcome record.genuine := by
  intro record next
  have verdict : run.verdict s current = ⟨record.outcome, [], record.genuine⟩ :=
    judge_plain none run _
  have refined : (run.recorded s current).refined s current (run.verdict s current) =
      run.recorded s current := by
    rw [Run.refined, verdict, Ledger.refuted_nil]
    rfl
  have ledger : (run.recorded s current).ledger =
      run.ledger.record (s.graph.name current) record.outcome record.genuine := by
    rw [Run.recorded, verdict]
  obtain ⟨told, response⟩ := step_cases s current run
  change Response s current _ _ told next at response
  generalize next = after at response ⊢
  cases response with
  | leave | timeout | flush => exact ⟨rfl, rfl, ledger⟩
  | stay active outcome fell =>
    rw [verdict] at fell
    exact absurd rfl fell
  | settle =>
    rw [refined]
    exact ⟨rfl, rfl, ledger⟩

/-! ## Runs -/

/-- The implementations `done` were verified once each, under `true`, with the sessions of `pool`,
    and the others are queued. -/
structure Plain (s : Setting) (pool : SessionPool σ) (done : List Nat) (run : Run σ) : Prop where
  queue : done ++ run.worklist.ids = s.graph.ids
  assignment : run.assignment.entries = []
  iterations : run.iterations = done.length
  records : run.ledger.records.entries = done.map fun id =>
    (s.graph.name id, .plain (pool.verifyUnder (s.graph.name id) (.ofBool true)).1)
  sessions : ∀ name, run.pool.get? name =
    if name ∈ done.map s.graph.name then
      (pool.get? name).map fun session => (Session.verifyUnder session (.ofBool true)).2
    else pool.get? name

theorem plain_start (none : s.candidates = .empty) (pool : SessionPool σ) :
    Plain s pool [] (start s pool) where
  queue := eraseDups_of_nodup List.nodup_range
  assignment := by rw [start, none]; rfl
  iterations := rfl
  records := rfl
  sessions name := rfl

theorem Plain.step {pool : SessionPool σ} {done : List Nat} {current : Nat}
    (plain : Plain s pool done run) (none : s.candidates = .empty)
    (distinct : (s.graph.ids.map s.graph.name).Nodup)
    (head : run.worklist.peek? = some current) :
    Plain s pool (done ++ [current]) (run.step s current).2 := by
  obtain ⟨worklist, assignment, ledger⟩ := step_plain none current run
  obtain ⟨rest, queue⟩ : ∃ rest, run.worklist.ids = current :: rest := List.head?_eq_some_iff.mp head
  -- The implementation is not among those that are done, so its session is that of the pool.
  have new : s.graph.name current ∉ done.map s.graph.name := by
    rw [← plain.queue, queue, List.map_append, List.nodup_append] at distinct
    intro member
    exact distinct.2.2 _ member _ (by simp) rfl
  have hypothesis : run.assignment.hypothesis = .ofBool true := by
    rw [Assignment.hypothesis, plain.assignment]
  have session : run.pool.get? (s.graph.name current) = pool.get? (s.graph.name current) := by
    rw [plain.sessions, if_neg new]
  have answer : run.answer s current =
      (pool.verifyUnder (s.graph.name current) (.ofBool true)).1 := by
    rw [Run.answer, hypothesis, SessionPool.verifyUnder, SessionPool.verifyUnder, session]
    split <;> rfl
  have unrecorded : s.graph.name current ∉ run.ledger.records.names := by
    rw [Dictionary.names, plain.records, List.map_map]
    exact new
  refine ⟨?_, ?_, ?_, ?_, ?_⟩
  · rw [worklist, Worklist.dequeue, queue, List.tail_cons, List.append_assoc, ← plain.queue, queue]
    rfl
  · rw [assignment]
    exact plain.assignment
  · rw [step_iterations, plain.iterations]
    simp
  · rw [ledger, Ledger.entries_record_of_new unrecorded, plain.records, answer,
      OutcomeRecord.eq_plain, List.map_append]
    rfl
  · intro name
    rw [step_pool, SessionPool.get?_verifyUnder, hypothesis, session, plain.sessions]
    by_cases same : name = s.graph.name current
    · simp [same]
    · simp [same]

end Run

namespace Engine

variable {σ : Type} [Session σ] {program : Program} {oracle : Oracle σ} {e : Engine σ}

theorem plain_lastRun (built : CallGraph.build program = .ok e.graph) (none : e.candidates = .empty)
    (config : Config) :
    Run.Plain (e.setting config) e.pool e.graph.ids (e.lastRun config) := by
  have distinct : (e.graph.ids.map e.graph.name).Nodup := by
    rw [CallGraph.names_of_build built]
    exact (CallGraph.build_eq_ok_iff.mp built).2.1
  have plain : ∃ done, Run.Plain (e.setting config) e.pool done (e.lastRun config) := by
    apply Run.finish_preserves (P := fun run => ∃ done, run.Plain (e.setting config) e.pool done)
    · intro run current head ⟨done, plain⟩
      exact ⟨_, plain.step none distinct head⟩
    · exact ⟨[], Run.plain_start none e.pool⟩
  obtain ⟨done, plain⟩ := plain
  have all := plain.queue
  rw [worklist_lastRun, List.append_nil] at all
  exact all ▸ plain

/-- An engine has a session for every implementation, also after some runs. -/
theorem Prepared.exists_session (prepared : Prepared program oracle e) {i : Implementation}
    (declared : i ∈ program.implementations) :
    ∃ session, e.pool.get? i.name.value = some session := by
  induction prepared with
  | setUp accepted =>
    exact SessionPool.exists_of_start (setUp_eq_ok_iff.mp accepted).2.2 declared
  | infer _ config ih =>
    obtain ⟨session, found⟩ := ih
    obtain ⟨later, found', -⟩ := verifications_infer found config
    exact ⟨later, found'⟩

/-- Without candidates a run is plain verification. Each session is verified once, under `true`;
    watched, it has seen the calls of this verification and no others. There are as many rounds as
    implementations, the assignment is empty, and the ledger has the plain record of each
    implementation, whatever the options. -/
theorem infer_of_no_candidates (prepared : Prepared program oracle e)
    (none : ∀ c ∈ program.constants, c.isExistential = false) (config : Config) :
    let result := (e.infer config).1
    (∀ i ∈ program.implementations, ∃ session, e.pool.get? i.name.value = some session ∧
      (e.infer config).2.2.pool.get? i.name.value =
        some (Session.verifyUnder session (.ofBool true)).2 ∧
      (e.watch.infer config).2.2.pool.get? i.name.value =
        some (Session.verifyUnder (⟨session, []⟩ : Watched σ) (.ofBool true)).2) ∧
    (e.watch.infer config).1 = result ∧
    result.iterations = program.implementations.length ∧
    result.assignment.entries = [] ∧
    result.ledger.records.entries = program.implementations.map (fun i =>
      (i.name.value, .plain (e.pool.verifyUnder i.name.value (.ofBool true)).1)) ∧
    ∀ other : Config, (e.infer other).1.ledger = result.ledger := by
  intro result
  have built := prepared.build
  have names := CallGraph.names_of_build built
  have empty := Candidates.eq_empty_of_collect prepared.collect none
  have plain := plain_lastRun built empty
  have watched := plain_lastRun (e := e.watch) built empty config
  refine ⟨?_, (e.alike_watch.infer Watched.simulates config).1, ?_, (plain config).assignment, ?_, ?_⟩
  · intro i declared
    obtain ⟨session, found⟩ := prepared.exists_session declared
    have done : i.name.value ∈ e.graph.ids.map e.graph.name := by
      rw [names]
      exact List.mem_map_of_mem declared
    refine ⟨session, found, ?_, ?_⟩
    · have verified := (plain config).sessions i.name.value
      rw [setting, if_pos done, found] at verified
      exact verified
    · have verified := watched.sessions i.name.value
      rw [setting, watch, if_pos done, ← watch, get?_watch, found] at verified
      exact verified
  · have rounds : result.iterations = e.graph.ids.length := (plain config).iterations
    rw [rounds, CallGraph.ids, List.length_range, CallGraph.size_of_build built]
  · have byName := congrArg (List.map fun name =>
      (name, OutcomeRecord.plain (e.pool.verifyUnder name (.ofBool true)).1)) names
    rw [List.map_map, List.map_map] at byName
    exact (plain config).records.trans byName
  · intro other
    have same := (plain other).records.trans (plain config).records.symm
    exact congrArg (fun entries => Ledger.mk ⟨entries⟩) same

end Engine

/-- Whether a candidate is declared. -/
def Declaration.isExistential : Declaration → Bool
  | .constant c => c.isExistential
  | _ => false

namespace Engine

/-- The guarded call with its candidates left out. -/
def unguardedCall : Program :=
  ⟨Program.guardedCall.declarations.filter fun declaration => !declaration.isExistential⟩

/-- Replies for it: the caller has a counterexample, and the callee errors without any. -/
def plainReplies : Dictionary (List Replay.Reply) := .ofList
  [("Caller", [⟨refutesP, none, none, none⟩]), ("Callee", [⟨⟨.errors, []⟩, none, none, none⟩])]

/-- The counterexample of the caller starts a flush, unless the run is to go on at errors. In both
    cases it is genuine, and the callee is inconclusive. -/
theorem infer_of_no_candidates_unguardedCall :
    ∃ e, setUp unguardedCall (Replay.oracle plainReplies none) = .ok e ∧
      (e.infer .standard).1.termination = .flushed ∧
      (e.infer ⟨true, .spin, .normal⟩).1.termination = .fixpoint ∧
      (e.infer .standard).1.ledger.records.entries =
        [("Caller", ⟨.errors, refutesP.errors, 1, []⟩), ("Callee", ⟨.inconclusive, [], 1, []⟩)] ∧
      (e.infer ⟨true, .spin, .normal⟩).1.ledger = (e.infer .standard).1.ledger := by
  have accepted : setUp unguardedCall (Replay.oracle plainReplies none) = .ok _ := rfl
  obtain ⟨-, -, -, -, records, same⟩ :=
    infer_of_no_candidates (.setUp accepted) (by decide +kernel) .standard
  refine ⟨_, accepted, by cbv, by cbv, records.trans ?_, same _⟩
  decide +kernel

end Engine

end InvariantInference
