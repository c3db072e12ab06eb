import Mathlib
import InvariantInference.Proofs.Engine.Bound
import InvariantInference.Proofs.Model.Horn
import InvariantInference.Proofs.Session.Calls

/-!
# Runs with model sessions

Between two rounds all sessions of a run are idle: a round pushes one
hypothesis, verifies once and pops it again. So the sessions of the next round
answer as fresh ones with the same scripts would.
-/

namespace InvariantInference

open Model (oracle)

variable {scripts : Dictionary Script} {program : Program}

/-! ## Pools -/

/-- A pool with an idle session for every implementation, each with its script. -/
def Ready (scripts : Dictionary Script) (program : Program) (pool : SessionPool Model.Session) :
    Prop :=
  ∀ i ∈ program.implementations, ∃ session, pool.get? i.name.value = some session ∧
    session.Idle program i ∧ session.script = (scripts.get? i.name.value).getD .plain

/-- The only implementation of a name. -/
theorem eq_of_name_eq {i j : Implementation}
    (distinct : (program.implementations.map (·.name.value)).Nodup)
    (first : i ∈ program.implementations) (second : j ∈ program.implementations)
    (same : i.name.value = j.name.value) : i = j :=
  List.inj_on_of_nodup_map distinct first second same

/-- A pool that was started is ready. -/
theorem ready_start {pool : SessionPool Model.Session}
    (started : SessionPool.start (oracle scripts) program = .ok pool)
    (distinct : (program.implementations.map (·.name.value)).Nodup) :
    Ready scripts program pool := by
  intro i declared
  obtain ⟨session, found⟩ := SessionPool.exists_of_start started declared
  obtain ⟨j, declared', named, opened⟩ := SessionPool.opened_of_start started found
  cases eq_of_name_eq distinct declared' declared named
  refine ⟨session, found, Model.Session.idle_of_oracle opened, ?_⟩
  obtain ⟨p, callees, -, -, rfl⟩ := Model.Session.oracle_eq_ok_iff.mp opened
  rfl

/-- A verification leaves a pool ready. -/
theorem Ready.verifyUnder {pool : SessionPool Model.Session} (ready : Ready scripts program pool)
    (distinct : (program.implementations.map (·.name.value)).Nodup) {i : Implementation}
    (declared : i ∈ program.implementations) (hypothesis : Expr) :
    Ready scripts program (pool.verifyUnder i.name.value hypothesis).2 := by
  obtain ⟨s, found, idle, script⟩ := ready i declared
  intro j declared'
  have changed : (pool.verifyUnder i.name.value hypothesis).2 =
      pool.set i.name.value (Session.verifyUnder s hypothesis).2 := by
    simp [SessionPool.verifyUnder, found]
  rw [changed, SessionPool.get?, SessionPool.set, Dictionary.get?_insert]
  by_cases same : j.name.value = i.name.value
  · cases eq_of_name_eq distinct declared' declared same
    refine ⟨_, if_pos rfl, idle.verifyUnder hypothesis, ?_⟩
    rw [Model.Session.verifyUnder_eq]
    exact script
  · rw [if_neg same]
    exact ready j declared'

/-- A pool answers with the session of the implementation. -/
theorem Ready.answer {pool : SessionPool Model.Session} (ready : Ready scripts program pool)
    {i : Implementation} (declared : i ∈ program.implementations) (hypothesis : Expr) :
    ∃ session : Model.Session, session.Idle program i ∧
      session.script = (scripts.get? i.name.value).getD .plain ∧
      (pool.verifyUnder i.name.value hypothesis).1 =
        (Session.verifyUnder session hypothesis).1 := by
  obtain ⟨s, found, idle, script⟩ := ready i declared
  exact ⟨s, idle, script, by simp [SessionPool.verifyUnder, found]⟩

/-! ## Runs -/

namespace Run

variable {s : Setting} {run : Run Model.Session} {current : Nat}

/-- A state of a run on `program`: the worklist holds implementations, the sessions
    are idle, and the assignment is one of the candidates. -/
structure Proper (scripts : Dictionary Script) (program : Program) (s : Setting)
    (run : Run Model.Session) : Prop where
  valid : run.worklist.Valid s.graph.size
  ready : Ready scripts program run.pool
  names : run.assignment.entries.map (·.1) = s.candidates.names

/-- The head of the worklist is an implementation. -/
theorem Proper.implementation (proper : run.Proper scripts program s)
    (built : CallGraph.build program = .ok s.graph) (head : run.worklist.peek? = some current) :
    ∃ i, program.implementations[current]? = some i ∧ i ∈ program.implementations ∧
      s.graph.name current = i.name.value := by
  have below := proper.valid.bounded current (Worklist.mem_of_peek? head)
  rw [CallGraph.size_of_build built] at below
  have place : program.implementations[current]? = some program.implementations[current] :=
    List.getElem?_eq_getElem below
  exact ⟨_, place, List.getElem_mem below, CallGraph.name_of_build built place⟩

/-- A round starts from a proper state and ends in one. -/
theorem Proper.step (proper : run.Proper scripts program s)
    (built : CallGraph.build program = .ok s.graph) (head : run.worklist.peek? = some current) :
    (run.step s current).2.Proper scripts program s := by
  obtain ⟨i, -, declared, name⟩ := proper.implementation built head
  obtain ⟨-, distinct, -⟩ := CallGraph.build_eq_ok_iff.mp built
  have reaction := step_cases s current run
  refine ⟨?_, ?_, ?_⟩
  · exact (reaction.budget_lt (n := s.graph.size) head proper.valid
      fun a id => CallGraph.lt_size_of_mem_affected built).1
  · rw [step_pool, name]
    exact proper.ready.verifyUnder distinct declared _
  · rcases reaction.assignment_cases with same | frozen | fallen
    · rw [same]
      exact proper.names
    · rw [frozen]
      exact proper.names
    · rw [fallen, Assignment.names_disableAll]
      exact proper.names

/-- What a round refutes is an obligation of its implementation that is violated under
    the current assignment. -/
theorem Proper.violates_of_refuted (proper : run.Proper scripts program s)
    (built : CallGraph.build program = .ok s.graph) (distinct : s.candidates.names.Nodup)
    (horn : program.GuardedHorn s.candidates) (head : run.worklist.peek? = some current)
    {r : Refutation} (refuted : r ∈ (run.verdict s current).refuted) :
    ∃ (i : Implementation) (session : Model.Session),
      program.implementations[current]? = some i ∧ i ∈ program.implementations ∧
      session.Idle program i ∧
      Model.Step.Violates run.assignment.get? session.bodySteps r.counterexample ∧
      s.candidates.refutation? r.counterexample = some r := by
  obtain ⟨i, place, declared, name⟩ := proper.implementation built head
  obtain ⟨session, idle, -, answer⟩ := proper.ready.answer declared run.assignment.hypothesis
  obtain ⟨v, answered, reported, refutes⟩ := mem_refuted_verdict refuted
  rw [Run.answer, name, answer] at answered
  have fails := Model.Session.errors_of_verifyUnder answered reported
  rw [Model.Session.mem_errors_under_iff horn declared idle proper.names distinct] at fails
  exact ⟨i, session, place, declared, idle, fails, refutes⟩

/-- The first state is proper if the sessions are idle. -/
theorem proper_start {pool : SessionPool Model.Session} (ready : Ready scripts program pool) :
    (start s pool).Proper scripts program s := by
  refine ⟨?_, ready, ?_⟩
  · exact Worklist.valid_ofList fun id member => List.mem_range.mp member
  · simp [start, Assignment.allTrue, Function.comp_def]

end Run

/-- A run with idle sessions ends in a proper state. -/
theorem Engine.proper_lastRun {e : Engine Model.Session}
    (built : CallGraph.build program = .ok e.graph) (ready : Ready scripts program e.pool)
    (config : Config) : (e.lastRun config).Proper scripts program (e.setting config) :=
  Run.finish_preserves (fun _ _ head proper => proper.step built head) (Run.proper_start ready)

/-- Between two runs the sessions of an engine are idle. -/
theorem Engine.Prepared.ready {e : Engine Model.Session}
    (prepared : Prepared program (oracle scripts) e) : Ready scripts program e.pool := by
  induction prepared with
  | setUp accepted =>
    obtain ⟨-, built, started⟩ := setUp_eq_ok_iff.mp accepted
    obtain ⟨-, distinct, -⟩ := CallGraph.build_eq_ok_iff.mp built
    exact ready_start started distinct
  | infer earlier config ih => exact (proper_lastRun earlier.build ih config).ready

end InvariantInference
