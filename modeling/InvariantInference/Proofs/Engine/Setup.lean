import Mathlib
import InvariantInference.Proofs.CallGraph
import InvariantInference.Proofs.Engine.Rounds

/-!
# Engines of a program

An engine is set up once and used for any number of runs. The runs change its
sessions and nothing else, so what the set-up checked about the program holds
in every run.
-/

namespace InvariantInference

namespace Engine

variable {σ : Type} [Session σ]

/-- An engine that was set up for a program and may have made some runs since. -/
inductive Prepared (program : Program) (oracle : Oracle σ) : Engine σ → Prop
  | setUp {e : Engine σ} (accepted : Engine.setUp program oracle = .ok e) :
      Prepared program oracle e
  | infer {e : Engine σ} (earlier : Prepared program oracle e) (config : Config) :
      Prepared program oracle (e.infer config).2.2

omit [Session σ] in
/-- What an engine that is set up consists of. -/
theorem setUp_eq_ok_iff {program : Program} {oracle : Oracle σ} {e : Engine σ} :
    setUp program oracle = .ok e ↔
      Candidates.collect program = .ok e.candidates ∧ CallGraph.build program = .ok e.graph ∧
        SessionPool.start oracle program = .ok e.pool := by
  obtain ⟨candidates, graph, pool⟩ := e
  cases collected : Candidates.collect program with
  | error error => simp [setUp, collected, Except.mapError, bind, Except.bind]
  | ok candidates' =>
    cases built : CallGraph.build program with
    | error error => simp [setUp, collected, built, Except.mapError, bind, Except.bind]
    | ok graph' =>
      cases started : SessionPool.start oracle program with
      | error fault => simp [setUp, collected, built, started, Except.mapError, bind, Except.bind]
      | ok pool' =>
        simp [setUp, collected, built, started, Except.mapError, bind, Except.bind, pure,
          Except.pure]

/-- The candidates of an engine are those of its program. -/
theorem Prepared.collect {program : Program} {oracle : Oracle σ} {e : Engine σ}
    (prepared : Prepared program oracle e) : Candidates.collect program = .ok e.candidates := by
  induction prepared with
  | setUp accepted => exact (setUp_eq_ok_iff.mp accepted).1
  | infer _ config ih => exact ih

/-- The call graph of an engine is that of its program. -/
theorem Prepared.build {program : Program} {oracle : Oracle σ} {e : Engine σ}
    (prepared : Prepared program oracle e) : CallGraph.build program = .ok e.graph := by
  induction prepared with
  | setUp accepted => exact (setUp_eq_ok_iff.mp accepted).2.1
  | infer _ config ih => exact ih

/-- The state after the last round of a run. -/
def lastRun (e : Engine σ) (config : Config) : Run σ :=
  ((Run.start (e.setting config) e.pool).finish (e.setting config)).2

theorem infer_result (e : Engine σ) (config : Config) :
    (e.infer config).1 = (e.lastRun config).result (e.setting config) := rfl

theorem worklist_lastRun (e : Engine σ) (config : Config) :
    (e.lastRun config).worklist.ids = [] := by
  obtain ⟨-, -, empty⟩ :=
    Run.finish_rounds (e.setting config) (Run.start (e.setting config) e.pool)
  exact empty

/-- A run that ends at a fixpoint has not flushed. -/
theorem active_of_fixpoint {e : Engine σ} {config : Config}
    (fixpoint : (e.infer config).1.termination = .fixpoint) :
    (e.lastRun config).phase ≠ .flushing := by
  intro flushing
  rw [infer_result, Run.result, Run.termination, flushing] at fixpoint
  cases fixpoint

end Engine

end InvariantInference
