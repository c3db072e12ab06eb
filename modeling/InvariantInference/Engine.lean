import InvariantInference.Engine.Round

/-!
# Inference

An engine holds what is prepared once for a program: its candidates, its call
graph, and a session for each implementation. A run starts with all candidates
true and all implementations in the worklist, and goes on round after round
until the worklist is empty.
-/

namespace InvariantInference

/-- Why no engine can be set up for a program. -/
inductive SetupError where
  | configuration (error : ConfigurationError)
  | oracle (fault : Fault)
  deriving DecidableEq, Repr

/-- What is prepared for the runs on one program (`Houdini`). -/
structure Engine (σ : Type) where
  candidates : Candidates
  graph : CallGraph
  pool : SessionPool σ

namespace Run

variable {σ : Type}

/-- The state before the first round. -/
def start (s : Setting) (pool : SessionPool σ) : Run σ where
  phase := .refining
  assignment := .allTrue s.candidates
  worklist := .ofList s.graph.ids
  blacklist := .empty
  ledger := .empty
  iterations := 0
  pool

/-- All rounds from a state on: their events and the state after the last one. -/
def finish [Session σ] (s : Setting) (run : Run σ) : List Event × Run σ :=
  match _head : run.worklist.peek? with
  | none => ([], run)
  | some current =>
    let round := run.step s current
    let rest := finish s round.2
    (round.1 ++ rest.1, rest.2)
termination_by (run.phase.rank, run.assignment.countTrue, run.worklist.ids.length)
decreasing_by
  have nonempty : run.worklist.ids ≠ [] := by
    intro empty
    simp [Worklist.peek?, empty] at _head
  have closer := step_closer s current run nonempty
  simp only [Closer] at closer
  simp only [Prod.lex_def]
  exact closer

/-- Why the run ended. -/
def termination (run : Run σ) : Termination :=
  match run.phase with
  | .flushing => .flushed
  | _ => .fixpoint

/-- The end that the run reports. -/
def reportedEnd (s : Setting) (run : Run σ) : RunEnd :=
  match run.termination with
  | .fixpoint => .normal
  | .flushed => s.config.flushEnd

/-- The events after the last round. -/
def closingEvents (s : Setting) (run : Run σ) : List Event :=
  (match run.termination with
    | .fixpoint => []
    | .flushed => [.flushEnd]) ++ [.finish (run.reportedEnd s) run.iterations]

/-- The result of a run after its last round. -/
def result (s : Setting) (run : Run σ) : RunResult where
  assignment := run.assignment.freeze
  ledger := run.ledger
  termination := run.termination
  finish := run.reportedEnd s
  iterations := run.iterations

end Run

namespace Engine

variable {σ : Type}

/-- Prepares the runs on a program (`new`). The candidates are checked before the call
    graph, and sessions are opened last. -/
def setUp (program : Program) (oracle : Oracle σ) : Except SetupError (Engine σ) := do
  let candidates ← (Candidates.collect program).mapError .configuration
  let graph ← (CallGraph.build program).mapError .configuration
  let pool ← (SessionPool.start oracle program).mapError .oracle
  return ⟨candidates, graph, pool⟩

/-- What a run with some options is given. -/
def setting (e : Engine σ) (config : Config) : Setting := ⟨e.candidates, e.graph, config⟩

/-- The events before the first round. -/
def openingEvents (e : Engine σ) : List Event := [.start e.candidates.members.length]

/-- One run: its result, its events, and the engine with its sessions as the run left them
    (`infer_observed`). -/
def infer [Session σ] (e : Engine σ) (config : Config) : RunResult × List Event × Engine σ :=
  let s := e.setting config
  let (events, last) := (Run.start s e.pool).finish s
  (last.result s, e.openingEvents ++ events ++ last.closingEvents s, { e with pool := last.pool })

end Engine

end InvariantInference
