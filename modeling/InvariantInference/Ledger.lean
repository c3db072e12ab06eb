import InvariantInference.Assignment
import InvariantInference.Config
import InvariantInference.Dictionary
import InvariantInference.Refutation

/-!
# Ledgers and results

A ledger keeps what a run found out about every implementation. Together with
the last assignment it is the result of the run.
-/

namespace InvariantInference

/-- What a run found out about an implementation. -/
structure OutcomeRecord where
  /-- The outcome of the last round. -/
  outcome : Outcome
  /-- The genuine violations of the last round. -/
  genuine : List Counterexample
  /-- The number of rounds. -/
  attempts : Nat
  /-- The refutations of all rounds. -/
  refutations : List Refutation
  deriving DecidableEq, Repr

/-- Records by the names of implementations. -/
structure Ledger where
  records : Dictionary OutcomeRecord

namespace Ledger

/-- The ledger without records. -/
def empty : Ledger := ⟨.empty⟩

/-- The record of an implementation. -/
def get? (l : Ledger) (name : String) : Option OutcomeRecord := l.records.get? name

/-- Enters a round. Outcome and genuine violations replace those of the round
    before, the number of rounds and the refutations add up. -/
def record (l : Ledger) (name : String) (outcome : Outcome) (genuine : List Counterexample) :
    Ledger :=
  ⟨l.records.alter name (fun
    | none => ⟨outcome, genuine, 1, []⟩
    | some r => ⟨outcome, genuine, r.attempts + 1, r.refutations⟩)⟩

/-- Enters refutations. An implementation that has no record gets none. -/
def refuted (l : Ledger) (name : String) (refutations : List Refutation) : Ledger :=
  match l.get? name with
  | none => l
  | some r => ⟨l.records.insert name { r with refutations := r.refutations ++ refutations }⟩

end Ledger

/-- Why a run ended. -/
inductive Termination where
  /-- Nothing was left to verify. -/
  | fixpoint
  /-- A genuine violation stopped the refinement. -/
  | flushed
  deriving DecidableEq, Repr

namespace Termination

/-- All kinds of termination. -/
def all : List Termination := [fixpoint, flushed]

/-- The name of a kind in reports for programs. -/
def label : Termination → String
  | fixpoint => "fixpoint"
  | flushed => "flushed"

end Termination

/-- The result of a run. -/
structure RunResult where
  assignment : Assignment
  ledger : Ledger
  termination : Termination
  finish : RunEnd
  /-- The number of rounds. -/
  iterations : Nat

namespace RunResult

/-- The records by the names of implementations, in the order of names. -/
def records (r : RunResult) : List (String × OutcomeRecord) := r.ledger.records.sorted

/-- The outcome of an implementation. -/
def outcome? (r : RunResult) (name : String) : Option Outcome :=
  (r.ledger.get? name).map (·.outcome)

/-- The implementations with one of some outcomes, in the order of names (`names_where`). -/
def namesWith (r : RunResult) (outcomes : List Outcome) : List String :=
  (r.records.filter (fun (_, record) => outcomes.contains record.outcome)).map (·.1)

/-- The number of implementations with an outcome. -/
def count (r : RunResult) (outcome : Outcome) : Nat := (r.namesWith [outcome]).length

/-- Whether the run reached a fixpoint at which every implementation is correct
    (`is_clean`). -/
def isClean (r : RunResult) : Bool :=
  r.termination = .fixpoint && r.records.all (fun (_, record) => record.outcome = .correct)

end RunResult

end InvariantInference
