import InvariantInference.Expr.Printer

/-!
# Verdicts

What the verification of an implementation can answer: an outcome, and the
proof obligations that failed.
-/

namespace InvariantInference

/-- How a verification ended. -/
inductive Outcome where
  | correct
  | errors
  | timedOut
  | inconclusive
  | outOfMemory
  deriving DecidableEq, Repr

namespace Outcome

/-- All outcomes. -/
def all : List Outcome := [correct, errors, timedOut, inconclusive, outOfMemory]

/-- The name of an outcome in reports for people. -/
def render : Outcome → String
  | correct => "Correct"
  | errors => "Errors"
  | timedOut => "TimedOut"
  | inconclusive => "Inconclusive"
  | outOfMemory => "OutOfMemory"

/-- The name of an outcome in manifests and reports for programs. -/
def label : Outcome → String
  | correct => "correct"
  | errors => "errors"
  | timedOut => "timed-out"
  | inconclusive => "inconclusive"
  | outOfMemory => "out-of-memory"

end Outcome

/-- Which obligation failed. -/
inductive ViolationKind where
  /-- A `requires` of the callee, at a call. -/
  | precondition (callee : String)
  /-- An `ensures` of the implementation, on return. -/
  | postcondition
  | assertion
  deriving DecidableEq, Repr

namespace ViolationKind

/-- The name of a violation. -/
def label : ViolationKind → String
  | precondition _ => "precondition violation"
  | postcondition => "postcondition violation"
  | assertion => "assertion violation"

/-- The procedure whose precondition failed. -/
def callee? : ViolationKind → Option String
  | precondition callee => some callee
  | _ => none

end ViolationKind

/-- An obligation that failed: its condition, the call, return or assertion
    where it failed, and the labels of the blocks on the way there. -/
structure Counterexample where
  kind : ViolationKind
  condition : Expr
  span : Span
  trace : List String
  deriving DecidableEq, Repr

namespace Counterexample

/-- A counterexample in one line. -/
def render (c : Counterexample) : String :=
  let place := match c.kind with
    | .precondition callee => " calling `" ++ callee ++ "`"
    | _ => ""
  c.kind.label ++ place ++ ": " ++ c.condition.render

end Counterexample

/-- The answer of a verification. Nothing forces an oracle to give
    counterexamples exactly with the outcome `errors`. -/
structure Verdict where
  outcome : Outcome
  errors : List Counterexample
  deriving DecidableEq, Repr

namespace Verdict

/-- An outcome without counterexamples. -/
def ofOutcome (outcome : Outcome) : Verdict := ⟨outcome, []⟩

/-- The verdict that counterexamples amount to: correct iff there are none (`from_errors`). -/
def ofErrors (errors : List Counterexample) : Verdict :=
  ⟨if errors.isEmpty then .correct else .errors, errors⟩

end Verdict

end InvariantInference
