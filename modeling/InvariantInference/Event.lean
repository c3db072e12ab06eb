import InvariantInference.Assignment
import InvariantInference.Config
import InvariantInference.Json
import InvariantInference.Refutation

/-!
# Events

Everything that a run does shows in its events, in the order in which it
happens.
-/

namespace InvariantInference

/-- Something that happened during a run. -/
inductive Event where
  | start (candidates : Nat)
  | iterationBegin (iteration : Nat)
  | implementationSelected (name : String)
  /-- The assignment under which an implementation is about to be verified. -/
  | assignmentSnapshot (assignment : Assignment)
  | outcomeRecorded (name : String) (outcome : Outcome)
  | enqueue (name : String)
  | dequeue (name : String)
  | candidateRefuted (implementation : String) (refutation : Refutation)
  | candidateDisabled (constant : String)
  | flushBegin
  | flushEnd
  | exceptionSeen (name message : String)
  | finish (how : RunEnd) (iterations : Nat)
  deriving DecidableEq, Repr

namespace Annotation

/-- The fields of an annotation in reports for programs. -/
def fields : Annotation → List (String × Json)
  | requires constant callee =>
    [("kind", .str "requires"), ("constant", .str constant), ("callee", .str callee)]
  | ensures constant => [("kind", .str "ensures"), ("constant", .str constant)]
  | assert constant => [("kind", .str "assert"), ("constant", .str constant)]

end Annotation

namespace Event

/-- The event for programs: its name, then what it tells. -/
def toJson : Event → Json
  | start candidates => .obj [("event", .str "start"), ("candidates", .nat candidates)]
  | iterationBegin iteration =>
    .obj [("event", .str "iteration-begin"), ("iteration", .nat iteration)]
  | implementationSelected name =>
    .obj [("event", .str "implementation-selected"), ("name", .str name)]
  | assignmentSnapshot assignment =>
    .obj [("event", .str "assignment-snapshot"),
      ("assignment", .arr (assignment.entries.map (fun (n, v) => .arr [.str n, .bool v])))]
  | outcomeRecorded name outcome =>
    .obj [("event", .str "outcome-recorded"), ("name", .str name), ("outcome", .str outcome.label)]
  | enqueue name => .obj [("event", .str "enqueue"), ("name", .str name)]
  | dequeue name => .obj [("event", .str "dequeue"), ("name", .str name)]
  | candidateRefuted implementation refutation =>
    .obj [("event", .str "candidate-refuted"), ("implementation", .str implementation),
      ("annotation", .obj refutation.annotation.fields), ("offset", .nat refutation.offset),
      ("trace", .strs refutation.counterexample.trace)]
  | candidateDisabled constant =>
    .obj [("event", .str "candidate-disabled"), ("constant", .str constant)]
  | flushBegin => .obj [("event", .str "flush-begin")]
  | flushEnd => .obj [("event", .str "flush-end")]
  | exceptionSeen name message =>
    .obj [("event", .str "exception-seen"), ("name", .str name), ("message", .str message)]
  | finish how iterations =>
    .obj [("event", .str "end"), ("end", .str how.label), ("iterations", .nat iterations)]

/-- The implementation that an event selects. -/
def selected? : Event → Option String
  | implementationSelected name => some name
  | _ => none

/-- The candidate that falls with an event. -/
def disabled? : Event → Option String
  | candidateDisabled constant => some constant
  | _ => none

/-- The annotation that an event refutes. -/
def refuted? : Event → Option Annotation
  | candidateRefuted _ refutation => some refutation.annotation
  | _ => none

/-- The implementation that an event adds to the worklist. -/
def enqueued? : Event → Option String
  | enqueue name => some name
  | _ => none

/-- The implementation whose outcome an event records, with the outcome. -/
def outcome? : Event → Option (String × Outcome)
  | outcomeRecorded name outcome => some (name, outcome)
  | _ => none

/-- Whether an event tells of an exception. -/
def isException : Event → Bool
  | exceptionSeen _ _ => true
  | _ => false

end Event

end InvariantInference
