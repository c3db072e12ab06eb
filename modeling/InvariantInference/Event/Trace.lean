import InvariantInference.Event

/-!
# Traces

A trace tells the events of a run to people, a line or two for each.
-/

namespace InvariantInference

namespace Trace

/-- The line between two iterations. -/
def rule : String := "---------------------------------------"

/-- The line around a flush. -/
def stars : String := "***************************************"

/-- Lines of text, each ended. -/
def ofLines (lines : List String) : String := String.join (lines.map (· ++ "\n"))

/-- As much of a text as `room` bytes hold. A character of which only a part
    fits is shown as the replacement character. -/
def clipChars (room : Nat) : List Char → List Char
  | [] => []
  | c :: rest =>
    if c.utf8Size ≤ room then c :: clipChars (room - c.utf8Size) rest
    else if room = 0 then []
    else ['�']

/-- As much of a text as the room holds, and whether that is all of it. Room
    without a limit holds every text. -/
def clip (room : Option Nat) (text : String) : String × Bool :=
  match room with
  | none => (text, true)
  | some room =>
    if text.utf8ByteSize ≤ room then (text, true)
    else (String.ofList (clipChars room text.toList), false)

end Trace

namespace Refutation

/-- The line that tells of a refutation. -/
def traceLine (implementation : String) (r : Refutation) : String :=
  let place := " at offset " ++ toString r.offset
  match r.annotation with
  | .requires constant callee =>
    "refuted call: " ++ constant ++ " in " ++ implementation ++ " calling " ++ callee ++ place
  | .ensures constant => "refuted return: " ++ constant ++ " in " ++ implementation ++ place
  | .assert constant => "refuted assert: " ++ constant ++ " in " ++ implementation ++ place

end Refutation

namespace Event

/-- The lines that tell of an event (`TextReporter`). -/
def lines : Event → List String
  | start candidates => ["Houdini started: #constants: " ++ toString candidates]
  | iterationBegin iteration => [Trace.rule, "Houdini iteration #" ++ toString iteration]
  | implementationSelected name => ["implementation under analysis: " ++ name]
  | assignmentSnapshot assignment =>
    ["assignment under analysis: " ++ assignment.hypothesis.renderHypothesis]
  | outcomeRecorded _ outcome => ["analysis outcome: " ++ outcome.render]
  | enqueue name => ["worklist enqueue: " ++ name]
  | dequeue name => ["worklist dequeue: " ++ name]
  | candidateRefuted implementation refutation =>
    let trace := refutation.counterexample.trace
    refutation.traceLine implementation ::
      (if trace.isEmpty then [] else ["  trace: " ++ String.intercalate " -> " trace])
  | candidateDisabled constant => ["constant disabled: " ++ constant]
  | flushBegin => [Trace.stars, "Flushing remaining implementations"]
  | flushEnd => [Trace.stars, "Flushing finished"]
  | exceptionSeen name message => ["Caught exception in " ++ name ++ ": " ++ message]
  | finish how iterations =>
    ["Houdini ended: " ++ how.render, "Number of iterations: " ++ toString iterations]

end Event

namespace Trace

/-- The trace of some events. -/
def ofEvents (events : List Event) : String := ofLines (events.flatMap (·.lines))

end Trace

end InvariantInference
