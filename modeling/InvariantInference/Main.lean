import InvariantInference.CommandLine.Response

/-!
# The program

Reads the manifest that the command line names, measures the rounds, and writes
the answer.
-/

namespace InvariantInference.CommandLine

/-- The text of a file, if it can be read. -/
def readText (path : String) : IO (Option String) := do
  try
    return some (← IO.FS.readFile path)
  catch _ =>
    return none

/-- All rounds from a state on, as `Run.finish` does them, with the time that
    each of them took. -/
partial def timedRounds (s : Setting) (run : Run Model.Session) :
    IO (List Event × List Nat × Run Model.Session) := do
  match run.worklist.peek? with
  | none => return ([], [], run)
  | some current =>
    let start ← IO.monoNanosNow
    let (events, next) ← IO.lazyPure (fun _ => run.step s current)
    let stop ← IO.monoNanosNow
    let (more, times, last) ← timedRounds s next
    return (events ++ more, (stop - start) :: times, last)

/-- The answer to `infer`, with the time that every round took. -/
def inferTimed (m : Manifest.Loaded) (manifest : String) (o : InferOptions) : IO Response := do
  match engine m with
  | .error d => return .ofDiagnostic d
  | .ok e =>
    let s := e.setting (o.apply m.config)
    let (events, times, last) ← timedRounds s (.start s e.pool)
    let all := e.openingEvents ++ events ++ last.closingEvents s
    return .ofRun manifest o (last.result s) all times

/-- The answer to a request. -/
def respond (r : Request) : IO Response := do
  let text ← readText r.manifest
  match r, load r.manifest text with
  | .infer manifest options, .ok m =>
    if options.timings then inferTimed m manifest options else return answer r text
  | _, _ => return answer r text

end InvariantInference.CommandLine

open InvariantInference.CommandLine

/-- Answers the arguments of the command line. -/
def main (args : List String) : IO UInt32 := do
  let response ← match Request.parse args with
    | .error stop => pure (.ofStop stop)
    | .ok request => respond request
  (← IO.getStderr).putStr response.errorOutput
  (← IO.getStdout).putStr response.output
  return response.exitCode.toUInt32
