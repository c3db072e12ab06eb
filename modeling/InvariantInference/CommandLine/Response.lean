import InvariantInference.CommandLine.Request
import InvariantInference.Diagnostic
import InvariantInference.Model.Session
import InvariantInference.Report
import InvariantInference.Stopwatch

/-!
# Responses

What the command line answers to a request: an exit code and what is written to
the output and to the error output.
-/

namespace InvariantInference.CommandLine

/-- An answer of the command line. -/
structure Response where
  exitCode : Nat
  output : String
  errorOutput : String
  /-- The reason, if nothing could be done. -/
  diagnostic : Option Diagnostic
  deriving DecidableEq, Repr

/-- Name and version of the program. -/
def versionText : String := "houdini 0.1.0\n"

/-- How the program is used. -/
def helpText : String :=
  Trace.ofLines ["Houdini candidate-invariant inference", "",
    "Usage: houdini [-v]... infer MANIFEST [--continue-at-error] [--schedule spin|round-robin]",
    "         [--flush-end normal|abnormal] [--trace] [--timings] [--format text|json]",
    "       houdini [-v]... graph MANIFEST",
    "       houdini --version"]

namespace Response

/-- The answer where there is nothing to be done. -/
def ofStop : Stop → Response
  | .usage message => ⟨2, "", "error: " ++ message ++ "\n", none⟩
  | .help => ⟨0, helpText, "", none⟩
  | .version => ⟨0, versionText, "", none⟩

/-- The answer where something is wrong with the manifest. -/
def ofDiagnostic (d : Diagnostic) : Response := ⟨1, "", d.render, some d⟩

/-- The answer after a run. The times of the rounds go before the report. -/
def ofRun (manifest : String) (o : InferOptions) (result : RunResult) (events : List Event)
    (times : List Nat) : Response where
  exitCode := if result.isClean then 0 else 1
  output :=
    let names := events.filterMap (fun e => e.outcome?.map (·.1))
    (if o.timings then (Stopwatch.ofRounds (names.zip times)).render else "") ++
      match o.format with
      | .text => Report.text result
      | .json => (Report.document manifest result).pretty ++ "\n"
  errorOutput := if o.trace then Trace.ofEvents events else ""
  diagnostic := none

end Response

/-- The listing of candidates, implementations and calls. -/
def listing (cs : Candidates) (g : CallGraph) : String :=
  Trace.ofLines ([
    "candidates (" ++ toString cs.members.length ++ "): " ++ String.intercalate ", " cs.names,
    "implementations (" ++ toString g.size ++ "):"] ++
    g.nodes.map (fun node => "  " ++ node.name ++ " : " ++ node.procedure) ++
    ["edges (" ++ toString g.edges.length ++ "):"] ++
    g.edges.map (fun (u, v) => "  " ++ g.name u ++ " -> " ++ g.name v))

/-- The manifest at a path, if there is a text there. -/
def load (path : String) : Option String → Except Diagnostic Manifest.Loaded
  | none => .error (.ofUnreadable path)
  | some text => (Manifest.load text).mapError .ofLoad

/-- The engine for the program of a manifest. -/
def engine (m : Manifest.Loaded) : Except Diagnostic (Engine Model.Session) :=
  (Engine.setUp m.program (Model.oracle m.scripts)).mapError .ofSetup

/-- The answer to `graph`. -/
def answerGraph (m : Manifest.Loaded) : Except Diagnostic Response := do
  let cs ← (Candidates.collect m.program).mapError .ofConfiguration
  let g ← (CallGraph.build m.program).mapError .ofConfiguration
  return ⟨0, listing cs g, "", none⟩

/-- The answer to `infer`, if every round takes no time. -/
def answerInfer (m : Manifest.Loaded) (manifest : String) (o : InferOptions) :
    Except Diagnostic Response := do
  let e ← engine m
  let (result, events, _) := e.infer (o.apply m.config)
  return .ofRun manifest o result events (List.replicate events.length 0)

/-- The answer to a request, given the text of its manifest. -/
def answer (r : Request) (text : Option String) : Response :=
  let answered : Except Diagnostic Response := do
    let m ← load r.manifest text
    match r with
    | .infer manifest options => answerInfer m manifest options
    | .graph _ => answerGraph m
  match answered with
  | .ok response => response
  | .error d => .ofDiagnostic d

end InvariantInference.CommandLine
