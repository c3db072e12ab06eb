import InvariantInference.Event.Trace
import InvariantInference.Ledger

/-!
# Reports

The result of a run is reported to programs, as a JSON document, or to people,
as lines of text.
-/

namespace InvariantInference

namespace Report

/-- The name of the format of the document. -/
def schema : String := "houdini.inference.v1"

/-- A field that is left out if its list is empty. -/
def unlessEmpty (key : String) (items : List Json) : List (String × Json) :=
  if items.isEmpty then [] else [(key, .arr items)]

/-- A genuine violation. -/
def violation (c : Counterexample) : Json :=
  .obj ([("kind", .str c.kind.label)] ++
    c.kind.callee?.toList.map (fun callee => ("callee", .str callee)) ++
    [("condition", .str c.condition.render)] ++ unlessEmpty "trace" (c.trace.map .str))

/-- A refutation. -/
def refutation (r : Refutation) : Json :=
  .obj (r.annotation.fields ++ [("offset", .nat r.offset)] ++
    unlessEmpty "trace" (r.counterexample.trace.map .str))

/-- The record of an implementation. -/
def record (r : OutcomeRecord) : Json :=
  .obj ([("outcome", .str r.outcome.label), ("attempts", .nat r.attempts)] ++
    unlessEmpty "genuine_errors" (r.genuine.map violation) ++
    unlessEmpty "refuted" (r.refutations.map refutation))

/-- The implementations whose outcome is no definite one. -/
def inconclusive : List Outcome := [.inconclusive, .outOfMemory]

/-- The document for a run on the manifest `input` (`InferenceReport`). -/
def document (input : String) (r : RunResult) : Json :=
  .obj [("schema", .str schema),
    ("input", .str input),
    ("ok", .bool r.isClean),
    ("termination", .str r.termination.label),
    ("end", .str r.finish.label),
    ("iterations", .nat r.iterations),
    ("assignment", .obj ((Dictionary.ofList r.assignment.entries).sorted.map
      (fun (name, value) => (name, .bool value)))),
    ("outcomes", .obj (r.records.map (fun (name, entry) => (name, record entry)))),
    ("stats", .obj [("verified", .nat (r.count .correct)), ("errors", .nat (r.count .errors)),
      ("inconclusive", .nat (r.count .inconclusive)), ("timed_out", .nat (r.count .timedOut)),
      ("out_of_memory", .nat (r.count .outOfMemory))]),
    ("timed_out", .strs (r.namesWith [.timedOut])),
    ("inconclusive", .strs (r.namesWith inconclusive)),
    ("errors", .strs (r.namesWith [.errors]))]

/-- The line around a list of names. -/
def rule : String := "----------------------------------------"

/-- The lines for the record of an implementation. -/
def recordLines (name : String) (r : OutcomeRecord) : List String :=
  (name ++ ": " ++ r.outcome.render ++ " (" ++ toString r.attempts ++ " attempts)") ::
    r.genuine.map (fun c => "  " ++ c.render) ++
    r.refutations.map (fun refutation => "  refuted " ++ refutation.annotation.render)

/-- The lines for implementations that are not correct, if there are any (`print_bad_list`). -/
def badLines (kind : String) (names : List String) : List String :=
  if names.isEmpty then [] else [rule, "Functions: " ++ kind] ++ names ++ [rule]

/-- The line that counts the outcomes. -/
def countLine (r : RunResult) : String :=
  "Verified: " ++ toString (r.count .correct) ++ ", errors: " ++ toString (r.count .errors) ++
    ", inconclusive: " ++ toString (r.count .inconclusive) ++ ", timed out: " ++
    toString (r.count .timedOut) ++ ", out of memory: " ++ toString (r.count .outOfMemory)

/-- The lines that tell of a flush. -/
def flushLines : Termination → List String
  | .fixpoint => []
  | .flushed =>
    ["Refinement stopped at a genuine violation; remaining implementations were flushed."]

/-- The text for a run (`print_text`). -/
def text (r : RunResult) : String :=
  let a := r.assignment
  Trace.ofLines (["Assignment computed by Houdini:"] ++
    a.entries.map (fun (name, value) => name ++ " = " ++ (if value then "true" else "false")) ++
    [""] ++ r.records.flatMap (fun (name, entry) => recordLines name entry) ++
    ["", "Number of true assignments = " ++ toString a.countTrue,
      "Number of false assignments = " ++ toString (a.size - a.countTrue),
      "Number of prover queries = " ++ toString r.iterations, countLine r] ++
    badLines "TimedOut" (r.namesWith [.timedOut]) ++
    badLines "Inconclusive" (r.namesWith inconclusive) ++
    badLines "Errors" (r.namesWith [.errors]) ++ flushLines r.termination)

end Report

end InvariantInference
