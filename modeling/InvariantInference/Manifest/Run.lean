import InvariantInference.Config
import InvariantInference.Dictionary
import InvariantInference.Manifest.Program
import InvariantInference.Model.Script

/-!
# Runs in manifests

Besides its program a manifest may hold the options of a run, in the table
`houdini`, and a script for each implementation, in the table `oracle`. Unlike
the program tables these reject fields that they do not know.
-/

namespace InvariantInference.Manifest

open Toml

/-- Why a text describes no run. -/
inductive RunFault where
  | shape (fault : ShapeFault)
  | undeclaredImplementation (name : String)
  deriving DecidableEq, Repr

namespace RunFault

/-- The wording of a fault. -/
def message : RunFault → String
  | shape fault => fault.message
  | undeclaredImplementation name =>
    "oracle script for undeclared implementation " ++ Text.ticked name

end RunFault

/-- Why a manifest cannot be loaded. -/
inductive LoadError where
  | program (error : ProgramError)
  | run (fault : RunFault) (span : Option Span)
  deriving DecidableEq, Repr

/-- A manifest with all its parts (`ResolvedManifest`). -/
structure Loaded where
  program : Program
  config : Config
  scripts : Dictionary Script

namespace Decoder

/-- The options of a run. -/
def config : Decoder Config := fun v => do
  let schedule := choice Schedule.all Schedule.label
  let flushEnd := choice RunEnd.all RunEnd.label
  let r ← Record.ofValue "HoudiniConfig" ["continue-at-error", "schedule", "flush-end"] v
  r.examine true [("continue-at-error", examining boolean), ("schedule", examining schedule),
    ("flush-end", examining flushEnd)]
  return {
    continueAtError :=
      (← r.optional "continue-at-error" boolean).getD Config.standard.continueAtError
    schedule := (← r.optional "schedule" schedule).getD Config.standard.schedule
    flushEnd := (← r.optional "flush-end" flushEnd).getD Config.standard.flushEnd }

/-- A script. -/
def script : Decoder Script := fun v => do
  let forced := choice Outcome.all Outcome.label
  let faultKind := choice FaultKind.all FaultKind.label
  let r ← Record.ofValue "SessionScript" ["forced", "fault-on-attempt", "fault-kind"] v
  r.examine true [("forced", examining forced), ("fault-on-attempt", examining natural),
    ("fault-kind", examining faultKind)]
  return {
    forced := ← r.optional "forced" forced
    faultOnAttempt := ← r.optional "fault-on-attempt" natural
    faultKind := (← r.optional "fault-kind" faultKind).getD Script.plain.faultKind }

/-- The options of a run and the scripts with their spans, by implementation. -/
def runTables : Decoder (Config × List (String × Located Script)) := fun v => do
  let scripts := mapping (located script)
  let r ← Record.ofValue "RunTables" ["houdini", "oracle"] v
  r.examine false [("houdini", examining config), ("oracle", examining scripts)]
  return ((← r.optional "houdini" config).getD .standard, (← r.optional "oracle" scripts).getD [])

end Decoder

/-- The options and scripts that a document gives for a program (`parse_run_tables`). Every
    script has to be one for an implementation of the program. -/
def runOfDocument (document : Table) (program : Program) :
    Except LoadError (Config × Dictionary Script) := do
  let (config, scripts) ← match Decoder.runTables document.toValue with
    | .ok tables => .ok tables
    | .error e => .error (.run (.shape e.fault) e.span)
  scripts.forM (fun (name, script) =>
    match program.implementation? name with
    | some _ => .ok ()
    | none => .error (.run (.undeclaredImplementation name) (some script.span)))
  return (config, .ofList (scripts.map (fun (name, script) => (name, script.value))))

/-- The manifest that a text describes (`load_manifest`). -/
def load (source : String) : Except LoadError Loaded :=
  match Toml.parse source with
  | none => .error (.program ⟨.malformed, .none⟩)
  | some document => do
    let program ← match programOfDocument document with
      | .ok program => .ok program
      | .error e => .error (.program e)
    let (config, scripts) ← runOfDocument document program
    return ⟨program, config, scripts⟩

end InvariantInference.Manifest
