import InvariantInference.Engine
import InvariantInference.Manifest.Run

/-!
# Diagnostics

Everything that keeps a run from starting is told in the same way: with a code
for its kind, a message, and the span of the text at fault, if there is one.
-/

namespace InvariantInference

/-- The kinds of diagnostics. -/
inductive DiagnosticKind where
  /-- The program is not well formed. -/
  | parse
  /-- The options or scripts are not well formed. -/
  | manifest
  /-- The program is unfit for inference. -/
  | config
  /-- A session could not be opened or used. -/
  | oracle
  /-- The manifest could not be read. -/
  | unreadable
  deriving DecidableEq, Repr

namespace DiagnosticKind

/-- The code of a kind. -/
def code : DiagnosticKind → String
  | parse => "houdini::parse"
  | manifest => "houdini::manifest"
  | config => "houdini::config"
  | oracle => "houdini::oracle"
  | unreadable => "failed to read"

end DiagnosticKind

/-- A kind, a message and the span of the text at fault. -/
structure Diagnostic where
  kind : DiagnosticKind
  message : String
  span : Option Span
  deriving DecidableEq, Repr

namespace Diagnostic

/-- A fault in the text of an expression, contract or command. -/
def ofSource (e : SourceError) : Diagnostic :=
  ⟨.parse, "parse error: " ++ e.fault.message, some e.span⟩

/-- A fault in the program of a manifest. -/
def ofProgram (e : Manifest.ProgramError) : Diagnostic :=
  ⟨.parse, "parse error: " ++ e.fault.message, some e.span⟩

/-- A fault in a manifest. -/
def ofLoad : Manifest.LoadError → Diagnostic
  | .program e => ofProgram e
  | .run fault span => ⟨.manifest, "manifest error: " ++ fault.message, span⟩

/-- A fault of a program as a whole. -/
def ofConfiguration (e : ConfigurationError) : Diagnostic :=
  ⟨.config, "configuration error: " ++ e.fault.message, some e.span⟩

/-- A fault of a session. -/
def ofFault (f : Fault) : Diagnostic := ⟨.oracle, f.render, none⟩

/-- A fault in the preparation of runs. -/
def ofSetup : SetupError → Diagnostic
  | .configuration e => ofConfiguration e
  | .oracle f => ofFault f

/-- A manifest that cannot be read. -/
def ofUnreadable (path : String) : Diagnostic :=
  ⟨.unreadable, "failed to read " ++ path, none⟩

/-- The diagnostic in two lines. -/
def render (d : Diagnostic) : String :=
  match d.kind with
  | .unreadable => d.message ++ "\n"
  | kind => kind.code ++ "\n" ++ d.message ++ "\n"

end Diagnostic

end InvariantInference
