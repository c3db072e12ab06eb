import InvariantInference.Config

/-!
# Requests

What the arguments of the command line ask for. Arguments are read from left to
right; the first that is wrong, or asks for help, decides. Every option is
given at most once, but for the one that raises the verbosity. After `--` no
argument is an option.
-/

namespace InvariantInference.CommandLine

/-- The formats of a report. -/
inductive Format where
  | text
  | json
  deriving DecidableEq, Repr

namespace Format

/-- All formats. -/
def all : List Format := [text, json]

/-- The name of a format. -/
def label : Format → String
  | text => "text"
  | json => "json"

end Format

/-- How a run is to be done and reported. -/
structure InferOptions where
  /-- Goes on after genuine violations, whatever the manifest says. -/
  continueAtError : Bool
  /-- Goes before the schedule of the manifest. -/
  schedule : Option Schedule
  /-- Goes before the end of the manifest. -/
  flushEnd : Option RunEnd
  /-- Tells all events. -/
  trace : Bool
  /-- Tells the time of every round. -/
  timings : Bool
  format : Format
  deriving DecidableEq, Repr

namespace InferOptions

/-- The options of a run: those of the manifest where none are given. -/
def apply (o : InferOptions) (c : Config) : Config where
  continueAtError := o.continueAtError || c.continueAtError
  schedule := o.schedule.getD c.schedule
  flushEnd := o.flushEnd.getD c.flushEnd

end InferOptions

/-- What is asked for. -/
inductive Request where
  | infer (manifest : String) (options : InferOptions)
  | graph (manifest : String)
  deriving DecidableEq, Repr

namespace Request

/-- The path of the manifest. -/
def manifest : Request → String
  | infer manifest _ => manifest
  | graph manifest => manifest

end Request

/-- Why there is nothing to be done. -/
inductive Stop where
  | usage (message : String)
  | help
  | version
  deriving DecidableEq, Repr

/-! ## Words -/

/-- An argument by its outer form. -/
inductive Word where
  /-- `--name` or `--name=value`. -/
  | long (name : String) (value : Option String)
  /-- `-abc`. -/
  | short (letters : List Char)
  /-- `--`. -/
  | escape
  | plain (text : String)
  deriving DecidableEq, Repr

namespace Word

/-- The form of an argument. A dash on its own is plain. -/
def ofString (text : String) : Word :=
  match text.toList with
  | ['-', '-'] => escape
  | '-' :: '-' :: body =>
    let name := String.ofList (body.takeWhile (· ≠ '='))
    match body.dropWhile (· ≠ '=') with
    | [] => long name none
    | _ :: value => long name (some (String.ofList value))
  | ['-'] => plain text
  | '-' :: letters => short letters
  | _ => plain text

/-- Whether an argument can be the value of the option before it. -/
def isPlain : Word → Bool
  | plain _ => true
  | _ => false

end Word

/-- An argument of a command. -/
inductive Argument where
  | flag (name : String)
  | option (name value : String)
  /-- An option that lacks its value. -/
  | bare (name : String)
  | letter (c : Char)
  | positional (text : String)
  deriving DecidableEq, Repr

namespace Argument

/-- The arguments that some words are; the options `valued` take a value. -/
def ofWords (valued : List String) : List String → List Argument
  | [] => []
  | word :: rest =>
    match Word.ofString word with
    | .escape => rest.map .positional
    | .plain text => .positional text :: ofWords valued rest
    | .short letters => letters.map .letter ++ ofWords valued rest
    | .long name (some value) => .option name value :: ofWords valued rest
    | .long name none =>
      if valued.contains name then
        match rest with
        | [] => [.bare name]
        | value :: rest' =>
          if (Word.ofString value).isPlain then .option name value :: ofWords valued rest'
          else .bare name :: ofWords valued (value :: rest')
      else
        .flag name :: ofWords valued rest

end Argument

/-! ## Commands -/

/-- What the arguments of a command have given so far. -/
structure Given where
  manifest : Option String
  flags : List String
  schedule : Option Schedule
  flushEnd : Option RunEnd
  format : Option Format
  deriving DecidableEq, Repr

namespace Given

/-- Nothing is given. -/
def nothing : Given := ⟨none, [], none, none, none⟩

/-- Stops at an argument that makes no sense. -/
def refuse {α : Type} (what : String) : Except Stop α :=
  .error (.usage ("unexpected argument: " ++ what))

/-- The value of an option that has to be one of some names, and was not given
    before. -/
def choose {α : Type} (all : List α) (label : α → String) (before : Option α) (value : String) :
    Except Stop (Option α) :=
  match before, all.find? (fun a => label a = value) with
  | none, some a => .ok (some a)
  | _, _ => refuse value

/-- One more argument of a command that has the flags `allowed`, and options
    with values iff `valued`. -/
def add (allowed : List String) (valued : Bool) (g : Given) : Argument → Except Stop Given
  | .flag "help" | .letter 'h' => .error .help
  | .flag "verbose" | .letter 'v' => .ok g
  | .letter c => refuse c.toString
  | .bare name => refuse name
  | .flag name =>
    if allowed.contains name && !g.flags.contains name then .ok { g with flags := name :: g.flags }
    else refuse name
  | .option name value =>
    match valued, name with
    | true, "schedule" => do
      return { g with schedule := ← choose Schedule.all Schedule.label g.schedule value }
    | true, "flush-end" => do
      return { g with flushEnd := ← choose RunEnd.all RunEnd.label g.flushEnd value }
    | true, "format" => do
      return { g with format := ← choose Format.all Format.label g.format value }
    | _, _ => refuse name
  | .positional text =>
    if g.manifest.isNone && !text.isEmpty then .ok { g with manifest := some text } else refuse text

/-- The path of the manifest, which has to be given. -/
def path (g : Given) : Except Stop String :=
  match g.manifest with
  | some path => .ok path
  | none => .error (.usage "the manifest is missing")

end Given

namespace Request

/-- The request of `infer` with some arguments. -/
def ofInfer (words : List String) : Except Stop Request := do
  let g ← (Argument.ofWords ["schedule", "flush-end", "format"] words).foldlM
    (Given.add ["continue-at-error", "trace", "timings"] true) .nothing
  return .infer (← g.path) {
    continueAtError := g.flags.contains "continue-at-error"
    schedule := g.schedule
    flushEnd := g.flushEnd
    trace := g.flags.contains "trace"
    timings := g.flags.contains "timings"
    format := g.format.getD .text }

/-- The request of `graph` with some arguments. -/
def ofGraph (words : List String) : Except Stop Request := do
  let g ← (Argument.ofWords [] words).foldlM (Given.add [] false) .nothing
  return .graph (← g.path)

/-- What `help` with some arguments comes to. -/
def ofHelp : List String → Except Stop Request
  | [] | ["infer"] | ["graph"] | ["help"] => .error .help
  | words => Given.refuse (String.intercalate " " words)

/-- What the letters of an argument before the command come to. -/
def checkLetters : List Char → Except Stop Unit
  | [] => .ok ()
  | 'v' :: rest => checkLetters rest
  | 'V' :: _ => .error .version
  | 'h' :: _ => .error .help
  | c :: _ => Given.refuse c.toString

/-- What the arguments ask for. -/
def parse : List String → Except Stop Request
  | [] => .error (.usage "the command is missing")
  | word :: rest =>
    match Word.ofString word with
    | .plain "infer" => ofInfer rest
    | .plain "graph" => ofGraph rest
    | .plain "help" => ofHelp rest
    | .long "verbose" none => parse rest
    | .long "version" none => .error .version
    | .long "help" none => .error .help
    | .short letters => do
      checkLetters letters
      parse rest
    | _ => Given.refuse word

end Request

end InvariantInference.CommandLine
