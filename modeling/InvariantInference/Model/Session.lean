import InvariantInference.Dictionary
import InvariantInference.Model.Facts
import InvariantInference.Model.Script
import InvariantInference.Text.Quoted

/-!
# Model sessions

A model session verifies an implementation by a walk through its blocks. What
the walk does at each place is a step: a condition is assumed, or an obligation
is checked against what was assumed before it. The obligations that do not hold
are the counterexamples of the verdict.
-/

namespace InvariantInference.Model

/-- One step of a walk. -/
inductive Step where
  | assume (condition : Expr)
  /-- Reports the counterexample unless its condition holds. -/
  | check (failure : Counterexample)
  deriving DecidableEq, Repr

namespace Step

/-- The counterexamples that a walk reports, in order. -/
def walk (f : Facts) : List Step → List Counterexample
  | [] => []
  | .assume condition :: rest => walk (f.assume condition) rest
  | .check failure :: rest =>
    if f.holds failure.condition then walk f rest else failure :: walk f rest

/-- A precondition at a call is checked, unless it is free, and holds from then
    on. -/
def ofPrecondition (callee : String) (site : Span) (trace : List String) (c : Contract) :
    List Step :=
  if c.free then [.assume c.condition]
  else [.check ⟨.precondition callee, c.condition, site, trace⟩, .assume c.condition]

/-- A postcondition is checked on return, unless it is free. -/
def ofPostcondition (trace : List String) (c : Contract) : List Step :=
  if c.free then [] else [.check ⟨.postcondition, c.condition, c.span, trace⟩]

/-- The steps of a command. After a call the postconditions of the callee hold;
    a call to nothing is no step. -/
def ofCommand (callees : Dictionary Procedure) (trace : List String) : Command → List Step
  | .assume _ condition => [.assume condition]
  | .assert span condition =>
    [.check ⟨.assertion, condition, span, trace⟩, .assume condition]
  | .call span callee =>
    match callees.get? callee.value with
    | none => []
    | some p =>
      p.requires.flatMap (ofPrecondition callee.value span trace) ++
        p.ensures.map (fun c => .assume c.condition)

/-- The steps of the blocks after those of `trace`. -/
def ofBlocks (callees : Dictionary Procedure) (trace : List String) : List Block → List Step
  | [] => []
  | b :: rest =>
    let trace := trace ++ [b.label.value]
    b.commands.flatMap (ofCommand callees trace) ++ ofBlocks callees trace rest

end Step

/-- The state of a session. -/
structure Session where
  implementation : Implementation
  procedure : Procedure
  /-- The procedures that the implementation calls. -/
  callees : Dictionary Procedure
  script : Script
  /-- The hypotheses that are pushed, the last one first. -/
  stack : List Expr
  /-- How often a verification was asked for. -/
  verifications : Nat
  /-- How often a hypothesis was pushed. -/
  pushes : Nat

namespace Session

/-- The name of the implementation. -/
def name (s : Session) : String := s.implementation.name.value

/-- The conjuncts of all hypotheses, those that were pushed first at the front. -/
def hypotheses (s : Session) : List Expr := s.stack.reverse.flatMap (·.conjuncts)

/-- What is known at the start: hypotheses that are equations give identifiers
    their values, the last one deciding. -/
def bindings (s : Session) : List (String × Bool) := (s.hypotheses.filterMap (·.binding?)).reverse

/-- The steps on entry: all other hypotheses, and the preconditions, are
    assumed. -/
def entrySteps (s : Session) : List Step :=
  (s.hypotheses.filter (·.binding?.isNone)).map .assume ++
    s.procedure.requires.map (fun c => .assume c.condition)

/-- The labels of all blocks. -/
def labels (s : Session) : List String := s.implementation.blocks.map (·.label.value)

/-- The steps of the whole walk, in the order in which `evaluate` takes them. -/
def steps (s : Session) : List Step :=
  s.entrySteps ++ Step.ofBlocks s.callees [] s.implementation.blocks ++
    s.procedure.ensures.flatMap (Step.ofPostcondition s.labels)

/-- The verdict of the walk. -/
def evaluate (s : Session) : Verdict :=
  .ofErrors (Step.walk (.ofBindings s.bindings) s.steps)

/-- A fault of this session. -/
def fault (s : Session) (kind : FaultKind) (message : String) : Fault := ⟨s.name, kind, message⟩

/-- Pushes a hypothesis. -/
def push (s : Session) (hypothesis : Expr) : Except Fault Unit × Session :=
  (.ok (), { s with stack := hypothesis :: s.stack, pushes := s.pushes + 1 })

/-- Verifies under the hypotheses that are pushed. A scripted fault goes before
    a forced outcome, and a forced outcome before the walk. -/
def verify (s : Session) : Except Fault Verdict × Session :=
  let s := { s with verifications := s.verifications + 1 }
  if s.script.faultOnAttempt = some s.verifications then
    (.error (s.fault s.script.faultKind
      ("scripted fault on attempt " ++ toString s.verifications)), s)
  else
    match s.script.forced with
    | some outcome => (.ok (.ofOutcome outcome), s)
    | none => (.ok s.evaluate, s)

/-- Pops the hypothesis that was pushed last. -/
def pop (s : Session) : Except Fault Unit × Session :=
  match s.stack with
  | [] => (.error (s.fault .session "pop without a matching push"), s)
  | _ :: stack => (.ok (), { s with stack })

instance : InvariantInference.Session Session where
  push := push
  verify := verify
  pop := pop

/-- The procedures that an implementation calls, if all are declared. -/
def resolve (program : Program) (i : Implementation) : Except Fault (Dictionary Procedure) := do
  let found ← i.callees.mapM (fun callee =>
    match program.procedure? callee.value with
    | some p => .ok (callee.value, p)
    | none => .error (⟨i.name.value, .session,
        "call to undeclared procedure " ++ Text.ticked callee.value⟩ : Fault))
  return .ofList found

end Session

/-- Opens model sessions (`ModelOracle`). Implementations without a script of their own have
    the plain one. -/
def oracle (scripts : Dictionary Script) : Oracle Session := fun program i =>
  match program.procedure? i.procedure.value with
  | none => .error ⟨i.name.value, .session,
      "procedure " ++ Text.ticked i.procedure.value ++ " is not declared"⟩
  | some procedure => do
    let callees ← Session.resolve program i
    return ⟨i, procedure, callees, (scripts.get? i.name.value).getD .plain, [], 0, 0⟩

end InvariantInference.Model
