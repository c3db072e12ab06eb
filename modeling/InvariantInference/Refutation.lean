import InvariantInference.Candidate
import InvariantInference.Verdict

/-!
# Refutations

A counterexample to a condition of the form `c ==> property`, with `c` a
candidate, refutes the annotation that `c` guards. All other counterexamples
are genuine violations.
-/

namespace InvariantInference

/-- An annotation that a candidate guards (`RefutedAnnotation`). -/
inductive Annotation where
  /-- A `requires` of a procedure, refuted at a call of it. -/
  | requires (constant callee : String)
  | ensures (constant : String)
  | assert (constant : String)
  deriving DecidableEq, Repr

namespace Annotation

/-- The candidate that guards an annotation. -/
def constant : Annotation → String
  | requires constant _ => constant
  | ensures constant => constant
  | assert constant => constant

/-- An annotation in one line. -/
def render : Annotation → String
  | requires constant callee => "requires(" ++ constant ++ ", " ++ callee ++ ")"
  | ensures constant => "ensures(" ++ constant ++ ")"
  | assert constant => "assert(" ++ constant ++ ")"

end Annotation

/-- An annotation and the counterexample that refutes it. -/
structure Refutation where
  annotation : Annotation
  counterexample : Counterexample
  deriving DecidableEq, Repr

namespace Refutation

/-- The candidate that is refuted. -/
def constant (r : Refutation) : String := r.annotation.constant

/-- Where the call, return or assertion that failed starts. -/
def offset (r : Refutation) : Nat := r.counterexample.span.offset

end Refutation

namespace Candidates

/-- The candidate that guards a condition (`match_candidate`). -/
def guard? (cs : Candidates) (condition : Expr) : Option String :=
  match condition.implication? with
  | some (premise, _) => premise.name?.filter cs.contains
  | none => none

/-- The annotation that a counterexample refutes; a genuine violation refutes
    none. -/
def annotation? (cs : Candidates) (c : Counterexample) : Option Annotation :=
  (cs.guard? c.condition).map (fun constant =>
    match c.kind with
    | .precondition callee => .requires constant callee
    | .postcondition => .ensures constant
    | .assertion => .assert constant)

/-- The refutation that a counterexample is (`classify`). -/
def refutation? (cs : Candidates) (c : Counterexample) : Option Refutation :=
  (cs.annotation? c).map (⟨·, c⟩)

end Candidates

/-- A verdict whose counterexamples are told apart (`ClassifiedVerdict`). -/
structure Classified where
  outcome : Outcome
  refuted : List Refutation
  genuine : List Counterexample
  deriving DecidableEq, Repr

namespace Classified

/-- An outcome without counterexamples. -/
def ofOutcome (outcome : Outcome) : Classified := ⟨outcome, [], []⟩

/-- Tells the counterexamples of a verdict apart; both kinds keep their order
    (`classify_verdict`). -/
def ofVerdict (cs : Candidates) (v : Verdict) : Classified :=
  ⟨v.outcome, v.errors.filterMap cs.refutation?,
    v.errors.filter (fun c => (cs.refutation? c).isNone)⟩

/-- Whether there is a genuine violation. -/
def hasGenuine (c : Classified) : Bool := !c.genuine.isEmpty

end Classified

end InvariantInference
