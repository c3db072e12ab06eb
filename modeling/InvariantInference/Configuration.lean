import InvariantInference.Program
import InvariantInference.Text.Quoted

/-!
# Faults of a program as a whole

A program whose parts are well formed can still be unfit for inference: names
clash, or refer to nothing.
-/

namespace InvariantInference

/-- Why a program is unfit for inference. -/
inductive ConfigurationFault where
  /-- An existential constant is no truth value. -/
  | candidateType (name : String) (type : ConstantType)
  | repeatedCandidate (name : String)
  /-- A candidate shares its name with another declaration. -/
  | collision (name kind : String)
  | repeatedProcedure (name : String)
  | repeatedImplementation (name : String)
  /-- An implementation of a procedure that is not declared. -/
  | undeclaredProcedure (implementation procedure : String)
  | undeclaredCallee (callee : String)
  deriving DecidableEq, Repr

namespace ConfigurationFault

open Text

/-- The wording of a fault. -/
def message : ConfigurationFault → String
  | candidateType name type =>
    "existential constant " ++ ticked name ++ " must have type bool, found " ++ type.render
  | repeatedCandidate name => "candidate " ++ ticked name ++ " is declared more than once"
  | collision name kind =>
    "candidate " ++ ticked name ++ " collides with " ++ kind ++ " " ++ ticked name
  | repeatedProcedure name => "procedure " ++ ticked name ++ " is declared more than once"
  | repeatedImplementation name =>
    "implementation " ++ ticked name ++ " is declared more than once"
  | undeclaredProcedure implementation procedure =>
    "implementation " ++ ticked implementation ++ " refers to undeclared procedure " ++
      ticked procedure
  | undeclaredCallee callee => "call to undeclared procedure " ++ ticked callee

end ConfigurationFault

/-- A fault and the span of the text at fault. -/
structure ConfigurationError where
  fault : ConfigurationFault
  span : Span
  deriving DecidableEq, Repr

end InvariantInference
