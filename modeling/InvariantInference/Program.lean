import InvariantInference.Clause

/-!
# Programs

A program is a list of declarations: constants, procedures with their
contracts, and implementations of procedures as blocks of commands.
-/

namespace InvariantInference

/-- The type of a constant. -/
inductive ConstantType where
  | bool
  | int
  | named (name : String)
  deriving DecidableEq, Repr

namespace ConstantType

/-- The type that a name denotes. -/
def ofName : String → ConstantType
  | "bool" => bool
  | "int" => int
  | name => named name

/-- The name of a type. -/
def render : ConstantType → String
  | bool => "bool"
  | int => "int"
  | named name => name

end ConstantType

/-- The value of an attribute; a flag has none. -/
inductive AttributeValue where
  | flag
  | bool (value : Bool)
  | int (value : Int)
  | str (text : String)
  deriving DecidableEq, Repr

/-- An attribute of a constant. -/
structure Attribute where
  span : Span
  key : Located String
  value : AttributeValue
  deriving DecidableEq, Repr

/-- A constant. -/
structure Constant where
  span : Span
  name : Located String
  type : ConstantType
  attributes : List Attribute
  deriving DecidableEq, Repr

namespace Constant

/-- The truth value of an attribute (`bool_attribute`). The last attribute of that name
    decides: a flag counts as true, and a value that is no truth value as none. -/
def boolAttribute? (c : Constant) (key : String) : Option Bool :=
  match c.attributes.reverse.find? (·.key.value = key) with
  | some ⟨_, _, .bool value⟩ => some value
  | some ⟨_, _, .flag⟩ => some true
  | _ => none

end Constant

/-- A procedure with its contracts. -/
structure Procedure where
  span : Span
  name : Located String
  requires : List Contract
  ensures : List Contract
  deriving DecidableEq, Repr

/-- A labelled sequence of commands. -/
structure Block where
  span : Span
  label : Located String
  commands : List Command
  deriving DecidableEq, Repr

/-- An implementation of a procedure. -/
structure Implementation where
  span : Span
  name : Located String
  procedure : Located String
  blocks : List Block
  deriving DecidableEq, Repr

namespace Implementation

/-- The commands of all blocks, in order. -/
def commands (i : Implementation) : List Command := i.blocks.flatMap (·.commands)

/-- The procedures that are called, one for each call, in order. -/
def callees (i : Implementation) : List (Located String) := i.commands.filterMap (·.callee?)

end Implementation

/-- A declaration. -/
inductive Declaration where
  | constant (c : Constant)
  | procedure (p : Procedure)
  | implementation (i : Implementation)
  deriving DecidableEq, Repr

namespace Declaration

/-- The declared name. -/
def name : Declaration → Located String
  | constant c => c.name
  | procedure p => p.name
  | implementation i => i.name

/-- What is declared, in a word. -/
def kindName : Declaration → String
  | constant _ => "constant"
  | procedure _ => "procedure"
  | implementation _ => "implementation"

/-- The declared constant. -/
def constant? : Declaration → Option Constant
  | constant c => some c
  | _ => none

/-- The declared procedure. -/
def procedure? : Declaration → Option Procedure
  | procedure p => some p
  | _ => none

/-- The declared implementation. -/
def implementation? : Declaration → Option Implementation
  | implementation i => some i
  | _ => none

end Declaration

/-- A list of declarations. -/
structure Program where
  declarations : List Declaration
  deriving DecidableEq, Repr

namespace Program

/-- The constants, in order of declaration. -/
def constants (p : Program) : List Constant := p.declarations.filterMap (·.constant?)

/-- The procedures, in order of declaration. -/
def procedures (p : Program) : List Procedure := p.declarations.filterMap (·.procedure?)

/-- The implementations, in order of declaration. -/
def implementations (p : Program) : List Implementation :=
  p.declarations.filterMap (·.implementation?)

/-- The first procedure of a name. -/
def procedure? (p : Program) (name : String) : Option Procedure :=
  p.procedures.find? (·.name.value = name)

/-- The first implementation of a name. -/
def implementation? (p : Program) (name : String) : Option Implementation :=
  p.implementations.find? (·.name.value = name)

end Program

end InvariantInference
