import InvariantInference.Configuration
import InvariantInference.Dictionary

/-!
# Candidates

The candidates of a program are its existential constants: boolean constants
whose truth value is to be found. A candidate shares its name with no other
declaration.
-/

namespace InvariantInference

namespace Constant

/-- The attribute that makes a constant a candidate. -/
def existentialKey : String := "existential"

/-- Whether a constant is a candidate. -/
def isExistential (c : Constant) : Bool := c.boolAttribute? existentialKey = some true

end Constant

/-- The names of the candidates, in order of declaration, with their spans (`CandidateSet`). -/
structure Candidates where
  members : List (Located String)
  deriving DecidableEq, Repr

namespace Candidates

/-- No candidates. -/
def empty : Candidates := ⟨[]⟩

/-- The names of the candidates. -/
def names (cs : Candidates) : List String := cs.members.map (·.value)

/-- Whether a name is that of a candidate. -/
def contains (cs : Candidates) (name : String) : Bool := cs.names.contains name

end Candidates

/-! ## Collection -/

/-- The candidates so far: their names, their numbers by name, and the places of
    the declarations that they come from. -/
structure Collection where
  members : List (Located String)
  index : Dictionary Nat
  owners : List Nat

namespace Collection

/-- Nothing collected. -/
def empty : Collection := ⟨[], .empty, []⟩

/-- One more candidate, declared at a place. -/
def extend (c : Collection) (name : Located String) (place : Nat) : Collection where
  members := c.members ++ [name]
  index := c.index.insert name.value c.members.length
  owners := c.owners ++ [place]

/-- Looks at one more declaration of the program, at its place. -/
def add (c : Collection) : Declaration × Nat → Except ConfigurationError Collection
  | (.constant k, place) =>
    if !k.isExistential then
      .ok c
    else if k.type ≠ .bool then
      .error ⟨.candidateType k.name.value k.type, k.span⟩
    else if (c.index.get? k.name.value).isSome then
      .error ⟨.repeatedCandidate k.name.value, k.name.span⟩
    else
      .ok (c.extend k.name place)
  | _ => .ok c

/-- Refuses a declaration that takes the name of a candidate: only the one that
    the candidate comes from has it. -/
def refuseCollision (c : Collection) : Declaration × Nat → Except ConfigurationError Unit
  | (d, place) =>
    match c.index.get? d.name.value with
    | none => .ok ()
    | some number =>
      if c.owners[number]? = some place then
        .ok ()
      else
        .error ⟨.collision d.name.value d.kindName, d.name.span⟩

end Collection

namespace Candidates

/-- The candidates of a program. -/
def collect (p : Program) : Except ConfigurationError Candidates := do
  let c ← p.declarations.zipIdx.foldlM Collection.add .empty
  p.declarations.zipIdx.forM c.refuseCollision
  return ⟨c.members⟩

end Candidates

end InvariantInference
