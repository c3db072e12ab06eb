import InvariantInference.Configuration
import InvariantInference.Dictionary

/-!
# Call graphs

The implementations of a program are the nodes of its call graph, numbered in
order of declaration. There is an edge for every call and every implementation
of the procedure that is called.
-/

namespace InvariantInference

/-- An implementation in a call graph (`ImplNode`). -/
structure CallNode where
  name : String
  procedure : String
  span : Span
  deriving DecidableEq, Repr

/-- The implementations of a program and the calls between them. -/
structure CallGraph where
  nodes : List CallNode
  /-- The numbers of the implementations, by name. -/
  byName : Dictionary Nat
  /-- Caller and callee of every call, repeats included. -/
  edges : List (Nat × Nat)
  /-- The distinct callees of each implementation, by their first call. -/
  callees : List (List Nat)
  /-- The distinct callers of each implementation, by their first call. -/
  callers : List (List Nat)
  deriving DecidableEq, Repr

namespace CallGraph

/-- The number of implementations. -/
def size (g : CallGraph) : Nat := g.nodes.length

/-- The numbers of the implementations, in order. -/
def ids (g : CallGraph) : List Nat := List.range g.size

/-- The implementation of a number. -/
def node? (g : CallGraph) (id : Nat) : Option CallNode := g.nodes[id]?

/-- The name of an implementation; numbers that belong to none have no name. -/
def name (g : CallGraph) (id : Nat) : String := ((g.node? id).map (·.name)).getD ""

/-- The number of the implementation of a name. -/
def id? (g : CallGraph) (name : String) : Option Nat := g.byName.get? name

/-- The distinct callees of an implementation, by their first call. -/
def successors (g : CallGraph) (id : Nat) : List Nat := (g.callees[id]?).getD []

/-- The distinct callers of an implementation, by their first call. -/
def predecessors (g : CallGraph) (id : Nat) : List Nat := (g.callers[id]?).getD []

/-- Whether an implementation is one of a procedure. -/
def realizes (g : CallGraph) (procedure : String) (id : Nat) : Bool :=
  (g.node? id).any (·.procedure = procedure)

/-! ## Construction -/

/-- Refuses the second of two procedures of one name. -/
def checkProcedures (seen : List String) : List Procedure → Except ConfigurationError Unit
  | [] => .ok ()
  | p :: rest =>
    if p.name.value ∈ seen then
      .error ⟨.repeatedProcedure p.name.value, p.name.span⟩
    else
      checkProcedures (p.name.value :: seen) rest

/-- The node of an implementation. -/
def nodeOf (i : Implementation) : CallNode := ⟨i.name.value, i.procedure.value, i.span⟩

/-- The implementations so far, with the numbers of those of each procedure. -/
structure Roster where
  nodes : List CallNode
  byName : Dictionary Nat
  byProcedure : Dictionary (List Nat)

namespace Roster

/-- No implementations. -/
def empty : Roster := ⟨[], .empty, .empty⟩

/-- The numbers of the implementations of a procedure, in order. -/
def realizing (r : Roster) (procedure : String) : List Nat :=
  (r.byProcedure.get? procedure).getD []

/-- The roster with one more implementation, under the next number. -/
def enlist (r : Roster) (i : Implementation) : Roster :=
  let id := r.nodes.length
  { nodes := r.nodes ++ [nodeOf i]
    byName := r.byName.insert i.name.value id
    byProcedure := r.byProcedure.alter i.procedure.value (fun known => known.getD [] ++ [id]) }

/-- Enlists an implementation. The second of two of one name is refused, and so
    is an implementation of nothing. -/
def add (p : Program) (r : Roster) (i : Implementation) : Except ConfigurationError Roster :=
  if (r.byName.get? i.name.value).isSome then
    .error ⟨.repeatedImplementation i.name.value, i.name.span⟩
  else if (p.procedure? i.procedure.value).isNone then
    .error ⟨.undeclaredProcedure i.name.value i.procedure.value, i.procedure.span⟩
  else
    .ok (r.enlist i)

/-- The graph of the implementations, without edges. -/
def graph (r : Roster) : CallGraph where
  nodes := r.nodes
  byName := r.byName
  edges := []
  callees := List.replicate r.nodes.length []
  callers := List.replicate r.nodes.length []

end Roster

/-- Adds a number at the end, unless it is there. -/
def addNew (id : Nat) (known : List Nat) : List Nat :=
  if known.contains id then known else known ++ [id]

/-- Adds an edge, and each of its ends to what the other one is next to (`add_edge`). -/
def addEdge (caller : Nat) (g : CallGraph) (callee : Nat) : CallGraph :=
  { g with
    edges := g.edges ++ [(caller, callee)]
    callees := g.callees.modify caller (addNew callee)
    callers := g.callers.modify callee (addNew caller) }

/-- The graph with an edge to every implementation of the procedure that is
    called. -/
def withCall (r : Roster) (caller : Nat) (g : CallGraph) (callee : Located String) : CallGraph :=
  (r.realizing callee.value).foldl (addEdge caller) g

/-- Adds a call. One to a procedure that is not declared is refused. -/
def addCall (p : Program) (r : Roster) (caller : Nat) (g : CallGraph) (callee : Located String) :
    Except ConfigurationError CallGraph :=
  if (p.procedure? callee.value).isNone then
    .error ⟨.undeclaredCallee callee.value, callee.span⟩
  else
    .ok (withCall r caller g callee)

/-- Adds the calls of an implementation, in order. -/
def addCalls (p : Program) (r : Roster) (g : CallGraph) (caller : Implementation × Nat) :
    Except ConfigurationError CallGraph :=
  caller.1.callees.foldlM (addCall p r caller.2) g

/-- The call graph of a program: all implementations are enlisted first, and
    then their calls are added. -/
def build (p : Program) : Except ConfigurationError CallGraph := do
  checkProcedures [] p.procedures
  let roster ← p.implementations.foldlM (Roster.add p) .empty
  p.implementations.zipIdx.foldlM (addCalls p roster) roster.graph

end CallGraph

end InvariantInference
