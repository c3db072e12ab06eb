import Mathlib
import InvariantInference.Engine.Round
import InvariantInference.Proofs.Dictionary
import InvariantInference.Proofs.Except

/-!
# Call graphs of accepted programs

What `CallGraph.build` checks, and what the graph that it returns says about the
program: its nodes are the implementations, and its edges are the calls. The
graph stores what can be read off its nodes and edges: names, callees and
callers. Every edge that is added keeps these in step, and so does the whole
construction.
-/

namespace InvariantInference

/-- Without repeats no member occurs twice. -/
theorem nodup_eraseDups {α : Type} [DecidableEq α] (l : List α) : l.eraseDups.Nodup := by
  induction hn : l.length using Nat.strong_induction_on generalizing l with
  | _ n ih =>
    cases l with
    | nil => simp
    | cons a l =>
      have shorter : (l.filter (fun b => !b == a)).length < n := by
        have := List.length_filter_le (fun b => !b == a) l
        simp only [List.length_cons] at hn
        omega
      rw [List.eraseDups_cons, List.nodup_cons]
      exact ⟨by simp, ih _ shorter _ rfl⟩

theorem eraseDups_of_nodup {α : Type} [DecidableEq α] {l : List α} (distinct : l.Nodup) :
    l.eraseDups = l := by
  induction l with
  | nil => rfl
  | cons a l ih =>
    rw [List.nodup_cons] at distinct
    have others : l.filter (fun b => !b == a) = l := by
      apply List.filter_eq_self.mpr
      intro b member
      have differs : b ≠ a := fun same => distinct.1 (same ▸ member)
      simpa using differs
    rw [List.eraseDups_cons, others, ih distinct.2]

theorem eraseDups_concat {α : Type} [DecidableEq α] (l : List α) (a : α) :
    (l ++ [a]).eraseDups = if a ∈ l then l.eraseDups else l.eraseDups ++ [a] := by
  rw [List.eraseDups_append]
  by_cases known : a ∈ l <;> simp [List.removeAll, List.eraseDups_cons, known]

/-- What an implementation affects when it refutes an annotation: with a precondition
    of a procedure that it calls, the implementations of this procedure; with its own
    postcondition, the implementations that call its procedure. -/
inductive Implementation.Affects (i : Implementation) : Annotation → Implementation → Prop
  | callee {constant : String} {callee : Located String} {j : Implementation}
      (called : callee ∈ i.callees) (realizes : j.procedure.value = callee.value) :
      Affects i (.requires constant callee.value) j
  | caller {constant : String} {callee : Located String} {j : Implementation}
      (called : callee ∈ j.callees) (realizes : i.procedure.value = callee.value) :
      Affects i (.ensures constant) j

namespace CallGraph

/-! ## What is checked -/

/-- Procedures pass if their names are new and distinct. -/
theorem checkProcedures_eq_ok_iff {seen : List String} {ps : List Procedure} :
    checkProcedures seen ps = .ok () ↔
      (ps.map (·.name.value)).Nodup ∧ ∀ p ∈ ps, p.name.value ∉ seen := by
  induction ps generalizing seen with
  | nil => simp [checkProcedures]
  | cons p ps ih =>
    by_cases repeated : p.name.value ∈ seen
    · simp [checkProcedures, repeated]
    · rw [checkProcedures, if_neg repeated, ih, List.map_cons, List.nodup_cons,
        List.forall_mem_cons]
      simp only [List.mem_map, List.mem_cons, not_or]
      constructor
      · rintro ⟨distinct, new⟩
        exact ⟨⟨fun ⟨q, member, same⟩ => (new q member).1 same, distinct⟩, repeated,
          fun q member => (new q member).2⟩
      · rintro ⟨⟨fresh, distinct⟩, -, new⟩
        exact ⟨distinct, fun q member => ⟨fun same => fresh ⟨q, member, same⟩, new q member⟩⟩

/-! ## The first pass -/

/-- The numbers of the implementations of a procedure, in order. -/
def realizations (nodes : List CallNode) (procedure : String) : List Nat :=
  (nodes.zipIdx.filter (·.1.procedure = procedure)).map (·.2)

theorem realizations_concat (nodes : List CallNode) (node : CallNode) (procedure : String) :
    realizations (nodes ++ [node]) procedure =
      if procedure = node.procedure then realizations nodes procedure ++ [nodes.length]
      else realizations nodes procedure := by
  rw [realizations, List.zipIdx_append, List.filter_append, List.map_append]
  by_cases same : procedure = node.procedure
  · simp [realizations, same]
  · simp [realizations, same, eq_comm]

namespace Roster

variable {p : Program} {r r' : Roster} {is before : List Implementation} {i : Implementation}

/-- The roster is that of these implementations. -/
structure Lists (r : Roster) (is : List Implementation) : Prop where
  nodes : r.nodes = is.map nodeOf
  byName : r.byName.entries = (is.map (·.name.value)).zipIdx
  realizing : ∀ procedure, r.realizing procedure = realizations (is.map nodeOf) procedure

theorem lists_empty : empty.Lists [] where
  nodes := rfl
  byName := rfl
  realizing _ := rfl

theorem Lists.names (lists : r.Lists is) : r.byName.names = is.map (·.name.value) := by
  rw [Dictionary.names, lists.byName, List.zipIdx_map_fst]

/-- An implementation of a new name comes last in all that is listed. -/
theorem Lists.enlist (lists : r.Lists is) (new : i.name.value ∉ is.map (·.name.value)) :
    (r.enlist i).Lists (is ++ [i]) where
  nodes := by simp [Roster.enlist, lists.nodes]
  byName := by
    rw [← lists.names] at new
    rw [Roster.enlist, Dictionary.insert, Dictionary.entries_alter_of_new _ new, lists.byName,
      lists.nodes, List.map_append, List.zipIdx_append]
    simp
  realizing procedure := by
    have known := lists.realizing procedure
    rw [List.map_append, List.map_singleton, realizations_concat, ← known]
    simp only [Roster.realizing, Roster.enlist, Dictionary.get?_alter, lists.nodes]
    by_cases same : procedure = i.procedure.value
    · simp [nodeOf, same]
    · simp [nodeOf, same]

/-- An implementation is enlisted if its name is new and its procedure is declared. -/
theorem add_eq_ok_iff (lists : r.Lists is) :
    r.add p i = .ok r' ↔ i.name.value ∉ is.map (·.name.value) ∧
      (p.procedure? i.procedure.value).isSome ∧ r' = r.enlist i := by
  have known : (r.byName.get? i.name.value).isSome ↔ i.name.value ∈ is.map (·.name.value) := by
    rw [← lists.names, Dictionary.mem_names_iff, Option.isSome_iff_exists]
  unfold add
  by_cases repeated : i.name.value ∈ is.map (·.name.value)
  · simp [known.mpr repeated, repeated]
  · rw [if_neg (mt known.mp repeated)]
    cases p.procedure? i.procedure.value <;> simp [repeated, eq_comm]

theorem Lists.foldl_enlist (lists : r.Lists before)
    (distinct : ((before ++ is).map (·.name.value)).Nodup) :
    (is.foldl Roster.enlist r).Lists (before ++ is) := by
  induction is generalizing r before with
  | nil => simpa using lists
  | cons i is ih =>
    rw [List.append_cons] at distinct ⊢
    refine ih (lists.enlist ?_) distinct
    rw [List.map_append, List.map_append] at distinct
    have apart := distinct.of_append_left
    rw [List.nodup_append] at apart
    exact fun known => apart.2.2 _ known _ (by simp) rfl

/-- All implementations are enlisted if their names are distinct and their procedures are
    declared. -/
theorem foldlM_add_eq_ok_iff (lists : r.Lists before)
    (distinct : (before.map (·.name.value)).Nodup) :
    is.foldlM (add p) r = .ok r' ↔
      ((before ++ is).map (·.name.value)).Nodup ∧
        (∀ i ∈ is, (p.procedure? i.procedure.value).isSome) ∧ r' = is.foldl Roster.enlist r := by
  induction is generalizing r before with
  | nil =>
    rw [List.append_nil]
    simp [distinct, pure, Except.pure, @eq_comm _ r]
  | cons i is ih =>
    rw [List.foldlM_cons, bind_eq_ok_iff]
    simp only [add_eq_ok_iff lists, List.forall_mem_cons]
    by_cases repeated : i.name.value ∈ before.map (·.name.value)
    · have clash : ¬ ((before ++ i :: is).map (·.name.value)).Nodup := by
        rw [List.map_append, List.nodup_append]
        exact fun ⟨_, _, apart⟩ => apart _ repeated _ (by simp) rfl
      simp only [repeated, clash, not_true_eq_false, false_and, exists_false]
    · have distinct' : ((before ++ [i]).map (·.name.value)).Nodup := by
        rw [List.map_append, List.map_singleton, ← List.concat_eq_append]
        exact distinct.concat repeated
      have rest := ih (lists.enlist repeated) distinct'
      rw [List.append_cons, List.foldl_cons]
      constructor
      · rintro ⟨_, ⟨-, declared, rfl⟩, enlisted⟩
        obtain ⟨names, others, rfl⟩ := rest.mp enlisted
        exact ⟨names, ⟨declared, others⟩, rfl⟩
      · rintro ⟨names, ⟨declared, others⟩, rfl⟩
        exact ⟨_, ⟨repeated, declared, rfl⟩, rest.mpr ⟨names, others, rfl⟩⟩

end Roster

/-! ## The second pass -/

/-- The distinct ends of the edges that start at an implementation, by their first edge. -/
def neighbours (edges : List (Nat × Nat)) (u : Nat) : List Nat :=
  ((edges.filter (·.1 = u)).map (·.2)).eraseDups

theorem mem_neighbours {edges : List (Nat × Nat)} {u v : Nat} :
    v ∈ neighbours edges u ↔ (u, v) ∈ edges := by
  simp only [neighbours, List.mem_eraseDups, List.mem_map, List.mem_filter, decide_eq_true_eq,
    Prod.exists]
  constructor
  · rintro ⟨a, b, ⟨member, rfl⟩, rfl⟩
    exact member
  · intro member
    exact ⟨u, v, ⟨member, rfl⟩, rfl⟩

theorem neighbours_concat (edges : List (Nat × Nat)) (u v w : Nat) :
    neighbours (edges ++ [(u, v)]) w =
      if u = w then addNew v (neighbours edges w) else neighbours edges w := by
  rw [neighbours, List.filter_append, List.map_append]
  by_cases here : u = w
  · have known : v ∈ neighbours edges w ↔ v ∈ (edges.filter (·.1 = w)).map (·.2) :=
      List.mem_eraseDups
    simp only [here, decide_true, List.filter_cons_of_pos, List.filter_nil, List.map_cons,
      List.map_nil, if_true, addNew, eraseDups_concat, List.contains_iff_mem, known]
    rfl
  · simp [neighbours, here]

/-- The neighbours of each implementation. -/
def rows (n : Nat) (edges : List (Nat × Nat)) : List (List Nat) :=
  (List.range n).map (neighbours edges)

/-- One more edge shows in the row where it starts. -/
theorem modify_rows (n : Nat) (edges : List (Nat × Nat)) (u v : Nat) :
    (rows n edges).modify u (addNew v) = rows n (edges ++ [(u, v)]) := by
  apply List.ext_getElem?
  intro w
  rw [List.getElem?_modify, rows, rows, List.getElem?_map, List.getElem?_map]
  by_cases inside : w < n
  · rw [List.getElem?_range inside]
    by_cases here : u = w <;> simp [neighbours_concat, here]
  · rw [List.getElem?_eq_none (by simpa using inside)]
    rfl

/-- The graph whose other views are those of its nodes and edges. -/
def ofEdges (nodes : List CallNode) (edges : List (Nat × Nat)) : CallGraph where
  nodes
  byName := ⟨(nodes.map (·.name)).zipIdx⟩
  edges
  callees := rows nodes.length edges
  callers := rows nodes.length (edges.map Prod.swap)

/-- One more edge shows in both tables. -/
theorem addEdge_ofEdges (nodes : List CallNode) (edges : List (Nat × Nat)) (caller callee : Nat) :
    (ofEdges nodes edges).addEdge caller callee = ofEdges nodes (edges ++ [(caller, callee)]) := by
  simp [addEdge, ofEdges, modify_rows]

/-- What holds of one step holds of several: they add their edges one after the other. -/
theorem foldl_ofEdges {α : Type} {nodes : List CallNode} {add : CallGraph → α → CallGraph}
    {more : α → List (Nat × Nat)}
    (each : ∀ edges a, add (ofEdges nodes edges) a = ofEdges nodes (edges ++ more a))
    (l : List α) (edges : List (Nat × Nat)) :
    l.foldl add (ofEdges nodes edges) = ofEdges nodes (edges ++ l.flatMap more) := by
  induction l generalizing edges with
  | nil => simp
  | cons a l ih => rw [List.foldl_cons, each, ih, List.flatMap_cons, List.append_assoc]

/-- The edges that start at one implementation. -/
def edgesOf (nodes : List CallNode) (i : Implementation) (id : Nat) : List (Nat × Nat) :=
  i.callees.flatMap (fun callee => (realizations nodes callee.value).map ((id, ·)))

/-- The graph that is built for a program that passes all checks. -/
def ofProgram (p : Program) : CallGraph :=
  let nodes := p.implementations.map nodeOf
  ofEdges nodes (p.implementations.zipIdx.flatMap (fun (i, id) => edgesOf nodes i id))

section Passes

variable {p : Program} {r : Roster} {is : List Implementation} {g : CallGraph}

theorem addCall_eq_ok_iff (caller : Nat) (g : CallGraph) (callee : Located String)
    (g' : CallGraph) :
    addCall p r caller g callee = .ok g' ↔
      (p.procedure? callee.value).isSome ∧ g' = withCall r caller g callee := by
  unfold addCall
  cases p.procedure? callee.value <;> simp [eq_comm]

/-- The graph with the edges of all calls of an implementation. -/
def withCalls (r : Roster) (g : CallGraph) (caller : Implementation × Nat) : CallGraph :=
  caller.1.callees.foldl (withCall r caller.2) g

theorem addCalls_eq_ok_iff (g : CallGraph) (caller : Implementation × Nat) (g' : CallGraph) :
    addCalls p r g caller = .ok g' ↔
      (∀ callee ∈ caller.1.callees, (p.procedure? callee.value).isSome) ∧
        g' = withCalls r g caller :=
  foldlM_eq_ok_iff (addCall_eq_ok_iff caller.2)

/-- Before the second pass all rows are empty. -/
theorem Roster.Lists.graph (lists : r.Lists is) : r.graph = ofEdges (is.map nodeOf) [] := by
  have byName : r.byName = ⟨(is.map (·.name.value)).zipIdx⟩ := congrArg Dictionary.mk lists.byName
  have names : is.map (·.name.value) = (is.map nodeOf).map (·.name) := by
    simp [nodeOf, Function.comp_def]
  have empty : List.replicate (is.map nodeOf).length [] = rows (is.map nodeOf).length [] := by
    rw [rows, eq_comm, List.eq_replicate_iff]
    simp [neighbours]
  rw [Roster.graph, lists.nodes, byName, empty, names]
  rfl

theorem Roster.Lists.withCall (lists : r.Lists is) (caller : Nat) (edges : List (Nat × Nat))
    (callee : Located String) :
    withCall r caller (ofEdges (is.map nodeOf) edges) callee = ofEdges (is.map nodeOf)
      (edges ++ (realizations (is.map nodeOf) callee.value).map ((caller, ·))) := by
  have added := foldl_ofEdges
    (fun edges callee => addEdge_ofEdges (is.map nodeOf) edges caller callee)
    (realizations (is.map nodeOf) callee.value) edges
  rw [CallGraph.withCall, lists.realizing, added, ← List.map_eq_flatMap]

/-- The edges of the second pass are those of all calls. -/
theorem Roster.Lists.withAllCalls (lists : r.Lists is) :
    is.zipIdx.foldl (withCalls r) r.graph =
      ofEdges (is.map nodeOf) (is.zipIdx.flatMap fun (i, id) => edgesOf (is.map nodeOf) i id) := by
  rw [lists.graph]
  refine (foldl_ofEdges (fun edges caller => ?_) is.zipIdx []).trans (by rw [List.nil_append])
  exact foldl_ofEdges (fun edges callee => lists.withCall caller.2 edges callee) _ edges

/-- A graph is built for exactly the programs whose names are distinct and whose
    references are declared. -/
theorem build_eq_ok_iff :
    build p = .ok g ↔
      (p.procedures.map (·.name.value)).Nodup ∧ (p.implementations.map (·.name.value)).Nodup ∧
        (∀ i ∈ p.implementations, (p.procedure? i.procedure.value).isSome) ∧
        (∀ i ∈ p.implementations, ∀ callee ∈ i.callees, (p.procedure? callee.value).isSome) ∧
        g = ofProgram p := by
  have enlisted : ∀ roster, p.implementations.foldlM (Roster.add p) .empty = .ok roster ↔
      (p.implementations.map (·.name.value)).Nodup ∧
        (∀ i ∈ p.implementations, (p.procedure? i.procedure.value).isSome) ∧
        roster = p.implementations.foldl Roster.enlist .empty :=
    fun roster => Roster.foldlM_add_eq_ok_iff Roster.lists_empty List.nodup_nil
  have called : ∀ roster : Roster,
      p.implementations.zipIdx.foldlM (addCalls p roster) roster.graph = .ok g ↔
        (∀ i ∈ p.implementations, ∀ callee ∈ i.callees, (p.procedure? callee.value).isSome) ∧
          g = p.implementations.zipIdx.foldl (withCalls roster) roster.graph := by
    intro roster
    have everywhere := List.forall_mem_map (l := p.implementations.zipIdx) (f := Prod.fst)
      (P := fun i => ∀ callee ∈ i.callees, (p.procedure? callee.value).isSome)
    rw [List.zipIdx_map_fst] at everywhere
    rw [everywhere]
    exact foldlM_eq_ok_iff addCalls_eq_ok_iff
  rw [build, check_bind_eq_ok_iff, bind_eq_ok_iff, checkProcedures_eq_ok_iff]
  simp only [enlisted, called, List.not_mem_nil, not_false_eq_true, implies_true, and_true]
  refine and_congr_right fun _ => ⟨?_, ?_⟩
  · rintro ⟨_, ⟨distinct, declared, rfl⟩, callees, rfl⟩
    exact ⟨distinct, declared, callees, (Roster.lists_empty.foldl_enlist distinct).withAllCalls⟩
  · rintro ⟨distinct, declared, callees, rfl⟩
    exact ⟨_, ⟨distinct, declared, rfl⟩, callees,
      (Roster.lists_empty.foldl_enlist distinct).withAllCalls.symm⟩

end Passes

/-! ## What the graph says -/

section Built

variable {p : Program} {g : CallGraph}

theorem size_of_build (built : build p = .ok g) : g.size = p.implementations.length := by
  obtain ⟨-, -, -, -, rfl⟩ := build_eq_ok_iff.mp built
  simp [size, ofProgram, ofEdges]

/-- The number of an implementation is its place among the declarations. -/
theorem node?_of_build (built : build p = .ok g) (id : Nat) :
    g.node? id = (p.implementations[id]?).map nodeOf := by
  obtain ⟨-, -, -, -, rfl⟩ := build_eq_ok_iff.mp built
  simp [node?, ofProgram, ofEdges]

/-- The name of a node is that of the implementation. -/
theorem name_of_build (built : build p = .ok g) {id : Nat} {i : Implementation}
    (place : p.implementations[id]? = some i) : g.name id = i.name.value := by
  simp [name, node?_of_build built, place, nodeOf]

/-- The nodes stand in the order of the declarations. -/
theorem names_of_build (built : build p = .ok g) :
    g.ids.map g.name = p.implementations.map (·.name.value) := by
  apply List.ext_getElem
  · simp [ids, size_of_build built]
  · intro id _ below
    rw [List.length_map] at below
    simp only [ids, List.getElem_map, List.getElem_range]
    exact name_of_build built (List.getElem?_eq_getElem below)

/-- A node realizes the procedure of its implementation. -/
theorem realizes_of_build (built : build p = .ok g) {id : Nat} {i : Implementation}
    (place : p.implementations[id]? = some i) (procedure : String) :
    g.realizes procedure id = (i.procedure.value = procedure : Bool) := by
  simp [realizes, node?_of_build built, place, nodeOf]

/-- An implementation is found in one place only. -/
theorem place_unique (built : build p = .ok g) {u v : Nat} {i j : Implementation}
    (first : p.implementations[u]? = some i) (second : p.implementations[v]? = some j)
    (same : i.name.value = j.name.value) : u = v := by
  obtain ⟨-, distinct, -⟩ := build_eq_ok_iff.mp built
  have below : u < (p.implementations.map (·.name.value)).length := by
    rw [List.length_map]
    exact (List.getElem?_eq_some_iff.mp first).1
  refine (List.getElem?_inj below distinct).mp ?_
  simp [first, second, same]

theorem mem_realizations {is : List Implementation} {procedure : String} {v : Nat} :
    v ∈ realizations (is.map nodeOf) procedure ↔
      ∃ j, is[v]? = some j ∧ j.procedure.value = procedure := by
  simp only [realizations, List.mem_map, List.mem_filter, decide_eq_true_eq, Prod.exists]
  constructor
  · rintro ⟨node, _, ⟨member, same⟩, rfl⟩
    have place := List.mem_zipIdx_iff_getElem?.mp member
    simp only [List.getElem?_map, Option.map_eq_some_iff] at place
    obtain ⟨j, found, rfl⟩ := place
    exact ⟨j, found, same⟩
  · rintro ⟨j, found, same⟩
    refine ⟨nodeOf j, v, ⟨?_, same⟩, rfl⟩
    rw [List.mem_zipIdx_iff_getElem?]
    simp [found]

/-- There is an edge for every call and every implementation of the procedure
    that is called. -/
theorem mem_edges_of_build (built : build p = .ok g) {u v : Nat} :
    (u, v) ∈ g.edges ↔
      ∃ i j, p.implementations[u]? = some i ∧ p.implementations[v]? = some j ∧
        ∃ callee ∈ i.callees, j.procedure.value = callee.value := by
  obtain ⟨-, -, -, -, rfl⟩ := build_eq_ok_iff.mp built
  simp only [ofProgram, ofEdges, edgesOf, List.mem_flatMap, List.mem_map, Prod.exists,
    Prod.mk.injEq, mem_realizations]
  constructor
  · rintro ⟨i, _, member, callee, called, _, ⟨j, found, same⟩, rfl, rfl⟩
    exact ⟨i, j, List.mem_zipIdx_iff_getElem?.mp member, found, callee, called, same⟩
  · rintro ⟨i, j, place, found, callee, called, same⟩
    exact ⟨i, u, List.mem_zipIdx_iff_getElem?.mpr place, callee, called, v, ⟨j, found, same⟩,
      rfl, rfl⟩

/-- Edges are between implementations. -/
theorem lt_size_of_mem_edges (built : build p = .ok g) {u v : Nat} (edge : (u, v) ∈ g.edges) :
    u < g.size ∧ v < g.size := by
  obtain ⟨i, j, source, target, -⟩ := (mem_edges_of_build built).mp edge
  rw [size_of_build built]
  exact ⟨(List.getElem?_eq_some_iff.mp source).1, (List.getElem?_eq_some_iff.mp target).1⟩

/-- The row of an implementation, or of a number that belongs to none. -/
theorem getD_rows {n : Nat} {edges : List (Nat × Nat)} (bounded : ∀ e ∈ edges, e.1 < n) (u : Nat) :
    ((rows n edges)[u]?).getD [] = neighbours edges u := by
  by_cases inside : u < n
  · simp [rows, inside]
  · have none : neighbours edges u = [] := by
      refine List.eq_nil_iff_forall_not_mem.mpr fun v member => ?_
      exact inside (bounded _ (mem_neighbours.mp member))
    simp [rows, inside, none]

/-- The table of callees is that of the edges. -/
theorem successors_of_build (built : build p = .ok g) (u : Nat) :
    g.successors u = neighbours g.edges u := by
  have bounded : ∀ e ∈ g.edges, e.1 < g.size :=
    fun _ member => (lt_size_of_mem_edges built member).1
  obtain ⟨-, -, -, -, rfl⟩ := build_eq_ok_iff.mp built
  exact getD_rows bounded u

/-- The table of callers is that of the edges, seen from their ends. -/
theorem predecessors_of_build (built : build p = .ok g) (v : Nat) :
    g.predecessors v = neighbours (g.edges.map Prod.swap) v := by
  have bounded : ∀ e ∈ g.edges.map Prod.swap, e.1 < g.size := by
    rw [List.forall_mem_map]
    exact fun _ edge => (lt_size_of_mem_edges built edge).2
  obtain ⟨-, -, -, -, rfl⟩ := build_eq_ok_iff.mp built
  exact getD_rows bounded v

theorem mem_successors (built : build p = .ok g) {u v : Nat} :
    v ∈ g.successors u ↔ (u, v) ∈ g.edges := by
  rw [successors_of_build built, mem_neighbours]

theorem mem_predecessors (built : build p = .ok g) {u v : Nat} :
    u ∈ g.predecessors v ↔ (u, v) ∈ g.edges := by
  rw [predecessors_of_build built, mem_neighbours]
  exact List.mem_map_of_injective Prod.swap_injective (a := (u, v))

/-- The graph finds the implementations that a refutation affects. -/
theorem mem_affected_iff (built : build p = .ok g) {u v : Nat} {i j : Implementation}
    (source : p.implementations[u]? = some i) (target : p.implementations[v]? = some j)
    {a : Annotation} : v ∈ g.affected u a ↔ i.Affects a j := by
  have calls : ∀ {u v : Nat} {i j : Implementation}, p.implementations[u]? = some i →
      p.implementations[v]? = some j →
      ((u, v) ∈ g.edges ↔ ∃ callee ∈ i.callees, j.procedure.value = callee.value) := by
    intro u v i j source target
    rw [mem_edges_of_build built]
    constructor
    · rintro ⟨i', j', source', target', called⟩
      rw [source] at source'
      rw [target] at target'
      cases source'
      cases target'
      exact called
    · intro called
      exact ⟨i, j, source, target, called⟩
  cases a with
  | requires constant procedure =>
    rw [affected, List.mem_filter, mem_successors built, calls source target,
      realizes_of_build built target, decide_eq_true_eq]
    constructor
    · rintro ⟨⟨callee, called, realizes⟩, named⟩
      rw [← named, realizes]
      exact .callee called realizes
    · intro affects
      cases affects with
      | callee called realizes => exact ⟨⟨_, called, realizes⟩, realizes⟩
  | ensures constant =>
    rw [affected, mem_predecessors built, calls target source]
    constructor
    · rintro ⟨callee, called, realizes⟩
      exact .caller called realizes
    · intro affects
      cases affects with
      | caller called realizes => exact ⟨_, called, realizes⟩
  | assert constant =>
    constructor
    · intro member
      simp [affected] at member
    · intro affects
      cases affects

/-- Only implementations are affected by a refutation. -/
theorem lt_size_of_mem_affected (built : build p = .ok g) {current id : Nat} {a : Annotation}
    (member : id ∈ g.affected current a) : id < g.size := by
  cases a with
  | requires constant callee =>
    exact (lt_size_of_mem_edges built
      ((mem_successors built).mp (List.mem_filter.mp member).1)).2
  | ensures constant =>
    exact (lt_size_of_mem_edges built ((mem_predecessors built).mp member)).1
  | assert constant => simp [affected] at member

end Built

end CallGraph

end InvariantInference
