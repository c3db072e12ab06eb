import Mathlib
import InvariantInference.Proofs.CallGraph

/-!
# The views of a call graph

A call graph stores four views: a list of edges, a table of callees, a table of
callers and an index of names, all filled step by step. The edges are the calls of
the program in the order of the text, once for each implementation of the procedure
that is called. The successors and predecessors are the ends of edges in the order
in which they first occur. So all views say the same about who calls whom.
-/

namespace InvariantInference

/-! ## First occurrences -/

/-- The members of a list, each once, in the order in which they first occur. -/
structure FirstOccurrences {α : Type} [DecidableEq α] (l firsts : List α) : Prop where
  distinct : firsts.Nodup
  members : ∀ a, a ∈ firsts ↔ a ∈ l
  order : firsts.Pairwise (fun a b => l.idxOf a < l.idxOf b)

/-- A list without its repeats. -/
theorem firstOccurrences_eraseDups {α : Type} [DecidableEq α] (l : List α) :
    FirstOccurrences l l.eraseDups := by
  refine ⟨nodup_eraseDups l, fun a => List.mem_eraseDups, ?_⟩
  -- On the last member: only there can something new come in, and it comes last.
  induction l using List.reverseRecOn with
  | nil => exact .nil
  | append_singleton l last ih =>
    have before : l.eraseDups.Pairwise
        (fun a b => (l ++ [last]).idxOf a < (l ++ [last]).idxOf b) := by
      refine ih.imp_of_mem fun first second earlier => ?_
      rw [List.idxOf_append_of_mem (List.mem_eraseDups.mp first),
        List.idxOf_append_of_mem (List.mem_eraseDups.mp second)]
      exact earlier
    rw [eraseDups_concat]
    split
    · exact before
    · rename_i new
      refine List.pairwise_append.mpr ⟨before, List.pairwise_singleton _ _, ?_⟩
      intro a member b isLast
      rw [List.mem_singleton.mp isLast, List.idxOf_append_of_mem (List.mem_eraseDups.mp member),
        List.idxOf_append_of_notMem new]
      have inside := List.idxOf_lt_length_iff.mpr (List.mem_eraseDups.mp member)
      omega

/-! ## Lists with their places -/

/-- What comes of the members of a list, with the place of the member that it comes of. -/
def numbered {α β : Type} (l : List α) (f : α → List β) : List (Nat × β) :=
  l.zipIdx.flatMap fun (a, n) => (f a).map ((n, ·))

section Numbered

variable {α β γ : Type} {l : List α} {f : α → List β}

theorem mem_numbered {n : Nat} {b : β} :
    (n, b) ∈ numbered l f ↔ ∃ a, l[n]? = some a ∧ b ∈ f a := by
  simp only [numbered, List.mem_flatMap, List.mem_map, Prod.exists, Prod.mk.injEq,
    List.mem_zipIdx_iff_getElem?]
  constructor
  · rintro ⟨a, m, place, _, member, rfl, rfl⟩
    exact ⟨a, place, member⟩
  · rintro ⟨a, place, member⟩
    exact ⟨a, n, place, b, member, rfl, rfl⟩

/-- The places come first in the order. -/
theorem pairwise_numbered {r : β → β → Prop} (each : ∀ a ∈ l, (f a).Pairwise r) :
    (numbered l f).Pairwise (Prod.Lex (· < ·) r) := by
  have places : l.zipIdx.Pairwise (fun x y => x.2 < y.2) := by
    rw [← List.pairwise_map (f := Prod.snd) (R := (· < ·)), List.zipIdx_map_snd]
    exact List.pairwise_lt_range'
  rw [numbered, List.pairwise_flatMap]
  constructor
  · rintro ⟨a, n⟩ member
    rw [List.pairwise_map]
    exact (each a (List.fst_mem_of_mem_zipIdx member)).imp fun before => .right n before
  · apply places.imp
    rintro ⟨a, n⟩ ⟨a', n'⟩ earlier x first y second
    obtain ⟨b, -, rfl⟩ := List.mem_map.mp first
    obtain ⟨b', -, rfl⟩ := List.mem_map.mp second
    exact .left b b' earlier

theorem map_snd_numbered : (numbered l f).map Prod.snd = l.flatMap f := by
  have forgotten : l.flatMap f = (l.zipIdx.map Prod.fst).flatMap f := by rw [List.zipIdx_map_fst]
  rw [forgotten, numbered, List.map_flatMap, List.flatMap_map]
  simp [Function.comp_def]

theorem map_numbered (g : β → γ) :
    (numbered l f).map (Prod.map id g) = numbered l fun a => (f a).map g := by
  simp [numbered, List.map_flatMap, Function.comp_def]

end Numbered

/-! ## Programs that are accepted -/

namespace Program

/-- A procedure of this name is declared. -/
def Declares (p : Program) (name : String) : Prop := ∃ q ∈ p.procedures, q.name.value = name

theorem isSome_procedure?_iff {p : Program} {name : String} :
    (p.procedure? name).isSome ↔ p.Declares name := by
  simp [procedure?, Declares]

/-- All names are distinct, and all procedures that are referred to are declared. -/
structure WellDeclared (p : Program) : Prop where
  procedures : (p.procedures.map (·.name.value)).Nodup
  implementations : (p.implementations.map (·.name.value)).Nodup
  realized : ∀ i ∈ p.implementations, p.Declares i.procedure.value
  called : ∀ i ∈ p.implementations, ∀ block ∈ i.blocks, ∀ span callee,
    .call span callee ∈ block.commands → p.Declares callee.value

/-- In the implementation at place `u` the command at place `k` of the block at place `b` is a
    call to the procedure of the implementation at place `v`. -/
def CallsAt (p : Program) (u b k v : Nat) : Prop :=
  ∃ i block span callee j, p.implementations[u]? = some i ∧ i.blocks[b]? = some block ∧
    block.commands[k]? = some (.call span callee) ∧ p.implementations[v]? = some j ∧
    j.procedure.value = callee.value

end Program

theorem Implementation.mem_callees {i : Implementation} {callee : Located String} :
    callee ∈ i.callees ↔ ∃ block ∈ i.blocks, ∃ span, .call span callee ∈ block.commands := by
  simp only [callees, commands, List.mem_filterMap, List.mem_flatMap]
  constructor
  · rintro ⟨c, ⟨block, inside, command⟩, called⟩
    cases c with
    | call span =>
      cases called
      exact ⟨block, inside, span, command⟩
    | _ => cases called
  · rintro ⟨block, inside, span, command⟩
    exact ⟨_, ⟨block, inside, command⟩, rfl⟩

namespace CallGraph

variable {p : Program} {g : CallGraph}

/-- A graph is built for exactly the programs whose names are distinct and whose references are
    declared. -/
theorem build_isOk_iff : (∃ g, build p = .ok g) ↔ p.WellDeclared := by
  simp only [build_eq_ok_iff, exists_and_left, exists_eq, and_true,
    Program.isSome_procedure?_iff, Implementation.mem_callees]
  constructor
  · rintro ⟨procedures, implementations, realized, called⟩
    exact ⟨procedures, implementations, realized, fun i member block inside span callee command =>
      called i member callee ⟨block, inside, span, command⟩⟩
  · rintro ⟨procedures, implementations, realized, called⟩
    refine ⟨procedures, implementations, realized, ?_⟩
    rintro i member callee ⟨block, inside, span, command⟩
    exact called i member block inside span callee command

/-! ## Edges -/

/-- Calls in the order of the text, and of the implementations of what is called. -/
def SiteOrder : Nat × Nat × Nat × Nat → Nat × Nat × Nat × Nat → Prop :=
  Prod.Lex (· < ·) (Prod.Lex (· < ·) (Prod.Lex (· < ·) (· < ·)))

/-- The places of all calls of a program: implementation, block, command, and implementation of
    what is called. -/
def callSites (p : Program) : List (Nat × Nat × Nat × Nat) :=
  numbered p.implementations fun i => numbered i.blocks fun block => numbered block.commands fun c =>
    c.callee?.toList.flatMap fun callee =>
      realizations (p.implementations.map nodeOf) callee.value

theorem pairwise_realizations (nodes : List CallNode) (procedure : String) :
    (realizations nodes procedure).Pairwise (· < ·) := by
  have places : (nodes.zipIdx.map Prod.snd).Pairwise (· < ·) := by
    rw [List.zipIdx_map_snd]
    exact List.pairwise_lt_range'
  exact places.sublist (List.filter_sublist.map _)

theorem pairwise_callSites (p : Program) : (callSites p).Pairwise SiteOrder := by
  refine pairwise_numbered fun i _ => pairwise_numbered fun block _ => pairwise_numbered ?_
  intro c _
  cases c.callee? with
  | none => exact .nil
  | some callee =>
    rw [Option.toList_some, List.flatMap_singleton]
    exact pairwise_realizations _ _

theorem mem_callSites {u b k v : Nat} : (u, b, k, v) ∈ callSites p ↔ p.CallsAt u b k v := by
  simp only [callSites, mem_numbered, List.mem_flatMap, Option.mem_toList, mem_realizations]
  constructor
  · rintro ⟨i, source, block, inside, c, command, callee, called, j, target, realizes⟩
    cases c with
    | call span =>
      cases called
      exact ⟨i, block, span, _, j, source, inside, command, target, realizes⟩
    | _ => cases called
  · rintro ⟨i, block, span, callee, j, source, inside, command, target, realizes⟩
    exact ⟨i, source, block, inside, _, command, callee, rfl, j, target, realizes⟩

/-- There is one edge for each call and each implementation of what is called, in this order. -/
theorem edges_of_build (built : build p = .ok g) :
    g.edges = (callSites p).map fun (u, _, _, v) => (u, v) := by
  obtain ⟨-, -, -, -, rfl⟩ := build_eq_ok_iff.mp built
  have forget : (fun (u, _, _, v) => (u, v) : Nat × Nat × Nat × Nat → Nat × Nat) =
      Prod.map id (Prod.snd ∘ Prod.snd) := rfl
  rw [forget, callSites, map_numbered]
  simp only [← List.map_map, map_snd_numbered, List.map_flatMap]
  simp only [ofProgram, ofEdges, edgesOf, numbered, Implementation.callees, Implementation.commands,
    List.filterMap_eq_flatMap_toList, List.flatMap_assoc, List.map_flatMap]

/-! ## Names -/

theorem names_ofProgram (p : Program) :
    (ofProgram p).byName.entries = (p.implementations.map (·.name.value)).zipIdx := by
  simp [ofProgram, ofEdges, nodeOf, Function.comp_def]

/-- A name is found at the place of the implementation that it names. -/
theorem id?_eq_some_iff (built : build p = .ok g) {name : String} {id : Nat} :
    g.id? name = some id ↔ id < g.size ∧ g.name id = name := by
  have indexed :
      g.id? name = some id ↔ (p.implementations.map (·.name.value))[id]? = some name := by
    obtain ⟨-, distinct, -, -, rfl⟩ := build_eq_ok_iff.mp built
    have names : (ofProgram p).byName.names.Nodup := by
      rwa [Dictionary.names, names_ofProgram, List.zipIdx_map_fst]
    rw [id?, ← Dictionary.mem_entries_iff names, names_ofProgram, List.mem_zipIdx_iff_getElem?]
  rw [indexed, size_of_build built, List.getElem?_map, Option.map_eq_some_iff]
  constructor
  · rintro ⟨i, place, rfl⟩
    exact ⟨(List.getElem?_eq_some_iff.mp place).1, name_of_build built place⟩
  · rintro ⟨below, rfl⟩
    have place := List.getElem?_eq_getElem below
    exact ⟨_, place, (name_of_build built place).symm⟩

/-- The sources of the edges that end at an implementation. -/
theorem neighbours_swap (edges : List (Nat × Nat)) (v : Nat) :
    neighbours (edges.map Prod.swap) v = ((edges.filter (·.2 = v)).map (·.1)).eraseDups := by
  rw [neighbours, List.filter_map, List.map_map]
  rfl

/-- What the views of a graph say about a program. -/
structure Describes (p : Program) (g : CallGraph) : Prop where
  /-- There is one edge for each call and each implementation of what is called, in this order. -/
  edges : ∃ sites : List (Nat × Nat × Nat × Nat), sites.Pairwise SiteOrder ∧
    (∀ u b k v, (u, b, k, v) ∈ sites ↔ p.CallsAt u b k v) ∧
    g.edges = sites.map fun (u, _, _, v) => (u, v)
  successors : ∀ u, FirstOccurrences ((g.edges.filter (·.1 = u)).map (·.2)) (g.successors u)
  predecessors : ∀ v, FirstOccurrences ((g.edges.filter (·.2 = v)).map (·.1)) (g.predecessors v)
  agree : ∀ u v, [v ∈ g.successors u, u ∈ g.predecessors v, (u, v) ∈ g.edges,
    ∃ b k, p.CallsAt u b k v].TFAE
  names : g.ids.map g.name = p.implementations.map (·.name.value)
  inverse : ∀ name id, g.id? name = some id ↔ id < g.size ∧ g.name id = name

/-- A call graph is built for exactly the programs whose names are distinct and whose references
    are declared, and its views are those of the calls of the program. -/
theorem build_describes (p : Program) :
    ((∃ g, build p = .ok g) ↔ p.WellDeclared) ∧ ∀ g, build p = .ok g → g.Describes p := by
  refine ⟨build_isOk_iff, fun g built => ?_⟩
  have edges := edges_of_build built
  refine ⟨⟨callSites p, pairwise_callSites p, fun u b k v => mem_callSites, edges⟩, ?_, ?_, ?_,
    names_of_build built, fun name id => id?_eq_some_iff built⟩
  · intro u
    rw [successors_of_build built]
    exact firstOccurrences_eraseDups _
  · intro v
    rw [predecessors_of_build built, neighbours_swap]
    exact firstOccurrences_eraseDups _
  · intro u v
    tfae_have 1 ↔ 3 := mem_successors built
    tfae_have 2 ↔ 3 := mem_predecessors built
    tfae_have 3 ↔ 4 := by
      simp only [edges, List.mem_map, Prod.exists, Prod.mk.injEq, mem_callSites]
      constructor
      · rintro ⟨_, b, k, _, calls, rfl, rfl⟩
        exact ⟨b, k, calls⟩
      · rintro ⟨b, k, calls⟩
        exact ⟨u, b, k, v, calls, rfl, rfl⟩
    tfae_finish

/-- A procedure with two implementations, one of which calls it, and another one that calls it
    twice. -/
def fanOut : Program :=
  let procedure (name : String) : Declaration := .procedure ⟨.none, .synthetic name, [], []⟩
  let call : Command := .call .none (.synthetic "Sort")
  let implementation (name procedure : String) (commands : List Command) : Declaration :=
    .implementation ⟨.none, .synthetic name, .synthetic procedure,
      [⟨.none, .synthetic "entry", commands⟩]⟩
  ⟨[procedure "Sort", procedure "Main", implementation "QuickSort" "Sort" [call],
    implementation "MergeSort" "Sort" [], implementation "Main" "Main" [call, call]]⟩

/-- Calls and implementations multiply in the edges, and repeats are gone in the other views. -/
theorem build_describes_fanOut :
    ∃ g, build fanOut = .ok g ∧ g.edges = [(0, 0), (0, 1), (2, 0), (2, 1), (2, 0), (2, 1)] ∧
      g.successors 2 = [0, 1] ∧ g.predecessors 0 = [0, 2] ∧ g.Describes fanOut ∧
      fanOut.WellDeclared := by
  have built : build fanOut = .ok (ofProgram fanOut) := by decide
  refine ⟨_, built, by decide, by decide, by decide, (build_describes fanOut).2 _ built, ?_⟩
  exact (build_describes fanOut).1.mp ⟨_, built⟩

end CallGraph

end InvariantInference
