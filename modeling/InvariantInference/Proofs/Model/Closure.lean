import Mathlib
import InvariantInference.Proofs.Model.Assumptions

/-!
# Horn closures

Facts, implications between them and implications from bound identifiers have a
least set of atoms that satisfies them. It is an intersection of sets, so it
knows nothing of parking and firing. Where only such conditions are assumed the
known texts are those of this set, in whatever order the conditions come, and
what holds can be read off it.
-/

namespace InvariantInference

variable {b : String → Option Bool} {cs : List Expr} {e : Expr}

namespace Expr

/-- An atom, or an identifier without a binding. -/
def Unbound (b : String → Option Bool) (e : Expr) : Prop := e.isLeaf ∧ e.bound b = none

/-- The conditions `a`, `a ==> a'` and `c ==> a`, where only `c` is an identifier with a
    binding. -/
inductive HornForm (b : String → Option Bool) : Expr → Prop
  | fact {a : Expr} (unbound : a.Unbound b) : HornForm b a
  | rule {span : Span} {a a' : Expr} (unbound : a.Unbound b) (unbound' : a'.Unbound b) :
      HornForm b (.binary span .implies a a')
  | guarded {span : Span} {c a : Expr} {value : Bool} (bound : c.bound b = some value)
      (unbound : a.Unbound b) : HornForm b (.binary span .implies c a)

theorem HornForm.isClause (form : e.HornForm b) : e.isClause := by
  cases form with
  | fact unbound => exact isClause_of_isLeaf unbound.1
  | rule unbound unbound' => simp [Expr.isClause, unbound.1, unbound'.1]
  | guarded bound unbound =>
    obtain ⟨span, name, rfl, -⟩ := ident_of_bound bound
    exact unbound.1

end Expr

/-- A set of atoms, without their spans, that holds every fact and everything whose premise is
    bound to true, and with the premise of a rule its conclusion. -/
structure HornClosed (b : String → Option Bool) (cs : List Expr) (atoms : Set Expr) : Prop where
  fact : ∀ a ∈ cs, a.isLeaf → a.erase ∈ atoms
  guarded : ∀ span c a, .binary span .implies c a ∈ cs → c.bound b = some true → a.erase ∈ atoms
  rule : ∀ span a a', .binary span .implies a a' ∈ cs → a.bound b = none → a.erase ∈ atoms →
    a'.erase ∈ atoms

/-- The atoms that are in all closed sets. -/
def hornClosure (b : String → Option Bool) (cs : List Expr) : Set Expr :=
  ⋂₀ {atoms | HornClosed b cs atoms}

/-- The closure is the least of the closed sets. -/
theorem isLeast_hornClosure (b : String → Option Bool) (cs : List Expr) :
    IsLeast {atoms | HornClosed b cs atoms} (hornClosure b cs) := by
  refine ⟨⟨?_, ?_, ?_⟩, fun atoms closed => Set.sInter_subset_of_mem closed⟩
  · exact fun a member leaf atoms closed => closed.fact a member leaf
  · exact fun span c a member bound atoms closed => closed.guarded span c a member bound
  · intro span a a' member unbound derived atoms closed
    exact closed.rule span a a' member unbound (derived atoms closed)

/-- With more conditions there is more in the closure. -/
theorem hornClosure_mono {cs' : List Expr} (more : cs ⊆ cs') :
    hornClosure b cs ⊆ hornClosure b cs' := by
  obtain ⟨fact, guarded, rule⟩ := (isLeast_hornClosure b cs').1
  apply (isLeast_hornClosure b cs).2
  refine ⟨?_, ?_, ?_⟩
  · exact fun a member => fact a (more member)
  · exact fun span c a member => guarded span c a (more member)
  · exact fun span a a' member => rule span a a' (more member)

theorem Expr.render_erase (e : Expr) : e.erase.render = e.render := renderAt_erase e 0

/-- The atoms whose texts are derived are a closed set. -/
theorem hornClosed_derives (b : String → Option Bool) (cs : List Expr) :
    HornClosed b cs {a | Derives b cs a.render} := by
  refine ⟨?_, ?_, ?_⟩ <;> simp only [Set.mem_ofPred_eq, Expr.render_erase]
  · exact fun a member leaf => .fact member leaf
  · exact fun span c a member bound => .guarded member bound
  · exact fun span a a' member unbound derived => .rule member unbound derived

theorem derives_of_mem_hornClosure (member : e ∈ hornClosure b cs) : Derives b cs e.render :=
  (isLeast_hornClosure b cs).2 (hornClosed_derives b cs) member

/-- Clauses derive the text of a condition iff it is in their closure. -/
theorem derives_iff_mem_hornClosure (clauses : Clauses cs) (readable : e.Readable) :
    Derives b cs e.render ↔ e.erase ∈ hornClosure b cs := by
  have closed := (isLeast_hornClosure b cs).1
  constructor
  · intro derives
    -- Among readable conditions a text is that of one only, so `e` is what was derived.
    generalize same : e.render = text at derives
    induction derives generalizing e with
    | fact member leaf =>
      rw [Expr.erase_eq_of_render_eq readable (clauses _ member).2 same]
      exact closed.fact _ member leaf
    | guarded member holds =>
      rw [Expr.erase_eq_of_render_eq readable (clauses _ member).2.2 same]
      exact closed.guarded _ _ _ member holds
    | rule member unbound _ ih =>
      rw [Expr.erase_eq_of_render_eq readable (clauses _ member).2.2 same]
      exact closed.rule _ _ _ member unbound (ih (clauses _ member).2.1 rfl)
  · intro member
    rw [← e.render_erase]
    exact derives_of_mem_hornClosure member

namespace Facts

variable {bindings : List (String × Bool)}

/-- What is known after clauses were assumed. -/
theorem closed_assumeAll (clauses : Clauses cs) :
    ((ofBindings bindings).assumeAll cs).Closed (bindings.lookup ·) cs := by
  induction cs using List.reverseRecOn with
  | nil => exact closed_ofBindings bindings
  | append_singleton cs e ih =>
    have earlier : Clauses cs := fun c member => clauses c (List.mem_append_left _ member)
    rw [assumeAll, List.foldl_append]
    exact (ih earlier).assume clauses

/-- The known texts are those of the closure. -/
theorem Closed.known_eq {f : Facts} (closed : f.Closed b cs) (clauses : Clauses cs) :
    {text | text ∈ f.known} = Expr.render '' hornClosure b cs := by
  ext text
  rw [Set.mem_ofPred_eq, closed.mem_known_iff clauses]
  constructor
  · intro derives
    obtain ⟨e, -, readable, rfl⟩ := derives.leaf clauses
    exact ⟨e.erase, (derives_iff_mem_hornClosure clauses readable).mp derives, e.render_erase⟩
  · rintro ⟨a, member, rfl⟩
    exact derives_of_mem_hornClosure member

/-- Where conditions of the forms `a`, `a ==> a'` and `c ==> a` are assumed, the known texts are
    those of the least set of atoms that satisfies them, whatever their order. An atom holds iff
    it is in this set, and an implication iff its conclusion is once its premise is added. -/
theorem assumeAll_computes_hornClosure (bindings : List (String × Bool)) (cs : List Expr)
    (parsed : ∀ c ∈ cs, c.Parsed) (horn : ∀ c ∈ cs, c.HornForm (bindings.lookup ·)) :
    let b : String → Option Bool := (bindings.lookup ·)
    let f := (ofBindings bindings).assumeAll cs
    IsLeast {atoms | HornClosed b cs atoms} (hornClosure b cs) ∧
    {text | text ∈ f.known} = Expr.render '' hornClosure b cs ∧
    (∀ cs' : List Expr, cs'.Perm cs →
      {text | text ∈ ((ofBindings bindings).assumeAll cs').known} = {text | text ∈ f.known}) ∧
    (∀ a : Expr, a.Parsed → a.Unbound b → (f.holds a ↔ a.erase ∈ hornClosure b cs)) ∧
    ∀ (span : Span) (a a' : Expr), (Expr.binary span .implies a a').Parsed → a.Unbound b →
      a'.Unbound b →
      (f.holds (.binary span .implies a a') ↔ a'.erase ∈ hornClosure b (cs ++ [a])) := by
  intro b f
  have clauses : Clauses cs := fun c member =>
    ⟨(horn c member).isClause, (parsed c member).readable⟩
  have closed : f.Closed b cs := closed_assumeAll clauses
  refine ⟨isLeast_hornClosure b cs, closed.known_eq clauses, ?_, ?_, ?_⟩
  · intro cs' perm
    have clauses' : Clauses cs' := fun c member => clauses c (perm.subset member)
    rw [closed.known_eq clauses, (closed_assumeAll clauses').known_eq clauses']
    congr 1
    exact (hornClosure_mono perm.subset).antisymm (hornClosure_mono perm.symm.subset)
  · intro a read unbound
    rw [closed.holds_leaf_iff clauses unbound.1 read.readable unbound.2]
    exact derives_iff_mem_hornClosure clauses read.readable
  · intro span a a' read unbound unbound'
    have readable : a.Readable ∧ a'.Readable := read.readable
    have clause : (Expr.binary span .implies a a').isClause :=
      (Expr.HornForm.rule unbound unbound').isClause
    rw [closed.holds_iff clauses clause read.readable unbound'.2,
      ← derives_iff_mem_hornClosure (clauses.concat unbound.1 readable.1) readable.2]
    simp only [Entails, unbound.2, reduceCtorEq, false_or]

/-- The condition `p ==> q` between two names of one letter. -/
def linked (p q : String) : Expr :=
  .binary ⟨0, 7⟩ .implies (.ident ⟨0, 1⟩ ⟨⟨0, 1⟩, p⟩) (.ident ⟨6, 1⟩ ⟨⟨6, 1⟩, q⟩)

/-- A chain from `p` to `r` that leads back to `p` on its way, and starts only under `c`. -/
def chain : List Expr := [linked "q" "r", linked "p" "q", linked "q" "p", linked "c" "p"]

/-- With `c` bound to true all of the chain is known, in whatever order it is assumed. -/
theorem assumeAll_computes_hornClosure_chain :
    ["q ==> r", "p ==> q", "q ==> p", "c ==> p"].map (Expr.parse · 0) = chain.map .ok ∧
      ∀ cs : List Expr, cs.Perm chain →
        {text | text ∈ ((ofBindings [("c", true)]).assumeAll cs).known} = {"p", "q", "r"} := by
  have read : ["q ==> r", "p ==> q", "q ==> p", "c ==> p"].map (Expr.parse · 0) =
      chain.map .ok := by cbv
  have known : ((ofBindings [("c", true)]).assumeAll chain).known = ["r", "q", "p"] := by cbv
  refine ⟨read, fun cs perm => ?_⟩
  have closure := assumeAll_computes_hornClosure [("c", true)] chain
    (Expr.parsed_of_texts _ read) ?_
  · rw [closure.2.2.1 cs perm, known]
    ext text
    simp [or_comm, or_left_comm]
  · rw [chain, List.forall_mem_cons, List.forall_mem_cons, List.forall_mem_cons,
      List.forall_mem_singleton]
    exact ⟨.rule ⟨rfl, rfl⟩ ⟨rfl, rfl⟩, .rule ⟨rfl, rfl⟩ ⟨rfl, rfl⟩, .rule ⟨rfl, rfl⟩ ⟨rfl, rfl⟩,
      @Expr.HornForm.guarded _ _ _ _ true rfl ⟨rfl, rfl⟩⟩

end Facts

end InvariantInference
