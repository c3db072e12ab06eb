import Mathlib
import InvariantInference.Proofs.Model.Redundancy

/-!
# Where conditions come from

Every condition of a program stands at one site: in a contract of a procedure or
in a command of an implementation. A candidate that occurs in one condition only
has one site, and this says which steps of which sessions are about it: which of
them check it, and which assume it.
-/

namespace InvariantInference

namespace Expr

/-- Whether a name occurs in an expression as an identifier. -/
def mentions (name : String) : Expr → Bool
  | lit _ _ => false
  | ident _ n => n.value = name
  | atom _ _ => false
  | not _ operand => operand.mentions name
  | binary _ _ left right => left.mentions name || right.mentions name

/-- A name occurs in the conditions that it guards. -/
theorem mentions_of_isGuardedBy {name : String} {e : Expr} (guarded : e.isGuardedBy name) :
    e.mentions name := by
  obtain ⟨span, premise, conclusion, rfl, named⟩ := isGuardedBy_iff.mp guarded
  cases premise with
  | ident _ n =>
    simp only [name?, Option.some.injEq] at named
    simp [mentions, named]
  | _ => cases named

end Expr

/-! ## Sites -/

/-- A place in a program where a condition can stand. -/
inductive Site where
  | requires (procedure : String) (contract : Contract)
  | ensures (procedure : String) (contract : Contract)
  | command (implementation : String) (command : Command)

namespace Site

/-- The condition at a site; that of a call has none. -/
def condition? : Site → Option Expr
  | requires _ contract => some contract.condition
  | ensures _ contract => some contract.condition
  | command _ c => c.condition?

/-- Whether a name occurs in the condition at a site. -/
def mentions (name : String) (site : Site) : Bool := site.condition?.any (·.mentions name)

end Site

/-- The sites of the contracts of a procedure. -/
def Procedure.sites (p : Procedure) : List Site :=
  p.requires.map (.requires p.name.value) ++ p.ensures.map (.ensures p.name.value)

/-- The sites of the commands of an implementation. -/
def Implementation.sites (i : Implementation) : List Site :=
  i.commands.map (.command i.name.value)

/-- The sites of all conditions of a program. -/
def Program.sites (program : Program) : List Site :=
  program.procedures.flatMap (·.sites) ++ program.implementations.flatMap (·.sites)

/-- The conditions of a program are those at its sites. -/
theorem Program.filterMap_sites (program : Program) :
    program.sites.filterMap (·.condition?) = program.conditions := by
  have procedure : ∀ p : Procedure, p.sites.filterMap (·.condition?) = p.conditions := by
    intro p
    simp [Procedure.sites, Procedure.conditions, List.filterMap_map, Site.condition?,
      List.filterMap_eq_map']
  have implementation : ∀ i : Implementation,
      i.sites.filterMap (·.condition?) = i.conditions := by
    intro i
    simp [Implementation.sites, Implementation.conditions, List.filterMap_map, Site.condition?]
  simp only [sites, conditions, List.filterMap_append, List.filterMap_flatMap, procedure,
    implementation]

/-- Members with a property that at most one member has are equal. -/
theorem eq_of_countP_le_one {α : Type} {p : α → Bool} {l : List α} {a b : α}
    (once : l.countP p ≤ 1) (first : a ∈ l) (second : b ∈ l) (holds : p a) (holds' : p b) :
    a = b := by
  induction l with
  | nil => cases first
  | cons head rest ih =>
    rw [List.countP_cons] at once
    have later : ∀ {c : α}, c ∈ rest → p c → 0 < rest.countP p :=
      fun member holds => List.countP_pos_iff.mpr ⟨_, member, holds⟩
    rcases List.mem_cons.mp first with rfl | first'
    · rcases List.mem_cons.mp second with rfl | second'
      · rfl
      · have := later second' holds'
        rw [if_pos holds] at once
        omega
    · rcases List.mem_cons.mp second with rfl | second'
      · have := later first' holds
        rw [if_pos holds'] at once
        omega
      · exact ih (by omega) first' second'

/-- Every candidate occurs in at most one condition. -/
def Program.Exclusive (cs : Candidates) (program : Program) : Prop :=
  ∀ name ∈ cs.names, program.conditions.countP (·.mentions name) ≤ 1

/-- A name that occurs in at most one condition has at most one site. -/
theorem Program.site_unique {program : Program} {name : String} {u v : Site}
    (once : program.conditions.countP (·.mentions name) ≤ 1) (first : u ∈ program.sites)
    (second : v ∈ program.sites) (here : u.mentions name) (there : v.mentions name) : u = v := by
  refine eq_of_countP_le_one (p := Site.mentions name) ?_ first second here there
  rw [← filterMap_sites, List.countP_filterMap] at once
  refine le_trans (List.countP_mono_left fun site _ mentioned => ?_) once
  unfold Site.mentions at mentioned
  cases condition : site.condition? with
  | none => simp [condition] at mentioned
  | some e => simpa [condition] using mentioned

/-- A procedure is found under its own name. -/
theorem Program.name_of_procedure? {program : Program} {name : String} {p : Procedure}
    (found : program.procedure? name = some p) : p.name.value = name := by
  simpa using List.find?_some found

namespace Model

/-! ## Obligations and what is taken on trust -/

/-- The sites whose conditions an implementation has to make sure of. -/
inductive Owes (program : Program) (i : Implementation) : ViolationKind → Site → Prop
  | precondition {callee : Located String} {p : Procedure} {c : Contract}
      (called : callee ∈ i.callees) (found : program.procedure? callee.value = some p)
      (required : c ∈ p.requires) (strict : c.free = false) :
      Owes program i (.precondition callee.value) (.requires p.name.value c)
  | postcondition {p : Procedure} {c : Contract}
      (found : program.procedure? i.procedure.value = some p) (ensured : c ∈ p.ensures) :
      Owes program i .postcondition (.ensures p.name.value c)
  | assertion {span : Span} {e : Expr} (command : .assert span e ∈ i.commands) :
      Owes program i .assertion (.command i.name.value (.assert span e))

/-- The sites whose conditions an implementation assumes without a check. -/
inductive Trusts (program : Program) (i : Implementation) : Site → Prop
  | own {p : Procedure} {c : Contract} (found : program.procedure? i.procedure.value = some p)
      (required : c ∈ p.requires) : Trusts program i (.requires p.name.value c)
  | free {callee : Located String} {p : Procedure} {c : Contract} (called : callee ∈ i.callees)
      (found : program.procedure? callee.value = some p) (required : c ∈ p.requires)
      (free : c.free = true) : Trusts program i (.requires p.name.value c)
  | returned {callee : Located String} {p : Procedure} {c : Contract}
      (called : callee ∈ i.callees) (found : program.procedure? callee.value = some p)
      (ensured : c ∈ p.ensures) : Trusts program i (.ensures p.name.value c)
  | assumed {span : Span} {e : Expr} (command : .assume span e ∈ i.commands) :
      Trusts program i (.command i.name.value (.assume span e))

variable {program : Program} {i : Implementation} {site : Site}

/-- A contract of a declared procedure stands at a site of the program. -/
theorem mem_sites_of_procedure? {name : String} {p : Procedure}
    (found : program.procedure? name = some p) (member : site ∈ p.sites) :
    site ∈ program.sites :=
  List.mem_append_left _ (List.mem_flatMap.mpr ⟨p, Program.mem_of_procedure? found, member⟩)

/-- A command of a declared implementation stands at a site of the program. -/
theorem mem_sites_of_command {c : Command} (declared : i ∈ program.implementations)
    (command : c ∈ i.commands) : Site.command i.name.value c ∈ program.sites :=
  List.mem_append_right _ (List.mem_flatMap.mpr ⟨i, declared, List.mem_map_of_mem command⟩)

/-- Obligations stand at sites of the program. -/
theorem Owes.mem_sites {kind : ViolationKind} (owes : Owes program i kind site)
    (declared : i ∈ program.implementations) : site ∈ program.sites := by
  cases owes with
  | precondition _ found required _ =>
    exact mem_sites_of_procedure? found (List.mem_append_left _ (List.mem_map_of_mem required))
  | postcondition found ensured =>
    exact mem_sites_of_procedure? found (List.mem_append_right _ (List.mem_map_of_mem ensured))
  | assertion command => exact mem_sites_of_command declared command

/-- What is taken on trust stands at sites of the program. -/
theorem Trusts.mem_sites (trusts : Trusts program i site)
    (declared : i ∈ program.implementations) : site ∈ program.sites := by
  cases trusts with
  | own found required | free _ found required _ =>
    exact mem_sites_of_procedure? found (List.mem_append_left _ (List.mem_map_of_mem required))
  | returned _ found ensured =>
    exact mem_sites_of_procedure? found (List.mem_append_right _ (List.mem_map_of_mem ensured))
  | assumed command => exact mem_sites_of_command declared command

/-- A precondition is taken on trust by the implementations of its procedure, and by
    callers only if it is free. -/
theorem Trusts.realizes_or_free {procedure : String} {c : Contract}
    (trusts : Trusts program i (.requires procedure c)) :
    i.procedure.value = procedure ∨ c.free = true := by
  generalize shape : Site.requires procedure c = site at trusts
  cases trusts with
  | own found _ =>
    cases shape
    exact .inl (Program.name_of_procedure? found).symm
  | free _ _ _ free =>
    cases shape
    exact .inr free
  | _ => cases shape

/-- A postcondition is taken on trust by callers of its procedure. -/
theorem Trusts.calls {procedure : String} {c : Contract}
    (trusts : Trusts program i (.ensures procedure c)) :
    ∃ callee ∈ i.callees, callee.value = procedure := by
  generalize shape : Site.ensures procedure c = site at trusts
  cases trusts with
  | returned called found _ =>
    cases shape
    exact ⟨_, called, (Program.name_of_procedure? found).symm⟩
  | _ => cases shape

/-- Assertions are never taken on trust. -/
theorem not_trusts_assert {name : String} {span : Span} {e : Expr} :
    ¬ Trusts program i (.command name (.assert span e)) := by
  intro trusts
  generalize shape : Site.command name (.assert span e) = site at trusts
  cases trusts <;> cases shape

/-! ## The steps of a session -/

namespace Step

variable {name : String}

theorem Checked.append {first second : List Step} (left : Checked name first)
    (right : Checked name second) : Checked name (first ++ second) := by
  intro before condition later split guarded
  rcases List.append_eq_append_iff.mp split with ⟨middle, rfl, place⟩ | ⟨middle, rfl, place⟩
  · obtain ⟨failure, earlier, same⟩ := right middle condition later place guarded
    exact ⟨failure, List.mem_append_right _ earlier, same⟩
  · cases middle with
    | nil =>
      obtain ⟨failure, earlier, -⟩ := right [] condition later place.symm guarded
      cases earlier
    | cons step middle =>
      cases place
      exact left before condition middle rfl guarded

theorem checked_flatMap {α : Type} {l : List α} {steps : α → List Step}
    (all : ∀ a ∈ l, Checked name (steps a)) : Checked name (l.flatMap steps) := by
  induction l with
  | nil =>
    intro before condition later split
    cases before <;> cases split
  | cons a l ih =>
    rw [List.flatMap_cons]
    rw [List.forall_mem_cons] at all
    exact all.1.append (ih all.2)

/-- Where nothing that a name guards is assumed there is nothing to check. -/
theorem checked_of_unguarded {steps : List Step}
    (unguarded : ∀ condition, .assume condition ∈ steps → ¬ condition.isGuardedBy name) :
    Checked name steps := by
  intro before condition later split guarded
  exact absurd guarded (unguarded condition (by simp [split]))

/-- What is assumed right after its check is checked. -/
theorem checked_pair (failure : Counterexample) :
    Checked name [.check failure, .assume failure.condition] := by
  rintro (_ | ⟨first, _ | ⟨second, before⟩⟩) condition later split -
  · cases split
  · cases split
    exact ⟨failure, by simp, rfl⟩
  · simp at split

/-- The steps of blocks are checked if those of their commands are. -/
theorem checked_ofBlocks {callees : Dictionary Procedure} {trace : List String}
    {blocks : List Block}
    (all : ∀ trace, ∀ c ∈ blocks.flatMap (·.commands), Checked name (ofCommand callees trace c)) :
    Checked name (ofBlocks callees trace blocks) := by
  induction blocks generalizing trace with
  | nil => exact checked_of_unguarded (by simp [ofBlocks])
  | cons b blocks ih =>
    rw [ofBlocks]
    refine (checked_flatMap fun c command => all _ c ?_).append
      (ih fun trace c command => all trace c ?_)
    · exact List.mem_append_left _ command
    · exact List.mem_append_right _ command

end Step

namespace Session

variable {s : Session} {name : String}

/-- A session checks whatever a name guards before it is assumed, if the name does
    not occur in what the implementation takes on trust. -/
theorem Of.checked (session : s.Of program)
    (untrusted : ∀ site, Trusts program s.implementation site → ¬ site.mentions name) :
    Step.Checked name s.bodySteps := by
  have unguarded : ∀ {site : Site} {e : Expr}, Trusts program s.implementation site →
      site.condition? = some e → ¬ e.isGuardedBy name := by
    intro site e trusts condition guarded
    refine untrusted site trusts ?_
    simpa [Site.mentions, condition] using Expr.mentions_of_isGuardedBy guarded
  refine (Step.Checked.append ?_ (Step.checked_ofBlocks fun trace c command => ?_)).append ?_
  · refine Step.checked_of_unguarded fun condition member => ?_
    obtain ⟨c, required, same⟩ := List.mem_map.mp member
    cases same
    exact unguarded (.own session.procedure required) rfl
  · cases c with
    | assume span e =>
      refine Step.checked_of_unguarded fun condition member => ?_
      cases List.mem_singleton.mp member
      exact unguarded (.assumed command) rfl
    | assert span e => exact Step.checked_pair ⟨.assertion, e, span, trace⟩
    | call span callee =>
      have called : callee ∈ s.implementation.callees := List.mem_filterMap.mpr ⟨_, command, rfl⟩
      rw [Step.ofCommand]
      split
      · exact Step.checked_of_unguarded (by simp)
      · rename_i p found
        rw [session.callees callee called] at found
        refine (Step.checked_flatMap fun c required => ?_).append
          (Step.checked_of_unguarded fun condition member => ?_)
        · unfold Step.ofPrecondition
          split
          · rename_i free
            refine Step.checked_of_unguarded fun condition member => ?_
            cases List.mem_singleton.mp member
            exact unguarded (.free called found required free) rfl
          · exact Step.checked_pair ⟨.precondition callee.value, c.condition, span, trace⟩
        · obtain ⟨c, ensured, same⟩ := List.mem_map.mp member
          cases same
          exact unguarded (.returned called found ensured) rfl
  · refine Step.checked_of_unguarded fun condition member => ?_
    obtain ⟨c, -, isStep⟩ := List.mem_flatMap.mp member
    unfold Step.ofPostcondition at isStep
    split at isStep <;> simp at isStep

/-- What a session checks is an obligation of its implementation. -/
theorem Of.owes (session : s.Of program) {failure : Counterexample}
    (member : .check failure ∈ s.bodySteps) :
    ∃ site, Owes program s.implementation failure.kind site ∧
      site.condition? = some failure.condition := by
  simp only [bodySteps, List.mem_append] at member
  rcases member with (required | inside) | ensured
  · simp at required
  · obtain ⟨trace, c, command, isStep⟩ := Step.mem_ofBlocks inside
    cases c with
    | assume span e => simp [Step.ofCommand] at isStep
    | assert span e =>
      simp only [Step.ofCommand, List.mem_pair, Step.check.injEq, reduceCtorEq, or_false] at isStep
      subst isStep
      exact ⟨_, .assertion command, rfl⟩
    | call span callee =>
      have called : callee ∈ s.implementation.callees := List.mem_filterMap.mpr ⟨_, command, rfl⟩
      rw [Step.ofCommand] at isStep
      split at isStep
      · cases isStep
      · rename_i p found
        rw [session.callees callee called] at found
        rcases List.mem_append.mp isStep with required | ensured
        · obtain ⟨c, isRequired, isStep⟩ := List.mem_flatMap.mp required
          unfold Step.ofPrecondition at isStep
          split at isStep
          · simp at isStep
          · rename_i strict
            simp only [List.mem_pair, Step.check.injEq, reduceCtorEq, or_false] at isStep
            subst isStep
            exact ⟨_, .precondition called found isRequired (by simpa using strict), rfl⟩
        · simp at ensured
  · obtain ⟨c, isEnsured, isStep⟩ := List.mem_flatMap.mp ensured
    unfold Step.ofPostcondition at isStep
    split at isStep
    · cases isStep
    · cases List.mem_singleton.mp isStep
      exact ⟨_, .postcondition session.procedure isEnsured, rfl⟩

end Session

end Model

end InvariantInference
