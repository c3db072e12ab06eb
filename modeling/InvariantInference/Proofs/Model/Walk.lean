import Mathlib
import InvariantInference.Candidate
import InvariantInference.Model.Session
import InvariantInference.Proofs.Except
import InvariantInference.Proofs.Expr.RoundTrip

/-!
# Sessions and their walks

What a session holds once it was opened on a program, whatever was pushed,
verified and popped since, and what the steps of its walk are made of.
-/

namespace InvariantInference

/-! ## The conditions of a program -/

/-- The conditions of the contracts of a procedure. -/
def Procedure.conditions (p : Procedure) : List Expr :=
  (p.requires ++ p.ensures).map (·.condition)

/-- The conditions of the commands of an implementation. -/
def Implementation.conditions (i : Implementation) : List Expr :=
  i.commands.filterMap (·.condition?)

/-- The conditions of all contracts and commands of a program. -/
def Program.conditions (p : Program) : List Expr :=
  p.procedures.flatMap (·.conditions) ++ p.implementations.flatMap (·.conditions)

theorem Program.mem_of_procedure? {program : Program} {name : String} {p : Procedure}
    (found : program.procedure? name = some p) : p ∈ program.procedures :=
  List.mem_of_find?_eq_some found

namespace Dictionary

theorem get?_foldl_insert {α : Type} (entries : List (String × α)) (d : Dictionary α)
    (name : String) :
    (entries.foldl (fun d entry => d.insert entry.1 entry.2) d).get? name =
      (entries.reverse.lookup name).or (d.get? name) := by
  induction entries generalizing d with
  | nil => simp
  | cons entry entries ih =>
    obtain ⟨key, value⟩ := entry
    rw [List.foldl_cons, ih, List.reverse_cons, List.lookup_append, get?_insert, Option.or_assoc]
    by_cases same : name = key
    · simp [same]
    · have differs : (name == key) = false := by simpa using same
      simp [same, List.lookup_cons, differs]

/-- Of the entries under a name a dictionary holds the last. -/
theorem get?_ofList_eq {α : Type} (entries : List (String × α)) (name : String) :
    (ofList entries).get? name = entries.reverse.lookup name := by
  have none : (empty : Dictionary α).get? name = none := rfl
  rw [ofList, get?_foldl_insert, none, Option.or_none]

/-- A dictionary of some entries holds no others. -/
theorem mem_of_get?_ofList {α : Type} {entries : List (String × α)} {name : String} {value : α}
    (found : (ofList entries).get? name = some value) : (name, value) ∈ entries := by
  rw [get?_ofList_eq] at found
  obtain ⟨before, after, split, -⟩ := List.lookup_eq_some_iff.mp found
  rw [← List.mem_reverse, split]
  simp

/-- A dictionary of some entries has a value under each of their names. -/
theorem exists_get?_ofList {α : Type} {entries : List (String × α)} {name : String} {value : α}
    (member : (name, value) ∈ entries) : ∃ other, (ofList entries).get? name = some other := by
  cases found : (ofList entries).get? name with
  | none =>
    rw [get?_ofList_eq, List.lookup_eq_none_iff] at found
    have absent := found _ (List.mem_reverse.mpr member)
    simp at absent
  | some other => exact ⟨other, rfl⟩

/-- A dictionary of some entries holds the only value under a name. -/
theorem get?_ofList {α : Type} {entries : List (String × α)} {name : String} {value : α}
    (member : (name, value) ∈ entries)
    (only : ∀ other, (name, other) ∈ entries → other = value) :
    (ofList entries).get? name = some value := by
  obtain ⟨other, found⟩ := exists_get?_ofList member
  rw [found, only other (mem_of_get?_ofList found)]

end Dictionary

namespace Model

/-! ## Steps -/

namespace Step

/-- The condition that a step assumes or checks. -/
def condition : Step → Expr
  | assume condition => condition
  | check failure => failure.condition

/-- The condition that a step assumes. -/
def assumed? : Step → Option Expr
  | assume condition => some condition
  | check _ => none

/-- What is known after some steps. -/
def after (f : Facts) : List Step → Facts
  | [] => f
  | .assume condition :: rest => after (f.assume condition) rest
  | .check _ :: rest => after f rest

theorem after_append (f : Facts) (first second : List Step) :
    after f (first ++ second) = after (after f first) second := by
  fun_induction after f first with
  | case1 f => rfl
  | case2 f condition rest ih => exact ih
  | case3 f failure rest ih => exact ih

theorem walk_append (f : Facts) (first second : List Step) :
    walk f (first ++ second) = walk f first ++ walk (after f first) second := by
  fun_induction after f first with
  | case1 f => rfl
  | case2 f condition rest ih => exact ih
  | case3 f failure rest ih =>
    simp only [List.cons_append, walk, ih]
    split <;> rfl

/-- A precondition at a call makes steps of its own condition only. -/
theorem condition_ofPrecondition {callee : String} {site : Span} {trace : List String}
    {c : Contract} {step : Step} (member : step ∈ ofPrecondition callee site trace c) :
    step.condition = c.condition := by
  unfold ofPrecondition at member
  split at member
  · rw [List.mem_singleton.mp member]
    rfl
  · rcases List.mem_pair.mp member with rfl | rfl <;> rfl

/-- The steps of a command are about its condition, or about the contracts of the
    procedure that it calls. -/
theorem condition_ofCommand {callees : Dictionary Procedure} {trace : List String} {c : Command}
    {step : Step} (member : step ∈ ofCommand callees trace c) :
    c.condition? = some step.condition ∨
      ∃ callee p, c.callee? = some callee ∧ callees.get? callee.value = some p ∧
        step.condition ∈ p.conditions := by
  cases c with
  | assume span condition =>
    rw [List.mem_singleton.mp member]
    exact .inl rfl
  | assert span condition =>
    rcases List.mem_pair.mp member with rfl | rfl <;> exact .inl rfl
  | call span callee =>
    right
    rw [ofCommand] at member
    split at member
    · cases member
    · rename_i p found
      refine ⟨callee, p, rfl, found, ?_⟩
      simp only [Procedure.conditions, List.map_append, List.mem_append, List.mem_map]
      rcases List.mem_append.mp member with required | ensured
      · obtain ⟨c, isRequired, step⟩ := List.mem_flatMap.mp required
        exact .inl ⟨c, isRequired, (condition_ofPrecondition step).symm⟩
      · obtain ⟨c, isEnsured, rfl⟩ := List.mem_map.mp ensured
        exact .inr ⟨c, isEnsured, rfl⟩

/-- The steps of blocks are those of their commands. -/
theorem mem_ofBlocks {callees : Dictionary Procedure} {trace : List String} {blocks : List Block}
    {step : Step} (member : step ∈ ofBlocks callees trace blocks) :
    ∃ trace', ∃ c ∈ blocks.flatMap (·.commands), step ∈ ofCommand callees trace' c := by
  induction blocks generalizing trace with
  | nil => cases member
  | cons b blocks ih =>
    rw [ofBlocks, List.mem_append] at member
    rcases member with here | later
    · obtain ⟨c, command, step⟩ := List.mem_flatMap.mp here
      exact ⟨_, c, by simp [command], step⟩
    · obtain ⟨trace', c, command, step⟩ := ih later
      exact ⟨trace', c, by simp only [List.flatMap_cons, List.mem_append]; exact .inr command, step⟩

end Step

/-! ## Sessions -/

namespace Session

/-- The steps after the hypotheses were assumed. -/
def bodySteps (s : Session) : List Step :=
  s.procedure.requires.map (fun c => .assume c.condition) ++
    Step.ofBlocks s.callees [] s.implementation.blocks ++
    s.procedure.ensures.flatMap (Step.ofPostcondition s.labels)

/-- First the hypotheses that are no equations are assumed, then comes the body. -/
theorem steps_eq (s : Session) :
    s.steps = (s.hypotheses.filter (·.binding?.isNone)).map .assume ++ s.bodySteps := by
  simp only [steps, entrySteps, bodySteps, List.append_assoc]

/-- A session of an implementation of `program`: it has the procedure of the
    implementation and all procedures that are called. -/
structure Of (program : Program) (s : Session) : Prop where
  declared : s.implementation ∈ program.implementations
  procedure : program.procedure? s.implementation.procedure.value = some s.procedure
  callees : ∀ callee ∈ s.implementation.callees,
    s.callees.get? callee.value = program.procedure? callee.value

/-- All calls are resolved to the procedures that are declared. -/
theorem get?_of_resolve {program : Program} {i : Implementation} {callees : Dictionary Procedure}
    (resolved : resolve program i = .ok callees) {callee : Located String}
    (called : callee ∈ i.callees) :
    callees.get? callee.value = program.procedure? callee.value := by
  simp only [resolve, bind_eq_ok_iff] at resolved
  obtain ⟨found, mapped, same⟩ := resolved
  cases same
  obtain ⟨forward, backward⟩ := mem_of_mapM mapped
  have declared : ∀ name p, (name, p) ∈ found → program.procedure? name = some p := by
    intro name p member
    obtain ⟨callee, -, looked⟩ := backward _ member
    split at looked
    · rename_i procedure
      cases looked
      exact procedure
    · cases looked
  obtain ⟨⟨name, p⟩, member, looked⟩ := forward callee called
  have isCallee : callee.value = name := by
    split at looked <;> cases looked
    rfl
  subst isCallee
  rw [declared _ _ member]
  refine Dictionary.get?_ofList member fun other isOther => ?_
  have same := declared _ _ isOther
  rw [declared _ _ member] at same
  cases same
  rfl

/-- What a session that is opened consists of. -/
theorem oracle_eq_ok_iff {scripts : Dictionary Script} {program : Program} {i : Implementation}
    {s : Session} :
    oracle scripts program i = .ok s ↔
      ∃ p callees, program.procedure? i.procedure.value = some p ∧
        resolve program i = .ok callees ∧
        s = ⟨i, p, callees, (scripts.get? i.name.value).getD .plain, [], 0, 0⟩ := by
  unfold oracle
  cases program.procedure? i.procedure.value with
  | none => simp
  | some p =>
    simp only [bind_eq_ok_iff, Option.some.injEq, exists_and_left, exists_eq_left']
    constructor
    · rintro ⟨callees, resolved, same⟩
      cases same
      exact ⟨callees, resolved, rfl⟩
    · rintro ⟨callees, resolved, rfl⟩
      exact ⟨callees, resolved, rfl⟩

/-- A session that was opened is one of its program. -/
theorem of_oracle {scripts : Dictionary Script} {program : Program} {i : Implementation}
    {s : Session} (declared : i ∈ program.implementations)
    (opened : oracle scripts program i = .ok s) : s.Of program := by
  obtain ⟨p, callees, procedure, resolved, rfl⟩ := oracle_eq_ok_iff.mp opened
  exact ⟨declared, procedure, fun callee called => get?_of_resolve resolved called⟩

/-- The sessions that come about on a program where only allowed hypotheses are
    pushed. -/
inductive Reached (program : Program) (allowed : Expr → Prop) : Session → Prop
  | opened {scripts : Dictionary Script} {i : Implementation} {s : Session}
      (declared : i ∈ program.implementations) (opened : oracle scripts program i = .ok s) :
      Reached program allowed s
  | push {s : Session} (before : Reached program allowed s) {hypothesis : Expr}
      (fine : allowed hypothesis) : Reached program allowed (s.push hypothesis).2
  | verify {s : Session} (before : Reached program allowed s) : Reached program allowed s.verify.2
  | pop {s : Session} (before : Reached program allowed s) : Reached program allowed s.pop.2

theorem verify_snd (s : Session) :
    s.verify.2 = { s with verifications := s.verifications + 1 } := by
  unfold verify
  simp only
  split
  · rfl
  · split <;> rfl

/-- All sessions that come about are sessions of the program under allowed
    hypotheses. -/
theorem of_reached {program : Program} {allowed : Expr → Prop} {s : Session}
    (reached : Reached program allowed s) : s.Of program ∧ ∀ h ∈ s.stack, allowed h := by
  induction reached with
  | opened declared opened =>
    refine ⟨of_oracle declared opened, ?_⟩
    obtain ⟨p, callees, -, -, rfl⟩ := oracle_eq_ok_iff.mp opened
    simp
  | push _ fine ih =>
    refine ⟨⟨ih.1.declared, ih.1.procedure, ih.1.callees⟩, ?_⟩
    rw [push, List.forall_mem_cons]
    exact ⟨fine, ih.2⟩
  | verify _ ih =>
    rw [verify_snd]
    exact ⟨⟨ih.1.declared, ih.1.procedure, ih.1.callees⟩, ih.2⟩
  | @pop s _ ih =>
    unfold pop
    split
    · exact ih
    · rename_i h stack shape
      refine ⟨⟨ih.1.declared, ih.1.procedure, ih.1.callees⟩, fun h' member => ih.2 h' ?_⟩
      rw [shape]
      exact List.mem_cons_of_mem h member

/-- A session finds what its commands call. -/
theorem Of.resolved {program : Program} {s : Session} (session : s.Of program) :
    ∀ c ∈ s.implementation.commands, ∀ callee ∈ c.callee?,
      s.callees.get? callee.value = program.procedure? callee.value :=
  fun c command callee called =>
    session.callees callee (List.mem_filterMap.mpr ⟨c, command, called⟩)

/-- The steps of the body are about conditions of the implementation, of its procedure, or of a
    procedure that it calls. -/
theorem condition_bodySteps {s : Session} {step : Step} (member : step ∈ s.bodySteps) :
    step.condition ∈ s.implementation.conditions ∨ step.condition ∈ s.procedure.conditions ∨
      ∃ callee p, callee ∈ s.implementation.callees ∧ s.callees.get? callee.value = some p ∧
        step.condition ∈ p.conditions := by
  have own : ∀ {c : Contract}, c ∈ s.procedure.requires ∨ c ∈ s.procedure.ensures →
      c.condition ∈ s.procedure.conditions := by
    intro c contract
    exact List.mem_map.mpr ⟨c, List.mem_append.mpr contract, rfl⟩
  simp only [bodySteps, List.mem_append] at member
  rcases member with (required | inside) | ensured
  · obtain ⟨c, isRequired, rfl⟩ := List.mem_map.mp required
    exact .inr (.inl (own (.inl isRequired)))
  · obtain ⟨trace, c, command, isStep⟩ := Step.mem_ofBlocks inside
    rcases Step.condition_ofCommand isStep with condition | ⟨callee, p, called, found, condition⟩
    · exact .inl (List.mem_filterMap.mpr ⟨c, command, condition⟩)
    · exact .inr (.inr ⟨callee, p, List.mem_filterMap.mpr ⟨c, command, called⟩, found, condition⟩)
  · obtain ⟨c, isEnsured, isStep⟩ := List.mem_flatMap.mp ensured
    unfold Step.ofPostcondition at isStep
    split at isStep
    · cases isStep
    · rw [List.mem_singleton.mp isStep]
      exact .inr (.inl (own (.inr isEnsured)))

/-- The steps of the body are about conditions of the program. -/
theorem Of.condition_mem {program : Program} {s : Session} (session : s.Of program) {step : Step}
    (member : step ∈ s.bodySteps) : step.condition ∈ program.conditions := by
  have contract : ∀ {name : String} {p : Procedure}, program.procedure? name = some p →
      step.condition ∈ p.conditions → step.condition ∈ program.conditions := by
    intro name p found condition
    exact List.mem_append_left _
      (List.mem_flatMap.mpr ⟨p, Program.mem_of_procedure? found, condition⟩)
  rcases condition_bodySteps member with inside | own | ⟨callee, p, called, found, condition⟩
  · exact List.mem_append_right _ (List.mem_flatMap.mpr ⟨_, session.declared, inside⟩)
  · exact contract session.procedure own
  · rw [session.callees callee called] at found
    exact contract found condition

end Session

end Model

/-! ## A small program -/

/-- The condition `candidate ==> text`, with the spans that it is read with. -/
def Expr.guarded (candidate text : String) : Expr :=
  .binary ⟨0, candidate.length + text.length + 5⟩ .implies
    (.ident ⟨0, candidate.length⟩ ⟨⟨0, candidate.length⟩, candidate⟩)
    (.atom ⟨candidate.length + 5, text.length⟩ text)

/-- The declaration of a candidate. -/
def Declaration.candidate (name : String) : Declaration :=
  .constant ⟨.none, .synthetic name, .bool, [⟨.none, .synthetic Constant.existentialKey, .flag⟩]⟩

namespace Program

/-- A procedure with one guarded contract on either side. -/
def guardedProcedure : Procedure :=
  ⟨.none, .synthetic "Callee", [⟨.none, false, .guarded "P" "x > 0"⟩],
    [⟨.none, false, .guarded "Q" "r > 0"⟩]⟩

/-- Its implementation, which makes sure of the postcondition only. -/
def guardedImplementation : Implementation :=
  ⟨.none, .synthetic "Callee", .synthetic "Callee",
    [⟨.none, .synthetic "entry", [.assume .none (.atom ⟨0, 5⟩ "r > 0")]⟩]⟩

/-- A caller that knows nothing of the precondition. -/
def guardedCaller : Implementation :=
  ⟨.none, .synthetic "Caller", .synthetic "Caller",
    [⟨.none, .synthetic "entry", [.call .none (.synthetic "Callee")]⟩]⟩

/-- The program of both, with a candidate for each contract. -/
def guardedCall : Program :=
  ⟨[.candidate "P", .candidate "Q", .procedure guardedProcedure,
    .procedure ⟨.none, .synthetic "Caller", [], []⟩, .implementation guardedCaller,
    .implementation guardedImplementation]⟩

/-- All conditions of the program are read from texts. -/
theorem parsed_guardedCall : ∀ e ∈ guardedCall.conditions, e.Parsed :=
  Expr.parsed_of_texts ["P ==> x > 0", "Q ==> r > 0", "r > 0"] (by cbv)

end Program

end InvariantInference
