import Mathlib
import InvariantInference.Proofs.Dictionary
import InvariantInference.Proofs.Except
import InvariantInference.Proofs.Model.Walk
import InvariantInference.Session.Pool

/-!
# Calls on sessions

A watched session behaves as the session it holds and keeps a list of the calls
that are made on it. One verification makes the calls of one block: a push that
faults and nothing else, or a push that succeeds, a verification and a pop,
whether the last two fault or not.
-/

namespace InvariantInference

/-- A call on a session, and whether it succeeded. -/
inductive Call where
  | push (hypothesis : Expr) (succeeded : Bool)
  | verify (succeeded : Bool)
  | pop (succeeded : Bool)
  deriving DecidableEq, Repr

namespace Call

/-- The calls of one verification. -/
inductive Block : List Call → Prop
  | whole (hypothesis : Expr) (verified popped : Bool) :
      Block [push hypothesis true, verify verified, pop popped]
  | refused (hypothesis : Expr) : Block [push hypothesis false]

/-- The calls of so many verifications, one after the other. -/
inductive Blocks : Nat → List Call → Prop
  | none : Blocks 0 []
  | more {n : Nat} {calls block : List Call} (before : Blocks n calls) (last : Block block) :
      Blocks (n + 1) (calls ++ block)

end Call

/-- A session with the calls that were made on it, in order. -/
structure Watched (σ : Type) where
  session : σ
  calls : List Call

namespace Watched

variable {σ : Type} [Session σ]

/-- What a call answers and leaves, with the call put down. -/
def logged {α : Type} (w : Watched σ) (call : Bool → Call) (answered : Except Fault α × σ) :
    Except Fault α × Watched σ :=
  (answered.1, ⟨answered.2, w.calls ++ [call answered.1.isOk]⟩)

instance : Session (Watched σ) where
  push w hypothesis := w.logged (.push hypothesis) (Session.push w.session hypothesis)
  verify w := w.logged .verify (Session.verify w.session)
  pop w := w.logged .pop (Session.pop w.session)

/-- A verification of a watched session is one of the session, and makes the calls of one
    block. -/
theorem verifyUnder_eq (w : Watched σ) (hypothesis : Expr) :
    ∃ block, Call.Block block ∧
      Session.verifyUnder w hypothesis = ((Session.verifyUnder w.session hypothesis).1,
        ⟨(Session.verifyUnder w.session hypothesis).2, w.calls ++ block⟩) := by
  unfold Session.verifyUnder
  simp only [Session.push, Session.verify, Session.pop, logged]
  obtain ⟨pushed, afterPush⟩ := Session.push w.session hypothesis
  cases pushed with
  | error fault => exact ⟨_, .refused hypothesis, rfl⟩
  | ok _ =>
    rcases verification : Session.verify afterPush with ⟨verified, afterVerify⟩
    rcases popping : Session.pop afterVerify with ⟨popped, afterPop⟩
    refine ⟨_, .whole hypothesis verified.isOk popped.isOk, ?_⟩
    simp only [verification, popping, List.append_assoc, List.cons_append, List.nil_append]
    cases verified with
    | error fault => rfl
    | ok verdict => cases popped <;> rfl

end Watched

namespace Session

variable {σ : Type} [Session σ]

/-- The session `t` comes from `s` by so many verifications. -/
inductive Verifications : Nat → σ → σ → Prop
  | none (s : σ) : Verifications 0 s s
  | more {n : Nat} {s t : σ} (before : Verifications n s t) (hypothesis : Expr) :
      Verifications (n + 1) s (verifyUnder t hypothesis).2

theorem Verifications.trans {m n : Nat} {s t u : σ} (before : Verifications m s t)
    (after : Verifications n t u) : Verifications (m + n) s u := by
  induction after with
  | none => exact before
  | more _ hypothesis ih => exact .more (ih before) hypothesis

end Session

/-- Each verification of a watched session makes the calls of one block. -/
theorem Session.Verifications.calls {σ : Type} [Session σ] {n : Nat} {w later : Watched σ}
    (verifications : Verifications n w later) :
    ∃ calls, Call.Blocks n calls ∧ later.calls = w.calls ++ calls := by
  induction verifications with
  | none => exact ⟨[], .none, (List.append_nil _).symm⟩
  | @more n w later _ hypothesis ih =>
    obtain ⟨calls, blocks, made⟩ := ih
    obtain ⟨block, isBlock, verified⟩ := later.verifyUnder_eq hypothesis
    refine ⟨calls ++ block, .more blocks isBlock, ?_⟩
    rw [verified, made, List.append_assoc]

/-! ## Pools -/

namespace SessionPool

variable {σ : Type} {pool : SessionPool σ}

/-- A verification changes the session of its implementation and no other. -/
theorem get?_verifyUnder [Session σ] (pool : SessionPool σ) (name other : String)
    (hypothesis : Expr) :
    (pool.verifyUnder name hypothesis).2.get? other =
      if other = name then
        (pool.get? name).map fun session => (Session.verifyUnder session hypothesis).2
      else pool.get? other := by
  unfold verifyUnder
  cases found : pool.get? name with
  | none =>
    by_cases same : other = name
    · rw [if_pos same, same]
      exact found
    · rw [if_neg same]
  | some session => exact Dictionary.get?_insert _ _ _ _

/-- A pool that was started has a session for every implementation. -/
theorem exists_of_start {oracle : Oracle σ} {program : Program}
    (started : start oracle program = .ok pool) {i : Implementation}
    (declared : i ∈ program.implementations) :
    ∃ session, pool.get? i.name.value = some session := by
  simp only [start, bind_eq_ok_iff] at started
  obtain ⟨opened, mapped, same⟩ := started
  cases same
  obtain ⟨⟨name, session⟩, member, result⟩ := (mem_of_mapM mapped).1 i declared
  simp only [bind_eq_ok_iff] at result
  obtain ⟨_, -, same⟩ := result
  cases same
  exact Dictionary.exists_get?_ofList member

/-- The sessions of a pool that was started were opened for the implementations of their names. -/
theorem opened_of_start {oracle : Oracle σ} {program : Program}
    (started : start oracle program = .ok pool) {name : String} {session : σ}
    (found : pool.get? name = some session) :
    ∃ i ∈ program.implementations, i.name.value = name ∧ oracle program i = .ok session := by
  simp only [start, bind_eq_ok_iff] at started
  obtain ⟨opened, mapped, same⟩ := started
  cases same
  have listed : (name, session) ∈ opened := Dictionary.mem_of_get?_ofList found
  obtain ⟨i, declared, result⟩ := (mem_of_mapM mapped).2 _ listed
  simp only [bind_eq_ok_iff] at result
  obtain ⟨_, isOpened, same⟩ := result
  cases same
  exact ⟨i, declared, rfl, isOpened⟩

end SessionPool

end InvariantInference
