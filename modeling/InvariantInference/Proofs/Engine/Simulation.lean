import Mathlib
import InvariantInference.Proofs.Engine.Log
import InvariantInference.Proofs.Session.Calls

/-!
# Engines with sessions that answer alike

An engine knows its sessions by their answers only. So two engines that differ
in nothing but their sessions do the same as long as these answer alike, and
what an engine does can be told from one whose sessions keep more in mind.
-/

namespace InvariantInference

variable {σ τ : Type}

/-! ## Sessions and pools -/

/-- Sessions in the relation answer alike, and are in the relation afterwards. -/
def Session.Simulates [Session σ] [Session τ] (R : σ → τ → Prop) : Prop :=
  ∀ (s : σ) (t : τ) (hypothesis : Expr), R s t →
    (Session.verifyUnder s hypothesis).1 = (Session.verifyUnder t hypothesis).1 ∧
      R (Session.verifyUnder s hypothesis).2 (Session.verifyUnder t hypothesis).2

/-- A watched session answers as the session does. -/
theorem Watched.simulates [Session σ] :
    Session.Simulates fun (s : σ) (w : Watched σ) => w.session = s := by
  rintro s w hypothesis rfl
  obtain ⟨block, -, verified⟩ := w.verifyUnder_eq hypothesis
  rw [verified]
  exact ⟨rfl, rfl⟩

namespace SessionPool

/-- The sessions of all names are in the relation. -/
def Related (R : σ → τ → Prop) (p : SessionPool σ) (q : SessionPool τ) : Prop :=
  ∀ name, Option.Rel R (p.get? name) (q.get? name)

variable {R : σ → τ → Prop} {p : SessionPool σ} {q : SessionPool τ}

theorem Related.exists_left (related : Related R p q) {name : String} {t : τ}
    (found : q.get? name = some t) : ∃ s, p.get? name = some s ∧ R s t := by
  have here := related name
  rw [found] at here
  generalize p.get? name = first at here ⊢
  cases here with
  | some alike => exact ⟨_, rfl, alike⟩

theorem Related.verifyUnder [Session σ] [Session τ] (simulates : Session.Simulates R)
    (related : Related R p q) (name : String) (hypothesis : Expr) :
    (p.verifyUnder name hypothesis).1 = (q.verifyUnder name hypothesis).1 ∧
      Related R (p.verifyUnder name hypothesis).2 (q.verifyUnder name hypothesis).2 := by
  have here := related name
  constructor
  · unfold SessionPool.verifyUnder
    generalize p.get? name = first at here ⊢
    generalize q.get? name = second at here ⊢
    cases here with
    | none => rfl
    | some alike => exact (simulates _ _ hypothesis alike).1
  · intro other
    rw [get?_verifyUnder, get?_verifyUnder]
    by_cases same : other = name
    · rw [if_pos same, if_pos same]
      generalize p.get? name = first at here ⊢
      generalize q.get? name = second at here ⊢
      cases here with
      | none => exact .none
      | some alike => exact .some (simulates _ _ hypothesis alike).2
    · rw [if_neg same, if_neg same]
      exact related other

end SessionPool

/-! ## Runs -/

namespace Run

/-- The same state with other sessions. -/
def withPool (run : Run σ) (pool : SessionPool τ) : Run τ where
  phase := run.phase
  assignment := run.assignment
  worklist := run.worklist
  blacklist := run.blacklist
  ledger := run.ledger
  iterations := run.iterations
  pool

theorem stay_withPool (s : Setting) (run : Run σ) (pool : SessionPool τ) :
    (run.withPool pool).stay s = (run.stay s).withPool pool := by
  unfold stay
  split <;> rfl

theorem refine_withPool (s : Setting) (current : Nat) (verdict : Classified) (run : Run σ)
    (pool : SessionPool τ) :
    (run.withPool pool).refine s current verdict =
      ((run.refine s current verdict).1, (run.refine s current verdict).2.withPool pool) := by
  let r := run.refinement s current verdict
  by_cases kept : (!r.fell.isEmpty && !verdict.hasGenuine) = true
  · have first : run.refine s current verdict =
        (r.events, (run.refined s current verdict).stay s) := if_pos kept
    have second : (run.withPool pool).refine s current verdict =
        (r.events, ((run.refined s current verdict).withPool pool).stay s) := if_pos kept
    rw [first, second, stay_withPool]
  · have first : run.refine s current verdict = (r.events ++ [.dequeue (s.graph.name current)],
        ((run.refined s current verdict).leave s current).2) := if_neg kept
    have second : (run.withPool pool).refine s current verdict =
        (r.events ++ [.dequeue (s.graph.name current)],
          (((run.refined s current verdict).withPool pool).leave s current).2) := if_neg kept
    rw [first, second]
    rfl

/-- Reactions do not look at the sessions. -/
theorem react_withPool (s : Setting) (current : Nat) (verdict : Classified) (run : Run σ)
    (pool : SessionPool τ) :
    (run.withPool pool).react s current verdict =
      ((run.react s current verdict).1, (run.react s current verdict).2.withPool pool) := by
  by_cases flushing : run.phase = .flushing
  · have other : (run.withPool pool).phase = .flushing := flushing
    rw [react, react, if_pos flushing, if_pos other]
    rfl
  · have other : (run.withPool pool).phase ≠ .flushing := flushing
    rw [react, react, if_neg flushing, if_neg other]
    split
    · split
      · rfl
      · exact refine_withPool s current verdict run pool
    · rfl
    · rfl

variable [Session σ] [Session τ] {R : σ → τ → Prop} {pool : SessionPool τ}

/-- A round with sessions that answer alike is the same round. -/
theorem step_withPool (s : Setting) (current : Nat) (run : Run σ)
    (simulates : Session.Simulates R) (related : run.pool.Related R pool) :
    ∃ later, (run.withPool pool).step s current =
        ((run.step s current).1, (run.step s current).2.withPool later) ∧
      (run.step s current).2.pool.Related R later := by
  obtain ⟨answers, after⟩ := related.verifyUnder simulates (s.graph.name current)
    run.assignment.hypothesis
  let later := (pool.verifyUnder (s.graph.name current) run.assignment.hypothesis).2
  have answer : (run.withPool pool).answer s current = run.answer s current := answers.symm
  have verdict : (run.withPool pool).verdict s current = run.verdict s current :=
    congrArg (fun answered => (run.judge s answered).1) answer
  have report : (run.withPool pool).report s current = run.report s current := by
    rw [Run.report, Run.report, preamble, preamble, answer, verdict]
    rfl
  have recorded : (run.withPool pool).recorded s current =
      (run.recorded s current).withPool later := by
    rw [Run.recorded, verdict]
    rfl
  refine ⟨later, Prod.ext ?_ ?_, ?_⟩
  · rw [step_fst, report, recorded, verdict, react_withPool, step_fst]
  · rw [step_eq_react, recorded, verdict, react_withPool, step_eq_react]
  · rw [step_pool]
    exact after

/-- A run with sessions that answer alike is the same run. -/
theorem finish_withPool (s : Setting) (run : Run σ) (simulates : Session.Simulates R)
    (related : run.pool.Related R pool) :
    ∃ later, (run.withPool pool).finish s =
        ((run.finish s).1, (run.finish s).2.withPool later) ∧
      (run.finish s).2.pool.Related R later := by
  fun_induction finish s run generalizing pool with
  | case1 run empty =>
    refine ⟨pool, ?_, related⟩
    rw [finish]
    split
    · rfl
    · rename_i head
      rw [show (run.withPool pool).worklist.peek? = none from empty] at head
      cases head
  | case2 run current head round rest =>
    rename_i ih
    obtain ⟨next, step, alike⟩ := step_withPool s current run simulates related
    obtain ⟨later, finished, alike⟩ := ih alike
    have head' : (run.withPool pool).worklist.peek? = some current := head
    refine ⟨later, Prod.ext ?_ ?_, alike⟩
    · rw [finish_fst_of_head head', step, finished]
    · rw [finish_step head', step, finished]

end Run

/-! ## Engines -/

namespace Engine

/-- Two engines that differ in their sessions at most, and these are in the relation. -/
structure Alike (R : σ → τ → Prop) (e : Engine σ) (d : Engine τ) : Prop where
  candidates : d.candidates = e.candidates
  graph : d.graph = e.graph
  pool : e.pool.Related R d.pool

variable [Session σ] [Session τ] {R : σ → τ → Prop} {e : Engine σ} {d : Engine τ}

theorem Alike.infer (alike : Alike R e d) (simulates : Session.Simulates R) (config : Config) :
    (d.infer config).1 = (e.infer config).1 ∧ (d.infer config).2.1 = (e.infer config).2.1 ∧
      Alike R (e.infer config).2.2 (d.infer config).2.2 := by
  have setting : d.setting config = e.setting config := by
    rw [Engine.setting, Engine.setting, alike.candidates, alike.graph]
  have start : Run.start (d.setting config) d.pool =
      (Run.start (e.setting config) e.pool).withPool d.pool := by
    rw [setting]
    rfl
  obtain ⟨later, finished, related⟩ := Run.finish_withPool (e.setting config)
    (Run.start (e.setting config) e.pool) simulates alike.pool
  have last : d.lastRun config = (e.lastRun config).withPool later := by
    rw [lastRun, start, setting, finished]
    rfl
  refine ⟨?_, ?_, alike.candidates, alike.graph, ?_⟩
  · rw [infer_result, infer_result, last, setting]
    rfl
  · rw [infer_log, infer_log, last, start, setting, finished, openingEvents, openingEvents,
      alike.candidates]
    rfl
  · show (e.lastRun config).pool.Related R (d.lastRun config).pool
    rw [last]
    exact related

/-- What an engine can be asked for. -/
inductive Request where
  | infer (config : Config)
  | verifyUnder (name : String) (hypothesis : Expr)

/-- What an engine answers. -/
inductive Answer where
  | inferred (result : RunResult) (events : List Event)
  | verified (answer : Except Fault Verdict)

/-- The answer to a request, and the engine after it. -/
def perform (e : Engine σ) : Request → Answer × Engine σ
  | .infer config =>
    let (result, events, e) := e.infer config
    (.inferred result events, e)
  | .verifyUnder name hypothesis =>
    let (answer, pool) := e.pool.verifyUnder name hypothesis
    (.verified answer, { e with pool })

/-- The answers to some requests, one after the other, and the engine after the last one. -/
def performAll (e : Engine σ) : List Request → List Answer × Engine σ
  | [] => ([], e)
  | request :: rest =>
    let (answer, e) := e.perform request
    let (answers, e) := e.performAll rest
    (answer :: answers, e)

theorem Alike.perform (alike : Alike R e d) (simulates : Session.Simulates R)
    (request : Request) :
    (d.perform request).1 = (e.perform request).1 ∧
      Alike R (e.perform request).2 (d.perform request).2 := by
  cases request with
  | infer config =>
    obtain ⟨result, events, after⟩ := alike.infer simulates config
    exact ⟨congrArg₂ Answer.inferred result events, after⟩
  | verifyUnder name hypothesis =>
    obtain ⟨answer, after⟩ := alike.pool.verifyUnder simulates name hypothesis
    exact ⟨congrArg Answer.verified answer.symm, alike.candidates, alike.graph, after⟩

/-- Engines whose sessions answer alike answer alike. -/
theorem Alike.performAll (alike : Alike R e d) (simulates : Session.Simulates R)
    (requests : List Request) :
    (d.performAll requests).1 = (e.performAll requests).1 ∧
      Alike R (e.performAll requests).2 (d.performAll requests).2 := by
  induction requests generalizing e d with
  | nil => exact ⟨rfl, alike⟩
  | cons request rest ih =>
    obtain ⟨answer, after⟩ := alike.perform simulates request
    obtain ⟨answers, last⟩ := ih after
    exact ⟨congrArg₂ List.cons answer answers, last⟩

end Engine

end InvariantInference
