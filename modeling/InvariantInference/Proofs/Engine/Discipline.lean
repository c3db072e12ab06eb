import Mathlib
import InvariantInference.Proofs.Engine.Outcomes
import InvariantInference.Proofs.Engine.Simulation

/-!
# Sessions over whole runs

Whatever an engine is asked for, each of its sessions goes from one
verification to the next, and a run verifies an implementation as often as its
record says. So the calls on a session come in blocks, and a session that only
counts its verifications and pops what it pushed is otherwise as it was.
-/

namespace InvariantInference

open Session (Verifications)

/-- Verifications leave a model session as it was, but for its counters. -/
theorem Model.Session.of_verifications {n : Nat} {s later : Model.Session}
    (verifications : Verifications n s later) :
    later.stack = s.stack ∧ later.pushes = s.pushes + n ∧
      later.verifications = s.verifications + n := by
  induction verifications with
  | none => exact ⟨rfl, rfl, rfl⟩
  | @more n s later _ hypothesis ih =>
    obtain ⟨stack, pushes, counted⟩ := ih
    rw [verifyUnder_eq]
    refine ⟨stack, ?_, ?_⟩
    · show later.pushes + 1 = _
      omega
    · show later.verifications + 1 = _
      omega

variable {σ : Type} [Session σ]

/-! ## Runs -/

namespace Run

variable {s : Setting} {current : Nat} {run : Run σ} {name : String}

theorem attempts_step (s : Setting) (current : Nat) (run : Run σ) (name : String) :
    (run.step s current).2.ledger.attempts name =
      if name = s.graph.name current then run.ledger.attempts name + 1
      else run.ledger.attempts name := by
  have recorded : (run.recorded s current).ledger.attempts name =
      if name = s.graph.name current then run.ledger.attempts name + 1
      else run.ledger.attempts name := by
    rw [Run.recorded, Ledger.attempts_record]
    split
    · rename_i same
      rw [same]
    · rfl
  rcases (step_cases s current run).ledger_cases with same | refuted
  · rw [same, recorded]
  · rw [refuted, Ledger.attempts_refuted, recorded]

/-- The session of a name was verified as often as its record says. -/
def Verified (name : String) (session : σ) (run : Run σ) : Prop :=
  ∃ later, run.pool.get? name = some later ∧
    Verifications (run.ledger.attempts name) session later

theorem Verified.step {session : σ} (verified : run.Verified name session) :
    (run.step s current).2.Verified name session := by
  obtain ⟨later, found, verifications⟩ := verified
  rw [Verified, step_pool, SessionPool.get?_verifyUnder, attempts_step]
  by_cases same : name = s.graph.name current
  · rw [if_pos same, if_pos same, ← same, found]
    exact ⟨_, rfl, .more verifications _⟩
  · rw [if_neg same, if_neg same]
    exact ⟨later, found, verifications⟩

end Run

/-! ## Requests -/

namespace Engine

variable {e : Engine σ} {name : String} {session : σ}

/-- A run verifies an implementation as often as its record says. -/
theorem verifications_infer (found : e.pool.get? name = some session) (config : Config) :
    ∃ later, (e.infer config).2.2.pool.get? name = some later ∧
      Verifications ((e.infer config).1.ledger.attempts name) session later := by
  have verified : (e.lastRun config).Verified name session := by
    apply Run.finish_preserves (P := fun run => run.Verified name session)
    · exact fun run current _ verified => verified.step
    · exact ⟨session, found, .none session⟩
  exact verified

theorem verifications_perform (found : e.pool.get? name = some session) (request : Request) :
    ∃ n later, (e.perform request).2.pool.get? name = some later ∧
      Verifications n session later := by
  cases request with
  | infer config =>
    obtain ⟨later, found', verifications⟩ := verifications_infer found config
    exact ⟨_, later, found', verifications⟩
  | verifyUnder other hypothesis =>
    show ∃ n later, (e.pool.verifyUnder other hypothesis).2.get? name = some later ∧ _
    rw [SessionPool.get?_verifyUnder]
    by_cases same : name = other
    · rw [if_pos same, ← same, found]
      exact ⟨1, _, rfl, .more (.none session) hypothesis⟩
    · rw [if_neg same]
      exact ⟨0, session, found, .none session⟩

theorem verifications_performAll (found : e.pool.get? name = some session)
    (requests : List Request) :
    ∃ n later, (e.performAll requests).2.pool.get? name = some later ∧
      Verifications n session later := by
  induction requests generalizing e session with
  | nil => exact ⟨0, session, found, .none session⟩
  | cons request rest ih =>
    obtain ⟨m, next, found', before⟩ := verifications_perform found request
    obtain ⟨n, later, found'', after⟩ := ih found'
    exact ⟨m + n, later, found'', before.trans after⟩

theorem graph_performAll (e : Engine σ) (requests : List Request) :
    (e.performAll requests).2.graph = e.graph := by
  induction requests generalizing e with
  | nil => rfl
  | cons request rest ih =>
    have first : (e.perform request).2.graph = e.graph := by cases request <;> rfl
    exact (ih _).trans first

/-- The same engine with its sessions watched from now on. -/
def watch (e : Engine σ) : Engine (Watched σ) where
  candidates := e.candidates
  graph := e.graph
  pool := ⟨e.pool.sessions.map fun session => ⟨session, []⟩⟩

omit [Session σ] in
theorem get?_watch (e : Engine σ) (name : String) :
    e.watch.pool.get? name = (e.pool.get? name).map fun session => ⟨session, []⟩ :=
  Dictionary.get?_map _ _ _

omit [Session σ] in
theorem alike_watch (e : Engine σ) :
    Alike (fun (session : σ) (w : Watched σ) => w.session = session) e e.watch := by
  refine ⟨rfl, rfl, ?_⟩
  intro name
  rw [get?_watch]
  cases e.pool.get? name with
  | none => exact .none
  | some session => exact .some rfl

/-- Watched from the start, the session of an implementation has seen nothing but blocks. -/
theorem blocks_performAll {program : Program} {oracle : Oracle σ}
    (accepted : setUp program oracle = .ok e) (requests : List Request) {i : Implementation}
    (declared : i ∈ program.implementations) :
    ∃ w n, (e.watch.performAll requests).2.pool.get? i.name.value = some w ∧
      (e.performAll requests).2.pool.get? i.name.value = some w.session ∧
      Call.Blocks n w.calls := by
  obtain ⟨-, -, started⟩ := setUp_eq_ok_iff.mp accepted
  obtain ⟨session, opened⟩ := SessionPool.exists_of_start started declared
  have watching : e.watch.pool.get? i.name.value = some ⟨session, []⟩ := by
    rw [get?_watch, opened]
    rfl
  obtain ⟨n, w, found, verifications⟩ := verifications_performAll watching requests
  obtain ⟨calls, blocks, made⟩ := verifications.calls
  obtain ⟨-, alike⟩ := e.alike_watch.performAll Watched.simulates requests
  obtain ⟨session', found', rfl⟩ := alike.pool.exists_left found
  rw [List.nil_append] at made
  exact ⟨w, n, found, found', made ▸ blocks⟩

/-- A run changes the counters of a model session, by the attempts on record, and not its
    stack. -/
theorem counters_infer {program : Program} {e : Engine Model.Session}
    (built : CallGraph.build program = .ok e.graph) {i : Implementation}
    (declared : i ∈ program.implementations) {session : Model.Session}
    (found : e.pool.get? i.name.value = some session) (config : Config) :
    ∃ later record, (e.infer config).2.2.pool.get? i.name.value = some later ∧
      (i.name.value, record) ∈ (e.infer config).1.records ∧
      later.stack = session.stack ∧ later.pushes = session.pushes + record.attempts ∧
      later.verifications = session.verifications + record.attempts := by
  obtain ⟨later, found', verifications⟩ := verifications_infer found config
  obtain ⟨id, place⟩ := List.getElem?_of_mem declared
  obtain ⟨record, -, entry, -⟩ := exists_record (e := e) built config place
  rw [attempts_of_mem_records built config entry] at verifications
  exact ⟨later, record, found', entry, Model.Session.of_verifications verifications⟩

/-- Over any sequence of runs and single verifications the calls on each session come in blocks.
    This is told by the engine with watched sessions, which answers as the engine itself does.
    A single verification leaves all other sessions alone. Model sessions have the same stack
    after a run as before, and were pushed to and verified as often as the records say. -/
theorem session_stack_discipline (program : Program) :
    (∀ {σ : Type} [Session σ] {oracle : Oracle σ} {e : Engine σ}, setUp program oracle = .ok e →
      ∀ requests : List Request,
        let last := (e.performAll requests).2
        let watched := (e.watch.performAll requests).2
        (e.watch.performAll requests).1 = (e.performAll requests).1 ∧
        (∀ i ∈ program.implementations, ∃ w n, watched.pool.get? i.name.value = some w ∧
          last.pool.get? i.name.value = some w.session ∧ Call.Blocks n w.calls) ∧
        ∀ (name other : String) (hypothesis : Expr), other ≠ name →
          (watched.perform (.verifyUnder name hypothesis)).2.pool.get? other =
            watched.pool.get? other) ∧
    ∀ {scripts : Dictionary Script} {e : Engine Model.Session},
      setUp program (Model.oracle scripts) = .ok e →
      ∀ (requests : List Request) (config : Config),
        let before := (e.performAll requests).2
        let result := (before.infer config).1
        let after := (before.infer config).2.2
        (∀ i ∈ program.implementations, ∃ session later record,
          before.pool.get? i.name.value = some session ∧
          after.pool.get? i.name.value = some later ∧
          (i.name.value, record) ∈ result.records ∧
          later.stack = session.stack ∧ later.pushes = session.pushes + record.attempts ∧
          later.verifications = session.verifications + record.attempts) ∧
        (result.records.map (·.2.attempts)).sum = result.iterations := by
  constructor
  · intro σ _ oracle e accepted requests last watched
    refine ⟨?_, ?_, ?_⟩
    · exact (e.alike_watch.performAll Watched.simulates requests).1
    · intro i declared
      exact blocks_performAll accepted requests declared
    · intro name other hypothesis differs
      show (watched.pool.verifyUnder name hypothesis).2.get? other = _
      rw [SessionPool.get?_verifyUnder, if_neg differs]
  · intro scripts e accepted requests config before result after
    obtain ⟨-, built, started⟩ := setUp_eq_ok_iff.mp accepted
    rw [← graph_performAll e requests] at built
    refine ⟨?_, sum_attempts built config⟩
    intro i declared
    obtain ⟨opened, found⟩ := SessionPool.exists_of_start started declared
    obtain ⟨-, session, found', -⟩ := verifications_performAll found requests
    obtain ⟨later, record, found'', told⟩ := counters_infer built declared found' config
    exact ⟨session, later, record, found', found'', told⟩

/-- Replies for the guarded call: the first push on the caller faults, then a verification, then
    a pop. -/
def faultyReplies : Dictionary (List Replay.Reply) := .ofList
  [("Caller", [⟨.ofOutcome .correct, some (.session, "gone"), none, none⟩,
    ⟨.ofOutcome .correct, none, some (.session, "gone"), none⟩,
    ⟨.ofOutcome .correct, none, none, some (.session, "gone")⟩])]

/-- Three verifications of the caller, each with a fault, and a run. -/
def faultyRequests : List Request :=
  List.replicate 3 (.verifyUnder "Caller" (.ofBool true)) ++ [.infer .standard]

/-- These requests make four blocks of calls on the caller, the first one of a single call. A run
    with model sessions verifies the caller twice. -/
theorem session_stack_discipline_guardedCall :
    (∃ e, setUp Program.guardedCall (Replay.oracle faultyReplies none) = .ok e ∧
      ∃ w n, (e.watch.performAll faultyRequests).2.pool.get? "Caller" = some w ∧
        Call.Blocks n w.calls ∧ w.calls.length = 1 + 3 + 3 + 3) ∧
    ∃ e, setUp Program.guardedCall (Model.oracle .empty) = .ok e ∧
      ∃ session later, e.pool.get? "Caller" = some session ∧
        (e.infer .standard).2.2.pool.get? "Caller" = some later ∧
        later.stack = session.stack ∧ later.pushes = 2 := by
  have discipline := session_stack_discipline Program.guardedCall
  have declared : Program.guardedCaller ∈ Program.guardedCall.implementations := by decide +kernel
  constructor
  · refine ⟨_, rfl, ?_⟩
    obtain ⟨-, blocks, -⟩ := discipline.1
      (rfl : setUp Program.guardedCall (Replay.oracle faultyReplies none) = .ok _) faultyRequests
    obtain ⟨w, n, found, -, blocks⟩ := blocks Program.guardedCaller declared
    have length := congrArg (Option.map (·.calls.length)) found
    exact ⟨w, n, found, blocks, Option.some.inj (length.symm.trans (by cbv))⟩
  · refine ⟨_, rfl, ?_⟩
    obtain ⟨sessions, -⟩ := discipline.2
      (rfl : setUp Program.guardedCall (Model.oracle .empty) = .ok _) [] .standard
    obtain ⟨session, later, -, before, after, -, stack, -⟩ :=
      sessions Program.guardedCaller declared
    have pushes := congrArg (Option.map (·.pushes)) after
    exact ⟨session, later, before, after, stack, Option.some.inj (pushes.symm.trans (by cbv))⟩

end Engine

end InvariantInference
