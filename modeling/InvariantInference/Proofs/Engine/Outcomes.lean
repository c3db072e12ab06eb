import Mathlib
import InvariantInference.Proofs.Engine.Causes
import InvariantInference.Proofs.Engine.Justification

/-!
# Outcomes on record

The ledger of a run has a record for every implementation that was verified,
and each record tells of the last round on its implementation. What the records
say goes with how the run ends: outside a flush an implementation whose record
has errors is still queued, unless its violation is genuine and the run goes on
at errors; in a flush there is the record of the violation that began it.
-/

namespace InvariantInference

namespace Run

variable {σ : Type} {s : Setting} {current id : Nat} {verdict : Classified} {run next : Run σ}

/-- After the round is entered a reaction at most adds refutations. -/
theorem Reaction.ledger_cases (reaction : Reaction s current verdict run next) :
    next.ledger = run.ledger ∨
      next.ledger = run.ledger.refuted (s.graph.name current) verdict.refuted := by
  obtain ⟨_, response⟩ := reaction
  cases response with
  | stay => exact .inr (stay_ledger s _)
  | settle => exact .inr rfl
  | _ => exact .inl rfl

/-- Only a run that is to stop at errors begins to flush. -/
theorem Reaction.stop_of_phase (reaction : Reaction s current verdict run next)
    (active : run.phase ≠ .flushing) (flushing : next.phase = .flushing) :
    s.config.continueAtError = false := by
  obtain ⟨_, response⟩ := reaction
  cases response with
  | leave | timeout => exact absurd (nextPhase_eq_flushing.mp flushing) active
  | flush _ _ _ stop => exact stop
  | stay => exact absurd flushing (stay_phase s _)
  | settle => exact absurd (nextPhase_eq_flushing.mp flushing) active

/-- Where something falls and no violation is genuine the implementation is kept. -/
theorem Reaction.kept (reaction : Reaction s current verdict run next)
    (head : run.worklist.peek? = some current) (active : run.phase ≠ .flushing)
    (outcome : verdict.outcome = .errors) (fell : (run.refinement s current verdict).fell ≠ [])
    (refuted : verdict.hasGenuine = false) : current ∈ next.worklist.ids := by
  obtain ⟨_, response⟩ := reaction
  cases response with
  | leave quiet => exact absurd outcome (quiet.resolve_left active).1
  | timeout _ timedOut => simp [outcome] at timedOut
  | flush _ _ genuine => simp [refuted] at genuine
  | stay => exact mem_stay.mpr (Worklist.mem_of_peek? (peek?_refined head _))
  | settle _ _ rest =>
    rw [refuted] at rest
    exact absurd (rest.resolve_right (by simp)) fell

variable [Session σ] {first : Run σ}

/-! ## The records after a round -/

theorem names_step (s : Setting) (current : Nat) (run : Run σ) :
    (run.step s current).2.ledger.records.names =
      (run.recorded s current).ledger.records.names := by
  rcases (step_cases s current run).ledger_cases with same | refuted
  · rw [same]
  · rw [refuted, Ledger.names_refuted]

theorem total_step (s : Setting) (current : Nat) (run : Run σ) :
    (run.step s current).2.ledger.records.total (·.attempts) =
      run.ledger.records.total (·.attempts) + 1 := by
  rcases (step_cases s current run).ledger_cases with same | refuted
  · rw [same]
    exact Ledger.total_record
  · rw [refuted, Ledger.total_refuted]
    exact Ledger.total_record

/-- A round enters its outcome and its genuine violations. -/
theorem get?_step_self (s : Setting) (current : Nat) (run : Run σ) :
    ∃ record, (run.step s current).2.ledger.get? (s.graph.name current) = some record ∧
      record.outcome = (run.verdict s current).outcome ∧
      record.genuine = (run.verdict s current).genuine := by
  obtain ⟨record, found, outcome, genuine, -⟩ := run.ledger.get?_record_self
    (s.graph.name current) (run.verdict s current).outcome (run.verdict s current).genuine
  rcases (step_cases s current run).ledger_cases with same | refuted
  · rw [same]
    exact ⟨record, found, outcome, genuine⟩
  · rw [refuted, Ledger.get?_refuted, if_pos rfl]
    have entered : (run.recorded s current).ledger.get? (s.graph.name current) = some record :=
      found
    rw [entered]
    exact ⟨_, rfl, outcome, genuine⟩

theorem get?_step_of_ne {name : String} (other : name ≠ s.graph.name current) :
    (run.step s current).2.ledger.get? name = run.ledger.get? name := by
  rcases (step_cases s current run).ledger_cases with same | refuted
  · rw [same]
    exact Ledger.get?_record_of_ne other
  · rw [refuted, Ledger.get?_refuted, if_neg other]
    exact Ledger.get?_record_of_ne other

/-- Every record is of an implementation, there is one for each that is not queued, and it
    tells of the last round on it. -/
structure Accounted (s : Setting) (first run : Run σ) : Prop where
  distinct : run.ledger.records.names.Nodup
  known : ∀ name ∈ run.ledger.records.names, ∃ id < s.graph.size, s.graph.name id = name
  total : run.ledger.records.total (·.attempts) = run.iterations
  verified : ∀ id < s.graph.size, id ∈ run.worklist.ids ∨
    ∃ record verdict, run.ledger.get? (s.graph.name id) = some record ∧
      LastVerdict s first id run verdict ∧ record.outcome = verdict.outcome ∧
      record.genuine = verdict.genuine

theorem accounted_start (s : Setting) (pool : SessionPool σ) :
    Accounted s (start s pool) (start s pool) where
  distinct := List.nodup_nil
  known name member := by cases member
  total := rfl
  verified id below := .inl (List.mem_eraseDups.mpr (List.mem_range.mpr below))

theorem Accounted.step {program : Program} (accounted : Accounted s first run)
    (built : CallGraph.build program = .ok s.graph) (orderly : run.Orderly s)
    (before : ∃ n, Rounds s n first run) (head : run.worklist.peek? = some current) :
    Accounted s first (run.step s current).2 := by
  have below := orderly.valid.bounded current (Worklist.mem_of_peek? head)
  refine ⟨?_, ?_, ?_, ?_⟩
  · rw [names_step]
    exact Dictionary.nodup_names_alter accounted.distinct _
  · intro name member
    rw [names_step] at member
    rw [show (run.recorded s current).ledger.records.names = _ from Dictionary.names_alter _ _ _]
      at member
    split at member
    · exact accounted.known name member
    · rcases List.mem_append.mp member with old | new
      · exact accounted.known name old
      · exact ⟨current, below, (List.mem_singleton.mp new).symm⟩
  · rw [total_step, step_iterations, accounted.total]
  · intro id known
    by_cases same : id = current
    · subst same
      obtain ⟨record, found, outcome, genuine⟩ := get?_step_self s id run
      exact .inr ⟨record, _, found, .here before head, outcome, genuine⟩
    · rcases accounted.verified id known with queued | ⟨record, verdict, found, last, told⟩
      · exact .inl ((step_cases s current run).mem_worklist head queued same)
      · right
        refine ⟨record, verdict, ?_, .later last head (Ne.symm same), told⟩
        rw [get?_step_of_ne, found]
        intro named
        exact same (CallGraph.id_eq_of_name_eq built known below named)

/-! ## Errors on record -/

/-- A run that is to stop at errors flushes after a genuine violation. -/
theorem flushing_of_genuine (outcome : (run.verdict s current).outcome = .errors)
    (genuine : (run.verdict s current).hasGenuine = true)
    (stop : s.config.continueAtError = false) : (run.step s current).2.phase = .flushing := by
  by_cases flushing : run.phase = .flushing
  · exact step_flushing flushing
  · have active : (run.recorded s current).phase ≠ .flushing := flushing
    rw [step_eq_react, react, if_neg active]
    simp [outcome, genuine, stop, flush]

/-- An implementation that leaves a run with errors has a genuine violation, if the run does not
    flush then. -/
theorem genuine_of_left (orderly : run.Orderly s) (head : run.worklist.peek? = some current)
    (active : (run.step s current).2.phase ≠ .flushing)
    (left : current ∉ (run.step s current).2.worklist.ids)
    (outcome : (run.verdict s current).outcome = .errors) :
    (run.verdict s current).hasGenuine = true ∧ s.config.continueAtError = true := by
  have before : run.phase ≠ .flushing := fun flushing => active (step_flushing flushing)
  have genuine : (run.verdict s current).hasGenuine = true := by
    by_contra refuted
    rw [Bool.not_eq_true] at refuted
    have fell := fell_of_errors orderly before outcome refuted
    exact left ((step_cases s current run).kept head before outcome fell refuted)
  refine ⟨genuine, ?_⟩
  by_contra stop
  rw [Bool.not_eq_true] at stop
  exact active (flushing_of_genuine outcome genuine stop)

/-- The record of an implementation has errors, and some of them are genuine. -/
def Violated (s : Setting) (run : Run σ) (id : Nat) : Prop :=
  ∃ record, run.ledger.get? (s.graph.name id) = some record ∧ record.outcome = .errors ∧
    record.genuine ≠ []

/-- What the errors on record say about the run. -/
structure Resolved (s : Setting) (run : Run σ) : Prop where
  /-- Outside a flush errors are queued, or genuine and tolerated. -/
  refining : run.phase ≠ .flushing → ∀ id < s.graph.size, id ∉ run.worklist.ids →
    ∀ record, run.ledger.get? (s.graph.name id) = some record → record.outcome = .errors →
      record.genuine ≠ [] ∧ s.config.continueAtError = true
  /-- In a flush there is the record of the violation that began it. -/
  flushing : run.phase = .flushing →
    s.config.continueAtError = false ∧
      ∃ id < s.graph.size, id ∉ run.worklist.ids ∧ run.Violated s id

omit [Session σ] in
theorem resolved_start (s : Setting) (pool : SessionPool σ) : (start s pool).Resolved s where
  refining _ _ _ _ _ found := by cases found
  flushing begun := by cases begun

theorem Resolved.step {program : Program} (resolved : run.Resolved s)
    (built : CallGraph.build program = .ok s.graph) (orderly : run.Orderly s)
    (head : run.worklist.peek? = some current) : (run.step s current).2.Resolved s := by
  have queued := Worklist.mem_of_peek? head
  have below := orderly.valid.bounded current queued
  have kept : ∀ id < s.graph.size, id ≠ current →
      (run.step s current).2.ledger.get? (s.graph.name id) = run.ledger.get? (s.graph.name id) := by
    intro id known other
    apply get?_step_of_ne
    intro named
    exact other (CallGraph.id_eq_of_name_eq built known below named)
  refine ⟨?_, ?_⟩
  · intro active id known left record found errors
    by_cases same : id = current
    · subst same
      obtain ⟨record', found', outcome, genuine⟩ := get?_step_self s id run
      rw [found] at found'
      cases found'
      rw [outcome] at errors
      obtain ⟨violated, tolerated⟩ := genuine_of_left orderly head active left errors
      rw [genuine]
      refine ⟨?_, tolerated⟩
      intro none
      simp [Classified.hasGenuine, none] at violated
    · rw [kept id known same] at found
      refine resolved.refining ?_ id known ?_ record found errors
      · exact fun flushing => active (step_flushing flushing)
      · exact fun member => left ((step_cases s current run).mem_worklist head member same)
  · intro flushing
    by_cases begun : run.phase = .flushing
    · obtain ⟨stop, id, known, absent, record, found, violated⟩ := resolved.flushing begun
      have other : id ≠ current := fun same => absent (same ▸ queued)
      refine ⟨stop, id, known, ?_, record, (kept id known other).trans found, violated⟩
      rw [worklist_step_of_flushing begun]
      exact fun member => absent (List.mem_of_mem_tail member)
    · have triggers := triggers_of_phase begun flushing
      obtain ⟨record, found, errors, genuine⟩ := triggers.record
      exact ⟨(step_cases s current run).stop_of_phase begun flushing, current, below,
        triggers.left orderly head, record, found, errors, genuine ▸ triggers.genuine⟩

end Run

namespace Engine

variable {σ : Type} [Session σ] {program : Program} {oracle : Oracle σ} {e : Engine σ}

theorem accounted_lastRun (built : CallGraph.build program = .ok e.graph) (config : Config) :
    Run.Accounted (e.setting config) (Run.start (e.setting config) e.pool) (e.lastRun config) := by
  let s := e.setting config
  let first := Run.start s e.pool
  have kept : (∃ n, Run.Rounds s n first (e.lastRun config)) ∧
      (e.lastRun config).Orderly s ∧ Run.Accounted s first (e.lastRun config) := by
    apply Run.finish_preserves (P := fun run =>
      (∃ n, Run.Rounds s n first run) ∧ run.Orderly s ∧ Run.Accounted s first run)
    · rintro run current head ⟨⟨n, before⟩, orderly, accounted⟩
      exact ⟨⟨n + 1, before.next head⟩, orderly.step built head,
        accounted.step built orderly ⟨n, before⟩ head⟩
    · exact ⟨⟨0, .done first⟩, Run.orderly_start s e.pool, Run.accounted_start s e.pool⟩
  exact kept.2.2

theorem resolved_lastRun (built : CallGraph.build program = .ok e.graph) (config : Config) :
    (e.lastRun config).Resolved (e.setting config) := by
  have kept : (e.lastRun config).Orderly (e.setting config) ∧
      (e.lastRun config).Resolved (e.setting config) := by
    apply Run.finish_preserves (P := fun run =>
      run.Orderly (e.setting config) ∧ run.Resolved (e.setting config))
    · rintro run current head ⟨orderly, resolved⟩
      exact ⟨orderly.step built head, resolved.step built orderly head⟩
    · exact ⟨Run.orderly_start _ _, Run.resolved_start _ _⟩
  exact kept.2

theorem mem_records (built : CallGraph.build program = .ok e.graph) (config : Config)
    {name : String} {record : OutcomeRecord} :
    (name, record) ∈ (e.infer config).1.records ↔
      ∃ id < e.graph.size, e.graph.name id = name ∧
        (e.lastRun config).ledger.get? (e.graph.name id) = some record := by
  have accounted := accounted_lastRun built config
  have entered : (name, record) ∈ (e.infer config).1.records ↔
      (e.lastRun config).ledger.get? name = some record :=
    Dictionary.mem_sorted_iff accounted.distinct
  rw [entered]
  constructor
  · intro found
    obtain ⟨id, below, rfl⟩ := accounted.known name (Dictionary.mem_names_iff.mpr ⟨record, found⟩)
    exact ⟨id, below, rfl, found⟩
  · rintro ⟨id, -, rfl, found⟩
    exact found

theorem attempts_of_mem_records (built : CallGraph.build program = .ok e.graph) (config : Config)
    {name : String} {record : OutcomeRecord}
    (entry : (name, record) ∈ (e.infer config).1.records) :
    (e.infer config).1.ledger.attempts name = record.attempts := by
  obtain ⟨id, -, rfl, found⟩ := (mem_records built config).mp entry
  exact Ledger.attempts_of_get? found

/-- Every implementation has a record, which tells of the last round on it. -/
theorem exists_record (built : CallGraph.build program = .ok e.graph) (config : Config) {id : Nat}
    {i : Implementation} (place : program.implementations[id]? = some i) :
    ∃ record verdict, (i.name.value, record) ∈ (e.infer config).1.records ∧
      Run.LastVerdict (e.setting config) (Run.start (e.setting config) e.pool) id
        (e.lastRun config) verdict ∧
      record.outcome = verdict.outcome ∧ record.genuine = verdict.genuine := by
  have below : id < (e.setting config).graph.size :=
    (CallGraph.size_of_build built).symm ▸ (List.getElem?_eq_some_iff.mp place).1
  rcases (accounted_lastRun built config).verified id below with
    queued | ⟨record, verdict, found, last, told⟩
  · rw [worklist_lastRun] at queued
    cases queued
  · refine ⟨record, verdict, (mem_records built config).mpr ⟨id, below, ?_, found⟩, last, told⟩
    exact CallGraph.name_of_build built place

theorem names_records (built : CallGraph.build program = .ok e.graph) (config : Config) :
    ((e.infer config).1.records.map (·.1)).Perm (program.implementations.map (·.name.value)) := by
  have accounted := accounted_lastRun built config
  have sorted : ((e.infer config).1.records.map (·.1)).Perm
      (e.lastRun config).ledger.records.names := (Dictionary.perm_sorted _).map _
  obtain ⟨-, distinct, -⟩ := CallGraph.build_eq_ok_iff.mp built
  have listed : ((e.infer config).1.records.map (·.1)).Nodup :=
    sorted.nodup_iff.mpr accounted.distinct
  refine (List.perm_ext_iff_of_nodup listed distinct).mpr ?_
  intro name
  constructor
  · intro member
    obtain ⟨id, below, named⟩ := accounted.known name (sorted.mem_iff.mp member)
    rw [← CallGraph.names_of_build built, ← named]
    exact List.mem_map_of_mem (List.mem_range.mpr below)
  · intro member
    obtain ⟨i, declared, rfl⟩ := List.mem_map.mp member
    obtain ⟨id, place⟩ := List.getElem?_of_mem declared
    obtain ⟨record, -, entry, -⟩ := exists_record (e := e) built config place
    exact List.mem_map_of_mem (f := (·.1)) entry

/-- The records count the rounds. -/
theorem sum_attempts (built : CallGraph.build program = .ok e.graph) (config : Config) :
    ((e.infer config).1.records.map (·.2.attempts)).sum = (e.infer config).1.iterations := by
  have total := ((Dictionary.perm_sorted (e.lastRun config).ledger.records).map
    (·.2.attempts)).sum_eq
  refine total.trans (Eq.trans ?_ (accounted_lastRun built config).total)
  rw [Dictionary.total, Dictionary.values, List.map_map]
  rfl

theorem termination_eq_flushed_iff (e : Engine σ) (config : Config) :
    (e.infer config).1.termination = .flushed ↔ (e.lastRun config).phase = .flushing := by
  rw [infer_result, Run.result, Run.termination]
  cases (e.lastRun config).phase <;> simp

theorem termination_of_active {config : Config} (active : (e.lastRun config).phase ≠ .flushing) :
    (e.infer config).1.termination = .fixpoint := by
  cases ended : (e.infer config).1.termination with
  | fixpoint => rfl
  | flushed => exact absurd ((termination_eq_flushed_iff e config).mp ended) active

/-- The records of a run are those of the implementations, one for each. They count the rounds
    and tell of the last one on each implementation. At a fixpoint all errors on record are
    genuine, and there are none unless the run was to go on at errors. A run that was to stop at
    errors was flushed iff a record has a genuine violation, and one that was to go on never is. -/
theorem records_agree_with_termination (prepared : Prepared program oracle e) (config : Config) :
    let s := e.setting config
    let result := (e.infer config).1
    (result.records.map (·.1)).Perm (program.implementations.map (·.name.value)) ∧
    (result.records.map (·.2.attempts)).sum = result.iterations ∧
    (∀ (id : Nat) (i : Implementation), program.implementations[id]? = some i →
      ∃ record verdict, (i.name.value, record) ∈ result.records ∧
        Run.LastVerdict s (Run.start s e.pool) id (e.lastRun config) verdict ∧
        record.outcome = verdict.outcome ∧ record.genuine = verdict.genuine) ∧
    (result.termination = .fixpoint → ∀ entry ∈ result.records, entry.2.outcome = .errors →
      entry.2.genuine ≠ [] ∧ config.continueAtError = true) ∧
    (config.continueAtError = false →
      (result.termination = .flushed ↔
        ∃ entry ∈ result.records, entry.2.outcome = .errors ∧ entry.2.genuine ≠ [])) ∧
    (config.continueAtError = true → result.termination = .fixpoint) := by
  intro s result
  have built := prepared.build
  have resolved := resolved_lastRun built config
  have settled : result.termination = .fixpoint → ∀ entry ∈ result.records,
      entry.2.outcome = .errors → entry.2.genuine ≠ [] ∧ config.continueAtError = true := by
    intro fixpoint entry member errors
    obtain ⟨id, below, -, found⟩ := (mem_records built config).mp member
    refine resolved.refining (active_of_fixpoint fixpoint) id below ?_ _ found errors
    simp [worklist_lastRun]
  refine ⟨names_records built config, sum_attempts built config,
    fun id i => exists_record built config, settled, ?_, ?_⟩
  · intro stop
    rw [termination_eq_flushed_iff]
    constructor
    · intro flushing
      obtain ⟨-, id, below, -, record, found, errors, genuine⟩ := resolved.flushing flushing
      exact ⟨(_, record), (mem_records built config).mpr ⟨id, below, rfl, found⟩, errors,
        genuine⟩
    · rintro ⟨entry, member, errors, -⟩
      by_contra active
      have going := (settled (termination_of_active active) entry member errors).2
      rw [stop] at going
      cases going
  · intro going
    apply termination_of_active
    intro flushing
    have stop : config.continueAtError = false := (resolved.flushing flushing).1
    rw [going] at stop
    cases stop

/-- The run on the guarded call that is flushed: the caller has the genuine violation, and the
    callee has errors of which none is. -/
theorem records_agree_with_termination_guardedCall :
    ∃ e, setUp Program.guardedCall (Replay.oracle failingReplies none) = .ok e ∧
      (e.infer .standard).1.termination = .flushed ∧
      ((e.infer .standard).1.records.map (·.1)).Perm ["Caller", "Callee"] ∧
      ((e.infer .standard).1.records.map (·.2.attempts)).sum = 3 ∧
      ∃ entry ∈ (e.infer .standard).1.records, entry.2.outcome = .errors ∧ entry.2.genuine ≠ [] := by
  have prepared : Prepared Program.guardedCall (Replay.oracle failingReplies none) _ := .setUp rfl
  obtain ⟨names, total, -, -, flushed, -⟩ := records_agree_with_termination prepared .standard
  refine ⟨_, rfl, by cbv, names, total.trans (by cbv), (flushed rfl).mp (by cbv)⟩

end Engine

end InvariantInference
