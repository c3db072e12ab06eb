import Mathlib
import InvariantInference.Proofs.Engine.Fixpoint
import InvariantInference.Proofs.Engine.Flush

/-!
# Errors and what justifies them

A verdict with errors is justified by a counterexample that is genuine or that
refutes a candidate which is still true. While candidates can fall, a verdict
without either is malformed: the round complains and is inconclusive. This is
why a round that reports errors and no genuine violation lets a candidate fall.
In a flush a verdict that refutes what has fallen before is taken as it is.
-/

namespace InvariantInference

/-- A counterexample is genuine, or refutes a candidate that is true. -/
def Verdict.Justified (cs : Candidates) (a : Assignment) (v : Verdict) : Prop :=
  ∃ c ∈ v.errors, ∀ r, cs.refutation? c = some r → a.get? r.constant = some true

namespace Classified

variable {cs : Candidates} {a : Assignment} {v : Verdict}

theorem isFresh_iff {c : Classified} :
    c.isFresh a ↔ ∃ r ∈ c.refuted, a.get? r.constant = some true := by
  simp [isFresh, Assignment.isTrue]

theorem hasGenuine_ofVerdict :
    (ofVerdict cs v).hasGenuine ↔ ∃ c ∈ v.errors, cs.refutation? c = none := by
  simp [hasGenuine, ofVerdict]

theorem isFresh_ofVerdict :
    (ofVerdict cs v).isFresh a ↔
      ∃ c ∈ v.errors, ∃ r, cs.refutation? c = some r ∧ a.get? r.constant = some true := by
  rw [isFresh_iff]
  simp only [ofVerdict, List.mem_filterMap]
  constructor
  · rintro ⟨r, ⟨c, reported, refutes⟩, holds⟩
    exact ⟨c, reported, r, refutes, holds⟩
  · rintro ⟨c, reported, r, refutes, holds⟩
    exact ⟨r, ⟨c, reported, refutes⟩, holds⟩

/-- What justifies a verdict shows when its counterexamples are told apart. -/
theorem justified_iff :
    v.Justified cs a ↔ (ofVerdict cs v).hasGenuine ∨ (ofVerdict cs v).isFresh a := by
  rw [hasGenuine_ofVerdict, isFresh_ofVerdict]
  constructor
  · rintro ⟨c, reported, reason⟩
    cases refutes : cs.refutation? c with
    | none => exact .inl ⟨c, reported, refutes⟩
    | some r => exact .inr ⟨c, reported, r, refutes, reason r refutes⟩
  · rintro (⟨c, reported, genuine⟩ | ⟨c, reported, r, refutes, holds⟩)
    · refine ⟨c, reported, ?_⟩
      intro r refutes
      rw [genuine] at refutes
      cases refutes
    · refine ⟨c, reported, ?_⟩
      intro r' refutes'
      rw [refutes] at refutes'
      cases refutes'
      exact holds

/-- What is said about errors that nothing justifies. -/
def complaint (v : Verdict) : String := if v.errors = [] then noCounterexamples else nothingNew

end Classified

namespace Run

variable {σ : Type} {s : Setting} {current : Nat} {run : Run σ}

/-! ## One round -/

/-- The errors of a verdict are taken as they are: they are justified, or there are some and
    the run flushes. -/
def Accepts (s : Setting) (run : Run σ) (v : Verdict) : Prop :=
  v.Justified s.candidates run.assignment ∨ run.phase = .flushing ∧ v.errors ≠ []

theorem Accepts.errors_ne_nil {v : Verdict} (accepted : run.Accepts s v) : v.errors ≠ [] := by
  rcases accepted with ⟨c, reported, -⟩ | ⟨-, some⟩
  · exact List.ne_nil_of_mem reported
  · exact some

theorem judge_of_accepts {v : Verdict} (accepted : run.Accepts s v) :
    run.judge s (.ok v) = (.ofVerdict s.candidates v, []) := by
  have answered : Classified.ofAnswer s.candidates (.ok v) = (.ofVerdict s.candidates v, []) := by
    simp [Classified.ofAnswer, accepted.errors_ne_nil]
  simp only [judge, answered]
  split
  · rfl
  · rename_i active
    have justified := Classified.justified_iff.mp (accepted.resolve_right fun h => active h.1)
    rw [Classified.requireProgress, if_neg]
    · rfl
    · rcases justified with genuine | fresh
      · simp [genuine]
      · simp [fresh]

theorem judge_of_not_accepts {v : Verdict} (outcome : v.outcome = .errors)
    (malformed : ¬ run.Accepts s v) :
    run.judge s (.ok v) = (.ofOutcome .inconclusive, [Classified.complaint v]) := by
  by_cases none : v.errors = []
  · have answered : Classified.ofAnswer s.candidates (.ok v) =
        (.ofOutcome .inconclusive, [Classified.complaint v]) := by
      simp [Classified.ofAnswer, Classified.complaint, outcome, none]
    simp [judge, answered, Classified.requireProgress, Classified.ofOutcome]
  · have answered : Classified.ofAnswer s.candidates (.ok v) =
        (.ofVerdict s.candidates v, []) := by
      simp [Classified.ofAnswer, none]
    have active : run.phase ≠ .flushing := fun flushing => malformed (.inr ⟨flushing, none⟩)
    have unjustified : ¬ v.Justified s.candidates run.assignment := fun h => malformed (.inl h)
    rw [Classified.justified_iff, not_or, Bool.not_eq_true, Bool.not_eq_true] at unjustified
    obtain ⟨refuted, stale⟩ := unjustified
    have genuine : (Classified.ofVerdict s.candidates v).genuine = [] := by
      simpa [Classified.hasGenuine] using refuted
    have judged : (Classified.ofVerdict s.candidates v).requireProgress run.assignment =
        (.ofOutcome .inconclusive, [Classified.complaint v]) := by
      rw [Classified.requireProgress, if_pos]
      · simp [Classified.ofOutcome, Classified.complaint, genuine, none]
      · have errors : (Classified.ofVerdict s.candidates v).outcome = .errors := outcome
        simp [errors, refuted, stale]
    simp only [judge, answered, active, if_false, judged, List.nil_append]

variable [Session σ]

/-- The exceptions of a round are what there is to complain about. -/
theorem exceptionSeen_mem_step {name message : String} :
    .exceptionSeen name message ∈ (run.step s current).1 ↔
      name = s.graph.name current ∧ message ∈ (run.judge s (run.answer s current)).2 := by
  obtain ⟨told, events, response⟩ := step_told s current run
  have silent : .exceptionSeen name message ∉ told := by
    intro member
    cases response.isReaction _ member
  have opening : .exceptionSeen name message ∉ run.openingEvents s current := by
    simp only [openingEvents, List.mem_append, List.mem_cons, reduceCtorEq, List.not_mem_nil,
      or_false, false_or]
    split <;> simp
  rw [events, List.mem_append, mem_report, preamble, List.mem_append, List.mem_map]
  simp only [silent, opening, reduceCtorEq, or_false, false_or, Event.exceptionSeen.injEq]
  constructor
  · rintro ⟨_, complained, rfl, rfl⟩
    exact ⟨rfl, complained⟩
  · rintro ⟨rfl, complained⟩
    exact ⟨message, complained, rfl, rfl⟩

/-- A round has the outcome errors for a verdict with errors that is accepted, and for
    nothing else. -/
theorem outcome_verdict_eq_errors_iff :
    (run.verdict s current).outcome = .errors ↔
      ∃ v, run.answer s current = .ok v ∧ v.outcome = .errors ∧ run.Accepts s v := by
  constructor
  · intro found
    obtain ⟨v, answered, outcome⟩ := answer_of_outcome found (by decide)
    refine ⟨v, answered, outcome, ?_⟩
    by_contra malformed
    rw [verdict, answered, judge_of_not_accepts outcome malformed] at found
    cases found
  · rintro ⟨v, answered, outcome, accepted⟩
    rw [verdict, answered, judge_of_accepts accepted]
    exact outcome

/-- Errors without a genuine violation let a candidate fall, unless the run flushes. -/
theorem fell_of_errors (orderly : run.Orderly s) (active : run.phase ≠ .flushing)
    (outcome : (run.verdict s current).outcome = .errors)
    (refuted : (run.verdict s current).hasGenuine = false) :
    ((run.recorded s current).refinement s current (run.verdict s current)).fell ≠ [] := by
  obtain ⟨v, answered, -, accepted⟩ := outcome_verdict_eq_errors_iff.mp outcome
  have told : run.verdict s current = .ofVerdict s.candidates v := by
    rw [verdict, answered, judge_of_accepts accepted]
  have justified := Classified.justified_iff.mp (accepted.resolve_right fun h => active h.1)
  rw [← told, refuted] at justified
  obtain ⟨r, member, holds⟩ := Classified.isFresh_iff.mp (justified.resolve_left (by simp))
  have falls : run.assignment.canFall r.constant :=
    Assignment.canFall_iff.mpr ⟨orderly.unfrozen active, holds⟩
  exact List.ne_nil_of_mem
    (((round_progress s current run).fell r.constant).mpr ⟨List.mem_map_of_mem member, falls⟩)

theorem Rounds.roundOn {n : Nat} {first : Run σ} (before : Rounds s n first run)
    (head : run.worklist.peek? = some current) :
    RoundOn s first (first.finish s).2 current run := by
  obtain ⟨m, after, -⟩ := finish_rounds s (run.step s current).2
  rw [(before.next head).finish_eq] at after
  exact ⟨⟨n, before⟩, head, m, after⟩

/-- A run that does not flush at its end never did. -/
theorem RoundOn.active {first last : Run σ} (round : RoundOn s first last current run)
    (active : last.phase ≠ .flushing) : run.phase ≠ .flushing := by
  intro flushing
  obtain ⟨n, after⟩ := round.after
  exact active (after.preserves (P := fun later => later.phase = .flushing)
    (fun _ _ _ => step_flushing) (step_flushing flushing))

end Run

namespace Engine

variable {σ : Type} [Session σ]

/-- A round records errors iff the session answered with errors that are accepted, and then it
    does not complain. Other errors are malformed: there are no counterexamples, or the run does
    not flush and they only refute what has fallen before. Then the round complains once and
    records that it is inconclusive. A run that reaches a fixpoint has no flush, so all its
    errors are justified. -/
theorem errors_justified_or_flushing (e : Engine σ) (config : Config) {id : Nat} {run : Run σ}
    (round : Run.RoundOn (e.setting config) (Run.start (e.setting config) e.pool)
      (e.lastRun config) id run) :
    let s := e.setting config
    let name := s.graph.name id
    let next := (run.step s id).2
    let complains (message : String) := .exceptionSeen name message ∈ (run.step s id).1
    (next.outcome? name = some .errors ↔
      ∃ v, run.answer s id = .ok v ∧ v.outcome = .errors ∧
        (v.Justified e.candidates run.assignment ∨ run.phase = .flushing ∧ v.errors ≠ [])) ∧
    (next.outcome? name = some .errors → ∀ message, ¬ complains message) ∧
    (∀ v, run.answer s id = .ok v → v.outcome = .errors →
      ¬ (v.Justified e.candidates run.assignment ∨ run.phase = .flushing ∧ v.errors ≠ []) →
      next.outcome? name = some .inconclusive ∧
        ∀ message, complains message ↔ message = Classified.complaint v) ∧
    ((e.infer config).1.termination = .fixpoint → run.phase ≠ .flushing) := by
  intro s name next complains
  have recorded : next.outcome? name = some (run.verdict s id).outcome := by
    rw [Run.step_outcome, if_pos rfl]
  have complaints : ∀ message, complains message ↔
      message ∈ (run.judge s (run.answer s id)).2 := by
    intro message
    exact Run.exceptionSeen_mem_step.trans (and_iff_right rfl)
  refine ⟨?_, ?_, ?_, ?_⟩
  · rw [recorded, Option.some.injEq]
    exact Run.outcome_verdict_eq_errors_iff
  · intro errors message complained
    rw [recorded, Option.some.injEq] at errors
    obtain ⟨v, answered, -, accepted⟩ := Run.outcome_verdict_eq_errors_iff.mp errors
    rw [complaints, answered, Run.judge_of_accepts accepted] at complained
    cases complained
  · intro v answered outcome malformed
    have judged : run.judge s (.ok v) = (.ofOutcome .inconclusive, [Classified.complaint v]) :=
      Run.judge_of_not_accepts outcome malformed
    refine ⟨?_, ?_⟩
    · rw [recorded, Run.verdict, answered, judged]
      rfl
    · intro message
      rw [complaints, answered, judged, List.mem_singleton]
  · intro fixpoint
    exact round.active (active_of_fixpoint fixpoint)

/-- The only counterexample refutes `P`. -/
def refutesP : Verdict := ⟨.errors, [⟨.assertion, .guarded "P" "x > 0", .none, []⟩]⟩

/-- Replies for the guarded call: the caller refutes `P`, and then has a genuine violation; the
    callee refutes `P` once more. -/
def staleReplies : Dictionary (List Replay.Reply) := .ofList
  [("Caller", [⟨refutesP, none, none, none⟩,
      ⟨⟨.errors, [⟨.assertion, .atom ⟨0, 5⟩ "x > 0", .none, []⟩]⟩, none, none, none⟩]),
    ("Callee", [⟨refutesP, none, none, none⟩])]

/-- The guarded call with these replies. -/
def staleCall : Engine Replay.Session :=
  (setUp Program.guardedCall (Replay.oracle staleReplies none)).toOption.get rfl

/-- The state after two rounds on the caller. -/
def staleRun (config : Config) : Run Replay.Session :=
  let s := staleCall.setting config
  (((Run.start s staleCall.pool).step s 0).2.step s 0).2

/-- If the run goes on at errors, the third round, on the callee, is outside a flush and refutes
    what has fallen: it is inconclusive. -/
theorem errors_justified_or_flushing_guardedCall :
    let config : Config := ⟨true, .spin, .abnormal⟩
    let s := staleCall.setting config
    let run := staleRun config
    Run.RoundOn s (Run.start s staleCall.pool) (staleCall.lastRun config) 1 run ∧
      run.answer s 1 = .ok refutesP ∧
      (run.step s 1).2.outcome? "Callee" = some .inconclusive ∧
      .exceptionSeen "Callee" Classified.nothingNew ∈ (run.step s 1).1 := by
  have round : Run.RoundOn (staleCall.setting ⟨true, .spin, .abnormal⟩)
      (Run.start (staleCall.setting ⟨true, .spin, .abnormal⟩) staleCall.pool)
      (staleCall.lastRun ⟨true, .spin, .abnormal⟩) 1 (staleRun ⟨true, .spin, .abnormal⟩) :=
    (Run.Rounds.round (by decide +kernel) (.round (by decide +kernel) (.done _))).roundOn
      (by decide +kernel)
  have answered : (staleRun ⟨true, .spin, .abnormal⟩).answer
      (staleCall.setting ⟨true, .spin, .abnormal⟩) 1 = .ok refutesP := by decide +kernel
  obtain ⟨-, -, inconclusive, -⟩ := errors_justified_or_flushing _ _ round
  obtain ⟨outcome, complains⟩ := inconclusive refutesP answered rfl (by
    rw [Classified.justified_iff]
    decide +kernel)
  exact ⟨round, answered, outcome, (complains _).mpr (by decide +kernel)⟩

/-- In a flush the same verdict is recorded as errors, which nothing justifies, and the round
    does not complain. -/
theorem stale_refutation_recorded_in_flush :
    let s := staleCall.setting .standard
    let run := staleRun .standard
    setUp Program.guardedCall (Replay.oracle staleReplies none) = .ok staleCall ∧
      Run.RoundOn s (Run.start s staleCall.pool) (staleCall.lastRun .standard) 1 run ∧
      run.phase = .flushing ∧ run.answer s 1 = .ok refutesP ∧
      ¬ refutesP.Justified staleCall.candidates run.assignment ∧
      (run.step s 1).2.outcome? "Callee" = some .errors ∧
      ∀ message, .exceptionSeen "Callee" message ∉ (run.step s 1).1 := by
  have round : Run.RoundOn (staleCall.setting .standard)
      (Run.start (staleCall.setting .standard) staleCall.pool) (staleCall.lastRun .standard) 1
      (staleRun .standard) :=
    (Run.Rounds.round (by decide +kernel) (.round (by decide +kernel) (.done _))).roundOn
      (by decide +kernel)
  refine ⟨rfl, round, by decide +kernel, by decide +kernel, ?_, by decide +kernel, ?_⟩
  · rw [Classified.justified_iff]
    decide +kernel
  · have content : ((staleRun .standard).judge (staleCall.setting .standard)
        ((staleRun .standard).answer (staleCall.setting .standard) 1)).2 = [] := by decide +kernel
    intro message
    rw [Run.exceptionSeen_mem_step, content]
    simp

end Engine

end InvariantInference
