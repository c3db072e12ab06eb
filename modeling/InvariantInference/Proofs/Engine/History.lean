import Mathlib
import InvariantInference.Proofs.Engine.Refinement

/-!
# The history of a run

What happened between two states of a run: which implementations were verified,
in which states, and with which verdict for the last time. An implementation
that is queued stays queued until a round verifies it, so a run does not end
before it was verified. An implementation is on the blacklist only because it
timed out in an earlier round.
-/

namespace InvariantInference

/-- A verdict that reports a genuine violation together with refutations. -/
def Classified.Mixed (verdict : Classified) : Prop :=
  verdict.outcome = .errors ∧ verdict.hasGenuine = true ∧ verdict.refuted ≠ []

namespace Run

variable {σ : Type}

/-- What a reaction queues stays queued, but for the implementation that was verified. -/
theorem Reaction.mem_worklist {s : Setting} {current id : Nat} {verdict : Classified}
    {run next : Run σ} (reaction : Reaction s current verdict run next)
    (head : run.worklist.peek? = some current) (queued : id ∈ run.worklist.ids)
    (other : id ≠ current) : id ∈ next.worklist.ids := by
  have refined : id ∈ (run.refined s current verdict).worklist.ids :=
    ((progress_refinement s current verdict run).queued id).mpr (.inl queued)
  have first : (run.refined s current verdict).worklist.peek? = some current :=
    peek?_refined head verdict
  obtain ⟨_, response⟩ := reaction
  cases response with
  | leave | timeout | flush => exact Worklist.mem_dequeue_of_ne head queued other
  | stay => exact mem_stay.mpr refined
  | settle => exact Worklist.mem_dequeue_of_ne first refined other

/-- Only a timeout outside a flush changes the blacklist. -/
theorem Reaction.blacklist_cases {s : Setting} {current : Nat} {verdict : Classified}
    {run next : Run σ} (reaction : Reaction s current verdict run next) :
    next.blacklist = run.blacklist ∨
      run.phase ≠ .flushing ∧ verdict.outcome = .timedOut ∧
        next.blacklist = run.blacklist.insert current := by
  obtain ⟨_, response⟩ := reaction
  cases response with
  | timeout active outcome => exact .inr ⟨active, outcome, rfl⟩
  | stay => exact .inl (stay_blacklist s _)
  | _ => exact .inl rfl

variable [Session σ] {s : Setting} {first run last : Run σ} {current id : Nat}

/-! ## Rounds between two states -/

/-- The rest of a run starts with a round on the head of the worklist. -/
theorem finish_step (head : run.worklist.peek? = some current) :
    (run.finish s).2 = ((run.step s current).2.finish s).2 := by
  rw [finish]
  split
  · rename_i empty
    rw [head] at empty
    cases empty
  · rename_i other head'
    rw [head] at head'
    cases head'
    rfl

/-- All states of a run lead to the same end. -/
theorem Rounds.finish_eq {n : Nat} (rounds : Rounds s n first run) :
    (run.finish s).2 = (first.finish s).2 := by
  induction rounds with
  | done => rfl
  | round head _ ih =>
    rw [finish_step head]
    exact ih

theorem Rounds.trans {m n : Nat} (before : Rounds s m first run) (after : Rounds s n run last) :
    Rounds s (m + n) first last := by
  induction before with
  | done => simpa using after
  | @round m run _ current head _ ih =>
    rw [Nat.add_right_comm]
    exact .round head (ih after)

theorem Rounds.next {n : Nat} (before : Rounds s n first run)
    (head : run.worklist.peek? = some current) : Rounds s (n + 1) first (run.step s current).2 :=
  before.trans (.round head (.done _))

/-- The state `run` is the one before a round on the implementation `id`, which is one
    of the rounds from `first` to `last`. -/
structure RoundOn (s : Setting) (first last : Run σ) (id : Nat) (run : Run σ) : Prop where
  before : ∃ n, Rounds s n first run
  head : run.worklist.peek? = some id
  after : ∃ n, Rounds s n (run.step s id).2 last

theorem roundOn_finish (head : run.worklist.peek? = some current) :
    RoundOn s run (run.finish s).2 current run := by
  obtain ⟨n, rounds, -⟩ := finish_rounds s (run.step s current).2
  rw [finish_step head]
  exact ⟨⟨0, .done run⟩, head, n, rounds⟩

theorem RoundOn.extend {later : Run σ} (round : RoundOn s (run.step s current).2 last id later)
    (head : run.worklist.peek? = some current) : RoundOn s run last id later := by
  obtain ⟨⟨n, before⟩, head', after⟩ := round
  exact ⟨⟨n + 1, .round head before⟩, head', after⟩

/-- Whatever is queued is verified before the run ends. -/
theorem exists_roundOn_finish (queued : id ∈ run.worklist.ids) :
    ∃ later, RoundOn s run (run.finish s).2 id later := by
  fun_induction finish s run with
  | case1 run empty =>
    have none : run.worklist.ids = [] := by simpa [Worklist.peek?] using empty
    rw [none] at queued
    cases queued
  | case2 run current head round rest ih =>
    by_cases same : id = current
    · subst same
      obtain ⟨n, rounds, -⟩ := finish_rounds s round.2
      exact ⟨run, ⟨0, .done run⟩, head, n, rounds⟩
    · have kept : id ∈ round.2.worklist.ids :=
        (step_cases s current run).mem_worklist head queued same
      obtain ⟨later, found⟩ := ih kept
      exact ⟨later, found.extend head⟩

/-- Once a run flushes it does so to its end. -/
theorem step_flushing (flushing : run.phase = .flushing) :
    (run.step s current).2.phase = .flushing := by
  rw [step_eq_react, react, if_pos (show (run.recorded s current).phase = .flushing from flushing)]
  have same : (run.recorded s current).phase = .flushing := flushing
  rw [leave, nextPhase, same]

/-- What is blacklisted was so from the start, or timed out in a round since. -/
theorem Rounds.timedOut {n : Nat} (rounds : Rounds s n first last)
    (black : last.blacklist.contains id) :
    first.blacklist.contains id ∨
      ∃ run, RoundOn s first last id run ∧ run.phase ≠ .flushing ∧
        (run.verdict s id).outcome = .timedOut := by
  induction rounds with
  | done => exact .inl black
  | @round n run last current head rest ih =>
    rcases ih black with early | ⟨later, round, active, timedOut⟩
    · rcases (step_cases s current run).blacklist_cases with same | ⟨active, timedOut, inserted⟩
      · rw [same] at early
        exact .inl early
      · rw [inserted] at early
        rcases Blacklist.contains_insert.mp early with rfl | known
        · exact .inr ⟨run, ⟨⟨0, .done run⟩, head, n, rest⟩, active, timedOut⟩
        · exact .inl known
    · exact .inr ⟨later, round.extend head, active, timedOut⟩

/-! ## The last round on an implementation -/

/-- In the rounds from `first` to a state, the last one on the implementation `id` had this
    verdict. -/
inductive LastVerdict (s : Setting) (first : Run σ) (id : Nat) : Run σ → Classified → Prop
  | here {run : Run σ} (before : ∃ n, Rounds s n first run)
      (head : run.worklist.peek? = some id) :
      LastVerdict s first id (run.step s id).2 (run.verdict s id)
  | later {run : Run σ} {verdict : Classified} {current : Nat}
      (before : LastVerdict s first id run verdict) (head : run.worklist.peek? = some current)
      (other : current ≠ id) : LastVerdict s first id (run.step s current).2 verdict

theorem LastVerdict.rounds {verdict : Classified} (last : LastVerdict s first id run verdict) :
    ∃ n, Rounds s n first run := by
  induction last with
  | here before head =>
    obtain ⟨n, rounds⟩ := before
    exact ⟨n + 1, rounds.next head⟩
  | later _ head _ ih =>
    obtain ⟨n, rounds⟩ := ih
    exact ⟨n + 1, rounds.next head⟩

/-- A run that stops at errors flushes once a verdict is mixed. -/
theorem LastVerdict.not_mixed {verdict : Classified} (last : LastVerdict s first id run verdict)
    (stop : s.config.continueAtError = false) : run.phase = .flushing ∨ ¬ verdict.Mixed := by
  induction last with
  | @here run _ head =>
    by_cases mixed : (run.verdict s id).Mixed
    · left
      obtain ⟨outcome, genuine, -⟩ := mixed
      rw [step_eq_react, react]
      split
      · rename_i flushing
        rw [leave, nextPhase, flushing]
      · simp [outcome, genuine, stop, flush]
    · exact .inr mixed
  | later _ _ _ ih =>
    rcases ih with flushing | separate
    · exact .inl (step_flushing flushing)
    · exact .inr separate

end Run

end InvariantInference
