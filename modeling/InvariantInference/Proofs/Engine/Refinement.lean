import Mathlib
import InvariantInference.Proofs.Assignment
import InvariantInference.Proofs.Engine.Rounds
import InvariantInference.Proofs.Worklist

/-!
# What the refutations of a round do

The refutations of a round are gone through one after the other, but what comes
out can be read off the state before the round: a candidate falls iff it could
fall and is refuted, and an implementation is queued iff it was queued or is
affected by a refutation of a candidate that could fall.
-/

namespace InvariantInference

namespace Refinement

variable {g : CallGraph} {b : Blacklist} {current : Nat}

/-- The candidates that the refutations name. -/
def constants (refuted : List Refutation) : List String := refuted.map (·.constant)

theorem mem_constants_concat {refuted : List Refutation} {r : Refutation} {name : String} :
    name ∈ constants (refuted ++ [r]) ↔ name ∈ constants refuted ∨ name = r.constant := by
  simp [constants]

@[simp] theorem assignment_refute (s : Refinement) (r : Refutation) :
    (refute g b current s r).assignment = s.assignment.disable r.constant := rfl

theorem fell_refute (s : Refinement) (r : Refutation) :
    (refute g b current s r).fell =
      if s.assignment.canFall r.constant then s.fell ++ [r.constant] else s.fell := rfl

theorem worklist_refute (s : Refinement) (r : Refutation) :
    (refute g b current s r).worklist =
      if r.constant ∈ (refute g b current s r).fell then
        (s.worklist.enqueueAll b (g.affected current r.annotation)).2
      else s.worklist := by
  simp only [refute, List.contains_eq_mem, decide_eq_true_eq]
  exact apply_ite Prod.snd _ _ _

/-- What the refutations up to some point have done to a run that was in the
    state `a`, `w` before them. The candidates that have fallen are those that
    could fall and were refuted, so a later refutation of one of them still
    counts as one of a candidate that fell in this round. -/
structure Progress (g : CallGraph) (b : Blacklist) (current : Nat) (a : Assignment) (w : Worklist)
    (refuted : List Refutation) (s : Refinement) : Prop where
  assignment : s.assignment = a.disableAll (constants refuted)
  fell : ∀ name, name ∈ s.fell ↔ name ∈ constants refuted ∧ a.canFall name
  queued : ∀ id, id ∈ s.worklist.ids ↔ id ∈ w.ids ∨
    ∃ r ∈ refuted, a.canFall r.constant ∧ id ∈ g.affected current r.annotation ∧
      b.contains id = false

/-- One more refutation. -/
theorem Progress.refute {a : Assignment} {w : Worklist} {refuted : List Refutation}
    {s : Refinement} (progress : Progress g b current a w refuted s) (r : Refutation) :
    Progress g b current a w (refuted ++ [r]) (refute g b current s r) := by
  have fell : ∀ name, name ∈ (Refinement.refute g b current s r).fell ↔
      name ∈ constants (refuted ++ [r]) ∧ a.canFall name := by
    intro name
    have falls := Assignment.canFall_disableAll a (constants refuted) r.constant
    rw [fell_refute, progress.assignment, mem_constants_concat]
    by_cases could : (a.disableAll (constants refuted)).canFall r.constant
    · rw [if_pos could, List.mem_append, List.mem_singleton, progress.fell]
      have true' := (falls.mp could).1
      constructor
      · rintro (⟨member, falls⟩ | rfl)
        · exact ⟨.inl member, falls⟩
        · exact ⟨.inr rfl, true'⟩
      · rintro ⟨member | rfl, falls⟩
        · exact .inl ⟨member, falls⟩
        · exact .inr rfl
    · rw [if_neg could, progress.fell]
      constructor
      · rintro ⟨member, falls⟩
        exact ⟨.inl member, falls⟩
      · rintro ⟨member | rfl, could'⟩
        · exact ⟨member, could'⟩
        · refine ⟨?_, could'⟩
          by_contra unnamed
          exact could (falls.mpr ⟨could', unnamed⟩)
  refine ⟨?_, fell, ?_⟩
  · rw [assignment_refute, progress.assignment]
    simp [constants, Assignment.disableAll]
  · intro id
    rw [worklist_refute]
    have here := fell r.constant
    simp only [mem_constants_concat, or_true, true_and] at here
    by_cases falls : a.canFall r.constant
    · rw [if_pos (here.mpr falls), Worklist.mem_enqueueAll, progress.queued]
      simp only [List.mem_append, List.mem_singleton]
      constructor
      · rintro ((old | ⟨r', member, rest⟩) | new)
        · exact .inl old
        · exact .inr ⟨r', .inl member, rest⟩
        · exact .inr ⟨r, .inr rfl, falls, new⟩
      · rintro (old | ⟨r', member | rfl, rest⟩)
        · exact .inl (.inl old)
        · exact .inl (.inr ⟨r', member, rest⟩)
        · exact .inr rest.2
    · rw [if_neg (fun member => falls (here.mp member)), progress.queued]
      simp only [List.mem_append, List.mem_singleton]
      constructor
      · rintro (old | ⟨r', member, rest⟩)
        · exact .inl old
        · exact .inr ⟨r', .inl member, rest⟩
      · rintro (old | ⟨r', member | rfl, rest⟩)
        · exact .inl old
        · exact .inr ⟨r', member, rest⟩
        · exact absurd rest.1 falls

/-- All refutations of a round. -/
theorem progress_refuteAll (a : Assignment) (w : Worklist) (refuted : List Refutation) :
    Progress g b current a w refuted (refuteAll g b current (start a w) refuted) := by
  suffices general : ∀ (before after : List Refutation) (s : Refinement),
      Progress g b current a w before s →
      Progress g b current a w (before ++ after) (refuteAll g b current s after) by
    exact general [] refuted (start a w)
      ⟨rfl, by simp [start, constants], by simp [start]⟩
  intro before after
  induction after generalizing before with
  | nil =>
    intro s progress
    rw [List.append_nil]
    exact progress
  | cons r after ih =>
    intro s progress
    have rest := ih (before ++ [r]) _ (progress.refute r)
    rw [List.append_assoc, List.singleton_append] at rest
    exact rest

/-- The refutations of a round keep a queue valid. -/
theorem valid_refuteAll {bound : Nat} {s : Refinement} (valid : s.worklist.Valid bound)
    (bounded : ∀ (a : Annotation), ∀ id ∈ g.affected current a, id < bound)
    (refuted : List Refutation) : (refuteAll g b current s refuted).worklist.Valid bound := by
  induction refuted generalizing s with
  | nil => exact valid
  | cons r refuted ih =>
    refine ih (s := Refinement.refute g b current s r) ?_
    rw [worklist_refute]
    split
    · exact valid.enqueueAll b (bounded r.annotation)
    · exact valid

/-- Refutations keep the head of the worklist. -/
theorem peek?_refuteAll {s : Refinement} {head : Nat} (first : s.worklist.peek? = some head)
    (refuted : List Refutation) :
    (refuteAll g b current s refuted).worklist.peek? = some head := by
  induction refuted generalizing s with
  | nil => exact first
  | cons r refuted ih =>
    refine ih (s := Refinement.refute g b current s r) ?_
    rw [worklist_refute]
    split
    · exact Worklist.peek?_enqueueAll first b _
    · exact first

end Refinement

namespace Run

variable {σ : Type} {s : Setting} {current : Nat} {verdict : Classified} {run next : Run σ}

@[simp] theorem stay_assignment (s : Setting) (run : Run σ) :
    (run.stay s).assignment = run.assignment := by
  unfold stay
  split <;> rfl

@[simp] theorem stay_blacklist (s : Setting) (run : Run σ) :
    (run.stay s).blacklist = run.blacklist := by
  unfold stay
  split <;> rfl

@[simp] theorem mem_stay {id : Nat} :
    id ∈ (run.stay s).worklist.ids ↔ id ∈ run.worklist.ids := by
  unfold stay
  split
  · rfl
  · exact Worklist.mem_rotate

theorem progress_refinement (s : Setting) (current : Nat) (verdict : Classified) (run : Run σ) :
    Refinement.Progress s.graph run.blacklist current run.assignment run.worklist verdict.refuted
      (run.refinement s current verdict) :=
  Refinement.progress_refuteAll _ _ _

/-- Exactly the refuted candidates fall. -/
theorem assignment_refined (s : Setting) (current : Nat) (verdict : Classified) (run : Run σ) :
    (run.refined s current verdict).assignment =
      run.assignment.disableAll (Refinement.constants verdict.refuted) :=
  (progress_refinement s current verdict run).assignment

theorem peek?_refined (head : run.worklist.peek? = some current) (verdict : Classified) :
    (run.refined s current verdict).worklist.peek? = some current :=
  Refinement.peek?_refuteAll head _

theorem assignment_refined_of_not_fell (none : (run.refinement s current verdict).fell = []) :
    (run.refined s current verdict).assignment = run.assignment := by
  have progress := Refinement.refuteAll_progress s.graph run.blacklist current verdict.refuted
    run.assignment run.worklist
  unfold refinement at none
  rw [if_pos none] at progress
  exact progress.1

theorem refuted_ne_nil_of_fell (fell : (run.refinement s current verdict).fell ≠ []) :
    verdict.refuted ≠ [] := by
  intro none
  apply fell
  rw [refinement, none]
  rfl

/-- A reaction lets nothing fall, or exactly the refuted candidates. -/
theorem Reaction.assignment_cases (reaction : Reaction s current verdict run next) :
    next.assignment = run.assignment ∨ next.assignment = run.assignment.freeze ∨
      next.assignment = run.assignment.disableAll (Refinement.constants verdict.refuted) := by
  have refined := assignment_refined s current verdict run
  obtain ⟨_, response⟩ := reaction
  cases response with
  | leave quiet => exact .inl rfl
  | timeout active outcome => exact .inl rfl
  | flush active outcome genuine stop => exact .inr (.inl rfl)
  | stay active outcome fell refuted => exact .inr (.inr ((stay_assignment s _).trans refined))
  | settle active outcome rest => exact .inr (.inr refined)

/-- What the refutations of the next round do to the state before it. -/
theorem round_progress [Session σ] (s : Setting) (current : Nat) (run : Run σ) :
    Refinement.Progress s.graph run.blacklist current run.assignment run.worklist
      (run.verdict s current).refuted
      ((run.recorded s current).refinement s current (run.verdict s current)) :=
  progress_refinement s current _ (run.recorded s current)

theorem round_assignment [Session σ] (s : Setting) (current : Nat) (run : Run σ) :
    ((run.recorded s current).refined s current (run.verdict s current)).assignment =
      run.assignment.disableAll (Refinement.constants (run.verdict s current).refuted) :=
  assignment_refined s current _ (run.recorded s current)

/-- What is refuted was reported by the session. -/
theorem mem_refuted_verdict [Session σ] {r : Refutation}
    (member : r ∈ (run.verdict s current).refuted) :
    ∃ v : Verdict, run.answer s current = .ok v ∧ r.counterexample ∈ v.errors ∧
      s.candidates.refutation? r.counterexample = some r := by
  have judged : r ∈ (Classified.ofAnswer s.candidates (run.answer s current)).1.refuted := by
    rw [verdict, judge_fst] at member
    split at member
    · exact member
    · unfold Classified.requireProgress at member
      split at member
      · cases member
      · exact member
  cases answered : run.answer s current with
  | error fault =>
    rw [answered] at judged
    cases judged
  | ok v =>
    rw [answered, Classified.ofAnswer] at judged
    split at judged
    · cases judged
    · obtain ⟨c, reported, refutes⟩ := List.mem_filterMap.mp judged
      have same : r.counterexample = c := by
        obtain ⟨kind, -, rfl⟩ := Option.map_eq_some_iff.mp refutes
        rfl
      rw [same]
      exact ⟨v, rfl, reported, refutes⟩

end Run

/-- A refutation is of a condition that its candidate guards. -/
theorem Candidates.guard_of_refutation? {cs : Candidates} {c : Counterexample} {r : Refutation}
    (refutes : cs.refutation? c = some r) :
    ∃ span premise conclusion, c.condition = .binary span .implies premise conclusion ∧
      premise.name? = some r.constant ∧ cs.contains r.constant := by
  obtain ⟨kind, annotated, rfl⟩ := Option.map_eq_some_iff.mp refutes
  obtain ⟨constant, guarded, rfl⟩ := Option.map_eq_some_iff.mp annotated
  unfold guard? Expr.implication? at guarded
  cases condition : c.condition with
  | binary span op premise conclusion =>
    rw [condition] at guarded
    cases op with
    | implies =>
      obtain ⟨named, isCandidate⟩ := Option.filter_eq_some_iff.mp guarded
      refine ⟨span, premise, conclusion, rfl, ?_⟩
      cases c.kind <;> exact ⟨named, isCandidate⟩
    | _ => cases guarded
  | _ =>
    rw [condition] at guarded
    cases guarded

end InvariantInference
