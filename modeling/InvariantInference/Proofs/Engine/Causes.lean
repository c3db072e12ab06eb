import Mathlib
import InvariantInference.Proofs.Engine.Flush

/-!
# Why candidates fall

The ledger and the log both account for the candidates that fell. A candidate is
false iff some implementation has a refutation of it on record, and iff the log
tells of its fall, which it does once. Refutations are dropped in many places (in a
flush, where a genuine violation begins one, where nothing new is refuted), but
never after a candidate fell because of them.
-/

namespace InvariantInference

namespace Run

variable {σ : Type} {s : Setting} {current : Nat} {verdict : Classified} {run next : Run σ}
  {told : List Event} {constant : String}

/-! ## The account of the log -/

/-- A response tells of what falls, each candidate once, and nothing else changes its value. -/
theorem Response.falls (response : Response s current verdict run told next) :
    next.assignment.entries =
        (run.assignment.disableAll (told.filterMap Event.disabled?)).entries ∧
      (told.filterMap Event.disabled?).Nodup ∧
      ∀ constant ∈ told.filterMap Event.disabled?, run.assignment.canFall constant := by
  have refinement := told_refinement s current verdict run
  have could : ∀ constant ∈ (run.refinement s current verdict).fell,
      run.assignment.canFall constant := by
    intro constant fell
    exact (((progress_refinement s current verdict run).fell constant).mp fell).2
  have refined : (run.refined s current verdict).assignment =
      run.assignment.disableAll (run.refinement s current verdict).fell := refinement.assignment
  cases response with
  | leave | timeout | flush => exact ⟨rfl, List.nodup_nil, nofun⟩
  | stay =>
    rw [refinement.disabled, stay_assignment, refined]
    exact ⟨rfl, refinement.distinct, could⟩
  | settle =>
    rw [List.filterMap_append, refinement.disabled, List.filterMap_cons_none rfl,
      List.filterMap_nil, List.append_nil]
    exact ⟨congrArg Assignment.entries refined, refinement.distinct, could⟩

/-- The candidates that are false are those that have fallen, each once. -/
structure Tracks (s : Setting) (fallen : List String) (run : Run σ) : Prop where
  entries : run.assignment.entries = ((Assignment.allTrue s.candidates).disableAll fallen).entries
  distinct : fallen.Nodup

theorem tracks_start (s : Setting) (pool : SessionPool σ) : (start s pool).Tracks s [] :=
  ⟨rfl, List.nodup_nil⟩

theorem Tracks.get? {fallen : List String} (tracks : run.Tracks s fallen) :
    run.assignment.get? constant =
      if constant ∈ fallen then
        ((Assignment.allTrue s.candidates).get? constant).map (fun _ => false)
      else (Assignment.allTrue s.candidates).get? constant := by
  rw [Assignment.get?, tracks.entries, ← Assignment.get?, Assignment.get?_disableAll]
  simp [Assignment.allTrue]

theorem Tracks.mem_of_false {fallen : List String} (tracks : run.Tracks s fallen)
    (value : run.assignment.get? constant = some false) : constant ∈ fallen := by
  by_contra stands
  rw [tracks.get?, if_neg stands] at value
  exact Assignment.get?_allTrue_ne_false _ _ value

theorem Tracks.notMem_of_true {fallen : List String} (tracks : run.Tracks s fallen)
    (value : run.assignment.get? constant = some true) : constant ∉ fallen := by
  intro fell
  rw [tracks.get?, if_pos fell] at value
  simp at value

theorem Tracks.respond {fallen : List String} (tracks : run.Tracks s fallen)
    (response : Response s current verdict run told next) :
    next.Tracks s (fallen ++ told.filterMap Event.disabled?) := by
  obtain ⟨entries, distinct, could⟩ := response.falls
  constructor
  · rw [Assignment.disableAll_append, entries]
    by_cases none : told.filterMap Event.disabled? = []
    · rw [none]
      exact tracks.entries
    · -- Something can fall, so the assignment is not frozen and is the one of the log.
      obtain ⟨constant, fell⟩ := List.exists_mem_of_ne_nil _ none
      have unfrozen := (Assignment.canFall_iff.mp (could constant fell)).1
      have same : run.assignment = (Assignment.allTrue s.candidates).disableAll fallen := by
        apply Assignment.ext tracks.entries
        rw [unfrozen, Assignment.frozen_disableAll]
        rfl
      rw [same]
  · apply tracks.distinct.append distinct
    intro constant before fell
    exact tracks.notMem_of_true (Assignment.canFall_iff.mp (could constant fell)).2 before

/-! ## The account of the ledger -/

/-- Some implementation has a refutation of the candidate on record. -/
def OnRecord (s : Setting) (run : Run σ) (constant : String) : Prop :=
  ∃ id < s.graph.size, ∃ r ∈ run.ledger.refutations (s.graph.name id), r.constant = constant

/-- The candidates that are false are those with a refutation on record. -/
def Explained (s : Setting) (run : Run σ) : Prop :=
  ∀ constant, run.assignment.get? constant = some false ↔ run.OnRecord s constant

theorem onRecord_iff {program : Program} (built : CallGraph.build program = .ok s.graph) :
    run.OnRecord s constant ↔
      ∃ i ∈ program.implementations, ∃ record, run.ledger.get? i.name.value = some record ∧
        ∃ r ∈ record.refutations, r.constant = constant := by
  unfold OnRecord
  rw [CallGraph.size_of_build built]
  constructor
  · rintro ⟨id, below, r, member, same⟩
    rw [CallGraph.name_of_build built (List.getElem?_eq_getElem below)] at member
    obtain ⟨record, found, stored⟩ := Ledger.mem_refutations.mp member
    exact ⟨_, List.getElem_mem below, record, found, r, stored, same⟩
  · rintro ⟨i, declared, record, found, r, stored, same⟩
    obtain ⟨id, below, rfl⟩ := List.mem_iff_getElem.mp declared
    refine ⟨id, below, r, ?_, same⟩
    rw [CallGraph.name_of_build built (List.getElem?_eq_getElem below)]
    exact Ledger.mem_refutations.mpr ⟨record, found, stored⟩

theorem stay_ledger (s : Setting) (run : Run σ) : (run.stay s).ledger = run.ledger := by
  unfold stay
  split <;> rfl

theorem explained_start (s : Setting) (pool : SessionPool σ) : (start s pool).Explained s := by
  intro constant
  constructor
  · intro value
    exact absurd value (Assignment.get?_allTrue_ne_false _ _)
  · rintro ⟨id, -, r, member, -⟩
    cases member

theorem onRecord_refined {record : OutcomeRecord} (below : current < s.graph.size)
    (found : run.ledger.get? (s.graph.name current) = some record) :
    (run.refined s current verdict).OnRecord s constant ↔
      run.OnRecord s constant ∨ constant ∈ Refinement.constants verdict.refuted := by
  have entered : ∀ other, (run.ledger.refuted (s.graph.name current) verdict.refuted).refutations
      other = if other = s.graph.name current then
        run.ledger.refutations (s.graph.name current) ++ verdict.refuted
      else run.ledger.refutations other :=
    fun _ => Ledger.refutations_refuted found verdict.refuted
  unfold OnRecord refined
  simp only [entered]
  constructor
  · rintro ⟨id, bound, r, member, same⟩
    split at member
    · rename_i named
      rcases List.mem_append.mp member with old | new
      · exact .inl ⟨current, below, r, old, same⟩
      · exact .inr (List.mem_map.mpr ⟨r, new, same⟩)
    · exact .inl ⟨id, bound, r, member, same⟩
  · rintro (⟨id, bound, r, member, same⟩ | refuted)
    · refine ⟨id, bound, r, ?_, same⟩
      split
      · rename_i named
        rw [named] at member
        exact List.mem_append_left _ member
      · exact member
    · obtain ⟨r, member, same⟩ := List.mem_map.mp refuted
      refine ⟨current, below, r, ?_, same⟩
      rw [if_pos rfl]
      exact List.mem_append_right _ member

/-- What is refuted while candidates can fall is false and on record afterwards. -/
theorem Explained.refined {record : OutcomeRecord} (explained : run.Explained s)
    (orderly : run.Orderly s) (active : run.phase ≠ .flushing)
    (known : ∀ r ∈ verdict.refuted, r.constant ∈ s.candidates.names)
    (below : current < s.graph.size)
    (found : run.ledger.get? (s.graph.name current) = some record) :
    (run.refined s current verdict).Explained s := by
  intro constant
  rw [onRecord_refined below found, ← explained constant, assignment_refined,
    Assignment.get?_disableAll]
  by_cases refuted : constant ∈ Refinement.constants verdict.refuted
  · -- Only candidates are refuted, so there is a value, and it is not frozen.
    obtain ⟨r, member, rfl⟩ := List.mem_map.mp refuted
    have candidate := known r member
    rw [← orderly.names] at candidate
    obtain ⟨value, found⟩ := Option.ne_none_iff_exists'.mp
      fun none => Assignment.get?_eq_none_iff.mp none candidate
    rw [if_pos ⟨refuted, orderly.unfrozen active⟩, found]
    simp [refuted]
  · rw [if_neg (fun fallen => refuted fallen.1)]
    simp [refuted]

theorem Explained.react {record : OutcomeRecord} (explained : run.Explained s)
    (orderly : run.Orderly s) (reaction : Reaction s current verdict run next)
    (known : ∀ r ∈ verdict.refuted, r.constant ∈ s.candidates.names)
    (below : current < s.graph.size)
    (found : run.ledger.get? (s.graph.name current) = some record) : next.Explained s := by
  obtain ⟨_, response⟩ := reaction
  cases response with
  | leave | timeout | flush => exact explained
  | stay active =>
    have refined := explained.refined orderly active known below found
    unfold Explained OnRecord at refined ⊢
    rw [stay_assignment, stay_ledger]
    exact refined
  | settle active => exact explained.refined orderly active known below found

variable [Session σ]

theorem Tracks.step {fallen : List String} (tracks : run.Tracks s fallen) (current : Nat) :
    (run.step s current).2.Tracks s
      (fallen ++ (run.step s current).1.filterMap Event.disabled?) := by
  obtain ⟨told, events, response⟩ := step_told s current run
  have recorded : (run.recorded s current).Tracks s fallen := ⟨tracks.entries, tracks.distinct⟩
  rw [events, List.filterMap_append, disabled?_report, List.nil_append]
  exact recorded.respond response

theorem candidate_of_refuted {r : Refutation} (member : r ∈ (run.verdict s current).refuted) :
    r.constant ∈ s.candidates.names := by
  obtain ⟨v, -, -, refutes⟩ := mem_refuted_verdict member
  obtain ⟨-, -, -, -, -, candidate⟩ := Candidates.guard_of_refutation? refutes
  exact List.contains_iff_mem.mp candidate

theorem Explained.step (explained : run.Explained s) (orderly : run.Orderly s)
    (head : run.worklist.peek? = some current) : (run.step s current).2.Explained s := by
  obtain ⟨record, found, -⟩ := run.ledger.get?_record_self (s.graph.name current)
    (run.verdict s current).outcome (run.verdict s current).genuine
  have recorded : (run.recorded s current).Explained s := by
    intro constant
    unfold OnRecord Run.recorded
    simp only [Ledger.refutations_record]
    exact explained constant
  apply recorded.react (orderly.recorded current) (step_cases s current run)
  · intro r member
    exact candidate_of_refuted member
  · exact orderly.valid.bounded current (Worklist.mem_of_peek? head)
  · exact found

/-- The rounds to come are rounds of the run. -/
theorem roundOn_of_visits {visit : Nat × Run σ} (visited : visit ∈ run.visits s) :
    RoundOn s run (run.finish s).2 visit.1 visit.2 := by
  fun_induction visits s run with
  | case1 run empty => cases visited
  | case2 run current head ih =>
    rcases List.mem_cons.mp visited with rfl | later
    · exact roundOn_finish head
    · rw [finish_step head]
      exact (ih later).extend head

/-- What the log of a run tells to fall fell in one of its rounds. -/
theorem exists_roundOn_of_disabled (fell : .candidateDisabled constant ∈ (run.finish s).1) :
    ∃ id later, RoundOn s run (run.finish s).2 id later ∧
      .candidateDisabled constant ∈ (later.step s id).1 ∧
      later.assignment.get? constant = some true := by
  rw [finish_fst, List.mem_flatMap] at fell
  obtain ⟨⟨id, later⟩, visited, fell⟩ := fell
  refine ⟨id, later, roundOn_of_visits visited, fell, ?_⟩
  obtain ⟨told, events, response⟩ := step_told s id later
  rw [events, List.mem_append] at fell
  rcases fell with reported | reacted
  · cases isReport_report reported
  · have could := response.falls.2.2 constant (Event.mem_filterMap_disabled?.mpr reacted)
    exact (Assignment.canFall_iff.mp could).2

end Run

namespace Engine

variable {σ : Type} [Session σ] {program : Program} {oracle : Oracle σ} {e : Engine σ}

theorem explained_lastRun (prepared : Prepared program oracle e) (config : Config) :
    (e.lastRun config).Explained (e.setting config) := by
  have kept : (e.lastRun config).Orderly (e.setting config) ∧
      (e.lastRun config).Explained (e.setting config) := by
    apply Run.finish_preserves (P := fun run =>
      run.Orderly (e.setting config) ∧ run.Explained (e.setting config))
    · rintro run current head ⟨orderly, explained⟩
      exact ⟨orderly.step prepared.build head, explained.step orderly head⟩
    · exact ⟨Run.orderly_start _ _, Run.explained_start _ _⟩
  exact kept.2

/-- All that falls in a run falls in one of its rounds. -/
theorem disabled?_log (e : Engine σ) (config : Config) :
    (e.infer config).2.1.filterMap Event.disabled? =
      ((Run.start (e.setting config) e.pool).finish (e.setting config)).1.filterMap
        Event.disabled? := by
  have closing : ((e.lastRun config).closingEvents (e.setting config)).filterMap
      Event.disabled? = [] :=
    List.filterMap_eq_nil_iff.mpr fun event member => (Run.quiet_closingEvents event member).2.1
  rw [infer_log, List.filterMap_append, List.filterMap_append, closing, List.append_nil]
  rfl

theorem tracks_lastRun (e : Engine σ) (config : Config) :
    (e.lastRun config).Tracks (e.setting config)
      ((e.infer config).2.1.filterMap Event.disabled?) := by
  rw [disabled?_log]
  have initial : (Run.start (e.setting config) e.pool).Tracks (e.setting config)
      (([] : List Event).filterMap Event.disabled?) := Run.tracks_start _ _
  refine Run.finish_log_preserves (P := fun log run =>
    run.Tracks (e.setting config) (log.filterMap Event.disabled?)) ?_ initial
  intro log run current _ tracks
  rw [List.filterMap_append]
  exact tracks.step current

/-- A candidate is false at the end of a run iff some implementation has a refutation of it on
    record. It then fell once, in a round that took it for true. -/
theorem refutations_explain_assignment (prepared : Prepared program oracle e) (config : Config)
    (constant : String) :
    let s := e.setting config
    let result := (e.infer config).1
    (result.assignment.get? constant = some false ↔
      ∃ i ∈ program.implementations, ∃ record,
        result.ledger.get? i.name.value = some record ∧
          ∃ r ∈ record.refutations, r.constant = constant) ∧
    (result.assignment.get? constant = some false →
      ((e.infer config).2.1.filterMap Event.disabled?).count constant = 1 ∧
      ∃ id run, Run.RoundOn s (Run.start s e.pool) (e.lastRun config) id run ∧
        .candidateDisabled constant ∈ (run.step s id).1 ∧
        run.assignment.get? constant = some true) := by
  intro s result
  have tracks := tracks_lastRun e config
  constructor
  · show (e.lastRun config).assignment.get? constant = some false ↔ _
    rw [explained_lastRun prepared config constant, Run.onRecord_iff prepared.build]
    rfl
  · intro value
    have fallen := tracks.mem_of_false value
    refine ⟨List.count_eq_one_of_mem tracks.distinct fallen, ?_⟩
    apply Run.exists_roundOn_of_disabled
    rw [disabled?_log] at fallen
    exact Event.mem_filterMap_disabled?.mp fallen

/-- In the guarded call `P` falls because of the caller. The refutations of `Q` come with a
    genuine violation and in the flush, so they leave no trace. -/
theorem refutations_explain_assignment_guardedCall :
    ∃ e, setUp Program.guardedCall (Replay.oracle failingReplies none) = .ok e ∧
      ((e.infer .standard).2.1.filterMap Event.disabled?).count "P" = 1 ∧
      ¬ ∃ i ∈ Program.guardedCall.implementations, ∃ record,
        (e.infer .standard).1.ledger.get? i.name.value = some record ∧
          ∃ r ∈ record.refutations, r.constant = "Q" := by
  have prepared : Prepared Program.guardedCall (Replay.oracle failingReplies none) _ := .setUp rfl
  refine ⟨_, rfl, ?_, ?_⟩
  · exact ((refutations_explain_assignment prepared .standard "P").2 (by cbv)).1
  · rw [← (refutations_explain_assignment prepared .standard "Q").1]
    cbv
    intro same
    cases same

end Engine

end InvariantInference
