import Mathlib
import InvariantInference.Proofs.Engine.Attribution

/-!
# The result of a run is maximal

On a guarded-Horn program a run never refutes a candidate of an assignment under
which no implementation refutes a true candidate, and in particular of one under
which all are correct. The current assignment starts above any such assignment.
A round refutes a candidate because an obligation that it
guards is not entailed; with fewer candidates true even less is entailed, so
the obligation would fail under the smaller assignment too if the candidate
were true there. Scripts make no difference: a forced answer has no
counterexamples, and refutes nothing.
-/

namespace InvariantInference

open Model (oracle Passes RefutesNone)

namespace Run

variable {scripts : Dictionary Script} {program : Program} {s : Setting}
  {run : Run Model.Session} {current : Nat} {tau : Assignment}

/-- All that is true under `tau` is true in a state of the run. -/
def Above (tau : Assignment) (run : Run Model.Session) : Prop :=
  ∀ name, tau.get? name = some true → run.assignment.get? name = some true

/-- A round refutes no candidate that is true under an assignment below the current one
    under which no implementation refutes a true candidate. -/
theorem Proper.constant_of_refuted (proper : run.Proper scripts program s)
    (built : CallGraph.build program = .ok s.graph) (distinct : s.candidates.names.Nodup)
    (horn : program.GuardedHorn s.candidates) (head : run.worklist.peek? = some current)
    (names : tau.entries.map (·.1) = s.candidates.names)
    (spared : ∀ i ∈ program.implementations, RefutesNone program s.candidates i tau)
    (above : run.Above tau) {r : Refutation} (refuted : r ∈ (run.verdict s current).refuted) :
    tau.get? r.constant ≠ some true := by
  intro guard
  obtain ⟨i, session, -, declared, idle, fails, refutes⟩ :=
    proper.violates_of_refuted built distinct horn head refuted
  obtain ⟨span, premise, conclusion, guarded, named, -⟩ := Candidates.guard_of_refutation? refutes
  have fails' : Model.Step.Violates tau.get? session.bodySteps r.counterexample := by
    refine fails.of_fewer above (fun name unbound => ?_) guarded
      (by simp [Expr.bound, named, guard])
    rw [Assignment.get?_eq_none_iff, proper.names, ← names, ← Assignment.get?_eq_none_iff]
    exact unbound
  have unrefuted := (Model.refutesNone_iff_unrefuted horn declared idle names distinct).mp
    (spared i declared)
  exact unrefuted r.constant guard r.counterexample
    (Expr.isGuardedBy_iff.mpr ⟨span, premise, conclusion, guarded, named⟩) fails'

/-- A round stays above every assignment below it under which no implementation refutes a
    true candidate. -/
theorem Above.step (proper : run.Proper scripts program s)
    (built : CallGraph.build program = .ok s.graph) (distinct : s.candidates.names.Nodup)
    (horn : program.GuardedHorn s.candidates) (head : run.worklist.peek? = some current)
    (names : tau.entries.map (·.1) = s.candidates.names)
    (spared : ∀ i ∈ program.implementations, RefutesNone program s.candidates i tau)
    (above : run.Above tau) : (run.step s current).2.Above tau := by
  intro name holds
  rcases (step_cases s current run).assignment_cases with same | frozen | fallen
  · rw [same]
    exact above name holds
  · rw [frozen]
    exact above name holds
  · rw [fallen, Assignment.get?_disableAll_of_notMem]
    · exact above name holds
    · intro member
      obtain ⟨r, refuted, rfl⟩ := List.mem_map.mp member
      exact proper.constant_of_refuted built distinct horn head names spared above refuted holds

theorem above_start (names : tau.entries.map (·.1) = s.candidates.names)
    (pool : SessionPool Model.Session) : (start s pool).Above tau := by
  intro name holds
  have member : name ∈ s.candidates.names := names ▸ Assignment.mem_names_of_get? holds
  exact Assignment.get?_allTrue member

end Run

/-- A run ends above every assignment under which no implementation refutes a true
    candidate. -/
theorem Engine.above_lastRun {program : Program} {scripts : Dictionary Script}
    {e : Engine Model.Session} (prepared : Prepared program (oracle scripts) e)
    (horn : program.GuardedHorn e.candidates) (config : Config) {tau : Assignment}
    (names : tau.entries.map (·.1) = e.candidates.names)
    (spared : ∀ i ∈ program.implementations, RefutesNone program e.candidates i tau) :
    (e.lastRun config).Above tau := by
  have distinct := Candidates.nodup_names_collect prepared.collect
  have last : (e.lastRun config).Proper scripts program (e.setting config) ∧
      (e.lastRun config).Above tau :=
    Run.finish_preserves
      (P := fun run => run.Proper scripts program (e.setting config) ∧ run.Above tau)
      (fun _ _ head ⟨proper, above⟩ => ⟨proper.step prepared.build head,
        above.step proper prepared.build distinct horn head names spared⟩)
      ⟨Run.proper_start prepared.ready, Run.above_start names e.pool⟩
  exact last.2

/-- Every candidate that is true under an assignment for which all implementations
    pass is true at the end of every run. -/
theorem Engine.passing_assignment_le_infer {program : Program} {scripts : Dictionary Script}
    {e : Engine Model.Session} (prepared : Prepared program (oracle scripts) e)
    (horn : program.GuardedHorn e.candidates) (config : Config) (tau : Assignment)
    (names : tau.entries.map (·.1) = e.candidates.names)
    (passes : ∀ i ∈ program.implementations, Passes program i tau) :
    ∀ name, tau.get? name = some true → (e.infer config).1.assignment.get? name = some true :=
  above_lastRun prepared horn config names fun i declared => (passes i declared).refutesNone

/-- In the guarded call both implementations pass with `P` false and `Q` true, so
    `Q` stays true, also where the callee never answers in time. -/
theorem Engine.passing_assignment_le_infer_guardedCall :
    ∃ e, setUp Program.guardedCall
        (oracle (.ofList [("Callee", ⟨some .timedOut, none, .session⟩)])) = .ok e ∧
      (e.infer .standard).1.assignment.get? "Q" = some true := by
  refine ⟨_, rfl, ?_⟩
  refine passing_assignment_le_infer (.setUp rfl) ⟨Program.parsed_guardedCall, ?_⟩ .standard
    ⟨[("P", false), ("Q", true)], false⟩ rfl ?_ "Q" rfl
  · decide
  · have implementations : Program.guardedCall.implementations =
        [Program.guardedCaller, Program.guardedImplementation] := rfl
    rw [implementations, List.forall_mem_cons, List.forall_mem_singleton]
    exact ⟨⟨_, _, rfl, Model.Session.verifyUnder_plain rfl _, by cbv⟩,
      ⟨_, _, rfl, Model.Session.verifyUnder_plain rfl _, by cbv⟩⟩

end InvariantInference
