import Mathlib
import InvariantInference.Proofs.CallGraph.Views
import InvariantInference.Proofs.Engine.Log
import InvariantInference.Proofs.Engine.Sessions

/-!
# What a set-up resolves

The call graph, the sessions and the pool each look names up on their own. A
program for which a call graph is built has no name that any of them misses, so
its sessions can be opened, and no run ever looks for something that is not
there. A run knows implementations by their numbers and sessions by their
names; what leaves its worklist is always what was verified last.
-/

namespace InvariantInference

open Model (oracle)

variable {scripts : Dictionary Script} {program : Program}

/-! ## Sessions -/

namespace Model.Session

variable {i : Implementation} {s : Session}

/-- A session of an implementation that knows the procedure and the callee of every call. -/
structure Serves (program : Program) (i : Implementation) (s : Session) : Prop where
  implementation : s.implementation = i
  procedure : program.procedure? i.procedure.value = some s.procedure
  resolved : ∀ block ∈ i.blocks, ∀ span callee, .call span callee ∈ block.commands →
    ∃ p, program.procedure? callee.value = some p ∧ s.callees.get? callee.value = some p

/-- Calls to declared procedures can be resolved. -/
theorem exists_resolve (called : ∀ callee ∈ i.callees, (program.procedure? callee.value).isSome) :
    ∃ callees, resolve program i = .ok callees := by
  refine exists_bind_eq_ok (exists_mapM_eq_ok fun callee call => ?_) fun found => ⟨_, rfl⟩
  obtain ⟨p, declared⟩ := Option.isSome_iff_exists.mp (called callee call)
  rw [declared]
  exact ⟨_, rfl⟩

/-- A session can be opened for every implementation of a program with a call graph. -/
theorem exists_oracle {g : CallGraph} (built : CallGraph.build program = .ok g)
    (declared : i ∈ program.implementations) : ∃ s, oracle scripts program i = .ok s := by
  obtain ⟨-, -, realized, called, -⟩ := CallGraph.build_eq_ok_iff.mp built
  obtain ⟨p, procedure⟩ := Option.isSome_iff_exists.mp (realized i declared)
  obtain ⟨callees, resolved⟩ := exists_resolve (called i declared)
  exact ⟨_, oracle_eq_ok_iff.mpr ⟨p, callees, procedure, resolved, rfl⟩⟩

theorem Idle.serves {g : CallGraph} (built : CallGraph.build program = .ok g)
    (idle : s.Idle program i) (declared : i ∈ program.implementations) : s.Serves program i := by
  refine ⟨idle.implementation, idle.procedure, ?_⟩
  intro block inside span callee command
  have call : callee ∈ i.callees := Implementation.mem_callees.mpr ⟨block, inside, span, command⟩
  obtain ⟨-, -, -, called, -⟩ := CallGraph.build_eq_ok_iff.mp built
  obtain ⟨p, found⟩ := Option.isSome_iff_exists.mp (called i declared callee call)
  refine ⟨p, found, ?_⟩
  rw [get?_of_resolve idle.callees call, found]

/-- The only faults of a session are those of its script. -/
theorem message_of_verifyUnder {hypothesis : Expr} {fault : Fault}
    (answered : (Session.verifyUnder s hypothesis).1 = .error fault) :
    fault.message = "scripted fault on attempt " ++ toString (s.verifications + 1) := by
  rw [verifyUnder_eq] at answered
  simp only at answered
  split at answered
  · cases answered
    rfl
  · split at answered <;> cases answered

end Model.Session

/-! ## Pools -/

namespace SessionPool

/-- A pool with one session for each implementation, in the order of declaration, and no other. -/
structure Staffs (program : Program) (pool : SessionPool Model.Session) : Prop where
  names : pool.sessions.names = program.implementations.map (·.name.value)
  distinct : pool.sessions.names.Nodup
  size : pool.size = program.implementations.length
  serves : ∀ i ∈ program.implementations, ∃ session,
    pool.get? i.name.value = some session ∧ session.Serves program i

/-- The sessions of a program with a call graph can be opened. -/
theorem exists_start (scripts : Dictionary Script) {g : CallGraph}
    (built : CallGraph.build program = .ok g) :
    ∃ pool, start (oracle scripts) program = .ok pool := by
  refine exists_bind_eq_ok (exists_mapM_eq_ok fun i declared => ?_) fun entries => ⟨_, rfl⟩
  exact exists_bind_eq_ok (Model.Session.exists_oracle built declared) fun session => ⟨_, rfl⟩

/-- A pool that was started knows the names of the implementations. -/
theorem names_of_start {σ : Type} {oracle : Oracle σ} {pool : SessionPool σ}
    (started : start oracle program = .ok pool)
    (distinct : (program.implementations.map (·.name.value)).Nodup) :
    pool.sessions.names = program.implementations.map (·.name.value) := by
  simp only [start, bind_eq_ok_iff] at started
  obtain ⟨entries, mapped, same⟩ := started
  cases same
  have keys : entries.map (·.1) = program.implementations.map (·.name.value) := by
    refine map_of_mapM (fun i entry opened => ?_) mapped
    obtain ⟨session, -, same⟩ := bind_eq_ok_iff.mp opened
    cases same
    rfl
  rw [Dictionary.names, Dictionary.entries_ofList (keys ▸ distinct), keys]

/-- A verification adds no name to a pool and removes none. -/
theorem names_verifyUnder {σ : Type} [Session σ] (pool : SessionPool σ) (name : String)
    (hypothesis : Expr) :
    (pool.verifyUnder name hypothesis).2.sessions.names = pool.sessions.names := by
  unfold verifyUnder
  cases found : pool.get? name with
  | none => rfl
  | some session =>
    have known : name ∈ pool.sessions.names := Dictionary.mem_names_iff.mpr ⟨session, found⟩
    exact (Dictionary.names_alter _ _ _).trans (if_pos known)

theorem staffs_of_ready {g : CallGraph} (built : CallGraph.build program = .ok g)
    {pool : SessionPool Model.Session} (ready : Ready scripts program pool)
    (names : pool.sessions.names = program.implementations.map (·.name.value)) :
    pool.Staffs program := by
  obtain ⟨-, distinct, -⟩ := CallGraph.build_eq_ok_iff.mp built
  refine ⟨names, names ▸ distinct, ?_, ?_⟩
  · have lengths := congrArg List.length names
    rwa [Dictionary.names, List.length_map, List.length_map] at lengths
  · intro i declared
    obtain ⟨session, found, idle, -⟩ := ready i declared
    exact ⟨session, found, idle.serves built declared⟩

end SessionPool

/-! ## Numbers of implementations -/

namespace CallGraph

variable {g : CallGraph} {id : Nat}

/-- A number is that of an implementation, and its node is the one of this implementation. -/
def Locates (program : Program) (g : CallGraph) (id : Nat) : Prop :=
  id < g.size ∧ ∃ i, program.implementations[id]? = some i ∧ g.node? id = some (nodeOf i)

/-- All numbers that a graph gives out are those of implementations. -/
structure Consistent (program : Program) (g : CallGraph) : Prop where
  ids : ∀ id ∈ g.ids, g.Locates program id
  named : ∀ name id, g.id? name = some id → g.Locates program id
  edges : ∀ u v, (u, v) ∈ g.edges → g.Locates program u ∧ g.Locates program v
  successors : ∀ u, ∀ id ∈ g.successors u, g.Locates program id
  predecessors : ∀ u, ∀ id ∈ g.predecessors u, g.Locates program id
  affected : ∀ u annotation, ∀ id ∈ g.affected u annotation, g.Locates program id

theorem locates_of_lt (built : build program = .ok g) (below : id < g.size) :
    g.Locates program id := by
  have inside : id < program.implementations.length := by
    rwa [size_of_build built] at below
  have place := List.getElem?_eq_getElem inside
  refine ⟨below, _, place, ?_⟩
  rw [node?_of_build built, place]
  rfl

theorem consistent_of_build (built : build program = .ok g) : g.Consistent program := by
  have edges : ∀ u v, (u, v) ∈ g.edges → g.Locates program u ∧ g.Locates program v := by
    intro u v edge
    obtain ⟨i, j, source, target, -⟩ := (mem_edges_of_build built).mp edge
    have size := size_of_build built
    have first := (List.getElem?_eq_some_iff.mp source).1
    have second := (List.getElem?_eq_some_iff.mp target).1
    exact ⟨locates_of_lt built (by omega), locates_of_lt built (by omega)⟩
  refine ⟨?_, ?_, edges, ?_, ?_, ?_⟩
  · intro id member
    exact locates_of_lt built (List.mem_range.mp member)
  · intro name id found
    exact locates_of_lt built ((id?_eq_some_iff built).mp found).1
  · intro u id member
    exact (edges u id ((mem_successors built).mp member)).2
  · intro u id member
    exact (edges id u ((mem_predecessors built).mp member)).1
  · intro u annotation id member
    exact locates_of_lt built (lt_size_of_mem_affected built member)

end CallGraph

/-! ## Rounds -/

/-- The implementation that an event removes from the worklist. -/
def Event.dequeued? : Event → Option String
  | dequeue name => some name
  | _ => none

namespace Run

variable {σ : Type} {s : Setting} {current : Nat} {verdict : Classified}

/-- How the worklist changes from `run` to `next` in a round on `current`, as told by the events:
    something is added at the end, and then `current` leaves, or nothing leaves and at most the
    order changes. -/
def Removes (s : Setting) (current : Nat) (run : Run σ) (told : List Event) (next : Run σ) : Prop :=
  ∃ added, told.filterMap Event.enqueued? = added.map s.graph.name ∧
    (told.filterMap Event.dequeued? = [s.graph.name current] ∧
        run.worklist.ids ++ added = current :: next.worklist.ids ∨
      told.filterMap Event.dequeued? = [] ∧
        (next.worklist = ⟨run.worklist.ids ++ added⟩ ∨
          next.worklist = Worklist.rotate ⟨run.worklist.ids ++ added⟩))

theorem dequeued?_refinement (s : Setting) (current : Nat) (verdict : Classified) (run : Run σ) :
    (run.refinement s current verdict).events.filterMap Event.dequeued? = [] := by
  apply List.filterMap_eq_nil_iff.mpr
  intro event member
  have refinement := (told_refinement s current verdict run).kinds event member
  cases event <;> first | rfl | cases refinement

/-- A reaction removes the implementation that was verified, or nothing. -/
theorem Response.removes {run next : Run σ} {told : List Event}
    (response : Response s current verdict run told next)
    (head : run.worklist.peek? = some current) : Removes s current run told next := by
  obtain ⟨added, ids, names, -⟩ := (told_refinement s current verdict run).enqueued
  have quiet := dequeued?_refinement s current verdict run
  have left : run.worklist.ids ++ [] = current :: run.worklist.dequeue.ids := by
    rw [List.append_nil]
    exact Worklist.ids_of_peek? head
  cases response with
  | leave | timeout | flush => exact ⟨[], rfl, .inl ⟨rfl, left⟩⟩
  | stay =>
    refine ⟨added, names, .inr ⟨quiet, ?_⟩⟩
    have refined : (run.refined s current verdict).worklist = ⟨run.worklist.ids ++ added⟩ :=
      congrArg Worklist.mk ids
    unfold Run.stay
    split
    · exact .inl refined
    · exact .inr (congrArg Worklist.rotate refined)
  | settle =>
    have refined := Worklist.ids_of_peek? (peek?_refined (s := s) head verdict)
    refine ⟨added, ?_, .inl ⟨?_, ids.symm.trans refined⟩⟩
    · rw [List.filterMap_append, names]
      exact List.append_nil _
    · rw [List.filterMap_append, quiet]
      rfl

theorem nextPhase_ne_spinning (run : Run σ) : run.nextPhase ≠ .spinning := by
  unfold nextPhase
  split <;> simp

/-- The implementation that is verified again at once is still the head. -/
theorem Reaction.head_of_spinning {run next : Run σ} (reaction : Reaction s current verdict run next)
    (head : run.worklist.peek? = some current) (spinning : next.phase = .spinning) :
    next.worklist.peek? = some current := by
  obtain ⟨_, response⟩ := reaction
  cases response with
  | stay =>
    unfold Run.stay at spinning ⊢
    split
    · exact peek?_refined head verdict
    · rename_i schedule
      rw [schedule] at spinning
      cases spinning
  | flush => cases spinning
  | leave | timeout | settle => exact absurd spinning (nextPhase_ne_spinning _)

/-- What a round on the head of the worklist finds and removes: the session of the implementation
    answers, and what leaves the worklist is this implementation. -/
structure Grounded (program : Program) (s : Setting) (current : Nat) (run : Run Model.Session) :
    Prop where
  located : s.graph.Locates program current
  answers : ∃ session, run.pool.get? (s.graph.name current) = some session ∧
    session.name = s.graph.name current ∧
    run.answer s current = (Session.verifyUnder session run.assignment.hypothesis).1
  opened : ∀ fault, run.answer s current = .error fault → fault.message ≠ "no session was opened"
  removes : Removes s current run (run.step s current).1 (run.step s current).2
  held : (run.step s current).2.phase = .spinning →
    (run.step s current).2.worklist.peek? = some current

variable {run : Run Model.Session}

theorem removes_step [Session σ] {run : Run σ} (head : run.worklist.peek? = some current) :
    Removes s current run (run.step s current).1 (run.step s current).2 := by
  obtain ⟨told, events, response⟩ := step_told s current run
  have quiet : (run.report s current).filterMap Event.dequeued? = [] := by
    apply filterMap_report
    intro event report
    cases event <;> first | rfl | cases report
  obtain ⟨added, names, removed⟩ := response.removes head
  refine ⟨added, ?_, ?_⟩
  · rw [events, List.filterMap_append, enqueued?_report, names]
    rfl
  · rw [events, List.filterMap_append, quiet]
    exact removed

theorem Proper.grounded (proper : run.Proper scripts program s)
    (built : CallGraph.build program = .ok s.graph) (head : run.worklist.peek? = some current) :
    run.Grounded program s current := by
  obtain ⟨i, place, declared, name⟩ := proper.implementation built head
  obtain ⟨session, found, idle, -⟩ := proper.ready i declared
  rw [← name] at found
  have answer : run.answer s current =
      (Session.verifyUnder session run.assignment.hypothesis).1 := by
    simp [Run.answer, SessionPool.verifyUnder, found]
  refine ⟨?_, ⟨session, found, ?_, answer⟩, ?_, removes_step head, ?_⟩
  · exact CallGraph.locates_of_lt built (proper.valid.bounded _ (Worklist.mem_of_peek? head))
  · rw [Model.Session.name, idle.implementation, name]
  · intro fault answered
    rw [answer] at answered
    rw [Model.Session.message_of_verifyUnder answered]
    intro same
    have first := congrArg (fun text => text.toList.head?) same
    simp at first
  · exact (step_cases s current run).head_of_spinning head

theorem names_pool_step [Session σ] (s : Setting) (current : Nat) (run : Run σ) :
    (run.step s current).2.pool.sessions.names = run.pool.sessions.names := by
  rw [step_pool]
  exact SessionPool.names_verifyUnder _ _ _

theorem Rounds.names_pool [Session σ] {n : Nat} {run last : Run σ} (rounds : Rounds s n run last) :
    last.pool.sessions.names = run.pool.sessions.names :=
  rounds.preserves (P := fun later => later.pool.sessions.names = run.pool.sessions.names)
    (fun later current _ same => (names_pool_step s current later).trans same) rfl

end Run

namespace Engine

/-- Where the candidates are collected and the call graph is built, an engine is set up. -/
theorem exists_setUp (scripts : Dictionary Script) {cs : Candidates} {g : CallGraph}
    (collected : Candidates.collect program = .ok cs) (built : CallGraph.build program = .ok g) :
    ∃ pool, SessionPool.start (oracle scripts) program = .ok pool ∧
      setUp program (oracle scripts) = .ok ⟨cs, g, pool⟩ := by
  obtain ⟨pool, started⟩ := SessionPool.exists_start scripts built
  exact ⟨pool, started, setUp_eq_ok_iff.mpr ⟨collected, built, started⟩⟩

/-- No engine fails to be set up because of its sessions. -/
theorem setUp_ne_oracle (program : Program) (scripts : Dictionary Script) (fault : Fault) :
    setUp program (oracle scripts) ≠ .error (.oracle fault) := by
  cases collected : Candidates.collect program with
  | error error => simp [setUp, collected, Except.mapError, bind, Except.bind]
  | ok cs =>
    cases built : CallGraph.build program with
    | error error => simp [setUp, collected, built, Except.mapError, bind, Except.bind]
    | ok g =>
      obtain ⟨pool, -, accepted⟩ := exists_setUp scripts collected built
      simp [accepted]

/-- The sessions of an engine are those of the implementations. -/
theorem Prepared.names_pool {e : Engine Model.Session}
    (prepared : Prepared program (oracle scripts) e) :
    e.pool.sessions.names = program.implementations.map (·.name.value) := by
  induction prepared with
  | setUp accepted =>
    obtain ⟨-, built, started⟩ := setUp_eq_ok_iff.mp accepted
    obtain ⟨-, distinct, -⟩ := CallGraph.build_eq_ok_iff.mp built
    exact SessionPool.names_of_start started distinct
  | @infer e earlier config ih =>
    obtain ⟨n, rounds, -⟩ :=
      Run.finish_rounds (e.setting config) (Run.start (e.setting config) e.pool)
    exact rounds.names_pool.trans ih

/-- A program whose candidates can be collected and whose call graph can be built has a session
    for each implementation. No run then looks for an implementation, a session or a callee that
    is not there, and what leaves the worklist is the implementation that was just verified. -/
theorem setUp_resolves_everything (program : Program) (scripts : Dictionary Script) :
    (∀ fault, setUp program (oracle scripts) ≠ .error (.oracle fault)) ∧
    (∀ cs g, Candidates.collect program = .ok cs → CallGraph.build program = .ok g →
      ∃ pool, SessionPool.start (oracle scripts) program = .ok pool ∧
        setUp program (oracle scripts) = .ok ⟨cs, g, pool⟩ ∧ pool.Staffs program) ∧
    ∀ e, Prepared program (oracle scripts) e → e.graph.Consistent program ∧
      ∀ (config : Config) (n : Nat) (run : Run Model.Session),
        Run.Rounds (e.setting config) n (Run.start (e.setting config) e.pool) run →
          run.pool.Staffs program ∧
          (∀ id ∈ run.worklist.ids, e.graph.Locates program id) ∧
          ∀ current, run.worklist.peek? = some current →
            run.Grounded program (e.setting config) current := by
  refine ⟨setUp_ne_oracle program scripts, ?_, ?_⟩
  · intro cs g collected built
    obtain ⟨-, distinct, -⟩ := CallGraph.build_eq_ok_iff.mp built
    obtain ⟨pool, started, accepted⟩ := exists_setUp scripts collected built
    refine ⟨pool, started, accepted, ?_⟩
    exact SessionPool.staffs_of_ready built (ready_start started distinct)
      (SessionPool.names_of_start started distinct)
  · intro e prepared
    have built := prepared.build
    refine ⟨CallGraph.consistent_of_build built, ?_⟩
    intro config n run rounds
    have proper : run.Proper scripts program (e.setting config) :=
      rounds.preserves (fun _ _ head proper => proper.step built head)
        (Run.proper_start prepared.ready)
    refine ⟨?_, ?_, fun current head => proper.grounded built head⟩
    · exact SessionPool.staffs_of_ready built proper.ready
        (rounds.names_pool.trans prepared.names_pool)
    · intro id queued
      exact CallGraph.locates_of_lt built (proper.valid.bounded id queued)

/-- A script under which the second verification of the caller faults. -/
def secondFault : Dictionary Script := .ofList [("Caller", ⟨none, some 2, .session⟩)]

/-- The first round keeps the caller as the head, and the second one has the fault of its script
    and no other. -/
theorem setUp_resolves_everything_guardedCall :
    ∃ e, setUp Program.guardedCall (oracle secondFault) = .ok e ∧
      e.pool.Staffs Program.guardedCall ∧
      ∃ run, Run.Rounds (e.setting .standard) 1 (Run.start (e.setting .standard) e.pool) run ∧
        run.phase = .spinning ∧ run.Grounded Program.guardedCall (e.setting .standard) 0 ∧
        run.answer (e.setting .standard) 0 =
          .error ⟨"Caller", .session, "scripted fault on attempt 2"⟩ := by
  obtain ⟨-, accepted, runs⟩ := setUp_resolves_everything Program.guardedCall secondFault
  obtain ⟨pool, -, opened, staffs⟩ := accepted _ _ rfl rfl
  cases opened
  obtain ⟨-, rounds⟩ := runs _ (.setUp rfl)
  refine ⟨_, rfl, staffs, _, .round rfl (.done _), by cbv, ?_, by cbv⟩
  exact (rounds .standard 1 _ (.round rfl (.done _))).2.2 0 (by cbv)

end Engine

end InvariantInference
