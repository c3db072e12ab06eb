import Mathlib
import InvariantInference.Worklist
import InvariantInference.Proofs.CallGraph

/-!
# Members of worklists and blacklists

Which implementations a worklist or a blacklist holds after each of its
operations, and that a worklist never holds one twice.
-/

namespace InvariantInference

/-- The members of a blacklist after one more was added. -/
theorem Blacklist.contains_insert {b : Blacklist} {id other : Nat} :
    (b.insert id).contains other ↔ other = id ∨ b.contains other := by
  unfold insert
  split
  · rename_i known
    constructor
    · exact .inr
    · rintro (rfl | member)
      · exact known
      · exact member
  · have parts : other ∈ b.ids ↔
        other ∈ b.ids.takeWhile (· < id) ∨ other ∈ b.ids.dropWhile (· < id) := by
      rw [← List.mem_append, List.takeWhile_append_dropWhile]
    simp only [contains, List.contains_eq_mem, decide_eq_true_eq, List.mem_append, List.mem_cons,
      parts]
    tauto

namespace Worklist

/-- A worklist without repeats whose members are below a bound. -/
structure Valid (bound : Nat) (w : Worklist) : Prop where
  distinct : w.ids.Nodup
  bounded : ∀ id ∈ w.ids, id < bound

/-- A valid worklist is no longer than its bound. -/
theorem Valid.length_le {bound : Nat} {w : Worklist} (valid : w.Valid bound) :
    w.ids.length ≤ bound := by
  have subset : w.ids ⊆ List.range bound := fun id member =>
    List.mem_range.mpr (valid.bounded id member)
  simpa using (valid.distinct.subperm subset).length_le

/-- The queue of all implementations is valid. -/
theorem valid_ofList {bound : Nat} {ids : List Nat} (bounded : ∀ id ∈ ids, id < bound) :
    (ofList ids).Valid bound where
  distinct := nodup_eraseDups ids
  bounded id member := bounded id (List.mem_eraseDups.mp member)

theorem admits_iff {w : Worklist} {b : Blacklist} {id : Nat} :
    w.admits b id ↔ id ∉ w.ids ∧ id ∉ b.ids := by
  simp [admits, contains, Blacklist.contains, and_comm]

/-- Several additions add what is neither queued nor blacklisted, each implementation once and
    where it first occurs. -/
theorem enqueueAll_eq (w : Worklist) (b : Blacklist) (targets : List Nat) :
    w.enqueueAll b targets =
      ((targets.filter (w.admits b)).eraseDups,
        ⟨w.ids ++ (targets.filter (w.admits b)).eraseDups⟩) := by
  induction targets generalizing w with
  | nil => simp [enqueueAll]
  | cons target targets ih =>
    rw [enqueueAll]
    split
    · rename_i admitted
      have added : w.enqueue b target = ⟨w.ids ++ [target]⟩ := if_pos admitted
      have others : targets.filter ((w.enqueue b target).admits b) =
          targets.filter fun id => !(id == target) && w.admits b id := by
        apply List.filter_congr
        intro id _
        rw [Bool.eq_iff_iff, admits_iff, added, Bool.and_eq_true, admits_iff, List.mem_append,
          List.mem_singleton, Bool.not_eq_true', beq_eq_false_iff_ne]
        tauto
      rw [ih, others, List.filter_cons_of_pos admitted, List.eraseDups_cons, List.filter_filter,
        added, List.append_assoc, List.singleton_append]
    · rename_i refused
      rw [ih, List.filter_cons_of_neg refused]

/-- The members of the queue after several additions. -/
theorem mem_enqueueAll {w : Worklist} {b : Blacklist} {targets : List Nat} {id : Nat} :
    id ∈ (w.enqueueAll b targets).2.ids ↔
      id ∈ w.ids ∨ id ∈ targets ∧ b.contains id = false := by
  rw [enqueueAll_eq, List.mem_append, List.mem_eraseDups, List.mem_filter, admits_iff,
    Blacklist.contains, List.contains_eq_mem, decide_eq_false_iff_not]
  tauto

theorem Valid.enqueueAll {bound : Nat} {w : Worklist} (valid : w.Valid bound) (b : Blacklist)
    {targets : List Nat} (bounded : ∀ id ∈ targets, id < bound) :
    (w.enqueueAll b targets).2.Valid bound := by
  refine ⟨?_, ?_⟩
  · rw [enqueueAll_eq]
    apply List.nodup_append.mpr
    refine ⟨valid.distinct, nodup_eraseDups _, fun id queued new added => ?_⟩
    rintro rfl
    rw [List.mem_eraseDups, List.mem_filter, admits_iff] at added
    exact added.2.1 queued
  · intro id member
    rcases mem_enqueueAll.mp member with queued | ⟨target, -⟩
    · exact valid.bounded id queued
    · exact bounded id target

theorem Valid.dequeue {bound : Nat} {w : Worklist} (valid : w.Valid bound) :
    w.dequeue.Valid bound where
  distinct := valid.distinct.tail
  bounded id member := valid.bounded id (List.mem_of_mem_tail member)

/-- A rotation only moves members. -/
theorem perm_rotate (w : Worklist) : w.rotate.ids.Perm w.ids := by
  unfold rotate
  split
  · rfl
  · rename_i first rest equal
    rw [equal]
    exact List.perm_append_singleton first rest

@[simp] theorem mem_rotate {w : Worklist} {id : Nat} : id ∈ w.rotate.ids ↔ id ∈ w.ids :=
  (perm_rotate w).mem_iff

theorem Valid.rotate {bound : Nat} {w : Worklist} (valid : w.Valid bound) :
    w.rotate.Valid bound where
  distinct := (perm_rotate w).nodup_iff.mpr valid.distinct
  bounded id member := valid.bounded id (mem_rotate.mp member)

/-- All members but the head are left when the head is removed. -/
theorem mem_dequeue_of_ne {w : Worklist} {current id : Nat} (head : w.peek? = some current)
    (member : id ∈ w.ids) (other : id ≠ current) : id ∈ w.dequeue.ids := by
  obtain ⟨ids⟩ := w
  cases ids with
  | nil => simp at member
  | cons first rest =>
    simp only [peek?, List.head?_cons, Option.some.injEq] at head
    subst head
    exact (List.mem_cons.mp member).resolve_left other

theorem mem_of_peek? {w : Worklist} {current : Nat} (head : w.peek? = some current) :
    current ∈ w.ids := List.mem_of_mem_head? head

theorem ids_of_peek? {w : Worklist} {current : Nat} (head : w.peek? = some current) :
    w.ids = current :: w.dequeue.ids := List.eq_cons_of_mem_head? head

/-- Adding implementations keeps the head. -/
theorem peek?_enqueueAll {w : Worklist} {current : Nat} (head : w.peek? = some current)
    (b : Blacklist) (targets : List Nat) : (w.enqueueAll b targets).2.peek? = some current := by
  rw [enqueueAll_eq, peek?, List.head?_append, ← peek?, head]
  rfl

end Worklist

end InvariantInference
