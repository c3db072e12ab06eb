import Mathlib
import InvariantInference.Proofs.CallGraph.Views
import InvariantInference.Proofs.Worklist

/-!
# Worklists with an index

A worklist can keep the set of its members beside its queue, so that it never
searches the queue. The two are changed by different operations: an addition and
a removal change both, a rotation changes the queue alone. They stay in step
whatever is done, and so a worklist with an index answers as the plain worklist
does: as a queue without repeats, to which implementations are added at the end
and from which they are taken at the head.
-/

namespace InvariantInference

namespace Worklist

/-- What can be done to a worklist and to the blacklist beside it. -/
inductive Operation where
  | enqueue (id : Nat)
  | dequeue
  | rotate
  | blacklist (id : Nat)
  deriving DecidableEq, Repr

/-- A worklist and its blacklist after an operation. -/
def perform : Worklist × Blacklist → Operation → Worklist × Blacklist
  | (w, b), .enqueue id => (w.enqueue b id, b)
  | (w, b), .dequeue => (w.dequeue, b)
  | (w, b), .rotate => (w.rotate, b)
  | (w, b), .blacklist id => (w, b.insert id)

/-- A worklist of some implementations and its blacklist after some operations. -/
def after (initial : List Nat) (operations : List Operation) : Worklist × Blacklist :=
  operations.foldl perform (ofList initial, .empty)

/-- A queue of implementations, its head first, and the set of its members. -/
structure Indexed where
  queue : List Nat
  members : Finset Nat
  deriving DecidableEq

namespace Indexed

/-- Whether an implementation is queued. -/
def contains (w : Indexed) (id : Nat) : Bool := id ∈ w.members

/-- Adds an implementation at the end unless it is queued. Tells whether it was added. -/
def append (w : Indexed) (id : Nat) : Bool × Indexed :=
  if id ∈ w.members then (false, w) else (true, ⟨w.queue ++ [id], insert id w.members⟩)

/-- The queue of some implementations, added one after the other. -/
def ofList (ids : List Nat) : Indexed := ids.foldl (fun w id => (w.append id).2) ⟨[], ∅⟩

/-- Adds an implementation at the end, unless it is queued or blacklisted. -/
def enqueue (w : Indexed) (b : Blacklist) (id : Nat) : Bool × Indexed :=
  if b.contains id then (false, w) else w.append id

/-- Takes the head from the queue. -/
def dequeue (w : Indexed) : Option Nat × Indexed :=
  match w.queue with
  | [] => (none, w)
  | id :: rest => (some id, ⟨rest, w.members.erase id⟩)

/-- Moves the head to the end. -/
def rotate (w : Indexed) : Indexed :=
  match w.queue with
  | [] => w
  | id :: rest => ⟨rest ++ [id], w.members⟩

/-- A worklist with an index and its blacklist after an operation. -/
def perform : Indexed × Blacklist → Operation → Indexed × Blacklist
  | (w, b), .enqueue id => ((w.enqueue b id).2, b)
  | (w, b), .dequeue => (w.dequeue.2, b)
  | (w, b), .rotate => (w.rotate, b)
  | (w, b), .blacklist id => (w, b.insert id)

/-- An indexed worklist of some implementations and its blacklist after some operations. -/
def after (initial : List Nat) (operations : List Operation) : Indexed × Blacklist :=
  operations.foldl perform (ofList initial, .empty)

/-- Queue and index are in step with a worklist that holds nothing twice. -/
structure Represents (w : Indexed) (plain : Worklist) : Prop where
  queue : w.queue = plain.ids
  members : ∀ id, id ∈ w.members ↔ id ∈ plain.ids
  distinct : plain.ids.Nodup

variable {w : Indexed} {plain : Worklist} {b : Blacklist} {id : Nat}

/-! ## One operation -/

theorem Represents.contains_iff (represents : w.Represents plain) :
    w.contains id ↔ id ∈ plain.ids := by
  rw [contains, decide_eq_true_eq, represents.members]

/-- Only what is neither queued nor blacklisted is added. -/
theorem Represents.enqueue_eq (represents : w.Represents plain) :
    w.enqueue b id =
      if id ∈ w.queue ∨ b.contains id then (false, w)
      else (true, ⟨w.queue ++ [id], insert id w.members⟩) := by
  have queued : id ∈ w.members ↔ id ∈ w.queue := by
    rw [represents.members, represents.queue]
  by_cases black : b.contains id
  · simp [Indexed.enqueue, black]
  · simp [Indexed.enqueue, append, queued, black]

theorem Represents.admits_iff (represents : w.Represents plain) :
    plain.admits b id ↔ ¬ (id ∈ w.queue ∨ b.contains id) := by
  rw [Worklist.admits_iff, represents.queue, Blacklist.contains, List.contains_eq_mem,
    decide_eq_true_eq, not_or]

/-- What is added comes into queue and set. -/
theorem Represents.enqueue (represents : w.Represents plain) :
    (w.enqueue b id).1 = plain.admits b id ∧
      (w.enqueue b id).2.Represents (plain.enqueue b id) := by
  rw [represents.enqueue_eq, Worklist.enqueue]
  by_cases refused : id ∈ w.queue ∨ b.contains id
  · have declined : plain.admits b id = false := by
      rw [Bool.eq_false_iff, ne_eq, represents.admits_iff, not_not]
      exact refused
    simp only [refused, declined, if_true]
    exact ⟨trivial, represents⟩
  · have admitted : plain.admits b id := represents.admits_iff.mpr refused
    have new : id ∉ plain.ids := (Worklist.admits_iff.mp admitted).1
    simp only [refused, admitted, if_true, if_false]
    refine ⟨trivial, by rw [represents.queue], fun other => ?_, ?_⟩
    · simp [represents.members, or_comm]
    · simpa using represents.distinct.concat new

/-- The head is taken from queue and set. It leaves the set for good, since the rest of the queue
    does not hold it again. -/
theorem Represents.dequeue (represents : w.Represents plain) :
    w.dequeue.1 = plain.peek? ∧ w.dequeue.2.Represents plain.dequeue := by
  obtain ⟨queue, set⟩ := w
  obtain ⟨ids⟩ := plain
  obtain ⟨rfl, members, distinct⟩ := represents
  cases queue with
  | nil => exact ⟨rfl, rfl, members, distinct⟩
  | cons head rest =>
    obtain ⟨absent, distinct⟩ := List.nodup_cons.mp distinct
    refine ⟨rfl, rfl, fun other => ?_, distinct⟩
    rw [Indexed.dequeue, Finset.mem_erase, members, List.mem_cons]
    constructor
    · rintro ⟨differs, same | later⟩
      · exact absurd same differs
      · exact later
    · intro later
      exact ⟨fun same => absent (same ▸ later), .inr later⟩

/-- A rotation leaves the set as it is, for it moves a member only. -/
theorem Represents.rotate (represents : w.Represents plain) : w.rotate.Represents plain.rotate := by
  have queue : w.rotate.queue = plain.rotate.ids := by
    rw [Indexed.rotate, Worklist.rotate, represents.queue]
    split <;> simp [represents.queue, *]
  have members : w.rotate.members = w.members := by
    rw [Indexed.rotate]
    split <;> rfl
  refine ⟨queue, fun other => ?_, (perm_rotate plain).nodup_iff.mpr represents.distinct⟩
  rw [members, represents.members, mem_rotate]

/-- Every operation keeps a worklist with an index in step with the plain one. -/
theorem represents_perform {s : Indexed × Blacklist} {s' : Worklist × Blacklist}
    (represents : s.1.Represents s'.1) (same : s.2 = s'.2) (operation : Operation) :
    (perform s operation).1.Represents (Worklist.perform s' operation).1 ∧
      (perform s operation).2 = (Worklist.perform s' operation).2 := by
  obtain ⟨w, b⟩ := s
  obtain ⟨plain, b'⟩ := s'
  cases same
  cases operation with
  | enqueue id => exact ⟨represents.enqueue.2, rfl⟩
  | dequeue => exact ⟨represents.dequeue.2, rfl⟩
  | rotate => exact ⟨represents.rotate, rfl⟩
  | blacklist id => exact ⟨represents, rfl⟩

end Indexed

/-! ## All operations -/

/-- One more implementation at the start is one more addition. -/
theorem ofList_concat (ids : List Nat) (id : Nat) :
    ofList (ids ++ [id]) = (ofList ids).enqueue .empty id := by
  have admitted : (ofList ids).admits .empty id ↔ id ∉ ids := by
    simp [admits_iff, ofList, Blacklist.empty, List.mem_eraseDups]
  rw [enqueue, ofList, eraseDups_concat]
  by_cases known : id ∈ ids
  · rw [if_pos known, if_neg (by simpa [admitted] using known)]
    rfl
  · rw [if_neg known, if_pos (admitted.mpr known)]
    rfl

theorem ids_rotate (w : Worklist) : w.rotate.ids = w.ids.tail ++ w.ids.head?.toList := by
  unfold rotate
  split
  · rename_i empty
    simp [empty]
  · rename_i first rest equal
    simp [equal]

namespace Indexed

theorem ofList_concat (ids : List Nat) (id : Nat) :
    ofList (ids ++ [id]) = ((ofList ids).enqueue .empty id).2 := by
  simp [ofList, Indexed.enqueue, Blacklist.contains, Blacklist.empty]

theorem represents_ofList (ids : List Nat) : (ofList ids).Represents (Worklist.ofList ids) := by
  induction ids using List.reverseRecOn with
  | nil => exact ⟨rfl, by simp [ofList, Worklist.ofList], List.nodup_nil⟩
  | append_singleton ids id ih =>
    rw [ofList_concat, Worklist.ofList_concat]
    exact ih.enqueue.2

/-- Whatever is done, queue and index stay in step with the plain worklist. -/
theorem represents_after (initial : List Nat) (operations : List Operation) :
    (after initial operations).1.Represents (Worklist.after initial operations).1 ∧
      (after initial operations).2 = (Worklist.after initial operations).2 := by
  induction operations using List.reverseRecOn with
  | nil => exact ⟨represents_ofList initial, rfl⟩
  | append_singleton operations last ih =>
    rw [after, Worklist.after, List.foldl_append, List.foldl_append]
    exact represents_perform ih.1 ih.2 last

/-- The blacklist holds what was put on it. -/
theorem contains_after {initial : List Nat} {operations : List Operation} {id : Nat} :
    (after initial operations).2.contains id ↔ .blacklist id ∈ operations := by
  induction operations using List.reverseRecOn with
  | nil => simp [after, Blacklist.contains, Blacklist.empty]
  | append_singleton operations last ih =>
    rw [after, List.foldl_append, List.mem_append, List.mem_singleton, ← ih, after]
    cases last with
    | blacklist other =>
      simp [perform, Blacklist.contains_insert, or_comm]
    | _ => simp [perform]

/-- Whatever is done to a worklist, its queue holds nothing twice, and its index says what the
    queue holds. It answers as the plain worklist does: an implementation is added at the end iff
    it is neither queued nor blacklisted, and else nothing changes; the head is what is taken, and
    what a rotation moves to the end. At the start implementations stand where they first
    occurred. -/
theorem indexed_is_fifo (initial : List Nat) (operations : List Operation) :
    let w := (after initial operations).1
    let b := (after initial operations).2
    let plain := (Worklist.after initial operations).1
    w.queue.Nodup ∧
    (∀ id, w.contains id ↔ id ∈ w.queue) ∧
    (∀ id, b.contains id ↔ .blacklist id ∈ operations) ∧
    (∀ id, w.enqueue b id =
      if id ∈ w.queue ∨ b.contains id then (false, w)
      else (true, ⟨w.queue ++ [id], insert id w.members⟩)) ∧
    w.dequeue.1 = w.queue.head? ∧ w.dequeue.2.queue = w.queue.tail ∧
    w.rotate.queue = w.queue.tail ++ w.queue.head?.toList ∧
    FirstOccurrences initial (ofList initial).queue ∧
    Worklist.after initial operations = (⟨w.queue⟩, b) ∧
    (∀ id, w.contains id = plain.contains id ∧ (w.enqueue b id).1 = plain.admits b id) ∧
    w.dequeue.1 = plain.peek? := by
  intro w b plain
  obtain ⟨represents, same⟩ : w.Represents plain ∧ b = (Worklist.after initial operations).2 :=
    represents_after initial operations
  obtain ⟨taken, left⟩ := represents.dequeue
  have queue : w.queue = plain.ids := represents.queue
  refine ⟨?_, ?_, fun id => contains_after, fun id => represents.enqueue_eq, ?_, ?_, ?_, ?_, ?_, ?_,
    taken⟩
  · rw [queue]
    exact represents.distinct
  · intro id
    rw [queue]
    exact represents.contains_iff
  · rw [queue]
    exact taken
  · rw [queue]
    exact left.queue
  · rw [queue, represents.rotate.queue, ids_rotate]
  · rw [(represents_ofList initial).queue]
    exact firstOccurrences_eraseDups initial
  · rw [queue, same]
  · intro id
    refine ⟨?_, represents.enqueue.1⟩
    rw [Bool.eq_iff_iff, represents.contains_iff, Worklist.contains, List.contains_eq_mem,
      decide_eq_true_eq]

end Indexed

end Worklist

end InvariantInference
