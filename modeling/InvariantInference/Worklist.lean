/-!
# Worklists

A worklist is a queue of numbered implementations without repeats. A blacklist
is a set of implementations that never enter it again.
-/

namespace InvariantInference

/-- A set of implementations, in ascending order. -/
structure Blacklist where
  ids : List Nat
  deriving DecidableEq, Repr

namespace Blacklist

/-- The blacklist without members. -/
def empty : Blacklist := ⟨[]⟩

/-- Whether an implementation is a member. -/
def contains (b : Blacklist) (id : Nat) : Bool := b.ids.contains id

/-- The blacklist with one more member. -/
def insert (b : Blacklist) (id : Nat) : Blacklist :=
  if b.contains id then b
  else ⟨b.ids.takeWhile (· < id) ++ id :: b.ids.dropWhile (· < id)⟩

end Blacklist

/-- A queue of implementations, its head first. -/
structure Worklist where
  ids : List Nat
  deriving DecidableEq, Repr

namespace Worklist

/-- The queue of some implementations, each where it first occurs. -/
def ofList (ids : List Nat) : Worklist := ⟨ids.eraseDups⟩

/-- Whether an implementation is queued. -/
def contains (w : Worklist) (id : Nat) : Bool := w.ids.contains id

/-- Whether `enqueue` adds an implementation. -/
def admits (w : Worklist) (b : Blacklist) (id : Nat) : Bool := !b.contains id && !w.contains id

/-- Adds an implementation at the end, unless it is queued or blacklisted. -/
def enqueue (w : Worklist) (b : Blacklist) (id : Nat) : Worklist :=
  if w.admits b id then ⟨w.ids ++ [id]⟩ else w

/-- Adds implementations one after the other: those that were added, and the
    queue afterwards. -/
def enqueueAll (w : Worklist) (b : Blacklist) : List Nat → List Nat × Worklist
  | [] => ([], w)
  | id :: rest =>
    if w.admits b id then
      let (added, w) := (w.enqueue b id).enqueueAll b rest
      (id :: added, w)
    else
      w.enqueueAll b rest

/-- The head of the queue. -/
def peek? (w : Worklist) : Option Nat := w.ids.head?

/-- The queue without its head. -/
def dequeue (w : Worklist) : Worklist := ⟨w.ids.tail⟩

/-- Moves the head to the end. -/
def rotate (w : Worklist) : Worklist :=
  match w.ids with
  | [] => w
  | id :: rest => ⟨rest ++ [id]⟩

end Worklist

end InvariantInference
