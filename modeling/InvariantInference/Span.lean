/-!
# Source spans

A span is a range of bytes in a text: where it starts and how many bytes it
covers. Every syntactic object carries one, so that a diagnostic can point at
the text it speaks of.
-/

namespace InvariantInference

/-- A range of bytes: `length` bytes from `offset` on. -/
structure Span where
  offset : Nat
  length : Nat
  deriving DecidableEq, Repr, Inhabited

namespace Span

/-- The span of objects that stand in no text. -/
def none : Span := ⟨0, 0⟩

/-- The first byte after the span. -/
def stop (s : Span) : Nat := s.offset + s.length

/-- The span from byte `start` up to, and without, byte `stop`. -/
def between (start stop : Nat) : Span := ⟨start, stop - start⟩

/-- The least span that covers both spans and what lies between them. -/
def join (a b : Span) : Span :=
  between (min a.offset b.offset) (max a.stop b.stop)

/-- The span moved `base` bytes to the right. -/
def shift (base : Nat) (s : Span) : Span := ⟨base + s.offset, s.length⟩

/-- A span joined with itself is itself. -/
@[simp] theorem join_self (s : Span) : s.join s = s := by
  simp [join, between, stop]

/-- Moving two spans moves their join. -/
theorem shift_join (base : Nat) (a b : Span) :
    (a.join b).shift base = (a.shift base).join (b.shift base) := by
  simp only [join, between, stop, shift, Span.mk.injEq]
  omega

end Span

/-- A value together with the span of the text it was read from. -/
structure Located (α : Type) where
  span : Span
  value : α
  deriving DecidableEq, Repr

namespace Located

variable {α : Type}

/-- A value that stands in no text. -/
def synthetic (value : α) : Located α := ⟨.none, value⟩

end Located

end InvariantInference
