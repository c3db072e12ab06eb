import InvariantInference.Span

/-!
# Reading characters

A reader looks at a place in a document and either fails or tells what it read
and where it stopped. A reader that failed has consumed nothing, so that
alternatives can be tried in turn. One that did not fail has passed over some
characters and stopped just behind them; readers carry the proof of this, so
that spans count the bytes of the document whatever is read.
-/

namespace InvariantInference.Toml

/-- The number of bytes that some characters take. -/
def bytes : List Char → Nat
  | [] => 0
  | c :: chars => c.utf8Size + bytes chars

@[simp] theorem bytes_nil : bytes [] = 0 := rfl

@[simp] theorem bytes_cons (c : Char) (chars : List Char) :
    bytes (c :: chars) = c.utf8Size + bytes chars := rfl

@[simp] theorem bytes_append (chars more : List Char) :
    bytes (chars ++ more) = bytes chars + bytes more := by
  induction chars with
  | nil => simp
  | cons c chars ih => rw [List.cons_append, bytes_cons, bytes_cons, ih, Nat.add_assoc]

/-- A place in a document: the byte reached, the characters from there on, and
    how many they are. -/
structure Cursor where
  pos : Nat
  rest : List Char
  left : Nat

namespace Cursor

/-- The start of a document. -/
def ofString (text : String) : Cursor := ⟨0, text.toList, text.length⟩

/-- The place `c'` stands just behind the characters `passed`, which stand at `c`. -/
structure Reaches (c : Cursor) (passed : List Char) (c' : Cursor) : Prop where
  rest : c.rest = passed ++ c'.rest
  pos : c'.pos = c.pos + bytes passed

theorem Reaches.refl (c : Cursor) : c.Reaches [] c := ⟨rfl, rfl⟩

theorem Reaches.trans {c c' c'' : Cursor} {passed more : List Char} (first : c.Reaches passed c')
    (second : c'.Reaches more c'') : c.Reaches (passed ++ more) c'' where
  rest := by rw [first.rest, second.rest, List.append_assoc]
  pos := by rw [second.pos, first.pos, bytes_append, Nat.add_assoc]

end Cursor

/-- Reads something at a place. -/
structure Reader (α : Type) where
  read : Cursor → Option (α × Cursor)
  passes : ∀ c a c', read c = some (a, c') → ∃ passed, c.Reaches passed c'

namespace Reader

variable {α β : Type}

/-- Reads nothing. -/
protected def pure (a : α) : Reader α where
  read c := some (a, c)
  passes c _ _ found := by
    cases found
    exact ⟨[], .refl c⟩

/-- Reads with `r`, and then with what `f` makes of it. -/
protected def bind (r : Reader α) (f : α → Reader β) : Reader β where
  read c :=
    match r.read c with
    | none => none
    | some (a, c') => (f a).read c'
  passes c _ _ found := by
    split at found
    · cases found
    · rename_i first
      obtain ⟨passed, reached⟩ := r.passes _ _ _ first
      obtain ⟨more, reached'⟩ := (f _).passes _ _ _ found
      exact ⟨passed ++ more, reached.trans reached'⟩

instance : Monad Reader where
  pure := Reader.pure
  bind := Reader.bind

/-- Fails everywhere. -/
def fail : Reader α where
  read _ := none
  passes _ _ _ found := nomatch found

/-- Fails unless the condition holds. -/
def check (condition : Bool) : Reader Unit := if condition then pure () else fail

/-- Reads with the reader that `r` gives, which is made where it is needed. -/
def defer (r : Unit → Reader α) : Reader α where
  read c := (r ()).read c
  passes := (r ()).passes

/-- Reads with `r`, or with `s` where `r` fails. -/
def orElse (r s : Reader α) : Reader α where
  read c :=
    match r.read c with
    | some found => some found
    | none => s.read c
  passes c a c' found := by
    split at found
    · rename_i first
      cases found
      exact r.passes _ _ _ first
    · exact s.passes _ _ _ found

/-- Reads with the first of the readers that does not fail. -/
def firstOf : List (Reader α) → Reader α
  | [] => fail
  | r :: rest => r.orElse (firstOf rest)

/-- Reads with `r` if it does not fail. -/
def optional (r : Reader α) : Reader (Option α) where
  read c :=
    match r.read c with
    | some (a, c') => some (some a, c')
    | none => some (none, c)
  passes c _ _ found := by
    split at found
    · rename_i first
      cases found
      exact r.passes _ _ _ first
    · cases found
      exact ⟨[], .refl c⟩

/-- A character of a class. -/
def satisfy (p : Char → Bool) : Reader Char where
  read c :=
    match c.rest with
    | [] => none
    | x :: rest => if p x then some (x, ⟨c.pos + x.utf8Size, rest, c.left - 1⟩) else none
  passes c _ _ found := by
    split at found
    · cases found
    · rename_i here
      split at found
      · cases found
        exact ⟨[_], here, by simp⟩
      · cases found

/-- One given character. -/
def char (x : Char) : Reader Char := satisfy (· = x)

/-- A given text. -/
def string (text : String) : Reader Unit :=
  text.toList.foldlM (fun _ x => do discard (char x)) ()

/-- The end of the document. -/
def eof : Reader Unit where
  read c := if c.rest.isEmpty then some ((), c) else none
  passes c _ _ found := by
    split at found
    · cases found
      exact ⟨[], .refl c⟩
    · cases found

/-- What `r` reads from `c` on, over and over, as long as it succeeds and gets
    ahead; and the place where it stopped. -/
def repeated (r : Reader α) (c : Cursor) : List α × Cursor :=
  match r.read c with
  | none => ([], c)
  | some (a, c') =>
    if c'.left < c.left then
      let (more, stop) := repeated r c'
      (a :: more, stop)
    else
      ([], c)
termination_by c.left

theorem reaches_repeated (r : Reader α) (c : Cursor) :
    ∃ passed, c.Reaches passed (r.repeated c).2 := by
  fun_induction repeated r c with
  | case1 c => exact ⟨[], .refl c⟩
  | case2 c a c' first _ more stop later ih =>
    obtain ⟨passed, reached⟩ := r.passes _ _ _ first
    rw [later] at ih
    obtain ⟨rest, reached'⟩ := ih
    exact ⟨passed ++ rest, reached.trans reached'⟩
  | case3 c => exact ⟨[], .refl c⟩

/-- Reads with `r` as often as it succeeds. -/
def many (r : Reader α) : Reader (List α) where
  read c := some (r.repeated c)
  passes c as c' found := by
    have reached := r.reaches_repeated c
    rwa [Option.some.inj found] at reached

/-- Reads with `r` at least once. -/
def many1 (r : Reader α) : Reader (List α) := do
  let first ← r
  return first :: (← many r)

/-- Reads with `r` at least once, with separators in between. -/
def separated (r : Reader α) (separator : Reader β) : Reader (List α) := do
  let first ← r
  return first :: (← many (do discard separator; r))

/-- Reads with `r` and tells the span of what it read. -/
def located (r : Reader α) : Reader (Located α) where
  read c :=
    match r.read c with
    | none => none
    | some (a, c') => some (⟨.between c.pos c'.pos, a⟩, c')
  passes c _ _ found := by
    split at found
    · cases found
    · rename_i first
      cases found
      exact r.passes _ _ _ first

/-- What `r` reads from a whole document. -/
def run (r : Reader α) (text : String) : Option α :=
  match (do let a ← r; eof; return a : Reader α).read (.ofString text) with
  | none => none
  | some (a, _) => some a

end Reader

end InvariantInference.Toml
