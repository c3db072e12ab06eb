import Mathlib
import InvariantInference.Toml.Document

/-!
# What readers read

When a reader that is made of others succeeds, and what the others have read then.
Of a reader that is tried over and over it is known which characters each of its
results comes from. What a reader finds somewhere in a document is found there from
every earlier place on.
-/

namespace InvariantInference.Toml.Reader

variable {α β : Type} {r : Reader α} {c c' : Cursor} {passed : List Char}

/-! ## Parts of readers -/

theorem read_pure_iff {a b : α} : (pure a : Reader α).read c = some (b, c') ↔ b = a ∧ c' = c := by
  change some (a, c) = some (b, c') ↔ _
  simp [eq_comm]

theorem read_bind_iff {f : α → Reader β} {b : β} {c'' : Cursor} :
    (r >>= f).read c = some (b, c'') ↔
      ∃ a c', r.read c = some (a, c') ∧ (f a).read c' = some (b, c'') := by
  change Reader.read (Reader.bind r f) c = some (b, c'') ↔ _
  cases first : r.read c with
  | none => simp [Reader.bind, first]
  | some found =>
    obtain ⟨a, c'⟩ := found
    simp [Reader.bind, first]

theorem read_discard_iff {u : Unit} :
    (discard r).read c = some (u, c') ↔ ∃ a, r.read c = some (a, c') := by
  change Reader.read (r >>= fun _ => pure ()) c = some (u, c') ↔ _
  rw [read_bind_iff]
  constructor
  · rintro ⟨a, _, first, rest⟩
    obtain ⟨-, rfl⟩ := read_pure_iff.mp rest
    exact ⟨a, first⟩
  · rintro ⟨a, first⟩
    exact ⟨a, c', first, read_pure_iff.mpr ⟨rfl, rfl⟩⟩

theorem read_check_iff {condition : Bool} {u : Unit} :
    (check condition).read c = some (u, c') ↔ condition = true ∧ c' = c := by
  unfold check
  cases condition with
  | false => simp [fail]
  | true => simp [read_pure_iff]

theorem exists_of_read_firstOf {rs : List (Reader α)} {found : α × Cursor}
    (read : (firstOf rs).read c = some found) : ∃ r ∈ rs, r.read c = some found := by
  induction rs with
  | nil => cases read
  | cons r rs ih =>
    simp only [firstOf, orElse] at read
    split at read
    · rename_i first
      rw [read] at first
      exact ⟨r, List.mem_cons_self, first⟩
    · obtain ⟨r', member, read'⟩ := ih read
      exact ⟨r', List.mem_cons_of_mem r member, read'⟩

theorem read_optional_iff {o : Option α} :
    (optional r).read c = some (o, c') ↔
      (∃ a, o = some a ∧ r.read c = some (a, c')) ∨ o = none ∧ c' = c ∧ r.read c = none := by
  simp only [optional]
  cases first : r.read c with
  | none => simp [eq_comm]
  | some found =>
    obtain ⟨a, stop⟩ := found
    simp [eq_comm]

theorem read_located_iff {found : Located α} :
    (located r).read c = some (found, c') ↔
      ∃ a, r.read c = some (a, c') ∧ found = ⟨.between c.pos c'.pos, a⟩ := by
  simp only [located]
  cases first : r.read c with
  | none => simp
  | some found =>
    obtain ⟨a, stop⟩ := found
    simp only [Option.some.injEq, Prod.mk.injEq]
    constructor
    · rintro ⟨rfl, rfl⟩
      exact ⟨a, ⟨rfl, rfl⟩, rfl⟩
    · rintro ⟨_, ⟨rfl, rfl⟩, rfl⟩
      exact ⟨rfl, rfl⟩

theorem exists_of_run {source : String} {a : α} (found : r.run source = some a) :
    ∃ c', r.read (.ofString source) = some (a, c') := by
  unfold run at found
  split at found
  · cases found
  · rename_i read
    cases found
    obtain ⟨_, c', first, rest⟩ := read_bind_iff.mp read
    obtain ⟨_, _, _, last⟩ := read_bind_iff.mp rest
    obtain ⟨rfl, -⟩ := read_pure_iff.mp last
    exact ⟨c', first⟩

/-! ## Characters that are passed over -/

theorem reaches_of_satisfy {p : Char → Bool} {x : Char}
    (read : (satisfy p).read c = some (x, c')) : p x ∧ c.Reaches [x] c' := by
  simp only [satisfy] at read
  split at read
  · cases read
  · rename_i here
    split at read
    · rename_i holds
      cases read
      exact ⟨holds, here, by simp⟩
    · cases read

theorem reaches_of_char {x y : Char} (read : (char x).read c = some (y, c')) :
    y = x ∧ c.Reaches [x] c' := by
  obtain ⟨same, reached⟩ := reaches_of_satisfy read
  rw [decide_eq_true_eq] at same
  exact ⟨same, same ▸ reached⟩

theorem reaches_of_string {text : String} {u : Unit}
    (read : (string text).read c = some (u, c')) : c.Reaches text.toList c' := by
  unfold string at read
  generalize text.toList = chars at read ⊢
  induction chars generalizing c with
  | nil =>
    obtain ⟨-, rfl⟩ := read_pure_iff.mp read
    exact .refl _
  | cons x chars ih =>
    rw [List.foldlM_cons, read_bind_iff] at read
    obtain ⟨_, _, first, rest⟩ := read
    obtain ⟨_, first⟩ := read_discard_iff.mp first
    exact (reaches_of_char first).2.trans (ih rest)

/-- What is read over and over is read from one piece of the document after the other. -/
theorem exists_of_read_many (piece : List Char → α → Prop) {found : List α}
    (each : ∀ c a c', r.read c = some (a, c') → ∃ passed, piece passed a ∧ c.Reaches passed c')
    (read : (many r).read c = some (found, c')) :
    ∃ pieces, List.Forall₂ piece pieces found ∧ c.Reaches pieces.flatten c' := by
  have whole : r.repeated c = (found, c') := Option.some.inj read
  clear read
  fun_induction repeated r c generalizing found with
  | case1 c =>
    cases whole
    exact ⟨[], .nil, .refl _⟩
  | case2 c a stop first _ more end' later ih =>
    cases whole
    obtain ⟨passed, holds, reached⟩ := each _ _ _ first
    obtain ⟨pieces, all, reached'⟩ := ih later
    exact ⟨passed :: pieces, .cons holds all, reached.trans reached'⟩
  | case3 c =>
    cases whole
    exact ⟨[], .nil, .refl _⟩

/-! ## Finding -/

/-- Somewhere from `c` on the reader reads `a`. -/
def Finds (r : Reader α) (c : Cursor) (a : α) : Prop :=
  ∃ passed here stop, c.Reaches passed here ∧ r.read here = some (a, stop)

theorem finds_of_read {a : α} (read : r.read c = some (a, c')) : r.Finds c a :=
  ⟨[], c, c', .refl c, read⟩

theorem Finds.from {a : α} (finds : r.Finds c' a) (reached : c.Reaches passed c') :
    r.Finds c a := by
  obtain ⟨more, here, stop, reached', read⟩ := finds
  exact ⟨passed ++ more, here, stop, reached.trans reached', read⟩

/-- What is found wherever something else is read is found where that is found. -/
theorem Finds.trans {s : Reader β} {a : α} {b : β} (finds : r.Finds c a)
    (within : ∀ here stop, r.read here = some (a, stop) → s.Finds here b) : s.Finds c b := by
  obtain ⟨passed, here, stop, reached, read⟩ := finds
  exact (within here stop read).from reached

theorem finds_of_mem_many {found : List α} (read : (many r).read c = some (found, c')) {a : α}
    (member : a ∈ found) : r.Finds c a := by
  have whole : r.repeated c = (found, c') := Option.some.inj read
  clear read
  fun_induction repeated r c generalizing found with
  | case1 c =>
    cases whole
    cases member
  | case2 c first stop read _ more end' later ih =>
    cases whole
    rcases List.mem_cons.mp member with rfl | member
    · exact finds_of_read read
    · obtain ⟨passed, reached⟩ := r.passes _ _ _ read
      exact (ih member later).from reached
  | case3 c =>
    cases whole
    cases member

/-- What the second of two readers finds is found from the start of the first. -/
theorem Finds.of_bind {s : Reader β} {b : β} {a : α} (read : r.read c = some (a, c'))
    (finds : s.Finds c' b) : s.Finds c b := by
  obtain ⟨passed, reached⟩ := r.passes _ _ _ read
  exact finds.from reached

theorem finds_of_mem_separated {separator : Reader β} {found : List α}
    (read : (separated r separator).read c = some (found, c')) {a : α} (member : a ∈ found) :
    r.Finds c a := by
  obtain ⟨first, _, readFirst, rest⟩ := read_bind_iff.mp read
  obtain ⟨more, _, readMore, last⟩ := read_bind_iff.mp rest
  obtain ⟨rfl, -⟩ := read_pure_iff.mp last
  rcases List.mem_cons.mp member with rfl | member
  · exact finds_of_read readFirst
  · refine .of_bind readFirst ((finds_of_mem_many readMore member).trans
      fun here stop readOne => ?_)
    obtain ⟨_, _, separating, readOne⟩ := read_bind_iff.mp readOne
    exact .of_bind separating (finds_of_read readOne)

end InvariantInference.Toml.Reader
