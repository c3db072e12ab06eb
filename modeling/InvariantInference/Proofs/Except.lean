import Mathlib

/-!
# Computations that may fail

When a computation made of several succeeds, and with which result.
-/

namespace InvariantInference

/-- A computation that succeeds is made of two that succeed. -/
theorem bind_eq_ok_iff {ε α β : Type} {first : Except ε α} {next : α → Except ε β} {result : β} :
    (first >>= next) = .ok result ↔ ∃ value, first = .ok value ∧ next value = .ok result := by
  cases first with
  | error e => simp [bind, Except.bind]
  | ok value => simp [bind, Except.bind]

/-- A computation that fails is made of two, the first of which fails or the second. -/
theorem bind_eq_error_iff {ε α β : Type} {first : Except ε α} {next : α → Except ε β} {error : ε} :
    (first >>= next) = .error error ↔
      first = .error error ∨ ∃ value, first = .ok value ∧ next value = .error error := by
  cases first with
  | error e => simp [bind, Except.bind]
  | ok value => simp [bind, Except.bind]

/-- A computation made of two succeeds if the first does, and the second on all its results. -/
theorem exists_bind_eq_ok {ε α β : Type} {first : Except ε α} {next : α → Except ε β}
    (succeeds : ∃ value, first = .ok value) (each : ∀ value, ∃ result, next value = .ok result) :
    ∃ result, (first >>= next) = .ok result := by
  obtain ⟨value, rfl⟩ := succeeds
  exact each value

/-- A computation after a check succeeds iff both succeed. -/
theorem check_bind_eq_ok_iff {ε β : Type} {check : Except ε Unit} {next : Unit → Except ε β}
    {result : β} : (check >>= next) = .ok result ↔ check = .ok () ∧ next () = .ok result := by
  rw [bind_eq_ok_iff]
  exact ⟨fun ⟨(), passed, rest⟩ => ⟨passed, rest⟩, fun ⟨passed, rest⟩ => ⟨(), passed, rest⟩⟩

/-- A check of all members of a list succeeds iff each check does. -/
theorem forM_eq_ok_iff {ε α : Type} {check : α → Except ε Unit} {l : List α} :
    forM l check = .ok () ↔ ∀ a ∈ l, check a = .ok () := by
  induction l with
  | nil => simp [pure, Except.pure]
  | cons a l ih => rw [List.forM_cons, check_bind_eq_ok_iff, ih, List.forall_mem_cons]

/-- Steps that are taken one after the other succeed iff each does, where it depends on the
    member alone whether a step succeeds. -/
theorem foldlM_eq_ok_iff {ε α β : Type} {step : β → α → Except ε β} {next : β → α → β}
    {good : α → Prop} (each : ∀ b a b', step b a = .ok b' ↔ good a ∧ b' = next b a) {l : List α}
    {b b' : β} : l.foldlM step b = .ok b' ↔ (∀ a ∈ l, good a) ∧ b' = l.foldl next b := by
  induction l generalizing b with
  | nil => simp [pure, Except.pure, eq_comm]
  | cons a l ih =>
    simp only [List.foldlM_cons, bind_eq_ok_iff, each, ih, List.forall_mem_cons, List.foldl_cons]
    constructor
    · rintro ⟨_, ⟨first, rfl⟩, rest, rfl⟩
      exact ⟨⟨first, rest⟩, rfl⟩
    · rintro ⟨⟨first, rest⟩, rfl⟩
      exact ⟨_, ⟨first, rfl⟩, rest, rfl⟩

/-- The results of a computation for all members of a list stand in the order of the list. -/
theorem forall₂_of_mapM {ε α β : Type} {f : α → Except ε β} {l : List α} {l' : List β}
    (mapped : l.mapM f = .ok l') : List.Forall₂ (fun a b => f a = .ok b) l l' := by
  induction l generalizing l' with
  | nil =>
    cases mapped
    exact .nil
  | cons a l ih =>
    simp only [List.mapM_cons, bind_eq_ok_iff] at mapped
    obtain ⟨b, first, bs, rest, same⟩ := mapped
    cases same
    exact .cons first (ih rest)

/-- A computation for all members of a list that succeeds has a result for each
    member, and no other results. -/
theorem mem_of_mapM {ε α β : Type} {f : α → Except ε β} {l : List α} {l' : List β}
    (mapped : l.mapM f = .ok l') :
    (∀ a ∈ l, ∃ b ∈ l', f a = .ok b) ∧ ∀ b ∈ l', ∃ a ∈ l, f a = .ok b := by
  have all := forall₂_of_mapM mapped
  clear mapped
  induction all with
  | nil => simp
  | cons first _ ih =>
    obtain ⟨forward, backward⟩ := ih
    rw [List.forall_mem_cons, List.forall_mem_cons]
    refine ⟨⟨⟨_, by simp, first⟩, fun a member => ?_⟩, ⟨_, by simp, first⟩, fun b member => ?_⟩
    · obtain ⟨b, member', result⟩ := forward a member
      exact ⟨b, by simp [member'], result⟩
    · obtain ⟨a, member', result⟩ := backward b member
      exact ⟨a, by simp [member'], result⟩

/-- What each result shows of its member, all results show of the list, in order. -/
theorem map_of_mapM {ε α β γ : Type} {f : α → Except ε β} {g : β → γ} {h : α → γ} {l : List α}
    {l' : List β} (each : ∀ a b, f a = .ok b → g b = h a) (mapped : l.mapM f = .ok l') :
    l'.map g = l.map h := by
  have all := forall₂_of_mapM mapped
  clear mapped
  induction all with
  | nil => rfl
  | cons first _ ih => rw [List.map_cons, List.map_cons, each _ _ first, ih]

/-- A computation for all members of a list succeeds if it does for each member. -/
theorem exists_mapM_eq_ok {ε α β : Type} {f : α → Except ε β} {l : List α}
    (each : ∀ a ∈ l, ∃ b, f a = .ok b) : ∃ l', l.mapM f = .ok l' := by
  induction l with
  | nil => exact ⟨[], rfl⟩
  | cons a l ih =>
    rw [List.forall_mem_cons] at each
    obtain ⟨b, first⟩ := each.1
    obtain ⟨bs, rest⟩ := ih each.2
    refine ⟨b :: bs, ?_⟩
    simp only [List.mapM_cons, bind_eq_ok_iff]
    exact ⟨b, first, bs, rest, rfl⟩

/-! ## Failures -/

/-- The error of a computation that fails. -/
def failure? {ε α : Type} : Except ε α → Option ε
  | .error e => some e
  | .ok _ => none

theorem failure?_eq_some_iff {ε α : Type} {result : Except ε α} {error : ε} :
    failure? result = some error ↔ result = .error error := by
  cases result <;> simp [failure?]

/-- Where it does not depend on the first of two computations how the second one fails, the
    failure of both is the first of their failures. -/
theorem failure?_bind {ε α β : Type} {first : Except ε α} {next : α → Except ε β}
    {later : Option ε} (each : ∀ value, failure? (next value) = later) :
    failure? (first >>= next) = (failure? first).or later := by
  cases first with
  | error e => rfl
  | ok value => exact each value

theorem failure?_bind_pure {ε α β : Type} {first : Except ε α} {g : α → β} :
    failure? (first >>= fun value => pure (g value)) = failure? first := by
  cases first <;> rfl

/-- A computation for all members of a list fails as it does at the first member where it fails. -/
theorem failure?_mapM {ε α β : Type} {f : α → Except ε β} {l : List α} :
    failure? (l.mapM f) = l.findSome? (fun a => failure? (f a)) := by
  induction l with
  | nil => rfl
  | cons a l ih =>
    rw [List.mapM_cons, failure?_bind fun _ => failure?_bind_pure, ih, List.findSome?_cons]
    cases failure? (f a) <;> rfl

end InvariantInference
