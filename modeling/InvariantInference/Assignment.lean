import InvariantInference.Candidate
import InvariantInference.Expr.Printer

/-!
# Assignments

An assignment gives every candidate a truth value. It starts with all of them
true; from then on candidates only fall, and none falls any more once the
assignment is frozen.
-/

namespace InvariantInference

/-- Truth values of the candidates, in their order. -/
structure Assignment where
  entries : List (String × Bool)
  frozen : Bool
  deriving DecidableEq, Repr

namespace Assignment

/-- Every candidate is true (`all_true`). -/
def allTrue (cs : Candidates) : Assignment := ⟨cs.names.map ((·, true)), false⟩

/-- The value of a candidate. -/
def get? (a : Assignment) (name : String) : Option Bool := a.entries.lookup name

/-- Whether a candidate is true. -/
def isTrue (a : Assignment) (name : String) : Bool := a.get? name = some true

/-- Whether `disable` changes the value of a name. -/
def canFall (a : Assignment) (name : String) : Bool := !a.frozen && a.isTrue name

/-- An entry once a candidate has fallen: that of the candidate is false. -/
def lower (name : String) (entry : String × Bool) : String × Bool :=
  (entry.1, entry.2 && entry.1 != name)

/-- Makes a candidate false. Nothing changes if the name is no candidate or the
    assignment is frozen. -/
def disable (a : Assignment) (name : String) : Assignment :=
  if a.canFall name then { a with entries := a.entries.map (lower name) } else a

/-- Fixes all values. -/
def freeze (a : Assignment) : Assignment := { a with frozen := true }

/-- The number of candidates. -/
def size (a : Assignment) : Nat := a.entries.length

/-- The number of candidates that are true (`count_true`). -/
def countTrue (a : Assignment) : Nat := a.entries.countP (·.2)

/-- Where a candidate falls fewer candidates are true. -/
theorem countTrue_disable_lt {a : Assignment} {name : String} (falls : a.canFall name) :
    (a.disable name).countTrue < a.countTrue := by
  obtain ⟨entries, frozen⟩ := a
  have isTrue : entries.lookup name = some true :=
    of_decide_eq_true (Bool.and_eq_true_iff.mp falls).2
  simp only [disable, falls, if_true, countTrue, List.countP_map]
  clear falls
  induction entries with
  | nil => simp at isTrue
  | cons entry rest ih =>
    obtain ⟨n, v⟩ := entry
    have fewer : rest.countP ((·.2) ∘ lower name) ≤ rest.countP (·.2) :=
      List.countP_mono_left (by simp +contextual [lower])
    simp only [List.countP_cons, Function.comp_apply]
    by_cases same : n = name
    · subst same
      simp only [List.lookup_cons_self, Option.some.injEq] at isTrue
      simp [isTrue, lower]
      omega
    · have other : (name == n) = false := by simpa using fun equal => same equal.symm
      rw [List.lookup_cons, other] at isTrue
      have smaller := ih isTrue
      cases v <;> simp [same, lower] <;> omega

/-- A candidate that cannot fall leaves the assignment as it is. -/
theorem disable_of_not_canFall {a : Assignment} {name : String} (stays : ¬ a.canFall name) :
    a.disable name = a := by
  simp [disable, stays]

/-- The equation that gives a candidate its value. -/
def equation (entry : String × Bool) : Expr :=
  .combine .eq (.ofName entry.1) (.ofBool entry.2)

/-- The conjunction of the equations of all candidates; `true` if there are none
    (`build_axiom`). -/
def hypothesis (a : Assignment) : Expr :=
  match a.entries with
  | [] => .ofBool true
  | first :: rest => rest.foldl (fun e entry => .combine .and e (equation entry)) (equation first)

/-- The name and value of a candidate. -/
def renderEntry (entry : String × Bool) : String :=
  entry.1 ++ ": " ++ (if entry.2 then "true" else "false")

/-- The assignment in one line. -/
def render (a : Assignment) : String :=
  "\x7b" ++ String.intercalate ", " (a.entries.map renderEntry) ++ "\x7d"

end Assignment

end InvariantInference
