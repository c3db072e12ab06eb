import InvariantInference.Expr.Printer

/-!
# Fact bases

A fact base knows the truth values of some identifiers and a set of conditions,
kept as their texts. It can be told to assume a condition, and asked whether a
condition holds. Evaluation has three values: a condition may be true, false or
undecided.

Conjunctions are assumed part by part. An implication is assumed by way of its
conclusion if its premise is true, dropped if its premise is false, and parked
if its premise is undecided; a parked implication fires as soon as something
new makes its premise true. This proves what candidate-guarded conditions need,
and everything else counts as not holding.
-/

namespace InvariantInference

/-- What is known at one point of an implementation. -/
structure Facts where
  /-- Truth values of identifiers, the newest first. -/
  bindings : List (String × Bool)
  /-- Texts of conditions that are true, the newest first. -/
  known : List String
  /-- Premises and conclusions of the implications that wait, the oldest first. -/
  parked : List (Expr × Expr)
  /-- Set once something false was assumed: from then on everything holds. -/
  unreachable : Bool
  deriving DecidableEq, Repr

namespace Facts

/-- Nothing but the truth values of some identifiers. -/
def ofBindings (bindings : List (String × Bool)) : Facts := ⟨bindings, [], [], false⟩

/-! ## Evaluation -/

/-- A conjunction of three-valued truth values. -/
def both : Option Bool → Option Bool → Option Bool
  | some false, _ | _, some false => some false
  | some true, some true => some true
  | _, _ => none

/-- A disjunction of three-valued truth values. -/
def either : Option Bool → Option Bool → Option Bool
  | some true, _ | _, some true => some true
  | some false, some false => some false
  | _, _ => none

/-- An implication between three-valued truth values. -/
def follows : Option Bool → Option Bool → Option Bool
  | some false, _ | _, some true => some true
  | some true, some false => some false
  | _, _ => none

/-- Whether two three-valued truth values are known to be the same. -/
def agree : Option Bool → Option Bool → Option Bool
  | some a, some b => some (a = b)
  | _, _ => none

/-- A connective between three-valued truth values. -/
def apply : BinOp → Option Bool → Option Bool → Option Bool
  | .and => both
  | .or => either
  | .implies => follows
  | .eq => agree

/-- A condition is true if its text is known, and false if that of its negation
    is. -/
def lookup (f : Facts) (e : Expr) : Option Bool :=
  if e.render ∈ f.known then some true
  else if e.negate.render ∈ f.known then some false
  else none

/-- The value of an expression, as far as the facts decide it. -/
def eval (f : Facts) : Expr → Option Bool
  | .lit _ value => some value
  | .ident span name => (f.bindings.lookup name.value).or (f.lookup (.ident span name))
  | .atom span text => f.lookup (.atom span text)
  | .not span operand => (f.lookup (.not span operand)).or ((f.eval operand).map (!·))
  | .binary span op left right =>
    if (Expr.binary span op left right).render ∈ f.known then some true
    else apply op (f.eval left) (f.eval right)

/-! ## Assumption -/

/-- What is left to be done in the course of an assumption. -/
inductive Task where
  /-- Assume a condition. -/
  | learn (condition : Expr)
  /-- Fire parked implications until none can fire. -/
  | fire
  deriving DecidableEq, Repr

/-- A bound on the work that a task still makes. -/
def Task.weight : Task → Nat
  | learn condition => 2 * condition.size
  | fire => 1

/-- A bound on the work that a parked implication still makes. -/
def parkedWeight (p : Expr × Expr) : Nat := 2 * p.2.size + 1

/-- The sum of the weights of the members of a list. -/
def totalWeight {α : Type} (w : α → Nat) : List α → Nat
  | [] => 0
  | a :: l => w a + totalWeight w l

/-- A bound on the work that is left. -/
def weight (f : Facts) (tasks : List Task) : Nat :=
  totalWeight parkedWeight f.parked + totalWeight Task.weight tasks

/-- Whether the premise of a parked implication is true. -/
def fires (f : Facts) (p : Expr × Expr) : Bool := f.eval p.1 = some true

/-- Whether a condition is an equation that contradicts the value of its
    identifier. -/
def contradicts (f : Facts) (e : Expr) : Bool :=
  match e.binding? with
  | some (name, value) => f.bindings.lookup name = some (!value)
  | none => false

/-- The weight of two lists is the sum of their weights. -/
theorem totalWeight_append {α : Type} (w : α → Nat) (l l' : List α) :
    totalWeight w (l ++ l') = totalWeight w l + totalWeight w l' := by
  induction l with
  | nil => simp [totalWeight]
  | cons a l ih => simp [totalWeight, ih, Nat.add_assoc]

/-- Taking a member out of a list takes its weight out of that of the list. -/
theorem totalWeight_eraseP {α : Type} {p : α → Bool} (w : α → Nat) {l : List α} {a : α}
    (found : l.find? p = some a) :
    totalWeight w (l.eraseP p) + w a = totalWeight w l := by
  induction l with
  | nil => simp at found
  | cons b l ih =>
    by_cases holds : p b
    · simp only [List.find?_cons, holds, Option.some.injEq] at found
      subst found
      simp [totalWeight, holds, Nat.add_comm]
    · simp only [List.find?_cons, holds] at found
      have rest := ih found
      simp [totalWeight, holds]
      omega

/-- Does the tasks one after the other: the calls that `assume` and `fire_pending` make of each
    other are the tasks that are left. A new fact makes the parked implications fire before
    the next task; the first that can fire goes first, and is gone afterwards. -/
def settle (f : Facts) (tasks : List Task) : Facts :=
  match tasks with
  | [] => f
  | .fire :: rest =>
    match _found : f.parked.find? f.fires with
    | none => settle f rest
    | some (_, conclusion) =>
      settle { f with parked := f.parked.eraseP f.fires } (.learn conclusion :: .fire :: rest)
  | .learn (.lit _ true) :: rest => settle f rest
  | .learn (.lit _ false) :: rest => settle { f with unreachable := true } rest
  | .learn (.binary _ .and left right) :: rest => settle f (.learn left :: .learn right :: rest)
  | .learn (.binary _ .implies premise conclusion) :: rest =>
    match f.eval premise with
    | some true => settle f (.learn conclusion :: rest)
    | some false => settle f rest
    | none => settle { f with parked := f.parked ++ [(premise, conclusion)] } rest
  | .learn e :: rest =>
    let unreachable := f.unreachable || f.contradicts e
    if e.render ∈ f.known then
      settle { f with unreachable } rest
    else
      settle { f with unreachable, known := e.render :: f.known } (.fire :: rest)
termination_by f.weight tasks
decreasing_by
  all_goals simp only [weight, totalWeight, totalWeight_append, Task.weight, parkedWeight,
    Expr.size]
  · omega
  · have taken := totalWeight_eraseP parkedWeight _found
    simp only [parkedWeight] at taken ⊢
    omega
  · omega
  · omega
  · omega
  · omega
  · omega
  · omega
  · have := e.size_pos; omega
  · have := e.size_pos; omega

/-- The facts after a condition was assumed. -/
def assume (f : Facts) (e : Expr) : Facts := f.settle [.learn e]

/-! ## Entailment -/

/-- Whether a condition is known to hold. An implication holds if its premise
    is false, or if its conclusion holds once its premise is assumed. -/
def holds (f : Facts) : Expr → Bool
  | .binary _ .implies premise conclusion =>
    f.unreachable || f.eval premise = some false || (f.assume premise).holds conclusion
  | e => f.unreachable || f.eval e = some true

end Facts

end InvariantInference
