import InvariantInference.Span

/-!
# Expressions

Boolean expressions over identifiers and opaque atoms. An atom such as
`x > 0` is not looked into: it is kept as its canonical text. Every node
carries the span of its text.
-/

namespace InvariantInference

/-- The binary connectives. -/
inductive BinOp where
  | implies
  | or
  | and
  | eq
  deriving DecidableEq, Repr

namespace BinOp

/-- The spelling of a connective. -/
def symbol : BinOp → String
  | implies => "==>"
  | or => "||"
  | and => "&&"
  | eq => "=="

end BinOp

/-- A boolean expression. The name of an identifier node has a span of its own,
    since parentheses widen the span of the node and not that of the name. -/
inductive Expr where
  | lit (span : Span) (value : Bool)
  | ident (span : Span) (name : Located String)
  | atom (span : Span) (text : String)
  | not (span : Span) (operand : Expr)
  | binary (span : Span) (op : BinOp) (left right : Expr)
  deriving DecidableEq, Repr

namespace Expr

/-- The span of the whole expression. -/
def span : Expr → Span
  | lit span _ => span
  | ident span _ => span
  | atom span _ => span
  | not span _ => span
  | binary span _ _ _ => span

/-- The same expression with another span at its root. -/
def withSpan (span : Span) : Expr → Expr
  | lit _ value => lit span value
  | ident _ name => ident span name
  | atom _ text => atom span text
  | not _ operand => not span operand
  | binary _ op left right => binary span op left right

/-- A literal that stands in no text. -/
def ofBool (value : Bool) : Expr := lit .none value

/-- An identifier that stands in no text. -/
def ofName (name : String) : Expr := ident .none (.synthetic name)

/-- An atom that stands in no text. -/
def ofAtom (text : String) : Expr := atom .none text

/-- The negation of `e`, which takes the span of `e` (`not`). -/
def negate (e : Expr) : Expr := not e.span e

/-- Two expressions under a connective; the node spans both (`binary`). -/
def combine (op : BinOp) (left right : Expr) : Expr :=
  binary (left.span.join right.span) op left right

/-- The name of an identifier (`as_ident`). -/
def name? : Expr → Option String
  | ident _ name => some name.value
  | _ => none

/-- Premise and conclusion of an implication (`as_implication`). -/
def implication? : Expr → Option (Expr × Expr)
  | binary _ .implies premise conclusion => some (premise, conclusion)
  | _ => none

/-- Name and value of an equation `name == true` or `name == false` (`as_binding`). -/
def binding? : Expr → Option (String × Bool)
  | binary _ .eq (ident _ name) (lit _ value) => some (name.value, value)
  | _ => none

/-- The conjuncts of nested `&&`, from left to right. -/
def conjuncts : Expr → List Expr
  | binary _ .and left right => left.conjuncts ++ right.conjuncts
  | e => [e]

/-- The equations that are conjuncts of the expression, from left to right. -/
def bindings (e : Expr) : List (String × Bool) := e.conjuncts.filterMap binding?

/-- The number of nodes. -/
def size : Expr → Nat
  | lit _ _ | ident _ _ | atom _ _ => 1
  | not _ operand => operand.size + 1
  | binary _ _ left right => left.size + right.size + 1

/-- An expression has at least one node. -/
theorem size_pos (e : Expr) : 0 < e.size := by
  cases e <;> simp [size]

end Expr

end InvariantInference
