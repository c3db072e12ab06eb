import InvariantInference.Expr

/-!
# Writing expressions

An expression is written with as few parentheses as the grammar needs to read
it back. The text of an expression is also what stands for it in a fact base,
so expressions that differ in their spans only have the same text.
-/

namespace InvariantInference

namespace BinOp

/-- How tightly a connective binds (`bin_prec`). -/
def rank : BinOp → Nat
  | implies => 1
  | or => 2
  | and => 3
  | eq => 4

/-- The rank that the left operand of a connective has to have at least:
    `==>` groups to the right, the others group to the left. -/
def leftRank : BinOp → Nat
  | implies => 2
  | op => op.rank

/-- The rank that the right operand of a connective has to have at least. -/
def rightRank : BinOp → Nat
  | implies => 1
  | op => op.rank + 1

end BinOp

namespace Expr

/-- The rank that the operand of `!` has to have at least. -/
def negationRank : Nat := 5

/-- A text in parentheses. -/
def parenthesize (text : String) : String := "(" ++ text ++ ")"

/-- The text of an expression in a place that wants at least rank `context` (`fmt_expr`). A
    connective of lower rank is parenthesised. So is an atom of several words in a place
    that wants exactly the rank of an operand of `!`. -/
def renderAt (context : Nat) : Expr → String
  | lit _ value => if value then "true" else "false"
  | ident _ name => name.value
  | atom _ text =>
    if context = negationRank ∧ ' ' ∈ text.toList then parenthesize text else text
  | not _ operand => "!" ++ operand.renderAt negationRank
  | binary _ op left right =>
    let text := left.renderAt op.leftRank ++ " " ++ op.symbol ++ " " ++ right.renderAt op.rightRank
    if op.rank < context then parenthesize text else text

/-- The text of an expression. -/
def render (e : Expr) : String := e.renderAt 0

/-- The text of an expression that is pushed onto a session. -/
def renderHypothesis (e : Expr) : String := "axiom (" ++ e.render ++ ");"

end Expr

end InvariantInference
