import InvariantInference.Expr.Parser

/-!
# Contracts and commands

A contract is a condition on entry or exit of a procedure. A free contract is
assumed and never checked. A command is one step of an implementation.
-/

namespace InvariantInference

/-- A `requires` or `ensures` clause. -/
structure Contract where
  span : Span
  free : Bool
  condition : Expr
  deriving DecidableEq, Repr

/-- One step of an implementation. -/
inductive Command where
  | call (span : Span) (callee : Located String)
  | assert (span : Span) (condition : Expr)
  | assume (span : Span) (condition : Expr)
  deriving DecidableEq, Repr

namespace Contract

/-- Reads `[free] condition` (`parse_contract_eof`). -/
def ofTokens (ts : List Token) : Except SourceError Contract := do
  let last := Token.lastSpan ts
  match ts with
  | ⟨.free, span⟩ :: body =>
    let (condition, rest) ← Expr.parseNext last body
    Token.expectEnd last rest
    return ⟨span.join condition.span, true, condition⟩
  | body =>
    let (condition, rest) ← Expr.parseNext last body
    Token.expectEnd last rest
    return ⟨condition.span, false, condition⟩

/-- The contract that a whole text spells, its first byte being byte `base`
    (`parse_contract`). -/
def parse (source : String) (base : Nat) : Except SourceError Contract := do
  ofTokens (← Token.ofSource source base)

end Contract

namespace Command

/-- The span of a command. -/
def span : Command → Span
  | call span _ => span
  | assert span _ => span
  | assume span _ => span

/-- The procedure that a command calls. -/
def callee? : Command → Option (Located String)
  | call _ callee => some callee
  | _ => none

/-- Reads `call p`, `assert condition` or `assume condition` (`parse_cmd_eof`). -/
def ofTokens (ts : List Token) : Except SourceError Command := do
  let last := Token.lastSpan ts
  match ts with
  | [] => .error ⟨.endOfInput, last⟩
  | ⟨.call, span⟩ :: operands =>
    match operands with
    | [] => .error ⟨.endOfInput, last⟩
    | ⟨.ident name, nameSpan⟩ :: rest =>
      Token.expectEnd last rest
      return call (span.join nameSpan) ⟨nameSpan, name⟩
    | t :: _ => .error ⟨.noIdentifier, t.span⟩
  | ⟨.assert, span⟩ :: body =>
    let (condition, rest) ← Expr.parseNext last body
    Token.expectEnd last rest
    return assert (span.join condition.span) condition
  | ⟨.assume, span⟩ :: body =>
    let (condition, rest) ← Expr.parseNext last body
    Token.expectEnd last rest
    return assume (span.join condition.span) condition
  | t :: _ => .error ⟨.noCommand, t.span⟩

/-- The command that a whole text spells, its first byte being byte `base` (`parse_cmd`). -/
def parse (source : String) (base : Nat) : Except SourceError Command := do
  ofTokens (← Token.ofSource source base)

end Command

end InvariantInference
