import InvariantInference.Binary64
import InvariantInference.Text.Padded

/-!
# Decimal texts of binary numbers

Two texts of a number: with a fixed count of places, rounded from the exact
value, and with the fewest digits that read back as the same number.
-/

namespace InvariantInference

namespace Binary64

/-- A decimal `digits * 10 ^ exponent`. -/
structure Decimal where
  digits : Nat
  exponent : Int
  deriving DecidableEq, Repr

/-- The same decimal without zeros at the end of its digits. -/
def Decimal.reduce (digits : Nat) (exponent : Int) : Decimal :=
  if 0 < digits ∧ digits % 10 = 0 then reduce (digits / 10) (exponent + 1)
  else ⟨digits, exponent⟩
termination_by digits

/-- The number with `places` digits after the point, a half going to the even
    neighbour. -/
def fixed (places : Nat) (x : Binary64) : String :=
  let (num, den) := x.ratio
  let unit := Nat.pow 10 places
  let scaled := roundDiv (num * unit) den
  toString (scaled / unit) ++ "." ++ Text.padded places (scaled % unit)

/-- Whether `num / den` lies in the interval of numbers that round to `x`. The
    ends belong to it iff the mantissa is even. Below a power of two the
    numbers lie twice as dense. -/
def rounds (x : Binary64) (num den : Nat) : Bool :=
  let quarters := 4 * x.mantissa
  let below := if x.mantissa = Nat.pow 2 (precision - 1) ∧ minExponent < x.exponent then 1 else 2
  let (unit, scale) := ratio ⟨1, x.exponent - 2⟩
  let value := num * scale
  let low := (quarters - below) * unit * den
  let high := (quarters + 2) * unit * den
  if x.mantissa % 2 = 0 then low ≤ value && value ≤ high else low < value && value < high

/-- The multiple of `10 ^ exponent` that is nearest to `x` among its two
    neighbours that round to `x`; of two equally near the upper one. -/
def nearestOnGrid (x : Binary64) (exponent : Int) : Option Nat :=
  let (num, den) := x.ratio
  let (top, bottom) :=
    if 0 ≤ exponent then (num, den * Nat.pow 10 exponent.toNat)
    else (num * Nat.pow 10 (-exponent).toNat, den)
  let scale (n : Nat) : Nat × Nat :=
    if 0 ≤ exponent then (n * Nat.pow 10 exponent.toNat, 1) else (n, Nat.pow 10 (-exponent).toNat)
  let low := top / bottom
  let fits (n : Nat) : Bool := let (a, b) := scale n; x.rounds a b
  match fits low, fits (low + 1) with
  | true, true => if 2 * (top % bottom) < bottom then some low else some (low + 1)
  | true, false => some low
  | false, true => some (low + 1)
  | false, false => none

/-- The number of digits before the point of a number of at least one, and else
    minus the number of zeros that follow the point. -/
def decimalExponent (x : Binary64) : Int :=
  let (num, den) := x.ratio
  if den ≤ num then (Nat.toDigits 10 (num / den)).length
  else
    let zeros := (List.range 400).find? (fun k => den ≤ num * Nat.pow 10 (k + 1))
    Int.neg (zeros.getD 0)

/-- Tries decimals of `count` digits and more, at most `more` times. Just below a
    power of ten the nearest one is that power, which has fewer digits. -/
def shortestFrom (x : Binary64) (count more : Nat) : Decimal :=
  let exponent := x.decimalExponent - count
  match x.nearestOnGrid exponent, more with
  | some digits, _ => .reduce digits exponent
  | none, more + 1 => x.shortestFrom (count + 1) more
  | none, 0 => ⟨0, 0⟩

/-- The decimal with the fewest digits that rounds to `x`; seventeen always
    suffice. -/
def shortest (x : Binary64) : Decimal :=
  if x.mantissa = 0 then ⟨0, 0⟩ else x.shortestFrom 1 17

/-- The text of a decimal without an exponent, with at least one place. -/
def Decimal.positional (d : Decimal) : String :=
  if 0 ≤ d.exponent then
    toString d.digits ++ String.ofList (List.replicate d.exponent.toNat '0') ++ ".0"
  else
    let places := (-d.exponent).toNat
    let padded := (Text.padded (places + 1) d.digits).toList
    let cut := padded.length - places
    String.ofList (padded.take cut) ++ "." ++ String.ofList (padded.drop cut)

end Binary64

end InvariantInference
