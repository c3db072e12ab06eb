/-!
# Binary floating point

Non-negative numbers of the form `m * 2 ^ e` with at most 53 significant bits,
in exact arithmetic on natural numbers. An operation computes the exact
quotient of two naturals and rounds it to the nearest such number, a half going
to the even neighbour.
-/

namespace InvariantInference

/-- `num / den` rounded to the nearest natural, a half to the even neighbour. -/
def roundDiv (num den : Nat) : Nat :=
  let quotient := num / den
  let doubled := 2 * (num % den)
  if doubled < den then quotient
  else if den < doubled then quotient + 1
  else quotient + quotient % 2

/-- The non-negative number `mantissa * 2 ^ exponent`. -/
structure Binary64 where
  mantissa : Nat
  exponent : Int
  deriving DecidableEq, Repr

namespace Binary64

/-- The least exponent. -/
def minExponent : Int := -1074

/-- The number of significant bits. -/
def precision : Nat := 53

/-- Zero. -/
def zero : Binary64 := ⟨0, minExponent⟩

/-- The number as an exact quotient. -/
def ratio (x : Binary64) : Nat × Nat :=
  if 0 ≤ x.exponent then (x.mantissa * Nat.pow 2 x.exponent.toNat, 1)
  else (x.mantissa, Nat.pow 2 (-x.exponent).toNat)

/-- `num / den` as a multiple of `2 ^ exponent`, rounded. -/
def roundAt (num den : Nat) (exponent : Int) : Nat :=
  if 0 ≤ exponent then roundDiv num (den * Nat.pow 2 exponent.toNat)
  else roundDiv (num * Nat.pow 2 (-exponent).toNat) den

/-- The exponent at which `num / den` has 53 bits, or the least exponent. -/
def exponentOf (num den : Nat) : Int :=
  let guess : Int := (num.log2 : Int) - den.log2 - (precision - 1)
  let scaled :=
    if 0 ≤ guess then num / (den * Nat.pow 2 guess.toNat)
    else num * Nat.pow 2 (-guess).toNat / den
  let exact := if scaled < Nat.pow 2 (precision - 1) then guess - 1 else guess
  max exact minExponent

/-- The number nearest to `num / den`. -/
def ofRatio (num den : Nat) : Binary64 :=
  if num = 0 then zero
  else
    let exponent := exponentOf num den
    let mantissa := roundAt num den exponent
    if mantissa = Nat.pow 2 precision then ⟨Nat.pow 2 (precision - 1), exponent + 1⟩
    else ⟨mantissa, exponent⟩

/-- Whether the number is beyond the finite range of the format. -/
def overflows (x : Binary64) : Bool := 971 < x.exponent

/-- The number nearest to a natural. -/
def ofNat (n : Nat) : Binary64 := ofRatio n 1

/-- The rounded sum. -/
def add (x y : Binary64) : Binary64 :=
  let (a, b) := x.ratio
  let (c, d) := y.ratio
  ofRatio (a * d + c * b) (b * d)

/-- The rounded product. -/
def mul (x y : Binary64) : Binary64 :=
  let (a, b) := x.ratio
  let (c, d) := y.ratio
  ofRatio (a * c) (b * d)

/-- The rounded quotient. -/
def div (x y : Binary64) : Binary64 :=
  let (a, b) := x.ratio
  let (c, d) := y.ratio
  ofRatio (a * d) (b * c)

/-- The number nearest to `digits * 10 ^ exponent`, or `none` when it is beyond
    the finite range. Exponents far outside of that range are settled by the
    number of digits alone. -/
def ofDecimal? (digits : Nat) (exponent : Int) : Option Binary64 :=
  let magnitude := exponent + (Nat.toDigits 10 digits).length
  if digits = 0 ∨ magnitude < -400 then some zero
  else if 400 < magnitude then none
  else
    let x :=
      if 0 ≤ exponent then ofRatio (digits * Nat.pow 10 exponent.toNat) 1
      else ofRatio digits (Nat.pow 10 (-exponent).toNat)
    if x.overflows then none else some x

end Binary64

end InvariantInference
