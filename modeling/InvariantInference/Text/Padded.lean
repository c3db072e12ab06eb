/-!
# Numbers of a fixed width

Digits filled up with zeros on the left, and fractions cut off after their last
digit that counts.
-/

namespace InvariantInference.Text

/-- A number in decimal, filled up with zeros on the left to `width` digits. -/
def padded (width n : Nat) : String :=
  let digits := toString n
  String.ofList (List.replicate (width - digits.length) '0') ++ digits

/-- A text without the zeros at its end. -/
def dropTrailingZeros (text : String) : String :=
  String.ofList (text.toList.reverse.dropWhile (· = '0')).reverse

end InvariantInference.Text
