/-!
# Ranges of code points

A class of characters is held as the closed ranges of its code points, in
ascending order.
-/

namespace InvariantInference.Text

/-- Whether a code point lies in one of some ascending ranges. -/
def inRanges : List (Nat × Nat) → Nat → Bool
  | [], _ => false
  | (low, high) :: rest, n => if n ≤ high then low ≤ n else inRanges rest n

/-- Whether ranges are not empty, ascend, and do not touch each other. -/
def rangesApart : List (Nat × Nat) → Bool
  | [] => true
  | [(low, high)] => low ≤ high
  | (low, high) :: (low', high') :: rest =>
    low ≤ high && high + 1 < low' && rangesApart ((low', high') :: rest)

/-- How many code points lie in ranges that are apart. -/
def rangesSize (ranges : List (Nat × Nat)) : Nat :=
  ranges.foldl (fun n (low, high) => n + (high + 1 - low)) 0

end InvariantInference.Text
