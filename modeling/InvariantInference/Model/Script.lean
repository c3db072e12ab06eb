import InvariantInference.Session

/-!
# Scripts

A script makes the session of an implementation answer something else than what
a verification would.
-/

namespace InvariantInference

/-- A forced outcome, and a fault on one verification, counted from one (`SessionScript`). -/
structure Script where
  forced : Option Outcome
  faultOnAttempt : Option Nat
  faultKind : FaultKind
  deriving DecidableEq, Repr

namespace Script

/-- The script that changes nothing. -/
def plain : Script := ⟨none, none, .session⟩

end Script

end InvariantInference
