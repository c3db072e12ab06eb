/-!
# Options of a run
-/

namespace InvariantInference

/-- What happens to an implementation after a refutation. -/
inductive Schedule where
  /-- It is verified again until it leaves the worklist. -/
  | spin
  /-- It moves to the end of the worklist. -/
  | roundRobin
  deriving DecidableEq, Repr

namespace Schedule

/-- All schedules. -/
def all : List Schedule := [spin, roundRobin]

/-- The name of a schedule. -/
def label : Schedule → String
  | spin => "spin"
  | roundRobin => "round-robin"

end Schedule

/-- How a run reports its end. -/
inductive RunEnd where
  | normal
  | abnormal
  deriving DecidableEq, Repr

namespace RunEnd

/-- All ends. -/
def all : List RunEnd := [normal, abnormal]

/-- The name of an end in manifests and reports for programs. -/
def label : RunEnd → String
  | normal => "normal"
  | abnormal => "abnormal"

/-- The name of an end in traces. -/
def render : RunEnd → String
  | normal => "Normal"
  | abnormal => "Abnormal"

end RunEnd

/-- The options of a run: whether it goes on refining after a genuine violation, its
    schedule, and the end that a flushed run reports (`HoudiniConfig`). -/
structure Config where
  continueAtError : Bool
  schedule : Schedule
  flushEnd : RunEnd
  deriving DecidableEq, Repr

namespace Config

/-- The options that hold where none are given. -/
def standard : Config := ⟨false, .spin, .abnormal⟩

end Config

end InvariantInference
