import InvariantInference.Binary64.Decimal
import InvariantInference.Event.Trace

/-!
# Stopwatches

A stopwatch keeps the time that every round took, by implementation. Times are
nanoseconds; the table shows milliseconds and seconds with three places.
-/

namespace InvariantInference

/-- The times of the rounds of each implementation, in the order in which the
    implementations were first verified (`IterationTimer`). -/
structure Stopwatch where
  times : List (String × List Nat)
  deriving DecidableEq, Repr

namespace Stopwatch

/-- No rounds yet. -/
def empty : Stopwatch := ⟨[]⟩

/-- Adds a time to those of an implementation. -/
def addTo (name : String) (nanoseconds : Nat) : List (String × List Nat) → List (String × List Nat)
  | [] => [(name, [nanoseconds])]
  | (n, list) :: rest =>
    if n = name then (n, list ++ [nanoseconds]) :: rest
    else (n, list) :: addTo name nanoseconds rest

/-- One more round (`add_time`). -/
def add (s : Stopwatch) (name : String) (nanoseconds : Nat) : Stopwatch :=
  ⟨addTo name nanoseconds s.times⟩

/-- The stopwatch after some rounds. -/
def ofRounds (rounds : List (String × Nat)) : Stopwatch :=
  rounds.foldl (fun s (name, nanoseconds) => s.add name nanoseconds) empty

/-- The time of all rounds. -/
def total (s : Stopwatch) : Nat := (s.times.flatMap (·.2)).foldl (· + ·) 0

/-- The number of rounds. -/
def rounds (s : Stopwatch) : Nat := (s.times.flatMap (·.2)).length

/-- Nanoseconds in a second. -/
def second : Nat := 1000000000

/-- A time in seconds: whole seconds and the rest are each rounded, then added. -/
def seconds (nanoseconds : Nat) : Binary64 :=
  .add (.ofNat (nanoseconds / second)) (.div (.ofNat (nanoseconds % second)) (.ofNat second))

/-- A time in milliseconds. -/
def milliseconds (nanoseconds : Nat) : Binary64 := .mul (seconds nanoseconds) (.ofNat 1000)

/-- The time of a round on average, in seconds. -/
def average (s : Stopwatch) : Binary64 :=
  if s.rounds = 0 then .zero else .div (seconds s.total) (.ofNat s.rounds)

/-- The places that times are shown with. -/
def places : Nat := 3

/-- The lines for one implementation. -/
def implementationLines (name : String) (list : List Nat) : List String :=
  ("Times for " ++ name ++ ":") :: list.zipIdx.map (fun (time, i) =>
    "  (" ++ toString i ++ ")\t" ++ (milliseconds time).fixed places ++ "ms")

/-- The table of all times (`print_times`). -/
def render (s : Stopwatch) : String :=
  Trace.ofLines ([Trace.rule, "Times for each iteration for each implementation", Trace.rule,
    "Total implementations: " ++ toString s.times.length] ++
    s.times.flatMap (fun (name, list) => implementationLines name list) ++
    ["Total time: " ++ (seconds s.total).fixed places ++ " (s)",
      "Avg: " ++ s.average.fixed places ++ " (s/iter)"])

end Stopwatch

end InvariantInference
