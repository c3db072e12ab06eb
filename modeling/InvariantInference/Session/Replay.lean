import InvariantInference.Dictionary
import InvariantInference.Expr.Printer
import InvariantInference.Session

/-!
# Replay sessions

A replay session answers from a list of replies that is given beforehand, one
for every push, and logs the calls that are made on it. After the last reply
everything succeeds and is correct.
-/

namespace InvariantInference.Replay

/-- What a replay session answers from one push to the next. -/
structure Reply where
  verdict : Verdict
  pushFault : Option (FaultKind × String)
  verifyFault : Option (FaultKind × String)
  popFault : Option (FaultKind × String)
  deriving DecidableEq, Repr

namespace Reply

/-- The reply after the last one that is given. -/
def success : Reply := ⟨.ofOutcome .correct, none, none, none⟩

end Reply

/-- The state of a session. -/
structure Session where
  name : String
  /-- The reply that holds at the moment. -/
  current : Reply
  /-- The replies to the pushes to come. -/
  upcoming : List Reply
  /-- The calls that were made, in order. -/
  log : List String
  deriving DecidableEq, Repr

namespace Session

/-- A call that succeeds with `value` unless a fault is planned for it. -/
def answer {α : Type} (s : Session) (fault : Option (FaultKind × String)) (value : α) :
    Except Fault α :=
  match fault with
  | some (kind, message) => .error ⟨s.name, kind, message⟩
  | none => .ok value

/-- The session with one more call in its log. -/
def record (s : Session) (call : String) : Session := { s with log := s.log ++ [call] }

/-- Goes to the next reply. -/
def push (s : Session) (hypothesis : Expr) : Except Fault Unit × Session :=
  let s := s.record ("push " ++ hypothesis.renderHypothesis)
  let s := { s with current := s.upcoming.head?.getD .success, upcoming := s.upcoming.tail }
  (s.answer s.current.pushFault (), s)

/-- Answers the verdict of the current reply. -/
def verify (s : Session) : Except Fault Verdict × Session :=
  let s := s.record "verify"
  (s.answer s.current.verifyFault s.current.verdict, s)

/-- Ends the use of the current reply. -/
def pop (s : Session) : Except Fault Unit × Session :=
  let s := s.record "pop"
  (s.answer s.current.popFault (), s)

instance : InvariantInference.Session Session where
  push := push
  verify := verify
  pop := pop

end Session

/-- Opens replay sessions, but for the implementation `refused`. -/
def oracle (replies : Dictionary (List Reply)) (refused : Option String) : Oracle Session :=
  fun _ i =>
    if refused = some i.name.value then
      .error ⟨i.name.value, .unexpectedOutput, "session refused"⟩
    else
      .ok ⟨i.name.value, .success, (replies.get? i.name.value).getD [], []⟩

end InvariantInference.Replay
