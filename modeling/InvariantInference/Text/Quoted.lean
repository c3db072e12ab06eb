import InvariantInference.Text.Unprintable
import InvariantInference.Text.ExtendingMark

/-!
# Quoted text in messages

A string that a message quotes is written so that it can be told apart from the
message: quotes, backslashes and characters that do not show are escaped.
-/

namespace InvariantInference.Text

/-- Whether a character does not show by itself: it has no shape, or its shape is
    drawn on the character before it. -/
def isHidden (c : Char) : Bool := isUnprintable c || isExtendingMark c

/-- A character inside quotes. -/
def escapeChar (c : Char) : List Char :=
  match c with
  | '"' => ['\\', '"']
  | '\\' => ['\\', '\\']
  | '\n' => ['\\', 'n']
  | '\r' => ['\\', 'r']
  | '\t' => ['\\', 't']
  | '\x00' => ['\\', '0']
  | c =>
    if isHidden c then
      ['\\', 'u', '\x7b'] ++ Nat.toDigits 16 c.toNat ++ ['\x7d']
    else
      [c]

/-- A string in quotes. -/
def quoted (text : String) : String :=
  String.ofList ('"' :: text.toList.flatMap escapeChar ++ ['"'])

/-- A name in backquotes. -/
def ticked (name : String) : String := "`" ++ name ++ "`"

/-- What was expected, of the names that could stand in a place. -/
def expectedOneOf : List String → String
  | [] => "there are no variants"
  | [a] => "expected " ++ ticked a
  | [a, b] => "expected " ++ ticked a ++ " or " ++ ticked b
  | names => "expected one of " ++ String.intercalate ", " (names.map ticked)

end InvariantInference.Text
