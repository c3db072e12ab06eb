import InvariantInference.Toml.Reader
import InvariantInference.Toml.Value

/-!
# Scalars

Blanks and comments, strings, numbers, dates and times of a document.
-/

namespace InvariantInference.Toml

namespace Reader

/-! ## Blanks -/

/-- Spaces and tabs. -/
def isBlank (c : Char) : Bool := c = ' ' || c = '\t'

/-- Whether a character may stand in a text as itself: a tab, or a character
    that is no control character. -/
def isPlain (c : Char) : Bool := c = '\t' || (0x20 ≤ c.toNat && c.toNat ≠ 0x7f)

/-- Any spaces and tabs. -/
def blanks : Reader Unit := discard (many (satisfy isBlank))

/-- The end of a line. -/
def newline : Reader Unit :=
  firstOf [discard (char '\n'), do discard (char '\r'); discard (char '\n')]

/-- A comment, up to the end of its line. -/
def comment : Reader Unit := do
  discard (char '#')
  discard (many (satisfy isPlain))

/-- Any blanks, line ends and comments. -/
def filler : Reader Unit :=
  discard (many (firstOf [discard (satisfy isBlank), newline, comment]))

/-! ## Strings -/

/-- The value of a hexadecimal digit. -/
def hexValue (c : Char) : Nat :=
  if c.isDigit then c.toNat - '0'.toNat else c.toLower.toNat - 'a'.toNat + 10

/-- Whether a character is a hexadecimal digit. -/
def isHexDigit (c : Char) : Bool :=
  c.isDigit || ('a' ≤ c && c ≤ 'f') || ('A' ≤ c && c ≤ 'F')

/-- The number that digits spell in a base. -/
def ofDigits (base : Nat) (digits : List Char) : Nat :=
  digits.foldl (fun n c => base * n + hexValue c) 0

/-- A character given by `count` hexadecimal digits. -/
def codePoint (count : Nat) : Reader Char := do
  let digits ← (List.replicate count (satisfy isHexDigit)).mapM id
  let code := ofDigits 16 digits
  check (decide code.isValidChar)
  return Char.ofNat code

/-- A character behind a backslash. -/
def escape : Reader Char := do
  discard (char '\\')
  match ← satisfy (fun _ => true) with
  | 'b' => return '\x08'
  | 't' => return '\t'
  | 'n' => return '\n'
  | 'f' => return '\x0c'
  | 'r' => return '\r'
  | '"' => return '"'
  | '\\' => return '\\'
  | 'u' => codePoint 4
  | 'U' => codePoint 8
  | _ => fail

/-- A string in double quotes on one line. -/
def basicString : Reader String := do
  discard (char '"')
  let chars ← many (firstOf [satisfy (fun c => isPlain c && c ≠ '"' && c ≠ '\\'), escape])
  discard (char '"')
  return String.ofList chars

/-- A string in single quotes on one line: everything stands for itself. -/
def literalString : Reader String := do
  discard (char '\'')
  let chars ← many (satisfy (fun c => isPlain c && c ≠ '\''))
  discard (char '\'')
  return String.ofList chars

/-- One or two quotes that do not belong to a closing delimiter. -/
def looseQuotes (quote : Char) : Reader (List Char) := do
  let quotes ← many1 (char quote)
  check (quotes.length < 3)
  return quotes

/-- The closing delimiter of a text over several lines, with up to two quotes
    before it that belong to the text. -/
def closingQuotes (quote : Char) : Reader (List Char) := do
  let quotes ← many1 (char quote)
  check (3 ≤ quotes.length && quotes.length ≤ 5)
  return quotes.drop 3

/-- A backslash at the end of a line, which removes all blanks and line ends up
    to the next text. -/
def lineContinuation : Reader Unit := do
  discard (char '\\')
  blanks
  newline
  discard (many (firstOf [discard (satisfy isBlank), newline]))

/-- A text over several lines in triple quotes. A line end just after the
    opening quotes is dropped; every other one is a line feed. -/
def multiline (quote : Char) (pieces : List (Reader (List Char))) : Reader String := do
  string (String.ofList [quote, quote, quote])
  discard (optional newline)
  let lineFeed : Reader (List Char) := do newline; return ['\n']
  let chunks ← many (firstOf (pieces ++ [lineFeed, looseQuotes quote]))
  let quotes ← closingQuotes quote
  return String.ofList (chunks.flatten ++ quotes)

/-- A string over several lines in double quotes. -/
def multilineBasic : Reader String :=
  multiline '"' [
    do return [← satisfy (fun c => isPlain c && c ≠ '"' && c ≠ '\\')],
    do lineContinuation; return [],
    do return [← escape]]

/-- A string over several lines in single quotes. -/
def multilineLiteral : Reader String :=
  multiline '\'' [do return [← satisfy (fun c => isPlain c && c ≠ '\'')]]

/-- A string of any of the four forms. -/
def text : Reader String :=
  firstOf [multilineBasic, basicString, multilineLiteral, literalString]

/-! ## Numbers -/

/-- Digits of a class, with single underscores between them. -/
def digitRun (p : Char → Bool) : Reader (List Char) := do
  let first ← satisfy p
  let more ← many (do discard (optional (char '_')); satisfy p)
  return first :: more

/-- A sign: whether it is a minus. -/
def sign : Reader Bool := do
  match ← optional (satisfy (fun c => c = '+' || c = '-')) with
  | some '-' => return true
  | _ => return false

/-- Decimal digits without a leading zero. -/
def naturalDigits : Reader (List Char) :=
  firstOf [
    do return [← char '0'],
    do
      let digits ← digitRun Char.isDigit
      check (digits.head? ≠ some '0')
      return digits]

/-- The integers of 64 bits. -/
def isInt64 (n : Int) : Bool := -9223372036854775808 ≤ n && n ≤ 9223372036854775807

/-- A number in another base behind its mark. -/
def basedInteger (mark : String) (base : Nat) (p : Char → Bool) : Reader Int := do
  string mark
  let digits ← digitRun p
  return ofDigits base digits

/-- An integer of 64 bits. -/
def integer : Reader Int := do
  let n ← firstOf [
    basedInteger "0x" 16 isHexDigit,
    basedInteger "0o" 8 (fun c => '0' ≤ c && c ≤ '7'),
    basedInteger "0b" 2 (fun c => c = '0' || c = '1'),
    do
      let negative ← sign
      let n := ofDigits 10 (← naturalDigits)
      return if negative then -n else n]
  check (isInt64 n)
  return n

/-- The exponent of a floating point number. -/
def exponent : Reader Int := do
  discard (satisfy (fun c => c = 'e' || c = 'E'))
  let negative ← sign
  let n := ofDigits 10 (← digitRun Char.isDigit)
  return if negative then -n else n

/-- The digits after the point. -/
def fraction : Reader (List Char) := do
  discard (char '.')
  digitRun Char.isDigit

/-- A floating point number with a fraction, an exponent or both. One above the
    finite range is refused; one below it is minus infinity. -/
def decimalFloat : Reader Floating := do
  let negative ← sign
  let whole ← naturalDigits
  let places ← optional fraction
  let power ← optional exponent
  check (places.isSome || power.isSome)
  let digits := whole ++ places.getD []
  match Binary64.ofDecimal? (ofDigits 10 digits) (power.getD 0 - (places.getD []).length) with
  | some magnitude => return .finite negative magnitude
  | none =>
    check negative
    return .infinite true

/-- A named floating point number. -/
def namedFloat : Reader Floating := do
  let negative ← sign
  firstOf [
    do string "inf"; return .infinite negative,
    do string "nan"; return .nan]

/-! ## Dates and times -/

/-- A number of exactly `count` digits within bounds. -/
def field (count low high : Nat) : Reader Nat := do
  let digits ← (List.replicate count (satisfy Char.isDigit)).mapM id
  let n := ofDigits 10 digits
  check (low ≤ n && n ≤ high)
  return n

/-- A calendar date. -/
def date : Reader Date := do
  let year ← field 4 0 9999
  discard (char '-')
  let month ← field 2 1 12
  discard (char '-')
  let day ← field 2 1 (Date.daysIn year month)
  return { year, month, day }

/-- The part of a second, in nanoseconds; digits that tell less are dropped. -/
def secondFraction : Reader Nat := do
  discard (char '.')
  let digits ← many1 (satisfy Char.isDigit)
  return ofDigits 10 ((digits ++ List.replicate 9 '0').take 9)

/-- A time of day. -/
def time : Reader Time := do
  let hour ← field 2 0 23
  discard (char ':')
  let minute ← field 2 0 59
  discard (char ':')
  let second ← field 2 0 60
  let nanosecond ← optional secondFraction
  return { hour, minute, second, nanosecond := nanosecond.getD 0 }

/-- The distance from universal time. -/
def offset : Reader Offset :=
  firstOf [
    do
      discard (satisfy (fun c => c = 'Z' || c = 'z'))
      return .universal,
    do
      let sign ← satisfy (fun c => c = '+' || c = '-')
      let hours ← field 2 0 23
      discard (char ':')
      let minutes ← field 2 0 59
      let east : Int := 60 * hours + minutes
      return .minutes (if sign = '-' then -east else east)]

/-- A date, a time, or a date with a time and perhaps an offset. -/
def moment : Reader Moment :=
  firstOf [
    do
      let d ← date
      let t ← optional (do
        discard (satisfy (fun c => c = 'T' || c = 't' || c = ' '))
        return (← time, ← optional offset))
      match t with
      | none => return .date d
      | some (t, o) => return .dateTime d t o,
    do return .time (← time)]

/-- A scalar value. -/
def scalar : Reader Value := do
  let read : Reader (Span → Value) :=
    firstOf [
      do let s ← text; return (.string · s),
      do string "true"; return (.boolean · true),
      do string "false"; return (.boolean · false),
      do let m ← moment; return (.datetime · m),
      do let x ← decimalFloat; return (.float · x),
      do let x ← namedFloat; return (.float · x),
      do let n ← integer; return (.integer · n)]
  let found ← located read
  return found.value found.span

end Reader

end InvariantInference.Toml
