import InvariantInference.Token

/-!
# Reading tokens

Tokens are read by longest match: at each place that is not blank the longest
token that starts there is taken. A word is a keyword if it spells one. A place
where no token starts is an error that names the character found there.
-/

namespace InvariantInference

namespace Token

/-- The characters that may separate tokens. -/
def isBlank (c : Char) : Bool :=
  c = ' ' || c = '\t' || c = '\r' || c = '\n' || c = '\x0c'

/-- The characters that are operators by themselves. -/
def isSymbol (c : Char) : Bool :=
  ['<', '>', '+', '-', '*', '/', '%', '.', ',', '[', ']'].contains c

/-- The characters that start a word. -/
def isWordStart (c : Char) : Bool := c.isAlpha || c = '_'

/-- The characters that continue a word. -/
def isWordChar (c : Char) : Bool := c.isAlphanum || c = '_'

/-- The longest token at the head of `c :: cs`: its kind and the number of its
    characters in `cs`. -/
def munch? (c : Char) (cs : List Char) : Option (TokenKind × Nat) :=
  match c, cs with
  | '=', '=' :: '>' :: _ => some (.implies, 2)
  | '=', '=' :: _ => some (.eqEq, 1)
  | '|', '|' :: _ => some (.orOr, 1)
  | '&', '&' :: _ => some (.andAnd, 1)
  | '!', '=' :: _ => some (.op "!=", 1)
  | '<', '=' :: _ => some (.op "<=", 1)
  | '>', '=' :: _ => some (.op ">=", 1)
  | ':', '=' :: _ => some (.op ":=", 1)
  | '!', _ => some (.bang, 0)
  | '(', _ => some (.lparen, 0)
  | ')', _ => some (.rparen, 0)
  | c, cs =>
    if isSymbol c then
      some (.op c.toString, 0)
    else if c.isDigit then
      let digits := cs.takeWhile Char.isDigit
      some (.int (String.ofList (c :: digits)), digits.length)
    else if isWordStart c then
      let more := cs.takeWhile isWordChar
      some (.ofWord (String.ofList (c :: more)), more.length)
    else
      none

/-- The tokens of a text that starts at byte `pos`, with the end marker after
    them. Every token is ASCII, so its characters are its bytes. -/
def scan (pos : Nat) (cs : List Char) : Except SourceError (List Token) :=
  match cs with
  | [] => .ok [⟨.eof, ⟨pos, 0⟩⟩]
  | c :: rest =>
    if isBlank c then
      scan (pos + 1) rest
    else
      match munch? c rest with
      | none => .error ⟨.strayCharacter c, ⟨pos, c.utf8Size⟩⟩
      | some (kind, more) =>
        match scan (pos + (more + 1)) (rest.drop more) with
        | .ok tokens => .ok (⟨kind, ⟨pos, more + 1⟩⟩ :: tokens)
        | .error e => .error e
termination_by cs.length
decreasing_by
  · simp
  · simp only [List.length_cons, List.length_drop]
    omega

/-- The tokens of `source`, whose first byte is byte `base` of the text that holds it
    (`lex`). -/
def ofSource (source : String) (base : Nat) : Except SourceError (List Token) :=
  scan base source.toList

end Token

end InvariantInference
