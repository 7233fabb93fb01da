import SqlTree.Kind.Keyword

/-!
# Shapes of tokens

How far a token reaches, as a number of characters from the beginning of the rest of a text. The
longest match over all shapes is taken, and where no shape matches one character is unreadable.

- `Scan.number`  : decimal and hexadecimal numbers
- `Quote.open?`  : the opening of a string, a bytes literal or a quoted identifier
- `Quote.body`   : the content up to and including the closing quote
- `Scan.first`   : kind and length of the first token of a text
-/

namespace SqlTree

/-! ## Character classes -/

namespace Scan

/-- The five characters that separate tokens. -/
def isBlank (c : Char) : Bool :=
  c == ' ' || c == '\t' || c == '\r' || c == '\n' || c == '\x0c'

def isLetter (c : Char) : Bool := c.isAlpha

def isDigit (c : Char) : Bool := c.isDigit

def isHexDigit (c : Char) : Bool :=
  c.isDigit || ('a' ≤ c && c ≤ 'f') || ('A' ≤ c && c ≤ 'F')

def isWordStart (c : Char) : Bool := c.isAlpha || c == '_'

def isWordChar (c : Char) : Bool := c.isAlpha || c.isDigit || c == '_'

/-- The length of the longest run of a class at the beginning. -/
def run (p : Char → Bool) (cs : List Char) : Nat := (cs.takeWhile p).length

/-! ## Numbers -/

/-- The length of an exponent, zero unless a digit follows the mark and its sign. -/
def exponent : List Char → Nat
  | mark :: rest =>
    if mark == 'e' || mark == 'E' then
      let sign := if rest.head? == some '+' || rest.head? == some '-' then 1 else 0
      let digits := run isDigit (rest.drop sign)
      if digits = 0 then 0 else 1 + sign + digits
    else 0
  | [] => 0

/-- The length of `.` and the digits after it, if there is a point. -/
def fraction : List Char → Nat
  | '.' :: rest => 1 + run isDigit rest
  | _ => 0

/-- The length of a decimal number that begins with a digit, or with a point and a digit. -/
def decimal (cs : List Char) : Nat :=
  let digits := run isDigit cs
  let mantissa := digits + fraction (cs.drop digits)
  mantissa + exponent (cs.drop mantissa)

/-- The length of `0x` and at least one hexadecimal digit, zero if the text begins otherwise. -/
def hexadecimal : List Char → Nat
  | '0' :: x :: rest =>
    if x == 'x' || x == 'X' then
      let digits := run isHexDigit rest
      if digits = 0 then 0 else 2 + digits
    else 0
  | _ => 0

/-- Whether a number begins here. -/
def startsNumber : List Char → Bool
  | '.' :: c :: _ => isDigit c
  | c :: _ => isDigit c
  | [] => false

/-- The length of the number that begins here. -/
def number (cs : List Char) : Nat :=
  let hex := hexadecimal cs
  if hex = 0 then decimal cs else hex

/-! ## Block comments -/

/-- The length of a comment's content with its closing mark, if it is closed. -/
def commentBody? : List Char → Option Nat
  | '*' :: '/' :: _ => some 2
  | _ :: rest => (commentBody? rest).map (· + 1)
  | [] => none

end Scan

/-! ## Quoted tokens -/

/-- The opening of a quoted token: its kind, the number of letters in front of the quote, and the
quote, which also closes it. -/
structure Quote where
  kind : Kind
  letters : Nat
  mark : List Char
  deriving DecidableEq, Repr

namespace Quote

/-- The kind announced by the letters in front of a quote. -/
def kindOf? (letters : List Char) : Option Kind :=
  match letters.map Char.toLower with
  | [] | ['r'] => some .string
  | ['b'] | ['r', 'b'] | ['b', 'r'] => some .bytes
  | _ => none

/-- The quote at the beginning; three quotes go before one. -/
def mark? : List Char → Option (List Char)
  | '\'' :: '\'' :: '\'' :: _ => some ['\'', '\'', '\'']
  | '"' :: '"' :: '"' :: _ => some ['"', '"', '"']
  | '\'' :: _ => some ['\'']
  | '"' :: _ => some ['"']
  | _ => none

/-- The quoted token that opens here. -/
def open? (cs : List Char) : Option Quote :=
  match cs with
  | '\x60' :: _ => some ⟨.quotedIdent, 0, ['\x60']⟩
  | _ =>
    let letters := cs.takeWhile Scan.isLetter
    (kindOf? letters).bind fun kind =>
      (mark? (cs.drop letters.length)).map fun mark => ⟨kind, letters.length, mark⟩

/-- Whether the content may run over several lines. -/
def multiline (q : Quote) : Bool := q.mark.length == 3 || q.kind == .quotedIdent

/-- The length of the content with its closing quote, and whether it is closed. A backslash takes
the next character with it. Content of one line stops before a line feed. -/
def body (mark : List Char) (multiline : Bool) : List Char → Nat × Bool
  | [] => (0, false)
  | ['\\'] => (1, false)
  | '\\' :: _ :: rest =>
    let (length, closed) := body mark multiline rest
    (length + 2, closed)
  | c :: rest =>
    if c == '\n' && !multiline then (0, false)
    else if mark.isPrefixOf (c :: rest) then (mark.length, true)
    else
      let (length, closed) := body mark multiline rest
      (length + 1, closed)

/-- Kind and length of the quoted token that opens with `q`; unreadable if it is not closed. -/
def scan (q : Quote) (cs : List Char) : Kind × Nat :=
  let opening := q.letters + q.mark.length
  let (length, closed) := body q.mark q.multiline (cs.drop opening)
  (if closed then q.kind else .errorToken, opening + length)

end Quote

/-! ## The first token -/

namespace Scan

/-- The punctuation mark at the beginning, two characters before one. -/
def punct? : List Char → Option (Kind × Nat)
  | '!' :: '=' :: _ => some (.neq, 2)
  | '<' :: '>' :: _ => some (.neq, 2)
  | '<' :: '=' :: _ => some (.ltEq, 2)
  | '>' :: '=' :: _ => some (.gtEq, 2)
  | '|' :: '|' :: _ => some (.pipePipe, 2)
  | '<' :: '<' :: _ => some (.shl, 2)
  | '>' :: '>' :: _ => some (.shr, 2)
  | '(' :: _ => some (.lParen, 1)
  | ')' :: _ => some (.rParen, 1)
  | '[' :: _ => some (.lBracket, 1)
  | ']' :: _ => some (.rBracket, 1)
  | ',' :: _ => some (.comma, 1)
  | '.' :: _ => some (.dot, 1)
  | ';' :: _ => some (.semicolon, 1)
  | '*' :: _ => some (.star, 1)
  | '=' :: _ => some (.eq, 1)
  | '<' :: _ => some (.lt, 1)
  | '>' :: _ => some (.gt, 1)
  | '+' :: _ => some (.plus, 1)
  | '-' :: _ => some (.minus, 1)
  | '/' :: _ => some (.slash, 1)
  | '|' :: _ => some (.pipe, 1)
  | '&' :: _ => some (.amp, 1)
  | '^' :: _ => some (.caret, 1)
  | '~' :: _ => some (.tilde, 1)
  | '?' :: _ => some (.question, 1)
  | _ => none

/-- A comment at the beginning. An unclosed block comment is unreadable to the end. -/
def comment? : List Char → Option (Kind × Nat)
  | '-' :: '-' :: rest => some (.lineComment, 2 + run (· != '\n') rest)
  | '#' :: rest => some (.lineComment, 1 + run (· != '\n') rest)
  | '/' :: '*' :: rest =>
    match commentBody? rest with
    | some length => some (.blockComment, 2 + length)
    | none => some (.errorToken, 2 + rest.length)
  | _ => none

/-- A parameter `@name` or a system variable `@@name.field` at the beginning. -/
def parameter? : List Char → Option (Kind × Nat)
  | '@' :: '@' :: c :: rest =>
    if isWordStart c then
      some (.systemVariable, 3 + run (fun c => isWordChar c || c == '.') rest)
    else none
  | '@' :: c :: rest =>
    if isWordStart c then some (.parameter, 2 + run isWordChar rest) else none
  | _ => none

/-- An identifier or a keyword at the beginning. -/
def word? : List Char → Option (Kind × Nat)
  | c :: rest =>
    if isWordStart c then
      let text := c :: rest.takeWhile isWordChar
      some ((Kind.keyword? text).getD .ident, text.length)
    else none
  | [] => none

/-- A run of blanks at the beginning. -/
def blank? : List Char → Option (Kind × Nat)
  | c :: rest => if isBlank c then some (.whitespace, 1 + run isBlank rest) else none
  | [] => none

/-- A number at the beginning. -/
def number? (cs : List Char) : Option (Kind × Nat) :=
  if startsNumber cs then some (.number, number cs) else none

/-- A quoted token at the beginning. -/
def quoted? (cs : List Char) : Option (Kind × Nat) := (Quote.open? cs).map (·.scan cs)

/-- Kind and number of characters of the first token. Each shape is tried before those that match
a shorter beginning of the same text. -/
def first (cs : List Char) : Kind × Nat :=
  ((blank? cs).or <| (comment? cs).or <| (quoted? cs).or <| (word? cs).or <| (number? cs).or <|
    (parameter? cs).or <| punct? cs).getD (.errorToken, 1)

end Scan
end SqlTree
