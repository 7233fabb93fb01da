import SqlTree.Token.Basic

/-!
# Sources

A source hands out the significant tokens of a text. The trivia in front of a token go with it, and
the end of the input is a token of its own that carries the trivia left over and never runs out.

- `Lexeme`        : a significant token with the trivia in front of it
- `Lexeme.read`   : the first lexeme of the rest of a text
- `Source`        : the lexemes looked at and the text not read yet
- `Source.peek`, `Source.bump`, `Source.splitShift`, `Source.reset` : its operations
-/

namespace SqlTree

/-- A token as far as its place does not matter. -/
abbrev Leaf := Kind × List Char

structure Lexeme where
  kind : Kind
  text : List Char
  /-- The offset of the token. -/
  start : Nat
  /-- The trivia in front of the token. -/
  leading : List Leaf
  /-- The offset of the trivia in front, or of the token if there are none. -/
  fullStart : Nat
  deriving DecidableEq, Repr

namespace Lexeme

def stop (lexeme : Lexeme) : Nat := lexeme.start + Text.size lexeme.text

def span (lexeme : Lexeme) : Span := ⟨lexeme.start, lexeme.stop⟩

/-- The trivia in front and the token. -/
def leaves (lexeme : Lexeme) : List Leaf := lexeme.leading ++ [(lexeme.kind, lexeme.text)]

/-- The end of a text of `size` bytes, without trivia. -/
def eof (size : Nat) : Lexeme := ⟨.eof, [], size, [], size⟩

/-- The first lexeme of `rest`, which begins at byte `offset` of a text of `size` bytes, after the
trivia `leading` from `fullStart` on; with the offset after it and what follows. -/
def read (size fullStart : Nat) (leading : List Leaf) (offset : Nat) (rest : List Char) :
    Lexeme × Nat × List Char :=
  match _h : Token.split? rest with
  | none =>
    (⟨.eof, [], size, leading, if leading.isEmpty then size else fullStart⟩, offset, rest)
  | some (kind, text, rest') =>
    if kind.isTrivia then
      read size fullStart (leading ++ [(kind, text)]) (offset + Text.size text) rest'
    else (⟨kind, text, offset, leading, fullStart⟩, offset + Text.size text, rest')
termination_by rest.length
decreasing_by exact Token.length_of_split? _h

end Lexeme

structure Source where
  /-- The whole text. -/
  text : List Char
  /-- Its number of bytes. -/
  size : Nat
  /-- The lexemes that were looked at and not taken yet. -/
  buffer : List Lexeme
  /-- The offset of what has not been read. -/
  offset : Nat
  /-- What has not been read. -/
  rest : List Char
  /-- The offset up to which bytes were looked at. -/
  examined : Nat

namespace Source

/-- Bytes past the end of a token that reading it may depend on. -/
def readAhead : Nat := 3

def ofText (text : List Char) : Source where
  text := text
  size := Text.size text
  buffer := []
  offset := 0
  rest := text
  examined := 0

/-- Reads one more lexeme into the buffer. -/
def fetch (s : Source) : Source :=
  let (lexeme, offset, rest) := Lexeme.read s.size s.offset [] s.offset s.rest
  { s with
    buffer := s.buffer ++ [lexeme]
    offset := offset
    rest := rest
    examined := max s.examined (lexeme.stop + readAhead) }

/-- Reads `n` more lexemes. -/
def fetchMany : Nat → Source → Source
  | 0, s => s
  | n + 1, s => fetchMany n s.fetch

/-- The lexeme `n` places ahead. -/
def peek (s : Source) (n : Nat) : Lexeme × Source :=
  match s.buffer.drop n with
  | lexeme :: _ => (lexeme, s)
  | [] =>
    let s := fetchMany (n + 1 - s.buffer.length) s
    (s.buffer.getD n (Lexeme.eof s.size), s)

/-- Takes the next lexeme. -/
def bump (s : Source) : Lexeme × Source :=
  let (lexeme, s) := s.peek 0
  (lexeme, { s with buffer := s.buffer.tail })

/-- Reads a `>>` in front as two `>`, which close two brackets of a type. -/
def splitShift (s : Source) : Source :=
  match s.buffer with
  | front :: rest =>
    if front.kind = .shr then
      let middle := front.start + 1
      { s with buffer :=
          { front with kind := .gt, text := ['>'] } :: ⟨.gt, ['>'], middle, [], middle⟩ :: rest }
    else s
  | [] => s

/-- Notes that bytes up to `offset` matter for what has been read. -/
def markExamined (s : Source) (offset : Nat) : Source :=
  { s with examined := max s.examined offset }

/-- Forgets the buffer and goes on reading at `offset`; past the end, or inside a character, nothing
is left to read. -/
def reset (s : Source) (offset : Nat) : Source :=
  let offset := min offset s.size
  { s with buffer := [], offset := offset, rest := (Text.dropBytes? offset s.text).getD [] }

end Source
end SqlTree
