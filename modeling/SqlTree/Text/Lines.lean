import SqlTree.Text.Point

/-!
# Line table

The offsets at which the lines of a text begin, which turn byte offsets into points and back.
Offsets are kept in 32 bits.
-/

namespace SqlTree

structure Lines where
  /-- Offset of the first byte of every line, ascending. -/
  starts : List Nat
  /-- Bytes of the whole text. -/
  size : Nat
  deriving DecidableEq, Repr

namespace Lines

/-- The offsets just after the line feeds of a text that begins at byte `offset`. -/
def startsAfter (offset : Nat) : List Char → List Nat
  | [] => []
  | c :: cs =>
    let next := offset + c.utf8Size
    if c = '\n' then next :: startsAfter next cs else startsAfter next cs

def ofText (text : List Char) : Lines :=
  ⟨0 :: startsAfter 0 text, Text.size text⟩

/-- The number of lines; a text that ends in a line feed has an empty last line. -/
def count (lines : Lines) : Nat := lines.starts.length

def isEmpty (lines : Lines) : Bool := lines.size == 0

/-- The point of a byte offset; offsets past the end stand for the end. -/
def point (lines : Lines) (offset : Nat) : Point :=
  let offset := min offset lines.size
  let line := (lines.starts.takeWhile (· ≤ offset)).length - 1
  ⟨line, offset - lines.starts.getD line 0⟩

/-- The byte offset of a point. A column may reach as far as the start of the next line, and on the
last line as far as the end of the text. -/
def offset? (lines : Lines) (p : Point) : Option Nat :=
  (lines.starts[p.line]?).bind fun start =>
    let stop := (lines.starts[p.line + 1]?).getD lines.size
    if start + p.column ≤ stop then some (start + p.column) else none

/-- Offsets have 32 bits, so they are below this one. -/
def limit : Nat := 4294967296

/-- A line start and a column whose sum does not fit into 32 bits. -/
structure Overflow where
  start : Nat
  column : Nat
  deriving DecidableEq, Repr

/-- The byte offset of a point, where start and column are added before the sum is compared with the
end of the line. -/
def lookup (lines : Lines) (p : Point) : Except Overflow (Option Nat) :=
  match lines.starts[p.line]? with
  | some start =>
    if limit ≤ start + p.column then .error ⟨start, p.column⟩ else .ok (lines.offset? p)
  | none => .ok none

end Lines
end SqlTree
