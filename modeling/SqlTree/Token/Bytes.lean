import SqlTree.Token.Scan
import SqlTree.Text.Bytes

/-!
# Content scanned by bytes

The opening of a block comment, a quoted token or a decimal number is matched by characters. What
follows it is scanned over the bytes of the rest of the text, without regard to characters, and a
scan says how many bytes it takes and whether the token is complete.

- `ByteScan.comment`  : up to the first closing mark
- `ByteScan.quoted`   : up to the closing quote, the end of the line or the end of the text
- `ByteScan.number?`  : a fraction and an exponent
- `ByteScan.opening?` : the opening at the beginning of a text, with the scan that follows it
-/

namespace SqlTree
namespace ByteScan

/-- The offset of the first occurrence of a pattern. -/
def find? (pattern : List UInt8) : List UInt8 → Option Nat
  | [] => if pattern.isEmpty then some 0 else none
  | b :: rest =>
    if pattern.isPrefixOf (b :: rest) then some 0 else (find? pattern rest).map (· + 1)

/-- The content of a block comment with its closing mark; everything if it is not closed. -/
def comment (rest : List UInt8) : Nat × Bool :=
  match find? ['*'.toUInt8, '/'.toUInt8] rest with
  | some stop => (stop + 2, true)
  | none => (rest.length, false)

/-- The content of a quoted token from byte `i` on, with its closing quote. A backslash skips one
byte more, which may be the first of a longer character, or none at the end. -/
def quoted (closing : List UInt8) (multiline : Bool) (rest : List UInt8) (i : Nat) : Nat × Bool :=
  if _h : i < rest.length then
    if rest[i] = '\\'.toUInt8 then quoted closing multiline rest (i + 2)
    else if rest[i] = '\n'.toUInt8 && !multiline then (i, false)
    else if closing.isPrefixOf (rest.drop i) then (i + closing.length, true)
    else quoted closing multiline rest (i + 1)
  else (rest.length, false)
termination_by rest.length - i

def isDigit (b : UInt8) : Bool := '0'.toUInt8 ≤ b && b ≤ '9'.toUInt8

/-- The number of digits from a byte on, which must not be past the end. -/
def digits? (rest : List UInt8) (start : Nat) : Option Nat :=
  if start ≤ rest.length then some ((rest.drop start).takeWhile isDigit).length else none

/-- The fraction behind an integer. There is none if the number began with its point. -/
def fraction? (pointed : Bool) (rest : List UInt8) : Option Nat :=
  if !pointed && rest[0]? == some '.'.toUInt8 then (digits? rest 1).map (1 + ·) else some 0

/-- The exponent from a byte on, zero unless a digit follows the mark and its sign. -/
def exponent? (rest : List UInt8) (start : Nat) : Option Nat :=
  if rest[start]? == some 'e'.toUInt8 || rest[start]? == some 'E'.toUInt8 then
    let signed := rest[start + 1]? == some '+'.toUInt8 || rest[start + 1]? == some '-'.toUInt8
    let sign := if signed then 1 else 0
    (digits? rest (start + 1 + sign)).map fun digits =>
      if 0 < digits then 1 + sign + digits else 0
  else some 0

/-- The fraction and the exponent of a number. -/
def number? (pointed : Bool) (rest : List UInt8) : Option Nat :=
  (fraction? pointed rest).bind fun fraction => (exponent? rest fraction).map (fraction + ·)

/-- The beginning of a token, the kind of the token if it is complete, and the scan of the bytes
that follow. There is no result if the scan leaves the text. -/
structure Opening where
  kind : Kind
  text : List Char
  scan? : List UInt8 → Option (Nat × Bool)

/-- The digits of a decimal number in front of its fraction, with the point if it begins with it. -/
def integer : List Char → List Char
  | '.' :: rest => '.' :: rest.takeWhile Scan.isDigit
  | cs => cs.takeWhile Scan.isDigit

/-- The opening at the beginning of a text. -/
def opening? (cs : List Char) : Option Opening :=
  match cs with
  | '/' :: '*' :: _ => some ⟨.blockComment, ['/', '*'], fun rest => some (comment rest)⟩
  | _ =>
    match Quote.open? cs with
    | some q =>
      some ⟨q.kind, cs.take (q.letters + q.mark.length), fun rest =>
        some (quoted (Text.bytes q.mark) q.multiline rest 0)⟩
    | none =>
      if Scan.startsNumber cs && Scan.hexadecimal cs == 0 then
        some ⟨.number, integer cs, fun rest =>
          (number? (cs.head? == some '.') rest).map fun length => (length, true)⟩
      else none

end ByteScan
end SqlTree
