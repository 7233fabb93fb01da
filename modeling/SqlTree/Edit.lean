import SqlTree.Text.Lines

/-!
# Edits

An edit replaces a range of bytes of an old text by a range of bytes of a new one, both of which
begin at the same offset.

- `Edit.replace`   : the edit and the new text of a replacement
- `Edit.validate`  : whether an edit fits two texts
- `Edit.oldOffset?` : where a byte of the new text was before
-/

namespace SqlTree

structure Edit where
  start : Nat
  oldStop : Nat
  newStop : Nat
  startPoint : Point
  oldStopPoint : Point
  newStopPoint : Point
  deriving DecidableEq, Repr

inductive EditError where
  | invertedRange (start stop : Nat)
  | outOfBounds (offset size : Nat)
  | lengthMismatch (expected actual : Nat)
  | notCharBoundary (offset : Nat)
  deriving DecidableEq, Repr

def EditError.message : EditError → String
  | invertedRange start stop =>
    "edit range is inverted: start " ++ toString start ++ " is after end " ++ toString stop
  | outOfBounds offset size =>
    "edit offset " ++ toString offset ++ " is beyond the end of the text (" ++ toString size ++
      " bytes)"
  | lengthMismatch expected actual =>
    "new text is " ++ toString actual ++ " bytes long, the edit implies " ++ toString expected
  | notCharBoundary offset => "edit offset " ++ toString offset ++ " is not on a char boundary"

namespace Edit

/-- A range has to be ordered, inside the text and between characters. -/
def checkRange (text : List Char) (start stop : Nat) : Except EditError Unit :=
  if stop < start then .error (.invertedRange start stop)
  else if Text.size text < stop then .error (.outOfBounds stop (Text.size text))
  else if !Text.isBoundary start text then .error (.notCharBoundary start)
  else if !Text.isBoundary stop text then .error (.notCharBoundary stop)
  else .ok ()

/-- The text with the bytes from `start` to `stop` replaced. -/
def splice (text : List Char) (start stop : Nat) (insert : List Char) : List Char :=
  ((Text.slice? 0 start text).getD []) ++ insert ++ ((Text.dropBytes? stop text).getD [])

/-- Replaces the bytes from `start` to `stop` by `insert`. -/
def replace (text : List Char) (start stop : Nat) (insert : List Char) :
    Except EditError (Edit × List Char) := do
  checkRange text start stop
  let lines := Lines.ofText text
  let startPoint := lines.point start
  return (⟨start, stop, start + Text.size insert, startPoint, lines.point stop,
    startPoint.advance insert⟩, splice text start stop insert)

/-- The bytes added, negative if the text got shorter. -/
def delta (edit : Edit) : Int := (edit.newStop : Int) - edit.oldStop

/-- Whether both ranges fit their texts and account for the length of the new one. -/
def validate (edit : Edit) (old new : List Char) : Except EditError Unit := do
  checkRange old edit.start edit.oldStop
  checkRange new edit.start edit.newStop
  let expected := Text.size old - edit.oldStop + edit.newStop
  if Text.size new = expected then .ok () else .error (.lengthMismatch expected (Text.size new))

/-- The offset in the old text of a byte of the new one; none inside the replacement. -/
def oldOffset? (edit : Edit) (offset : Nat) : Option Nat :=
  if offset < edit.start then some offset
  else if edit.newStop ≤ offset then some (offset - edit.newStop + edit.oldStop)
  else none

end Edit
end SqlTree
