import SqlTree.Text.Basic

/-!
# Points

A point is a zero-based line and a zero-based column in bytes. Only a line feed ends a line.
-/

namespace SqlTree

structure Point where
  line : Nat
  column : Nat
  deriving DecidableEq, Repr, Inhabited

namespace Point

/-- The beginning of a text. -/
def origin : Point := ⟨0, 0⟩

/-- Points in the order of a text: by line, and by column on one line. -/
instance : LT Point := ⟨fun p q => p.line < q.line ∨ p.line = q.line ∧ p.column < q.column⟩

instance (p q : Point) : Decidable (p < q) :=
  inferInstanceAs (Decidable (p.line < q.line ∨ p.line = q.line ∧ p.column < q.column))

theorem lt_iff {p q : Point} :
    p < q ↔ p.line < q.line ∨ p.line = q.line ∧ p.column < q.column := Iff.rfl

/-- The point reached by walking over `text`: every line feed is one line down, and after the last
of them the columns count from zero. -/
def advance (p : Point) (text : List Char) : Point :=
  if '\n' ∈ text then
    ⟨p.line + text.count '\n', Text.size (text.reverse.takeWhile (· != '\n'))⟩
  else
    ⟨p.line, p.column + Text.size text⟩

/-- The one-based form shown to people, `line:column`. -/
def display (p : Point) : String :=
  toString (p.line + 1) ++ ":" ++ toString (p.column + 1)

end Point
end SqlTree
