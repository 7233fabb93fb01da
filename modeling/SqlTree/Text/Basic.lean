/-!
# Text measured in bytes

A text is a list of characters. Every offset, column and range counts the bytes of its UTF-8 form,
so a cut is only possible between two characters:

- `size`     : the number of bytes of a text
- `splitAt?` : the two parts of a text around a byte offset, if the offset is between characters
- `Span`     : a half-open range of byte offsets
-/

namespace SqlTree
namespace Text

/-- The number of bytes of a text. -/
def size : List Char → Nat
  | [] => 0
  | c :: cs => c.utf8Size + size cs

/-- The parts before and after byte `n`. There are none if `n` is past the end or inside a
character. -/
def splitAt? (n : Nat) : List Char → Option (List Char × List Char)
  | [] => if n = 0 then some ([], []) else none
  | c :: cs =>
    if n = 0 then some ([], c :: cs)
    else if c.utf8Size ≤ n then
      (splitAt? (n - c.utf8Size) cs).map fun (before, after) => (c :: before, after)
    else none

/-- Whether byte `n` is between two characters, or at an end of the text. -/
def isBoundary (n : Nat) (text : List Char) : Bool :=
  (splitAt? n text).isSome

/-- The text from byte `n` on. -/
def dropBytes? (n : Nat) (text : List Char) : Option (List Char) :=
  (splitAt? n text).map Prod.snd

/-- The text between the bytes `start` and `stop`, if both are boundaries in this order. -/
def slice? (start stop : Nat) (text : List Char) : Option (List Char) :=
  if start ≤ stop then
    (dropBytes? start text).bind fun rest => (splitAt? (stop - start) rest).map Prod.fst
  else none

/-! ## Size of texts -/

@[simp]
theorem size_nil : size [] = 0 := rfl

@[simp]
theorem size_cons (c : Char) (cs : List Char) : size (c :: cs) = c.utf8Size + size cs := rfl

@[simp]
theorem size_append (a b : List Char) : size (a ++ b) = size a + size b := by
  induction a with
  | nil => simp
  | cons c a ih => simp [ih, Nat.add_assoc]

theorem append_of_splitAt? {n : Nat} {text a b : List Char} (h : splitAt? n text = some (a, b)) :
    text = a ++ b ∧ size a = n := by
  induction text generalizing n a b with
  | nil =>
    simp only [splitAt?] at h
    split at h <;> simp_all
  | cons c cs ih =>
    simp only [splitAt?] at h
    split at h
    · simp_all
    · split at h
      · obtain ⟨⟨a', b'⟩, hab, heq⟩ := Option.map_eq_some_iff.1 h
        simp only [Prod.mk.injEq] at heq
        obtain ⟨rfl, rfl⟩ := heq
        obtain ⟨rfl, hsize⟩ := ih hab
        simp only [List.cons_append, size_cons, hsize, true_and]
        omega
      · simp at h

theorem splitAt?_size_append (a b : List Char) : splitAt? (size a) (a ++ b) = some (a, b) := by
  induction a with
  | nil => cases b <;> simp [splitAt?]
  | cons c a ih =>
    have hpos := c.utf8Size_pos
    have hne : ¬ c.utf8Size + size a = 0 := by omega
    rw [List.cons_append, size_cons, splitAt?, if_neg hne, if_pos (by omega),
      Nat.add_sub_cancel_left, ih]
    rfl

end Text

/-- A half-open range of byte offsets. -/
structure Span where
  start : Nat
  stop : Nat
  deriving DecidableEq, Repr

namespace Span

/-- The empty range at one offset. -/
def empty (offset : Nat) : Span := ⟨offset, offset⟩

def isEmpty (s : Span) : Bool := s.start == s.stop

/-- Whether `inner` lies inside `s`. -/
def contains (s inner : Span) : Bool := s.start ≤ inner.start && inner.stop ≤ s.stop

end Span
end SqlTree
