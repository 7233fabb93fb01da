import SqlTree.Text.Basic

/-!
# Cutting texts

A text can be cut at the size of any of its beginnings, and there is only one way to do it.

- `Text.append_inj`           : there is one way to cut a text at an offset
- `Text.exists_of_isBoundary` : a boundary is the size of a beginning
- `Text.exists_of_dropBytes?`, `Text.exists_of_slice?` : the parts that are left out
-/

namespace SqlTree
namespace Text

variable {text word rest : List Char}

/-! ## Size -/

@[simp]
theorem size_reverse (text : List Char) : size text.reverse = size text := by
  induction text with
  | nil => rfl
  | cons c cs ih =>
    rw [List.reverse_cons, size_append, ih, size_cons, size_cons, size_nil]
    omega

theorem count_le_size (c : Char) (text : List Char) : text.count c ≤ size text := by
  induction text with
  | nil => exact Nat.le_refl 0
  | cons d cs ih =>
    have hpos := d.utf8Size_pos
    rw [List.count_cons, size_cons]
    split <;> omega

/-! ## Beginnings -/

theorem eq_nil_of_size_eq_zero {text : List Char} (h : size text = 0) : text = [] := by
  cases text with
  | nil => rfl
  | cons c cs =>
    have := c.utf8Size_pos
    simp only [size_cons] at h
    omega

/-- A shorter beginning of a text is a beginning of a longer one. -/
theorem exists_append_of_size_le {a b c d : List Char} (h : a ++ b = c ++ d)
    (hsize : size a ≤ size c) : ∃ w, c = a ++ w ∧ b = w ++ d := by
  rcases List.append_eq_append_iff.1 h with ⟨w, hc, hb⟩ | ⟨w, ha, hd⟩
  · exact ⟨w, hc, hb⟩
  · have hnil : w = [] := by
      rw [ha, size_append] at hsize
      exact eq_nil_of_size_eq_zero (by omega)
    subst hnil
    exact ⟨[], by simpa using ha.symm, by simpa using hd.symm⟩

theorem append_inj {a b c d : List Char} (h : a ++ b = c ++ d) (hsize : size a = size c) :
    a = c ∧ b = d := by
  obtain ⟨w, hc, hb⟩ := exists_append_of_size_le h (Nat.le_of_eq hsize)
  have hnil : w = [] := by
    rw [hc, size_append] at hsize
    exact eq_nil_of_size_eq_zero (by omega)
  subst hnil
  exact ⟨by simpa using hc.symm, by simpa using hb⟩

theorem dropBytes?_size_append (a b : List Char) : dropBytes? (size a) (a ++ b) = some b := by
  simp [dropBytes?, splitAt?_size_append]

/-! ## Boundaries and slices -/

theorem exists_of_isBoundary {n : Nat} {text : List Char} (h : isBoundary n text = true) :
    ∃ before after, text = before ++ after ∧ size before = n := by
  obtain ⟨⟨before, after⟩, hsplit⟩ := Option.isSome_iff_exists.1 h
  exact ⟨before, after, append_of_splitAt? hsplit⟩

theorem isBoundary_size_append (a b : List Char) : isBoundary (size a) (a ++ b) = true := by
  simp [isBoundary, splitAt?_size_append]

theorem slice?_size_append (a b c : List Char) :
    slice? (size a) (size (a ++ b)) (a ++ b ++ c) = some b := by
  rw [slice?, if_pos (by simp), List.append_assoc, dropBytes?_size_append, size_append,
    Nat.add_sub_cancel_left, Option.bind_some, splitAt?_size_append]
  rfl

theorem slice?_zero_size_append (a b : List Char) : slice? 0 (size a) (a ++ b) = some a :=
  slice?_size_append [] a b

theorem exists_of_dropBytes? {n : Nat} (h : dropBytes? n text = some rest) :
    ∃ before, text = before ++ rest ∧ size before = n := by
  obtain ⟨⟨before, rest⟩, hcut, rfl⟩ := Option.map_eq_some_iff.1 h
  exact ⟨before, append_of_splitAt? hcut⟩

theorem dropBytes?_add {n : Nat} (h : dropBytes? n text = some (word ++ rest)) :
    dropBytes? (n + size word) text = some rest := by
  obtain ⟨before, rfl, rfl⟩ := exists_of_dropBytes? h
  rw [← size_append, ← List.append_assoc, dropBytes?_size_append]

theorem isBoundary_of_dropBytes? {n : Nat} (h : dropBytes? n text = some rest) :
    isBoundary n text = true := by
  obtain ⟨cut, hcut, -⟩ := Option.map_eq_some_iff.1 h
  rw [isBoundary, hcut]
  rfl

theorem exists_of_slice? {start stop : Nat} {text word : List Char}
    (h : slice? start stop text = some word) :
    ∃ before after, text = before ++ (word ++ after) ∧ size before = start := by
  simp only [slice?, Option.ite_none_right_eq_some] at h
  obtain ⟨rest, hdrop, hcut⟩ := Option.bind_eq_some_iff.1 h.2
  obtain ⟨⟨word, after⟩, hword, rfl⟩ := Option.map_eq_some_iff.1 hcut
  obtain ⟨before, rfl, hbefore⟩ := exists_of_dropBytes? hdrop
  obtain ⟨rfl, -⟩ := append_of_splitAt? hword
  exact ⟨before, after, rfl, hbefore⟩

end Text
end SqlTree
