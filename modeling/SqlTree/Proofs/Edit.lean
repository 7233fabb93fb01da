import SqlTree.Proofs.Lossless

/-!
# Old nodes in the new text

A replacement leaves the text in front of it and behind it as it was. An old node that may be taken
over lies in one of these parts, so the new text spells it where the parser looks for it.

- `Edit.replace_spec`    : both texts of a replacement, cut into their parts
- `Edit.validate_of_replace` : a replacement fits its texts
- `Reuse.find?_spec`     : what is known about a node that is found
- `Reuse.truthful_ofRoot` : it is spelled by the new text at the place where it was looked for
-/

namespace SqlTree

/-! ## Replacements -/

namespace Edit

variable {text new insert : List Char} {start stop : Nat} {edit : Edit}

theorem checkRange_eq_ok {before middle after : List Char} :
    checkRange (before ++ middle ++ after) (Text.size before) (Text.size (before ++ middle)) =
      .ok () := by
  have hstart := Text.isBoundary_size_append before (middle ++ after)
  have hstop := Text.isBoundary_size_append (before ++ middle) after
  rw [← List.append_assoc] at hstart
  rw [checkRange, if_neg (by simp), if_neg (by simp), if_neg (by rw [hstart]; simp),
    if_neg (by rw [hstop]; simp)]

theorem checkRange_eq_ok_iff : checkRange text start stop = .ok () ↔
    start ≤ stop ∧ stop ≤ Text.size text ∧ Text.isBoundary start text = true ∧
      Text.isBoundary stop text = true := by
  grind [checkRange]

theorem exists_of_checkRange (h : checkRange text start stop = .ok ()) :
    ∃ before middle after, text = before ++ middle ++ after ∧ start = Text.size before ∧
      stop = Text.size (before ++ middle) := by
  obtain ⟨hle, -, hstart, hstop⟩ := checkRange_eq_ok_iff.1 h
  obtain ⟨before, rest, htext, hbefore⟩ := Text.exists_of_isBoundary hstart
  obtain ⟨front, after, htext', hfront⟩ := Text.exists_of_isBoundary hstop
  obtain ⟨middle, hmiddle, -⟩ := Text.exists_append_of_size_le (htext ▸ htext') (by omega)
  exact ⟨before, middle, after, by rw [htext', hmiddle], hbefore.symm, by rw [← hmiddle, hfront]⟩

theorem splice_append (before middle after insert : List Char) :
    splice (before ++ middle ++ after) (Text.size before) (Text.size (before ++ middle)) insert =
      before ++ insert ++ after := by
  have hbefore := Text.slice?_zero_size_append before (middle ++ after)
  rw [← List.append_assoc] at hbefore
  rw [splice, hbefore, Text.dropBytes?_size_append]
  rfl

theorem replace_of_checkRange (h : checkRange text start stop = .ok ()) :
    replace text start stop insert =
      .ok (⟨start, stop, start + Text.size insert, (Lines.ofText text).point start,
        (Lines.ofText text).point stop, ((Lines.ofText text).point start).advance insert⟩,
        splice text start stop insert) := by
  unfold replace
  rw [h]
  rfl

theorem checkRange_of_replace {result : Edit × List Char}
    (h : replace text start stop insert = .ok result) : checkRange text start stop = .ok () := by
  unfold replace at h
  cases hcheck : checkRange text start stop with
  | error e =>
    rw [hcheck] at h
    cases h
  | ok u => rfl

/-- Both texts of a replacement agree before and after it. -/
theorem replace_spec (h : replace text start stop insert = .ok (edit, new)) :
    ∃ before middle after, text = before ++ middle ++ after ∧ new = before ++ insert ++ after ∧
      edit.start = Text.size before ∧ edit.oldStop = Text.size (before ++ middle) ∧
      edit.newStop = Text.size (before ++ insert) := by
  have hcheck := checkRange_of_replace h
  rw [replace_of_checkRange hcheck] at h
  cases h
  obtain ⟨before, middle, after, rfl, rfl, rfl⟩ := exists_of_checkRange hcheck
  exact ⟨before, middle, after, rfl, splice_append before middle after insert, rfl, rfl, by simp⟩

theorem validate_eq_ok_iff : edit.validate text new = .ok () ↔
    checkRange text edit.start edit.oldStop = .ok () ∧
      checkRange new edit.start edit.newStop = .ok () ∧
      Text.size new = Text.size text - edit.oldStop + edit.newStop := by
  unfold validate
  cases checkRange text edit.start edit.oldStop with
  | error e => exact ⟨fun h => (by cases h), fun h => (by cases h.1)⟩
  | ok u =>
    cases checkRange new edit.start edit.newStop with
    | error e => exact ⟨fun h => (by cases h), fun h => (by cases h.2.1)⟩
    | ok v => simp [bind, Except.bind]

/-- A replacement fits its texts. -/
theorem validate_of_replace (h : replace text start stop insert = .ok (edit, new)) :
    edit.validate text new = .ok () := by
  obtain ⟨before, middle, after, rfl, rfl, hstart, hold, hnew⟩ := replace_spec h
  refine validate_eq_ok_iff.2 ⟨?_, ?_, ?_⟩
  · rw [hstart, hold]
    exact checkRange_eq_ok
  · rw [hstart, hnew]
    exact checkRange_eq_ok
  · rw [hold, hnew]
    simp only [Text.size_append]
    omega

end Edit

/-! ## Nodes that are found -/

namespace Reuse

variable {table : Table} {state offset : Nat} {old root : Element} {edit : Edit}

/-- A node that is found stands in the old tree, in front of the edit or behind it. -/
theorem find?_spec (h : (ofRoot root edit).find? table state offset = some old) :
    ∃ v origin, v.element = old ∧ v ∈ root.visits ∧ edit.oldOffset? offset = some v.start ∧
      old.origin? = some origin ∧ origin.reusable = true ∧ origin.state = state ∧
      old.kind.isErrorOrMissing = false ∧ 0 < old.size ∧
      (v.start + origin.lookahead ≤ edit.start ∨ edit.oldStop ≤ v.start) := by
  obtain ⟨place, hplace, h⟩ := Option.bind_eq_some_iff.1 h
  obtain ⟨v, hfind, rfl⟩ := Option.map_eq_some_iff.1 h
  have hmem := List.mem_of_find?_eq_some hfind
  have hcond := List.find?_some hfind
  simp only [Bool.and_eq_true, beq_iff_eq] at hcond
  obtain ⟨rfl, hfits⟩ := hcond
  have hvisit : v ∈ root.visits := List.mem_of_mem_tail (List.mem_filter.1 hmem).1
  unfold fits at hfits
  split at hfits
  · cases hfits
  · rename_i origin horigin
    simp only [Bool.and_eq_true, Bool.or_eq_true, beq_iff_eq, decide_eq_true_eq,
      Bool.not_eq_true'] at hfits
    obtain ⟨⟨⟨⟨⟨hkind, hsize⟩, hreusable⟩, hstate⟩, -⟩, hedit⟩ := hfits
    exact ⟨v, origin, rfl, hvisit, hplace, horigin, hreusable, hstate, hkind, hsize, hedit⟩

/-- Everything below a root can be found, but not the root, of which nothing is recorded. -/
theorem all_of_find? {P : Element → Prop} {id : Nat} {kind : Kind} {children : List Element}
    (hchildren : ∀ x ∈ children, x.All P)
    (h : (ofRoot (.node id kind none children) edit).find? table state offset = some old) :
    old.All P := by
  obtain ⟨v, origin, rfl, hvisit, -, horigin, -⟩ := find?_spec h
  rcases List.mem_cons.1 hvisit with rfl | hvisit
  · cases horigin
  · exact Element.all_of_mem_preorderAll children 1 0 (Element.allIn_iff.2 hchildren) hvisit

/-- Only nodes that cover something are found. -/
theorem size_pos_of_find? {reuse : Reuse} (h : reuse.find? table state offset = some old) :
    0 < old.size := by
  obtain ⟨place, -, h⟩ := Option.bind_eq_some_iff.1 h
  obtain ⟨v, hfind, rfl⟩ := Option.map_eq_some_iff.1 h
  have hcond := List.find?_some hfind
  simp only [Bool.and_eq_true, beq_iff_eq] at hcond
  have hfits := hcond.2
  unfold fits at hfits
  split at hfits
  · cases hfits
  · simp only [Bool.and_eq_true, decide_eq_true_eq] at hfits
    exact hfits.1.1.1.1.2

/-- The new text spells a node that is found, where it was looked for. -/
theorem truthful_ofRoot {text new insert : List Char} {start stop : Nat}
    (hreplace : Edit.replace text start stop insert = .ok (edit, new))
    (htext : root.text = text) (hcovered : root.All Element.Covered) (options : Options) :
    Setting.Truthful ⟨table, options, some (ofRoot root edit)⟩ new := by
  rintro reuse hreuse state offset old hfind
  cases hreuse
  obtain ⟨v, origin, rfl, hvisit, hplace, horigin, hreusable, -, -, -, hfits⟩ := find?_spec hfind
  have hall := Element.all_of_mem_preorder root 0 0 hcovered hvisit
  have hlookahead := hall.self origin horigin hreusable
  obtain ⟨x, y, hroot, hstart⟩ := Element.text_of_mem_preorder root 0 0 hvisit
  obtain ⟨before, middle, after, rfl, rfl, hedit, hold, hnew⟩ := Edit.replace_spec hreplace
  rw [htext] at hroot
  simp only [Nat.zero_add] at hstart
  simp only [Source.readAhead, ← Element.size_text] at hlookahead
  refine ⟨hall, fun front back hcut hfront => ?_⟩
  rw [hold, Text.size_append] at hfits
  rw [Edit.oldOffset?, hedit, hold, hnew] at hplace
  simp only [Text.size_append] at hplace
  split at hplace
  · -- The node lies in front of the edit and has not moved.
    have hplace := Option.some.inj hplace
    have hroom : Text.size (x ++ v.element.text) ≤ Text.size before := by
      rw [Text.size_append]
      omega
    obtain ⟨w, rfl, -⟩ := Text.exists_append_of_size_le (b := y) (d := middle ++ after)
      (by rw [← hroot, List.append_assoc]) hroom
    obtain ⟨-, rfl⟩ := Text.append_inj (a := x) (c := front)
      (by rw [← hcut, List.append_assoc, List.append_assoc, List.append_assoc]) (by omega)
    exact ⟨w ++ (insert ++ after), rfl⟩
  · split at hplace
    · -- The node lies behind the edit and has moved along with what is there.
      have hplace := Option.some.inj hplace
      have hroom : Text.size (before ++ middle) ≤ Text.size x := by
        rw [Text.size_append]
        omega
      obtain ⟨w, hx, hafter⟩ := Text.exists_append_of_size_le (b := after)
        (d := v.element.text ++ y) (by rw [hroot, List.append_assoc]) hroom
      subst hx hafter
      obtain ⟨-, rfl⟩ := Text.append_inj (a := before ++ insert ++ w) (c := front)
        (by rw [← hcut, List.append_assoc]) (by
          simp only [Text.size_append] at hstart ⊢
          omega)
      exact ⟨y, rfl⟩
    · cases hplace

end Reuse
end SqlTree
