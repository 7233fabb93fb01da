import SqlTree.Proofs.Edit
import SqlTree.Proofs.Lines

/-!
# Replacements and the edits that describe them

A replacement is possible for every range of whole characters, and the edit that it returns says
where the two texts differ, in bytes and in points. Edits of no other kind are needed: where one
fits two texts that differ in its ranges only, the replacement of one range by the other leads to
the same ranges and from one text to the other.

- `Edit.exists_replace_iff`   : the ranges that can be replaced
- `Edit.Describes`            : an edit that says what a replacement did
- `Edit.describes_of_replace` : the edit of a replacement does so
- `Edit.exists_replace`       : an edit that fits two texts is that of a replacement
- `Edit.replace_truthful`     : replacements build exactly the edits that describe them
-/

namespace SqlTree
namespace Edit

variable {old new insert : List Char} {start stop : Nat} {edit : Edit}

theorem exists_replace_iff : (∃ result, replace old start stop insert = .ok result) ↔
    start ≤ stop ∧ stop ≤ Text.size old ∧ Text.isBoundary start old = true ∧
      Text.isBoundary stop old = true := by
  rw [← checkRange_eq_ok_iff]
  exact ⟨fun ⟨_, h⟩ => checkRange_of_replace h, fun h => ⟨_, replace_of_checkRange h⟩⟩

/-- The edit says that the bytes of `old` from `start` to `stop` were replaced by `insert`, which
led to `new`. -/
structure Describes (edit : Edit) (start stop : Nat) (insert old new : List Char) : Prop where
  new_eq : ∃ before after, Text.slice? 0 start old = some before ∧
    Text.dropBytes? stop old = some after ∧ new = before ++ insert ++ after
  start_eq : edit.start = start
  oldStop_eq : edit.oldStop = stop
  newStop_eq : edit.newStop = start + Text.size insert
  validate_eq : edit.validate old new = .ok ()
  delta_eq : edit.delta = (Text.size new : Int) - Text.size old
  startPoint_eq : edit.startPoint = (Lines.ofText old).point edit.start
  oldStopPoint_eq : edit.oldStopPoint = (Lines.ofText old).point edit.oldStop
  newStopPoint_eq : edit.newStopPoint = (Lines.ofText new).point edit.newStop

/-- A replacement returns the edit that describes it. -/
theorem describes_of_replace (h : replace old start stop insert = .ok (edit, new)) :
    edit.Describes start stop insert old new := by
  have hvalidate := validate_of_replace h
  have hcheck := checkRange_of_replace h
  rw [replace_of_checkRange hcheck] at h
  cases h
  obtain ⟨before, middle, after, rfl, rfl, rfl⟩ := exists_of_checkRange hcheck
  rw [splice_append] at hvalidate ⊢
  have hbefore := Text.slice?_zero_size_append before (middle ++ after)
  rw [← List.append_assoc] at hbefore
  -- Both texts begin alike, so a walk over what was put in starts at the same point in both.
  have hstart := Lines.point_size_append before (middle ++ after)
  rw [← List.append_assoc] at hstart
  have hstop := Lines.point_size_append (before ++ insert) after
  rw [Text.size_append, Point.advance_append, ← hstart] at hstop
  refine ⟨⟨before, after, hbefore, Text.dropBytes?_size_append _ after, rfl⟩, rfl, rfl, rfl,
    hvalidate, ?_, rfl, rfl, hstop.symm⟩
  simp only [delta, Text.size_append]
  omega

/-- An edit that fits two texts which agree in front of it and behind it is the one of a
replacement, as far as its ranges go. -/
theorem exists_replace (hvalidate : edit.validate old new = .ok ())
    (hfront : Text.slice? 0 edit.start old = Text.slice? 0 edit.start new)
    (hback : Text.dropBytes? edit.oldStop old = Text.dropBytes? edit.newStop new) :
    ∃ insert made, Text.slice? edit.start edit.newStop new = some insert ∧
      replace old edit.start edit.oldStop insert = .ok (made, new) ∧
      made.start = edit.start ∧ made.oldStop = edit.oldStop ∧ made.newStop = edit.newStop := by
  obtain ⟨hold, hnew, -⟩ := validate_eq_ok_iff.1 hvalidate
  obtain ⟨before, middle, after, rfl, hstart, hstop⟩ := exists_of_checkRange hold
  obtain ⟨before', insert, after', rfl, hstart', hstop'⟩ := exists_of_checkRange hnew
  -- The parts around both ranges are the same.
  have hsplit := Text.slice?_zero_size_append before (middle ++ after)
  have hsplit' := Text.slice?_zero_size_append before' (insert ++ after')
  rw [← List.append_assoc, ← hstart] at hsplit
  rw [← List.append_assoc, ← hstart'] at hsplit'
  obtain rfl := Option.some.inj (hsplit.symm.trans (hfront.trans hsplit'))
  rw [hstop, hstop', Text.dropBytes?_size_append, Text.dropBytes?_size_append] at hback
  obtain rfl := Option.some.inj hback
  have hreplace : replace _ _ _ insert = _ := replace_of_checkRange hold
  have hnew : splice (before ++ middle ++ after) edit.start edit.oldStop insert =
      before ++ insert ++ after := by rw [hstart, hstop, splice_append]
  rw [hnew] at hreplace
  refine ⟨insert, _, ?_, hreplace, rfl, rfl, ?_⟩
  · rw [hstart, hstop', Text.slice?_size_append]
  · rw [hstop', Text.size_append]
    exact congrArg (· + Text.size insert) hstart

/-- Exactly the ranges of whole characters can be replaced, the edit that is returned describes the
replacement, and every edit that fits two texts which agree around it comes from one. -/
theorem replace_truthful (old : List Char) :
    (∀ start stop insert, (∃ result, replace old start stop insert = .ok result) ↔
      start ≤ stop ∧ stop ≤ Text.size old ∧ Text.isBoundary start old = true ∧
        Text.isBoundary stop old = true) ∧
    (∀ start stop insert edit new, replace old start stop insert = .ok (edit, new) →
      edit.Describes start stop insert old new) ∧
    ∀ (edit : Edit) new, edit.validate old new = .ok () →
      Text.slice? 0 edit.start old = Text.slice? 0 edit.start new →
      Text.dropBytes? edit.oldStop old = Text.dropBytes? edit.newStop new →
      ∃ insert made, Text.slice? edit.start edit.newStop new = some insert ∧
        replace old edit.start edit.oldStop insert = .ok (made, new) ∧
        made.start = edit.start ∧ made.oldStop = edit.oldStop ∧ made.newStop = edit.newStop :=
  ⟨fun _ _ _ => exists_replace_iff, fun _ _ _ _ _ => describes_of_replace,
    fun _ _ => exists_replace⟩

end Edit
end SqlTree
