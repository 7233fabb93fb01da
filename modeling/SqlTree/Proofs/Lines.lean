import Mathlib.Data.List.Induction
import Mathlib.Data.List.TakeWhile
import SqlTree.Text.Lines
import SqlTree.Proofs.Tiling

/-!
# Offsets and points

A point can be computed in three ways: by walking over the text in front of it, by looking up an
offset in the table of lines, and token by token. All of them lead to the same point. The way back
leads from every point to its offset, but it is open to a column behind a line feed as well.

- `Point.advance_append` : walking over two texts, one after the other
- `Lines.At`             : the line on which an offset is
- `Lines.exists_at_point` : the table finds the line of every offset
- `Lines.at_advance`     : walking ends on the line of the offset that is reached
- `Lines.lookup_spec`     : the points from which a lookup leads to an offset
- `Lines.positions_agree` : the three ways agree, and the way back leads to the offset
-/

namespace SqlTree

/-! ## Walking over a text -/

namespace Point

open Text

protected theorem ext {p q : Point} (hline : p.line = q.line) (hcolumn : p.column = q.column) :
    p = q := by
  cases p
  cases q
  cases hline
  cases hcolumn
  rfl

theorem advance_of_mem (p : Point) {text : List Char} (h : '\n' ∈ text) :
    p.advance text =
      ⟨p.line + text.count '\n', size (text.reverse.takeWhile (· != '\n'))⟩ := if_pos h

theorem advance_of_notMem (p : Point) {text : List Char} (h : '\n' ∉ text) :
    p.advance text = ⟨p.line, p.column + size text⟩ := if_neg h

theorem line_advance (p : Point) (text : List Char) :
    (p.advance text).line = p.line + text.count '\n' := by
  by_cases h : '\n' ∈ text
  · rw [p.advance_of_mem h]
  · rw [p.advance_of_notMem h, List.count_eq_zero_of_not_mem h]
    rfl

/-- Walking over two texts, one after the other, is walking over both. -/
theorem advance_append (p : Point) (a b : List Char) :
    p.advance (a ++ b) = (p.advance a).advance b := by
  by_cases hb : '\n' ∈ b
  · -- The last line feed is in the second text, so the first one does not matter for the column.
    have hlast : ¬ ∀ c ∈ b.reverse, (c != '\n') = true := fun h =>
      absurd (h '\n' (List.mem_reverse.2 hb)) (by decide)
    have hlength : (b.reverse.takeWhile (· != '\n')).length ≠ b.reverse.length := fun h =>
      hlast (List.takeWhile_eq_self_iff.1
        ((List.takeWhile_prefix _).eq_of_length h))
    rw [p.advance_of_mem (List.mem_append_right a hb), (p.advance a).advance_of_mem hb,
      line_advance, List.count_append, Nat.add_assoc, List.reverse_append, List.takeWhile_append,
      if_neg hlength]
  · have hcount := List.count_eq_zero_of_not_mem hb
    have hfront : ∀ c ∈ b.reverse, (c != '\n') = true := fun c hc => by
      rw [bne_iff_ne]
      rintro rfl
      exact hb (List.mem_reverse.1 hc)
    rw [(p.advance a).advance_of_notMem hb]
    by_cases ha : '\n' ∈ a
    · rw [p.advance_of_mem (List.mem_append_left b ha), p.advance_of_mem ha, List.count_append,
        hcount, List.reverse_append, List.takeWhile_append_of_pos hfront, size_append,
        size_reverse, Nat.add_comm (size b), Nat.add_zero]
    · have hboth : '\n' ∉ a ++ b := fun h => (List.mem_append.1 h).elim ha hb
      rw [p.advance_of_notMem hboth, p.advance_of_notMem ha, size_append, Nat.add_assoc]

/-- A walk adds no more lines and columns than the text has bytes. -/
theorem advance_le (p : Point) (text : List Char) :
    (p.advance text).line + (p.advance text).column ≤ p.line + p.column + size text := by
  by_cases h : '\n' ∈ text
  · -- The characters behind the last line feed are not counted as lines.
    have hcut := List.takeWhile_append_dropWhile (p := (· != '\n')) (l := text.reverse)
    have hnone : (text.reverse.takeWhile (· != '\n')).count '\n' = 0 :=
      List.count_eq_zero_of_not_mem fun hmem =>
        absurd (List.mem_takeWhile_imp hmem) (by decide)
    have hcount := congrArg (List.count '\n') hcut
    have hsize := congrArg size hcut
    have hle := count_le_size '\n' (text.reverse.dropWhile (· != '\n'))
    rw [List.count_append, hnone, List.count_reverse] at hcount
    rw [size_append, size_reverse] at hsize
    rw [p.advance_of_mem h]
    dsimp only
    omega
  · rw [p.advance_of_notMem h]
    dsimp only
    omega

end Point

/-! ## The table of lines -/

namespace Lines

theorem startsAfter_append (n : Nat) (a b : List Char) :
    startsAfter n (a ++ b) = startsAfter n a ++ startsAfter (n + Text.size a) b := by
  induction a generalizing n with
  | nil => rfl
  | cons c a ih =>
    rw [List.cons_append, startsAfter, startsAfter, ih, Text.size_cons, Nat.add_assoc]
    split <;> rfl

theorem lt_of_mem_startsAfter {n s : Nat} {text : List Char} (h : s ∈ startsAfter n text) :
    n < s := by
  induction text generalizing n with
  | nil => cases h
  | cons c text ih =>
    have hpos := c.utf8Size_pos
    rw [startsAfter] at h
    split at h
    · rcases List.mem_cons.1 h with rfl | h
      · omega
      · have := ih h
        omega
    · have := ih h
      omega

theorem pairwise_startsAfter (n : Nat) (text : List Char) :
    (startsAfter n text).Pairwise (· < ·) := by
  induction text generalizing n with
  | nil => exact List.Pairwise.nil
  | cons c text ih =>
    rw [startsAfter]
    split
    · exact List.pairwise_cons.2 ⟨fun s hs => lt_of_mem_startsAfter hs, ih _⟩
    · exact ih _

/-- Lines begin one behind the other. -/
theorem pairwise_starts (text : List Char) : (ofText text).starts.Pairwise (· < ·) :=
  List.pairwise_cons.2 ⟨fun _ hs => lt_of_mem_startsAfter hs, pairwise_startsAfter 0 text⟩

/-- In front of every line there are at least as many bytes as lines. -/
theorem le_of_getElem?_starts {text : List Char} {i s : Nat}
    (h : (ofText text).starts[i]? = some s) : i ≤ s := by
  induction i generalizing s with
  | zero => exact Nat.zero_le s
  | succ i ih =>
    obtain ⟨hlt, rfl⟩ := List.getElem?_eq_some_iff.1 h
    have hstep := List.pairwise_iff_getElem.1 (pairwise_starts text) i (i + 1)
      (Nat.lt_of_succ_lt hlt) hlt (Nat.lt_succ_self i)
    have hle := ih (List.getElem?_eq_getElem (Nat.lt_of_succ_lt hlt))
    omega

/-- Line `i` begins at `start` and has the byte at `offset`, or ends there with the text. -/
structure At (lines : Lines) (i start offset : Nat) : Prop where
  start_eq : lines.starts[i]? = some start
  start_le : start ≤ offset
  lt_next : ∀ next, lines.starts[i + 1]? = some next → offset < next

namespace At

variable {text : List Char} {i j s t o o' : Nat}

/-- Of two offsets the first one is not on a later line. -/
theorem line_le (h : At (ofText text) i s o) (h' : At (ofText text) j t o') (hle : o ≤ o') :
    i ≤ j := by
  by_contra hlt
  obtain ⟨hi, hs⟩ := List.getElem?_eq_some_iff.1 h.start_eq
  have hj : j + 1 < (ofText text).starts.length := by omega
  have hnext := h'.lt_next _ (List.getElem?_eq_getElem hj)
  have hstart := h.start_le
  rcases Nat.lt_or_ge (j + 1) i with hji | hji
  · have := List.pairwise_iff_getElem.1 (pairwise_starts text) (j + 1) i hj hi hji
    omega
  · obtain rfl : i = j + 1 := by omega
    omega

/-- An offset is on one line only. -/
theorem unique (h : At (ofText text) i s o) (h' : At (ofText text) j t o) : i = j ∧ s = t := by
  obtain rfl := Nat.le_antisymm (h.line_le h' (Nat.le_refl o)) (h'.line_le h (Nat.le_refl o))
  exact ⟨rfl, Option.some.inj (h.start_eq.symm.trans h'.start_eq)⟩

end At

variable {text : List Char} {o o' : Nat}

/-- The first element behind those that satisfy a condition does not satisfy it. -/
theorem not_of_getElem?_takeWhile {p : Nat → Bool} {l : List Nat} {x : Nat}
    (h : l[(l.takeWhile p).length]? = some x) : p x = false := by
  induction l with
  | nil => cases h
  | cons y l ih =>
    by_cases hy : p y = true
    · rw [List.takeWhile_cons, if_pos hy] at h
      exact ih h
    · rw [List.takeWhile_cons, if_neg hy] at h
      obtain rfl : y = x := Option.some.inj h
      simpa using hy

/-- The table finds the line of an offset, and the column counts from the start of that line. -/
theorem exists_at_point (ho : o ≤ Text.size text) : ∃ start,
    At (ofText text) ((ofText text).point o).line start o ∧
      start + ((ofText text).point o).column = o := by
  obtain ⟨starts, hstarts⟩ : ∃ starts, starts = (ofText text).starts := ⟨_, rfl⟩
  have hcut := List.takeWhile_append_dropWhile (p := (· ≤ o)) (l := starts)
  -- The line at the beginning of the text is among those that begin at the offset or before it.
  obtain ⟨k, hk⟩ : ∃ k, (starts.takeWhile (· ≤ o)).length = k + 1 := by
    have hzero : starts = 0 :: startsAfter 0 text := hstarts
    rw [hzero, List.takeWhile_cons, if_pos (by simp)]
    exact ⟨_, rfl⟩
  obtain ⟨start, hfront⟩ : ∃ start, (starts.takeWhile (· ≤ o))[k]? = some start :=
    ⟨_, List.getElem?_eq_getElem (by omega)⟩
  have hstart : starts[k]? = some start := by
    rw [← hcut, List.getElem?_append_left (by omega), hfront]
  have hle : start ≤ o := by
    simpa using List.mem_takeWhile_imp (List.mem_of_getElem? hfront)
  have hpoint : (ofText text).point o = ⟨k, o - start⟩ := by
    have hmin : min o (ofText text).size = o := Nat.min_eq_left ho
    simp only [point, hmin, ← hstarts, hk, Nat.add_sub_cancel, List.getD_eq_getElem?_getD, hstart,
      Option.getD_some]
  rw [hpoint]
  refine ⟨start, ⟨hstarts ▸ hstart, hle, fun next hnext => ?_⟩, Nat.add_sub_cancel' hle⟩
  rw [← hstarts, ← hk] at hnext
  simpa using not_of_getElem?_takeWhile hnext

/-- The last line that begins in a text, and what a walk over the text has counted. -/
theorem getLast?_startsAfter (before : List Char) : ∃ start,
    (0 :: startsAfter 0 before).getLast? = some start ∧
      (startsAfter 0 before).length = (Point.origin.advance before).line ∧
      start + (Point.origin.advance before).column = Text.size before := by
  induction before using List.reverseRecOn with
  | nil => exact ⟨0, rfl, rfl, rfl⟩
  | append_singleton before c ih =>
    obtain ⟨start, hlast, hline, hcolumn⟩ := ih
    rw [startsAfter_append, Point.advance_append, Text.size_append, Nat.zero_add]
    by_cases hc : c = '\n'
    · subst hc
      have hone : Text.size ['\n'] = 1 := rfl
      rw [Point.advance_of_mem _ List.mem_cons_self]
      refine ⟨Text.size before + 1, ?_, ?_, rfl⟩
      · rw [← List.cons_append, List.getLast?_append]
        rfl
      · rw [List.length_append, hline]
        rfl
    · have hnone : startsAfter (Text.size before) [c] = [] := if_neg hc
      rw [hnone, List.append_nil, Point.advance_of_notMem _ (by simpa using Ne.symm hc)]
      exact ⟨start, hlast, hline, by dsimp only; omega⟩

/-- Walking over the beginning of a text ends on the line of the offset that is reached. -/
theorem at_advance (before after : List Char) : ∃ start,
    At (ofText (before ++ after)) (Point.origin.advance before).line start (Text.size before) ∧
      start + (Point.origin.advance before).column = Text.size before := by
  obtain ⟨start, hlast, hline, hcolumn⟩ := getLast?_startsAfter before
  have hstarts : (ofText (before ++ after)).starts =
      (0 :: startsAfter 0 before) ++ startsAfter (Text.size before) after := by
    have happend := startsAfter_append 0 before after
    rw [Nat.zero_add] at happend
    exact congrArg (0 :: ·) happend
  have hlength : (0 :: startsAfter 0 before).length =
      (Point.origin.advance before).line + 1 := congrArg (· + 1) hline
  refine ⟨start, ⟨?_, by omega, fun next hnext => ?_⟩, hcolumn⟩
  · rw [hstarts, List.getElem?_append_left (by omega), ← hlast, List.getLast?_eq_getElem?, hlength,
      Nat.add_sub_cancel]
  · rw [hstarts, ← hlength, List.getElem?_append_right (Nat.le_refl _)] at hnext
    exact lt_of_mem_startsAfter (List.mem_of_getElem? hnext)

/-- The table and a walk over the text in front lead to the same point. -/
theorem point_size_append (before after : List Char) :
    (ofText (before ++ after)).point (Text.size before) = Point.origin.advance before := by
  obtain ⟨start, hat, hcolumn⟩ := at_advance before after
  have hsize : Text.size before ≤ Text.size (before ++ after) := by
    rw [Text.size_append]
    exact Nat.le_add_right _ _
  obtain ⟨start', hat', hcolumn'⟩ := exists_at_point hsize
  obtain ⟨hline, rfl⟩ := hat'.unique hat
  exact Point.ext hline (Nat.add_left_cancel (hcolumn'.trans hcolumn.symm))

/-- Points are in the order of their offsets. -/
theorem point_lt_point (hlt : o < o') (ho' : o' ≤ Text.size text) :
    (ofText text).point o < (ofText text).point o' := by
  have ho : o ≤ Text.size text := Nat.le_of_lt (Nat.lt_of_lt_of_le hlt ho')
  obtain ⟨s, hat, hcolumn⟩ := exists_at_point ho
  obtain ⟨t, hat', hcolumn'⟩ := exists_at_point ho'
  rcases Nat.lt_or_eq_of_le (hat.line_le hat' (Nat.le_of_lt hlt)) with hline | hline
  · exact Point.lt_iff.2 (.inl hline)
  · -- On one line the columns count from the same byte.
    obtain rfl : s = t :=
      Option.some.inj (hat.start_eq.symm.trans (hline ▸ hat'.start_eq))
    exact Point.lt_iff.2 (.inr ⟨hline, by omega⟩)

/-- The way back from a point leads to its offset. -/
theorem offset?_point (ho : o ≤ Text.size text) :
    (ofText text).offset? ((ofText text).point o) = some o := by
  obtain ⟨start, hat, hcolumn⟩ := exists_at_point ho
  have hstop : o ≤ ((ofText text).starts[((ofText text).point o).line + 1]?).getD
      (ofText text).size := by
    cases hnext : (ofText text).starts[((ofText text).point o).line + 1]? with
    | none => exact ho
    | some next => exact Nat.le_of_lt (hat.lt_next next hnext)
  simp only [offset?, hat.start_eq, Option.bind_some, hcolumn, if_pos hstop]

/-- No line and no column of a point is larger than the offset. -/
theorem point_le (ho : o ≤ Text.size text) :
    ((ofText text).point o).line + ((ofText text).point o).column ≤ o := by
  obtain ⟨start, hat, hcolumn⟩ := exists_at_point ho
  have hle := le_of_getElem?_starts hat.start_eq
  omega

/-! ## Points that have an offset -/

theorem le_size_of_mem_startsAfter {n s : Nat} {text : List Char} (h : s ∈ startsAfter n text) :
    s ≤ n + Text.size text := by
  induction text generalizing n with
  | nil => cases h
  | cons c text ih =>
    rw [startsAfter] at h
    rw [Text.size_cons, ← Nat.add_assoc]
    split at h
    · rcases List.mem_cons.1 h with rfl | h
      · exact Nat.le_add_right _ _
      · exact ih h
    · exact ih h

theorem le_size_of_mem_starts {s : Nat} (h : s ∈ (ofText text).starts) : s ≤ Text.size text := by
  rcases List.mem_cons.1 h with rfl | h
  · exact Nat.zero_le _
  · exact Nat.zero_add (Text.size text) ▸ le_size_of_mem_startsAfter h

/-- The point of an offset is known from its line. -/
theorem At.point_eq {i s : Nat} (h : At (ofText text) i s o) (ho : o ≤ Text.size text) :
    (ofText text).point o = ⟨i, o - s⟩ := by
  obtain ⟨start, hat, hcolumn⟩ := exists_at_point ho
  obtain ⟨hline, rfl⟩ := hat.unique h
  exact Point.ext hline (by dsimp only; omega)

/-- Line `i` begins at byte `s`. -/
theorem at_start {i s : Nat} (h : (ofText text).starts[i]? = some s) : At (ofText text) i s s where
  start_eq := h
  start_le := Nat.le_refl s
  lt_next next hnext := by
    obtain ⟨hi, rfl⟩ := List.getElem?_eq_some_iff.1 h
    obtain ⟨hi', rfl⟩ := List.getElem?_eq_some_iff.1 hnext
    exact List.pairwise_iff_getElem.1 (pairwise_starts text) i (i + 1) hi hi' (Nat.lt_succ_self i)

/-- A line begins at the offset whose point has column zero. -/
theorem starts_eq_some_iff {i s : Nat} : (ofText text).starts[i]? = some s ↔
    s ≤ Text.size text ∧ (ofText text).point s = ⟨i, 0⟩ := by
  constructor
  · intro h
    have hs := le_size_of_mem_starts (List.mem_of_getElem? h)
    exact ⟨hs, by rw [(at_start h).point_eq hs, Nat.sub_self]⟩
  · rintro ⟨hs, hpoint⟩
    obtain ⟨start, hat, hcolumn⟩ := exists_at_point hs
    rw [hpoint] at hat hcolumn
    obtain rfl : start = s := hcolumn
    exact hat.start_eq

/-- The column behind the line feed that stands in front of byte `o`. -/
def Behind (lines : Lines) (o : Nat) (p : Point) : Prop :=
  0 < o ∧ 0 < p.column ∧ lines.point (o - 1) = ⟨p.line, p.column - 1⟩ ∧
    lines.point o = ⟨p.line + 1, 0⟩

theorem offset?_eq_some {lines : Lines} {p : Point} : lines.offset? p = some o ↔
    ∃ start, lines.starts[p.line]? = some start ∧ start + p.column = o ∧
      o ≤ (lines.starts[p.line + 1]?).getD lines.size := by
  rw [offset?, Option.bind_eq_some_iff]
  refine exists_congr fun start => and_congr_right fun _ => ?_
  dsimp only
  rw [Option.ite_none_right_eq_some, Option.some.injEq]
  exact ⟨fun ⟨hle, hsum⟩ => ⟨hsum, hsum ▸ hle⟩, fun ⟨hsum, hle⟩ => ⟨hsum ▸ hle, hsum⟩⟩

/-- A point has an offset if it is the point of that offset, or stands behind the line feed in front
of it. -/
theorem offset?_ofText_eq_some_iff {p : Point} : (ofText text).offset? p = some o ↔
    o ≤ Text.size text ∧ ((ofText text).point o = p ∨ Behind (ofText text) o p) := by
  rw [offset?_eq_some]
  constructor
  · rintro ⟨start, hstart, rfl, hle⟩
    -- The last line ends with the text. Any other one is taken to end where the next one begins.
    cases hnext : (ofText text).starts[p.line + 1]? with
    | none =>
      rw [hnext, Option.getD_none] at hle
      have hat : At (ofText text) p.line start (start + p.column) :=
        ⟨hstart, Nat.le_add_right _ _, fun next h => by rw [hnext] at h; cases h⟩
      exact ⟨hle, .inl (by rw [hat.point_eq hle, Nat.add_sub_cancel_left])⟩
    | some next =>
      rw [hnext, Option.getD_some] at hle
      obtain ⟨hnextle, hpoint⟩ := starts_eq_some_iff.1 hnext
      have hat (o : Nat) (hge : start ≤ o) (hlt : o < next) :
          At (ofText text) p.line start o :=
        ⟨hstart, hge, fun next' h => by rw [hnext] at h; cases h; exact hlt⟩
      refine ⟨Nat.le_trans hle hnextle, ?_⟩
      rcases Nat.lt_or_eq_of_le hle with hlt | rfl
      · have hthis := (hat _ (Nat.le_add_right _ _) hlt).point_eq (Nat.le_trans hle hnextle)
        exact .inl (by rw [hthis, Nat.add_sub_cancel_left])
      · -- The column reaches the start of the next line, so there is a byte in front of it.
        have hstart_lt := (at_start hstart).lt_next _ hnext
        have hcolumn : 0 < p.column := by omega
        have hback := (hat (start + p.column - 1) (by omega) (by omega)).point_eq (by omega)
        refine .inr ⟨by omega, hcolumn, ?_, hpoint⟩
        rw [hback, Nat.add_sub_assoc hcolumn, Nat.add_sub_cancel_left]
  · rintro ⟨ho, rfl | ⟨hpos, hcolumn, hback, hpoint⟩⟩
    · exact offset?_eq_some.1 (offset?_point ho)
    · have hnext := starts_eq_some_iff.2 ⟨ho, hpoint⟩
      have hfront : o - 1 ≤ Text.size text := Nat.le_trans (Nat.sub_le o 1) ho
      obtain ⟨start, hat, heq⟩ := exists_at_point hfront
      rw [hback] at hat heq
      dsimp only at hat heq
      exact ⟨start, hat.start_eq, by omega, by rw [hnext]; exact Nat.le_refl o⟩

/-- A lookup finds the offsets that fit into 32 bits. -/
theorem lookup_eq_ok_some {lines : Lines} {p : Point} :
    lines.lookup p = .ok (some o) ↔ lines.offset? p = some o ∧ o < limit := by
  rw [lookup]
  cases hstart : lines.starts[p.line]? with
  | none => simp [offset?_eq_some, hstart]
  | some start =>
    by_cases hlarge : limit ≤ start + p.column
    · simp only [if_pos hlarge, offset?_eq_some, hstart]
      constructor
      · intro h
        cases h
      · rintro ⟨⟨start', hstart', rfl, -⟩, hlt⟩
        cases hstart'
        exact absurd hlt (Nat.not_lt.2 hlarge)
    · simp only [if_neg hlarge, Except.ok.injEq]
      refine ⟨fun hfound => ⟨hfound, ?_⟩, And.left⟩
      obtain ⟨start', hstart', rfl, -⟩ := offset?_eq_some.1 hfound
      cases hstart.symm.trans hstart'
      exact Nat.not_le.1 hlarge

/-- A lookup breaks off where a line begins so far behind that the sum with the column does not
fit. -/
theorem lookup_eq_error {lines : Lines} {p : Point} {e : Overflow} : lines.lookup p = .error e ↔
    ∃ start, lines.starts[p.line]? = some start ∧ limit ≤ start + p.column ∧
      e = ⟨start, p.column⟩ := by
  rw [lookup]
  cases hstart : lines.starts[p.line]? with
  | none => simp
  | some start =>
    by_cases hlarge : limit ≤ start + p.column
    · simp only [if_pos hlarge]
      constructor
      · intro h
        cases h
        exact ⟨start, rfl, hlarge, rfl⟩
      · rintro ⟨start', hstart', -, rfl⟩
        cases hstart'
        rfl
    · simp only [if_neg hlarge]
      constructor
      · intro h
        cases h
      · rintro ⟨start', hstart', hlarge', -⟩
        cases hstart'
        exact absurd hlarge' hlarge

/-- What a lookup finds in a text whose offsets fit into 32 bits: the points of the text and, besides
them, the columns behind a line feed. On a line of the text it breaks off at the columns whose sum
with the start of the line does not fit. -/
theorem lookup_spec (hsize : Text.size text < limit) (p : Point) :
    (∀ o, (ofText text).lookup p = .ok (some o) ↔
      o ≤ Text.size text ∧ ((ofText text).point o = p ∨ Behind (ofText text) o p)) ∧
    ∀ e, (ofText text).lookup p = .error e ↔
      ∃ s, s ≤ Text.size text ∧ (ofText text).point s = ⟨p.line, 0⟩ ∧ limit ≤ s + p.column ∧
        e = ⟨s, p.column⟩ := by
  refine ⟨fun o => ?_, fun e => ?_⟩
  · rw [lookup_eq_ok_some, offset?_ofText_eq_some_iff]
    exact ⟨And.left, fun h => ⟨h, Nat.lt_of_le_of_lt h.1 hsize⟩⟩
  · rw [lookup_eq_error]
    refine exists_congr fun s => ?_
    rw [starts_eq_some_iff, and_assoc]

/-- The column behind the line feed of `ab` is no point of the text, but leads to the next line. -/
example : (ofText ['a', 'b', '\n', 'c', 'd']).lookup ⟨0, 3⟩ = .ok (some 3) ∧
    (ofText ['a', 'b', '\n', 'c', 'd']).point 3 = ⟨1, 0⟩ := by decide

/-! ## Points of tokens -/

/-- The points of tokens that follow one another are those of the table. -/
theorem points_of_covers {place : Token.Place} {tokens : List Token}
    (h : Token.Covers text place tokens)
    (hplace : place.point = (ofText text).point place.offset) :
    ∀ token ∈ tokens, token.start = (ofText text).point token.span.start ∧
      token.stop = (ofText text).point token.span.stop := by
  induction h with
  | done => exact List.forall_mem_nil _
  | @token place token tokens hfits more ih =>
    -- The text in front of the token brings the place to its point, and the token's own text on.
    obtain ⟨before, after, rfl, hbefore⟩ := Text.exists_of_slice? hfits.slice_eq
    have hoffset : place.offset = Text.size before := by rw [hbefore, ← hfits.offset_eq]; rfl
    have hnext : (place.advance token.text).point =
        (ofText (before ++ (token.text ++ after))).point (place.advance token.text).offset := by
      have hfront := point_size_append before (token.text ++ after)
      have hboth := point_size_append (before ++ token.text) after
      rw [List.append_assoc, Text.size_append, Point.advance_append] at hboth
      rw [Token.Place.advance]
      dsimp only
      rw [hoffset, hboth, hplace, hoffset, hfront]
    refine List.forall_mem_cons.2 ⟨⟨?_, ?_⟩, ih hnext⟩
    · rw [hfits.start_eq, hplace, ← hfits.offset_eq]
      rfl
    · rw [hfits.stop_eq, Token.span, hfits.offset_eq]
      exact hnext

/-- The point of an offset is the one at which a walk over the text in front of it ends, walks can
be made in parts, tokens begin and end at the points of their offsets, and points are in the order
of their offsets, to which they lead back. No line and no column exceeds the bytes walked over. -/
theorem positions_agree (text : List Char) :
    (∀ o, Text.isBoundary o text = true → ∃ before, Text.slice? 0 o text = some before ∧
      (ofText text).point o = Point.origin.advance before) ∧
    (∀ (p : Point) (a b : List Char), p.advance (a ++ b) = (p.advance a).advance b ∧
      (p.advance a).line + (p.advance a).column ≤ p.line + p.column + Text.size a) ∧
    (∀ token ∈ Token.readAll text, token.start = (ofText text).point token.span.start ∧
      token.stop = (ofText text).point token.span.stop) ∧
    (∀ o o', o < o' → o' ≤ Text.size text → (ofText text).point o < (ofText text).point o') ∧
    ∀ o, o ≤ Text.size text → (ofText text).offset? ((ofText text).point o) = some o ∧
      ((ofText text).point o).line + ((ofText text).point o).column ≤ o := by
  refine ⟨fun o ho => ?_, fun p a b => ⟨p.advance_append a b, p.advance_le a⟩, ?_,
    fun o o' => point_lt_point, fun o ho => ⟨offset?_point ho, point_le ho⟩⟩
  · obtain ⟨before, after, rfl, rfl⟩ := Text.exists_of_isBoundary ho
    exact ⟨before, Text.slice?_zero_size_append before after, point_size_append before after⟩
  · have hdrop : Text.dropBytes? Token.Place.origin.offset text = some text :=
      Text.dropBytes?_size_append [] text
    exact points_of_covers (Token.covers_readFrom hdrop) (point_size_append [] text).symm

end Lines
end SqlTree
