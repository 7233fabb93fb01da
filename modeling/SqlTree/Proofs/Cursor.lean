import Mathlib.Data.List.Induction
import SqlTree.Proofs.Navigation
import SqlTree.Tree.Cursor

/-!
# Cursors stay below their root

A cursor follows a path of its own: every move that is made changes the path as it changes the node,
and the depth is the length of the path. The root has the empty path, and from there no move leads to
a sibling or up.

- `Cursor.At`             : the node and the depth of a cursor are those of a path
- `Cursor.At.move`        : a move leads from one path to another
- `Cursor.At.enter`       : by moves, a cursor comes to any child
- `Cursor.Confined`       : what holds of a cursor wherever it has been moved
- `Cursor.moves_confined` : and it does hold, after any moves
-/

namespace SqlTree
namespace Cursor

/-- A cursor that was made on `n` stands at the end of a path. -/
structure At (n : Node) (path : List Nat) (c : Cursor) : Prop where
  root_eq : c.root = n
  descend?_eq : n.descend? path = some c.current
  depth_eq : c.depth = path.length

/-- The cursor on a child of its node. -/
def child? (c : Cursor) (i : Nat) : Option Cursor :=
  (c.current.child? i).map fun child => { c with current := child, depth := c.depth + 1 }

variable {n m parent : Node} {path before : List Nat} {c d : Cursor} {i offset : Nat}

theorem at_ofNode (n : Node) : At n [] (ofNode n) := ⟨rfl, rfl, rfl⟩

theorem At.reset (h : At n path c) : At n [] c.reset := by
  rw [Cursor.reset, h.root_eq]
  exact at_ofNode n

theorem At.current_eq (h : At n path c) (hm : n.descend? path = some m) : c.current = m :=
  Option.some.inj (h.descend?_eq.symm.trans hm)

/-! ## Down -/

theorem firstChild?_eq (c : Cursor) : c.firstChild? = c.child? 0 := rfl

theorem child?_of_childPast? (h : c.childPast? offset = some (i, d)) : c.child? i = some d := by
  obtain ⟨j, -, hfound⟩ := Option.bind_eq_some_iff.1 h
  obtain ⟨child, hchild, heq⟩ := Option.map_eq_some_iff.1 hfound
  cases heq
  exact Option.map_eq_some_iff.2 ⟨child, hchild, rfl⟩

theorem At.child? (h : At n path c) (hd : c.child? i = some d) : At n (path ++ [i]) d := by
  obtain ⟨child, hchild, rfl⟩ := Option.map_eq_some_iff.1 hd
  refine ⟨h.root_eq, ?_, ?_⟩
  · rw [Node.descend?_concat, h.descend?_eq, Option.bind_some, hchild]
  · rw [List.length_append, h.depth_eq]
    rfl

/-- From a child, the way up leads back. -/
theorem parent?_of_child? (hd : c.child? i = some d) : d.parent? = some c := by
  obtain ⟨child, hchild, rfl⟩ := Option.map_eq_some_iff.1 hd
  rw [parent?, if_neg (Nat.succ_ne_zero c.depth), Node.parent?_of_child? hchild]
  rfl

/-! ## Up and to the sides -/

/-- Below the root, the last step of the path came from the parent. -/
theorem At.exists_parent (h : At n path c) (hdepth : c.depth ≠ 0) :
    ∃ before i parent, path = before ++ [i] ∧ c.depth = before.length + 1 ∧
      n.descend? before = some parent ∧ parent.child? i = some c.current := by
  rcases List.eq_nil_or_concat path with rfl | ⟨before, i, rfl⟩
  · exact absurd h.depth_eq hdepth
  · rw [List.concat_eq_append] at h ⊢
    have hdescend := h.descend?_eq
    rw [Node.descend?_concat] at hdescend
    obtain ⟨parent, hparent, hchild⟩ := Option.bind_eq_some_iff.1 hdescend
    refine ⟨before, i, parent, rfl, ?_, hparent, hchild⟩
    rw [h.depth_eq, List.length_append]
    rfl

/-- A cursor at another child of the same parent. -/
theorem At.sibling (h : At n path c) (hdepth : c.depth = before.length + 1)
    (hparent : n.descend? before = some parent) (hm : parent.child? i = some m) :
    At n (before ++ [i]) { c with current := m } where
  root_eq := h.root_eq
  descend?_eq := by rw [Node.descend?_concat, hparent, Option.bind_some, hm]
  depth_eq := by rw [List.length_append]; exact hdepth

/-- The parent is where the last step of the path came from. -/
theorem At.parent? (h : At n path c) (hd : c.parent? = some d) :
    ∃ before i, path = before ++ [i] ∧ At n before d := by
  obtain ⟨hdepth, hup⟩ := Option.ite_none_left_eq_some.1 hd
  obtain ⟨before, i, parent, rfl, hlength, hparent, hchild⟩ := h.exists_parent hdepth
  rw [Node.parent?_of_child? hchild, Option.map_some] at hup
  cases hup
  exact ⟨before, i, rfl, h.root_eq, hparent, by rw [hlength]; rfl⟩

/-- At the next sibling the last step is one further. -/
theorem At.next? (h : At n path c) (hd : c.next? = some d) :
    ∃ before i, path = before ++ [i] ∧ At n (before ++ [i + 1]) d := by
  obtain ⟨hdepth, hside⟩ := Option.ite_none_left_eq_some.1 hd
  obtain ⟨before, i, parent, rfl, hlength, hparent, hchild⟩ := h.exists_parent hdepth
  rw [Node.next?_of_child? hchild] at hside
  obtain ⟨m, hm, rfl⟩ := Option.map_eq_some_iff.1 hside
  exact ⟨before, i, rfl, h.sibling hlength hparent hm⟩

/-- And at the sibling before it is one less. -/
theorem At.prev? (h : At n path c) (hd : c.prev? = some d) :
    ∃ before i, path = before ++ [i + 1] ∧ At n (before ++ [i]) d := by
  obtain ⟨hdepth, hside⟩ := Option.ite_none_left_eq_some.1 hd
  obtain ⟨before, i, parent, rfl, hlength, hparent, hchild⟩ := h.exists_parent hdepth
  obtain ⟨m, hm, rfl⟩ := Option.map_eq_some_iff.1 hside
  cases i with
  | zero =>
    -- There is nothing before the first child.
    rw [Node.prev?_of_child?_zero hchild] at hm
    cases hm
  | succ i =>
    rw [Node.prev?_of_child? hchild] at hm
    exact ⟨before, i, rfl, h.sibling hlength hparent hm⟩

/-- Below the root, the way up is open. -/
theorem At.exists_parent? (h : At n path c) (hdepth : c.depth ≠ 0) : ∃ d, c.parent? = some d := by
  obtain ⟨before, i, parent, -, -, -, hchild⟩ := h.exists_parent hdepth
  rw [Cursor.parent?, if_neg hdepth, Node.parent?_of_child? hchild]
  exact ⟨_, rfl⟩

/-- From the next sibling, the way back leads back. -/
theorem At.prev?_of_next? (h : At n path c) (hd : c.next? = some d) : d.prev? = some c := by
  obtain ⟨hdepth, hside⟩ := Option.ite_none_left_eq_some.1 hd
  obtain ⟨before, i, parent, -, -, -, hchild⟩ := h.exists_parent hdepth
  rw [Node.next?_of_child? hchild] at hside
  obtain ⟨m, hm, rfl⟩ := Option.map_eq_some_iff.1 hside
  rw [Cursor.prev?, if_neg hdepth, Node.prev?_of_child? hm, hchild]
  rfl

/-! ## Moves in turn -/

theorem move_of_attempt? {m : Move} {report : Report} (h : c.attempt? m = some (report, d)) :
    c.move m = (report, d) := by
  rw [move, h]
  rfl

/-- A move fails if and only if it cannot be made. -/
theorem move_failed_iff {m : Move} : (c.move m).1 = .failed ↔ c.attempt? m = none := by
  rw [move]
  cases h : c.attempt? m with
  | none => exact ⟨fun _ => rfl, fun _ => rfl⟩
  | some result =>
    refine ⟨fun hfailed => ?_, fun hnone => nomatch hnone⟩
    rw [Option.getD_some] at hfailed
    -- A move that is made does not report a failure.
    cases m with
    | reset =>
      cases h
      cases hfailed
    | firstChild | next | prev | parent | childPast =>
      obtain ⟨d, -, rfl⟩ := Option.map_eq_some_iff.1 h
      cases hfailed

theorem move_of_failed {m : Move} (h : (c.move m).1 = .failed) : (c.move m).2 = c := by
  rw [move, move_failed_iff.1 h]
  rfl

/-- A move that does not fail is made. -/
theorem exists_attempt {m : Move} (h : (c.move m).1 ≠ .failed) :
    ∃ report, c.attempt? m = some (report, (c.move m).2) := by
  cases hmove : c.attempt? m with
  | none => exact absurd (move_failed_iff.2 hmove) h
  | some result => exact ⟨result.1, by rw [move_of_attempt? hmove]⟩

/-- A move leads from one path to another. -/
theorem At.move (h : At n path c) (m : Move) : ∃ path', At n path' (c.move m).2 := by
  by_cases hfailed : (c.move m).1 = .failed
  · rw [move_of_failed hfailed]
    exact ⟨path, h⟩
  obtain ⟨report, hmove⟩ := exists_attempt hfailed
  generalize (c.move m).2 = d at hmove ⊢
  cases m with
  | firstChild =>
    obtain ⟨e, he, heq⟩ := Option.map_eq_some_iff.1 hmove
    cases heq
    exact ⟨path ++ [0], h.child? he⟩
  | childPast offset =>
    obtain ⟨⟨i, e⟩, he, heq⟩ := Option.map_eq_some_iff.1 hmove
    cases heq
    exact ⟨path ++ [i], h.child? (child?_of_childPast? he)⟩
  | next =>
    obtain ⟨e, he, heq⟩ := Option.map_eq_some_iff.1 hmove
    cases heq
    obtain ⟨before, i, -, hat⟩ := h.next? he
    exact ⟨before ++ [i + 1], hat⟩
  | prev =>
    obtain ⟨e, he, heq⟩ := Option.map_eq_some_iff.1 hmove
    cases heq
    obtain ⟨before, i, -, hat⟩ := h.prev? he
    exact ⟨before ++ [i], hat⟩
  | parent =>
    obtain ⟨e, he, heq⟩ := Option.map_eq_some_iff.1 hmove
    cases heq
    obtain ⟨before, i, -, hat⟩ := h.parent? he
    exact ⟨before, hat⟩
  | reset =>
    cases hmove
    exact ⟨[], h.reset⟩

theorem At.run (h : At n path c) (moves : List Move) : ∃ path', At n path' (c.run moves) := by
  induction moves generalizing path c with
  | nil => exact ⟨path, h⟩
  | cons m moves ih =>
    obtain ⟨path', h'⟩ := h.move m
    exact ih h'

/-! ## Coming to a node -/

theorem run_append (c : Cursor) (moves moves' : List Move) :
    c.run (moves ++ moves') = (c.run moves).run moves' := List.foldl_append

/-- A cursor can go to any child, through those in front of it. -/
theorem At.enter (h : At n path c) (hd : c.child? i = some d) :
    ∃ moves, At n (path ++ [i]) (c.run moves) := by
  obtain ⟨child, hchild, rfl⟩ := Option.map_eq_some_iff.1 hd
  -- On the number of the child: the cursor enters the first one and goes on from each to the next.
  induction i generalizing child with
  | zero =>
    have hfirst : c.attempt? .firstChild =
        some (.moved, { c with current := child, depth := c.depth + 1 }) := by
      rw [attempt?, firstChild?_eq, hd]
      rfl
    refine ⟨[.firstChild], ?_⟩
    rw [Cursor.run, List.foldl_cons, move_of_attempt? hfirst]
    exact h.child? hd
  | succ i ih =>
    obtain ⟨front, hfront⟩ := Node.exists_child_of_le hchild (Nat.le_succ i)
    obtain ⟨moves, h'⟩ := ih front hfront (Option.map_eq_some_iff.2 ⟨front, hfront, rfl⟩)
    have hcurrent : (c.run moves).current = front := by
      apply h'.current_eq
      rw [Node.descend?_concat, h.descend?_eq, Option.bind_some, hfront]
    have hlength : (c.run moves).depth = path.length + 1 := by
      rw [h'.depth_eq, List.length_append]
      rfl
    have hdepth : (c.run moves).depth ≠ 0 := by
      rw [hlength]
      exact Nat.succ_ne_zero _
    have hnext : (c.run moves).attempt? .next =
        some (.moved, { c.run moves with current := child }) := by
      rw [attempt?, Cursor.next?, if_neg hdepth, hcurrent, Node.next?_of_child? hfront, hchild]
      rfl
    refine ⟨moves ++ [.next], ?_⟩
    rw [run_append, Cursor.run, List.foldl_cons, move_of_attempt? hnext]
    exact h'.sibling hlength h.descend?_eq hchild

theorem exists_moves (h : n.descend? path = some m) : ∃ moves, At n path ((ofNode n).run moves) := by
  -- From the back, since the last child is entered where the moves along the rest of the path end.
  induction path using List.reverseRecOn generalizing m with
  | nil => exact ⟨[], at_ofNode n⟩
  | append_singleton path i ih =>
    rw [Node.descend?_concat] at h
    obtain ⟨parent, hparent, hchild⟩ := Option.bind_eq_some_iff.1 h
    obtain ⟨moves, hat⟩ := ih hparent
    obtain rfl := hat.current_eq hparent
    obtain ⟨moves', hat'⟩ := hat.enter (Option.map_eq_some_iff.2 ⟨m, hchild, rfl⟩)
    refine ⟨moves ++ moves', ?_⟩
    rw [run_append]
    exact hat'

/-! ## What a cursor can do -/

/-- What holds of a cursor that was made on `n`, wherever it has been moved. -/
structure Confined (n : Node) (c : Cursor) : Prop where
  /-- The cursor is on `n` or on a node below it. -/
  inside : ∃ path, n.descend? path = some c.current
  /-- The depth counts the levels between them. -/
  depth_eq : ∀ path, n.descend? path = some c.current → c.depth = path.length
  /-- A move that fails changes nothing. -/
  of_failed : ∀ m, (c.move m).1 = .failed → (c.move m).2 = c
  /-- The only way up that is closed is the one from the root. -/
  parent_failed : (c.move .parent).1 = .failed ↔ c.depth = 0
  /-- From the first child, the way up leads back. -/
  of_firstChild : (c.move .firstChild).1 ≠ .failed →
    (c.move .firstChild).2.move .parent = (.moved, c)
  /-- And so it does from the first child that ends after a byte. -/
  of_childPast : ∀ offset, (c.move (.childPast offset)).1 ≠ .failed →
    (c.move (.childPast offset)).2.move .parent = (.moved, c)
  /-- From the next sibling, the way back leads back. -/
  of_next : (c.move .next).1 ≠ .failed → (c.move .next).2.move .prev = (.moved, c)

theorem move_parent (hd : c.child? i = some d) : d.move .parent = (.moved, c) := by
  apply move_of_attempt?
  rw [attempt?, parent?_of_child? hd]
  rfl

theorem At.stays (h : At n path c) : Confined n c where
  inside := ⟨path, h.descend?_eq⟩
  depth_eq path' hpath' := by rw [h.depth_eq, Node.descend?_injective h.descend?_eq hpath']
  of_failed m := move_of_failed
  parent_failed := by
    rw [move_failed_iff, attempt?, Option.map_eq_none_iff]
    constructor
    · intro hnone
      by_contra hdepth
      obtain ⟨d, hd⟩ := h.exists_parent? hdepth
      rw [hnone] at hd
      cases hd
    · intro hzero
      exact if_pos hzero
  of_firstChild hmoved := by
    obtain ⟨report, hmove⟩ := exists_attempt hmoved
    obtain ⟨d, hd, heq⟩ := Option.map_eq_some_iff.1 hmove
    rw [← (Prod.mk.inj heq).2]
    exact move_parent hd
  of_childPast offset hmoved := by
    obtain ⟨report, hmove⟩ := exists_attempt hmoved
    obtain ⟨⟨i, d⟩, hd, heq⟩ := Option.map_eq_some_iff.1 hmove
    rw [← (Prod.mk.inj heq).2]
    exact move_parent (child?_of_childPast? hd)
  of_next hmoved := by
    obtain ⟨report, hmove⟩ := exists_attempt hmoved
    obtain ⟨d, hd, heq⟩ := Option.map_eq_some_iff.1 hmove
    rw [← (Prod.mk.inj heq).2]
    apply move_of_attempt?
    rw [attempt?, h.prev?_of_next? hd]
    rfl

/-- A cursor can be moved to the node on which it was made and to all nodes below it, and to no
others; and it knows where it is. -/
theorem moves_confined (n : Node) :
    (∀ m, (∃ moves, ((ofNode n).run moves).current = m) ↔ ∃ path, n.descend? path = some m) ∧
      ∀ moves, Confined n ((ofNode n).run moves) := by
  refine ⟨fun m => ⟨?_, ?_⟩, fun moves => ?_⟩
  · rintro ⟨moves, rfl⟩
    obtain ⟨path, hat⟩ := (at_ofNode n).run moves
    exact ⟨path, hat.descend?_eq⟩
  · rintro ⟨path, hpath⟩
    obtain ⟨moves, hat⟩ := exists_moves hpath
    exact ⟨moves, hat.current_eq hpath⟩
  · obtain ⟨path, hat⟩ := (at_ofNode n).run moves
    exact hat.stays

end Cursor
end SqlTree
