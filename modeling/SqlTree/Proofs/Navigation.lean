import SqlTree.Tree.Node

/-!
# Ways through a tree

Below a node, every node is found at the end of exactly one path of child numbers. The steps to the
neighbours change the last number of a path: to a sibling it goes up or down by one, and to the
parent it is left out.

- `Node.child?_node`        : the children of a node, one by one
- `Node.descend?_append`    : paths are followed in parts
- `Node.descend?_injective` : there is one path to a node
- `Node.parent?_of_child?`, `Node.next?_of_child?`, `Node.prev?_of_child?` : the neighbours of a child
-/

namespace SqlTree
namespace Node

variable {n m c : Node} {i : Nat} {path path' : List Nat}

/-! ## Children -/

theorem getElem?_childrenFrom (n : Node) (id : Nat) (kind : Kind) (origin : Option Origin)
    (left : List Element) (start : Nat) (right : List Element) (i : Nat) :
    (childrenFrom n id kind origin left start right)[i]? = (right[i]?).map fun e =>
      ⟨e, start + Element.sizeAll (right.take i), ⟨id, kind, origin, n.start,
        (right.take i).reverse ++ left, right.drop (i + 1)⟩ :: n.above⟩ := by
  induction right generalizing left start i with
  | nil => rfl
  | cons e right ih =>
    cases i with
    | zero => rfl
    | succ i =>
      rw [childrenFrom, List.getElem?_cons_succ, ih, List.getElem?_cons_succ]
      simp only [List.take_succ_cons, List.drop_succ_cons, Element.sizeAll, List.reverse_cons,
        List.append_assoc, List.singleton_append, Nat.add_assoc]

/-- A child has its siblings on both sides, and begins where those before it end. -/
theorem child?_node (id : Nat) (kind : Kind) (origin : Option Origin) (children : List Element)
    (start : Nat) (above : List Frame) (i : Nat) :
    (Node.mk (.node id kind origin children) start above).child? i = (children[i]?).map fun e =>
      ⟨e, start + Element.sizeAll (children.take i), ⟨id, kind, origin, start,
        (children.take i).reverse, children.drop (i + 1)⟩ :: above⟩ := by
  have h := getElem?_childrenFrom ⟨.node id kind origin children, start, above⟩ id kind origin []
    start children i
  simp only [List.append_nil] at h
  exact h

/-- Only composite nodes have children. -/
theorem exists_of_child? (h : n.child? i = some c) : ∃ id kind origin children start above e,
    n = ⟨.node id kind origin children, start, above⟩ ∧ children[i]? = some e ∧
      c = ⟨e, start + Element.sizeAll (children.take i), ⟨id, kind, origin, start,
        (children.take i).reverse, children.drop (i + 1)⟩ :: above⟩ := by
  obtain ⟨element, start, above⟩ := n
  cases element with
  | token => cases h
  | node id kind origin children =>
    rw [child?_node] at h
    obtain ⟨e, he, rfl⟩ := Option.map_eq_some_iff.1 h
    exact ⟨id, kind, origin, children, start, above, e, rfl, he, rfl⟩

theorem element_of_child? (h : n.child? i = some c) : n.element.children[i]? = some c.element := by
  obtain ⟨id, kind, origin, children, start, above, e, rfl, he, rfl⟩ := exists_of_child? h
  exact he

theorem exists_child? {e : Element} (h : n.element.children[i]? = some e) :
    ∃ c, n.child? i = some c ∧ c.element = e := by
  obtain ⟨element, start, above⟩ := n
  cases element with
  | token => cases h
  | node id kind origin children =>
    have hi : children[i]? = some e := h
    rw [child?_node, hi]
    exact ⟨_, rfl, rfl⟩

theorem child?_eq_none (h : n.element.children.length ≤ i) : n.child? i = none := by
  cases hc : n.child? i with
  | none => rfl
  | some c =>
    have hlast := element_of_child? hc
    rw [List.getElem?_eq_none h] at hlast
    cases hlast

/-- In front of a child there is one with every smaller number. -/
theorem exists_child_of_le {j : Nat} (h : n.child? i = some c) (hle : j ≤ i) :
    ∃ d, n.child? j = some d := by
  obtain ⟨hlt, -⟩ := List.getElem?_eq_some_iff.1 (element_of_child? h)
  obtain ⟨d, hd, -⟩ := exists_child? (List.getElem?_eq_getElem (Nat.lt_of_le_of_lt hle hlt))
  exact ⟨d, hd⟩

/-! ## Neighbours of a child -/

/-- The siblings before the next place are those before this one and the child that is here. -/
theorem before_succ {children : List Element} (h : i < children.length) :
    Element.sizeAll (children.take (i + 1)) =
        Element.sizeAll (children.take i) + children[i].size ∧
      (children.take (i + 1)).reverse = children[i] :: (children.take i).reverse := by
  rw [List.take_succ_eq_append_getElem h, Element.sizeAll_append, Element.sizeAll_singleton,
    List.reverse_append]
  exact ⟨rfl, rfl⟩

theorem parent?_of_child? (h : n.child? i = some c) : c.parent? = some n := by
  obtain ⟨id, kind, origin, children, start, above, e, rfl, he, rfl⟩ := exists_of_child? h
  obtain ⟨hlt, rfl⟩ := List.getElem?_eq_some_iff.1 he
  simp only [parent?, Frame.fill, List.reverse_reverse]
  rw [List.getElem_cons_drop, List.take_append_drop]

theorem next?_of_child? (h : n.child? i = some c) : c.next? = n.child? (i + 1) := by
  obtain ⟨id, kind, origin, children, start, above, e, rfl, he, rfl⟩ := exists_of_child? h
  obtain ⟨hlt, rfl⟩ := List.getElem?_eq_some_iff.1 he
  rw [child?_node, next?]
  by_cases hnext : i + 1 < children.length
  · obtain ⟨hsize, hleft⟩ := before_succ hlt
    rw [List.drop_eq_getElem_cons hnext, List.getElem?_eq_getElem hnext, Option.map_some, hsize,
      hleft, ← Nat.add_assoc]
    rfl
  · have hlast := Nat.le_of_not_lt hnext
    rw [List.drop_eq_nil_of_le hlast, List.getElem?_eq_none hlast]
    rfl

theorem prev?_of_child? (h : n.child? (i + 1) = some c) : c.prev? = n.child? i := by
  obtain ⟨id, kind, origin, children, start, above, e, rfl, he, rfl⟩ := exists_of_child? h
  obtain ⟨hlt, rfl⟩ := List.getElem?_eq_some_iff.1 he
  have hprev := Nat.lt_of_succ_lt hlt
  obtain ⟨hsize, hleft⟩ := before_succ hprev
  rw [child?_node, prev?, List.getElem?_eq_getElem hprev, Option.map_some,
    List.drop_eq_getElem_cons hlt, hleft, hsize, ← Nat.add_assoc]
  simp only [Nat.add_sub_cancel]

theorem prev?_of_child?_zero (h : n.child? 0 = some c) : c.prev? = none := by
  obtain ⟨id, kind, origin, children, start, above, e, rfl, he, rfl⟩ := exists_of_child? h
  rfl

/-! ## Paths -/

theorem descend?_append (n : Node) (path path' : List Nat) :
    n.descend? (path ++ path') = (n.descend? path).bind fun m => m.descend? path' := by
  induction path generalizing n with
  | nil => rfl
  | cons i path ih =>
    rw [List.cons_append, descend?, descend?, Option.bind_assoc]
    exact congrArg _ (funext fun child => ih child)

theorem descend?_concat (n : Node) (path : List Nat) (i : Nat) :
    n.descend? (path ++ [i]) = (n.descend? path).bind fun m => m.child? i := by
  rw [descend?_append]
  refine congrArg _ (funext fun m => ?_)
  rw [descend?]
  exact Option.bind_fun_some _

/-- The way up from a node shows the path to it. -/
theorem above_of_descend? (h : n.descend? path = some m) :
    m.above.map (fun frame => frame.left.length) =
      path.reverse ++ n.above.map fun frame => frame.left.length := by
  induction path generalizing n with
  | nil =>
    cases h
    rfl
  | cons i path ih =>
    -- The first step puts a frame on the way up with as many siblings to the left as its number.
    obtain ⟨c, hc, hm⟩ := Option.bind_eq_some_iff.1 h
    obtain ⟨id, kind, origin, children, start, above, e, rfl, he, rfl⟩ := exists_of_child? hc
    obtain ⟨hlt, -⟩ := List.getElem?_eq_some_iff.1 he
    rw [ih hm]
    simp [Nat.le_of_lt hlt]

/-- There is one path to a node. -/
theorem descend?_injective (h : n.descend? path = some m) (h' : n.descend? path' = some m) :
    path = path' := by
  have habove := (above_of_descend? h).symm.trans (above_of_descend? h')
  exact List.reverse_inj.1 (List.append_cancel_right habove)

end Node
end SqlTree
