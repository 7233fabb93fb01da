import SqlTree.Tree.Element

/-!
# Nodes

A node is an element at its place in a tree: the element, the offset at which it starts, and the
way up to the root with the siblings on both sides of it.

- `Frame`      : one level of the way up
- `Node`       : an element at its place
- `Node.child?`, `Node.parent?`, `Node.next?`, `Node.prev?` : steps to the neighbours
- `Node.covering?` : the smallest node around a range
-/

namespace SqlTree

/-- A composite node with a hole in the place of one child. -/
structure Frame where
  id : Nat
  kind : Kind
  origin : Option Origin
  start : Nat
  /-- The children before the hole, the nearest first. -/
  left : List Element
  /-- The children after the hole. -/
  right : List Element

/-- The node with the hole filled. -/
def Frame.fill (frame : Frame) (e : Element) : Element :=
  .node frame.id frame.kind frame.origin (frame.left.reverse ++ e :: frame.right)

structure Node where
  element : Element
  /-- The offset of the first byte. -/
  start : Nat
  /-- The way up, the parent first. -/
  above : List Frame

namespace Node

/-- The root of a tree. -/
def root (e : Element) : Node := ⟨e, 0, []⟩

def kind (n : Node) : Kind := n.element.kind

def stop (n : Node) : Nat := n.start + n.element.size

def span (n : Node) : Span := ⟨n.start, n.stop⟩

/-- The node as it is shown, `kind@start..stop`. -/
def display (n : Node) : String :=
  n.kind.name ++ "@" ++ toString n.start ++ ".." ++ toString n.stop

/-- Whether both are the same element at the same offset. -/
def isAt (n m : Node) : Bool := n.element.id == m.element.id && n.start == m.start

/-! ## Children -/

/-- The nodes of `right`, which begin at `start` below a node, after the siblings `left`. -/
def childrenFrom (n : Node) (id : Nat) (kind : Kind) (origin : Option Origin) :
    List Element → Nat → List Element → List Node
  | _, _, [] => []
  | left, start, e :: right =>
    ⟨e, start, ⟨id, kind, origin, n.start, left, right⟩ :: n.above⟩ ::
      childrenFrom n id kind origin (e :: left) (start + e.size) right

/-- The nodes directly below, trivia included. -/
def children (n : Node) : List Node :=
  match n.element with
  | .token .. => []
  | .node id kind origin children => childrenFrom n id kind origin [] n.start children

def childCount (n : Node) : Nat := n.element.children.length

def child? (n : Node) (i : Nat) : Option Node := n.children[i]?

def isNamed (n : Node) : Bool := n.kind.isNamed

def namedChildren (n : Node) : List Node := n.children.filter isNamed

def namedChild? (n : Node) (i : Nat) : Option Node := n.namedChildren[i]?

/-- The node at the end of a path of child numbers. -/
def descend? (n : Node) : List Nat → Option Node
  | [] => some n
  | i :: path => (n.child? i).bind fun child => child.descend? path

theorem element_mem_of_mem_childrenFrom {n c : Node} {id : Nat} {kind : Kind}
    {origin : Option Origin} {left right : List Element} {start : Nat}
    (h : c ∈ childrenFrom n id kind origin left start right) : c.element ∈ right := by
  induction right generalizing left start with
  | nil => simp [childrenFrom] at h
  | cons e right ih =>
    simp only [childrenFrom, List.mem_cons] at h
    rcases h with rfl | h
    · simp
    · exact List.mem_cons_of_mem _ (ih h)

theorem sizeOf_element_lt_of_mem_children {n c : Node} (h : c ∈ n.children) :
    sizeOf c.element < sizeOf n.element := by
  apply Element.sizeOf_lt_of_mem_children
  cases he : n.element with
  | token => simp [children, he] at h
  | node id kind origin cs =>
    simp only [children, he] at h
    exact element_mem_of_mem_childrenFrom h

/-! ## Neighbours -/

def parent? (n : Node) : Option Node :=
  match n.above with
  | [] => none
  | frame :: above => some ⟨frame.fill n.element, frame.start, above⟩

def next? (n : Node) : Option Node :=
  match n.above with
  | frame :: above =>
    match frame.right with
    | e :: right =>
      some ⟨e, n.stop, { frame with left := n.element :: frame.left, right := right } :: above⟩
    | [] => none
  | [] => none

def prev? (n : Node) : Option Node :=
  match n.above with
  | frame :: above =>
    match frame.left with
    | e :: left =>
      some ⟨e, n.start - e.size,
        { frame with left := left, right := n.element :: frame.right } :: above⟩
    | [] => none
  | [] => none

/-! ## Covering nodes -/

/-- The child into which the search for an empty range goes: one around it, otherwise the last one
that ends before or at it, otherwise the first. -/
def childAround? (children : List Node) (offset : Nat) : Option Node :=
  ((children.find? fun c => c.start < offset && offset < c.stop).or
    ((children.filter fun c => c.stop ≤ offset).getLast?)).or children.head?

/-- The child that covers a range, if one does. -/
def coveringChild? (n : Node) (range : Span) : Option Node :=
  if range.isEmpty then
    (childAround? n.children range.start).filter fun c => c.span.contains range
  else n.children.find? fun c => c.span.contains range

theorem mem_children_of_coveringChild? {n c : Node} {range : Span}
    (h : n.coveringChild? range = some c) : c ∈ n.children := by
  simp only [coveringChild?] at h
  split at h
  · obtain ⟨h, -⟩ := Option.filter_eq_some_iff.1 h
    simp only [childAround?, Option.or_eq_some_iff] at h
    rcases h with (h | ⟨-, h⟩) | ⟨-, h⟩
    · exact List.mem_of_find?_eq_some h
    · exact (List.mem_filter.1 (List.mem_of_getLast? h)).1
    · exact List.mem_of_mem_head? h
  · exact List.mem_of_find?_eq_some h

/-- The last node on the way down through covering children. -/
def covering (n : Node) (range : Span) : Node :=
  match _h : n.coveringChild? range with
  | some c => c.covering range
  | none => n
termination_by sizeOf n.element
decreasing_by exact sizeOf_element_lt_of_mem_children (mem_children_of_coveringChild? _h)

/-- The smallest node around a range. There is none for a range that is inverted or not inside. -/
def covering? (n : Node) (range : Span) : Option Node :=
  if range.start ≤ range.stop && n.span.contains range then some (n.covering range) else none

end Node
end SqlTree
