import SqlTree.Proofs.Cursor

/-!
# Walks visit a subtree in pre-order

In pre-order a node comes before all that is below it, and all below one child comes before the next
child: the paths to the nodes are in lexicographic order. A walk goes from one path to the next one,
and the climb from the last node of a subtree leads where the climb from its root leads.

- `Element.paths`          : the paths in an element, in pre-order
- `Element.pairwise_paths` : they are in lexicographic order
- `Node.mem_paths`         : and they are the paths that lead to a node
- `Walk.Passes`            : a walk visits the ends of some paths and comes to a position
- `Walk.passes_paths`      : a walk over a subtree visits the ends of its paths, then climbs on
- `Walk.visits_in_preorder` : so a walk visits all nodes once and in pre-order, and then no more
-/

namespace SqlTree

/-! ## Paths in pre-order -/

namespace Element

mutual

/-- The paths from an element to itself and to all below it, in pre-order. -/
def paths : Element → List (List Nat)
  | token .. => [[]]
  | node _ _ _ children => [] :: pathsFrom 0 children

/-- The paths through children that are numbered from `i` on. -/
def pathsFrom : Nat → List Element → List (List Nat)
  | _, [] => []
  | i, e :: rest => e.paths.map (i :: ·) ++ pathsFrom (i + 1) rest

end

variable {e : Element} {es : List Element} {i : Nat} {path : List Nat}

theorem nil_mem_paths (e : Element) : [] ∈ e.paths := by
  cases e with
  | token => exact List.mem_singleton_self _
  | node => exact List.mem_cons_self

theorem mem_pathsFrom : path ∈ pathsFrom i es ↔
    ∃ j c rest, path = (i + j) :: rest ∧ es[j]? = some c ∧ rest ∈ c.paths := by
  induction es generalizing i with
  | nil => simp [pathsFrom]
  | cons e es ih =>
    rw [pathsFrom, List.mem_append, List.mem_map, ih]
    constructor
    · rintro (⟨rest, hrest, rfl⟩ | ⟨j, c, rest, rfl, hc, hrest⟩)
      · exact ⟨0, e, rest, rfl, rfl, hrest⟩
      · exact ⟨j + 1, c, rest, by rw [Nat.add_assoc, Nat.add_comm 1 j], hc, hrest⟩
    · rintro ⟨j, c, rest, rfl, hc, hrest⟩
      cases j with
      | zero =>
        cases hc
        exact .inl ⟨rest, hrest, rfl⟩
      | succ j =>
        exact .inr ⟨j, c, rest, by rw [Nat.add_assoc, Nat.add_comm 1 j], hc, hrest⟩

/-- A path goes on below one of the children. -/
theorem cons_mem_paths : i :: path ∈ e.paths ↔ ∃ c, e.children[i]? = some c ∧ path ∈ c.paths := by
  cases e with
  | token => simp [paths, children]
  | node id kind origin children =>
    rw [paths, List.mem_cons, mem_pathsFrom]
    constructor
    · rintro (hnil | ⟨j, c, rest, hpath, hc, hrest⟩)
      · cases hnil
      · rw [Nat.zero_add] at hpath
        cases hpath
        exact ⟨c, hc, hrest⟩
    · rintro ⟨c, hc, hpath⟩
      exact .inr ⟨i, c, path, by rw [Nat.zero_add], hc, hpath⟩

mutual

/-- What comes before in pre-order comes before in the order of paths. -/
theorem pairwise_paths : (e : Element) → e.paths.Pairwise (· < ·)
  | token .. => List.pairwise_singleton _ _
  | node _ _ _ children => by
    rw [paths]
    refine List.pairwise_cons.2 ⟨fun path hpath => ?_, pairwise_pathsFrom 0 children⟩
    obtain ⟨j, c, rest, rfl, -, -⟩ := mem_pathsFrom.1 hpath
    exact List.nil_lt_cons _ _

theorem pairwise_pathsFrom : (i : Nat) → (es : List Element) → (pathsFrom i es).Pairwise (· < ·)
  | _, [] => List.Pairwise.nil
  | i, e :: rest => by
    rw [pathsFrom]
    refine List.pairwise_append.2 ⟨?_, pairwise_pathsFrom (i + 1) rest, ?_⟩
    · exact (pairwise_paths e).map _ fun path path' h =>
        List.cons_lt_cons_iff.2 (.inr ⟨rfl, h⟩)
    · -- Paths through different children differ in their first numbers.
      intro path hpath path' hpath'
      obtain ⟨below, -, rfl⟩ := List.mem_map.1 hpath
      obtain ⟨j, c, below', rfl, -, -⟩ := mem_pathsFrom.1 hpath'
      exact List.cons_lt_cons_iff.2 (.inl (by omega))

end

end Element

/-- The paths in an element are those that lead somewhere. -/
theorem Node.mem_paths {n : Node} {path : List Nat} :
    path ∈ n.element.paths ↔ (n.descend? path).isSome = true := by
  induction path generalizing n with
  | nil => exact ⟨fun _ => rfl, fun _ => Element.nil_mem_paths _⟩
  | cons i path ih =>
    rw [Element.cons_mem_paths, descend?]
    constructor
    · rintro ⟨e, he, hpath⟩
      obtain ⟨c, hc, rfl⟩ := exists_child? he
      rw [hc, Option.bind_some]
      exact ih.1 hpath
    · intro hsome
      cases hc : n.child? i with
      | none =>
        rw [hc] at hsome
        cases hsome
      | some c =>
        rw [hc, Option.bind_some] at hsome
        exact ⟨c.element, element_of_child? hc, ih.2 hsome⟩

/-! ## Passing over a subtree -/

namespace Cursor

/-- The climb from a child goes to the next child, or on from the parent. -/
theorem climb?_of_child? {c d : Cursor} {i : Nat} (h : c.child? i = some d) :
    d.climb? d.depth = (c.child? (i + 1)).or (c.climb? c.depth) := by
  have hparent := parent?_of_child? h
  obtain ⟨child, hchild, rfl⟩ := Option.map_eq_some_iff.1 h
  rw [climb?, hparent, next?, if_neg (Nat.succ_ne_zero c.depth), Node.next?_of_child? hchild]
  cases hnext : c.current.child? (i + 1) with
  | none => rw [child?, hnext]; rfl
  | some next => rw [child?, hnext]; rfl

end Cursor

namespace Walk

/-- From the first position, a walk visits the ends of paths below `n` in turn, and comes to the last
position. -/
inductive Passes (n : Node) : Option Cursor → List (List Nat) → Option Cursor → Prop where
  | done (position : Option Cursor) : Passes n position [] position
  | visit {c : Cursor} {path : List Nat} {paths : List (List Nat)} {last : Option Cursor}
    (hpath : n.descend? path = some c.current) (more : Passes n c.following? paths last) :
    Passes n (some c) (path :: paths) last

namespace Passes

variable {n m : Node} {first middle last : Option Cursor} {paths paths' : List (List Nat)}

theorem append (h : Passes n first paths middle) (h' : Passes n middle paths' last) :
    Passes n first (paths ++ paths') last := by
  induction h with
  | done => exact h'
  | visit hpath more ih => exact visit hpath (ih h')

/-- Paths below a child are longer paths below its parent. -/
theorem through {i : Nat} (h : Passes m first paths last) (hchild : n.child? i = some m) :
    Passes n first (paths.map (i :: ·)) last := by
  induction h with
  | done position => exact done position
  | visit hpath more ih =>
    refine visit ?_ ih
    rw [Node.descend?, hchild, Option.bind_some, hpath]

end Passes

mutual

/-- A walk over a node and all below it visits them in pre-order. Then it climbs on from the node. -/
theorem passes_paths : (e : Element) → (c : Cursor) → c.current.element = e →
    Passes c.current (some c) e.paths (c.climb? c.depth)
  | .token id kind text, c, h => by
    -- Nothing is below a token, so the step from it is the climb.
    have hnone : c.firstChild? = none := by
      rw [Cursor.firstChild?, Node.child?_eq_none (by rw [h]; exact Nat.le_refl 0)]
      rfl
    refine .visit rfl ?_
    rw [Cursor.following?, hnone]
    exact .done _
  | .node id kind origin children, c, h => by
    -- A node is visited before its children, and the step from it goes to the first of them, if any.
    refine .visit rfl ?_
    exact passes_pathsFrom children c 0 (by rw [h]; rfl)

/-- A walk over the children from number `i` on. -/
theorem passes_pathsFrom : (es : List Element) → (c : Cursor) → (i : Nat) →
    c.current.element.children.drop i = es →
    Passes c.current ((c.child? i).or (c.climb? c.depth)) (Element.pathsFrom i es)
      (c.climb? c.depth)
  | [], c, i, h => by
    rw [Cursor.child?, Node.child?_eq_none (List.drop_eq_nil_iff.1 h)]
    exact .done _
  | e :: rest, c, i, h => by
    obtain ⟨hi, hrest⟩ : c.current.element.children[i]? = some e ∧
        c.current.element.children.drop (i + 1) = rest := by
      constructor
      · rw [← List.head?_drop, h]; rfl
      · rw [← List.tail_drop, h]; rfl
    obtain ⟨child, hchild, helement⟩ := Node.exists_child? hi
    have hd : c.child? i = some { c with current := child, depth := c.depth + 1 } := by
      rw [Cursor.child?, hchild]
      rfl
    -- The subtree of the child comes first; the climb out of it ends where the rest begins.
    have hfront := passes_paths e { c with current := child, depth := c.depth + 1 } helement
    rw [Cursor.climb?_of_child? hd] at hfront
    rw [hd, Option.some_or, Element.pathsFrom]
    exact (hfront.through hchild).append (passes_pathsFrom rest c (i + 1) hrest)

end

/-! ## Steps of a walk -/

theorem root_after (w : Walk) (k : Nat) : (w.after k).root = w.root := by
  induction k generalizing w with
  | zero => rfl
  | succ k ih =>
    rw [after, ih, next]
    cases w.position <;> rfl

namespace Passes

variable {n : Node} {first : Option Cursor} {paths : List (List Nat)} {w : Walk}

/-- After some steps, the paths that have been visited are left out. -/
theorem after (h : Passes n first paths none) (hw : w.position = first) (k : Nat) :
    Passes n (w.after k).position (paths.drop k) none := by
  induction k generalizing w first paths with
  | zero =>
    rw [Walk.after, hw]
    exact h
  | succ k ih =>
    rw [Walk.after]
    cases h with
    | done =>
      -- A walk that has come to its end stays there.
      have hstays : w.next.2 = w := by rw [next, hw]
      rw [hstays, List.drop_nil]
      simpa using ih (done none) hw
    | visit hpath more =>
      rw [List.drop_succ_cons]
      exact ih more (by rw [next, hw])

theorem next_eq (h : Passes n first paths none) (hw : w.position = first) :
    w.next.1 = paths.head?.bind n.descend? := by
  rw [next, hw]
  cases h with
  | done => rfl
  | visit hpath more => exact hpath.symm

theorem take_eq (h : Passes n first paths none) (hw : w.position = first) (k : Nat) :
    (w.take k).1 = (paths.take k).filterMap n.descend? := by
  induction k generalizing w first paths with
  | zero => rfl
  | succ k ih =>
    rw [Walk.take, next, hw]
    cases h with
    | done => rfl
    | visit hpath more =>
      rw [List.take_succ_cons, List.filterMap_cons, hpath]
      dsimp only
      rw [ih more rfl]

end Passes

/-- From any node, a walk visits the node and all nodes below it, each of them once and in pre-order,
and after that nothing. Wherever it is, it can be started over. -/
theorem visits_in_preorder (n : Node) : ∃ paths : List (List Nat),
    paths.Pairwise (· < ·) ∧
      (∀ path, path ∈ paths ↔ (n.descend? path).isSome = true) ∧
      (∀ path path' m, n.descend? path = some m → n.descend? path' = some m → path = path') ∧
      ∀ k, ((ofNode n).after k).next.1 = paths[k]?.bind n.descend? ∧
        (∀ count, (((ofNode n).after k).take count).1 =
          ((paths.drop k).take count).filterMap n.descend?) ∧
        ((ofNode n).after k).restart = ofNode n := by
  refine ⟨n.element.paths, Element.pairwise_paths _, fun path => Node.mem_paths,
    fun path path' m => Node.descend?_injective, fun k => ?_⟩
  have hpasses : Passes n ((ofNode n).after k).position (n.element.paths.drop k) none :=
    (passes_paths n.element (Cursor.ofNode n) rfl).after rfl k
  refine ⟨?_, hpasses.take_eq rfl, ?_⟩
  · rw [hpasses.next_eq rfl, List.head?_drop]
  · rw [restart, root_after]
    rfl

end Walk
end SqlTree
