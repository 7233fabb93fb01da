import SqlTree.Tree.Element

/-!
# Changes between trees

The range of the new tree that holds everything in which it differs from an old one. Equal children
are left out at both ends, and where a single pair of nodes is left the search goes on inside it.
-/

namespace SqlTree
namespace Element

/-- The number of leading elements that are the same in both lists. -/
def commonFront : List Element → List Element → Nat
  | e :: rest, e' :: rest' => if e.same e' then commonFront rest rest' + 1 else 0
  | _, _ => 0

/-- What is left of the second list between the elements that both lists have at their ends, and
the same of the first; with the number of elements in front. -/
def differing (old new : List Element) : Nat × List Element × List Element :=
  let front := commonFront old new
  let old := old.drop front
  let new := new.drop front
  let back := commonFront old.reverse new.reverse
  (front, old.take (old.length - back), new.take (new.length - back))

theorem mem_of_mem_differing {old new : List Element} {e : Element}
    (h : e ∈ (differing old new).2.2) : e ∈ new :=
  List.mem_of_mem_drop (List.mem_of_mem_take h)

/-- The range in which `new`, which starts at byte `start`, differs from `old`. Where children were
only removed, it is empty and stands in their place. -/
def change? (old new : Element) (start : Nat) : Option Span :=
  if old.kind ≠ new.kind then some ⟨start, start + new.size⟩
  else
    let parts := differing old.children new.children
    let offset := start + sizeAll (new.children.take parts.1)
    match parts.2.1, _h : parts.2.2 with
    | [], [] => none
    | [a], [b] =>
      if !a.isToken && !b.isToken && a.kind == b.kind then change? a b offset
      else some ⟨offset, offset + b.size⟩
    | _, changed => some ⟨offset, offset + sizeAll changed⟩
termination_by sizeOf new
decreasing_by
  exact sizeOf_lt_of_mem_children (mem_of_mem_differing (_h ▸ List.mem_singleton_self b))

end Element
end SqlTree
