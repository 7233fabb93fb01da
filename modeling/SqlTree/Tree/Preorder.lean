import Std.Data.HashSet
import SqlTree.Tree.Element

/-!
# Pre-order

All elements of a tree from the root down and from left to right, each with its depth and its start.
-/

namespace SqlTree

/-- An element with its depth below the root and its offset. -/
structure Visit where
  depth : Nat
  start : Nat
  element : Element

def Visit.stop (v : Visit) : Nat := v.start + v.element.size

namespace Element

mutual

/-- The element at byte `start` and all below it. -/
def preorder : Element → Nat → Nat → List Visit
  | token id kind text, depth, start => [⟨depth, start, token id kind text⟩]
  | node id kind origin children, depth, start =>
    ⟨depth, start, node id kind origin children⟩ :: preorderAll children (depth + 1) start

def preorderAll : List Element → Nat → Nat → List Visit
  | [], _, _ => []
  | e :: rest, depth, start => e.preorder depth start ++ preorderAll rest depth (start + e.size)

end

/-- All elements, the root at depth 0 and offset 0. -/
def visits (e : Element) : List Visit := e.preorder 0 0

/-- The elements that `e` shares with `other`, which are those with the same numbers. -/
def sharedWith (e other : Element) : List Visit :=
  let ids := Std.HashSet.ofList (other.visits.map fun v => v.element.id)
  e.visits.filter fun v => ids.contains v.element.id

/-- The composite nodes among the shared elements. -/
def sharedNodes (e other : Element) : List Visit :=
  (e.sharedWith other).filter fun v => !v.element.isToken

/-- The tokens among the shared elements. -/
def sharedTokens (e other : Element) : List Visit :=
  (e.sharedWith other).filter fun v => v.element.isToken

end Element
end SqlTree
