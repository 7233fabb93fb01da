import SqlTree.Automaton.Table
import SqlTree.Edit
import SqlTree.Tree.Preorder

/-!
# Taking over old nodes

A node of the previous tree can be taken over where the parser comes to its first token in the
state in which the node was begun, if the edit is outside of all that was looked at when the node
was made.

- `Reuse`       : the nodes of the previous tree with the edit made since
- `Reuse.fits`  : whether a node can be taken over
- `Reuse.find?` : the node to be taken over at an offset
-/

namespace SqlTree

structure Reuse where
  /-- The composite nodes below the root of the previous tree, in pre-order. -/
  nodes : List Visit
  /-- The edit made since. -/
  edit : Edit

namespace Reuse

def ofRoot (root : Element) (edit : Edit) : Reuse where
  nodes := root.visits.tail.filter fun v => !v.element.isToken
  edit := edit

/-- Whether a node can be taken over in a state. The bytes that matter to it have to end before the
edit, or it has to begin after the bytes that were replaced. -/
def fits (reuse : Reuse) (table : Table) (state : Nat) (v : Visit) : Bool :=
  match v.element.origin? with
  | none => false
  | some origin =>
    !v.element.kind.isErrorOrMissing && 0 < v.element.size && origin.reusable &&
      origin.state == state && (table.gotoKind? state v.element.kind).isSome &&
      (v.start + origin.lookahead ≤ reuse.edit.start || reuse.edit.oldStop ≤ v.start)

/-- The outermost node that starts where byte `position` of the new text was and can be taken over
in a state. Nodes that are not empty and start at the same byte lie inside one another, so the
outermost is the first. -/
def find? (reuse : Reuse) (table : Table) (state position : Nat) : Option Element :=
  (reuse.edit.oldOffset? position).bind fun old =>
    (reuse.nodes.find? fun v => v.start == old && reuse.fits table state v).map Visit.element

end Reuse
end SqlTree
