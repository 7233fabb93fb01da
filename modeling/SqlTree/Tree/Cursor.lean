import SqlTree.Tree.Node

/-!
# Cursors and walks

A cursor moves from node to node and never leaves the part of the tree below the node on which it
was made. A walk uses one to visit that part in pre-order.

- `Cursor`       : a place below a node
- `Cursor.firstChild?`, `Cursor.next?`, `Cursor.prev?`, `Cursor.parent?` : the moves
- `Cursor.move`, `Cursor.run` : a move that may fail, and several of them
- `Walk.next`    : the next node in pre-order
- `Walk.after`   : the walk after several steps
- `Walk.take`    : several nodes at once
-/

namespace SqlTree

structure Cursor where
  /-- The node on which the cursor was made. -/
  root : Node
  current : Node
  /-- Levels below the root. -/
  depth : Nat

namespace Cursor

def ofNode (n : Node) : Cursor := ⟨n, n, 0⟩

def reset (c : Cursor) : Cursor := ofNode c.root

def firstChild? (c : Cursor) : Option Cursor :=
  (c.current.child? 0).map fun child => { c with current := child, depth := c.depth + 1 }

/-- The siblings of the root are out of reach. -/
def next? (c : Cursor) : Option Cursor :=
  if c.depth = 0 then none else c.current.next?.map fun n => { c with current := n }

def prev? (c : Cursor) : Option Cursor :=
  if c.depth = 0 then none else c.current.prev?.map fun n => { c with current := n }

def parent? (c : Cursor) : Option Cursor :=
  if c.depth = 0 then none
  else c.current.parent?.map fun n => { c with current := n, depth := c.depth - 1 }

/-- The first child that ends after byte `offset`, with its number. -/
def childPast? (c : Cursor) (offset : Nat) : Option (Nat × Cursor) :=
  let children := c.current.children
  (children.findIdx? fun child => offset < child.stop).bind fun i =>
    children[i]?.map fun child => (i, { c with current := child, depth := c.depth + 1 })

/-! ## Moves in turn -/

/-- The ways to move a cursor. -/
inductive Move where
  | firstChild
  | next
  | prev
  | parent
  /-- To the first child that ends after a byte. -/
  | childPast (offset : Nat)
  /-- Back to the root. -/
  | reset
  deriving DecidableEq, Repr

/-- What a move reports. -/
inductive Report where
  | failed
  | moved
  /-- Led to the child with this number. -/
  | child (index : Nat)
  deriving DecidableEq, Repr

/-- The cursor after a move, if the move can be made, with the report. -/
def attempt? (c : Cursor) : Move → Option (Report × Cursor)
  | .firstChild => c.firstChild?.map (.moved, ·)
  | .next => c.next?.map (.moved, ·)
  | .prev => c.prev?.map (.moved, ·)
  | .parent => c.parent?.map (.moved, ·)
  | .childPast offset => (c.childPast? offset).map fun (i, child) => (.child i, child)
  | .reset => some (.moved, c.reset)

/-- Makes a move; the cursor stays where it is if that fails. -/
def move (c : Cursor) (m : Move) : Report × Cursor := (c.attempt? m).getD (.failed, c)

/-- The cursor after several moves. -/
def run (c : Cursor) (moves : List Move) : Cursor := moves.foldl (fun c m => (c.move m).2) c

/-! ## The next node in pre-order -/

/-- The nearest following sibling of the current node or of a node above it, at most `levels`
levels up. -/
def climb? : Nat → Cursor → Option Cursor
  | 0, c => c.next?
  | levels + 1, c =>
    match c.next? with
    | some next => some next
    | none => c.parent?.bind (climb? levels)

/-- The next node in pre-order. -/
def following? (c : Cursor) : Option Cursor := c.firstChild?.or (c.climb? c.depth)

end Cursor

/-- A pre-order walk that is under way. -/
structure Walk where
  root : Node
  /-- The node to be visited next, if there is one. -/
  position : Option Cursor

namespace Walk

def ofNode (n : Node) : Walk := ⟨n, some (Cursor.ofNode n)⟩

def restart (w : Walk) : Walk := ofNode w.root

/-- The next node, and the walk after it. -/
def next (w : Walk) : Option Node × Walk :=
  match w.position with
  | none => (none, w)
  | some c => (some c.current, { w with position := c.following? })

/-- The walk after `n` steps. -/
def after : Nat → Walk → Walk
  | 0, w => w
  | n + 1, w => after n w.next.2

/-- At most `n` nodes, and the walk after them. -/
def take : Nat → Walk → List Node × Walk
  | 0, w => ([], w)
  | n + 1, w =>
    match w.next with
    | (none, w) => ([], w)
    | (some node, w) =>
      let (nodes, w) := take n w
      (node :: nodes, w)

end Walk
end SqlTree
