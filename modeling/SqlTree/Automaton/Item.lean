import SqlTree.Automaton.First

/-!
# Items

An item is a production with a mark in its right-hand side: what is before the mark has been read.
With each item goes the set of terminals that may follow the production. All items that begin a
production of the same nonterminal come with the same set, so the closure of a kernel is known by
the nonterminals that it begins.

- `Item`    : production and mark
- `Kernel`  : items with their lookaheads
- `Kernel.sort` : the items in order
- `Begun`   : nonterminals in the order in which they are begun, with what may follow them
- `Closure.ofKernel` : the items of a kernel and those that it begins
-/

namespace SqlTree

structure Item where
  production : Nat
  mark : Nat
  deriving DecidableEq, Repr

namespace Item

/-- Items are ordered by production, then by mark. -/
def le (a b : Item) : Bool :=
  a.production < b.production || (a.production == b.production && a.mark ≤ b.mark)

/-- The item with one more symbol read. -/
def advance (item : Item) : Item := { item with mark := item.mark + 1 }

/-- The item at the beginning of a production. -/
def opening (production : Nat) : Item := ⟨production, 0⟩

/-- What is still to be read. -/
def rest (g : Grammar) (item : Item) : List Symbol :=
  match g.productions[item.production]? with
  | some production => production.rhs.drop item.mark
  | none => []

end Item

/-- Items with their lookaheads. -/
abbrev Kernel := List (Item × TerminalSet)

namespace Kernel

/-- The items without their lookaheads. -/
def core (kernel : Kernel) : List Item := kernel.map Prod.fst

/-- Whether two kernels have the same items in the same order. -/
def sameCore : Kernel → Kernel → Bool
  | [], [] => true
  | (a, _) :: rest, (b, _) :: others => a == b && sameCore rest others
  | _, _ => false

theorem sameCore_iff (a b : Kernel) : a.sameCore b = true ↔ a.core = b.core := by
  induction a generalizing b with
  | nil => cases b <;> simp [sameCore, core]
  | cons first rest ih => cases b <;> simp_all [sameCore, core]

/-- Puts an item before the first one that it does not come after. -/
def insert (entry : Item × TerminalSet) : Kernel → Kernel
  | [] => [entry]
  | first :: rest =>
    if entry.1.le first.1 then entry :: first :: rest else first :: insert entry rest

/-- The items in order. -/
def sort (kernel : Kernel) : Kernel := kernel.foldr insert []

theorem insert_perm (entry : Item × TerminalSet) (kernel : Kernel) :
    (insert entry kernel).Perm (entry :: kernel) := by
  induction kernel with
  | nil => exact .refl _
  | cons first rest ih =>
    unfold insert
    split
    · exact .refl _
    · exact (ih.cons first).trans (.swap entry first rest)

/-- Sorting loses no item and adds none. -/
theorem sort_perm (kernel : Kernel) : (sort kernel).Perm kernel := by
  induction kernel with
  | nil => exact .refl _
  | cons entry rest ih => exact (insert_perm entry (sort rest)).trans (ih.cons entry)

end Kernel

/-! ## Begun nonterminals -/

structure Begun where
  /-- The nonterminals, in the order in which they were begun. -/
  order : Array Nat
  /-- What may follow each of them, for those that were begun. -/
  follows : Array (Option TerminalSet)

namespace Begun

/-- None of `n` nonterminals. -/
def none (n : Nat) : Begun := ⟨#[], Array.replicate n .none⟩

/-- What may follow a nonterminal, as far as it was begun. -/
def follow (b : Begun) (nonterminal : Nat) : TerminalSet :=
  (b.follows.getD nonterminal .none).getD .empty

/-- Begins a nonterminal, or adds to what may follow it, and says whether that is new. -/
def add (b : Begun) (nonterminal : Nat) (follow : TerminalSet) : Begun × Bool :=
  match b.follows.getD nonterminal .none with
  | .none =>
    (⟨b.order.push nonterminal, b.follows.setIfInBounds nonterminal (some follow)⟩, true)
  | some known =>
    let united := known.union follow
    if united = known then (b, false)
    else (⟨b.order, b.follows.setIfInBounds nonterminal (some united)⟩, true)

end Begun

/-! ## Closure -/

namespace Closure

/-- The grammar with what a closure needs of it at every step. -/
structure Setting where
  grammar : Grammar
  first : First
  /-- The productions of every nonterminal. -/
  openings : Array (List Nat)

def Setting.ofGrammar (g : Grammar) : Setting where
  grammar := g
  first := First.ofGrammar g
  openings := ((List.range g.nonterminals.size).map g.productionsOf).toArray

/-- An item to be followed up. -/
inductive Task where
  /-- An item of the kernel: what is still to be read, and its lookahead. -/
  | kernel (rest : List Symbol) (lookahead : TerminalSet)
  /-- The beginning of a production, with the lookahead of its nonterminal. -/
  | opening (production : Nat)

/-- What a task has still to read, and what may follow it. -/
def Task.outlook (g : Grammar) (begun : Begun) : Task → List Symbol × TerminalSet
  | kernel rest lookahead => (rest, lookahead)
  | opening production =>
    match g.productions[production]? with
    | some p => (p.rhs, begun.follow p.lhs)
    | none => ([], .empty)

/-- Follows up the pending tasks, the last one first, at most `fuel` of them. -/
def close (setting : Setting) : Nat → Begun → List Task → Begun
  | 0, begun, _ => begun
  | _, begun, [] => begun
  | fuel + 1, begun, task :: pending =>
    match task.outlook setting.grammar begun with
    | (.nonterminal i :: after, lookahead) =>
      let (begun, grew) := begun.add i (setting.first.ofSequence lookahead after)
      if grew then
        close setting fuel begun
          ((setting.openings.getD i []).foldl (fun pending p => .opening p :: pending) pending)
      else close setting fuel begun pending
    | _ => close setting fuel begun pending

/-- The nonterminals that a kernel begins. A nonterminal makes its productions pending when it is
begun, and again each time a terminal is added, which bounds the number of steps. -/
def begun (setting : Setting) (kernel : Kernel) : Begun :=
  let tasks := kernel.map fun (item, lookahead) =>
    Task.kernel (item.rest setting.grammar) lookahead
  let items := kernel.length + setting.grammar.productions.size
  close setting (items * (Kind.count + 2)) (Begun.none setting.grammar.nonterminals.size)
    tasks.reverse

/-- The items of a kernel and those that it begins, in the order in which they are found. -/
def ofKernel (setting : Setting) (kernel : Kernel) : Kernel :=
  let begun := begun setting kernel
  kernel ++ begun.order.toList.flatMap fun i =>
    (setting.openings.getD i []).map fun p => (Item.opening p, begun.follow i)

end Closure
end SqlTree
