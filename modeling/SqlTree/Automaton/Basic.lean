import SqlTree.Automaton.Item

/-!
# The automaton of a grammar

States are kernels: the items that are under way. Kernels with the same items are one state, and
their lookaheads are united. A state whose lookaheads grow is expanded again, so that the new
terminals reach its successors.

- `Automaton`            : states and transitions
- `Automaton.successors` : the kernels after each symbol
- `Automaton.intern`     : the state of a kernel
- `Automaton.build`      : the finished automaton
-/

namespace SqlTree

structure Automaton where
  /-- The kernel of every state, its items in order. -/
  kernels : Array Kernel
  /-- The symbols that every state can read, with the states after them. -/
  transitions : Array (List (Symbol × Nat))
  /-- The states still to be expanded, the next one first. -/
  queue : List Nat

namespace Automaton

def empty : Automaton where
  kernels := #[]
  transitions := #[]
  queue := []

def kernel (a : Automaton) (state : Nat) : Kernel := a.kernels.getD state []

/-- The states after a state, each with the symbol that leads to it. -/
def edges (a : Automaton) (state : Nat) : List (Symbol × Nat) := a.transitions.getD state []

/-- Puts a state at the end of the queue unless it is waiting there. -/
def enqueue (a : Automaton) (state : Nat) : Automaton :=
  if state ∈ a.queue then a else { a with queue := a.queue ++ [state] }

/-- Unites the lookaheads of two kernels with the same items, and says whether the first grew. -/
def merge : Kernel → Kernel → Kernel × Bool
  | (item, known) :: rest, (_, lookahead) :: others =>
    let (rest, grew) := merge rest others
    ((item, known.union lookahead) :: rest, known.grows lookahead || grew)
  | kernel, _ => (kernel, false)

/-- The state that has the items of a kernel. -/
def find? (a : Automaton) (kernel : Kernel) : Option Nat := a.kernels.findIdx? kernel.sameCore

/-- The state of a kernel, new or united with the one that has the same items. -/
def intern (a : Automaton) (kernel : Kernel) : Nat × Automaton :=
  match a.find? kernel with
  | some state =>
    let (merged, grew) := merge (a.kernel state) kernel
    if grew then
      (state, { a with kernels := a.kernels.setIfInBounds state merged }.enqueue state)
    else (state, a)
  | none =>
    let state := a.kernels.size
    (state, { a with
      kernels := a.kernels.push kernel
      transitions := a.transitions.push [] }.enqueue state)

/-! ## Successors -/

/-- The items that have a symbol to read, with that symbol. -/
def readable (g : Grammar) (items : Kernel) : List (Symbol × Item × TerminalSet) :=
  items.filterMap fun (item, lookahead) =>
    (item.rest g).head?.map fun symbol => (symbol, item, lookahead)

/-- The kernel after a symbol. -/
def after (readable : List (Symbol × Item × TerminalSet)) (symbol : Symbol) : Kernel :=
  Kernel.sort <| readable.filterMap fun (next, item, lookahead) =>
    if next = symbol then some (item.advance, lookahead) else none

/-- The kernels after each symbol, the symbols in the order in which the items ask for them. -/
def successors (g : Grammar) (items : Kernel) : List (Symbol × Kernel) :=
  let readable := readable g items
  (readable.map Prod.fst).eraseDups.map fun symbol => (symbol, after readable symbol)

/-- The states of several kernels, each with the symbol that leads to it. -/
def internAll : List (Symbol × Kernel) → Automaton → List (Symbol × Nat) × Automaton
  | [], a => ([], a)
  | (symbol, kernel) :: rest, a =>
    let (target, a) := a.intern kernel
    let (edges, a) := internAll rest a
    ((symbol, target) :: edges, a)

/-- Makes all successors of a state. -/
def expand (setting : Closure.Setting) (a : Automaton) (state : Nat) : Automaton :=
  let items := Closure.ofKernel setting (a.kernel state)
  let (edges, a) := internAll (successors setting.grammar items) a
  { a with transitions := a.transitions.setIfInBounds state edges }

/-- Expands queued states until none is left, at most `fuel` of them. -/
def saturate (setting : Closure.Setting) : Nat → Automaton → Automaton
  | 0, a => a
  | fuel + 1, a =>
    match a.queue with
    | [] => a
    | state :: rest => saturate setting fuel ({ a with queue := rest }.expand setting state)

/-- The automaton before any state is expanded. -/
def initial : Automaton :=
  (empty.intern [(Item.opening Grammar.acceptProduction, .singleton .eof)]).2

/-- The number of items of a grammar. -/
def itemCount (g : Grammar) : Nat := g.productions.foldl (fun n p => n + (p.rhs.length + 1)) 0

/-- The automaton of a grammar. A state is expanded once, and once more each time one of its
lookaheads grows; there are no more states than sets of items. -/
def build (setting : Closure.Setting) : Automaton :=
  let items := itemCount setting.grammar
  saturate setting (Nat.pow 2 items * (items * Kind.count + 1) + 1) initial

end Automaton
end SqlTree
