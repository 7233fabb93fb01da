import SqlTree.Tree.Element

/-!
# The stack

The stack is a list of entries, the top first. Most entries stand for a grammar symbol; extra ones
hold what was skipped between two symbols, and reductions do not count them.

- `Entry`            : a state with what was read on the way to it
- `Entry.ofChildren` : several entries as one
- `Stack.popSymbols?` : the entries of the last grammar symbols
- `Overlay`          : a stack of states on top of the real one, for looking ahead
-/

namespace SqlTree

structure Entry where
  state : Nat
  /-- Trivia in front of the first element. -/
  leading : List Element := []
  elements : List Element := []
  start : Nat
  stop : Nat
  /-- Depends on a choice between several actions. -/
  fragile : Bool := false
  /-- Contains a node that a repair left. -/
  hasError : Bool := false
  /-- Stands between grammar symbols. -/
  extra : Bool := false

namespace Entry

/-- The entry below all others. -/
def bottom : Entry where
  state := 0
  start := 0
  stop := 0

/-- Puts an entry behind what has been joined so far. Trivia in front of the first element stay
outside. -/
def join (entry child : Entry) : Entry where
  state := entry.state
  leading := if entry.elements.isEmpty then entry.leading ++ child.leading else entry.leading
  elements :=
    if entry.elements.isEmpty then child.elements
    else entry.elements ++ child.leading ++ child.elements
  start := if entry.elements.isEmpty && !child.elements.isEmpty then child.start else entry.start
  stop := if child.elements.isEmpty then entry.stop else child.stop
  fragile := entry.fragile || child.fragile
  hasError := entry.hasError || child.hasError
  extra := entry.extra

/-- The entries, the lowest first, as one that stands at `offset` if they are empty. -/
def ofChildren (state : Nat) (children : List Entry) (offset : Nat) : Entry :=
  children.foldl join { state := state, start := offset, stop := offset }

end Entry

/-- The entries, the top first. -/
abbrev Stack := List Entry

namespace Stack

def topState (stack : Stack) : Nat :=
  match stack with
  | entry :: _ => entry.state
  | [] => 0

/-- Takes the entries of `n` grammar symbols from the stack, with the extra entries between them,
in front of those taken already. The lowest entry stays. -/
def popSymbols? : Nat → Stack → List Entry → Option (List Entry × Stack)
  | 0, stack, taken => some (taken, stack)
  | n + 1, entry :: below :: rest, taken =>
    if entry.extra then popSymbols? (n + 1) (below :: rest) (entry :: taken)
    else popSymbols? n (below :: rest) (entry :: taken)
  | _ + 1, _, _ => none

/-- The states of the grammar symbols, the top first. -/
def states (stack : Stack) : List Nat := (stack.filter fun entry => !entry.extra).map Entry.state

end Stack

/-! ## Looking ahead -/

/-- A stack of states that shares what it can with the real stack. -/
structure Overlay where
  /-- States pushed while looking ahead, the top first. -/
  pushed : List Nat
  /-- What is left of the real stack. -/
  below : Stack

namespace Overlay

/-- The stack without its top `depth` entries, extra ones counted. -/
def popped (stack : Stack) (depth : Nat) : Overlay := ⟨[], stack.drop depth⟩

def ofStack (stack : Stack) : Overlay := popped stack 0

def top? (o : Overlay) : Option Nat :=
  match o.pushed with
  | state :: _ => some state
  | [] => (o.below.find? fun entry => !entry.extra).map Entry.state

def push (o : Overlay) (state : Nat) : Overlay := { o with pushed := state :: o.pushed }

/-- Takes `n` grammar symbols from the real stack; whether there were as many. -/
def popBelow : Nat → Stack → Bool × Stack
  | 0, stack => (true, stack)
  | n + 1, stack =>
    match stack.dropWhile Entry.extra with
    | _ :: rest => popBelow n rest
    | [] => (false, [])

/-- Takes `n` states from the stack; whether there were as many. -/
def pop (o : Overlay) (n : Nat) : Bool × Overlay :=
  let (enough, below) := popBelow (n - o.pushed.length) o.below
  (enough, ⟨o.pushed.drop n, below⟩)

/-- All states, the top first. -/
def states (o : Overlay) : List Nat := o.pushed ++ o.below.states

@[simp]
theorem states_push (o : Overlay) (state : Nat) : (o.push state).states = state :: o.states := rfl

theorem top?_eq_head? (o : Overlay) : o.top? = o.states.head? := by
  obtain ⟨pushed, below⟩ := o
  cases pushed with
  | cons state rest => rfl
  | nil =>
    simp only [top?, states, Stack.states, List.nil_append]
    induction below with
    | nil => rfl
    | cons entry below ih =>
      by_cases h : entry.extra <;> simp_all

end Overlay
end SqlTree
