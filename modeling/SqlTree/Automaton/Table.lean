import SqlTree.Automaton.Basic

/-!
# Parse tables

For every state, the actions on every terminal and the state after every nonterminal. Binding
strengths decide between shifting and reducing; where they do not, all actions that are left stay
in the table, the shift first and the reductions by number.

- `Action`  : what to do with a terminal
- `resolve` : the actions that binding strengths leave
- `Row`     : the part of a table for one state
- `Table`   : a grammar with its rows
-/

namespace SqlTree

inductive Action where
  | shift (state : Nat)
  | reduce (production : Nat)
  | accept
  deriving DecidableEq, Repr

namespace Table

/-! ## Cells -/

def precOf (g : Grammar) (production : Nat) : Int :=
  ((g.productions[production]?).map Production.prec).getD 0

def assocOf (g : Grammar) (production : Nat) : Assoc :=
  ((g.productions[production]?).map Production.assoc).getD .none

/-- The reductions of the greatest binding strength. -/
def strongest (g : Grammar) (reductions : List Nat) : List Nat :=
  match (reductions.map (precOf g)).max? with
  | some best => reductions.filter fun p => precOf g p == best
  | none => []

/-- Decides between a shift and reductions. The stronger side stays; between equal strengths the
first reduction's grouping decides, and without one both sides stay. -/
def resolve (g : Grammar) (shift : Option (Nat × Int)) (reductions : List Nat) : List Action :=
  let reductions := strongest g reductions
  let reduces := reductions.map Action.reduce
  match shift, reductions with
  | none, _ => reduces
  | some (state, _), [] => [.shift state]
  | some (state, strength), first :: _ =>
    if strength < precOf g first then reduces
    else if precOf g first < strength then [.shift state]
    else match assocOf g first with
      | .left => reduces
      | .right => [.shift state]
      | .none => .shift state :: reduces

end Table

/-! ## Rows -/

/-- The part of a table for one state. -/
structure Row where
  /-- The actions on every terminal. -/
  actions : Array (List Action)
  /-- The state after every nonterminal. -/
  gotos : Array (Option Nat)
  /-- The innermost visible rule under way. -/
  context : Option Kind
  deriving DecidableEq

namespace Row

/-- The greatest strength with which a terminal is shifted. -/
def shiftStrength? (g : Grammar) (items : Kernel) (kind : Kind) : Option Int :=
  (items.filterMap fun (item, _) =>
    match item.rest g with
    | .terminal next :: _ => if next = kind then some (Table.precOf g item.production) else none
    | _ => none).max?

/-- The productions that are complete, with their lookaheads, ascending. -/
def complete (g : Grammar) (items : Kernel) : List (Nat × TerminalSet) :=
  (Kernel.sort <| items.filter fun (item, _) => (item.rest g).isEmpty).map
    fun (item, lookahead) => (item.production, lookahead)

/-- The row of a state with the given items. Where the start rule is complete, the end of the input
is accepted whatever else is possible. -/
def ofItems (g : Grammar) (kernel items : Kernel) (edges : List (Symbol × Nat)) : Row :=
  let complete := complete g items
  let accepts := complete.any fun (production, _) => production == Grammar.acceptProduction
  let reductions := complete.filter fun (production, _) => production != Grammar.acceptProduction
  { actions := (Kind.terminals.map fun kind =>
      if accepts && kind == .eof then [.accept]
      else
        let shift := (edges.lookup (.terminal kind)).map fun state =>
          (state, (shiftStrength? g items kind).getD 0)
        Table.resolve g shift
          (reductions.filterMap fun (production, lookahead) =>
            if lookahead.contains kind then some production else none)).toArray
    gotos := ((List.range g.nonterminals.size).map fun i =>
      edges.lookup (.nonterminal i)).toArray
    context := kernel.findSome? fun (item, _) =>
      (g.productions[item.production]?).bind fun production => g.visibleKind? production.lhs }

end Row

/-! ## Tables -/

structure Table where
  grammar : Grammar
  rows : Array Row

namespace Table

/-- The table without states. -/
def empty : Table := ⟨Grammar.empty, #[]⟩

/-- The table of a grammar. -/
def ofGrammar (g : Grammar) : Table :=
  let setting := Closure.Setting.ofGrammar g
  let automaton := Automaton.build setting
  { grammar := g
    rows := ((List.range automaton.kernels.size).map fun state =>
      let kernel := automaton.kernel state
      Row.ofItems g kernel (Closure.ofKernel setting kernel) (automaton.edges state)).toArray }

def stateCount (t : Table) : Nat := t.rows.size

/-- The actions of a state on a terminal, the shift first. -/
def actions (t : Table) (state : Nat) (kind : Kind) : List Action :=
  match t.rows[state]? with
  | some row => row.actions.getD kind.id []
  | none => []

def hasAction (t : Table) (state : Nat) (kind : Kind) : Bool := !(t.actions state kind).isEmpty

/-- The state after a nonterminal. -/
def goto? (t : Table) (state nonterminal : Nat) : Option Nat :=
  (t.rows[state]?).bind fun row => row.gotos.getD nonterminal none

/-- The state after a node of a kind. -/
def gotoKind? (t : Table) (state : Nat) (kind : Kind) : Option Nat :=
  (t.grammar.nonterminalOfKind? kind).bind (t.goto? state)

/-- The innermost visible rule under way in a state. -/
def context? (t : Table) (state : Nat) : Option Kind := (t.rows[state]?).bind Row.context

/-- The terminals with at least one action, in the order of their numbers. -/
def expected (t : Table) (state : Nat) : List Kind := Kind.terminals.filter (t.hasAction state)

/-- The number of cells that are left with more than one action. -/
def conflictCount (t : Table) : Nat :=
  t.rows.foldl (fun n row => n + row.actions.countP fun cell => 1 < cell.length) 0

end Table
end SqlTree
