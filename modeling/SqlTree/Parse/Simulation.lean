import SqlTree.Automaton.Table
import SqlTree.Parse.Source
import SqlTree.Parse.Stack

/-!
# Looking ahead

A simulation runs the automaton over the coming tokens without building anything, always taking the
first action of a cell. How far it gets decides between several actions and tells whether a repair
is any good.

- `firstAction?` : the action that a simulation takes
- `Reach`        : how far a simulation got
- `Simulation`   : a simulation under way
- `Simulation.run` : the simulation to its end
-/

namespace SqlTree

namespace Table

/-- The first action on a token; a keyword that may be an identifier is one where the keyword does
not fit. -/
def firstAction? (t : Table) (state : Nat) (kind : Kind) : Option Action :=
  (t.actions state kind).head?.or
    (if kind.isContextual then (t.actions state .ident).head? else none)

/-- Whether a state can go on with a token, a `>>` possibly read as two `>`. -/
def accepts (t : Table) (state : Nat) (kind : Kind) : Bool :=
  (t.firstAction? state kind).isSome || (kind == .shr && (t.firstAction? state .gt).isSome)

end Table

/-- How far a simulation got. -/
inductive Reach where
  /-- It stopped after a number of tokens. -/
  | consumed (tokens : Nat)
  /-- It came to the end of the input. -/
  | accepted
  deriving DecidableEq, Repr

namespace Reach

def atLeast : Reach → Nat → Bool
  | consumed n, tokens => tokens ≤ n
  | accepted, _ => true

/-- Whether the first got further than the second. -/
def beyond : Reach → Reach → Bool
  | consumed n, consumed m => m < n
  | accepted, consumed _ => true
  | _, accepted => false

end Reach

/-- What a simulation is asked to do. -/
structure Trial where
  /-- An action to begin with, whatever the table says. -/
  forced : Option Action := none
  /-- A token to be read before the input. -/
  injected : Option Kind := none
  /-- The number of input tokens to leave out. -/
  skipped : Nat := 0
  /-- The number of tokens after which to stop. -/
  limit : Nat

/-- A simulation under way. -/
structure Simulation where
  stack : Overlay
  source : Source
  consumed : Nat := 0
  /-- The halves of a split `>>` that are still to be shifted. -/
  halves : Nat := 0

namespace Simulation

/-- The token to be read next. -/
def kind (trial : Trial) (s : Simulation) : Kind × Simulation :=
  let look (n : Nat) : Kind × Simulation :=
    let (lexeme, source) := s.source.peek n
    (lexeme.kind, { s with source := source })
  if 0 < s.halves then (.gt, s)
  else match trial.injected, s.consumed with
    | some kind, 0 => (kind, s)
    | some _, n + 1 => look (trial.skipped + n)
    | none, n => look (trial.skipped + n)

/-- The action on a token; if it comes from reading `>>` as two `>`, both halves are to be
shifted. -/
def action? (table : Table) (forced : Option Action) (state : Nat) (kind : Kind)
    (s : Simulation) : Option (Action × Simulation) :=
  match forced.or (table.firstAction? state kind) with
  | some action => some (action, s)
  | none =>
    if kind = .shr then
      (table.firstAction? state .gt).map fun action => (action, { s with halves := 2 })
    else none

/-- The simulation after a shift. -/
def shift (s : Simulation) (state : Nat) : Simulation :=
  let s := { s with stack := s.stack.push state }
  if s.halves = 2 then { s with halves := 1 }
  else { s with consumed := s.consumed + 1, halves := 0 }

/-- The simulation after a reduction, if the stack and the table have room for it. -/
def reduce? (table : Table) (s : Simulation) (production : Nat) : Option Simulation :=
  (table.grammar.productions[production]?).bind fun p =>
    match s.stack.pop p.rhs.length with
    | (false, _) => none
    | (true, stack) =>
      stack.top?.bind fun top =>
        (table.goto? top p.lhs).map fun next => { s with stack := stack.push next }

/-- Runs for at most `budget` steps. -/
def go (table : Table) (trial : Trial) : Nat → Option Action → Simulation → Reach × Source
  | 0, _, s => (.consumed s.consumed, s.source)
  | budget + 1, forced, s =>
    if trial.limit ≤ s.consumed then (.consumed s.consumed, s.source)
    else
      let (kind, s) := s.kind trial
      match s.stack.top?.bind fun state => s.action? table forced state kind with
      | none => (.consumed s.consumed, s.source)
      | some (.accept, s) => (.accepted, s.source)
      | some (.shift state, s) => go table trial budget none (s.shift state)
      | some (.reduce production, s) =>
        match s.reduce? table production with
        | some s => go table trial budget none s
        | none => (.consumed s.consumed, s.source)

/-- Tries something on a stack, looking at the source as far as needed. -/
def run (table : Table) (budget : Nat) (trial : Trial) (stack : Overlay) (source : Source) :
    Reach × Source :=
  go table trial budget trial.forced { stack := stack, source := source }

end Simulation
end SqlTree
