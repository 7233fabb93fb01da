import SqlTree.Diagnostic.Basic
import SqlTree.Parse.Options
import SqlTree.Parse.Reuse
import SqlTree.Parse.Simulation

/-!
# The parsing machine

The machine reads tokens from a source and keeps a stack, and every action of the table changes
both. Each element that it builds gets a number of its own.

- `Setting`  : what stays the same during a parse
- `Machine`  : the state of a parse
- `Machine.candidates`, `Machine.choose` : the possible actions, and the best of them
- `Machine.shift`, `Machine.reduce?`, `Machine.takeOver?` : the actions
-/

namespace SqlTree

/-- What stays the same during a parse. -/
structure Setting where
  table : Table
  options : Options
  /-- The previous tree, if there is one to take nodes from. -/
  reuse : Option Reuse

/-- What has been tried at one place of the input. -/
structure Repairs where
  /-- The place, as the start of the trivia in front of the current token. -/
  position : Option Nat := none
  insertions : Nat := 0
  /-- Whether entries were popped without skipping a token. -/
  popped : Bool := false
  attempts : Nat := 0

structure Machine where
  source : Source
  stack : Stack
  diagnostics : List Diagnostic
  /-- A missing token to be read before the input. -/
  injected : Option Kind
  repairs : Repairs
  /-- Whether what is built up to the next shift depends on a choice between several actions. -/
  forkPending : Bool
  /-- The number of the next element. -/
  nextId : Nat
  /-- The number of nodes taken over. -/
  reused : Nat

namespace Machine

/-- The machine before the first token of a text. -/
def start (text : List Char) (firstId : Nat) : Machine where
  source := Source.ofText text
  stack := [Entry.bottom]
  diagnostics := []
  injected := none
  repairs := {}
  forkPending := false
  nextId := firstId
  reused := 0

/-- The lexeme `n` places ahead. -/
def peek (m : Machine) (n : Nat) : Lexeme × Machine :=
  let (lexeme, source) := m.source.peek n
  (lexeme, { m with source := source })

/-- Takes the next lexeme. -/
def bump (m : Machine) : Lexeme × Machine :=
  let (lexeme, source) := m.source.bump
  (lexeme, { m with source := source })

def topState (m : Machine) : Nat := m.stack.topState

def push (m : Machine) (entry : Entry) : Machine := { m with stack := entry :: m.stack }

def report (m : Machine) (d : Diagnostic) : Machine :=
  { m with diagnostics := m.diagnostics ++ [d] }

/-- New tokens with the given kinds and texts. -/
def newTokens (m : Machine) (leaves : List Leaf) : List Element × Machine :=
  (leaves.mapIdx fun i (kind, text) => .token (m.nextId + i) kind text,
    { m with nextId := m.nextId + leaves.length })

/-- A new token. -/
def newToken (m : Machine) (kind : Kind) (text : List Char) : Element × Machine :=
  (.token m.nextId kind text, { m with nextId := m.nextId + 1 })

/-- A new composite node. -/
def newNode (m : Machine) (kind : Kind) (origin : Option Origin) (children : List Element) :
    Element × Machine :=
  (.node m.nextId kind origin children, { m with nextId := m.nextId + 1 })

/-- Tries something on a stack, looking at the source as far as needed. -/
def simulate (setting : Setting) (m : Machine) (trial : Trial) (stack : Overlay) :
    Reach × Machine :=
  let (reach, source) :=
    Simulation.run setting.table setting.options.simulationSteps trial stack m.source
  (reach, { m with source := source })

/-! ## Choosing an action -/

/-- The actions on a token, each with the kind as which the token is read. A keyword that may be an
identifier is also read as one. -/
def candidates (table : Table) (state : Nat) (kind : Kind) : List (Kind × Action) :=
  (table.actions state kind).map (kind, ·) ++
    if kind.isContextual then (table.actions state .ident).map (.ident, ·) else []

/-- The best of the first candidate and those that follow: the one that gets furthest, and among
equals the first. -/
def chooseFrom (setting : Setting) (best : Kind × Action) (score : Reach) :
    List (Kind × Action) → Machine → (Kind × Action) × Machine
  | [], m => (best, m)
  | candidate :: rest, m =>
    let trial := { forced := some candidate.2, limit := setting.options.ambiguityLookahead }
    let (reach, m) := m.simulate setting trial (Overlay.ofStack m.stack)
    if reach.beyond score then chooseFrom setting candidate reach rest m
    else chooseFrom setting best score rest m

/-- The best of several candidates. -/
def choose (setting : Setting) (m : Machine) (first : Kind × Action)
    (rest : List (Kind × Action)) : (Kind × Action) × Machine :=
  let trial := { forced := some first.2, limit := setting.options.ambiguityLookahead }
  let (reach, m) := m.simulate setting trial (Overlay.ofStack m.stack)
  chooseFrom setting first reach rest m

/-! ## Actions -/

/-- Puts in the missing token that was asked for, read as `kind`. -/
def shiftMissing (m : Machine) (kind : Kind) (next : Nat) : Machine :=
  let (current, m) := m.peek 0
  let (token, m) := m.newToken kind []
  let (missing, m) := m.newNode .missing none [token]
  let m := m.push {
    state := next
    elements := [missing]
    start := current.fullStart
    stop := current.fullStart
    fragile := m.forkPending
    hasError := true }
  { m with injected := none, forkPending := false }

/-- Takes the next token, read as `kind`. -/
def shiftToken (m : Machine) (kind : Kind) (next : Nat) : Machine :=
  let (lexeme, m) := m.bump
  let (leading, m) := m.newTokens lexeme.leading
  let (token, m) := m.newToken kind lexeme.text
  let m := m.push {
    state := next
    leading := leading
    elements := [token]
    start := lexeme.start
    stop := lexeme.stop
    fragile := m.forkPending }
  { m with forkPending := false }

/-- Shifts the missing token that was asked for, or else the next token. -/
def shift (m : Machine) (kind : Kind) (next : Nat) : Machine :=
  if m.injected.isSome then m.shiftMissing kind next else m.shiftToken kind next

/-- The entry of a nonterminal. A visible one becomes a node, begun in state `base`. -/
def wrap (grammar : Grammar) (base lhs : Nat) (entry : Entry) (m : Machine) : Entry × Machine :=
  match grammar.visibleKind? lhs with
  | none => (entry, m)
  | some kind =>
    let origin : Origin := {
      state := base
      lookahead := m.source.examined - entry.start
      reusable := !entry.hasError && !entry.fragile }
    let (node, m) := m.newNode kind (some origin) entry.elements
    ({ entry with elements := [node] }, m)

/-- Reduces by a production. Extra entries on top stay there. There is no result if the stack does
not hold the right-hand side. -/
def reduce? (setting : Setting) (m : Machine) (production : Nat) : Option Machine :=
  (setting.table.grammar.productions[production]?).bind fun p =>
    let extras := m.stack.takeWhile Entry.extra
    (Stack.popSymbols? p.rhs.length (m.stack.dropWhile Entry.extra) []).bind
      fun (children, below) =>
        let base := below.topState
        (setting.table.goto? base p.lhs).map fun next =>
          let (current, m) := m.peek 0
          let entry := Entry.ofChildren next children current.fullStart
          let entry := { entry with fragile := entry.fragile || m.forkPending }
          let (entry, m) := m.wrap setting.table.grammar base p.lhs entry
          let extras := extras.map fun extra => { extra with state := next }
          { m with stack := extras ++ entry :: below }

/-- Takes over an old node that begins with the next token. -/
def takeOver? (setting : Setting) (m : Machine) (state : Nat) : Option Machine :=
  let (current, m) := m.peek 0
  (setting.reuse.bind fun reuse => reuse.find? setting.table state current.start).bind fun old =>
    (setting.table.gotoKind? state old.kind).map fun next =>
      let stop := current.start + old.size
      let lookahead := (old.origin?.map Origin.lookahead).getD 0
      let (lexeme, m) := m.bump
      let (leading, m) := m.newTokens lexeme.leading
      let m := m.push {
        state := next
        leading := leading
        elements := [old]
        start := current.start
        stop := stop }
      { m with
        source := (m.source.reset stop).markExamined (current.start + lookahead)
        reused := m.reused + 1 }

end Machine
end SqlTree
