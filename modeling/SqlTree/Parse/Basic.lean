import SqlTree.Parse.Recovery
import SqlTree.Tree.Basic

/-!
# Parsing

A parse takes one step after the other until the input is accepted or nothing is left to repair.
Whatever happened on the way, the tree holds the whole text.

- `Machine.step`   : one step
- `Machine.finish` : the root over all that has been read
- `Machine.overruns` : whether a parse asks for nodes behind the end of the old tree
- `Tree.parse`     : the tree of a text
- `Tree.reparse`   : the tree of a text after an edit, with old nodes taken over
-/

namespace SqlTree
namespace Machine

/-- What a step leads to. -/
inductive Progress where
  | running (m : Machine)
  | finished (m : Machine)

/-- Goes on after a repair, or ends if there is none. -/
def repairOrEnd (setting : Setting) (m : Machine) : Progress :=
  match m.recover? setting with
  | some m => .running m
  | none => .finished m

/-- Carries out an action, by which the current token is read as `kind`. A node is taken over only
where a shift was the only possibility. -/
def act (setting : Setting) (m : Machine) (only : Bool) (kind : Kind) : Action → Progress
  | .accept => .finished m
  | .shift next =>
    let taken :=
      if only && m.injected.isNone && !m.forkPending then m.takeOver? setting m.topState else none
    match taken with
    | some m => .running m
    | none => .running (m.shift kind next)
  | .reduce production =>
    match m.reduce? setting production with
    | some m => .running m
    | none => m.repairOrEnd setting

/-- One step: the action of the table, the best of several, a `>>` read as two `>`, or a repair. -/
def step (setting : Setting) (m : Machine) : Progress :=
  let (current, m) := m.peek 0
  let state := m.topState
  match candidates setting.table state (m.injected.getD current.kind) with
  | [] =>
    if m.injected.isNone && current.kind == .shr && setting.table.hasAction state .gt then
      .running { m with source := m.source.splitShift }
    else m.repairOrEnd setting
  | [(kind, action)] => m.act setting true kind action
  | first :: rest =>
    let ((kind, action), m) := { m with forkPending := true }.choose setting first rest
    m.act setting false kind action

/-- At most `fuel` steps. -/
def run (setting : Setting) : Nat → Machine → Machine
  | 0, m => m
  | fuel + 1, m =>
    match m.step setting with
    | .running m => run setting fuel m
    | .finished m => m

/-- More steps than a text of `size` bytes takes with a grammar that has no cycles. Every token is
read once, at each place at most `maxAttempts` and one more repairs are made, and in between a stack
is reduced that is no higher than the number of tokens read and put in. -/
def maxSteps (table : Table) (size : Nat) : Nat :=
  1000 * (table.grammar.nonterminals.size + 2) * (size + 2) * (size + 2)

/-! ## Lookups in the old tree -/

/-- The byte for which the next step asks for an old node: that of the current token, where reading it
is the only possibility. -/
def lookup? (setting : Setting) (m : Machine) : Option Nat :=
  let (current, m) := m.peek 0
  match candidates setting.table m.topState (m.injected.getD current.kind) with
  | [(_, .shift _)] => if m.injected.isNone && !m.forkPending then some current.start else none
  | _ => none

/-- Whether one of at most `fuel` steps asks for a node behind the end of the old tree, which has `size`
bytes. -/
def overruns (setting : Setting) (edit : Edit) (size : Nat) : Nat → Machine → Bool
  | 0, _ => false
  | fuel + 1, m =>
    ((m.lookup? setting).bind edit.oldOffset?).any (size < ·) ||
      match m.step setting with
      | .running m => overruns setting edit size fuel m
      | .finished _ => false

/-! ## The root -/

/-- What is left of the input, up to the end of it. -/
def leftOver : Nat → Machine → List Element × Machine
  | 0, m => ([], m)
  | fuel + 1, m =>
    let (current, m) := m.peek 0
    if current.kind = .eof then ([], m)
    else
      let (lexeme, m) := m.bump
      let (leaves, m) := m.newTokens lexeme.leaves
      let (rest, m) := leftOver fuel m
      (leaves ++ rest, m)

/-- The elements of all entries, the lowest entry first. -/
def elements (stack : Stack) : List Element :=
  stack.reverse.flatMap fun entry => entry.leading ++ entry.elements

/-- The tree over everything on the stack. What is left of the input is an error, and the trivia at
the end belong to the root. -/
def finish (m : Machine) (text : List Char) : Tree :=
  let children := elements m.stack
  let (rest, m) := leftOver (m.source.size + 1) m
  let (errors, m) :=
    if rest.isEmpty then ([], m)
    else
      let (node, m) := m.newNode .error none rest
      ([node], m)
  let (eof, m) := m.bump
  let (trivia, m) := m.newTokens eof.leading
  let (root, m) := m.newNode .sourceFile none (children ++ errors ++ trivia)
  { text := text
    root := root
    diagnostics := m.diagnostics
    reused := m.reused
    nextId := m.nextId }

end Machine

namespace Tree

/-- Parses a text, giving its elements the numbers from `firstId` on. -/
def parseWith (setting : Setting) (text : List Char) (firstId : Nat) : Tree :=
  let fuel := Machine.maxSteps setting.table (Text.size text)
  (Machine.run setting fuel (Machine.start text firstId)).finish text

/-- Parses a text from scratch. -/
def parse (table : Table) (options : Options) (text : List Char) (firstId : Nat) : Tree :=
  parseWith ⟨table, options, none⟩ text firstId

/-- Parses the text that an edit of an old tree's text led to, taking over what the edit cannot have
affected. -/
def reparse (table : Table) (options : Options) (old : Tree) (edit : Edit) (text : List Char) :
    Except EditError Tree := do
  edit.validate old.text text
  return parseWith ⟨table, options, some (Reuse.ofRoot old.root edit)⟩ text old.nextId

/-- Whether this parse asks for a node behind the end of the old tree, where there is nothing to be
asked for. -/
def overruns (table : Table) (options : Options) (old : Tree) (edit : Edit) (text : List Char) : Bool :=
  Machine.overruns ⟨table, options, some (Reuse.ofRoot old.root edit)⟩ edit old.root.size
    (Machine.maxSteps table (Text.size text)) (Machine.start text old.nextId)

end Tree
end SqlTree
