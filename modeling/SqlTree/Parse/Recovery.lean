import SqlTree.Parse.Machine

/-!
# Repairs

Where no action fits, the machine first tries to put in one missing token after which it can go on
for a while. Otherwise it looks for the nearest token at which it can resume, with some entries
taken from the stack if need be, and wraps all that is dropped in one error node.

- `Machine.tryInsert`     : a missing token that helps
- `Machine.resumeDepth?`  : how many entries to drop before resuming
- `Machine.resynchronize` : dropping tokens and entries
- `Machine.recover?`      : a repair at the current token
-/

namespace SqlTree
namespace Machine

/-- Tokens that begin a statement or a clause. -/
def boundaries : List Kind := [
  .semicolon, .selectKw, .withKw, .fromKw, .whereKw, .groupKw, .havingKw, .qualifyKw, .windowKw,
  .orderKw, .limitKw, .unionKw, .intersectKw, .exceptKw, .eof]

/-- Missing tokens that are tried before all others. -/
def preferredInsertions : List Kind := [.ident, .number, .string, .rParen, .rBracket]

/-- Repairs at one place before a token is dropped whatever follows. -/
def maxAttempts : Nat := 8

/-- Depths that are tried for one token at which to resume. -/
def maxResumeTrials : Nat := 32

/-- The innermost construct under way. -/
def context (table : Table) (m : Machine) : Context :=
  match m.stack.findSome? fun entry => table.context? entry.state with
  | some kind => Context.ofKind kind
  | none => .topLevel

/-! ## Missing tokens -/

/-- The missing tokens worth trying in a state, the preferred ones first. -/
def insertions (table : Table) (state : Nat) : List Kind :=
  preferredInsertions.filter (table.hasAction state) ++
    (table.expected state).filter fun kind =>
      !preferredInsertions.contains kind && kind != .eof && kind != .errorToken

/-- The bracket that a closing one belongs to. -/
def openerOf? : Kind → Option Kind
  | .rParen => some .lParen
  | .rBracket => some .lBracket
  | .gt => some .lt
  | _ => none

/-- The innermost entry with an opening bracket, after passing over those that are closed. -/
def unclosed? (opener closer : Kind) : Nat → Stack → Option Span
  | _, [] => none
  | closed, entry :: below =>
    match entry.elements with
    | [.token _ kind _] =>
      if kind = closer then unclosed? opener closer (closed + 1) below
      else if kind = opener then
        match closed with
        | 0 => some ⟨entry.start, entry.stop⟩
        | closed + 1 => unclosed? opener closer closed below
      else unclosed? opener closer closed below
    | _ => unclosed? opener closer closed below

/-- The opening bracket that a missing token would have closed. -/
def openedAt (stack : Stack) (kind : Kind) : List Related :=
  match openerOf? kind with
  | none => []
  | some opener =>
    match unclosed? opener kind 0 stack with
    | some span => [⟨Diagnostic.describe opener ++ " opened here", span⟩]
    | none => []

/-- The first of the kinds after which the current token and those to be validated fit. -/
def firstFitting? (setting : Setting) : List Kind → Machine → Option Kind × Machine
  | [], m => (none, m)
  | kind :: rest, m =>
    let required := 2 + setting.options.recoveryValidation
    let trial := { injected := some kind, limit := required }
    let (reach, m) := m.simulate setting trial (Overlay.ofStack m.stack)
    if reach.atLeast required then (some kind, m) else firstFitting? setting rest m

/-- Asks for a missing token in front of `current` if one helps. -/
def tryInsert (setting : Setting) (m : Machine) (current : Lexeme) : Bool × Machine :=
  match firstFitting? setting (insertions setting.table m.topState) m with
  | (none, m) => (false, m)
  | (some kind, m) =>
    let d := Diagnostic.missing kind current.kind current.fullStart (m.context setting.table)
      (openedAt m.stack kind)
    let repairs := { m.repairs with insertions := m.repairs.insertions + 1 }
    (true, { m with injected := some kind, repairs := repairs }.report d)

/-! ## Skipping -/

/-- Moves the next `n` lexemes behind the elements of an entry. -/
def skipInto : Nat → Entry → Machine → Entry × Machine
  | 0, entry, m => (entry, m)
  | n + 1, entry, m =>
    let (lexeme, m) := m.bump
    let (leading, m) := m.newTokens lexeme.leading
    let (token, m) := m.newToken lexeme.kind lexeme.text
    let entry :=
      if entry.elements.isEmpty then
        { entry with
          leading := entry.leading ++ leading
          elements := [token]
          start := lexeme.start
          stop := lexeme.stop }
      else
        { entry with elements := entry.elements ++ leading ++ [token], stop := lexeme.stop }
    skipInto n entry m

/-- Takes `depth` entries from the stack and `skipped` tokens from the source, and leaves them as
one error node. The lowest entry stays. -/
def skip (m : Machine) (skipped depth : Nat) : Machine :=
  let depth := min depth (m.stack.length - 1)
  let popped := (m.stack.take depth).reverse
  let (current, m) := { m with stack := m.stack.drop depth }.peek 0
  let (entry, m) := skipInto skipped (Entry.ofChildren m.topState popped current.fullStart) m
  if entry.elements.isEmpty then
    if entry.leading.isEmpty then m
    else m.push { entry with leading := [], elements := entry.leading, extra := true }
  else
    let (node, m) := m.newNode .error none entry.elements
    m.push { entry with elements := [node], hasError := true, extra := true }

/-- Reports that tokens from `first` on were skipped. -/
def reportSkip (table : Table) (m : Machine) (first : Lexeme) : Machine :=
  if first.kind = .errorToken then
    let code := Code.ofUnreadable first.text
    m.report { code := code, span := first.span }
  else
    let found :=
      if first.kind.isKeyword then Diagnostic.describe first.kind
      else "'" ++ String.ofList first.text ++ "'"
    m.report (Diagnostic.unexpected found first.span (m.context table) .unexpectedToken)

/-- Skips and reports it. -/
def applySkip (table : Table) (m : Machine) (skipped depth : Nat) (current : Lexeme) : Machine :=
  if skipped = 0 then
    let m := { m with repairs := { m.repairs with popped := true } }.skip skipped depth
    m.report (Diagnostic.unexpected (Diagnostic.describe current.kind) current.span
      (m.context table) .unexpectedInClause)
  else (m.skip skipped depth).reportSkip table current

/-! ## Resuming -/

/-- The first of `depths` at which parsing goes on after dropping that many entries and `skipped`
tokens. At most `trials` depths whose state has an action for the next token are tried. -/
def resumeFrom? (setting : Setting) (kind : Kind) (skipped : Nat) :
    Nat → List Nat → Machine → Option Nat × Machine
  | 0, _, m => (none, m)
  | _, [], m => (none, m)
  | trials + 1, depth :: depths, m =>
    let stack := Overlay.popped m.stack depth
    match stack.top? with
    | none => (none, m)
    | some state =>
      if setting.table.accepts state kind then
        let validation := 1 + setting.options.recoveryValidation
        let (reach, m) := m.simulate setting { skipped := skipped, limit := validation } stack
        if reach.atLeast validation then (some depth, m)
        else resumeFrom? setting kind skipped trials depths m
      else resumeFrom? setting kind skipped (trials + 1) depths m

/-- The first of `depths` at which parsing goes on after dropping `skipped` tokens. -/
def resumeDepth? (setting : Setting) (m : Machine) (depths : List Nat) (skipped : Nat) :
    Option Nat × Machine :=
  let (lexeme, m) := m.peek skipped
  resumeFrom? setting lexeme.kind skipped maxResumeTrials depths m

/-- Looks for a place to resume after `skipped` tokens or more, at most `fuel` of them. -/
def resynchronizeFrom (setting : Setting) (context : Context) (current : Lexeme) :
    Nat → Nat → Machine → Machine
  | 0, skipped, m => m.applySkip setting.table skipped (m.stack.length - 1) current
  | fuel + 1, skipped, m =>
    let (lexeme, m) := m.peek skipped
    let (here, m) := if 0 < skipped then m.resumeDepth? setting [0] skipped else (none, m)
    if here.isSome then m.applySkip setting.table skipped 0 current
    else
      let boundary := boundaries.contains lexeme.kind || context.resumeTokens.contains lexeme.kind
      let (depth, m) :=
        if boundary && (0 < skipped || !m.repairs.popped) then
          m.resumeDepth? setting ((List.range m.stack.length).drop 1) skipped
        else (none, m)
      match depth with
      | some depth => m.applySkip setting.table skipped depth current
      | none =>
        if lexeme.kind = .eof then
          m.applySkip setting.table skipped (m.stack.length - 1) current
        else resynchronizeFrom setting context current fuel (skipped + 1) m

/-- Skips to the nearest place at which parsing can resume. A text has no more tokens than bytes. -/
def resynchronize (setting : Setting) (m : Machine) (current : Lexeme) : Machine :=
  resynchronizeFrom setting (m.context setting.table) current (m.source.size + 1) 0 m

/-! ## Repairs at one place -/

/-- Counts an attempt at the current token; at a new place all counts begin anew. -/
def beginRepair (m : Machine) (current : Lexeme) : Machine :=
  let repairs :=
    if m.repairs.position = some current.fullStart then m.repairs
    else { position := some current.fullStart }
  { m with repairs := { repairs with attempts := repairs.attempts + 1 } }

/-- Drops a missing token that does not fit after all; no other is tried at this place. -/
def dropInjected (options : Options) (m : Machine) : Machine :=
  if m.injected.isSome then
    { m with
      injected := none
      repairs := { m.repairs with insertions := options.maxInsertions } }
  else m

/-- Repairs the input at the current token. Nothing is left to do at the end of the input once the
attempts there are used up. -/
def recover? (setting : Setting) (m : Machine) : Option Machine :=
  let (current, m) := m.peek 0
  let m := (m.beginRepair current).dropInjected setting.options
  if maxAttempts < m.repairs.attempts then
    if current.kind = .eof then none
    else some ((m.skip 1 0).reportSkip setting.table current)
  else if current.kind ≠ .errorToken && m.repairs.insertions < setting.options.maxInsertions then
    match m.tryInsert setting current with
    | (true, m) => some m
    | (false, m) => some (m.resynchronize setting current)
  else some (m.resynchronize setting current)

end Machine
end SqlTree
