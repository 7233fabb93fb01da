import SqlTree.Proofs.Incremental.Shape

/-!
# What a step decides

A step first comes to a verdict: it splits a `>>`, repairs the input or carries out an action. The
verdict depends on structure only, and so does what the step makes of the stack. This is said here for
single steps; what two whole parses have in common follows from it.

- `Machine.Verdict`, `Machine.verdict` : what a step is going to do
- `Machine.verdict_congr` : it depends on structure only
- `Entry.ofLexeme`, `Stack.reduced?` : shifts and reductions as far as structure goes
- `Machine.step_verdict`  : a step carries out its verdict
- `Machine.Outcome`, `Machine.step_outcome` : all that a step can lead to
-/

namespace SqlTree
namespace Machine

variable {setting setting' : Setting} {m m' : Machine}

/-! ## What a step is going to do -/

/-- What a step is going to do: split a `>>`, repair the input, or carry out an action, by which the
current token is read as some kind, and which may be the only one. -/
inductive Verdict where
  | split
  | repair
  | act (only : Bool) (kind : Kind) (action : Action)

/-- What the next step of a machine is going to do. -/
def verdict (setting : Setting) (m : Machine) : Verdict :=
  match candidates setting.table m.topState m.lookahead with
  | [] =>
    if m.injected.isNone && (m.source.ahead 0).kind == .shr &&
      setting.table.hasAction m.topState .gt then .split
    else .repair
  | [(kind, action)] => .act true kind action
  | first :: rest => .act false (m.choose setting first rest).1.1 (m.choose setting first rest).1.2

/-- The verdict depends on shapes only. -/
theorem verdict_congr (hlike : setting.Like setting')
    (hstack : Stack.shape m.stack = Stack.shape m'.stack)
    (hahead : m.source.ahead = m'.source.ahead) (hinjected : m.injected = m'.injected) :
    m.verdict setting = m'.verdict setting' := by
  have htop : m.topState = m'.topState := Stack.topState_of_shape_eq hstack
  have hlookahead : m.lookahead = m'.lookahead := by simp only [lookahead, hinjected, hahead]
  unfold verdict
  rw [hlike.table, htop, hlookahead, hinjected, hahead]
  split
  · rfl
  · rfl
  · rw [choose_congr hlike hstack hahead]

/-- A `>>` is split where it does not fit and a `>` does. -/
theorem of_verdict_split (h : m.verdict setting = .split) :
    candidates setting.table m.topState m.lookahead = [] ∧ m.injected = none ∧
      (m.source.ahead 0).kind = .shr ∧ setting.table.hasAction m.topState .gt = true := by
  unfold verdict at h
  split at h
  · rename_i hnil
    split at h
    · rename_i hcond
      simp only [Bool.and_eq_true, Option.isNone_iff_eq_none, beq_iff_eq] at hcond
      exact ⟨hnil, hcond.1.1, hcond.1.2, hcond.2⟩
    · cases h
  · cases h
  · cases h

theorem candidates_of_verdict {kind : Kind} {action : Action}
    (h : m.verdict setting = .act true kind action) :
    candidates setting.table m.topState m.lookahead = [(kind, action)] := by
  unfold verdict at h
  split at h
  · split at h <;> cases h
  · rename_i hsole
    cases h
    exact hsole
  · cases h

theorem mem_of_verdict {only : Bool} {kind : Kind} {action : Action}
    (h : m.verdict setting = .act only kind action) :
    (kind, action) ∈ candidates setting.table m.topState m.lookahead := by
  unfold verdict at h
  split at h
  · split at h <;> cases h
  · rename_i hsole
    cases h
    rw [hsole]
    exact List.mem_singleton_self _
  · rename_i first rest _ hseveral
    cases h
    rw [hseveral]
    exact (choose_spec setting m first rest).1

/-- Where something is possible, one of the possibilities is chosen. -/
theorem exists_of_candidates_ne_nil (h : candidates setting.table m.topState m.lookahead ≠ []) :
    ∃ only kind action, m.verdict setting = .act only kind action := by
  unfold verdict
  split
  · rename_i hnil
    exact absurd hnil h
  · exact ⟨_, _, _, rfl⟩
  · exact ⟨_, _, _, rfl⟩

theorem verdict_of_candidates {kind : Kind} {action : Action}
    (h : candidates setting.table m.topState m.lookahead = [(kind, action)]) :
    m.verdict setting = .act true kind action := by
  unfold verdict
  rw [h]

theorem verdict_of_split (hnil : candidates setting.table m.topState m.lookahead = [])
    (hinjected : m.injected = none) (hkind : (m.source.ahead 0).kind = .shr)
    (hgt : setting.table.hasAction m.topState .gt = true) : m.verdict setting = .split := by
  unfold verdict
  rw [hnil]
  simp [hinjected, hkind, hgt]

theorem buffer_looked_ne_nil (m : Machine) (n : Nat) (hn : 0 + 1 - m.source.buffer.length ≤ n) :
    (m.looked n).source.buffer ≠ [] := by
  obtain ⟨more, hmore, hbuffer⟩ := Source.buffer_fetchMany n m.source
  intro hnil
  rw [looked, hbuffer] at hnil
  have hlength := congrArg List.length hnil
  simp only [List.length_append, List.length_nil, hmore] at hlength
  omega

/-- The machine that has looked `n` lexemes further ahead and found one action, or several. -/
def ready (m : Machine) (only : Bool) (n : Nat) : Machine :=
  { m.looked n with forkPending := m.forkPending || !only }

theorem ready_ahead (m : Machine) (only : Bool) (n : Nat) :
    (m.ready only n).source.ahead = m.source.ahead := looked_ahead m n

end Machine

/-! ## Shapes after a step -/

namespace Entry

open Element (bareTokens)

/-- The shape of a token, read as `kind`. -/
def ofLexeme (l : Lexeme) (kind : Kind) (state : Nat) (fork : Bool) : Entry where
  state := state
  leading := bareTokens l.leading
  elements := [.token 0 kind l.text]
  start := 0
  stop := 0
  fragile := fork

/-- The shape of an entry for `lhs`, under a node if that is visible. -/
def wrapped (g : Grammar) (lhs : Nat) (e : Entry) : Entry :=
  match g.visibleKind? lhs with
  | none => e
  | some kind => { e with elements := [.node 0 kind none e.elements] }

/-- The entry, fragile if a choice is pending. -/
def forked (fork : Bool) (e : Entry) : Entry := { e with fragile := e.fragile || fork }

theorem shape_forked (fork : Bool) (e : Entry) : (e.forked fork).shape = e.shape.forked fork := rfl

end Entry

/-- The stack after a reduction, as far as shapes go. -/
def Stack.reduced? (table : Table) (fork : Bool) (production : Nat) (stack : Stack) :
    Option Stack :=
  (table.grammar.productions[production]?).bind fun p =>
    (popSymbols? p.rhs.length (stack.dropWhile Entry.extra) []).bind fun (children, below) =>
      (table.goto? (topState below) p.lhs).map fun next =>
        ((stack.takeWhile Entry.extra).map fun e => { e with state := next }) ++
          Entry.wrapped table.grammar p.lhs ((Entry.ofChildren next children 0).forked fork) :: below

namespace Machine

variable {setting : Setting} {m m' : Machine}

theorem shapes_newTokens (m : Machine) (leaves : List Leaf) :
    (m.newTokens leaves).1.map Element.shape = Element.bareTokens leaves := by
  refine List.ext_getElem (by simp [newTokens, Element.bareTokens]) fun i _ _ => ?_
  simp [newTokens, Element.bareTokens, Element.shape]

theorem shape_tokenEntry (m : Machine) (kind : Kind) (state : Nat) :
    (m.tokenEntry kind state).shape =
      Entry.ofLexeme (m.source.ahead 0) kind state m.forkPending := by
  simp only [Entry.shape, tokenEntry, Entry.ofLexeme, shapes_newTokens]
  rfl

theorem shape_wrap (g : Grammar) (m : Machine) (base lhs : Nat) (e : Entry) :
    (m.wrap g base lhs e).1.shape = Entry.wrapped g lhs e.shape := by
  unfold wrap Entry.wrapped
  cases g.visibleKind? lhs with
  | none => rfl
  | some kind =>
    simp only [newNode, Entry.shape, List.map_cons, List.map_nil, Element.shape,
      Element.shapes_eq_map]

/-- Reducing acts on shapes. -/
theorem shape_reduce? (setting : Setting) (m : Machine) (production : Nat) :
    (m.reduce? setting production).map (fun reduced => Stack.shape reduced.stack) =
      Stack.reduced? setting.table m.forkPending production (Stack.shape m.stack) := by
  unfold reduce? Stack.reduced?
  cases setting.table.grammar.productions[production]? with
  | none => rfl
  | some p =>
    have hpop := Stack.popSymbols?_shape p.rhs.length (m.stack.dropWhile Entry.extra) []
    simp only [List.map_nil] at hpop
    simp only [Option.bind_some, Stack.dropWhile_extra_shape, Stack.takeWhile_extra_shape, hpop]
    cases Stack.popSymbols? p.rhs.length (m.stack.dropWhile Entry.extra) [] with
    | none => rfl
    | some found =>
      obtain ⟨children, below⟩ := found
      simp only [Option.bind_some, Option.map_some, Stack.topState_shape]
      cases setting.table.goto? (Stack.topState below) p.lhs with
      | none => rfl
      | some next =>
        have hmade := shape_wrap setting.table.grammar
          (m.looked (0 + 1 - m.source.buffer.length)) (Stack.topState below) p.lhs
          ((Entry.ofChildren next children (m.source.ahead 0).fullStart).forked m.forkPending)
        rw [Entry.shape_forked, Entry.shape_ofChildren] at hmade
        simp only [Option.map_some, Option.some.injEq, peek_eq, ← hmade, Stack.shape,
          List.map_append, List.map_map, List.map_cons]
        rfl

end Machine

namespace Machine

variable {setting : Setting} {m m' : Machine}

/-! ## All that a step can do -/

/-- What a step can lead to while no missing token is asked for. -/
inductive Outcome (setting : Setting) (m : Machine) : Progress → Prop where
  | split {n : Nat} (hverdict : m.verdict setting = .split)
      (hbuffer : (m.looked n).source.buffer ≠ []) :
      Outcome setting m (.running { m.looked n with source := (m.looked n).source.splitShift })
  | shift {n : Nat} {only : Bool} {kind : Kind} {state : Nat}
      (hverdict : m.verdict setting = .act only kind (.shift state))
      (hbuffer : (m.looked n).source.buffer ≠ []) :
      Outcome setting m (.running ((m.ready only n).shiftToken kind state))
  | takeOver {n : Nat} {kind : Kind} {state : Nat} {taken : Machine}
      (hverdict : m.verdict setting = .act true kind (.shift state))
      (hbuffer : (m.looked n).source.buffer ≠ []) (hfork : m.forkPending = false)
      (htaken : (m.looked n).takeOver? setting m.topState = some taken) :
      Outcome setting m (.running taken)
  | reduce {n : Nat} {only : Bool} {kind : Kind} {production : Nat} {reduced : Machine}
      (hverdict : m.verdict setting = .act only kind (.reduce production))
      (hbuffer : (m.looked n).source.buffer ≠ [])
      (hreduced : (m.ready only n).reduce? setting production = some reduced) :
      Outcome setting m (.running reduced)
  | accept {n : Nat} {only : Bool} {kind : Kind}
      (hverdict : m.verdict setting = .act only kind .accept) :
      Outcome setting m (.finished (m.ready only n))
  | repair (m' : Machine) : Outcome setting m (m'.repairOrEnd setting)

theorem ready_true (m : Machine) (n : Nat) : m.ready true n = m.looked n := by
  simp [ready, looked]

theorem ready_looked (m : Machine) (n k : Nat) :
    (m.ready false n).looked k = m.ready false (n + k) := by
  simp only [ready, looked, Source.fetchMany_fetchMany]

/-- Carries out a verdict after looking `n` lexemes further ahead. -/
def enforce (setting : Setting) (m : Machine) (n : Nat) : Verdict → Progress
  | .split => .running { m.looked n with source := (m.looked n).source.splitShift }
  | .repair => (m.looked n).repairOrEnd setting
  | .act only kind action => (m.ready only n).act setting only kind action

/-- A step looks ahead and does what its verdict says. -/
theorem step_verdict (setting : Setting) (m : Machine) : ∃ n, (m.looked n).source.buffer ≠ [] ∧
    m.step setting = m.enforce setting n (m.verdict setting) := by
  have hbuffer := m.buffer_looked_ne_nil _ (Nat.le_refl _)
  unfold step verdict
  simp only [peek_eq]
  generalize hlook : 0 + 1 - m.source.buffer.length = k at hbuffer
  have hsame : candidates setting.table (m.looked k).topState
      ((m.looked k).injected.getD (m.source.ahead 0).kind) =
        candidates setting.table m.topState m.lookahead := rfl
  rw [hsame]
  cases hcandidates : candidates setting.table m.topState m.lookahead with
  | nil =>
    refine ⟨k, hbuffer, ?_⟩
    dsimp only
    by_cases hsplit : (m.injected.isNone && (m.source.ahead 0).kind == .shr &&
        setting.table.hasAction m.topState .gt) = true
    · rw [if_pos hsplit]
      exact if_pos hsplit
    · rw [if_neg hsplit]
      exact if_neg hsplit
  | cons first rest =>
    obtain ⟨kind, action⟩ := first
    cases rest with
    | nil =>
      refine ⟨k, hbuffer, ?_⟩
      simp only [enforce, ready_true]
    | cons second rest =>
      -- Choosing only looks further ahead.
      have hready : { m.looked k with forkPending := true } = m.ready false k := by simp [ready]
      obtain ⟨-, n, hn⟩ := choose_spec setting (m.ready false k) (kind, action) (second :: rest)
      have hstack : Stack.shape (m.ready false k).stack = Stack.shape m.stack := rfl
      have hchoose : ((m.ready false k).choose setting (kind, action) (second :: rest)).1 =
          (m.choose setting (kind, action) (second :: rest)).1 :=
        choose_congr (Setting.Like.refl setting) hstack (ready_ahead m false k) (kind, action) (second :: rest)
      refine ⟨k + n, m.buffer_looked_ne_nil _ (by omega), ?_⟩
      dsimp only
      rw [hready]
      change act setting ((m.ready false k).choose setting (kind, action) (second :: rest)).2 false
        ((m.ready false k).choose setting (kind, action) (second :: rest)).1.1
        ((m.ready false k).choose setting (kind, action) (second :: rest)).1.2 = _
      rw [hchoose, hn, ready_looked]
      rfl

/-- All that a step can lead to while no missing token is asked for. -/
theorem step_outcome (setting : Setting) (m : Machine) (hinjected : m.injected = none) :
    m.Outcome setting (m.step setting) := by
  obtain ⟨n, hbuffer, hstep⟩ := step_verdict setting m
  rw [hstep]
  cases hverdict : m.verdict setting with
  | split => exact .split hverdict hbuffer
  | repair => exact .repair _
  | act only kind action =>
    have hready : (m.ready only n).injected = none := hinjected
    cases action with
    | accept => exact .accept hverdict
    | shift state =>
      simp only [enforce, act]
      split
      · rename_i taken htaken
        obtain ⟨hcond, htaken⟩ := Option.ite_none_right_eq_some.1 htaken
        simp only [Bool.and_eq_true, Bool.not_eq_true', ready] at hcond
        obtain ⟨⟨rfl, -⟩, hfork⟩ := hcond
        rw [ready_true] at htaken
        exact .takeOver hverdict hbuffer (by simpa using hfork) htaken
      · have hshift : (m.ready only n).shift kind state =
            (m.ready only n).shiftToken kind state := by simp [shift, hready]
        rw [hshift]
        exact .shift hverdict hbuffer
    | reduce production =>
      simp only [enforce, act]
      split
      · rename_i reduced hreduced
        exact .reduce hverdict hbuffer hreduced
      · exact .repair _

end Machine
end SqlTree
