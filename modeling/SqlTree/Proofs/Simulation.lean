import SqlTree.Proofs.Leaves
import SqlTree.Proofs.Overlay
import SqlTree.Proofs.Reductions
import SqlTree.Proofs.SelectStates

/-!
# What a simulation foretells

A simulation keeps only states, takes the first action of a cell, and reads a `>>` that has to be split
as two halves of its own; the machine has entries, weighs several actions against each other, and
splits the token in its source. Where the cells that are looked at leave no choice, the two go the same
way: the states of the simulation are those of the stack, and the tokens that it still has to read are
those of the source. So a repair that a simulation has tried can be carried out as it was tried.

- `Table.Decides`        : a cell that leaves no choice
- `Simulation.lookups`   : the cells that a simulation looks at
- `Simulation.Mirrors`   : a machine that stands where a simulation stands
- `Simulation.Mirrors.go` : it gets as far as the simulation
- `Machine.Proceeds`     : reading a number of tokens, or up to the end, without a repair
- `BigQuery.simulations_come_true` : simulations on the stack of a machine, and what it does then
-/

namespace SqlTree

open Machine (candidates)

/-! ## Cells -/

namespace Table

/-- There is one thing to do with a token in a state; a `>>` that cannot be read may be split. -/
def Decides (t : Table) (state : Nat) (kind : Kind) : Prop :=
  (candidates t state kind).length = 1 ∨
    (kind = .shr ∧ candidates t state .shr = [] ∧ (candidates t state .gt).length = 1)

/-- The action that a simulation takes is that of the first candidate. -/
theorem firstAction?_eq (t : Table) (state : Nat) (kind : Kind) :
    t.firstAction? state kind = (candidates t state kind).head?.map Prod.snd := by
  rw [firstAction?, candidates, List.head?_append]
  cases t.actions state kind with
  | cons action rest => rfl
  | nil =>
    cases kind.isContextual with
    | false => rfl
    | true => cases t.actions state .ident <;> rfl

theorem hasAction_of_candidates {t : Table} {state : Nat} {candidate : Kind × Action}
    (h : candidates t state .gt = [candidate]) : t.hasAction state .gt = true := by
  have hne : candidates t state .gt ≠ [] := by simp [h]
  have hcontextual : Kind.gt.isContextual = false := by decide
  simpa [candidates, hasAction, hcontextual] using hne

end Table

namespace Simulation

/-- The cells that a simulation looks at. -/
def lookups (table : Table) (trial : Trial) : Nat → Simulation → List (Nat × Kind)
  | 0, _ => []
  | budget + 1, s =>
    if trial.limit ≤ s.consumed then []
    else
      match (s.kind trial).2.stack.top? with
      | none => []
      | some state =>
        (state, (s.kind trial).1) ::
          match (s.kind trial).2.action? table none state (s.kind trial).1 with
          | some (.shift next, s) => lookups table trial budget (s.shift next)
          | some (.reduce production, s) =>
            match s.reduce? table production with
            | some s => lookups table trial budget s
            | none => []
          | _ => []

end Simulation

/-! ## Stacks of states -/

namespace Stack

theorem Tracks.head?_states {t : Table} {stack : Stack} {path : List (Symbol × Nat)}
    (h : Tracks t stack path) : stack.states.head? = some (topState stack) := by
  rw [h.states_eq, h.topState_eq]
  cases path <;> rfl

end Stack

namespace Machine

variable {m m' : Machine} {setting : Setting}

/-- A reduction takes the states of the right-hand side from the stack and puts that of the left-hand
side in their place. -/
theorem Tracked.states_reduce {production : Nat} (h : m.Tracked setting.table)
    (hreduced : m.reduce? setting production = some m') :
    ∃ p next, setting.table.grammar.productions[production]? = some p ∧
      (m.stack.states.drop p.rhs.length).head?.bind (setting.table.goto? · p.lhs) = some next ∧
      m'.stack.states = next :: m.stack.states.drop p.rhs.length := by
  obtain ⟨p, extras, children, below, next, entry, nextId, hp, hstack, hextras, hcount, -, hbelow,
    hgoto, hmakes, rfl⟩ := reduce?_spec hreduced
  obtain ⟨path, htracks⟩ := h
  rw [hstack] at htracks
  have hne := htracks.below_ne_nil hextras (by simpa using hbelow)
  rw [← List.append_assoc] at htracks
  obtain ⟨path', hpath'⟩ := htracks.of_append hne
  have hentry : entry.extra = false ∧ entry.state = next := by
    obtain ⟨hextra, hstate⟩ := hmakes.frame
    exact ⟨hextra.trans (Entry.ofChildren_extra _ _ _), hstate.trans (Entry.ofChildren_state _ _ _)⟩
  have hdrop : m.stack.states.drop p.rhs.length = below.states := by
    rw [hstack, Stack.states_append, Stack.states_of_extras hextras, Stack.states_append, ← hcount,
      List.nil_append]
    refine List.drop_left' ?_
    simp [Stack.states, List.filter_reverse]
  refine ⟨p, next, hp, ?_, ?_⟩
  · rw [hdrop, hpath'.head?_states]
    exact hgoto
  · rw [hdrop, Stack.states_append, Stack.states_of_extras, Stack.states_cons hentry.1, hentry.2]
    · rfl
    · simpa using hextras

/-! ## Steps without a choice -/

theorem lookahead_looked (m : Machine) (n : Nat) : (m.looked n).lookahead = m.lookahead := by
  simp only [lookahead, looked, Source.ahead_fetchMany]

theorem takeOver?_eq_none (hreuse : setting.reuse = none) (m : Machine) (state : Nat) :
    m.takeOver? setting state = none := by
  simp [takeOver?, hreuse]

/-- Where there is one candidate, the machine takes it. -/
theorem turn_of_candidates {kind : Kind} {action : Action}
    (h : candidates setting.table m.topState m.lookahead = [(kind, action)]) :
    ∃ n, m.turn setting = (m.looked n, (m.looked n).turnOf setting true kind action) := by
  refine ⟨0 + 1 - m.source.buffer.length, ?_⟩
  have hlooked : candidates setting.table (m.looked (0 + 1 - m.source.buffer.length)).topState
      ((m.looked (0 + 1 - m.source.buffer.length)).injected.getD (m.source.ahead 0).kind) =
        [(kind, action)] := h
  simp only [turn, peek_eq, hlooked]

/-- Where a `>>` cannot be read but a `>` can, the machine splits it. -/
theorem turn_of_split (hinjected : m.injected = none) (hkind : m.lookahead = .shr)
    (hnone : candidates setting.table m.topState .shr = [])
    (hgt : setting.table.hasAction m.topState .gt = true) :
    ∃ n, m.turn setting = (m.looked n, .split) ∧ (m.looked n).source.buffer ≠ [] := by
  refine ⟨0 + 1 - m.source.buffer.length, ?_, ?_⟩
  · have hlooked : candidates setting.table (m.looked (0 + 1 - m.source.buffer.length)).topState
        ((m.looked (0 + 1 - m.source.buffer.length)).injected.getD (m.source.ahead 0).kind) = [] := by
      change candidates setting.table m.topState m.lookahead = []
      rw [hkind]
      exact hnone
    have hfront : (m.source.ahead 0).kind = .shr := by simpa [lookahead, hinjected] using hkind
    have hgt' : setting.table.hasAction (m.looked (0 + 1 - m.source.buffer.length)).topState .gt =
        true := hgt
    have hinjected' : (m.looked (0 + 1 - m.source.buffer.length)).injected = none := hinjected
    simp only [turn, peek_eq, hlooked]
    exact if_pos (by simp [hfront, hgt', hinjected'])
  · simp only [looked, ← Source.peek_snd]
    rw [Source.buffer_peek_zero]
    exact List.cons_ne_nil _ _

end Machine

namespace Simulation

/-! ## Where a simulation stands -/

variable {table : Table} {trial : Trial} {source : Source} {s s' : Simulation} {m m' : Machine}
  {setting : Setting}

/-- The place in the input of the token to be read next. -/
def place (trial : Trial) (s : Simulation) : Nat :=
  trial.skipped + (s.consumed - trial.injected.toList.length)

/-- The tokens that are still to be read, first the halves of one that is split. -/
def upcoming (trial : Trial) (source : Source) (s : Simulation) (i : Nat) : Kind :=
  if i < s.halves then .gt
  else if s.halves = 0 then (source.ahead (s.place trial + i)).kind
  else (source.ahead (s.place trial + 1 + (i - s.halves))).kind

/-- A machine that stands where a simulation stands, which was begun in front of what `source` had to
offer: both have the same states, and read the same tokens from here. -/
structure Mirrors (trial : Trial) (source : Source) (s : Simulation) (m : Machine) : Prop where
  states : s.stack.states = m.stack.states
  source_eq : ∃ n, s.source = source.fetchMany n
  injected : m.injected = if s.consumed = 0 then trial.injected else none
  ahead : ∀ i, (m.source.ahead i).kind = s.upcoming trial source i
  halves : s.halves = 0 ∨ (s.halves ≤ 2 ∧ s.consumed < trial.limit ∧ m.injected = none)
  consumed_le : s.consumed ≤ trial.limit

theorem Mirrors.top?_eq {t : Table} (h : Mirrors trial source s m) (htracked : m.Tracked t) :
    s.stack.top? = some m.topState := by
  obtain ⟨path, htracks⟩ := htracked
  rw [Overlay.top?_eq_head?, h.states]
  exact htracks.head?_states

/-- Both read the same token next. -/
theorem Mirrors.kind (h : Mirrors trial source s m) : (s.kind trial).1 = m.lookahead ∧
    (∃ n, (s.kind trial).2 = { s with source := source.fetchMany n }) := by
  obtain ⟨n, hn⟩ := h.source_eq
  have hahead := h.ahead 0
  have hself : s = { s with source := source.fetchMany n } := by rw [← hn]
  unfold Simulation.kind
  split
  · rename_i hpos
    have hnone : m.injected = none := (h.halves.resolve_left (by omega)).2.2
    refine ⟨?_, n, hself⟩
    rw [Machine.lookahead, hnone, Option.getD_none, hahead, upcoming, if_pos hpos]
  · rename_i hzero
    have hzero : s.halves = 0 := by omega
    have hinjected := h.injected
    rw [upcoming, hzero, if_neg (Nat.lt_irrefl _), if_pos rfl, Nat.add_zero, place] at hahead
    have hlook (i : Nat) : (s.source.peek i).1 = source.ahead i := by
      rw [hn]
      exact Source.ahead_fetchMany source n i
    have hpeek (i : Nat) : ∃ k, { s with source := (s.source.peek i).2 } =
        { s with source := source.fetchMany k } := by
      rw [Source.peek_snd, hn, Source.fetchMany_fetchMany]
      exact ⟨_, rfl⟩
    split
    · rename_i hsome hconsumed
      rw [hconsumed, if_pos rfl, hsome] at hinjected
      exact ⟨by rw [Machine.lookahead, hinjected]; rfl, n, hself⟩
    · rename_i kind consumed hsome hconsumed
      rw [hconsumed, if_neg (Nat.succ_ne_zero _)] at hinjected
      rw [hsome, hconsumed] at hahead
      refine ⟨?_, hpeek _⟩
      rw [Machine.lookahead, hinjected, Option.getD_none, hahead]
      exact congrArg Lexeme.kind (hlook _)
    · rename_i consumed hnone
      rw [hnone, ite_self] at hinjected
      rw [hnone] at hahead
      refine ⟨?_, hpeek _⟩
      rw [Machine.lookahead, hinjected, Option.getD_none, hahead]
      exact congrArg Lexeme.kind (hlook _)

/-- Looking further ahead changes nothing. -/
theorem Mirrors.looked (h : Mirrors trial source s m) (k n : Nat) :
    Mirrors trial source { s with source := source.fetchMany k } (m.looked n) where
  states := h.states
  source_eq := ⟨k, rfl⟩
  injected := h.injected
  ahead i := by
    rw [Machine.looked, Source.ahead_fetchMany]
    exact h.ahead i
  halves := h.halves
  consumed_le := h.consumed_le

/-! ## Steps of both -/

/-- The shifts that are left: one for each token, and one more for a token of which both halves are
left. -/
def remaining (trial : Trial) (s : Simulation) : Nat :=
  trial.limit - s.consumed + if s.halves = 2 then 1 else 0

/-- What was missing is read first. -/
theorem Mirrors.length_toList_le (h : Mirrors trial source s m) (hnone : m.injected = none) :
    trial.injected.toList.length ≤ s.consumed := by
  have hinjected := h.injected
  rw [hnone] at hinjected
  split at hinjected
  · rw [← hinjected]
    exact Nat.zero_le _
  · exact Nat.le_trans (by cases trial.injected <;> simp) (Nat.one_le_iff_ne_zero.2 ‹_›)

theorem Mirrors.shift (h : Mirrors trial source s m) (hlt : s.consumed < trial.limit) (kind : Kind)
    (next : Nat) : Mirrors trial source (s.shift next) (m.shift kind next) ∧
      s.remaining trial = (s.shift next).remaining trial + 1 := by
  obtain ⟨n, hn⟩ := h.source_eq
  have hstack (e : Entry) (hextra : e.extra = false) (hstate : e.state = next) :
      next :: s.stack.states = Stack.states (e :: m.stack) := by
    rw [Stack.states_cons hextra, hstate, h.states]
  unfold Machine.shift
  split
  · -- What was missing is no token of the input.
    rename_i hsome
    have hzero : s.halves = 0 := by
      refine h.halves.resolve_right fun hhalves => ?_
      rw [hhalves.2.2] at hsome
      cases hsome
    have hconsumed : s.consumed = 0 := by
      by_contra hne
      rw [h.injected, if_neg hne] at hsome
      cases hsome
    have hlength : trial.injected.toList.length = 1 := by
      rw [h.injected, if_pos hconsumed] at hsome
      obtain ⟨kind, hkind⟩ := Option.isSome_iff_exists.1 hsome
      rw [hkind]
      rfl
    have hshift : s.shift next = { s with stack := s.stack.push next, consumed := 1, halves := 0 } := by
      simp [Simulation.shift, hzero, hconsumed]
    rw [hshift, Machine.shiftMissing_eq]
    refine ⟨⟨hstack _ rfl rfl, ⟨n, hn⟩, rfl, fun i => ?_, Or.inl rfl, hlt.trans_le' (by omega)⟩, ?_⟩
    · rw [Source.ahead_peek, h.ahead i]
      simp [upcoming, hzero, place, hconsumed, hlength]
    · simp only [remaining, hzero, hconsumed]
      omega
  · rename_i hnone
    have hnone : m.injected = none := by simpa using hnone
    have hle := h.length_toList_le hnone
    rw [Machine.shiftToken_eq]
    by_cases htwo : s.halves = 2
    · -- The first half of a token that was split.
      have hshift : s.shift next = { s with stack := s.stack.push next, halves := 1 } := by
        simp [Simulation.shift, htwo]
      rw [hshift]
      refine ⟨⟨hstack _ rfl rfl, ⟨n, hn⟩, h.injected, fun i => ?_, Or.inr ⟨by simp, hlt, hnone⟩,
        h.consumed_le⟩, ?_⟩
      · rw [Source.ahead_bump, h.ahead (i + 1)]
        simp only [upcoming, htwo, place]
        by_cases hi : i < 1
        · rw [if_pos hi, if_pos (by omega)]
        · rw [if_neg hi, if_neg (by omega), if_neg (by omega), if_neg (by omega)]
          congr 3
      · simp [remaining, htwo]
    · have hshift : s.shift next =
          { s with stack := s.stack.push next, consumed := s.consumed + 1, halves := 0 } := by
        simp [Simulation.shift, htwo]
      rw [hshift]
      refine ⟨⟨hstack _ rfl rfl, ⟨n, hn⟩, hnone, fun i => ?_, Or.inl rfl, hlt⟩, ?_⟩
      · rw [Source.ahead_bump, h.ahead (i + 1)]
        have hone : s.halves = 0 ∨ s.halves = 1 := by
          rcases h.halves with hzero | ⟨hhalves, -⟩ <;> omega
        rcases hone with hzero | hone
        · simp only [upcoming, place, hzero, Nat.not_lt_zero, if_true, if_false]
          exact congrArg (fun n => (source.ahead n).kind) (by omega)
        · simp only [upcoming, place, hone, Nat.not_lt_zero, if_true, if_false]
          rw [if_neg (by omega), if_neg (by omega)]
          exact congrArg (fun n => (source.ahead n).kind) (by omega)
      · simp only [remaining, htwo, if_false]
        simp
        omega

theorem Mirrors.reduce {production : Nat} (h : Mirrors trial source s m)
    (htracked : m.Tracked setting.table) (hs : s.reduce? setting.table production = some s')
    (hm : m.reduce? setting production = some m') :
    Mirrors trial source s' m' ∧ s'.remaining trial = s.remaining trial := by
  obtain ⟨p, next, hp, hgoto, hstates⟩ := htracked.states_reduce hm
  obtain ⟨q, hq, hs⟩ := Option.bind_eq_some_iff.1 hs
  obtain rfl := Option.some.inj (hp.symm.trans hq)
  split at hs
  · cases hs
  · rename_i stack hpop
    obtain ⟨top, htop, hs⟩ := Option.bind_eq_some_iff.1 hs
    obtain ⟨next', hnext', rfl⟩ := Option.map_eq_some_iff.1 hs
    have hdrop : stack.states = s.stack.states.drop p.rhs.length := by
      rw [← Overlay.states_pop, hpop]
    rw [Overlay.top?_eq_head?, hdrop, h.states] at htop
    rw [htop] at hgoto
    obtain rfl := Option.some.inj (hnext'.symm.trans hgoto)
    obtain ⟨_, _, _, _, _, _, _, -, -, -, -, -, -, -, -, rfl⟩ := Machine.reduce?_spec hm
    refine ⟨⟨?_, h.source_eq, h.injected, fun i => ?_, h.halves, h.consumed_le⟩, rfl⟩
    · rw [Overlay.states_push, hdrop, h.states, hstates]
    · rw [Source.ahead_peek]
      exact h.ahead i

/-- A machine that splits a `>>` stands where a simulation has both halves to read. -/
theorem Mirrors.split (h : Mirrors trial source s m) (hlt : s.consumed < trial.limit)
    (hinjected : m.injected = none) (hkind : m.lookahead = .shr) (hbuffer : m.source.buffer ≠ []) :
    Mirrors trial source { s with halves := 2 } { m with source := m.source.splitShift } ∧
      Machine.lookahead { m with source := m.source.splitShift } = .gt ∧
      remaining trial { s with halves := 2 } = s.remaining trial + 1 := by
  have hfront : (m.source.ahead 0).kind = .shr := by
    simpa [Machine.lookahead, hinjected] using hkind
  have hfirst := Source.ahead_splitShift hbuffer hfront
  have hzero : s.halves = 0 := by
    have hahead := h.ahead 0
    rw [hfront, upcoming] at hahead
    split at hahead
    · cases hahead
    · omega
  refine ⟨⟨h.states, h.source_eq, h.injected, fun i => ?_, Or.inr ⟨Nat.le_refl _, hlt, hinjected⟩,
    h.consumed_le⟩, ?_, ?_⟩
  · rcases i with - | - | i
    · rw [hfirst]
      rfl
    · exact congrArg Lexeme.kind (Source.ahead_splitShift_one hbuffer hfront)
    · rw [Source.ahead_splitShift_add hbuffer hfront, h.ahead (i + 1)]
      simp only [upcoming, place, hzero, Nat.not_lt_zero, if_true, if_false]
      rw [if_neg (by omega), if_neg (by omega)]
      exact congrArg (fun n => (source.ahead n).kind) (by omega)
  · simp [Machine.lookahead, hinjected, hfirst]
  · simp [remaining, hzero]

end Simulation

/-! ## Getting on without a repair -/

def Turn.isShift : Turn → Bool
  | .shift _ _ => true
  | _ => false

def Turn.isSplit : Turn → Bool
  | .split => true
  | _ => false

namespace Machine

variable {m m' : Machine} {setting : Setting} {tokens : Nat}

/-- The machine reads a number of tokens, where the two halves of a `>>` count as one, or comes to the
end, and has no need of a repair on the way. -/
def Proceeds (setting : Setting) (m : Machine) (tokens : Nat) : Prop :=
  ∃ turns m', Run setting m turns m' ∧ (∀ turn ∈ turns, turn.isRepair = false) ∧
    (turns.countP Turn.isShift = tokens + turns.countP Turn.isSplit ∨
      (m'.turn setting).2 = .accept)

theorem Proceeds.zero (setting : Setting) (m : Machine) : m.Proceeds setting 0 :=
  ⟨[], m, .done m, by simp, Or.inl rfl⟩

theorem Proceeds.of_accept (h : (m.turn setting).2 = .accept) (tokens : Nat) :
    m.Proceeds setting tokens :=
  ⟨[], m, .done m, by simp, Or.inr h⟩

/-- One step, and then on. -/
theorem Proceeds.of_turn {turn : Turn} {later : Nat} (hturn : m.turn setting = (m', turn))
    {next : Machine} (hnext : m'.perform setting turn = .running next)
    (hrepair : turn.isRepair = false) (h : next.Proceeds setting later)
    (hcount : later + turn.isShift.toNat = tokens + turn.isSplit.toNat) :
    m.Proceeds setting tokens := by
  obtain ⟨turns, last, hrun, hturns, hend⟩ := h
  have hstep : m.step setting = .running next := by rw [step_eq, hturn, hnext]
  have hrun' := Run.step hstep hrun
  rw [hturn] at hrun'
  refine ⟨turn :: turns, last, hrun', ?_, hend.imp_left fun hend => ?_⟩
  · intro turn' hmem
    rcases List.mem_cons.1 hmem with rfl | hmem
    · exact hrepair
    · exact hturns turn' hmem
  · simp only [List.countP_cons]
    cases hshift : turn.isShift <;> cases hsplit : turn.isSplit <;> simp [hshift, hsplit] at hcount ⊢ <;>
      omega

end Machine

namespace Simulation

variable {g : Grammar} {trial : Trial} {source : Source} {s : Simulation} {m : Machine}
  {setting : Setting} {budget : Nat}

theorem Mirrors.remaining_of_le (h : Mirrors trial source s m) (hle : trial.limit ≤ s.consumed) :
    s.remaining trial = 0 := by
  have hhalves : s.halves = 0 := h.halves.resolve_right fun hhalves => by omega
  simp [remaining, hhalves, hle]

/-- A simulation that has to split a `>>` goes on as one with both halves to read. -/
theorem go_split {table : Table} {state : Nat} {action : Action} (budget : Nat)
    (hlt : s.consumed < trial.limit) {n : Nat}
    (hkind : s.kind trial = (.shr, { s with source := source.fetchMany n }))
    (htop : s.stack.top? = some state) (hnone : table.firstAction? state .shr = none)
    (hfirst : table.firstAction? state .gt = some action) :
    go table trial (budget + 1) none { s with source := source.fetchMany n, halves := 2 } =
        go table trial (budget + 1) none s ∧
      ∀ cell ∈ lookups table trial (budget + 1)
          { s with source := source.fetchMany n, halves := 2 },
        cell = (state, .gt) ∨ cell ∈ s.lookups table trial (budget + 1) := by
  have hhalves : kind trial { s with source := source.fetchMany n, halves := 2 } =
      (.gt, { s with source := source.fetchMany n, halves := 2 }) := rfl
  have hwhole (s : Simulation) :
      s.action? table none state .shr = some (action, { s with halves := 2 }) := by
    simp [action?, hnone, hfirst]
  have hhalf (s : Simulation) : s.action? table none state .gt = some (action, s) := by
    simp [action?, hfirst]
  constructor
  · simp only [go, if_neg (Nat.not_le.2 hlt), hkind, hhalves, htop, Option.bind_some, hwhole, hhalf]
  · intro cell hcell
    simp only [lookups, if_neg (Nat.not_le.2 hlt), hkind, hhalves, htop, hwhole, hhalf,
      List.mem_cons] at hcell ⊢
    exact hcell.imp_right Or.inr

/-- Where there is one candidate, both take it. -/
theorem Mirrors.go_of_candidates {kind : Kind} {action : Action} (hg : g.WellFormed)
    (htable : setting.table = Table.ofGrammar g) (hreuse : setting.reuse = none)
    (ih : ∀ {s : Simulation} {m : Machine}, Mirrors trial source s m → m.Tracked setting.table →
      (∀ cell ∈ s.lookups setting.table trial budget, setting.table.Decides cell.1 cell.2) →
      (go setting.table trial budget none s).1.atLeast trial.limit = true →
      m.Proceeds setting (s.remaining trial))
    (h : Mirrors trial source s m) (htracked : m.Tracked setting.table)
    (hlt : s.consumed < trial.limit)
    (hone : candidates setting.table m.topState m.lookahead = [(kind, action)])
    (hlookups : ∀ cell ∈ s.lookups setting.table trial (budget + 1),
      setting.table.Decides cell.1 cell.2)
    (hreach : (go setting.table trial (budget + 1) none s).1.atLeast trial.limit = true) :
    m.Proceeds setting (s.remaining trial) := by
  obtain ⟨hkind, n, hn⟩ := h.kind
  obtain ⟨k, hturn⟩ := Machine.turn_of_candidates hone
  have hlooked := h.looked n k
  have htracked' : (m.looked k).Tracked setting.table := htracked.congr rfl
  have hmem : (kind, action) ∈
      candidates setting.table (m.looked k).topState (m.looked k).lookahead := by
    rw [Machine.lookahead_looked]
    change (kind, action) ∈ candidates setting.table m.topState m.lookahead
    rw [hone]
    exact List.mem_singleton_self _
  have htop : s.stack.top? = some m.topState := h.top?_eq htracked
  have haction (s : Simulation) :
      s.action? setting.table none m.topState m.lookahead = some (action, s) := by
    have hfirst : setting.table.firstAction? m.topState m.lookahead = some action := by
      rw [Table.firstAction?_eq, hone]
      rfl
    simp [action?, hfirst]
  simp only [lookups, if_neg (Nat.not_le.2 hlt), hkind, hn, htop, haction] at hlookups
  simp only [Simulation.go, if_neg (Nat.not_le.2 hlt), hkind, hn, htop, Option.bind_some,
    haction] at hreach
  cases action with
  | accept => exact .of_accept (by rw [hturn]; rfl) _
  | shift next =>
    have hturnOf : (m.looked k).turnOf setting true kind (.shift next) = .shift kind next := by
      simp [Machine.turnOf, Machine.takeOver?_eq_none hreuse]
    rw [hturnOf] at hturn
    obtain ⟨hshift, hremaining⟩ := hlooked.shift hlt kind next
    refine .of_turn hturn rfl rfl (ih hshift (htracked'.shift hmem) ?_ hreach) hremaining.symm
    exact fun cell hcell => hlookups cell (List.mem_cons_of_mem _ hcell)
  | reduce production =>
    have hsome := htracked'.isSome_reduce? hg htable (Machine.mem_candidates hmem).1
    obtain ⟨m', hm'⟩ := Option.isSome_iff_exists.1 hsome
    have hturnOf : (m.looked k).turnOf setting true kind (.reduce production) = .reduce m' := by
      simp [Machine.turnOf, hm']
    rw [hturnOf] at hturn
    cases hs' : Simulation.reduce? setting.table { s with source := source.fetchMany n } production with
    | some s' =>
      simp only [hs'] at hlookups hreach
      obtain ⟨hreduce, hremaining⟩ := hlooked.reduce htracked' hs' hm'
      refine .of_turn hturn rfl rfl (ih hreduce (htracked'.reduce hm') ?_ hreach) hremaining
      exact fun cell hcell => hlookups cell (List.mem_cons_of_mem _ hcell)
    | none =>
      -- A simulation that gets stuck has not come as far as it was asked to.
      simp only [hs', Reach.atLeast, decide_eq_true_eq] at hreach
      omega

/-- The machine gets as far as the simulation. -/
theorem Mirrors.go (hg : g.WellFormed) (htable : setting.table = Table.ofGrammar g)
    (hreuse : setting.reuse = none) (hinjected : trial.injected ≠ some .shr)
    (h : Mirrors trial source s m) (htracked : m.Tracked setting.table)
    (hlookups : ∀ cell ∈ s.lookups setting.table trial budget,
      setting.table.Decides cell.1 cell.2)
    (hreach : (go setting.table trial budget none s).1.atLeast trial.limit = true) :
    m.Proceeds setting (s.remaining trial) := by
  induction budget generalizing s m with
  | zero =>
    rw [h.remaining_of_le (by simpa [Simulation.go, Reach.atLeast] using hreach)]
    exact .zero setting m
  | succ budget ih =>
    by_cases hlt : s.consumed < trial.limit
    · obtain ⟨hkind, n, hn⟩ := h.kind
      have htop : s.stack.top? = some m.topState := h.top?_eq htracked
      have hdecides : setting.table.Decides m.topState m.lookahead := by
        refine hlookups (m.topState, m.lookahead) ?_
        simp only [lookups, if_neg (Nat.not_le.2 hlt), hkind, hn, htop, List.mem_cons, true_or]
      rcases hdecides with hone | ⟨hshr, hnone, hgt⟩
      · obtain ⟨⟨kind, action⟩, hone⟩ := List.length_eq_one_iff.1 hone
        exact h.go_of_candidates hg htable hreuse ih htracked hlt hone hlookups hreach
      · -- The machine splits the token and then is where a simulation with both halves is.
        have hnoneInjected : m.injected = none := by
          cases hm : m.injected with
          | none => rfl
          | some kind =>
            refine absurd ?_ hinjected
            have hm' := h.injected
            rw [hm] at hm'
            split at hm'
            · rw [← hm', ← hshr, Machine.lookahead, hm]
              rfl
            · cases hm'
        obtain ⟨⟨kind, action⟩, hone⟩ := List.length_eq_one_iff.1 hgt
        have hfirst : setting.table.firstAction? m.topState .gt = some action := by
          rw [Table.firstAction?_eq, hone]
          rfl
        obtain ⟨k, hturn, hbuffer⟩ := Machine.turn_of_split hnoneInjected hshr hnone
          (Table.hasAction_of_candidates hone)
        obtain ⟨hsplit, hlookahead, hremaining⟩ := (h.looked n k).split hlt hnoneInjected
          ((m.lookahead_looked k).trans hshr) hbuffer
        obtain ⟨hsame, hcells⟩ := go_split budget hlt
          (Prod.ext (hkind.trans hshr) hn : s.kind trial = (.shr, { s with source := _ })) htop
          (by rw [Table.firstAction?_eq, hnone]; rfl) hfirst
        rw [← hlookahead] at hone
        refine .of_turn hturn rfl rfl (hsplit.go_of_candidates hg htable hreuse ih
          (htracked.congr rfl) hlt hone ?_ ?_) hremaining
        · intro cell hcell
          rcases hcells cell hcell with rfl | hcell
          · exact Or.inl hgt
          · exact hlookups cell hcell
        · rw [hsame]
          exact hreach
    · rw [h.remaining_of_le (Nat.le_of_not_lt hlt)]
      exact .zero setting m

end Simulation

/-! ## Repairs -/

namespace Machine

variable {m m' : Machine} {setting : Setting} {trial : Trial} {text : List Char}

/-- A simulation gets as far as it was asked to, and there was no choice on the way. -/
def Foresees (setting : Setting) (m : Machine) (trial : Trial) (stack : Overlay) : Prop :=
  (m.simulate setting trial stack).1.atLeast trial.limit = true ∧
    ∀ cell ∈ Simulation.lookups setting.table trial setting.options.simulationSteps
        { stack := stack, source := m.source },
      setting.table.Decides cell.1 cell.2

/-- A machine that stands where a simulation begins gets as far as the simulation. -/
theorem Foresees.proceeds {g : Grammar} {stack : Overlay} (hg : g.WellFormed)
    (htable : setting.table = Table.ofGrammar g) (hreuse : setting.reuse = none)
    (h : m.Foresees setting trial stack) (hforced : trial.forced = none)
    (hinjected : trial.injected ≠ some .shr)
    (hmirrors : Simulation.Mirrors trial m.source { stack := stack, source := m.source } m')
    (htracked : m'.Tracked setting.table) : m'.Proceeds setting trial.limit := by
  obtain ⟨hreach, hlookups⟩ := h
  have hgo := hmirrors.go hg htable hreuse hinjected htracked hlookups (hforced ▸ hreach)
  simpa [Simulation.remaining] using hgo

/-- A missing token is read where a simulation was told to read it. -/
theorem mirrors_injected (hinjected : m'.injected = trial.injected) (hskipped : trial.skipped = 0)
    (hstack : m'.stack = m.stack) {n : Nat} (hsource : m'.source = m.source.fetchMany n) :
    Simulation.Mirrors trial m.source { stack := Overlay.ofStack m.stack, source := m.source } m' where
  states := by rw [hstack]; rfl
  source_eq := ⟨0, rfl⟩
  injected := hinjected
  ahead i := by
    rw [hsource, Source.ahead_fetchMany]
    simp [Simulation.upcoming, Simulation.place, hskipped]
  halves := Or.inl rfl
  consumed_le := Nat.zero_le _

theorem ahead_skipInto (n : Nat) (e : Entry) (m : Machine) (i : Nat) :
    (skipInto n e m).2.source.ahead i = m.source.ahead (n + i) := by
  induction n generalizing e m with
  | zero => rw [Nat.zero_add]; rfl
  | succ n ih =>
    simp only [skipInto]
    rw [ih]
    change m.source.bump.2.ahead (n + i) = _
    rw [Source.ahead_bump, Nat.add_right_comm]

/-- Skipping leaves the machine where a simulation that skips as much begins. -/
theorem mirrors_skip (hfaithful : m.Faithful text) (hinjected : m.injected = none)
    (htrial : trial.injected = none) {depth : Nat} (hdepth : depth < m.stack.length) (n : Nat) :
    Simulation.Mirrors trial m.source { stack := Overlay.popped m.stack depth, source := m.source }
      ((m.looked n).skip trial.skipped depth) := by
  obtain ⟨d, hd, hskip⟩ := skip_eq (hfaithful.looked n).formed trial.skipped depth
  obtain rfl : d = depth := hd.trans (Nat.min_eq_left (Nat.le_sub_one_of_lt hdepth))
  have hgathered : ((m.looked n).gathered trial.skipped d).2.stack = m.stack.drop d ∧
      ((m.looked n).gathered trial.skipped d).2.injected = none := by
    rw [gathered, skipInto_frame]
    exact ⟨rfl, hinjected⟩
  have hmirrors (m' : Machine) (hstates : m'.stack.states = Stack.states (m.stack.drop d))
      (hnone : m'.injected = none)
      (hsource : m'.source = ((m.looked n).gathered trial.skipped d).2.source) :
      Simulation.Mirrors trial m.source
        { stack := Overlay.popped m.stack d, source := m.source } m' := by
    refine ⟨hstates.symm, ⟨0, rfl⟩, by rw [hnone, htrial, ite_self], fun i => ?_, Or.inl rfl,
      Nat.zero_le _⟩
    have hahead : m'.source.ahead i = m.source.ahead (trial.skipped + i) := by
      rw [hsource, gathered, ahead_skipInto]
      exact (Source.ahead_peek _ _ _).trans (Source.ahead_fetchMany _ _ _)
    rw [hahead]
    simp [Simulation.upcoming, Simulation.place]
  rcases hskip with ⟨-, hskip⟩ | ⟨-, hskip⟩
  · rw [hskip]
    exact hmirrors _ (by rw [hgathered.1]) hgathered.2 rfl
  · -- The error that is left on the stack has no state of its own.
    rw [hskip]
    refine hmirrors _ ?_ hgathered.2 rfl
    rw [Stack.states_cons_of_extra rfl, hgathered.1]

variable {g : Grammar} {limit : Nat}

/-- A missing token that a simulation has tried can be put in. -/
theorem Foresees.proceeds_injected {kind : Kind} (hg : g.WellFormed)
    (htable : setting.table = Table.ofGrammar g) (hreuse : setting.reuse = none)
    (htracked : m.Tracked setting.table) (hkind : kind ≠ .shr)
    (h : m.Foresees setting { injected := some kind, limit := limit } (Overlay.ofStack m.stack)) :
    Proceeds setting { (m.simulate setting { injected := some kind, limit := limit }
      (Overlay.ofStack m.stack)).2 with injected := some kind } limit := by
  obtain ⟨n, hn⟩ := simulate_snd setting m { injected := some kind, limit := limit }
    (Overlay.ofStack m.stack)
  rw [hn]
  exact h.proceeds hg htable hreuse rfl (by simpa using hkind) (mirrors_injected rfl rfl rfl rfl)
    (htracked.congr rfl)

/-- What a simulation has left out can be skipped. -/
theorem Foresees.proceeds_skip {skipped depth : Nat} (hg : g.WellFormed)
    (htable : setting.table = Table.ofGrammar g) (hreuse : setting.reuse = none)
    (htracked : m.Tracked setting.table) (hfaithful : m.Faithful text) (hinjected : m.injected = none)
    (hdepth : depth < m.stack.length)
    (h : m.Foresees setting { skipped := skipped, limit := limit } (Overlay.popped m.stack depth)) :
    Proceeds setting ((m.simulate setting { skipped := skipped, limit := limit }
      (Overlay.popped m.stack depth)).2.skip skipped depth) limit := by
  obtain ⟨n, hn⟩ := simulate_snd setting m { skipped := skipped, limit := limit }
    (Overlay.popped m.stack depth)
  rw [hn]
  have hlooked : (m.looked n).Tracked setting.table := htracked.congr rfl
  exact h.proceeds hg htable hreuse rfl (by simp) (mirrors_skip hfaithful hinjected rfl hdepth n)
    (hlooked.skip (hfaithful.looked n) skipped depth)

end Machine

namespace Machine

/-- A simulation of two tokens that finds one shift for each foresees them. -/
theorem foresees_of_shifts {setting : Setting} {m : Machine} {trial : Trial} {stack : Overlay}
    (source source' : Source) {first second : Kind} {state next last : Nat}
    (hlimit : trial.limit = 2) (hforced : trial.forced = none) (htop : stack.top? = some state)
    (hfirst : Simulation.kind trial ⟨stack, m.source, 0, 0⟩ = (first, ⟨stack, source, 0, 0⟩))
    (hsecond : Simulation.kind trial ⟨stack.push next, source, 1, 0⟩ =
      (second, ⟨stack.push next, source', 1, 0⟩))
    (hshift : setting.table.actions state first = [.shift next])
    (hshift' : setting.table.actions next second = [.shift last])
    (hkinds : first.isContextual = false ∧ second.isContextual = false)
    (hsteps : 2 < setting.options.simulationSteps) : m.Foresees setting trial stack := by
  obtain ⟨budget, hbudget⟩ := Nat.exists_eq_add_of_lt hsteps
  have hbudget : setting.options.simulationSteps = budget + 1 + 1 + 1 := by omega
  have htop' : (stack.push next).top? = some next := rfl
  have hgo : Simulation.go setting.table trial (budget + 1 + 1 + 1) none
      ⟨stack, m.source, 0, 0⟩ = (.consumed 2, source') := by
    simp [Simulation.go, hlimit, hfirst, htop, Simulation.action?, Table.firstAction?, hshift,
      Simulation.shift, hsecond, htop', hshift']
  have hlookups : Simulation.lookups setting.table trial (budget + 1 + 1 + 1)
      ⟨stack, m.source, 0, 0⟩ = [(state, first), (next, second)] := by
    simp [Simulation.lookups, hlimit, hfirst, htop, Simulation.action?, Table.firstAction?, hshift,
      Simulation.shift, hsecond, htop', hshift']
  refine ⟨?_, fun cell hcell => Or.inl ?_⟩
  · rw [simulate, Simulation.run, hforced, hbudget, hgo, hlimit]
    rfl
  · rw [hbudget, hlookups] at hcell
    simp only [List.mem_cons, List.not_mem_nil, or_false] at hcell
    rcases hcell with rfl | rfl
    · simp [candidates, hshift, hkinds.1]
    · simp [candidates, hshift', hkinds.2]

end Machine

namespace BigQuery

open Machine (Run Foresees Proceeds)
open Tree (Occurs)

/-- Simulations come true. Let a machine have come to some place in a text, looked ahead as far as it
likes, and have no missing token asked for. If a simulation on its stack reads some tokens, or comes to
the end, and there was no choice on the way, then so does the machine, without a repair: with the
missing token that the simulation read first, or after it has skipped the tokens and entries that the
simulation left out. -/
theorem simulations_come_true (options : Options) (text : List Char) (firstId : Nat)
    (turns : List Turn) (reached m : Machine) (n limit : Nat)
    (hrun : Run ⟨BigQuery.table, options, none⟩ (Machine.start text firstId) turns reached)
    (hstack : m.stack = reached.stack) (hsource : m.source = reached.source.fetchMany n)
    (hinjected : m.injected = none) :
    (∀ kind, kind ≠ .shr →
      m.Foresees ⟨BigQuery.table, options, none⟩ { injected := some kind, limit := limit }
        (Overlay.ofStack m.stack) →
      Proceeds ⟨BigQuery.table, options, none⟩
        { (m.simulate ⟨BigQuery.table, options, none⟩ { injected := some kind, limit := limit }
          (Overlay.ofStack m.stack)).2 with injected := some kind } limit) ∧
    ∀ skipped depth, depth < m.stack.length →
      m.Foresees ⟨BigQuery.table, options, none⟩ { skipped := skipped, limit := limit }
        (Overlay.popped m.stack depth) →
      Proceeds ⟨BigQuery.table, options, none⟩
        ((m.simulate ⟨BigQuery.table, options, none⟩ { skipped := skipped, limit := limit }
          (Overlay.popped m.stack depth)).2.skip skipped depth) limit := by
  obtain ⟨g, hgrammar, htable, hsafe, -⟩ := table_spec
  have hg := Grammar.wellFormed_ofRules hgrammar
  have hoccurs : Occurs BigQuery.table ⟨BigQuery.table, options, none⟩ text := .scratch options text
  have hsuits := suits htable hsafe hoccurs
  have hreuse : (⟨BigQuery.table, options, none⟩ : Setting).reuse = none := rfl
  generalize (⟨BigQuery.table, options, none⟩ : Setting) = setting at hrun hsuits hoccurs hreuse ⊢
  have hregular := hrun.regular (.start g text firstId) hsuits
  have htracked : m.Tracked setting.table :=
    (hrun.tracked (.start _ text firstId) (.start text firstId) hoccurs.truthful).congr hstack
  have hfaithful : m.Faithful text := (hregular.faithful.looked n).congr hsource hstack
  exact ⟨fun kind hkind h => h.proceeds_injected hg hsuits.table_eq hreuse htracked hkind,
    fun skipped depth hdepth h =>
      h.proceeds_skip hg hsuits.table_eq hreuse htracked hfaithful hinjected hdepth⟩

/-- Putting a missing `SELECT` in front of a number, and skipping a `)` in front of both. -/
theorem simulations_come_true_select :
    Proceeds ⟨BigQuery.table, {}, none⟩
      { ((Machine.start "1".toList 0).simulate ⟨BigQuery.table, {}, none⟩
        { injected := some .selectKw, limit := 2 }
        (Overlay.ofStack (Machine.start "1".toList 0).stack)).2 with injected := some .selectKw } 2 ∧
    Proceeds ⟨BigQuery.table, {}, none⟩
      (((Machine.start ") SELECT 1".toList 0).simulate ⟨BigQuery.table, {}, none⟩
        { skipped := 1, limit := 2 }
        (Overlay.popped (Machine.start ") SELECT 1".toList 0).stack 0)).2.skip 1 0) 2 := by
  obtain ⟨g, -, -, -, ⟨states⟩⟩ := exists_selectStates
  have hselect := states.shift_select
  have hnumber := states.shift_number states.select (by simp)
  constructor
  · generalize hm : Machine.start "1".toList 0 = m
    have hkind : (m.source.peek 0).1.kind = .number := by
      rw [← hm]
      decide +kernel
    have hinjected : m.injected = none := by rw [← hm]; rfl
    have htop : (Overlay.ofStack m.stack).top? = some 0 := by rw [← hm]; rfl
    have hrun : Run ⟨BigQuery.table, {}, none⟩ (Machine.start "1".toList 0) [] m := hm ▸ .done _
    refine (simulations_come_true {} _ 0 [] m m 0 2 hrun rfl rfl hinjected).1 .selectKw (by decide) ?_
    exact Machine.foresees_of_shifts m.source (m.source.peek 0).2 rfl rfl htop rfl
      (Prod.ext hkind rfl) hselect hnumber (by decide) (by decide)
  · generalize hm : Machine.start ") SELECT 1".toList 0 = m
    have hkind : (m.source.peek 1).1.kind = .selectKw ∧
        ((m.source.peek 1).2.peek 2).1.kind = .number := by
      rw [← hm]
      decide +kernel
    have hinjected : m.injected = none := by rw [← hm]; rfl
    have htop : (Overlay.popped m.stack 0).top? = some 0 := by rw [← hm]; rfl
    have hdepth : 0 < m.stack.length := by rw [← hm]; exact Nat.one_pos
    have hrun : Run ⟨BigQuery.table, {}, none⟩ (Machine.start ") SELECT 1".toList 0) [] m :=
      hm ▸ .done _
    refine (simulations_come_true {} _ 0 [] m m 0 2 hrun rfl rfl hinjected).2 1 0 hdepth ?_
    exact Machine.foresees_of_shifts (m.source.peek 1).2 ((m.source.peek 1).2.peek 2).2 rfl rfl htop
      (Prod.ext hkind.1 rfl) (Prod.ext hkind.2 rfl) hselect hnumber (by decide) (by decide)

end BigQuery
end SqlTree
