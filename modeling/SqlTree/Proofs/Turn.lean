import SqlTree.Parse.Basic
import SqlTree.Proofs.Source

/-!
# What a step can do

A step first looks ahead, as far as it takes to decide, and then takes one turn. Everything that is
proved about parsing is proved turn by turn.

- `Machine.looked`   : the machine after reading further ahead
- `Turn`, `Machine.turn` : what a step decides to do
- `Machine.step_eq`  : a step carries out its turn
- `Machine.Takes`    : what is known about the machine that takes a turn
- `Machine.step_cases` : all that a step can do
- `Machine.Effect`, `Machine.step_keeps` : what it does to the machine, and so what it keeps
- `Machine.run_induction` : what every step keeps is kept by a run
-/

namespace SqlTree

/-! ## Looking ahead -/

namespace Source

/-- The lexeme `n` places ahead. -/
def ahead (s : Source) (n : Nat) : Lexeme := (s.peek n).1

/-- What is ahead does not depend on how far the source has been read. -/
theorem ahead_fetchMany (s : Source) (n i : Nat) : (fetchMany n s).ahead i = s.ahead i := by
  -- Both are the lexeme at place `i` of a buffer that holds enough of them.
  have key (k : Nat) (hk : i < (fetchMany k s).buffer.length) :
      (fetchMany k s).buffer[i]? = some (s.ahead i) := by
    have hpeek := buffer_peek s i
    rw [peek_snd] at hpeek
    rcases Nat.le_total k (i + 1 - s.buffer.length) with hle | hle
    · obtain ⟨more, -, hmore⟩ := buffer_fetchMany (i + 1 - s.buffer.length - k) (fetchMany k s)
      rw [fetchMany_fetchMany, show k + (i + 1 - s.buffer.length - k) = i + 1 - s.buffer.length
        by omega] at hmore
      rw [hmore, List.getElem?_append_left hk] at hpeek
      exact hpeek
    · obtain ⟨more, -, hmore⟩ := buffer_fetchMany (k - (i + 1 - s.buffer.length))
        (fetchMany (i + 1 - s.buffer.length) s)
      rw [fetchMany_fetchMany, show i + 1 - s.buffer.length + (k - (i + 1 - s.buffer.length)) = k
        by omega] at hmore
      have hlt := (List.getElem?_eq_some_iff.1 hpeek).1
      rw [hmore, List.getElem?_append_left hlt]
      exact hpeek
  have hpeek := buffer_peek (fetchMany n s) i
  have hlt := (List.getElem?_eq_some_iff.1 hpeek).1
  rw [peek_snd, fetchMany_fetchMany] at hpeek hlt
  rw [key _ hlt] at hpeek
  exact (Option.some.inj hpeek).symm

theorem ahead_peek (s : Source) (n i : Nat) : (s.peek n).2.ahead i = s.ahead i := by
  rw [peek_snd, ahead_fetchMany]

theorem fetchMany_cons (n : Nat) (s : Source) (l : Lexeme) :
    fetchMany n { s with buffer := l :: s.buffer } =
      { fetchMany n s with buffer := l :: (fetchMany n s).buffer } := by
  induction n generalizing s with
  | zero => rfl
  | succ n ih => exact ih s.fetch

/-- What is ahead moves one place forward. -/
theorem ahead_bump (s : Source) (i : Nat) : s.bump.2.ahead i = s.ahead (i + 1) := by
  rw [← ahead_peek s 0 (i + 1)]
  have hbuffer := buffer_peek_zero s
  generalize hfront : (s.peek 0).1 = l at hbuffer
  have hcons : (s.peek 0).2 = { s.bump.2 with buffer := l :: s.bump.2.buffer } := by
    rw [bump_snd]
    simp only [← hbuffer]
  rw [hcons, ahead, ahead, peek, peek]
  simp only [List.drop_succ_cons, List.length_cons, Nat.add_sub_add_right, fetchMany_cons]
  split <;> simp

/-- A `>>` in front of the buffer is replaced by its two halves. -/
theorem splitShift_eq {s : Source} (hbuffer : s.buffer ≠ []) (hkind : (s.ahead 0).kind = .shr) :
    ∃ rest, s.buffer = s.ahead 0 :: rest ∧ s.splitShift =
      { s with buffer := { s.ahead 0 with kind := .gt, text := ['>'] } ::
          ⟨.gt, ['>'], (s.ahead 0).start + 1, [], (s.ahead 0).start + 1⟩ :: rest } := by
  obtain ⟨front, rest, hcons⟩ := List.exists_cons_of_ne_nil hbuffer
  have hfront : s.ahead 0 = front := by simp [ahead, peek, hcons]
  rw [hfront] at hkind ⊢
  exact ⟨rest, hcons, by simp only [splitShift, hcons, if_pos hkind]⟩

/-- A `>>` that is split is a `>` in the same place. -/
theorem ahead_splitShift {s : Source} (hbuffer : s.buffer ≠ [])
    (hkind : (s.ahead 0).kind = .shr) :
    s.splitShift.ahead 0 = { s.ahead 0 with kind := .gt, text := ['>'] } := by
  obtain ⟨rest, -, hsplit⟩ := splitShift_eq hbuffer hkind
  rw [hsplit]
  rfl

/-- Behind it stands another one, with nothing in front of it. -/
theorem ahead_splitShift_one {s : Source} (hbuffer : s.buffer ≠ [])
    (hkind : (s.ahead 0).kind = .shr) : s.splitShift.ahead 1 =
      ⟨.gt, ['>'], (s.ahead 0).start + 1, [], (s.ahead 0).start + 1⟩ := by
  obtain ⟨rest, -, hsplit⟩ := splitShift_eq hbuffer hkind
  rw [hsplit]
  rfl

/-- Then comes all that came before. -/
theorem ahead_splitShift_add {s : Source} (hbuffer : s.buffer ≠ [])
    (hkind : (s.ahead 0).kind = .shr) (i : Nat) :
    s.splitShift.ahead (i + 2) = s.ahead (i + 1) := by
  -- Taking both halves leaves what taking the whole of it does.
  have hsame : s.splitShift.bump.2.bump.2 = s.bump.2 := by
    obtain ⟨rest, hcons, hsplit⟩ := splitShift_eq hbuffer hkind
    rw [hsplit]
    simp [bump, peek, hcons]
  rw [← ahead_bump, ← ahead_bump, hsame, ahead_bump]

end Source

namespace Simulation

variable {table : Table} {s s' : Simulation}

theorem action?_source {forced : Option Action} {kind : Kind} {action : Action}
    (h : (s.stack.top?.bind fun state => s.action? table forced state kind) = some (action, s')) :
    s'.source = s.source := by
  obtain ⟨state, -, h⟩ := Option.bind_eq_some_iff.1 h
  unfold action? at h
  split at h
  · cases h
    rfl
  · split at h
    · obtain ⟨_, -, heq⟩ := Option.map_eq_some_iff.1 h
      cases heq
      rfl
    · cases h

theorem shift_source (s : Simulation) (state : Nat) : (s.shift state).source = s.source := by
  simp only [shift]
  split <;> rfl

theorem reduce?_source {production : Nat} (h : s.reduce? table production = some s') :
    s'.source = s.source := by
  obtain ⟨p, -, h⟩ := Option.bind_eq_some_iff.1 h
  split at h
  · cases h
  · obtain ⟨top, -, h⟩ := Option.bind_eq_some_iff.1 h
    obtain ⟨next, -, rfl⟩ := Option.map_eq_some_iff.1 h
    rfl

/-- A simulation only reads ahead. -/
theorem go_snd (table : Table) (trial : Trial) (budget : Nat) (forced : Option Action)
    (s : Simulation) : ∃ n, (go table trial budget forced s).2 = s.source.fetchMany n := by
  induction budget generalizing forced s with
  | zero => exact ⟨0, rfl⟩
  | succ budget ih =>
    have hkind : ∃ n, (s.kind trial).2 = { s with source := s.source.fetchMany n } := by
      unfold kind
      split
      · exact ⟨0, rfl⟩
      · split
        · exact ⟨0, rfl⟩
        · exact ⟨_, by rw [← Source.peek_snd]⟩
        · exact ⟨_, by rw [← Source.peek_snd]⟩
    obtain ⟨n, hn⟩ := hkind
    have hlater (s' : Simulation) (forced : Option Action)
        (hs' : s'.source = (s.kind trial).2.source) :
        ∃ n, (go table trial budget forced s').2 = s.source.fetchMany n := by
      obtain ⟨k, hk⟩ := ih forced s'
      refine ⟨n + k, ?_⟩
      rw [hk, hs', hn, Source.fetchMany_fetchMany]
    simp only [go]
    split
    · exact ⟨0, rfl⟩
    · split
      · exact ⟨n, by rw [hn]⟩
      · rename_i s' haction
        exact ⟨n, by rw [action?_source haction, hn]⟩
      · rename_i state s' haction
        refine hlater _ _ ?_
        rw [shift_source, action?_source haction]
      · rename_i production s' haction
        split
        · rename_i s'' hreduce
          refine hlater _ _ ?_
          rw [reduce?_source hreduce, action?_source haction]
        · exact ⟨n, by rw [action?_source haction, hn]⟩

end Simulation

namespace Machine

/-- The machine after reading `n` lexemes further ahead. -/
def looked (m : Machine) (n : Nat) : Machine := { m with source := m.source.fetchMany n }

theorem looked_looked (m : Machine) (n k : Nat) : (m.looked n).looked k = m.looked (n + k) := by
  simp [looked, Source.fetchMany_fetchMany]

theorem peek_eq (m : Machine) (n : Nat) :
    m.peek n = (m.source.ahead n, m.looked (n + 1 - m.source.buffer.length)) := by
  simp only [peek, looked, Source.ahead, ← Source.peek_snd]

theorem simulate_snd (setting : Setting) (m : Machine) (trial : Trial) (stack : Overlay) :
    ∃ n, (m.simulate setting trial stack).2 = m.looked n := by
  obtain ⟨n, hn⟩ := Simulation.go_snd setting.table trial setting.options.simulationSteps
    trial.forced { stack := stack, source := m.source }
  refine ⟨n, ?_⟩
  simp only [looked, ← hn]
  rfl

theorem chooseFrom_spec (setting : Setting) (best : Kind × Action) (score : Reach)
    (rest : List (Kind × Action)) (m : Machine) :
    (chooseFrom setting best score rest m).1 ∈ best :: rest ∧
      ∃ n, (chooseFrom setting best score rest m).2 = m.looked n := by
  induction rest generalizing best score m with
  | nil => exact ⟨List.mem_singleton_self _, 0, rfl⟩
  | cons candidate rest ih =>
    simp only [chooseFrom]
    obtain ⟨n, hn⟩ := simulate_snd setting m
      { forced := some candidate.2, limit := setting.options.ambiguityLookahead }
      (Overlay.ofStack m.stack)
    split
    · obtain ⟨hmem, k, hk⟩ := ih candidate _ _
      refine ⟨List.mem_cons_of_mem _ hmem, n + k, ?_⟩
      rw [hk, hn, looked_looked]
    · obtain ⟨hmem, k, hk⟩ := ih best score _
      refine ⟨?_, n + k, ?_⟩
      · rcases List.mem_cons.1 hmem with h | h
        · rw [h]
          exact List.mem_cons_self
        · exact List.mem_cons_of_mem _ (List.mem_cons_of_mem _ h)
      · rw [hk, hn, looked_looked]

/-- The choice is one of the candidates, and making it only reads ahead. -/
theorem choose_spec (setting : Setting) (m : Machine) (first : Kind × Action)
    (rest : List (Kind × Action)) :
    (m.choose setting first rest).1 ∈ first :: rest ∧
      ∃ n, (m.choose setting first rest).2 = m.looked n := by
  obtain ⟨n, hn⟩ := simulate_snd setting m
    { forced := some first.2, limit := setting.options.ambiguityLookahead }
    (Overlay.ofStack m.stack)
  obtain ⟨hmem, k, hk⟩ := chooseFrom_spec setting first
    (m.simulate setting { forced := some first.2, limit := setting.options.ambiguityLookahead }
      (Overlay.ofStack m.stack)).1 rest
    (m.simulate setting { forced := some first.2, limit := setting.options.ambiguityLookahead }
      (Overlay.ofStack m.stack)).2
  refine ⟨hmem, n + k, ?_⟩
  rw [← looked_looked, ← hn, ← hk]
  rfl

end Machine

/-! ## Turns -/

/-- What a step decides to do. -/
inductive Turn where
  | accept
  | split
  | shift (kind : Kind) (next : Nat)
  | takeOver (taken : Machine)
  | reduce (reduced : Machine)
  | repair

namespace Machine

/-- What an action comes to. -/
def turnOf (setting : Setting) (m : Machine) (only : Bool) (kind : Kind) : Action → Turn
  | .accept => .accept
  | .shift next =>
    match if only && m.injected.isNone && !m.forkPending then m.takeOver? setting m.topState
      else none with
    | some taken => .takeOver taken
    | none => .shift kind next
  | .reduce production =>
    match m.reduce? setting production with
    | some reduced => .reduce reduced
    | none => .repair

/-- What the next step does, and the machine that does it. -/
def turn (setting : Setting) (m : Machine) : Machine × Turn :=
  let (current, m) := m.peek 0
  match candidates setting.table m.topState (m.injected.getD current.kind) with
  | [] =>
    if m.injected.isNone && current.kind == .shr && setting.table.hasAction m.topState .gt then
      (m, .split)
    else (m, .repair)
  | [(kind, action)] => (m, m.turnOf setting true kind action)
  | first :: rest =>
    let ((kind, action), m) := { m with forkPending := true }.choose setting first rest
    (m, m.turnOf setting false kind action)

/-- Carries out a turn. -/
def perform (setting : Setting) (m : Machine) : Turn → Progress
  | .accept => .finished m
  | .split => .running { m with source := m.source.splitShift }
  | .shift kind next => .running (m.shift kind next)
  | .takeOver taken => .running taken
  | .reduce reduced => .running reduced
  | .repair => m.repairOrEnd setting

theorem act_eq (setting : Setting) (m : Machine) (only : Bool) (kind : Kind) (action : Action) :
    m.act setting only kind action = m.perform setting (m.turnOf setting only kind action) := by
  cases action with
  | accept => rfl
  | shift next =>
    simp only [act, turnOf]
    cases (if only && m.injected.isNone && !m.forkPending then m.takeOver? setting m.topState
      else none) <;> rfl
  | reduce production =>
    simp only [act, turnOf]
    cases m.reduce? setting production <;> rfl

/-- A step carries out its turn. -/
theorem step_eq (setting : Setting) (m : Machine) :
    m.step setting = (m.turn setting).1.perform setting (m.turn setting).2 := by
  unfold step turn
  cases hcandidates : candidates setting.table (m.peek 0).2.topState
      ((m.peek 0).2.injected.getD (m.peek 0).1.kind) with
  | nil =>
    simp only [hcandidates]
    split <;> rfl
  | cons first rest =>
    cases rest with
    | nil =>
      simp only [hcandidates]
      exact act_eq setting _ true _ _
    | cons second rest =>
      simp only [hcandidates]
      exact act_eq setting _ false _ _

/-- The token that the table is asked about. -/
def lookahead (m : Machine) : Kind := m.injected.getD (m.source.ahead 0).kind

/-- The offset of the current token with the trivia in front of it. -/
def position (m : Machine) : Nat := (m.source.ahead 0).fullStart

/-- What is known about a machine that takes a turn. -/
inductive Takes (setting : Setting) (m : Machine) : Turn → Prop where
  | accept {kind : Kind}
      (hmem : (kind, .accept) ∈ candidates setting.table m.topState m.lookahead) :
      Takes setting m .accept
  | split (hinjected : m.injected = none) (hkind : (m.source.ahead 0).kind = .shr)
      (hbuffer : m.source.buffer ≠ [])
      (hempty : candidates setting.table m.topState m.lookahead = []) : Takes setting m .split
  | shift {kind : Kind} {next : Nat}
      (hmem : (kind, .shift next) ∈ candidates setting.table m.topState m.lookahead) :
      Takes setting m (.shift kind next)
  | takeOver {taken : Machine} (hinjected : m.injected = none)
      (htaken : m.takeOver? setting m.topState = some taken) :
      Takes setting m (.takeOver taken)
  | reduce {kind : Kind} {production : Nat} {reduced : Machine}
      (hmem : (kind, .reduce production) ∈ candidates setting.table m.topState m.lookahead)
      (hreduced : m.reduce? setting production = some reduced) :
      Takes setting m (.reduce reduced)
  | repair : Takes setting m .repair

theorem takes_turnOf {setting : Setting} {m : Machine} {only : Bool} {kind : Kind}
    {action : Action}
    (hmem : (kind, action) ∈ candidates setting.table m.topState m.lookahead) :
    m.Takes setting (m.turnOf setting only kind action) := by
  cases action with
  | accept => exact .accept hmem
  | shift next =>
    simp only [turnOf]
    split
    · rename_i taken htaken
      obtain ⟨hcond, htaken⟩ := Option.ite_none_right_eq_some.1 htaken
      simp only [Bool.and_eq_true, Option.isNone_iff_eq_none] at hcond
      exact .takeOver hcond.1.2 htaken
    · exact .shift hmem
  | reduce production =>
    simp only [turnOf]
    split
    · rename_i reduced hreduced
      exact .reduce hmem hreduced
    · exact .repair

/-- Before it takes its turn a machine only looks ahead, and may note that it had a choice. -/
theorem turn_spec (setting : Setting) (m : Machine) :
    ∃ n fork, (m.turn setting).1 = { m.looked n with forkPending := fork } ∧
      (m.turn setting).1.Takes setting (m.turn setting).2 := by
  simp only [turn, peek_eq]
  have hlookahead (n : Nat) : (m.looked n).lookahead = m.lookahead := by
    simp only [lookahead, looked, Source.ahead_fetchMany]
  split
  · rename_i hcandidates
    split
    · rename_i hcond
      simp only [Bool.and_eq_true, Option.isNone_iff_eq_none, beq_iff_eq] at hcond
      refine ⟨_, m.forkPending, rfl, .split hcond.1.1 ?_ ?_ ?_⟩
      · simp only [looked, Source.ahead_fetchMany]
        exact hcond.1.2
      · simp only [looked, ← Source.peek_snd]
        rw [Source.buffer_peek_zero]
        exact List.cons_ne_nil _ _
      · rw [hlookahead]
        exact hcandidates
    · exact ⟨_, m.forkPending, rfl, .repair⟩
  · rename_i kind action hcandidates
    refine ⟨_, m.forkPending, rfl, takes_turnOf ?_⟩
    rw [hlookahead]
    exact hcandidates ▸ List.mem_singleton_self _
  · rename_i first rest _ hcandidates
    obtain ⟨hmem, n, hn⟩ := choose_spec setting
      { m.looked (0 + 1 - m.source.buffer.length) with forkPending := true } first rest
    refine ⟨(0 + 1 - m.source.buffer.length) + n, true, ?_, ?_⟩
    · rw [hn, ← looked_looked]
      rfl
    · change Takes setting _ (turnOf setting _ false _ _)
      refine takes_turnOf ?_
      rw [hn]
      have hlook : (looked { m.looked (0 + 1 - m.source.buffer.length) with
          forkPending := true } n).lookahead = m.lookahead := by
        simp only [lookahead, looked, Source.ahead_fetchMany]
      rw [hlook]
      exact hcandidates ▸ hmem

/-- All that a step can do. -/
theorem step_cases (setting : Setting) (m : Machine) :
    ∃ n fork, Takes setting { m.looked n with forkPending := fork } (m.turn setting).2 ∧
      m.step setting =
        perform setting { m.looked n with forkPending := fork } (m.turn setting).2 := by
  obtain ⟨n, fork, hturn, htakes⟩ := turn_spec setting m
  exact ⟨n, fork, hturn ▸ htakes, by rw [step_eq, hturn]⟩

/-- The machine that a step leads to. -/
def Progress.machine : Progress → Machine
  | .running m => m
  | .finished m => m

/-- What a turn that goes on does to the machine that takes it. -/
inductive Effect (setting : Setting) (m : Machine) : Machine → Prop where
  | split (hinjected : m.injected = none) (hkind : (m.source.ahead 0).kind = .shr)
      (hbuffer : m.source.buffer ≠ []) : Effect setting m { m with source := m.source.splitShift }
  | shift {kind : Kind} {next : Nat}
      (hmem : (kind, .shift next) ∈ candidates setting.table m.topState m.lookahead) :
      Effect setting m (m.shift kind next)
  | takeOver {taken : Machine} (hinjected : m.injected = none)
      (htaken : m.takeOver? setting m.topState = some taken) : Effect setting m taken
  | reduce {kind : Kind} {production : Nat} {reduced : Machine}
      (hmem : (kind, .reduce production) ∈ candidates setting.table m.topState m.lookahead)
      (hreduced : m.reduce? setting production = some reduced) : Effect setting m reduced
  | repair {repaired : Machine} (hrecover : m.recover? setting = some repaired) :
      Effect setting m repaired

/-- A turn has its effect, or leaves the machine as it is and ends the parse. -/
theorem Takes.effect {setting : Setting} {m : Machine} {turn : Turn} (h : m.Takes setting turn) :
    m.perform setting turn = .finished m ∨
      ∃ next, m.perform setting turn = .running next ∧ Effect setting m next := by
  cases h with
  | accept => exact Or.inl rfl
  | split hinjected hkind hbuffer _ => exact Or.inr ⟨_, rfl, .split hinjected hkind hbuffer⟩
  | shift hmem => exact Or.inr ⟨_, rfl, .shift hmem⟩
  | takeOver hinjected htaken => exact Or.inr ⟨_, rfl, .takeOver hinjected htaken⟩
  | reduce hmem hreduced => exact Or.inr ⟨_, rfl, .reduce hmem hreduced⟩
  | repair =>
    simp only [perform, repairOrEnd]
    cases hrecover : m.recover? setting with
    | none => exact Or.inl rfl
    | some repaired => exact Or.inr ⟨repaired, rfl, .repair hrecover⟩

/-- A step that goes on looks ahead and then has one of the effects. -/
theorem effect_of_step {setting : Setting} {m next : Machine} (hstep : m.step setting = .running next) :
    ∃ n fork, Effect setting { m.looked n with forkPending := fork } next := by
  obtain ⟨n, fork, htakes, hcases⟩ := step_cases setting m
  rw [hcases] at hstep
  rcases htakes.effect with hend | ⟨next', hnext, heffect⟩
  · cases hend.symm.trans hstep
  · cases hnext.symm.trans hstep
    exact ⟨n, fork, heffect⟩

/-- What holds after looking ahead, and what every effect makes of it, holds after a step. -/
theorem step_keeps {setting : Setting} {m : Machine} {J I : Machine → Prop}
    (hlooked : ∀ n fork, J { m.looked n with forkPending := fork }) (hend : ∀ m, J m → I m)
    (heffect : ∀ m next, J m → Effect setting m next → I next) : I (m.step setting).machine := by
  obtain ⟨n, fork, htakes, hcases⟩ := step_cases setting m
  rw [hcases]
  rcases htakes.effect with hfinished | ⟨next, hnext, hnext'⟩
  · rw [hfinished]
    exact hend _ (hlooked n fork)
  · rw [hnext]
    exact heffect _ _ (hlooked n fork) hnext'

/-- What every step keeps is kept by a whole run. -/
theorem run_induction {setting : Setting} {I : Machine → Prop}
    (hstep : ∀ m, I m → I (m.step setting).machine) (fuel : Nat) {m : Machine} (h : I m) :
    I (m.run setting fuel) := by
  induction fuel generalizing m with
  | zero => exact h
  | succ fuel ih =>
    have hnext := hstep m h
    simp only [run]
    cases hprogress : m.step setting with
    | running next =>
      rw [hprogress] at hnext
      exact ih hnext
    | finished last =>
      rw [hprogress] at hnext
      exact hnext

/-- A candidate is an action of the table for the token, or for an identifier in its place. -/
theorem mem_candidates {table : Table} {state : Nat} {kind reading : Kind} {action : Action}
    (h : (reading, action) ∈ candidates table state kind) :
    action ∈ table.actions state reading ∧
      (reading = kind ∨ (reading = .ident ∧ kind.isContextual = true)) := by
  simp only [candidates, List.mem_append, List.mem_map, Prod.mk.injEq] at h
  rcases h with ⟨a, ha, rfl, rfl⟩ | h
  · exact ⟨ha, Or.inl rfl⟩
  · split at h
    · rename_i hcontextual
      obtain ⟨a, ha, heq⟩ := List.mem_map.1 h
      cases heq
      exact ⟨ha, Or.inr ⟨rfl, hcontextual⟩⟩
    · cases h

end Machine
end SqlTree
