import SqlTree.Proofs.BigQuery
import SqlTree.Proofs.Path

/-!
# Reductions never fail

The grammar symbols on the stack of a machine follow a path through the table, whatever was skipped,
put in or taken over on the way. So every reduction that the table asks for finds its right-hand side
and a goto.

- `Stack.Tracks`         : a stack along a path through the table
- `Stack.Tracks.popSymbols?` : as many symbols as the path has can be taken from it
- `Machine.Tracked.step` : every step keeps the stack on a path
- `BigQuery.reduce_succeeds` : no reduction fails, in the table and in the machine
-/

namespace SqlTree

open Table (topOf)

namespace Stack

/-- The grammar symbols of a stack follow a path through the table, and extra entries are in the state
of the symbol below them. -/
inductive Tracks (t : Table) : Stack → List (Symbol × Nat) → Prop where
  | bottom : Tracks t [Entry.bottom] []
  | extra {e : Entry} {below : Stack} {path : List (Symbol × Nat)} (hextra : e.extra = true)
      (hstate : e.state = topOf path) (h : Tracks t below path) : Tracks t (e :: below) path
  | symbol {e : Entry} {below : Stack} {path : List (Symbol × Nat)} {symbol : Symbol}
      (hextra : e.extra = false) (hmove : t.Moves (topOf path) symbol e.state)
      (h : Tracks t below path) : Tracks t (e :: below) ((symbol, e.state) :: path)

variable {t : Table} {stack below : Stack} {path : List (Symbol × Nat)}

theorem Tracks.isPath (h : Tracks t stack path) : t.Path path := by
  induction h with
  | bottom => exact .nil
  | extra _ _ _ ih => exact ih
  | symbol _ hmove _ ih => exact .cons ih hmove

theorem Tracks.topState_eq (h : Tracks t stack path) : topState stack = topOf path := by
  cases h with
  | bottom => rfl
  | extra _ hstate _ => exact hstate
  | symbol => rfl

theorem Tracks.states_eq (h : Tracks t stack path) : stack.states = path.map Prod.snd ++ [0] := by
  induction h with
  | bottom => rfl
  | extra hextra _ _ ih => simpa [states, hextra] using ih
  | symbol hextra _ _ ih => simpa [states, hextra] using ih

theorem Tracks.ne_nil (h : Tracks t stack path) : stack ≠ [] := by
  cases h <;> simp

/-- There is always an entry that is not extra. -/
theorem Tracks.exists_not_extra (h : Tracks t stack path) : ∃ e ∈ stack, e.extra = false := by
  induction h with
  | bottom => exact ⟨_, List.mem_cons_self, rfl⟩
  | extra _ _ _ ih =>
    obtain ⟨e, he, hextra⟩ := ih
    exact ⟨e, List.mem_cons_of_mem _ he, hextra⟩
  | symbol hextra _ _ _ => exact ⟨_, List.mem_cons_self, hextra⟩

/-- The bottom of the stack is not extra, so something stays below the entries of a production and the
extra entries on top of them. -/
theorem Tracks.below_ne_nil {extras popped : Stack} (h : Tracks t (extras ++ (popped ++ below)) path)
    (hextras : ∀ e ∈ extras, e.extra = true) (hbelow : popped ≠ [] → below ≠ []) : below ≠ [] := by
  by_cases hpopped : popped = []
  · rintro rfl
    obtain ⟨e, he, hnot⟩ := h.exists_not_extra
    rw [hextras e (by simpa [hpopped] using he)] at hnot
    cases hnot
  · exact hbelow hpopped

/-- The path of a stack begins with that of the entries at its bottom, and goes on with the states of
those above them. -/
theorem Tracks.split {popped : Stack} (h : Tracks t (popped ++ below) path) (hbelow : below ≠ []) :
    ∃ taken rest, path = taken ++ rest ∧ Tracks t below rest ∧
      taken.map Prod.snd = (popped.filter fun e => !e.extra).map Entry.state := by
  induction popped generalizing path with
  | nil => exact ⟨[], path, rfl, h, rfl⟩
  | cons e popped ih =>
    generalize hstack : e :: popped ++ below = stack at h
    cases h with
    | bottom =>
      simp only [List.cons_append, List.cons.injEq, List.append_eq_nil_iff] at hstack
      exact absurd hstack.2.2 hbelow
    | extra hextra _ h =>
      simp only [List.cons_append, List.cons.injEq] at hstack
      obtain ⟨rfl, rfl⟩ := hstack
      obtain ⟨taken, rest, rfl, hrest, hstates⟩ := ih h
      exact ⟨taken, rest, rfl, hrest, by simpa [hextra] using hstates⟩
    | @symbol _ _ _ symbol hextra _ h =>
      simp only [List.cons_append, List.cons.injEq] at hstack
      obtain ⟨rfl, rfl⟩ := hstack
      obtain ⟨taken, rest, rfl, hrest, hstates⟩ := ih h
      exact ⟨(symbol, e.state) :: taken, rest, rfl, hrest, by simpa [hextra] using hstates⟩

/-- What lies below some entries follows a path, too. -/
theorem Tracks.of_append {popped : Stack} (h : Tracks t (popped ++ below) path)
    (hbelow : below ≠ []) : ∃ path', Tracks t below path' := by
  obtain ⟨_, rest, -, hrest, -⟩ := h.split hbelow
  exact ⟨rest, hrest⟩

/-- An extra entry is in the state of the nearest grammar symbol below it. -/
theorem Tracks.head?_states_of_extra {above : Stack} {e : Entry}
    (h : Tracks t (above ++ e :: below) path) (hextra : e.extra = true) :
    below.states.head? = some e.state := by
  obtain ⟨path', h⟩ := h.of_append (List.cons_ne_nil e below)
  cases h with
  | bottom => cases hextra
  | extra _ hstate h =>
    rw [h.states_eq, hstate]
    cases path' <;> rfl
  | symbol hnot _ _ =>
    rw [hextra] at hnot
    cases hnot

theorem Tracks.dropWhile_extra (h : Tracks t stack path) :
    Tracks t (stack.dropWhile Entry.extra) path := by
  induction h with
  | bottom => exact .bottom
  | extra hextra _ _ ih => rwa [List.dropWhile_cons_of_pos hextra]
  | symbol hextra hmove h _ =>
    rw [List.dropWhile_cons_of_neg (by simp [hextra])]
    exact .symbol hextra hmove h

/-- As many grammar symbols as the path has can be taken from the stack. -/
theorem Tracks.popSymbols? {taken rest : List (Symbol × Nat)} (h : Tracks t stack (taken ++ rest))
    (popped : List Entry) : ∃ children below,
      Stack.popSymbols? taken.length stack popped = some (children, below) ∧
      Tracks t below rest := by
  generalize hpath : taken ++ rest = path at h
  induction h generalizing taken popped with
  | bottom =>
    obtain ⟨rfl, rfl⟩ := List.append_eq_nil_iff.1 hpath
    exact ⟨popped, _, rfl, .bottom⟩
  | @extra e below path hextra hstate h ih =>
    cases taken with
    | nil =>
      subst hpath
      exact ⟨popped, _, rfl, .extra hextra hstate h⟩
    | cons first taken =>
      -- An extra entry between the symbols is taken along and counts for nothing.
      obtain ⟨entry, lower, rfl⟩ := List.exists_cons_of_ne_nil h.ne_nil
      simp only [List.length_cons, Stack.popSymbols?, hextra, if_true]
      exact ih (e :: popped) hpath
  | @symbol e below path symbol hextra hmove h ih =>
    cases taken with
    | nil =>
      subst hpath
      exact ⟨popped, _, rfl, .symbol hextra hmove h⟩
    | cons first taken =>
      obtain ⟨entry, lower, rfl⟩ := List.exists_cons_of_ne_nil h.ne_nil
      simp only [List.length_cons, Stack.popSymbols?, hextra, Bool.false_eq_true, if_false]
      exact ih (e :: popped) (List.cons.inj hpath).2

/-- Extra entries may be put on top in the state that is there. -/
theorem Tracks.extras {extras : Stack} {next : Nat} (h : Tracks t stack path)
    (hnext : topOf path = next) (hextras : ∀ e ∈ extras, e.extra = true) :
    Tracks t ((extras.map fun e => { e with state := next }) ++ stack) path := by
  induction extras with
  | nil => exact h
  | cons e extras ih =>
    exact .extra (hextras e List.mem_cons_self) hnext.symm
      (ih fun x hx => hextras x (List.mem_cons_of_mem _ hx))

end Stack

/-! ## The machine -/

namespace Machine

variable {g : Grammar} {text : List Char} {m m' : Machine} {setting : Setting} {t : Table}

/-- The stack follows a path through the table. -/
def Tracked (t : Table) (m : Machine) : Prop := ∃ path, Stack.Tracks t m.stack path

theorem Tracked.start (t : Table) (text : List Char) (firstId : Nat) :
    (Machine.start text firstId).Tracked t := ⟨[], .bottom⟩

theorem Tracked.congr (h : m.Tracked t) (hstack : m'.stack = m.stack) : m'.Tracked t := by
  obtain ⟨path, htracks⟩ := h
  exact ⟨path, hstack ▸ htracks⟩

/-- A new grammar symbol prolongs the path. -/
theorem Tracked.push {entry : Entry} {symbol : Symbol} (h : m.Tracked t)
    (hstack : m'.stack = entry :: m.stack) (hextra : entry.extra = false)
    (hmove : t.Moves m.topState symbol entry.state) : m'.Tracked t := by
  obtain ⟨path, htracks⟩ := h
  refine ⟨(symbol, entry.state) :: path, ?_⟩
  rw [hstack]
  exact .symbol hextra (htracks.topState_eq ▸ hmove) htracks

theorem Tracked.shift {kind : Kind} {next : Nat} (h : m.Tracked setting.table)
    (hmem : (kind, .shift next) ∈ candidates setting.table m.topState m.lookahead) :
    (m.shift kind next).Tracked setting.table := by
  have hmove := Table.Moves.shift (mem_candidates hmem).1
  unfold Machine.shift
  split
  · rw [shiftMissing_eq]
    exact h.push rfl rfl hmove
  · rw [shiftToken_eq]
    exact h.push rfl rfl hmove

theorem Tracked.takeOver (h : m.Tracked setting.table)
    (htaken : m.takeOver? setting m.topState = some m') : m'.Tracked setting.table := by
  obtain ⟨reuse, old, next, -, -, hgoto, rfl⟩ := takeOver?_spec htaken
  obtain ⟨i, -, hgoto⟩ := Option.bind_eq_some_iff.1 hgoto
  exact h.push rfl rfl (.goto hgoto)

theorem Tracked.reduce {production : Nat} (h : m.Tracked setting.table)
    (hreduced : m.reduce? setting production = some m') : m'.Tracked setting.table := by
  obtain ⟨p, extras, children, below, next, entry, nextId, -, hstack, hextras, -, -, hbelow, hgoto,
    hmakes, rfl⟩ := reduce?_spec hreduced
  obtain ⟨path, htracks⟩ := h
  rw [hstack] at htracks
  have hne := htracks.below_ne_nil hextras (by simpa using hbelow)
  rw [← List.append_assoc] at htracks
  obtain ⟨path', hbelow⟩ := htracks.of_append hne
  have hentry : entry.extra = false ∧ entry.state = next := by
    obtain ⟨hextra, hstate⟩ := hmakes.frame
    exact ⟨hextra.trans (Entry.ofChildren_extra _ _ _), hstate.trans (Entry.ofChildren_state _ _ _)⟩
  rw [hbelow.topState_eq, ← hentry.2] at hgoto
  have hnew : Stack.Tracks setting.table (entry :: below)
      ((.nonterminal p.lhs, entry.state) :: path') := .symbol hentry.1 (.goto hgoto) hbelow
  exact ⟨_, hnew.extras hentry.2 hextras⟩

theorem Tracked.skip (h : m.Tracked t) (hfaithful : m.Faithful text) (skipped depth : Nat) :
    (m.skip skipped depth).Tracked t := by
  obtain ⟨d, _, hskips⟩ := skip_skips hfaithful.source_at hfaithful.formed skipped depth
  obtain ⟨path, htracks⟩ := h
  have hne : m.stack.drop d ≠ [] := by
    have hpos := List.length_pos_iff.2 htracks.ne_nil
    have hd := hskips.depth_le
    rw [← List.length_pos_iff, List.length_drop]
    omega
  rw [← List.take_append_drop d m.stack] at htracks
  obtain ⟨path', hbelow⟩ := htracks.of_append hne
  have hstack := hskips.stack
  generalize m.skip skipped depth = m' at hstack
  obtain ⟨_, stack', _, _, _, _, _, _⟩ := m'
  simp only at hstack
  -- What was cut off ends the path earlier, and the error stands in the state of its new end.
  cases hstack with
  | nothing => exact ⟨path', hbelow⟩
  | error _ hextra _ hstate _ _ _ =>
    exact ⟨path', .extra hextra (hstate.trans hbelow.topState_eq) hbelow⟩

theorem Tracked.recover (h : m.Tracked t) (hfaithful : m.Faithful text)
    (hrecover : m.recover? setting = some m') : m'.Tracked t := by
  have hrepaired := recover?_repaired setting m
  rw [hrecover] at hrepaired
  cases hrepaired with
  | inserted => exact h.congr rfl
  | @skipped n skipped depth repairs diagnostic =>
    have hbase : Tracked t { m.looked n with injected := none, repairs := repairs } := h.congr rfl
    have hfaithful : Faithful text { m.looked n with injected := none, repairs := repairs } :=
      (hfaithful.looked n).congr rfl rfl
    exact (hbase.skip hfaithful skipped depth).congr rfl

/-- Every step keeps the stack on a path. -/
theorem Tracked.step (h : m.Tracked setting.table) (hfaithful : m.Faithful text) :
    (m.step setting).machine.Tracked setting.table := by
  refine step_keeps (J := fun m => m.Faithful text ∧ m.Tracked setting.table)
    (fun n _ => ⟨(hfaithful.looked n).congr rfl rfl, h.congr rfl⟩) (fun _ h => h.2) ?_
  rintro m next ⟨hfaithful, h⟩ heffect
  cases heffect with
  | split => exact h.congr rfl
  | shift hmem => exact h.shift hmem
  | takeOver _ htaken => exact h.takeOver htaken
  | reduce _ hreduced => exact h.reduce hreduced
  | repair hrecover => exact h.recover hfaithful hrecover

theorem Run.tracked {turns : List Turn} (hrun : Run setting m turns m')
    (h : m.Tracked setting.table) (hfaithful : m.Faithful text)
    (htruthful : setting.Truthful text) : m'.Tracked setting.table := by
  induction hrun with
  | done m => exact h
  | step hstep _ ih =>
    have hnext := h.step hfaithful
    have hfaithful' := hfaithful.step htruthful
    rw [hstep] at hnext hfaithful'
    exact ih hnext hfaithful'

/-! ## Reductions of the machine -/

/-- A reduction that the table asks for can be made. -/
theorem Tracked.isSome_reduce? (hg : g.WellFormed) (htable : setting.table = Table.ofGrammar g)
    (h : m.Tracked setting.table) {kind : Kind} {p : Nat}
    (hreduce : .reduce p ∈ setting.table.actions m.topState kind) :
    (m.reduce? setting p).isSome = true := by
  obtain ⟨path, htracks⟩ := h
  have htop : m.topState = topOf path := htracks.topState_eq
  rw [htop, htable] at hreduce
  obtain ⟨-, production, taken, rest, next, hp, rfl, hsymbols, hgoto⟩ :=
    (htable ▸ htracks.isPath).reduce hg hreduce
  obtain ⟨children, below, hpop, hbelow⟩ := htracks.dropWhile_extra.popSymbols? []
  have hlength : taken.length = production.rhs.length := by
    rw [← hsymbols, List.length_reverse, List.length_map]
  have hgrammar : setting.table.grammar = g := by
    rw [htable]
    rfl
  rw [hlength] at hpop
  rw [← hbelow.topState_eq, ← htable] at hgoto
  simp [reduce?, hgrammar, hp, hpop, hgoto]

theorem exists_of_turnOf_eq_repair {only : Bool} {kind : Kind} {action : Action}
    (h : m.turnOf setting only kind action = .repair) :
    ∃ p, action = .reduce p ∧ m.reduce? setting p = none := by
  cases action with
  | accept => cases h
  | shift next =>
    simp only [turnOf] at h
    split at h <;> cases h
  | reduce p =>
    refine ⟨p, rfl, ?_⟩
    simp only [turnOf] at h
    split at h
    · cases h
    · assumption

/-- If no reduction fails, a repair is begun only where the table has no action. -/
theorem candidates_eq_nil_of_repair
    (hreduces : ∀ n fork kind p, .reduce p ∈ setting.table.actions m.topState kind →
      (reduce? setting { m.looked n with forkPending := fork } p).isSome = true)
    (hrepair : (m.turn setting).2 = .repair) :
    candidates setting.table m.topState m.lookahead = [] := by
  simp only [turn, peek_eq] at hrepair
  split at hrepair
  · rename_i hnone
    exact hnone
  · -- The only action cannot be a reduction that fails.
    rename_i kind action hone
    obtain ⟨p, rfl, hfails⟩ := exists_of_turnOf_eq_repair hrepair
    have hmem : (kind, .reduce p) ∈ candidates setting.table m.topState m.lookahead := by
      have hlist : candidates setting.table m.topState m.lookahead = [(kind, .reduce p)] := hone
      simp [hlist]
    have hsome := hreduces (0 + 1 - m.source.buffer.length) m.forkPending kind p
      (mem_candidates hmem).1
    rw [Option.isSome_iff_ne_none] at hsome
    exact absurd hfails hsome
  · -- The search looks ahead, but leaves the stack alone and picks one of the actions.
    rename_i first rest _ hsome
    dsimp only at hrepair
    obtain ⟨hmem, n, hn⟩ := choose_spec setting
      { m.looked (0 + 1 - m.source.buffer.length) with forkPending := true } first rest
    generalize choose setting { m.looked (0 + 1 - m.source.buffer.length) with
      forkPending := true } first rest = result at hrepair hmem hn
    obtain ⟨⟨kind, action⟩, m'⟩ := result
    obtain ⟨p, rfl, hfails⟩ := exists_of_turnOf_eq_repair hrepair
    have hlist : candidates setting.table m.topState m.lookahead = first :: rest := hsome
    rw [← hlist] at hmem
    dsimp only at hn
    rw [hn] at hfails
    have hsucceeds := hreduces (0 + 1 - m.source.buffer.length + n) true kind p
      (mem_candidates hmem).1
    rw [Option.isSome_iff_ne_none, ← looked_looked] at hsucceeds
    exact absurd hfails hsucceeds

end Machine

/-! ## Grammars and queries -/

namespace BigQuery

open Machine (Run candidates)
open Tree (Occurs)

/-- Reductions never fail. In the table of every grammar, a path at whose end it reduces ends with the
right-hand side of a production other than that of the start symbol, and it leads on from below with
the left-hand side. So the stack of every machine that parses a query, from scratch or again after an
edit, is such a path, its extra entries are in the state of the symbol below them, every reduction
that the table asks for is made, and a repair is begun only where the table has no action. -/
theorem reduce_succeeds :
    (∀ definitions root g, Grammar.ofRules definitions root = .ok g →
      ∀ path, (Table.ofGrammar g).Path path →
        ∀ kind p, .reduce p ∈ (Table.ofGrammar g).actions (topOf path) kind →
          p ≠ Grammar.acceptProduction ∧ ∃ production taken rest next,
            g.productions[p]? = some production ∧ path = taken ++ rest ∧
            (taken.map Prod.fst).reverse = production.rhs ∧
            (Table.ofGrammar g).goto? (topOf rest) production.lhs = some next) ∧
    ∀ setting text firstId turns m, Occurs BigQuery.table setting text →
      Run setting (Machine.start text firstId) turns m →
        (∃ path, BigQuery.table.Path path ∧ m.stack.states = path.map Prod.snd ++ [0]) ∧
        (∀ above e below, m.stack = above ++ e :: below → e.extra = true →
          (Stack.states below).head? = some e.state) ∧
        (∀ kind p, .reduce p ∈ BigQuery.table.actions m.topState kind →
          (m.reduce? setting p).isSome = true) ∧
        ((m.turn setting).2 = .repair →
          candidates BigQuery.table m.topState m.lookahead = []) := by
  refine ⟨fun definitions root g h path hpath kind p hreduce =>
    hpath.reduce (Grammar.wellFormed_ofRules h) hreduce, ?_⟩
  intro setting text firstId turns m hoccurs hrun
  obtain ⟨g, hgrammar, htable, -, -⟩ := table_spec
  have hg := Grammar.wellFormed_ofRules hgrammar
  have hsetting := hoccurs.table_eq
  have htracked := hrun.tracked (.start _ text firstId) (.start text firstId) hoccurs.truthful
  rw [hsetting] at htracked
  have hreduces {m' : Machine} (hstack : m'.stack = m.stack) (kind : Kind) (p : Nat)
      (hreduce : .reduce p ∈ BigQuery.table.actions m.topState kind) :
      (m'.reduce? setting p).isSome = true := by
    have htop : m'.topState = m.topState := by simp only [Machine.topState, hstack]
    have htracked' := htracked.congr hstack
    rw [← hsetting] at hreduce htracked'
    exact htracked'.isSome_reduce? hg (hsetting.trans htable) (htop ▸ hreduce)
  obtain ⟨path, htracks⟩ := htracked
  refine ⟨⟨path, htracks.isPath, htracks.states_eq⟩, fun above e below hstack hextra => ?_,
    hreduces rfl, fun hrepair => ?_⟩
  · rw [hstack] at htracks
    exact htracks.head?_states_of_extra hextra
  · rw [← hsetting]
    exact Machine.candidates_eq_nil_of_repair
      (fun n fork kind p hreduce =>
        have hstack : ({ m.looked n with forkPending := fork } : Machine).stack = m.stack := rfl
        hreduces hstack kind p (hsetting ▸ hreduce)) hrepair

/-- A query with an unclosed bracket and a missing table, at the end of which everything is reduced. -/
theorem reduce_succeeds_on_faults :
    ∃ turns m last,
      Run ⟨BigQuery.table, {}, none⟩ (Machine.start "SELECT (a >> 1 FROM".toList 0) turns m ∧
      m.step ⟨BigQuery.table, {}, none⟩ = .finished last ∧
      ∀ kind p, .reduce p ∈ BigQuery.table.actions m.topState kind →
        (m.reduce? ⟨BigQuery.table, {}, none⟩ p).isSome = true := by
  obtain ⟨g, -, htable, hsafe, -⟩ := table_spec
  have hoccurs : Occurs BigQuery.table ⟨BigQuery.table, {}, none⟩ "SELECT (a >> 1 FROM".toList :=
    .scratch {} _
  obtain ⟨turns, m, last, hrun, hstep, -, -⟩ :=
    Machine.exists_run (suits htable hsafe hoccurs) 0
  exact ⟨turns, m, last, hrun, hstep, (reduce_succeeds.2 _ _ 0 turns m hoccurs hrun).2.2.1⟩

end BigQuery
end SqlTree
