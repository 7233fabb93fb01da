import SqlTree.Proofs.Incremental.Replay
import SqlTree.Proofs.Termination

/-!
# Building an entry again

Steps without a choice are said to lead from one stack to another. A machine takes such steps on
whatever stack it has, since they never look below the state they began in. So an entry that can be
built again is built again by every machine that comes to the same lexemes in the same state, and
nothing else changes.

- `Machine.Grown`  : a machine that has put some entries on its stack and read on
- `Machine.Grown.step` : it takes every step without a choice
- `Entry.Replays.exists_run` : it builds an entry again
-/

namespace SqlTree

open Machine (candidates)
open Replay (Plain Plains)
open Lexemes (Agrees after)

namespace Stack

/-- A reduction above an entry does not depend on what is below that. -/
theorem exists_of_reduced? {table : Table} {entries stack : Stack} {base : Entry} {production : Nat}
    (hentries : ∀ e ∈ entries, e.extra = false) (hbase : base.extra = false)
    (h : reduced? table false production (entries ++ [base]) = some stack) :
    ∃ popped rest rule next, entries = popped ++ rest ∧
      table.grammar.productions[production]? = some rule ∧ rule.rhs.length = popped.length ∧
      table.goto? (topState (rest ++ [base])) rule.lhs = some next ∧
      stack = Entry.wrapped table.grammar rule.lhs (Entry.ofChildren next popped.reverse 0) ::
        (rest ++ [base]) := by
  have hall : ∀ e ∈ entries ++ [base], e.extra = false := by
    intro e he
    rcases List.mem_append.1 he with he | he
    · exact hentries e he
    · rwa [List.mem_singleton.1 he]
  have hdrop : (entries ++ [base]).dropWhile Entry.extra = entries ++ [base] :=
    List.dropWhile_eq_self_iff.2 fun hlt => by simp [hall _ (List.getElem_mem hlt)]
  have htake : (entries ++ [base]).takeWhile Entry.extra = [] :=
    List.takeWhile_eq_nil_iff.2 fun hlt => by simp [hall _ (List.getElem_mem hlt)]
  unfold reduced? at h
  rw [hdrop, htake] at h
  obtain ⟨rule, hrule, h⟩ := Option.bind_eq_some_iff.1 h
  obtain ⟨⟨children, below⟩, hpop, h⟩ := Option.bind_eq_some_iff.1 h
  obtain ⟨next, hgoto, hstack⟩ := Option.map_eq_some_iff.1 h
  obtain ⟨popped, hchildren, hcut, hcount, -, hbelow⟩ := popSymbols?_spec hpop
  rw [List.append_nil] at hchildren
  subst hchildren
  have hne : below ≠ [] := by
    intro hnil
    have hnone : children = [] := by
      by_contra hsome
      exact hbelow hsome hnil
    rw [hnil, hnone] at hcut
    simp at hcut
  obtain ⟨rest, last, rfl⟩ := List.eq_nil_or_concat below |>.resolve_left hne
  rw [List.concat_eq_append] at hcut hgoto hstack
  rw [← List.append_assoc] at hcut
  obtain ⟨hentries', hlast⟩ := List.append_inj' hcut rfl
  obtain rfl := List.singleton_inj.1 hlast
  have hpopped : ∀ e ∈ children, e.extra = false := by
    intro e he
    exact hentries e (hentries' ▸ List.mem_append_left _ (List.mem_reverse.2 he))
  have hlength : rule.rhs.length = children.reverse.length := by
    rw [← hcount, List.length_reverse, List.filter_eq_self.2 fun e he => by simp [hpopped e he]]
  refine ⟨children.reverse, rest, rule, next, hentries', hrule, hlength, hgoto, ?_⟩
  rw [← hstack, List.reverse_reverse, Entry.forked_false, List.map_nil, List.nil_append]

end Stack

namespace Machine

variable {setting : Setting} {table : Table} {first m : Machine} {entries stack : Stack}
  {f g : Lexemes} {base : Entry}

/-- A machine that has put entries of the given shapes on the stack of another and has read as far as
`f`. -/
structure Grown (first : Machine) (entries : Stack) (f : Lexemes) (m : Machine) : Prop where
  stack : ∃ grown, m.stack = grown ++ first.stack ∧ Stack.shape grown = entries
  ahead : m.source.ahead = f
  size : m.source.size = first.source.size
  injected : m.injected = none
  forkPending : m.forkPending = false
  repairs : m.repairs = first.repairs
  diagnostics : m.diagnostics = first.diagnostics

theorem Grown.refl (hinjected : m.injected = none) (hfork : m.forkPending = false) :
    m.Grown [] m.source.ahead m where
  stack := ⟨[], rfl, rfl⟩
  ahead := rfl
  size := rfl
  injected := hinjected
  forkPending := hfork
  repairs := rfl
  diagnostics := rfl

/-- Above a state, the state on top is the same whatever is below. -/
theorem topState_append {grown below : Stack} (hbase : base.state = Stack.topState below) :
    Stack.topState (grown ++ below) = Stack.topState (Stack.shape grown ++ [base]) := by
  cases grown with
  | nil => exact hbase.symm
  | cons e grown => rfl

theorem Grown.topState_eq (h : first.Grown entries f m) (hbase : base.state = first.topState) : m.topState = Stack.topState (entries ++ [base]) := by
  obtain ⟨grown, hstack, rfl⟩ := h.stack
  rw [Machine.topState, hstack]
  exact topState_append hbase

theorem Grown.looked (h : first.Grown entries f m) (n : Nat) : first.Grown entries f (m.looked n) where
  stack := h.stack
  ahead := (looked_ahead m n).trans h.ahead
  size := (Source.fetchMany_size n m.source).trans h.size
  injected := h.injected
  forkPending := h.forkPending
  repairs := h.repairs
  diagnostics := h.diagnostics

theorem Grown.lookahead_eq (h : first.Grown entries f m) : m.lookahead = (f 0).kind := by
  rw [lookahead, h.injected, h.ahead]
  rfl

theorem Grown.split (h : first.Grown entries f m) (hbuffer : m.source.buffer ≠ [])
    (hkind : (f 0).kind = .shr) :
    first.Grown entries f.halves { m with source := m.source.splitShift } where
  stack := h.stack
  ahead := by
    have hahead := Source.ahead_splitShift_of_shr hbuffer (by rw [h.ahead, hkind])
    rw [h.ahead] at hahead
    exact hahead
  size := (Source.size_splitShift m.source).trans h.size
  injected := h.injected
  forkPending := h.forkPending
  repairs := h.repairs
  diagnostics := h.diagnostics

theorem Grown.shiftToken (h : first.Grown entries f m) (kind : Kind) (state : Nat) :
    first.Grown (Entry.ofLexeme (f 0) kind state false :: entries) f.take
      (m.shiftToken kind state) where
  stack := by
    obtain ⟨grown, hstack, hshape⟩ := h.stack
    refine ⟨m.tokenEntry kind state :: grown, by rw [shiftToken_eq, hstack]; rfl, ?_⟩
    have hentry := shape_tokenEntry m kind state
    rw [h.ahead, h.forkPending] at hentry
    rw [Stack.shape, List.map_cons, hentry]
    exact congrArg _ hshape
  ahead := by
    have hahead := Source.ahead_bump_eq m.source
    rw [h.ahead] at hahead
    exact hahead
  size := (Source.size_bump m.source).trans h.size
  injected := h.injected
  forkPending := rfl
  repairs := h.repairs
  diagnostics := h.diagnostics

/-- A reduction of the entries on top takes them from the stack and leaves what is below. -/
theorem reduce?_append {popped below : Stack} {production next : Nat} {rule : Production}
    (hstack : m.stack = popped ++ below) (hpopped : ∀ e ∈ popped, e.extra = false)
    (htop : ∀ e ∈ m.stack.head?, e.extra = false) (hbelow : below ≠ [])
    (hrule : setting.table.grammar.productions[production]? = some rule)
    (hlength : rule.rhs.length = popped.length)
    (hgoto : setting.table.goto? (Stack.topState below) rule.lhs = some next) :
    ∃ entry k nextId, m.reduce? setting production = some { m.looked k with
        stack := entry :: below
        nextId := nextId } ∧
      entry.shape = Entry.wrapped setting.table.grammar rule.lhs
        ((Entry.ofChildren next (Stack.shape popped).reverse 0).forked m.forkPending) := by
  have hdrop : m.stack.dropWhile Entry.extra = popped ++ below := by
    rw [← hstack]
    cases hcons : m.stack with
    | nil => rfl
    | cons e rest =>
      rw [List.dropWhile_cons_of_neg]
      simp [htop e (by simp [hcons])]
  have htake : m.stack.takeWhile Entry.extra = [] := by
    cases hcons : m.stack with
    | nil => rfl
    | cons e rest =>
      rw [List.takeWhile_cons_of_neg]
      simp [htop e (by simp [hcons])]
  have hpop := Entry.popSymbols?_append [] hpopped hbelow
  rw [List.append_nil] at hpop
  unfold reduce?
  rw [hrule, hdrop, htake]
  obtain ⟨entry, nextId, -, hwrap⟩ := wrap_spec setting.table.grammar m (Stack.topState below)
    rule.lhs ((Entry.ofChildren next popped.reverse (m.source.ahead 0).fullStart).forked
      m.forkPending)
  have hshape := shape_wrap setting.table.grammar (m.peek 0).2 (Stack.topState below) rule.lhs
    ((Entry.ofChildren next popped.reverse (m.source.ahead 0).fullStart).forked m.forkPending)
  rw [hwrap, Entry.shape_forked, Entry.shape_ofChildren, List.map_reverse] at hshape
  refine ⟨entry, 0 + 1 - m.source.buffer.length, nextId, ?_, hshape⟩
  have hmade : (m.looked (0 + 1 - m.source.buffer.length)).wrap setting.table.grammar
      (Stack.topState below) rule.lhs
        ((Entry.ofChildren next popped.reverse (m.source.ahead 0).fullStart).forked m.forkPending) =
      (entry, { m.looked (0 + 1 - m.source.buffer.length) with nextId := nextId }) := by
    rw [peek_eq, Source.peek_snd] at hwrap
    exact hwrap
  simp only [Option.bind_some, hlength, hpop, hgoto, Option.map_some, List.map_nil,
    List.nil_append, peek_eq]
  exact congrArg (fun made => some ({ made.2 with stack := made.1 :: below } : Machine)) hmade

/-- A reduction above the stack of the first machine. -/
theorem Grown.reduce (h : first.Grown entries f m) (hfirst : first.stack ≠ [])
    (hne : entries ≠ []) (hentries : ∀ e ∈ entries, e.extra = false) (hextra : base.extra = false)
    (hbase : base.state = first.topState) {production : Nat}
    (hreduced : Stack.reduced? setting.table false production (entries ++ [base]) = some stack) :
    ∃ entries' m', stack = entries' ++ [base] ∧ entries' ≠ [] ∧
      (∀ e ∈ entries', e.extra = false) ∧ m.reduce? setting production = some m' ∧
      first.Grown entries' f m' := by
  obtain ⟨popped, rest, rule, next, rfl, hrule, hlength, hgoto, rfl⟩ :=
    Stack.exists_of_reduced? hentries hextra hreduced
  obtain ⟨grown, hstack, hshape⟩ := h.stack
  obtain ⟨taken, left, rfl, htaken, hleft⟩ := List.map_eq_append_iff.1 hshape
  subst htaken hleft
  have hflat (e : Entry) (he : e ∈ taken ++ left) : e.extra = false := by
    have hmem := List.mem_map_of_mem (f := Entry.shape) he
    rw [List.map_append] at hmem
    exact hentries e.shape hmem
  have htop : ∀ e ∈ m.stack.head?, e.extra = false := by
    intro e he
    rw [hstack, List.head?_append_of_ne_nil _ (by simpa using hne)] at he
    exact hflat e (List.mem_of_mem_head? he)
  rw [List.append_assoc] at hstack
  obtain ⟨entry, k, nextId, hreduce, hentry⟩ := reduce?_append hstack
    (fun e he => hflat e (List.mem_append_left _ he)) htop
    (List.append_ne_nil_of_right_ne_nil _ hfirst) hrule (by rw [hlength, List.length_map])
    ((topState_append hbase).symm ▸ hgoto)
  refine ⟨_ :: left.map Entry.shape, _, rfl, List.cons_ne_nil _ _, ?_, hreduce, ?_⟩
  · intro e he
    rcases List.mem_cons.1 he with rfl | he
    · rw [Entry.wrapped_extra, Entry.ofChildren_extra]
    · exact hentries e (List.mem_append_right _ he)
  · rw [h.forkPending, Entry.forked_false] at hentry
    have hlooked := h.looked k
    refine ⟨⟨entry :: left, rfl, ?_⟩, hlooked.ahead, hlooked.size, h.injected, h.forkPending,
      h.repairs, h.diagnostics⟩
    rw [Stack.shape, List.map_cons, hentry]
    rfl

/-- Every step without a choice is taken, if it does not reduce on the stack of the first machine. -/
theorem Grown.step (h : first.Grown entries f m) (htable : setting.table = table)
    (hreuse : setting.reuse = none) (hfirst : first.stack ≠ [])
    (hentries : ∀ e ∈ entries, e.extra = false) (hextra : base.extra = false)
    (hbase : base.state = first.topState)
    (hne : entries ≠ [] ∨ ∃ kind state, m.verdict setting = .act true kind (.shift state))
    (hplain : Plain table (entries ++ [base]) f stack g) :
    ∃ entries' m', stack = entries' ++ [base] ∧ entries' ≠ [] ∧
      (∀ e ∈ entries', e.extra = false) ∧ m.step setting = .running m' ∧
      first.Grown entries' g m' := by
  subst htable
  obtain ⟨n, hbuffer, hstep⟩ := step_verdict setting m
  have hlooked := h.looked n
  have htop := h.topState_eq hbase
  have hlookahead := h.lookahead_eq
  cases hplain with
  | split hnil hkind hgt =>
    rw [← htop] at hnil hgt
    rw [← hlookahead] at hnil
    have hverdict := verdict_of_split hnil h.injected (by rw [h.ahead, hkind]) hgt
    rw [hverdict] at hne hstep
    have hne : entries ≠ [] := hne.resolve_right (by rintro ⟨_, _, ⟨⟩⟩)
    exact ⟨entries, _, rfl, hne, hentries, hstep, hlooked.split hbuffer hkind⟩
  | @shift _ kind state hsole =>
    rw [← htop, ← hlookahead] at hsole
    rw [verdict_of_candidates hsole] at hstep
    have hshift : m.enforce setting n (.act true kind (.shift state)) =
        .running ((m.looked n).shiftToken kind state) := by
      have hnone : (m.looked n).injected = none := h.injected
      simp only [enforce, ready_true, act, takeOver?, hreuse, Option.bind_none, ite_self,
        Machine.shift, hnone, Option.isSome_none, Bool.false_eq_true, if_false]
    refine ⟨_ :: entries, _, rfl, List.cons_ne_nil _ _, ?_, hstep.trans hshift,
      hlooked.shiftToken kind state⟩
    exact List.forall_mem_cons.2 ⟨rfl, hentries⟩
  | @reduce _ _ kind production hsole hreduced =>
    rw [← htop, ← hlookahead] at hsole
    have hverdict := verdict_of_candidates hsole
    rw [hverdict] at hne hstep
    have hne : entries ≠ [] := hne.resolve_right (by rintro ⟨_, _, ⟨⟩⟩)
    obtain ⟨entries', m', hstack, hne', hentries', hsome, hgrown⟩ :=
      hlooked.reduce hfirst hne hentries hextra hbase hreduced
    refine ⟨entries', m', hstack, hne', hentries', ?_, hgrown⟩
    rw [hstep]
    simp only [enforce, ready_true, act, hsome]

/-- So are any number of them. -/
theorem Grown.exists_run (h : first.Grown entries f m) (htable : setting.table = table)
    (hreuse : setting.reuse = none) (hfirst : first.stack ≠ []) (hne : entries ≠ [])
    (hentries : ∀ e ∈ entries, e.extra = false) (hextra : base.extra = false)
    (hbase : base.state = first.topState) (hplains : Plains table (entries ++ [base]) f stack g) :
    ∃ entries' turns m', stack = entries' ++ [base] ∧ Run setting m turns m' ∧
      first.Grown entries' g m' := by
  generalize hstart : entries ++ [base] = start at hplains
  induction hplains generalizing entries m with
  | done => exact ⟨entries, [], m, hstart.symm, .done m, h⟩
  | step hplain _ ih =>
    subst hstart
    obtain ⟨entries', m', rfl, hne', hentries', hstep, hgrown⟩ :=
      h.step htable hreuse hfirst hentries hextra hbase (Or.inl hne) hplain
    obtain ⟨entries'', turns, m'', hstack, hrun, hgrown'⟩ := ih hgrown hne' hentries' rfl
    exact ⟨entries'', _, m'', hstack, .step hstep hrun, hgrown'⟩

end Machine

open Machine (Grown Run)

/-- A machine that comes in the right state to lexemes that agree with those of an entry builds the
entry again, with the trivia that it finds in front, if it begins by taking a lexeme. -/
theorem Entry.Replays.exists_run {setting : Setting} {W p q state : Nat} {f : Lexemes} {e : Entry}
    {moves : List Lexemes.Move} {m : Machine} (h : Replays setting.table W state f e moves)
    (hreuse : setting.reuse = none) (hstack : m.stack ≠ []) (htop : m.topState = state)
    (hinjected : m.injected = none) (hfork : m.forkPending = false)
    (hverdict : ∃ kind next, m.verdict setting = .act true kind (.shift next))
    (hagrees : Agrees W p f q m.source.ahead) :
    ∃ turns m', Run setting m turns m' ∧
      m.Grown [e.headed (m.source.ahead 0).leading] (after moves m.source.ahead) m' := by
  -- Any entry in the right state will do below.
  have htidy : Stack.Tidy [({ state := state, start := 0, stop := 0 } : Entry)] :=
    ⟨List.cons_ne_nil _ _, List.forall_mem_singleton.2 rfl⟩
  have hplains := h.run _ m.source.ahead p q htidy rfl hagrees
  have hgrown := Grown.refl hinjected hfork
  generalize hfinal : e.headed (m.source.ahead 0).leading :: [_] = final at hplains
  generalize after moves m.source.ahead = g at hplains ⊢
  cases hplains with
  | done => simp at hfinal
  | step hplain hrest =>
    subst hfinal
    obtain ⟨entries, m', rfl, hne, hentries, hstep, hgrown⟩ := hgrown.step rfl hreuse hstack
      (List.forall_mem_nil _) rfl htop.symm (Or.inr hverdict) hplain
    obtain ⟨entries', turns, m'', hcons, hrun, hgrown⟩ := hgrown.exists_run rfl hreuse hstack hne
      hentries rfl htop.symm hrest
    rw [← List.singleton_append] at hcons
    obtain ⟨rfl, -⟩ := List.append_inj' hcons rfl
    exact ⟨_, m'', .step hstep hrun, hgrown⟩

end SqlTree
