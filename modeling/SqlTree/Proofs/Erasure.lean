import SqlTree.Proofs.Cell
import SqlTree.Proofs.Faults
import SqlTree.Proofs.Reductions

/-!
# Empty productions

A production that derives nothing is reduced by only where its nonterminal is needed, so what comes
next is what the rules ask for behind it. Hence a machine never gets stuck on top of an entry that
holds nothing: it can go on with the token for which the entry was made. It follows that skipping
always leaves an error.

- `Grammar.Tame.rhs_eq_nil` : only empty productions stand for nothing
- `Table.actions_of_empty`  : after an empty production the table has an action
- `Table.actions_start`     : and so it has before the first token of an empty text
- `Machine.Ready`           : a machine that is not stuck on an empty entry
- `Machine.Ready.step`      : a step keeps it so
- `Machine.Ready.gathered_ne_nil` : skipping finds something to leave as an error
-/

namespace SqlTree

open Item (Begins Leads)
open Element (readings)

/-! ## Symbols that stand for nothing -/

namespace Grammar

variable {g : Grammar} {rank : Nat → Nat} {symbols : List Symbol} {p : Nat}
  {production : Production}

theorem exists_of_isErasable {i : Nat} (h : g.isErasable i = true) :
    ∃ (p : Nat) (production : Production), g.productions[p]? = some production ∧
      production.lhs = i ∧ production.rhs = [] := by
  obtain ⟨production, hmem, hlhs⟩ := List.mem_map.1 (List.contains_iff_mem.1 h)
  obtain ⟨hmem, hrhs⟩ := List.mem_filter.1 hmem
  obtain ⟨p, hp⟩ := List.mem_iff_getElem?.1 hmem
  exact ⟨p, production, by simpa using hp, hlhs, List.isEmpty_iff.1 hrhs⟩

/-- A production all of whose symbols may be erased has none. -/
theorem Tame.eq_nil_of_erasable (htame : g.Tame rank) (hg : g.WellFormed)
    (hp : g.productions[p]? = some production) (hne : p ≠ acceptProduction)
    (h : ∀ symbol ∈ production.rhs,
      ∃ i, symbol = .nonterminal i ∧ (g.isErasable i = true ∨ i = start)) :
    production.rhs = [] := by
  by_contra hrhs
  have hlast := List.getLast_mem hrhs
  obtain ⟨i, hi, herasable⟩ := h _ hlast
  rw [hi] at hlast
  rcases herasable with herasable | rfl
  · have hnot := htame.last p production i hp hne (by rw [List.getLast?_eq_some_getLast hrhs, hi])
    rw [herasable] at hnot
    cases hnot
  · exact hg.ne_start_of_mem_rhs hp hlast rfl

mutual

/-- A symbol that stands for nothing has an empty production. -/
theorem Expands.erasable (htame : g.Tame rank) (hg : g.WellFormed) :
    ∀ {symbol : Symbol} {kinds : List Kind}, g.Expands symbol kinds → kinds = [] →
      ∃ i, symbol = .nonterminal i ∧ (g.isErasable i = true ∨ i = start)
  | _, _, .terminal _, hnil => by cases hnil
  | _, _, .visible _, hnil => by cases hnil
  | _, _, @Expands.hidden _ p production _ _ hp hexpands, hnil => by
    refine ⟨production.lhs, rfl, ?_⟩
    by_cases hne : p = acceptProduction
    · obtain ⟨root, -, -, haccept⟩ := hg.accept
      rw [hne, haccept] at hp
      cases hp
      exact Or.inr rfl
    · exact Or.inl (isErasable_of_rhs_eq_nil hp
        (htame.eq_nil_of_erasable hg hp hne (hexpands.erasable htame hg hnil)))

theorem ExpandsAll.erasable (htame : g.Tame rank) (hg : g.WellFormed) :
    ∀ {symbols : List Symbol} {kinds : List Kind}, g.ExpandsAll symbols kinds → kinds = [] →
      ∀ symbol ∈ symbols, ∃ i, symbol = .nonterminal i ∧ (g.isErasable i = true ∨ i = start)
  | _, _, .nil, _ => by simp
  | _, _, .cons h hrest, hnil => by
    obtain ⟨hfirst, hmore⟩ := List.append_eq_nil_iff.1 hnil
    exact List.forall_mem_cons.2 ⟨h.erasable htame hg hfirst, hrest.erasable htame hg hmore⟩

end

/-- Only an empty production stands for nothing. -/
theorem Tame.rhs_eq_nil (htame : g.Tame rank) (hg : g.WellFormed)
    (hp : g.productions[p]? = some production) (hne : p ≠ acceptProduction)
    (h : g.ExpandsAll production.rhs []) : production.rhs = [] :=
  htame.eq_nil_of_erasable hg hp hne (h.erasable htame hg rfl)

/-! ## What follows an empty production -/

/-- What is derived from a terminal and more begins with it. -/
theorem Yields.of_terminal {kind : Kind} {result : List Symbol}
    (h : g.Yields (.terminal kind :: symbols) result) :
    ∃ rest, result = .terminal kind :: rest := by
  induction h with
  | refl => exact ⟨symbols, rfl⟩
  | tail _ hstep ih =>
    obtain ⟨rest, rfl⟩ := ih
    generalize hform : Symbol.terminal kind :: rest = form at hstep
    cases hstep with
    | mk before after hp =>
      cases before with
      | nil => cases hform
      | cons first before =>
        obtain ⟨rfl, -⟩ := List.cons.inj hform
        exact ⟨_, rfl⟩

theorem Yields.of_nil {result : List Symbol} (h : g.Yields [] result) : result = [] := by
  induction h with
  | refl => rfl
  | tail _ hstep ih =>
    subst ih
    generalize hform : ([] : List Symbol) = form at hstep
    cases hstep with
    | mk before after hp => simp at hform

/-- The lookahead of a production that is begun comes from the item that asks for it: from what stands
behind there, or if that may vanish, from the lookahead of the item. -/
theorem FollowsAt.of_opening (hg : g.WellFormed) {state mark : Nat} {kind : Kind}
    (h : g.FollowsAt state ⟨p, mark⟩ kind) (hp : g.productions[p]? = some production)
    (hne : p ≠ acceptProduction) (hmark : mark = 0) :
    ∃ item after, Begins g (g.core state) item ∧
      item.rest g = .nonterminal production.lhs :: after ∧
      (g.BeginsWith after kind ∨ (g.Vanishes after ∧ g.FollowsAt state item kind)) := by
  obtain ⟨hstate, h⟩ := h
  have hgenuine := (Automaton.saturated_build hg).1.coherent.genuine state hstate
  have hbegins {item : Item} (hclosed : g.Closed
      ((Automaton.build (Closure.Setting.ofGrammar g)).kernel state).items item) :
      Begins g (g.core state) item := (Table.closed_iff_begins g _ item).1 hclosed
  generalize hitem : Item.mk p mark = item at h
  cases h with
  | kernel hmem =>
    -- Something has been read of the items in a kernel, except for the start rule.
    rcases hgenuine.read item (Kernel.mem_items_of_mem_follow hmem) with hread | heq
    · rw [← hitem, hmark] at hread
      exact absurd hread (Nat.lt_irrefl 0)
    · exact absurd (congrArg Item.production (hitem.trans heq)) hne
  | @begins asking _ q after other hclosed hq hrest hword =>
    obtain rfl : p = q := congrArg Item.production hitem
    obtain rfl := Option.some.inj (hq.symm.trans hp)
    exact ⟨asking, after, hbegins hclosed, hrest, Or.inl hword⟩
  | @vanishes asking _ q after other hfollows hq hrest hword =>
    obtain rfl : p = q := congrArg Item.production hitem
    obtain rfl := Option.some.inj (hq.symm.trans hp)
    have hat : g.FollowsAt state asking kind := ⟨hstate, hfollows⟩
    exact ⟨asking, after, hbegins hat.closed, hrest, Or.inr ⟨hword, hat⟩⟩

/-- Only the end of the input follows the start rule. -/
theorem FollowsAt.eq_eof (hg : g.WellFormed) {state : Nat} {kind : Kind}
    (h : g.FollowsAt state (Item.opening acceptProduction) kind) : kind = .eof := by
  obtain ⟨hstate, h⟩ := h
  have hgenuine := (Automaton.saturated_build hg).1.coherent.genuine state hstate
  obtain ⟨root, -, -, haccept⟩ := hg.accept
  have hnot {item : Item} {q : Nat} {after : List Symbol} {other : Production}
      (hq : g.productions[q]? = some other) (hrest : item.rest g = .nonterminal other.lhs :: after)
      (hitem : Item.opening acceptProduction = Item.opening q) : False := by
    obtain rfl : acceptProduction = q := congrArg Item.production hitem
    obtain rfl := Option.some.inj (haccept.symm.trans hq)
    obtain ⟨outer, houter, hmem, -⟩ := exists_of_rest_eq_cons hrest
    exact hg.ne_start_of_mem_rhs houter hmem rfl
  generalize hitem : Item.opening acceptProduction = item at h
  cases h with
  | kernel hmem =>
    obtain ⟨state', hcanonical, -, hfollow⟩ := hgenuine.canonical _ hmem
    cases hcanonical with
    | start => exact (Prod.mk.inj (Set.mem_singleton_iff.1 hfollow)).2
    | goto =>
      obtain ⟨before, -, -, hadvance⟩ := hfollow
      rw [← hitem] at hadvance
      exact absurd (congrArg Item.mark hadvance) (Nat.succ_ne_zero _)
  | begins _ hq hrest _ => exact (hnot hq hrest hitem).elim
  | vanishes _ hq hrest _ => exact (hnot hq hrest hitem).elim

end Grammar

/-! ## The table -/

namespace Table

variable {g : Grammar} {rank : Nat → Nat} {state next p : Nat} {kind : Kind}
  {production : Production}

/-- After an empty production the table can go on with the token for which it was reduced. -/
theorem actions_of_empty (hg : g.WellFormed) (htame : g.Tame rank)
    (hreduce : .reduce p ∈ (ofGrammar g).actions state kind)
    (hp : g.productions[p]? = some production) (hrhs : production.rhs = [])
    (hnext : (ofGrammar g).goto? state production.lhs = some next) :
    (ofGrammar g).actions next kind ≠ [] := by
  have hkind := isToken_of_mem_actions hreduce
  obtain ⟨⟨hne, mark, hfollows, -⟩, -⟩ := reduce_strongest hg hreduce
  have hstate := hfollows.1
  have hmark : mark = 0 := by
    have hle := mark_le_of_begins hg hstate ((closed_iff_begins g _ _).1 hfollows.closed) hp
    rw [hrhs] at hle
    exact Nat.le_zero.1 hle
  have herasable := Grammar.isErasable_of_rhs_eq_nil hp hrhs
  obtain ⟨item, after, hbegins, hrest, hlookahead⟩ := hfollows.of_opening hg hp hne hmark
  rw [goto?_ofGrammar hstate (hg.lhs_lt hp)] at hnext
  obtain ⟨hstate', hmem⟩ := advance_mem_core hg hstate hbegins hrest hnext
  have hrest' := Grammar.rest_advance hrest
  obtain ⟨outer, houter⟩ := exists_production_of_begins hg hstate hbegins
  have hget {i : Nat} {symbol : Symbol} {symbols : List Symbol}
      (h : Item.rest g ⟨item.production, i⟩ = symbol :: symbols) : outer.rhs[i]? = some symbol := by
    simp only [Item.rest, houter] at h
    rw [← List.head?_drop, h]
    rfl
  -- Behind a nonterminal that may be erased stands a terminal, unless the start rule ends there.
  cases after with
  | cons symbol after =>
    cases symbol with
    | nonterminal j =>
      exact absurd (hget hrest') (htame.next _ outer item.mark _ j houter (hget hrest) herasable)
    | terminal asked =>
      obtain rfl : kind = asked := by
        rcases hlookahead with ⟨rest, hyields⟩ | ⟨hvanishes, -⟩
        · obtain ⟨rest', heq⟩ := hyields.of_terminal
          cases heq
          rfl
        · obtain ⟨rest', heq⟩ := Grammar.Yields.of_terminal hvanishes
          cases heq
      exact actions_ne_nil hg hstate' hkind (Or.inl ⟨item.advance, .kernel hmem, after, hrest'⟩)
  | nil =>
    obtain ⟨q, mark⟩ := item
    have hdrop : outer.rhs.drop mark = [.nonterminal production.lhs] := by
      simpa [Item.rest, houter] using hrest
    obtain rfl : q = Grammar.acceptProduction := by
      by_contra hother
      have hnot := htame.last q outer production.lhs houter hother (by
        rw [← List.take_append_drop mark outer.rhs, hdrop]
        simp)
      rw [herasable] at hnot
      cases hnot
    obtain ⟨root, -, -, haccept⟩ := hg.accept
    obtain rfl := Option.some.inj (houter.symm.trans haccept)
    obtain rfl : mark = 0 := by
      cases mark with
      | zero => rfl
      | succ mark => simp at hdrop
    rcases hlookahead with ⟨rest, hyields⟩ | ⟨-, hfollows⟩
    · cases hyields.of_nil
    · obtain rfl := hfollows.eq_eof hg
      obtain ⟨target, hlookup, hadvance⟩ := hfollows.advance hg hrest
      obtain rfl := Option.some.inj (hlookup.symm.trans hnext)
      exact List.ne_nil_of_mem (accept_mem_actions hg hadvance hrest')

/-- Where the root may be empty, the table has an action before the first token of an empty text. -/
theorem actions_start (hg : g.WellFormed) {root : Nat}
    (hstart : g.StartsOnce production (.nonterminal root)) (hroot : g.isErasable root = true) :
    (ofGrammar g).actions 0 .eof ≠ [] := by
  obtain ⟨p, empty, hp, rfl, hrhs⟩ := Grammar.exists_of_isErasable hroot
  have hfollows := Grammar.followsAt_start hg
  have hrest : (Item.opening Grammar.acceptProduction).rest g = [.nonterminal empty.lhs] := by
    simp [Item.rest, Item.opening, hstart.accept, hstart.rhs]
  have hopening := hfollows.opening hp hrest .nil (rfl : [] ++ Kind.eof :: [] = .eof :: [])
  refine actions_ne_nil hg hfollows.1 (by decide) (Or.inr ⟨p, ?_, 0, hopening, ?_⟩)
  · rintro rfl
    obtain rfl := Option.some.inj (hp.symm.trans hstart.accept)
    have hnil := hstart.rhs
    rw [hrhs] at hnil
    cases hnil
  · simp [Item.rest, hp, hrhs]

end Table

/-! ## The machine -/

theorem Stack.Linked.eq_bottom {g : Grammar} {stack : Stack} (h : Stack.Linked g stack)
    (hlength : stack.length ≤ 1) : stack = [Entry.bottom] := by
  have hnot {e : Entry} {below : Stack} (hbelow : Stack.Linked g below)
      (hlength : (e :: below).length ≤ 1) : False := by
    have hpos := List.length_pos_iff.2 hbelow.ne_nil
    rw [List.length_cons] at hlength
    omega
  cases h with
  | bottom => rfl
  | extra _ _ hbelow => exact (hnot hbelow hlength).elim
  | symbol _ _ _ hbelow => exact (hnot hbelow hlength).elim

namespace Machine

variable {g : Grammar} {rank : Nat → Nat} {text : List Char} {m m₁ next : Machine}
  {setting : Setting} {table : Table}

/-- A machine is not stuck on top of an empty entry, unless that is the lowest one and no missing
token has been asked for. -/
def Ready (table : Table) (m : Machine) : Prop :=
  ∀ e below, m.stack = e :: below → e.elements = [] →
    (below = [] ∧ m.injected = none) ∨ candidates table m.topState m.lookahead ≠ []

theorem Ready.start (table : Table) (text : List Char) (firstId : Nat) :
    (Machine.start text firstId).Ready table := by
  intro e below hstack _
  obtain ⟨rfl, rfl⟩ := List.cons.inj hstack
  exact Or.inl ⟨rfl, rfl⟩

/-- It is, if its top entry holds something. -/
theorem ready_of_elements_ne_nil {e : Entry} {below : Stack} (hstack : m.stack = e :: below)
    (h : e.elements ≠ []) : m.Ready table := by
  intro e' below' hstack' hnil
  obtain ⟨rfl, -⟩ := List.cons.inj (hstack.symm.trans hstack')
  exact absurd hnil h

theorem candidates_ne_nil {state : Nat} {kind reading : Kind}
    (hreading : reading = kind ∨ (reading = .ident ∧ kind.isContextual = true))
    (h : table.actions state reading ≠ []) : candidates table state kind ≠ [] := by
  obtain ⟨action, haction⟩ := List.exists_mem_of_ne_nil _ h
  refine List.ne_nil_of_mem (a := (reading, action)) ?_
  rcases hreading with rfl | ⟨rfl, hcontextual⟩
  · exact List.mem_append_left _ (List.mem_map_of_mem haction)
  · refine List.mem_append_right _ ?_
    rw [if_pos hcontextual]
    exact List.mem_map_of_mem haction

/-- A repair is begun only where there is no action. -/
theorem Tracked.candidates_eq_nil (h : m.Tracked setting.table) (hg : g.WellFormed)
    (htable : setting.table = Table.ofGrammar g) (hrepair : (m.turn setting).2 = .repair) :
    candidates setting.table m.topState m.lookahead = [] := by
  refine candidates_eq_nil_of_repair (fun n fork kind p hreduce => ?_) hrepair
  have hlooked : Tracked setting.table { m.looked n with forkPending := fork } := h.congr rfl
  exact hlooked.isSome_reduce? hg htable hreduce

/-- A missing token is asked for only if the table has an action for it, and it is not the end. -/
theorem actions_of_mem_insertions {state : Nat} {kind : Kind} (h : kind ∈ insertions table state) :
    table.actions state kind ≠ [] ∧ kind ≠ .eof := by
  rcases List.mem_append.1 h with h | h
  · obtain ⟨hmem, haction⟩ := List.mem_filter.1 h
    refine ⟨by simpa [Table.hasAction] using haction, ?_⟩
    rintro rfl
    exact absurd hmem (by decide)
  · obtain ⟨hmem, hkind⟩ := List.mem_filter.1 h
    simp only [Bool.and_eq_true, bne_iff_ne] at hkind
    exact ⟨by simpa [Table.hasAction] using (List.mem_filter.1 hmem).2, hkind.1.2⟩

theorem Ready.reduce {kind : Kind} {production : Nat} (hg : g.WellFormed) (hregular : m.Regular g text)
    (hsuits : setting.Suits g rank text)
    (hmem : (kind, .reduce production) ∈ candidates setting.table m.topState m.lookahead)
    (hreduced : m.reduce? setting production = some next) : next.Ready setting.table := by
  have hreduces := hregular.grammatical.reduces hregular.faithful hsuits.table_eq hmem hreduced
  obtain ⟨haction, hreading⟩ := mem_candidates hmem
  cases hreduces with
  | @mk p extras below children entry state nextId hp hne hstack hextras _ htop _ _ hends hexpands
      haccess _ hmakes hgoto =>
    cases extras with
    | cons extra extras =>
      -- What was skipped is still on top.
      have hformed := hregular.faithful.formed extra (by simp [hstack])
      obtain ⟨id, skipped, helements⟩ := hformed.error (hextras extra List.mem_cons_self)
      exact ready_of_elements_ne_nil rfl (by simp [helements])
    | nil =>
      intro e below' hstack' hnil
      obtain ⟨rfl, rfl⟩ := List.cons.inj hstack'
      -- Only an empty production leaves an empty entry.
      have hjoined : (m.joinedEntry state children).elements = [] := by
        cases hmakes with
        | hidden => exact hnil
        | visible => cases hnil
      have hsilent : ∀ child ∈ children, child.Silent := fun child hchild =>
        hregular.grammatical.silent child (by simp [hstack, hchild])
      rw [← (Entry.silent_ofChildren state m.position hsilent).2] at hexpands
      have hrhs := hsuits.tame.rhs_eq_nil hg hp hne (by
        have hempty : readings (Entry.ofChildren state children m.position).elements = [] :=
          congrArg readings hjoined
        rwa [hempty] at hexpands)
      have hchildren : children = [] := by
        cases children with
        | nil => rfl
        | cons first children => simp [hrhs, hends first (.inl rfl)] at haccess
      subst hchildren
      rw [hsuits.table_eq] at haction ⊢
      have hactions := Table.actions_of_empty hg hsuits.tame (htop ▸ haction) hp hrhs hgoto
      have hstate : entry.state = state :=
        hmakes.frame.2.trans (Entry.ofChildren_state state [] m.position)
      refine Or.inr (candidates_ne_nil ?_ (hstate.symm ▸ hactions))
      simpa only [lookahead, Source.ahead_peek] using hreading

/-- Skipping finds something to leave as an error. -/
theorem Ready.gathered_ne_nil (h : m.Ready setting.table) (hregular : m.Regular g text)
    (htable : setting.table = Table.ofGrammar g) (hstart : (Table.ofGrammar g).actions 0 .eof ≠ [])
    (hempty : candidates setting.table m.topState m.lookahead = []) (hstack : m₁.stack = m.stack)
    {skipped depth : Nat}
    (hdepth : skipped = 0 → (0 < depth ∧ 1 < m.stack.length) ∨
      (m.stack.length ≤ 1 ∧ (m.source.ahead 0).kind = .eof)) :
    (m₁.gathered skipped (min depth (m₁.stack.length - 1))).1.elements ≠ [] := by
  cases skipped with
  | succ skipped => exact m₁.gathered_ne_nil_of_pos (Nat.succ_pos skipped) _
  | zero =>
    intro hnil
    obtain ⟨top, below, htop⟩ := List.exists_cons_of_ne_nil hregular.grammatical.linked.ne_nil
    rcases hdepth rfl with ⟨hpos, hlength⟩ | ⟨hlength, heof⟩
    · -- The top entry is popped, so it would be empty, which it is not.
      have hformed : ∀ e ∈ m₁.stack, e.Formed := hstack ▸ hregular.faithful.formed
      have hnothing : (m₁.gathered 0 (min depth (m₁.stack.length - 1))).1.content = [] := by
        rw [Entry.content, hnil, gathered_leading_eq_nil hformed hnil]
        rfl
      obtain ⟨more, hcontent, -⟩ := m₁.gathered_content 0 (min depth (m₁.stack.length - 1))
      rw [hnothing, eq_comm, List.append_eq_nil_iff, hstack, htop] at hcontent
      obtain ⟨d, hd⟩ : ∃ d, min depth ((top :: below).length - 1) = d + 1 := by
        refine Nat.exists_eq_succ_of_ne_zero ?_
        rw [htop] at hlength
        omega
      rw [hd, List.take_succ_cons, elements_cons, List.append_eq_nil_iff, Entry.content,
        List.append_eq_nil_iff] at hcontent
      rcases h top below htop hcontent.1.2.2 with ⟨rfl, -⟩ | hne
      · rw [htop] at hlength
        exact absurd hlength (Nat.lt_irrefl 1)
      · exact hne hempty
    · -- Nothing has been read, and the text is at its end.
      have hbottom := hregular.grammatical.linked.eq_bottom hlength
      rcases h _ _ hbottom rfl with ⟨-, hinjected⟩ | hne
      · refine candidates_ne_nil (Or.inl rfl) ?_ hempty
        have hstate : m.topState = 0 := by
          rw [topState, hbottom]
          rfl
        rw [htable, hstate, lookahead, hinjected, Option.getD_none, heof]
        exact hstart
      · exact hne hempty

/-- A step keeps the machine from getting stuck. -/
theorem Ready.step (h : m.Ready setting.table) (hg : g.WellFormed) (hregular : m.Regular g text)
    (htracked : m.Tracked setting.table) (hsuits : setting.Suits g rank text)
    (hstart : (Table.ofGrammar g).actions 0 .eof ≠ []) (hstep : m.step setting = .running next) :
    next.Ready setting.table := by
  have hrepair := htracked.candidates_eq_nil hg hsuits.table_eq
  obtain ⟨n, fork, htakes, hcases⟩ := step_cases setting m
  have hregular : Regular g text { m.looked n with forkPending := fork } :=
    ⟨(hregular.faithful.looked n).congr rfl rfl, hregular.grammatical.congr rfl⟩
  have hlookahead : lookahead { m.looked n with forkPending := fork } = m.lookahead := by
    simp only [lookahead, looked, Source.ahead_fetchMany]
  have h : Ready setting.table { m.looked n with forkPending := fork } := by
    intro e below hstack hnil
    rw [hlookahead]
    exact h e below hstack hnil
  have hrepair : (m.turn setting).2 = .repair → candidates setting.table
      (topState { m.looked n with forkPending := fork })
      (lookahead { m.looked n with forkPending := fork }) = [] := by
    rw [hlookahead]
    exact hrepair
  rw [hcases] at hstep
  generalize (m.turn setting).2 = turn at htakes hstep hrepair
  generalize { m.looked n with forkPending := fork } = m₁ at htakes hstep hregular h hrepair
  cases htakes with
  | accept => cases hstep
  | split hinjected _ _ hempty =>
    cases hstep
    intro e below hstack hnil
    rcases h e below hstack hnil with hleft | hne
    · exact Or.inl hleft
    · exact absurd hempty hne
  | shift =>
    cases hstep
    unfold Machine.shift
    split
    · rw [shiftMissing_eq]
      exact ready_of_elements_ne_nil rfl (by simp [missingEntry])
    · rw [shiftToken_eq]
      exact ready_of_elements_ne_nil rfl (by simp [tokenEntry])
  | takeOver _ htaken =>
    cases hstep
    obtain ⟨_, _, _, -, -, -, rfl⟩ := takeOver?_spec htaken
    exact ready_of_elements_ne_nil rfl (by simp [oldEntry])
  | reduce hmem hreduced =>
    cases hstep
    exact Ready.reduce hg hregular hsuits hmem hreduced
  | repair =>
    have hempty := hrepair rfl
    simp only [perform, repairOrEnd] at hstep
    split at hstep
    · rename_i repaired hrecover
      cases hstep
      have hrepaired := recover?_repaired setting m₁
      rw [hrecover] at hrepaired
      cases hrepaired with
      | inserted _ _ _ hkind =>
        intro e below hstack hnil
        refine Or.inr (candidates_ne_nil (Or.inl rfl) ?_)
        exact (actions_of_mem_insertions hkind).1
      | @skipped n skipped depth repairs diagnostic _ _ _ _ hdepth =>
        generalize hm₂ : { m₁.looked n with injected := none, repairs := repairs } = m₂
        have hstack : m₂.stack = m₁.stack := by rw [← hm₂]; rfl
        have hne := h.gathered_ne_nil hregular hsuits.table_eq hstart hempty hstack hdepth
        obtain ⟨d, rfl, hskip⟩ := skip_eq (hstack ▸ hregular.faithful.formed) skipped depth
        rcases hskip with ⟨hnil, -⟩ | ⟨-, hskip⟩
        · exact absurd (List.append_eq_nil_iff.1 hnil).2 hne
        · rw [hskip]
          exact ready_of_elements_ne_nil rfl (by simp)
    · cases hstep

theorem Run.ready {turns : List Turn} (hrun : Run setting m turns m₁) (hg : g.WellFormed)
    (h : m.Regular g text) (htracked : m.Tracked setting.table)
    (hsuits : setting.Suits g rank text) (hstart : (Table.ofGrammar g).actions 0 .eof ≠ [])
    (hready : m.Ready setting.table) : m₁.Ready setting.table :=
  hrun.invariant hready fun hrun hstep hready =>
    hready.step hg (hrun.regular h hsuits) (hrun.tracked htracked h.faithful hsuits.truthful) hsuits
      hstart hstep

end Machine
end SqlTree
