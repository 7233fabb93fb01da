import SqlTree.Proofs.Grouping
import SqlTree.Proofs.Kept
import SqlTree.Proofs.Simulation

/-!
# Following a machine

Which step a machine takes depends on the states of its stack and on the tokens ahead, and what a
reduction makes depends on the elements that the grammar sees. Where the cells on the way leave no
choice, a machine can be followed by these alone: whatever else there is on its stack, a run of it comes
to stand as it has to. A token that fits nowhere is skipped, which changes nothing that the grammar
sees.

- `Stack.view`        : the states of the symbols on a stack, with the elements seen in them
- `Element.Forms`     : what a reduction makes of the elements of a right-hand side
- `Machine.Stands`    : a machine as far as it can be followed
- `Machine.Comes`     : some machine of a parse stands so
- `Machine.Comes.shift`, `Machine.Comes.reduce`, `Machine.Comes.skip` : its steps
- `Machine.Comes.exists_visit` : what it has built is visited in the tree
-/

namespace SqlTree

open Element (seen)
open Machine (candidates)

/-! ## What the grammar sees -/

/-- What becomes of the elements of a right-hand side: they stay as they are, or a node is made whose
constituents they are. -/
inductive Element.Forms (g : Grammar) (lhs : Nat) (children : List Element) : List Element → Prop where
  | hidden (hkind : g.visibleKind? lhs = none) : Forms g lhs children children
  | visible {kind : Kind} {x : Element} (hkind : g.visibleKind? lhs = some kind)
      (hnode : x.isNodeOf kind = true) (hchildren : x.constituents = children) :
      Forms g lhs children [x]

namespace Stack

/-- The states of the symbols on a stack, the top first, with the elements that the grammar sees in
them. -/
def view (stack : Stack) : List (Nat × List Element) :=
  (stack.filter fun e => !e.extra).map fun e => (e.state, seen e.elements)

variable {stack : Stack} {e : Entry}

@[simp]
theorem view_append (a b : Stack) : view (a ++ b) = view a ++ view b := by
  simp [view]

theorem view_cons (h : e.extra = false) :
    view (e :: stack) = (e.state, seen e.elements) :: view stack := by
  simp [view, h]

theorem view_cons_of_extra (h : e.extra = true) : view (e :: stack) = view stack := by
  simp [view, h]

theorem view_of_extras (h : ∀ e ∈ stack, e.extra = true) : view stack = [] := by
  simpa [view] using h

theorem view_reverse (stack : Stack) : view stack.reverse = (view stack).reverse := by
  simp [view, List.filter_reverse]

theorem length_view (stack : Stack) :
    (view stack).length = (stack.filter fun e => !e.extra).length := by
  simp [view]

theorem map_fst_view (stack : Stack) : (view stack).map Prod.fst = stack.states := by
  simp [view, states]

/-- Nothing is seen in what stands between grammar symbols. -/
theorem flatMap_view (hformed : ∀ e ∈ stack, e.Formed) :
    (view stack).flatMap Prod.snd = stack.flatMap fun e => seen e.elements := by
  induction stack with
  | nil => rfl
  | cons e stack ih =>
    have hrest := ih fun e he => hformed e (List.mem_cons_of_mem _ he)
    cases hextra : e.extra with
    | false => rw [view_cons hextra, List.flatMap_cons, List.flatMap_cons, hrest]
    | true =>
      have hnil : seen e.elements = [] :=
        Element.seen_eq_nil ((hformed e List.mem_cons_self).readings_of_extra hextra)
      rw [view_cons_of_extra hextra, List.flatMap_cons, hnil, List.nil_append, hrest]

theorem mem_of_mem_view {state : Nat} {xs : List Element} {x : Element}
    (h : (state, xs) ∈ view stack) (hx : x ∈ xs) : x ∈ Machine.elements stack := by
  obtain ⟨e, he, heq⟩ := List.mem_map.1 h
  cases heq
  refine List.mem_flatMap.2 ⟨e, List.mem_reverse.2 (List.mem_filter.1 he).1, ?_⟩
  exact List.mem_append_right _ (List.mem_filter.1 hx).1

end Stack

namespace Machine

variable {m m' next : Machine} {setting : Setting} {text : List Char} {g : Grammar}
  {rank : Nat → Nat} {attempts : Nat}

/-! ## Steps, as they are seen -/

/-- What a reduction makes is formed of what was seen in the entries that it joins. -/
theorem Makes.forms {base lhs state : Nat} {children : List Entry} {entry : Entry}
    (hmakes : m.Makes g base lhs (m.joinedEntry state children) entry) (hnames : g.NamesNodes)
    (hsilent : ∀ child ∈ children, child.Silent) :
    Element.Forms g lhs (children.flatMap fun child => seen child.elements) (seen entry.elements) := by
  have hseen : seen (m.joinedEntry state children).elements =
      children.flatMap fun child => seen child.elements :=
    Entry.seen_ofChildren state m.position hsilent
  cases hmakes with
  | hidden hkind =>
    rw [hseen]
    exact .hidden hkind
  | @visible kind hkind =>
    rw [Element.seen_singleton (by simp [Element.reading?_node (hnames _ _ hkind)])]
    exact .visible hkind (by simp [Element.isNodeOf]) hseen

/-- A reduction takes as many symbols as its right-hand side is long, and puts what is formed of them in
their place. -/
theorem Regular.view_reduce {production : Nat} (h : m.Regular g text)
    (htracked : m.Tracked setting.table) (hgrammar : setting.table.grammar = g) (hnames : g.NamesNodes)
    (hreduced : m.reduce? setting production = some m') :
    ∃ p next xs, g.productions[production]? = some p ∧
      ((m.stack.view.map Prod.fst).drop p.rhs.length).head?.bind (setting.table.goto? · p.lhs) =
        some next ∧
      Element.Forms g p.lhs ((m.stack.view.take p.rhs.length).reverse.flatMap Prod.snd) xs ∧
      m'.stack.view = (next, xs) :: m.stack.view.drop p.rhs.length := by
  obtain ⟨p, next, hp, hgoto, hstates⟩ := htracked.states_reduce hreduced
  obtain ⟨q, extras, children, below, state, entry, nextId, hq, hstack, hextras, hcount, -, -, -, hmakes,
    rfl⟩ := reduce?_spec hreduced
  obtain rfl := Option.some.inj (hp.symm.trans hq)
  rw [hgrammar] at hp hmakes
  have hmem {e : Entry} (he : e ∈ children) : e ∈ m.stack := by
    rw [hstack]
    exact List.mem_append_right _ (List.mem_append_left _ (List.mem_reverse.2 he))
  have hforms := hmakes.forms hnames fun e he => h.grammatical.silent e (hmem he)
  rw [← Stack.flatMap_view fun e he => h.faithful.formed e (hmem he)] at hforms
  have hentry : entry.extra = false := hmakes.frame.1.trans (Entry.ofChildren_extra _ _ _)
  have hview : m.stack.view = Stack.view children.reverse ++ below.view := by
    rw [hstack, Stack.view_append, Stack.view_of_extras hextras, List.nil_append, Stack.view_append]
  have hlength : (Stack.view children.reverse).length = p.rhs.length := by
    rw [Stack.view_reverse, List.length_reverse, Stack.length_view, hcount]
  refine ⟨p, next, seen entry.elements, hp, ?_, ?_, ?_⟩
  · rw [Stack.map_fst_view]
    exact hgoto
  · rw [hview, List.take_left' hlength, Stack.view_reverse, List.reverse_reverse]
    exact hforms
  · have hreached : Stack.view ((extras.map fun e => { e with state := state }) ++ entry :: below) =
        (entry.state, seen entry.elements) :: m.stack.view.drop p.rhs.length := by
      rw [Stack.view_append, Stack.view_of_extras (by simpa using hextras), List.nil_append,
        Stack.view_cons hentry, hview, List.drop_left' hlength]
    have hnext : entry.state = next := by
      rw [← Stack.map_fst_view, hreached] at hstates
      exact (List.cons.inj hstates).1
    rw [hreached, hnext]

/-! ## Skipping a token -/

/-- A token that nothing resumes at. -/
structure Stray (kind : Kind) : Prop where
  boundary : kind ∉ boundaries
  resume : ∀ context : Context, kind ∉ context.resumeTokens
  eof : kind ≠ .eof

variable {state : Nat} {kind : Kind}

/-- A simulation that is to read one token, which can be shifted, reads it. -/
theorem atLeast_simulate {trial : Trial} {stack : Overlay}
    (hlimit : trial.limit = 1) (hfree : trial.forced = none ∧ trial.injected = none)
    (htop : stack.top? = some state) {target : Nat}
    (hshift : setting.table.actions state (m.source.ahead trial.skipped).kind = [.shift target])
    (hsteps : 0 < setting.options.simulationSteps) :
    (m.simulate setting trial stack).1.atLeast trial.limit = true := by
  obtain ⟨budget, hbudget⟩ := Nat.exists_eq_add_of_lt hsteps
  rw [Nat.zero_add] at hbudget
  have hkind : Simulation.kind trial ⟨stack, m.source, 0, 0⟩ =
      ((m.source.ahead trial.skipped).kind, ⟨stack, (m.source.peek trial.skipped).2, 0, 0⟩) := by
    simp [Simulation.kind, hfree.2, Source.ahead]
  have hgo : (Simulation.go setting.table trial (budget + 1) none ⟨stack, m.source, 0, 0⟩).1 =
      .consumed 1 := by
    cases budget <;>
      simp [Simulation.go, hlimit, hkind, htop, Simulation.action?, Table.firstAction?, hshift,
        Simulation.shift]
  rw [simulate, Simulation.run, hfree.1, hbudget, hlimit]
  simp only [hgo]
  rfl

/-- Parsing can go on behind the current token: the one after it can be shifted, and nothing more is
asked for. -/
structure Resumes (setting : Setting) (m : Machine) : Prop where
  shifts : ∃ state target, (Overlay.popped m.stack 0).top? = some state ∧
    setting.table.actions state (m.source.ahead 1).kind = [.shift target]
  validation : setting.options.recoveryValidation = 0
  steps : 0 < setting.options.simulationSteps

theorem Resumes.looked (h : m.Resumes setting) (n : Nat) : (m.looked n).Resumes setting := by
  obtain ⟨state, target, htop, hshift⟩ := h.shifts
  refine ⟨⟨state, target, htop, ?_⟩, h.validation, h.steps⟩
  simp only [Machine.looked, Source.ahead_fetchMany]
  exact hshift

theorem Resumes.resumeDepth? (h : m.Resumes setting) :
    ∃ n, m.resumeDepth? setting [0] 1 = (some 0, m.looked n) := by
  obtain ⟨state, target, htop, hshift⟩ := (h.looked (1 + 1 - m.source.buffer.length)).shifts
  have haccepts : setting.table.accepts state (m.source.ahead 1).kind = true := by
    simp only [Machine.looked, Source.ahead_fetchMany] at hshift
    simp [Table.accepts, Table.firstAction?, hshift]
  have hpeek := m.peek_eq 1
  generalize m.looked (1 + 1 - m.source.buffer.length) = m₁ at hpeek htop hshift
  have hreach : (m₁.simulate setting { skipped := 1, limit := 1 + setting.options.recoveryValidation }
      (Overlay.popped m₁.stack 0)).1.atLeast (1 + setting.options.recoveryValidation) = true :=
    atLeast_simulate (by rw [h.validation]) ⟨rfl, rfl⟩ htop hshift h.steps
  obtain ⟨n, hn⟩ := simulate_snd setting m₁
    { skipped := 1, limit := 1 + setting.options.recoveryValidation } (Overlay.popped m₁.stack 0)
  have hsome : m.resumeDepth? setting [0] 1 = (some 0, m₁.looked n) := by
    rw [← hn]
    simp only [Machine.resumeDepth?, hpeek, maxResumeTrials, resumeFrom?, htop, haccepts, hreach,
      if_true]
  have hlooked : m₁ = m.looked (1 + 1 - m.source.buffer.length) := by
    rw [peek_eq] at hpeek
    exact (Prod.ext_iff.1 hpeek).2.symm
  exact ⟨_, by rw [hsome, hlooked, looked_looked]⟩

/-- The search for a place to resume passes over a stray token, and ends behind it. -/
theorem Resumes.resynchronize (h : m.Resumes setting) (hstray : Stray (m.source.ahead 0).kind)
    (hsize : 0 < m.source.size) (current : Lexeme) :
    ∃ n, m.resynchronize setting current = (m.looked n).applySkip setting.table 1 0 current := by
  obtain ⟨size, hsize⟩ := Nat.exists_eq_add_of_lt hsize
  rw [Nat.zero_add] at hsize
  -- At the stray token nothing is tried.
  have hfirst (context : Context) : resynchronizeFrom setting context current (size + 1 + 1) 0 m =
      resynchronizeFrom setting context current (size + 1) 1
        (m.looked (0 + 1 - m.source.buffer.length)) := by
    simp only [resynchronizeFrom, peek_eq]
    simp [hstray.boundary, hstray.resume, hstray.eof]
  have hresumes := h.looked (0 + 1 - m.source.buffer.length)
  rw [Machine.resynchronize, hsize, hfirst]
  generalize hm₁ : m.looked (0 + 1 - m.source.buffer.length) = m₁ at hresumes
  obtain ⟨n, hn⟩ := (hresumes.looked (1 + 1 - m₁.source.buffer.length)).resumeDepth?
  refine ⟨0 + 1 - m.source.buffer.length + (1 + 1 - m₁.source.buffer.length) + n, ?_⟩
  rw [← looked_looked, ← looked_looked, hm₁]
  simp only [resynchronizeFrom, peek_eq, hn]
  rfl

/-- A stray token behind which parsing can go on is skipped, where no missing token may be put in. -/
theorem Resumes.recover? (h : m.Resumes setting) (hstray : Stray (m.source.ahead 0).kind)
    (hsize : 0 < m.source.size) (hinsertions : setting.options.maxInsertions = 0)
    (hattempts : m.repairs.attempts < maxAttempts) :
    ∃ n repairs diagnostic, repairs.attempts ≤ m.repairs.attempts + 1 ∧
      m.recover? setting = some
        (({ m.looked n with injected := none, repairs := repairs }.skip 1 0).report diagnostic) := by
  generalize hn : 0 + 1 - m.source.buffer.length = n
  have hahead (i : Nat) : (m.looked n).source.ahead i = m.source.ahead i := Source.ahead_fetchMany _ _ _
  obtain ⟨r₁, -, hcount₁, hbegin⟩ := beginRepair_eq (m.looked n) (m.source.ahead 0)
    (congrArg Lexeme.fullStart (hahead 0)).symm
  obtain ⟨r₂, -, hcount₂, -, hdrop⟩ :=
    dropInjected_eq setting.options { m.looked n with repairs := r₁ }
  have hle : r₂.attempts ≤ m.repairs.attempts + 1 := by
    have hhere : (m.looked n).attemptsHere ≤ m.repairs.attempts := by
      unfold attemptsHere
      split
      · exact Nat.le_refl _
      · exact Nat.zero_le _
    calc r₂.attempts = r₁.attempts := hcount₂
      _ = (m.looked n).attemptsHere + 1 := hcount₁
      _ ≤ m.repairs.attempts + 1 := Nat.succ_le_succ hhere
  have hfew : ¬ maxAttempts < r₂.attempts := by omega
  have hresumes : Resumes setting { m.looked n with injected := none, repairs := r₂ } :=
    ⟨(h.looked n).shifts, h.validation, h.steps⟩
  obtain ⟨k, hk⟩ := hresumes.resynchronize ((congrArg Lexeme.kind (hahead 0)).symm ▸ hstray)
    (by simpa [Machine.looked] using hsize) (m.source.ahead 0)
  obtain ⟨r₃, diagnostic, -, hcount₃, -, -, heq⟩ := applySkip_eq setting.table
    (Machine.looked { m.looked n with injected := none, repairs := r₂ } k) 1 0 (m.source.ahead 0)
  refine ⟨n + k, r₃, diagnostic, hcount₃.le.trans hle, ?_⟩
  have hlooked : { Machine.looked { m.looked n with injected := none, repairs := r₂ } k with
      repairs := r₃ } = { m.looked (n + k) with injected := none, repairs := r₃ } := by
    simp only [Machine.looked, Source.fetchMany_fetchMany]
  rw [Machine.recover?]
  simp only [peek_eq, hn, hbegin, hdrop, if_neg hfew, hinsertions, Nat.not_lt_zero]
  rw [← hlooked, ← heq, ← hk]
  simp

/-! ## Following a step -/

/-- A machine with a view of its stack, in front of some tokens, that has no missing token to read and
has not made more repairs at one place than `attempts`. -/
structure Stands (m : Machine) (view : List (Nat × List Element)) (kinds : List Kind) (attempts : Nat) :
    Prop where
  view_eq : m.stack.view = view
  ahead : ∀ i kind, kinds[i]? = some kind → (m.source.ahead i).kind = kind
  injected : m.injected = none
  attempts_le : m.repairs.attempts ≤ attempts

variable {view below : List (Nat × List Element)} {kinds : List Kind} {next base firstId : Nat}
  {other : Kind}

theorem Stands.looked (h : m.Stands view kinds attempts) (n : Nat) :
    (m.looked n).Stands view kinds attempts := by
  refine ⟨h.view_eq, fun i kind hkind => ?_, h.injected, h.attempts_le⟩
  rw [Machine.looked, Source.ahead_fetchMany]
  exact h.ahead i kind hkind

theorem Stands.lookahead_eq (h : m.Stands view (kind :: kinds) attempts) : m.lookahead = kind := by
  rw [lookahead, h.injected]
  exact h.ahead 0 kind rfl

theorem Stands.topState_eq {t : Table} (h : m.Stands view kinds attempts) (htracked : m.Tracked t)
    (htop : (view.map Prod.fst).head? = some state) : m.topState = state := by
  obtain ⟨path, htracks⟩ := htracked
  rw [← h.view_eq, Stack.map_fst_view, htracks.head?_states] at htop
  exact Option.some.inj htop

/-- Where there is no candidate, and no `>>` to be split, the machine begins a repair. -/
theorem turn_of_nil (hnil : candidates setting.table m.topState m.lookahead = [])
    (hinjected : m.injected = none) (hshr : m.lookahead ≠ .shr) :
    ∃ n, m.turn setting = (m.looked n, .repair) := by
  refine ⟨0 + 1 - m.source.buffer.length, ?_⟩
  have hlooked : candidates setting.table (m.looked (0 + 1 - m.source.buffer.length)).topState
      ((m.looked (0 + 1 - m.source.buffer.length)).injected.getD (m.source.ahead 0).kind) = [] := hnil
  have hkind : (m.source.ahead 0).kind ≠ .shr := by simpa [lookahead, hinjected] using hshr
  simp only [turn, peek_eq, hlooked]
  exact if_neg (by simp [hkind])

/-- Where a cell holds one action, there is one candidate. -/
theorem candidates_of_actions {t : Table} {action : Action} (hkind : kind.isContextual = false)
    (haction : t.actions state kind = [action]) : candidates t state kind = [(kind, action)] := by
  simp [candidates, haction, hkind]

/-- The next token is shifted where its cell holds nothing else. -/
theorem Stands.shift (h : m.Stands view (kind :: kinds) attempts) (htracked : m.Tracked setting.table)
    (hreuse : setting.reuse = none) (hkind : kind.isContextual = false ∧ kind.isTrivia = false)
    (htop : (view.map Prod.fst).head? = some state)
    (hcell : setting.table.actions state kind = [.shift next]) :
    ∃ m' x, m.step setting = .running m' ∧ x.reading? = some kind ∧
      m'.Stands ((next, [x]) :: view) kinds attempts := by
  have hone : candidates setting.table m.topState m.lookahead = [(kind, .shift next)] := by
    rw [h.lookahead_eq, h.topState_eq htracked htop]
    exact candidates_of_actions hkind.1 hcell
  obtain ⟨n, hturn⟩ := turn_of_candidates hone
  have hlooked := h.looked n
  generalize m.looked n = m₁ at hturn hlooked
  have hshift : m₁.turnOf setting true kind (.shift next) = .shift kind next := by
    simp [turnOf, takeOver?_eq_none hreuse]
  have hreading : (Element.token (m₁.nextId + (m₁.source.ahead 0).leading.length) kind
      (m₁.source.ahead 0).text).reading? = some kind := by
    simp [Element.reading?, hkind.2]
  refine ⟨m₁.shiftToken kind next, _, ?_, hreading, ?_⟩
  · rw [step_eq, hturn, hshift]
    simp [perform, Machine.shift, hlooked.injected]
  · rw [shiftToken_eq]
    refine ⟨?_, fun i k hk => ?_, hlooked.injected, hlooked.attempts_le⟩
    · rw [Stack.view_cons rfl, hlooked.view_eq]
      simp only [tokenEntry]
      rw [Element.seen_singleton (by rw [hreading]; rfl)]
    · rw [Source.ahead_bump]
      exact hlooked.ahead (i + 1) k hk

/-- Symbols on top are reduced where the cell holds nothing else. -/
theorem Stands.reduce {production : Nat} {p : Production} {taken : List (Nat × List Element)}
    (h : m.Stands (taken ++ below) (kind :: kinds) attempts) (htracked : m.Tracked setting.table)
    (hregular : m.Regular g text) (hg : g.WellFormed) (htable : setting.table = Table.ofGrammar g)
    (hnames : g.NamesNodes) (hkind : kind.isContextual = false)
    (htop : ((taken ++ below).map Prod.fst).head? = some state)
    (hbase : (below.map Prod.fst).head? = some base)
    (hcell : setting.table.actions state kind = [.reduce production])
    (hp : g.productions[production]? = some p) (hlength : taken.length = p.rhs.length)
    (hgoto : setting.table.goto? base p.lhs = some next) :
    ∃ m' xs, m.step setting = .running m' ∧
      Element.Forms g p.lhs (taken.reverse.flatMap Prod.snd) xs ∧
      m'.Stands ((next, xs) :: below) (kind :: kinds) attempts := by
  have hstate := h.topState_eq htracked htop
  have hone : candidates setting.table m.topState m.lookahead = [(kind, .reduce production)] := by
    rw [h.lookahead_eq, hstate]
    exact candidates_of_actions hkind hcell
  obtain ⟨n, hturn⟩ := turn_of_candidates hone
  have hlooked := h.looked n
  have htracked : (m.looked n).Tracked setting.table := htracked.congr rfl
  have hregular : (m.looked n).Regular g text :=
    ⟨hregular.faithful.looked n, hregular.grammatical.congr rfl⟩
  have hmem : .reduce production ∈ setting.table.actions (m.looked n).topState kind := by
    change .reduce production ∈ setting.table.actions m.topState kind
    rw [hstate, hcell]
    exact List.mem_singleton_self _
  have hsome := htracked.isSome_reduce? hg htable hmem
  generalize m.looked n = m₁ at hturn hlooked htracked hregular hsome
  obtain ⟨m', hreduced⟩ := Option.isSome_iff_exists.1 hsome
  have hgrammar : setting.table.grammar = g := by
    rw [htable]
    rfl
  -- The production and the goto are those that were given, and so is what is taken.
  obtain ⟨q, next', xs, hq, hgoto', hforms, hview⟩ :=
    hregular.view_reduce htracked hgrammar hnames hreduced
  obtain rfl := Option.some.inj (hp.symm.trans hq)
  rw [hlooked.view_eq] at hgoto' hforms hview
  rw [List.map_append, List.drop_left' (by rw [List.length_map, hlength]), hbase] at hgoto'
  obtain rfl := Option.some.inj (hgoto.symm.trans hgoto')
  rw [List.take_left' hlength] at hforms
  rw [List.drop_left' hlength] at hview
  refine ⟨m', xs, ?_, hforms, ?_⟩
  · rw [step_eq, hturn]
    simp [turnOf, hreduced, perform]
  · obtain ⟨_, _, _, _, _, _, _, -, -, -, -, -, -, -, -, rfl⟩ := reduce?_spec hreduced
    refine ⟨hview, fun i k hk => ?_, hlooked.injected, hlooked.attempts_le⟩
    rw [Source.ahead_peek]
    exact hlooked.ahead i k hk

theorem Stands.report (h : m.Stands view kinds attempts) (diagnostic : Diagnostic) :
    (m.report diagnostic).Stands view kinds attempts :=
  ⟨h.view_eq, h.ahead, h.injected, h.attempts_le⟩

/-- Skipping a token leaves an error, which is not seen. -/
theorem Stands.skip_one (h : m.Stands view (kind :: kinds) attempts)
    (hformed : ∀ e ∈ m.stack, e.Formed) : (m.skip 1 0).Stands view kinds attempts := by
  obtain ⟨d, hd, hskip⟩ := skip_eq hformed 1 0
  obtain rfl : d = 0 := hd.trans (Nat.zero_min _)
  have hframe : (m.gathered 1 0).2.stack = m.stack ∧ (m.gathered 1 0).2.injected = m.injected ∧
      (m.gathered 1 0).2.repairs = m.repairs := by
    rw [gathered, skipInto_frame]
    exact ⟨rfl, rfl, rfl⟩
  have hahead (i : Nat) : (m.gathered 1 0).2.source.ahead i = m.source.ahead (i + 1) := by
    rw [gathered, ahead_skipInto, Nat.add_comm]
    exact Source.ahead_peek _ _ _
  rcases hskip with ⟨hnil, -⟩ | ⟨-, hskip⟩
  · exact absurd (List.append_eq_nil_iff.1 hnil).2 (m.gathered_ne_nil_of_pos Nat.one_pos 0)
  · rw [hskip]
    refine ⟨?_, fun i k hk => ?_, hframe.2.1.trans h.injected, ?_⟩
    · rw [Stack.view_cons_of_extra rfl, hframe.1, h.view_eq]
    · change ((m.gathered 1 0).2.source.ahead i).kind = k
      rw [hahead]
      exact h.ahead (i + 1) k hk
    · change (m.gathered 1 0).2.repairs.attempts ≤ attempts
      rw [hframe.2.2]
      exact h.attempts_le

/-- A stray token is skipped where its cell is empty. -/
theorem Stands.skip (h : m.Stands view (kind :: other :: kinds) attempts)
    (htracked : m.Tracked setting.table) (hfaithful : m.Faithful text) (htext : text ≠ [])
    (hstray : Stray kind) (hkind : kind.isContextual = false ∧ kind ≠ .shr)
    (htop : (view.map Prod.fst).head? = some state)
    (hcell : setting.table.actions state kind = [])
    (hshift : setting.table.actions state other = [.shift next])
    (hoptions : setting.options.maxInsertions = 0 ∧ setting.options.recoveryValidation = 0 ∧
      0 < setting.options.simulationSteps) (hattempts : attempts < maxAttempts) :
    ∃ m', m.step setting = .running m' ∧ m'.Stands view (other :: kinds) (attempts + 1) := by
  have hlookahead := h.lookahead_eq
  have hnil : candidates setting.table m.topState m.lookahead = [] := by
    rw [hlookahead, h.topState_eq htracked htop]
    simp [candidates, hcell, hkind.1]
  obtain ⟨n, hturn⟩ := turn_of_nil hnil h.injected (hlookahead ▸ hkind.2)
  have hlooked := h.looked n
  have hfaithful := hfaithful.looked n
  generalize m.looked n = m₁ at hturn hlooked hfaithful
  -- The token behind the stray one can be shifted in the state that is on top.
  have hresumes : m₁.Resumes setting := by
    refine ⟨⟨state, next, ?_, ?_⟩, hoptions.2.1, hoptions.2.2⟩
    · rw [Overlay.top?_eq_head?, ← htop, ← hlooked.view_eq, Stack.map_fst_view]
      rfl
    · rw [hlooked.ahead 1 other rfl]
      exact hshift
  have hsize : 0 < m₁.source.size := by
    rw [hfaithful.source_at.size_eq, hfaithful.text_eq]
    exact Nat.pos_of_ne_zero fun hzero => htext (Text.eq_nil_of_size_eq_zero hzero)
  obtain ⟨k, repairs, diagnostic, hcount, hrecover⟩ := hresumes.recover?
    ((hlooked.ahead 0 kind rfl).symm ▸ hstray) hsize hoptions.1
    (Nat.lt_of_le_of_lt hlooked.attempts_le hattempts)
  have hrepaired : Stands { m₁.looked k with injected := none, repairs := repairs } view
      (kind :: other :: kinds) (attempts + 1) :=
    ⟨hlooked.view_eq, (hlooked.looked k).ahead, rfl,
      hcount.trans (Nat.succ_le_succ hlooked.attempts_le)⟩
  refine ⟨_, ?_, (hrepaired.skip_one hfaithful.formed).report diagnostic⟩
  rw [step_eq, hturn]
  simp only [perform, repairOrEnd, hrecover]

/-! ## Following a run -/

theorem Run.snoc {first : Machine} {turns : List Turn} (hrun : Run setting first turns m)
    (hstep : m.step setting = .running m') : Run setting first (turns ++ [(m.turn setting).2]) m' := by
  induction hrun with
  | done m => exact .step hstep (.done m')
  | step hfirst _ ih => exact .step hfirst (ih hstep)

/-- Some machine comes to stand so while a text is parsed. -/
def Comes (setting : Setting) (text : List Char) (firstId : Nat) (view : List (Nat × List Element))
    (kinds : List Kind) (attempts : Nat) : Prop :=
  ∃ turns m, Run setting (Machine.start text firstId) turns m ∧ m.Stands view kinds attempts

namespace Comes

/-- At the start of a text its tokens are ahead. -/
theorem start
    (hkinds : (List.range kinds.length).map (fun i => ((Source.ofText text).ahead i).kind) = kinds) :
    Comes setting text firstId [(0, [])] kinds 0 := by
  refine ⟨[], Machine.start text firstId, .done _, rfl, fun i kind hkind => ?_, rfl, Nat.le_refl 0⟩
  rw [← hkinds, List.getElem?_map, Option.map_eq_some_iff] at hkind
  obtain ⟨j, hj, hkind⟩ := hkind
  obtain ⟨hlt, rfl⟩ := List.getElem?_eq_some_iff.1 hj
  rw [List.getElem_range] at hkind
  exact hkind

/-- The machine is one of a run, so all that holds along runs holds of it. -/
theorem exists_machine (h : Comes setting text firstId view kinds attempts)
    (hsuits : setting.Suits g rank text) :
    ∃ turns m, Run setting (Machine.start text firstId) turns m ∧ m.Regular g text ∧
      m.Tracked setting.table ∧ m.Stands view kinds attempts := by
  obtain ⟨turns, m, hrun, hstands⟩ := h
  have hregular := hrun.regular (.start g text firstId) hsuits
  have htracked := hrun.tracked (.start _ text firstId) (.start text firstId) hsuits.truthful
  exact ⟨turns, m, hrun, hregular, htracked, hstands⟩

/-- The next token is shifted. -/
theorem shift (h : Comes setting text firstId view (kind :: kinds) attempts)
    (hsuits : setting.Suits g rank text) (hreuse : setting.reuse = none)
    (hkind : kind.isContextual = false ∧ kind.isTrivia = false)
    (htop : (view.map Prod.fst).head? = some state)
    (hcell : setting.table.actions state kind = [.shift next]) :
    ∃ x, x.reading? = some kind ∧ Comes setting text firstId ((next, [x]) :: view) kinds attempts := by
  obtain ⟨turns, m, hrun, -, htracked, hstands⟩ := h.exists_machine hsuits
  obtain ⟨m', x, hstep, hx, hstands'⟩ := hstands.shift htracked hreuse hkind htop hcell
  exact ⟨x, hx, _, m', hrun.snoc hstep, hstands'⟩

/-- Symbols on top are reduced. -/
theorem reduce {production : Nat} {p : Production} (taken : List (Nat × List Element))
    (h : Comes setting text firstId (taken ++ below) (kind :: kinds) attempts) (hg : g.WellFormed)
    (hsuits : setting.Suits g rank text) (hkind : kind.isContextual = false)
    (htop : ((taken ++ below).map Prod.fst).head? = some state)
    (hbase : (below.map Prod.fst).head? = some base)
    (hcell : setting.table.actions state kind = [.reduce production])
    (hp : g.productions[production]? = some p) (hlength : taken.length = p.rhs.length)
    (hgoto : setting.table.goto? base p.lhs = some next) :
    ∃ xs, Element.Forms g p.lhs (taken.reverse.flatMap Prod.snd) xs ∧
      Comes setting text firstId ((next, xs) :: below) (kind :: kinds) attempts := by
  obtain ⟨turns, m, hrun, hregular, htracked, hstands⟩ := h.exists_machine hsuits
  obtain ⟨m', xs, hstep, hforms, hstands'⟩ := hstands.reduce htracked hregular hg hsuits.table_eq
    hsuits.names hkind htop hbase hcell hp hlength hgoto
  exact ⟨xs, hforms, _, m', hrun.snoc hstep, hstands'⟩

/-- A stray token is skipped. -/
theorem skip (h : Comes setting text firstId view (kind :: other :: kinds) attempts)
    (hsuits : setting.Suits g rank text) (htext : text ≠ []) (hstray : Stray kind)
    (hkind : kind.isContextual = false ∧ kind ≠ .shr)
    (htop : (view.map Prod.fst).head? = some state)
    (hcell : setting.table.actions state kind = [])
    (hshift : setting.table.actions state other = [.shift next])
    (hoptions : setting.options.maxInsertions = 0 ∧ setting.options.recoveryValidation = 0 ∧
      0 < setting.options.simulationSteps) (hattempts : attempts < maxAttempts) :
    Comes setting text firstId view (other :: kinds) (attempts + 1) := by
  obtain ⟨turns, m, hrun, hregular, htracked, hstands⟩ := h.exists_machine hsuits
  obtain ⟨m', hstep, hstands'⟩ := hstands.skip htracked hregular.faithful htext hstray hkind htop hcell
    hshift hoptions hattempts
  exact ⟨_, m', hrun.snoc hstep, hstands'⟩

/-- What is seen on the way is visited in the tree. -/
theorem exists_visit (h : Comes setting text firstId view kinds attempts)
    (hsuits : setting.Suits g rank text) {xs : List Element} {x : Element} (hmem : (state, xs) ∈ view)
    (hx : x ∈ xs) :
    ∃ v ∈ (Tree.parseWith setting text firstId).root.visits, v.element = x := by
  obtain ⟨turns, m, hrun, hstands⟩ := h
  have hmem : (state, xs) ∈ m.stack.view := hstands.view_eq ▸ hmem
  exact hrun.exists_visit hsuits (Stack.mem_of_mem_view hmem hx)

end Comes

end Machine
end SqlTree
