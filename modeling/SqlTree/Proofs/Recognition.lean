import SqlTree.Proofs.Path

/-!
# The table recognises the language of its grammar

The table is run on a list of terminals by taking any of its actions, again and again. What such a run
accepts is in the language, for the stack of states is a path and the symbols of the path derive what
has been read. Conversely, where no binding strengths are declared, a word of the language is accepted:
the run follows a derivation tree of the word, and the lookaheads of the automaton let it make every
reduction of the tree.

- `Table.Runs`, `Table.Configuration.Accepts` : runs by any actions of the table
- `Grammar.Rightmost`  : rightmost derivations with the productions in their order
- `Table.Runs.rightmost` : the reductions of a run are a derivation read backwards
- `Grammar.Spells`     : words of a sequence of symbols, by the tree that derives them
- `Grammar.FollowsAt`  : the lookaheads of the items under way in a state
- `Grammar.Spells.runs` : a run follows a derivation tree
- `Table.recognizes`   : both directions, for every grammar made from rules
-/

namespace SqlTree

/-! ## Runs -/

namespace Table

/-- A stack of states, the last one first, and the terminals that are still to be read. -/
structure Configuration where
  stack : List Nat
  input : List Kind

/-- The table accepts in a configuration. -/
inductive Configuration.Accepts (t : Table) : Configuration → Prop where
  | mk {state : Nat} {stack : List Nat} {kind : Kind} {input : List Kind}
      (h : .accept ∈ t.actions state kind) : Accepts t ⟨state :: stack, kind :: input⟩

/-- A run from one configuration to another with the productions of its reductions, in their order.
Each step takes one of the actions of the table for the last state and the next terminal. -/
inductive Runs (t : Table) (c : Configuration) : List Nat → Configuration → Prop where
  | refl : Runs t c [] c
  | shift {reductions : List Nat} {state next : Nat} {stack : List Nat} {kind : Kind}
      {input : List Kind} (h : Runs t c reductions ⟨state :: stack, kind :: input⟩)
      (haction : .shift next ∈ t.actions state kind) :
      Runs t c reductions ⟨next :: state :: stack, input⟩
  | reduce {reductions : List Nat} {state base next p : Nat} {stack below : List Nat} {kind : Kind}
      {input : List Kind} {production : Production}
      (h : Runs t c reductions ⟨state :: stack, kind :: input⟩)
      (haction : .reduce p ∈ t.actions state kind)
      (hp : t.grammar.productions[p]? = some production)
      (hbase : (state :: stack).drop production.rhs.length = base :: below)
      (hgoto : t.goto? base production.lhs = some next) :
      Runs t c (reductions ++ [p]) ⟨next :: base :: below, kind :: input⟩

theorem Runs.trans {t : Table} {a b c : Configuration} {first second : List Nat}
    (h : t.Runs a first b) (h' : t.Runs b second c) : t.Runs a (first ++ second) c := by
  induction h' with
  | refl => simpa using h
  | shift _ haction ih => exact .shift ih haction
  | reduce _ haction hp hbase hgoto ih =>
    rw [← List.append_assoc]
    exact .reduce ih haction hp hbase hgoto

end Table

/-! ## What a run accepts -/

namespace Grammar

/-- A derivation that replaces the last nonterminal in every step, by the given productions in their
order. -/
inductive Rightmost (g : Grammar) : List Nat → List Symbol → List Symbol → Prop where
  | refl {symbols : List Symbol} : Rightmost g [] symbols symbols
  | step {p : Nat} {production : Production} {rest : List Nat} {before result : List Symbol}
      {after : List Kind} (hp : g.productions[p]? = some production)
      (h : Rightmost g rest (before ++ (production.rhs ++ after.map .terminal)) result) :
      Rightmost g (p :: rest) (before ++ .nonterminal production.lhs :: after.map .terminal) result

/-- Terminals on the right do not disturb a rightmost derivation. -/
theorem Rightmost.append_terminal {g : Grammar} {ps : List Nat} {symbols result : List Symbol}
    (h : g.Rightmost ps symbols result) (kind : Kind) :
    g.Rightmost ps (symbols ++ [.terminal kind]) (result ++ [.terminal kind]) := by
  induction h with
  | refl => exact .refl
  | @step p production rest before result after hp _ ih =>
    have hrest : g.Rightmost rest (before ++ (production.rhs ++ (after ++ [kind]).map .terminal))
        (result ++ [.terminal kind]) := by
      simpa using ih
    simpa using Rightmost.step hp hrest

end Grammar

namespace Table

open Item (Begins)

variable {g : Grammar} {path : List (Symbol × Nat)} {state : Nat} {kind : Kind}

theorem states_eq_cons (path : List (Symbol × Nat)) :
    ∃ below, path.map Prod.snd ++ [0] = topOf path :: below := by
  cases path with
  | nil => exact ⟨[], rfl⟩
  | cons first rest => exact ⟨rest.map Prod.snd ++ [0], rfl⟩

/-- The stack of a run is a path, whose symbols derive what has been read by the productions of the
reductions, the last one first. -/
theorem Runs.rightmost (hg : g.WellFormed) {word : List Kind} {reductions : List Nat}
    {c : Configuration} (h : (ofGrammar g).Runs ⟨[0], word⟩ reductions c) :
    ∃ path read, (ofGrammar g).Path path ∧ c.stack = path.map Prod.snd ++ [0] ∧
      word = read ++ c.input ∧
      g.Rightmost reductions.reverse (path.map Prod.fst).reverse (read.map .terminal) := by
  induction h with
  | refl => exact ⟨[], [], .nil, rfl, rfl, .refl⟩
  | @shift reductions state next stack kind input _ haction ih =>
    obtain ⟨path, read, hpath, hstack, hword, hderives⟩ := ih
    obtain ⟨below, hbelow⟩ := states_eq_cons path
    obtain ⟨rfl, -⟩ := List.cons.inj (hstack.trans hbelow)
    refine ⟨(.terminal kind, next) :: path, read ++ [kind], .cons hpath (.shift haction), ?_, ?_, ?_⟩
    · simpa using hstack
    · simpa using hword
    · simpa using hderives.append_terminal kind
  | @reduce reductions state base next p stack below kind input production _ haction hp hbase hgoto
      ih =>
    obtain ⟨path, read, hpath, hstack, hword, hderives⟩ := ih
    obtain ⟨lower, hlower⟩ := states_eq_cons path
    obtain ⟨rfl, -⟩ := List.cons.inj (hstack.trans hlower)
    -- The path ends with the right-hand side, which the reduction takes away.
    obtain ⟨-, production', taken, rest, -, hp', rfl, hsymbols, -⟩ := hpath.reduce hg haction
    obtain rfl : production = production' := Option.some.inj (hp.symm.trans hp')
    have hlength : production.rhs.length = taken.length := by simp [← hsymbols]
    have hdrop : base :: below = rest.map Prod.snd ++ [0] := by
      rw [← hbase, hlength]
      exact (congrArg (List.drop taken.length) hstack).trans (by simp)
    obtain ⟨below', hbelow'⟩ := states_eq_cons rest
    obtain ⟨rfl, -⟩ := List.cons.inj (hdrop.trans hbelow')
    refine ⟨(.nonterminal production.lhs, next) :: rest, read, .cons hpath.of_append (.goto hgoto),
      ?_, hword, ?_⟩
    · simpa using hdrop
    · have hbefore : g.Rightmost reductions.reverse
          ((rest.map Prod.fst).reverse ++ (production.rhs ++ ([] : List Kind).map .terminal))
          (read.map .terminal) := by
        simpa [← hsymbols] using hderives
      simpa using Grammar.Rightmost.step hp' hbefore

/-- The start rule is begun only in the first state. -/
theorem Path.eq_nil_of_begins_accept (hg : g.WellFormed) (h : (ofGrammar g).Path path)
    (hbegins : Begins g (g.core (topOf path)) (Item.opening Grammar.acceptProduction)) :
    path = [] := by
  cases h with
  | nil => rfl
  | cons h hmove =>
    generalize hitem : Item.opening Grammar.acceptProduction = item at hbegins
    cases hbegins with
    | kernel hmem =>
      -- Of the items in the kernel of a later state something has been read.
      obtain ⟨before, rfl, -⟩ := hmove.leads.2 item hmem
      have hmark := congrArg Item.mark hitem
      simp [Item.opening, Item.advance] at hmark
    | @opening item p after production _ hp hrest =>
      obtain rfl : Grammar.acceptProduction = p := congrArg Item.production hitem
      obtain ⟨root, -, -, haccept⟩ := hg.accept
      obtain rfl := Option.some.inj (haccept.symm.trans hp)
      obtain ⟨other, hother, hmem, -⟩ := Grammar.exists_of_rest_eq_cons hrest
      exact absurd rfl (hg.ne_start_of_mem_rhs hother hmem)

/-- Where a run accepts, its path is the start rule alone. -/
theorem Path.of_accept (hg : g.WellFormed) {index : Nat}
    (haccept : g.productions[Grammar.acceptProduction]? =
      some ⟨Grammar.start, [.nonterminal index], 0, .none⟩)
    (h : (ofGrammar g).Path path) (haction : .accept ∈ (ofGrammar g).actions (topOf path) kind) :
    kind = .eof ∧ (path.map Prod.fst).reverse = [.nonterminal index] := by
  obtain ⟨hkind, mark, hcomplete, hbegins⟩ := complete_of_accept haction
  obtain ⟨taken, rest, rfl, hlength, hsymbols, hopening⟩ := h.back haccept hbegins
  have hmark : 1 ≤ mark := by simpa [Item.rest, haccept] using hcomplete
  have hrest := h.of_append.eq_nil_of_begins_accept hg hopening
  refine ⟨hkind, ?_⟩
  rw [hrest, List.append_nil, hsymbols]
  exact List.take_of_length_le hmark

/-- An accepted word is derived by the reductions of the run in reverse order. -/
theorem Runs.rightmost_of_accepts (hg : g.WellFormed) {index : Nat}
    (haccept : g.productions[Grammar.acceptProduction]? =
      some ⟨Grammar.start, [.nonterminal index], 0, .none⟩)
    {word : List Kind} {reductions : List Nat} {c : Configuration}
    (h : (ofGrammar g).Runs ⟨[0], word⟩ reductions c) (haccepts : c.Accepts (ofGrammar g)) :
    ∃ read rest, word = read ++ .eof :: rest ∧ c.input = .eof :: rest ∧
      g.Rightmost reductions.reverse [.nonterminal index] (read.map .terminal) := by
  obtain ⟨path, read, hpath, hstack, hword, hderives⟩ := h.rightmost hg
  cases haccepts with
  | @mk state stack kind input haction =>
    obtain ⟨below, hbelow⟩ := states_eq_cons path
    obtain ⟨rfl, -⟩ := List.cons.inj (hstack.trans hbelow)
    obtain ⟨rfl, hsymbols⟩ := hpath.of_accept hg haccept haction
    rw [hsymbols] at hderives
    exact ⟨read, input, hword, rfl, hderives⟩

end Table

/-! ## Words of the language -/

namespace Grammar

/-- The words of a sequence of symbols: a terminal stands for itself, a nonterminal for the words of
one of its right-hand sides. -/
inductive Spells (g : Grammar) : List Symbol → List Kind → Prop where
  | nil : Spells g [] []
  | terminal {kind : Kind} {symbols : List Symbol} {word : List Kind} (h : Spells g symbols word) :
      Spells g (.terminal kind :: symbols) (kind :: word)
  | nonterminal {p : Nat} {production : Production} {symbols : List Symbol} {front word : List Kind}
      (hp : g.productions[p]? = some production) (hrhs : Spells g production.rhs front)
      (h : Spells g symbols word) :
      Spells g (.nonterminal production.lhs :: symbols) (front ++ word)

variable {g : Grammar} {symbols others : List Symbol} {word : List Kind}

theorem Spells.append {front : List Kind} (h : g.Spells symbols front) (h' : g.Spells others word) :
    g.Spells (symbols ++ others) (front ++ word) := by
  induction h with
  | nil => exact h'
  | terminal _ ih => exact .terminal ih
  | nonterminal hp hrhs _ _ ih =>
    rw [List.append_assoc]
    exact .nonterminal hp hrhs ih

theorem Spells.exists_of_append (h : g.Spells (symbols ++ others) word) :
    ∃ front back, word = front ++ back ∧ g.Spells symbols front ∧ g.Spells others back := by
  induction symbols generalizing word with
  | nil => exact ⟨[], word, rfl, .nil, h⟩
  | cons symbol symbols ih =>
    cases h with
    | terminal h =>
      obtain ⟨front, back, rfl, hfront, hback⟩ := ih h
      exact ⟨_ :: front, back, rfl, .terminal hfront, hback⟩
    | nonterminal hp hrhs h =>
      obtain ⟨front, back, rfl, hfront, hback⟩ := ih h
      exact ⟨_ ++ front, back, (List.append_assoc _ _ _).symm, .nonterminal hp hrhs hfront, hback⟩

theorem spells_terminals (word : List Kind) : g.Spells (word.map .terminal) word := by
  induction word with
  | nil => exact .nil
  | cons kind word ih => exact .terminal ih

/-- A derivation of a word has a tree. -/
theorem Yields.spells (h : g.Yields symbols (word.map .terminal)) : g.Spells symbols word := by
  induction h using Relation.ReflTransGen.head_induction_on with
  | refl => exact spells_terminals word
  | head hstep _ ih =>
    cases hstep with
    | mk before after hp =>
      obtain ⟨front, rest, rfl, hbefore, hrest⟩ := ih.exists_of_append
      obtain ⟨middle, back, rfl, hrhs, hafter⟩ := hrest.exists_of_append
      exact hbefore.append (.nonterminal hp hrhs hafter)

theorem Spells.yields (h : g.Spells symbols word) : g.Yields symbols (word.map .terminal) := by
  induction h with
  | nil => exact .refl
  | @terminal kind symbols word _ ih => exact Yields.append (a := [.terminal kind]) .refl ih
  | @nonterminal p production symbols front word hp _ _ ihrhs ih =>
    have hfirst := (yields_of_production hp).trans ihrhs
    rw [List.map_append]
    exact Yields.append hfirst ih

/-- Words over proper symbols hold nothing but tokens. -/
theorem Spells.isToken (hg : g.WellFormed) (h : g.Spells symbols word)
    (hsymbols : ∀ symbol ∈ symbols, symbol.Proper g.nonterminals.size) :
    ∀ kind ∈ word, kind.isToken = true := by
  induction h with
  | nil => simp
  | terminal _ ih =>
    have hrest := ih fun s hs => hsymbols s (List.mem_cons_of_mem _ hs)
    have hfirst := hsymbols _ List.mem_cons_self
    intro k hk
    rcases List.mem_cons.1 hk with rfl | hk
    · exact hfirst
    · exact hrest k hk
  | nonterminal hp _ _ ihrhs ih =>
    intro k hk
    rcases List.mem_append.1 hk with hk | hk
    · exact ihrhs (fun s hs => hg.rhs_proper hp hs) k hk
    · exact ih (fun s hs => hsymbols s (List.mem_cons_of_mem _ hs)) k hk

theorem Rightmost.yields {ps : List Nat} {result : List Symbol} (h : g.Rightmost ps symbols result) :
    g.Yields symbols result := by
  induction h with
  | refl => exact .refl
  | step hp _ ih => exact Relation.ReflTransGen.head (.mk _ _ hp) ih

/-- The end of the input is in no rule. -/
def EndsOutside (g : Grammar) : Prop :=
  ∀ (p : Nat) (production : Production), g.productions[p]? = some production →
    .terminal .eof ∉ production.rhs

theorem Spells.ne_eof (heof : g.EndsOutside) (h : g.Spells symbols word)
    (hsymbols : .terminal .eof ∉ symbols) : .eof ∉ word := by
  induction h with
  | nil => simp
  | terminal _ ih =>
    simp only [List.mem_cons, not_or] at hsymbols ⊢
    exact ⟨fun h => hsymbols.1 (h ▸ rfl), ih hsymbols.2⟩
  | nonterminal hp _ _ ihrhs ih =>
    simp only [List.mem_append, List.mem_cons, not_or] at hsymbols ⊢
    exact ⟨ihrhs (heof _ _ hp), ih hsymbols.2⟩

end Grammar

/-! ## Cells without binding strengths -/

/-- No production has a binding strength. -/
def Grammar.Plain (g : Grammar) : Prop :=
  ∀ (p : Nat) (production : Production), g.productions[p]? = some production →
    production.prec = 0 ∧ production.assoc = .none

namespace Table

variable {g : Grammar} {state next : Nat} {kind : Kind}

theorem precOf_of_plain (hplain : g.Plain) (p : Nat) : precOf g p = 0 := by
  unfold precOf
  cases hp : g.productions[p]? with
  | none => rfl
  | some production => exact (hplain p production hp).1

theorem assocOf_of_plain (hplain : g.Plain) (p : Nat) : assocOf g p = .none := by
  unfold assocOf
  cases hp : g.productions[p]? with
  | none => rfl
  | some production => exact (hplain p production hp).2

theorem strongest_of_plain (hplain : g.Plain) (reductions : List Nat) :
    strongest g reductions = reductions := by
  unfold strongest
  split
  · rename_i best hbest
    obtain ⟨p, -, rfl⟩ := List.mem_map.1 (List.max?_mem hbest)
    rw [List.filter_eq_self]
    intro q _
    rw [precOf_of_plain hplain, precOf_of_plain hplain]
    rfl
  · rename_i hnone
    rw [List.max?_eq_none_iff, List.map_eq_nil_iff] at hnone
    exact hnone.symm

/-- Without binding strengths, the shift and all reductions stay in the table. -/
theorem resolve_of_plain (hplain : g.Plain) (shift : Option Nat) (reductions : List Nat) :
    resolve g (shift.map fun state => (state, 0)) reductions =
      shift.toList.map Action.shift ++ reductions.map Action.reduce := by
  cases shift with
  | none => simp [resolve, strongest_of_plain hplain]
  | some state =>
    cases reductions with
    | nil => simp [resolve, strongest_of_plain hplain]
    | cons first rest =>
      simp [resolve, strongest_of_plain hplain, precOf_of_plain hplain, assocOf_of_plain hplain]

theorem shiftStrength?_of_plain (hplain : g.Plain) (items : Kernel) (kind : Kind) :
    (Row.shiftStrength? g items kind).getD 0 = 0 := by
  cases hstrength : Row.shiftStrength? g items kind with
  | none => rfl
  | some strength =>
    obtain ⟨⟨item, lookahead⟩, -, hitem⟩ := List.mem_filterMap.1 (List.max?_mem hstrength)
    dsimp only at hitem
    split at hitem
    · obtain ⟨-, heq⟩ := Option.ite_none_right_eq_some.1 hitem
      rw [Option.getD_some, ← Option.some.inj heq, precOf_of_plain hplain]
    · cases hitem

theorem getElem?_terminals_of_isToken (h : kind.isToken = true) :
    Kind.terminals[kind.id]? = some kind := by
  have hid : Kind.all[kind.id]? = some kind := Kind.ofId?_id kind
  have hlt : kind.id < Kind.terminalCount := by simpa [Kind.isToken] using h
  rw [Kind.terminals, List.getElem?_take_of_lt hlt, hid]

/-- A cell of the table, without binding strengths. -/
theorem actions_of_plain (hplain : g.Plain)
    (hstate : state < (Automaton.build (Closure.Setting.ofGrammar g)).kernels.size)
    (hkind : kind.isToken = true) {complete : List (Nat × TerminalSet)}
    (hcomplete : complete = Row.complete g (Closure.ofKernel (Closure.Setting.ofGrammar g)
      ((Automaton.build (Closure.Setting.ofGrammar g)).kernel state))) :
    (ofGrammar g).actions state kind =
      if complete.any (fun (p, _) => p == Grammar.acceptProduction) && kind == .eof then [.accept]
      else
        (((Automaton.build (Closure.Setting.ofGrammar g)).edges state).lookup
            (.terminal kind)).toList.map .shift ++
          ((complete.filter fun (p, _) => p != Grammar.acceptProduction).filterMap
            fun (p, lookahead) => if lookahead.contains kind then some p else none).map .reduce := by
  rw [actions, rows_ofGrammar hstate, ← resolve_of_plain hplain]
  simp only [Row.ofItems, Array.getD_eq_getD_getElem?, List.getElem?_toArray, List.getElem?_map,
    getElem?_terminals_of_isToken hkind, Option.map_some, Option.getD_some,
    shiftStrength?_of_plain hplain, hcomplete]

end Table

/-! ## Following a derivation tree -/

namespace Grammar

open Table (Configuration Runs ofGrammar)

variable {g : Grammar} {state : Nat} {item : Item} {kind : Kind} {symbols : List Symbol}
  {word : List Kind}

/-- A terminal may follow the production of an item that is under way in a state of the table. -/
def FollowsAt (g : Grammar) (state : Nat) (item : Item) (kind : Kind) : Prop :=
  state < (Automaton.build (Closure.Setting.ofGrammar g)).kernels.size ∧
    g.Follows ((Automaton.build (Closure.Setting.ofGrammar g)).kernel state).items
      ((Automaton.build (Closure.Setting.ofGrammar g)).kernel state).follow item kind

theorem FollowsAt.closed (h : g.FollowsAt state item kind) :
    g.Closed ((Automaton.build (Closure.Setting.ofGrammar g)).kernel state).items item :=
  h.2.closed fun _ hentry => Kernel.mem_items_of_mem_follow hentry

theorem followsAt_start (hg : g.WellFormed) :
    g.FollowsAt 0 (Item.opening acceptProduction) .eof := by
  obtain ⟨hpos, -, hmem⟩ := (Automaton.saturated_build hg).1.start
  exact ⟨hpos, .kernel hmem⟩

/-- A symbol that an item asks for leads to a state where it has been read, and what follows the item
has come along. -/
theorem FollowsAt.advance (hg : g.WellFormed) (h : g.FollowsAt state item kind) {symbol : Symbol}
    {after : List Symbol} (hrest : item.rest g = symbol :: after) :
    ∃ next, ((Automaton.build (Closure.Setting.ofGrammar g)).edges state).lookup symbol =
      some next ∧ g.FollowsAt next item.advance kind := by
  have hcoherent := (Automaton.saturated_build hg).1.coherent
  have hdone := Automaton.upToDate_build hg h.1
  have hsymbol : (item.rest g).head? = some symbol := by rw [hrest]; rfl
  have hsome : (g.goto ((Automaton.build (Closure.Setting.ofGrammar g)).kernel state).items
      symbol).Nonempty := ⟨item.advance, item, h.closed, hsymbol, rfl⟩
  obtain ⟨next, hedge, hfollow⟩ := hdone.exists_edge hg hcoherent h.1 hsome
  obtain ⟨hnext, hitems⟩ := hdone.items_of_mem hg hcoherent h.1 hedge
  refine ⟨next, (Automaton.lookup_edges_iff hg hcoherent hdone h.1 next).2 ⟨hnext, hitems⟩, hnext,
    .kernel (hfollow ?_)⟩
  exact ⟨item, h.2, hsymbol, rfl⟩

/-- A nonterminal that an item asks for is followed by what comes next in the word. -/
theorem FollowsAt.opening (h : g.FollowsAt state item kind) {p : Nat} {production : Production}
    (hp : g.productions[p]? = some production)
    (hrest : item.rest g = .nonterminal production.lhs :: symbols) (hword : g.Spells symbols word)
    {next : Kind} {input rest : List Kind} (hnext : word ++ kind :: input = next :: rest) :
    g.FollowsAt state (Item.opening p) next := by
  refine ⟨h.1, ?_⟩
  have hyields := hword.yields
  cases word with
  | nil =>
    obtain ⟨rfl, -⟩ := List.cons.inj hnext
    exact .vanishes h.2 hp hrest hyields
  | cons first word =>
    obtain ⟨rfl, -⟩ := List.cons.inj hnext
    exact .begins h.closed hp hrest ⟨_, hyields⟩

/-- A complete item is listed with its lookahead. -/
theorem FollowsAt.mem_complete (hg : g.WellFormed) (h : g.FollowsAt state item kind)
    (hrest : item.rest g = []) :
    ∃ lookahead, lookahead.contains kind = true ∧
      (item.production, lookahead) ∈ Row.complete g (Closure.ofKernel (Closure.Setting.ofGrammar g)
        ((Automaton.build (Closure.Setting.ofGrammar g)).kernel state)) := by
  have hproper := ((Automaton.saturated_build hg).1.coherent.genuine state h.1).toProper
  have hmem : (item, kind) ∈ (Closure.ofKernel (Closure.Setting.ofGrammar g)
      ((Automaton.build (Closure.Setting.ofGrammar g)).kernel state)).follow := by
    rw [Closure.follow_ofKernel hg hproper]
    exact h.2
  obtain ⟨lookahead, hmem, hcontains⟩ := hmem
  refine ⟨lookahead, hcontains, List.mem_map.2 ⟨(item, lookahead), ?_, rfl⟩⟩
  rw [(Kernel.sort_perm _).mem_iff, List.mem_filter]
  exact ⟨hmem, by simp [hrest]⟩

/-- Where the start rule is complete, the table accepts. -/
theorem FollowsAt.accept (hg : g.WellFormed) (hplain : g.Plain) {mark : Nat}
    (h : g.FollowsAt state ⟨acceptProduction, mark⟩ .eof)
    (hrest : Item.rest g ⟨acceptProduction, mark⟩ = []) :
    .accept ∈ (ofGrammar g).actions state .eof := by
  obtain ⟨lookahead, -, hmem⟩ := h.mem_complete hg hrest
  have haccepts : ((Row.complete g (Closure.ofKernel (Closure.Setting.ofGrammar g)
      ((Automaton.build (Closure.Setting.ofGrammar g)).kernel state))).any
      fun (p, _) => p == acceptProduction) = true :=
    List.any_eq_true.2 ⟨_, hmem, by simp⟩
  rw [Table.actions_of_plain hplain h.1 (by decide) rfl, haccepts]
  simp

/-- Where another production is complete, the table reduces by it in front of what follows it, unless
it accepts there. -/
theorem FollowsAt.reduce (hg : g.WellFormed) (hplain : g.Plain) (h : g.FollowsAt state item kind)
    (hkind : kind.isToken = true) (hrest : item.rest g = [])
    (hne : item.production ≠ acceptProduction) :
    .reduce item.production ∈ (ofGrammar g).actions state kind ∨
      kind = .eof ∧ .accept ∈ (ofGrammar g).actions state kind := by
  obtain ⟨lookahead, hcontains, hmem⟩ := h.mem_complete hg hrest
  rw [Table.actions_of_plain hplain h.1 hkind rfl]
  split
  · rename_i haccepts
    simp only [Bool.and_eq_true, beq_iff_eq] at haccepts
    exact Or.inr ⟨haccepts.2, List.mem_cons_self⟩
  · refine Or.inl (List.mem_append_right _ (List.mem_map_of_mem (List.mem_filterMap.2
      ⟨(item.production, lookahead), List.mem_filter.2 ⟨hmem, by simpa using hne⟩, ?_⟩)))
    simp [hcontains]

/-- A terminal that an item asks for is shifted. -/
theorem FollowsAt.shift (hg : g.WellFormed) (hplain : g.Plain) (h : g.FollowsAt state item kind)
    {next : Kind} (hnext : next ≠ .eof) (hrest : item.rest g = .terminal next :: symbols) :
    ∃ target, .shift target ∈ (ofGrammar g).actions state next ∧
      g.FollowsAt target item.advance kind := by
  obtain ⟨target, hlookup, hfollows⟩ := h.advance hg hrest
  obtain ⟨production, hp, hmem, -⟩ := exists_of_rest_eq_cons hrest
  refine ⟨target, ?_, hfollows⟩
  rw [Table.actions_of_plain hplain h.1 (hg.isToken_of_mem_rhs hp hmem) rfl, hlookup]
  simp [hnext]

theorem rest_advance {symbol : Symbol} (hrest : item.rest g = symbol :: symbols) :
    item.advance.rest g = symbols := by
  unfold Item.rest at hrest ⊢
  split at hrest
  · rename_i production hp
    simp only [Item.advance, hp]
    rw [← List.tail_drop, hrest]
    rfl
  · cases hrest

/-- Either the stack has grown by the symbols of an item, or the run has come to accept before. -/
inductive Reads (g : Grammar) (c : Configuration) (item : Item) (symbols : List Symbol) (kind : Kind)
    (input : List Kind) : Prop where
  | reads {reductions : List Nat} {top : Nat} {below : List Nat}
      (hruns : (ofGrammar g).Runs c reductions ⟨top :: below, kind :: input⟩)
      (hdrop : (top :: below).drop symbols.length = c.stack)
      (hfollows : g.FollowsAt top ⟨item.production, item.mark + symbols.length⟩ kind) :
      Reads g c item symbols kind input
  | accepts {reductions : List Nat} {stack : List Nat}
      (hruns : (ofGrammar g).Runs c reductions ⟨stack, [.eof]⟩)
      (haccepts : Configuration.Accepts (ofGrammar g) ⟨stack, [.eof]⟩) :
      Reads g c item symbols kind input

/-- Reading goes on after the first symbol of an item. -/
theorem Reads.cons {symbol : Symbol} {input rest : List Kind} {reductions : List Nat} {next : Nat}
    {c : Configuration}
    (h : g.Reads ⟨next :: c.stack, rest⟩ item.advance symbols kind input)
    (hruns : (ofGrammar g).Runs c reductions ⟨next :: c.stack, rest⟩) :
    g.Reads c item (symbol :: symbols) kind input := by
  cases h with
  | @reads more top below hmore hdrop hfollows =>
    refine .reads (hruns.trans hmore) ?_ ?_
    · rw [List.length_cons, ← List.tail_drop, hdrop]
      rfl
    · have hmark : item.advance.mark + symbols.length = item.mark + (symbol :: symbols).length := by
        simp only [Item.advance, List.length_cons]
        omega
      rw [← hmark]
      exact hfollows
  | accepts hmore haccepts => exact .accepts (hruns.trans hmore) haccepts

/-- A run follows the derivation tree of a word. The induction is on the tree; in front of every
terminal and behind every right-hand side the lookaheads of the automaton allow the step. -/
theorem Spells.runs (hg : g.WellFormed) (hplain : g.Plain) (h : g.Spells symbols word)
    {state : Nat} {item : Item} {kind : Kind} (stack : List Nat) {input : List Kind}
    (hfollows : g.FollowsAt state item kind) (hrest : item.rest g = symbols)
    (hword : .eof ∉ word) (hkind : kind.isToken = true) (hend : kind = .eof → input = []) :
    g.Reads ⟨state :: stack, word ++ kind :: input⟩ item symbols kind input := by
  induction h generalizing state item kind stack input with
  | nil => exact .reads .refl rfl hfollows
  | @terminal first symbols word h ih =>
    simp only [List.mem_cons, not_or] at hword
    obtain ⟨target, haction, hnext⟩ := hfollows.shift hg hplain (Ne.symm hword.1) hrest
    have hreads := ih (state :: stack) hnext (rest_advance hrest) hword.2 hkind hend
    exact hreads.cons (.shift .refl haction)
  | @nonterminal p production symbols front word hp hrhs h ihrhs ih =>
    simp only [List.mem_append, not_or] at hword
    obtain ⟨other, hother, hmem, hsub⟩ := exists_of_rest_eq_cons hrest
    have hproper : ∀ symbol ∈ symbols, symbol.Proper g.nonterminals.size :=
      fun symbol hsymbol => hg.rhs_proper hother (hsub symbol hsymbol)
    -- The terminal in front of which the right-hand side ends.
    obtain ⟨next, rest, hsplit⟩ : ∃ next rest, word ++ kind :: input = next :: rest := by
      cases word <;> exact ⟨_, _, rfl⟩
    have hnext : next.isToken = true ∧ (next = .eof → rest = []) := by
      cases word with
      | nil =>
        obtain ⟨rfl, rfl⟩ := List.cons.inj hsplit
        exact ⟨hkind, hend⟩
      | cons first word =>
        obtain ⟨rfl, -⟩ := List.cons.inj hsplit
        exact ⟨h.isToken hg hproper first List.mem_cons_self,
          fun heq => absurd (heq ▸ List.mem_cons_self) hword.2⟩
    have hopening := hfollows.opening hp hrest h hsplit
    have hrule : (Item.opening p).rest g = production.rhs := by
      simp [Item.rest, Item.opening, hp]
    have hfront := ihrhs stack hopening hrule hword.1 hnext.1 hnext.2
    rw [List.append_assoc, hsplit]
    cases hfront with
    | accepts hruns haccepts => exact .accepts hruns haccepts
    | @reads reductions top below hruns hdrop hcomplete =>
      have hne : p ≠ acceptProduction := by
        rintro rfl
        obtain ⟨root, -, -, haccept⟩ := hg.accept
        obtain rfl := Option.some.inj (haccept.symm.trans hp)
        exact hg.ne_start_of_mem_rhs hother hmem rfl
      have hdone : Item.rest g ⟨p, (Item.opening p).mark + production.rhs.length⟩ = [] := by
        simp [Item.rest, Item.opening, hp]
      rcases hcomplete.reduce hg hplain hnext.1 hdone hne with haction | ⟨rfl, haccept⟩
      · obtain ⟨target, hlookup, hadvanced⟩ := hfollows.advance hg hrest
        rw [← Table.goto?_ofGrammar hfollows.1 (hg.lhs_lt hp)] at hlookup
        have hreads := ih (state :: stack) hadvanced (rest_advance hrest) hword.2 hkind hend
        rw [hsplit] at hreads
        exact hreads.cons (.reduce hruns haction hp hdrop hlookup)
      · -- The end of the input is accepted whatever else is complete.
        obtain rfl := hnext.2 rfl
        exact .accepts hruns (.mk haccept)

/-- Every word of the language is accepted. -/
theorem Spells.accepts (hg : g.WellFormed) (hplain : g.Plain) (heof : g.EndsOutside) {index : Nat}
    (haccept : g.productions[acceptProduction]? = some ⟨start, [.nonterminal index], 0, .none⟩)
    (h : g.Spells [.nonterminal index] word) :
    ∃ reductions c, (ofGrammar g).Runs ⟨[0], word ++ [.eof]⟩ reductions c ∧ c.input = [.eof] ∧
      c.Accepts (ofGrammar g) := by
  have hrest : (Item.opening acceptProduction).rest g = [.nonterminal index] := by
    simp [Item.rest, Item.opening, haccept]
  have hword : .eof ∉ word := h.ne_eof heof (by simp)
  cases h.runs hg hplain [] (followsAt_start hg) hrest hword (by decide) (fun _ => rfl) with
  | accepts hruns haccepts => exact ⟨_, _, hruns, rfl, haccepts⟩
  | reads hruns _ hfollows =>
    refine ⟨_, _, hruns, rfl, .mk (hfollows.accept hg hplain ?_)⟩
    simp [Item.rest, Item.opening, haccept]

end Grammar

/-! ## The language of the table -/

namespace Table

/-- A word without an end in it ends where its end is read. -/
theorem eq_of_append_eof {word read rest : List Kind} (hword : .eof ∉ word)
    (h : word ++ [.eof] = read ++ .eof :: rest) : read = word := by
  rcases List.append_eq_append_iff.1 h with ⟨more, rfl, hmore⟩ | ⟨more, rfl, hmore⟩
  · cases more with
    | nil => simp
    | cons kind more => simp at hmore
  · cases more with
    | nil => simp
    | cons kind more =>
      obtain ⟨rfl, -⟩ := List.cons.inj hmore
      exact absurd (List.mem_append_right _ List.mem_cons_self) hword

/-- The table of a grammar made from rules recognises the language of its root rule, if the end of the
input is in no rule. Whatever run accepts, its reductions in reverse order are a rightmost derivation of
what is read before the first end, which is the whole word unless the word itself holds one. If no
production has a binding strength, every word that is derived from the root rule is accepted by some
run. -/
theorem recognizes {definitions : List Definition} {root : String} {g : Grammar}
    (h : Grammar.ofRules definitions root = .ok g) (heof : g.EndsOutside) :
    ∃ index, Draft.resolve (definitions.map Definition.name) (.hidden root) = .ok index ∧
      (∀ word reductions c, (ofGrammar g).Runs ⟨[0], word ++ [.eof]⟩ reductions c →
        c.Accepts (ofGrammar g) → ∃ read rest, word ++ [.eof] = read ++ .eof :: rest ∧
          .eof ∉ read ∧ c.input = .eof :: rest ∧
          g.Rightmost reductions.reverse [.nonterminal index] (read.map .terminal) ∧
          (.eof ∉ word → read = word)) ∧
      (g.Plain → ∀ word : List Kind, g.Yields [.nonterminal index] (word.map .terminal) →
        ∃ reductions c, (ofGrammar g).Runs ⟨[0], word ++ [.eof]⟩ reductions c ∧
          c.input = [.eof] ∧ c.Accepts (ofGrammar g)) := by
  have hg := Grammar.wellFormed_ofRules h
  obtain ⟨index, hroot, haccept⟩ := Grammar.accept_ofRules h
  refine ⟨index, hroot, ?_, ?_⟩
  · intro word reductions c hruns haccepts
    obtain ⟨read, rest, hword, hinput, hderives⟩ := hruns.rightmost_of_accepts hg haccept haccepts
    have hread : .eof ∉ read := hderives.yields.spells.ne_eof heof (by simp)
    exact ⟨read, rest, hword, hread, hinput, hderives, fun hnot => eq_of_append_eof hnot hword⟩
  · intro hplain word hyields
    exact hyields.spells.accepts hg hplain heof haccept

/-- Sums: the word with one plus is accepted, and every run that accepts it derives it. -/
theorem recognizes_sum :
    ∃ g, Grammar.ofRules [.hidden "sum" (.alt (.seq [.hidden "sum", .token .plus, .token .ident])
        (.token .ident))] "sum" = .ok g ∧
      ∃ reductions c, (ofGrammar g).Runs ⟨[0], [.ident, .plus, .ident, .eof]⟩ reductions c ∧
        c.Accepts (ofGrammar g) ∧
        g.Rightmost reductions.reverse [.nonterminal 1]
          [.terminal .ident, .terminal .plus, .terminal .ident] := by
  obtain ⟨g, h, hproductions⟩ : ∃ g, Grammar.ofRules [.hidden "sum" (.alt (.seq [.hidden "sum",
      .token .plus, .token .ident]) (.token .ident))] "sum" = .ok g ∧
      g.productions = #[⟨0, [.nonterminal 1], 0, .none⟩,
        ⟨1, [.nonterminal 1, .terminal .plus, .terminal .ident], 0, .none⟩,
        ⟨1, [.terminal .ident], 0, .none⟩] := ⟨_, rfl, rfl⟩
  have hall : ∀ production ∈ g.productions.toList, .terminal .eof ∉ production.rhs ∧
      production.prec = 0 ∧ production.assoc = .none := by
    rw [hproductions]
    decide
  have hmem {p : Nat} {production : Production} (hp : g.productions[p]? = some production) :
      production ∈ g.productions.toList := Array.mem_toList_iff.2 (Array.mem_of_getElem? hp)
  obtain ⟨index, hindex, hsound, hcomplete⟩ := recognizes h fun p production hp =>
    (hall production (hmem hp)).1
  obtain rfl : 1 = index := Except.ok.inj hindex
  have hspells : g.Spells [.nonterminal 1] [.ident, .plus, .ident] := by
    have hident : g.productions[2]? = some ⟨1, [.terminal .ident], 0, .none⟩ := by
      rw [hproductions]
      rfl
    have hplus : g.productions[1]? =
        some ⟨1, [.nonterminal 1, .terminal .plus, .terminal .ident], 0, .none⟩ := by
      rw [hproductions]
      rfl
    have hone : g.Spells [.nonterminal 1] [.ident] := .nonterminal hident (.terminal .nil) .nil
    exact .nonterminal hplus (hone.append (.terminal (.terminal .nil))) .nil
  obtain ⟨reductions, c, hruns, -, haccepts⟩ := hcomplete
    (fun p production hp => (hall production (hmem hp)).2) _ hspells.yields
  obtain ⟨read, -, -, -, -, hderives, hread⟩ := hsound _ reductions c hruns haccepts
  rw [hread (by decide)] at hderives
  exact ⟨g, h, reductions, c, hruns, haccepts, hderives⟩

end Table
end SqlTree
