import SqlTree.Proofs.Lalr

/-!
# Paths through the table

A stack of states is a path: every state is reached from the one below it by a shift or a goto. Where
the table reduces at the end of a path, the path ends with the right-hand side, and there is a goto
from what lies below it.

- `Table.Moves` : from state to state by a shift or a goto
- `Table.Path`  : the paths from the first state
- `Table.Path.back` : an item tells which symbols were read last
- `Table.goto?_ofGrammar` : the gotos of a table are the edges of the automaton
- `Table.Path.reduce` : a reduction finds its right-hand side and its goto
-/

namespace SqlTree
namespace Table

open Item (Begins Leads)

/-- A shift or a goto of the table leads from a state to another one. -/
inductive Moves (t : Table) (state : Nat) : Symbol → Nat → Prop where
  | shift {kind : Kind} {next : Nat} (h : .shift next ∈ t.actions state kind) :
      Moves t state (.terminal kind) next
  | goto {i next : Nat} (h : t.goto? state i = some next) : Moves t state (.nonterminal i) next

/-- The last state of a path, which is the first one if there are no others. -/
def topOf : List (Symbol × Nat) → Nat
  | [] => 0
  | (_, state) :: _ => state

/-- The symbols read from the first state on with the states after them, the last one first. -/
inductive Path (t : Table) : List (Symbol × Nat) → Prop where
  | nil : Path t []
  | cons {path : List (Symbol × Nat)} {symbol : Symbol} {next : Nat} (h : Path t path)
      (hmove : t.Moves (topOf path) symbol next) : Path t ((symbol, next) :: path)

variable {t : Table} {g : Grammar} {path : List (Symbol × Nat)} {state next p mark : Nat}
  {symbol : Symbol} {production : Production}

theorem Path.of_append {taken rest : List (Symbol × Nat)} (h : t.Path (taken ++ rest)) :
    t.Path rest := by
  induction taken with
  | nil => exact h
  | cons first taken ih =>
    cases h with
    | cons h _ => exact ih h

/-! ## Edges -/

/-- A move follows an edge of the automaton. -/
theorem Moves.mem_edges (h : (ofGrammar g).Moves state symbol next) :
    (symbol, next) ∈ (Automaton.build (Closure.Setting.ofGrammar g)).edges state := by
  cases h with
  | shift h =>
    rcases mem_actions h with ⟨target, heq, hedge⟩ | ⟨item, heq, -⟩ | ⟨item, heq, -⟩
    · cases heq
      exact hedge
    · cases heq
    · cases heq
  | @goto i _ h =>
    obtain ⟨row, hrow, h⟩ := Option.bind_eq_some_iff.1 h
    obtain ⟨kernel, -, rfl⟩ := row_ofGrammar hrow
    simp only [Row.ofItems, Array.getD_eq_getD_getElem?, List.getElem?_toArray,
      List.getElem?_map] at h
    cases hi : (List.range g.nonterminals.size)[i]? with
    | none => simp [hi] at h
    | some j =>
      obtain rfl := eq_of_getElem?_range hi
      simp only [hi, Option.map_some, Option.getD_some] at h
      exact mem_of_lookup h

theorem Moves.leads (h : (ofGrammar g).Moves state symbol next) :
    Leads g (g.core state) symbol (g.core next) := leads_of_edge h.mem_edges

/-- All states of a path are states of the automaton. -/
theorem Path.topOf_lt (h : (ofGrammar g).Path path) :
    topOf path < (Automaton.build (Closure.Setting.ofGrammar g)).kernels.size := by
  cases h with
  | nil => exact (Automaton.sound_build g).start.1
  | cons _ hmove => exact ((Automaton.sound_build g).edge _ _ _ hmove.mem_edges).1

/-- An item of which something has been read tells which symbols were read last, and it was begun
before them. -/
theorem Path.back (h : (ofGrammar g).Path path) (hp : g.productions[p]? = some production)
    (hbegins : Begins g (g.core (topOf path)) ⟨p, mark⟩) :
    ∃ taken rest, path = taken ++ rest ∧ taken.length = mark ∧
      (taken.map Prod.fst).reverse = production.rhs.take mark ∧
      Begins g (g.core (topOf rest)) (Item.opening p) := by
  induction mark generalizing path with
  | zero => exact ⟨[], path, rfl, rfl, by simp, hbegins⟩
  | succ mark ih =>
    cases h with
    | nil =>
      -- The first state begins the start rule, of which nothing has been read.
      have hmem := hbegins.mem_of_mark_pos (Nat.succ_pos mark)
      simp [topOf, g.core_zero, Item.opening] at hmem
    | @cons path symbol next h hmove =>
      obtain ⟨hbefore, hsymbol⟩ := hmove.leads.back hp hbegins
      obtain ⟨taken, rest, rfl, hlength, hsymbols, hopening⟩ := ih h hbefore
      refine ⟨(symbol, next) :: taken, rest, rfl, by simp [hlength], ?_, hopening⟩
      rw [List.map_cons, List.reverse_cons, hsymbols, List.take_add_one, hsymbol]
      rfl

/-! ## Gotos -/

theorem closed_iff_begins (g : Grammar) (kernel : Kernel) (item : Item) :
    g.Closed kernel.items item ↔ Begins g kernel.core item := by
  constructor
  · intro h
    induction h with
    | kernel h => exact .kernel h
    | opening _ hp hrest ih => exact .opening ih hp hrest
  · intro h
    induction h with
    | kernel h => exact .kernel h
    | opening _ hp hrest ih => exact .opening ih hp hrest

/-- Where some item asks for a symbol, an edge leads on. -/
theorem exists_lookup_edges (hg : g.WellFormed)
    (hstate : state < (Automaton.build (Closure.Setting.ofGrammar g)).kernels.size) {item : Item}
    (hbegins : Begins g (g.core state) item) (hsymbol : (item.rest g).head? = some symbol) :
    ∃ next, ((Automaton.build (Closure.Setting.ofGrammar g)).edges state).lookup symbol =
      some next := by
  have hcoherent := (Automaton.saturated_build hg).1.coherent
  have hsome : (g.goto ((Automaton.build (Closure.Setting.ofGrammar g)).kernel state).items
      symbol).Nonempty :=
    ⟨item.advance, item, (closed_iff_begins g _ item).2 hbegins, hsymbol, rfl⟩
  obtain ⟨next, hedge, -⟩ := (Automaton.upToDate_build hg hstate).exists_edge hg hcoherent hstate
    hsome
  exact Automaton.exists_lookup_of_mem hedge

theorem rows_ofGrammar (hstate : state < (Automaton.build (Closure.Setting.ofGrammar g)).kernels.size) :
    (ofGrammar g).rows[state]? = some (Row.ofItems g
      ((Automaton.build (Closure.Setting.ofGrammar g)).kernel state)
      (Closure.ofKernel (Closure.Setting.ofGrammar g)
        ((Automaton.build (Closure.Setting.ofGrammar g)).kernel state))
      ((Automaton.build (Closure.Setting.ofGrammar g)).edges state)) := by
  simp [ofGrammar, hstate]

/-- The gotos of the table are the edges of the automaton. -/
theorem goto?_ofGrammar {i : Nat}
    (hstate : state < (Automaton.build (Closure.Setting.ofGrammar g)).kernels.size)
    (hi : i < g.nonterminals.size) : (ofGrammar g).goto? state i =
      ((Automaton.build (Closure.Setting.ofGrammar g)).edges state).lookup (.nonterminal i) := by
  rw [goto?, rows_ofGrammar hstate]
  simp [Row.ofItems, hi]

/-- Where some item asks for a nonterminal, the table leads on. -/
theorem exists_goto? (hg : g.WellFormed)
    (hstate : state < (Automaton.build (Closure.Setting.ofGrammar g)).kernels.size) {item : Item}
    {i : Nat} {after : List Symbol} (hbegins : Begins g (g.core state) item)
    (hrest : item.rest g = .nonterminal i :: after) :
    ∃ next, (ofGrammar g).goto? state i = some next := by
  obtain ⟨other, hother, hmem, -⟩ := Grammar.exists_of_rest_eq_cons hrest
  rw [goto?_ofGrammar hstate (hg.lt_of_mem_rhs hother hmem)]
  exact exists_lookup_edges hg hstate hbegins (by rw [hrest]; rfl)

theorem exists_production_of_begins (hg : g.WellFormed)
    (hstate : state < (Automaton.build (Closure.Setting.ofGrammar g)).kernels.size) {item : Item}
    (h : Begins g (g.core state) item) :
    ∃ production, g.productions[item.production]? = some production := by
  cases h with
  | kernel hmem =>
    have hgenuine := (Automaton.saturated_build hg).1.coherent.genuine state hstate
    exact Grammar.exists_of_mem_items (hgenuine.fits item hmem)
  | opening _ hp _ => exact ⟨_, hp⟩

/-- A production that is begun, and not the one of the start symbol, is asked for. -/
theorem exists_asks_of_begins_opening (hg : g.WellFormed)
    (hstate : state < (Automaton.build (Closure.Setting.ofGrammar g)).kernels.size)
    (hp : g.productions[p]? = some production) (hne : p ≠ Grammar.acceptProduction)
    (h : Begins g (g.core state) (Item.opening p)) :
    ∃ item after, Begins g (g.core state) item ∧
      item.rest g = .nonterminal production.lhs :: after := by
  generalize hitem : Item.opening p = item at h
  cases h with
  | kernel hmem =>
    rcases ((Automaton.saturated_build hg).1.coherent.genuine state hstate).read item hmem with
      hread | heq
    · rw [← hitem] at hread
      exact absurd hread (Nat.lt_irrefl 0)
    · exact absurd (congrArg Item.production (hitem.trans heq)) hne
  | @opening item q after other hbegins hq hrest =>
    obtain rfl : p = q := congrArg Item.production hitem
    obtain rfl := Option.some.inj (hq.symm.trans hp)
    exact ⟨item, after, hbegins, hrest⟩

/-! ## Reductions -/

/-- Where the table reduces at the end of a path, the path ends with the right-hand side, and the
table leads on from below it. -/
theorem Path.reduce (hg : g.WellFormed) (h : (ofGrammar g).Path path) {kind : Kind}
    (hreduce : .reduce p ∈ (ofGrammar g).actions (topOf path) kind) :
    p ≠ Grammar.acceptProduction ∧ ∃ production taken rest next,
      g.productions[p]? = some production ∧ path = taken ++ rest ∧
      (taken.map Prod.fst).reverse = production.rhs ∧
      (ofGrammar g).goto? (topOf rest) production.lhs = some next := by
  obtain ⟨hne, mark, hcomplete, hbegins⟩ := complete_of_reduce hreduce
  obtain ⟨production, hp⟩ := exists_production_of_begins hg h.topOf_lt hbegins
  obtain ⟨taken, rest, rfl, hlength, hsymbols, hopening⟩ := h.back hp hbegins
  have hle : production.rhs.length ≤ mark := by
    simpa [Item.rest, hp] using hcomplete
  rw [List.take_of_length_le hle] at hsymbols
  have hrest := h.of_append.topOf_lt
  obtain ⟨item, after, hasks, hitem⟩ := exists_asks_of_begins_opening hg hrest hp hne hopening
  obtain ⟨next, hnext⟩ := exists_goto? hg hrest hasks hitem
  exact ⟨hne, production, taken, rest, next, hp, rfl, hsymbols, hnext⟩

end Table
end SqlTree
