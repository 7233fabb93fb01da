import Mathlib.Data.Set.Image
import SqlTree.Automaton.Item
import SqlTree.Proofs.First

/-!
# Automata of a grammar, by their definition

What a table has to compute, said without any algorithm. A state of the automaton without lookaheads
is a set of items; in a state of the canonical automaton every item also has the terminals that may
follow its production.

- `Grammar.Closed`, `Grammar.goto`      : the items under way, and those after a symbol
- `Grammar.IsKernel`                    : the sets of items that can be reached
- `Grammar.Follows`, `Canonical.goto`   : the same with lookaheads
- `Grammar.IsCanonical`                 : the states of the canonical automaton
- `Grammar.isPaired_iff_isCanonical`    : they are sets of pairs of an item and a terminal, where every
  nonterminal derives some terminal string
-/

namespace SqlTree

namespace Grammar

/-! ## Items -/

/-- The items of a set, and those that begin a production of a nonterminal that one of them asks
for. -/
inductive Closed (g : Grammar) (kernel : Set Item) : Item → Prop where
  | kernel {item : Item} (h : item ∈ kernel) : Closed g kernel item
  | opening {item : Item} {p : Nat} {after : List Symbol} {production : Production}
      (h : Closed g kernel item) (hp : g.productions[p]? = some production)
      (hrest : item.rest g = .nonterminal production.lhs :: after) :
      Closed g kernel (Item.opening p)

/-- The items after a symbol. -/
def goto (g : Grammar) (kernel : Set Item) (symbol : Symbol) : Set Item :=
  {next | ∃ item, g.Closed kernel item ∧ (item.rest g).head? = some symbol ∧ item.advance = next}

/-- The sets of items that can be reached from the beginning of the start rule. -/
inductive IsKernel (g : Grammar) : Set Item → Prop where
  | start : IsKernel g {Item.opening acceptProduction}
  | goto {kernel : Set Item} {symbol : Symbol} (h : IsKernel g kernel)
      (hsome : (g.goto kernel symbol).Nonempty) : IsKernel g (g.goto kernel symbol)

/-! ## Items with lookaheads -/

/-- The terminals that may follow the production of an item under way, if those of the items in the
kernel are given. What a begun production is followed by comes from the symbols after it, or from what
follows the item that asks for it. -/
inductive Follows (g : Grammar) (kernel : Set Item) (follow : Set (Item × Kind)) :
    Item → Kind → Prop where
  | kernel {item : Item} {kind : Kind} (h : (item, kind) ∈ follow) : Follows g kernel follow item kind
  | begins {item : Item} {kind : Kind} {p : Nat} {after : List Symbol} {production : Production}
      (h : g.Closed kernel item) (hp : g.productions[p]? = some production)
      (hrest : item.rest g = .nonterminal production.lhs :: after)
      (hbegins : g.BeginsWith after kind) : Follows g kernel follow (Item.opening p) kind
  | vanishes {item : Item} {kind : Kind} {p : Nat} {after : List Symbol} {production : Production}
      (h : Follows g kernel follow item kind) (hp : g.productions[p]? = some production)
      (hrest : item.rest g = .nonterminal production.lhs :: after)
      (hvanishes : g.Vanishes after) : Follows g kernel follow (Item.opening p) kind

end Grammar

/-- A set of items, with the terminals that may follow the production of each. -/
structure Canonical where
  kernel : Set Item
  follow : Set (Item × Kind)

/-- The items after a symbol, with the lookaheads that they had before it. -/
def Canonical.goto (g : Grammar) (state : Canonical) (symbol : Symbol) : Canonical where
  kernel := g.goto state.kernel symbol
  follow := {next | ∃ item : Item, g.Follows state.kernel state.follow item next.2 ∧
    (item.rest g).head? = some symbol ∧ item.advance = next.1}

namespace Grammar

/-- The states of the canonical automaton. -/
inductive IsCanonical (g : Grammar) : Canonical → Prop where
  | start : IsCanonical g
      ⟨{Item.opening acceptProduction}, {(Item.opening acceptProduction, .eof)}⟩
  | goto {state : Canonical} {symbol : Symbol} (h : IsCanonical g state)
      (hsome : (g.goto state.kernel symbol).Nonempty) : IsCanonical g (state.goto g symbol)

variable {g : Grammar} {kernel : Set Item} {follow follow' : Set (Item × Kind)} {item : Item}
  {kind : Kind}

theorem Follows.mono (h : g.Follows kernel follow item kind) (hsub : follow ⊆ follow') :
    g.Follows kernel follow' item kind := by
  induction h with
  | kernel h => exact .kernel (hsub h)
  | begins h hp hrest hbegins => exact .begins h hp hrest hbegins
  | vanishes _ hp hrest hvanishes ih => exact .vanishes ih hp hrest hvanishes

theorem Follows.closed (h : g.Follows kernel follow item kind)
    (hsub : ∀ entry ∈ follow, entry.1 ∈ kernel) : g.Closed kernel item := by
  induction h with
  | kernel h => exact .kernel (hsub _ h)
  | begins h hp hrest _ => exact .opening h hp hrest
  | vanishes _ hp hrest _ ih => exact .opening ih hp hrest

/-- What follows an item by virtue of several states together follows it in one of them. -/
theorem Follows.exists_of_cover (h : g.Follows kernel follow item kind)
    (states : Set Canonical) (hsome : states.Nonempty)
    (hcover : ∀ entry ∈ follow, ∃ state ∈ states, entry ∈ state.follow) :
    ∃ state ∈ states, g.Follows kernel state.follow item kind := by
  induction h with
  | kernel h =>
    obtain ⟨state, hstate, hentry⟩ := hcover _ h
    exact ⟨state, hstate, .kernel hentry⟩
  | begins h hp hrest hbegins =>
    -- What the symbols begin with does not depend on lookaheads, so every state will do.
    obtain ⟨state, hstate⟩ := hsome
    exact ⟨state, hstate, .begins h hp hrest hbegins⟩
  | vanishes _ hp hrest hvanishes ih =>
    obtain ⟨state, hstate, hfollows⟩ := ih
    exact ⟨state, hstate, .vanishes hfollows hp hrest hvanishes⟩

theorem IsCanonical.isKernel {state : Canonical} (h : g.IsCanonical state) :
    g.IsKernel state.kernel := by
  induction h with
  | start => exact .start
  | goto _ hsome ih => exact .goto ih hsome

theorem IsKernel.nonempty (h : g.IsKernel kernel) : kernel.Nonempty := by
  cases h with
  | start => exact ⟨_, rfl⟩
  | goto _ hsome => exact hsome

theorem IsKernel.exists_isCanonical (h : g.IsKernel kernel) :
    ∃ state, g.IsCanonical state ∧ state.kernel = kernel := by
  induction h with
  | start => exact ⟨_, .start, rfl⟩
  | @goto kernel symbol _ hsome ih =>
    obtain ⟨state, hstate, rfl⟩ := ih
    exact ⟨_, .goto hstate hsome, rfl⟩

theorem IsCanonical.mem_kernel {state : Canonical} (h : g.IsCanonical state) :
    ∀ entry ∈ state.follow, entry.1 ∈ state.kernel := by
  induction h with
  | start => simp
  | goto _ _ ih =>
    rintro ⟨next, kind⟩ ⟨item, hfollows, hsymbol, hadvance⟩
    exact ⟨item, hfollows.closed ih, hsymbol, hadvance⟩

/-! ## Pairs of an item and a terminal -/

/-- The pairs of a set, and those that begin a production of a nonterminal that one of them asks for,
in front of a terminal that may come next. -/
inductive Paired (g : Grammar) (pairs : Set (Item × Kind)) : Item → Kind → Prop where
  | kernel {item : Item} {kind : Kind} (h : (item, kind) ∈ pairs) : Paired g pairs item kind
  | opening {item : Item} {kind next : Kind} {p : Nat} {after : List Symbol}
      {production : Production} (h : Paired g pairs item kind)
      (hp : g.productions[p]? = some production)
      (hrest : item.rest g = .nonterminal production.lhs :: after)
      (hnext : g.BeginsWith (after ++ [.terminal kind]) next) :
      Paired g pairs (Item.opening p) next

/-- The pairs after a symbol. -/
def pairedGoto (g : Grammar) (pairs : Set (Item × Kind)) (symbol : Symbol) : Set (Item × Kind) :=
  {next | ∃ item : Item, g.Paired pairs item next.2 ∧ (item.rest g).head? = some symbol ∧
    item.advance = next.1}

/-- The sets of pairs that can be reached from the beginning of the start rule. -/
inductive IsPaired (g : Grammar) : Set (Item × Kind) → Prop where
  | start : IsPaired g {(Item.opening acceptProduction, .eof)}
  | goto {pairs : Set (Item × Kind)} {symbol : Symbol} (h : IsPaired g pairs)
      (hsome : (g.pairedGoto pairs symbol).Nonempty) : IsPaired g (g.pairedGoto pairs symbol)

/-- Every nonterminal that a rule mentions derives a string of terminals. -/
def Productive (g : Grammar) : Prop :=
  ∀ (p : Nat) (production : Production), g.productions[p]? = some production →
    ∀ i, .nonterminal i ∈ production.rhs →
      ∃ kinds : List Kind, g.Yields [.nonterminal i] (kinds.map .terminal)

/-- What can come next is in the symbols, or behind them if they can be empty. -/
theorem beginsWith_append_terminal (hg : g.WellFormed) (symbols : List Symbol) (kind next : Kind) :
    g.BeginsWith (symbols ++ [.terminal kind]) next ↔
      g.BeginsWith symbols next ∨ (g.Vanishes symbols ∧ kind = next) := by
  have hwhole := First.contains_ofSequence_ofGrammar hg .empty (symbols ++ [.terminal kind]) next
  have hparts := First.contains_ofSequence_ofGrammar hg (.singleton kind) symbols next
  rw [First.ofSequence_append, First.ofSequence, hparts] at hwhole
  simpa using hwhole.symm

theorem Productive.exists_yields (h : g.Productive) {p : Nat} {production : Production}
    (hp : g.productions[p]? = some production) {symbols : List Symbol}
    (hsub : ∀ symbol ∈ symbols, symbol ∈ production.rhs) :
    ∃ kinds : List Kind, g.Yields symbols (kinds.map .terminal) := by
  induction symbols with
  | nil => exact ⟨[], .refl⟩
  | cons symbol rest ih =>
    obtain ⟨kinds, hrest⟩ := ih fun s hs => hsub s (List.mem_cons_of_mem _ hs)
    cases symbol with
    | terminal kind =>
      exact ⟨kind :: kinds, Yields.append (a := [.terminal kind]) .refl hrest⟩
    | nonterminal i =>
      obtain ⟨front, hfront⟩ := h p production hp i (hsub _ List.mem_cons_self)
      refine ⟨front ++ kinds, ?_⟩
      rw [List.map_append]
      exact Yields.append hfront hrest

/-- The symbols after the mark of an item come from a production. -/
theorem exists_of_rest_eq_cons {symbol : Symbol} {after : List Symbol}
    (h : item.rest g = symbol :: after) :
    ∃ production, g.productions[item.production]? = some production ∧
      symbol ∈ production.rhs ∧ ∀ s ∈ after, s ∈ production.rhs := by
  unfold Item.rest at h
  split at h
  · rename_i production hp
    have hmem (s : Symbol) (hs : s ∈ symbol :: after) : s ∈ production.rhs :=
      List.mem_of_mem_drop (h ▸ hs)
    exact ⟨production, hp, hmem _ List.mem_cons_self, fun s hs => hmem s (List.mem_cons_of_mem _ hs)⟩
  · cases h

/-- Symbols that derive a string of terminals can be empty or begin with a terminal. -/
theorem Productive.vanishes_or_beginsWith (h : g.Productive) {symbol : Symbol}
    {after : List Symbol} (hrest : item.rest g = symbol :: after) :
    g.Vanishes after ∨ ∃ kind, g.BeginsWith after kind := by
  obtain ⟨production, hp, -, hafter⟩ := exists_of_rest_eq_cons hrest
  obtain ⟨kinds, hyields⟩ := h.exists_yields hp hafter
  cases kinds with
  | nil => exact Or.inl hyields
  | cons kind kinds => exact Or.inr ⟨kind, kinds.map .terminal, hyields⟩

/-- The pairs are the lookaheads of the items. -/
theorem Paired.follows (hg : g.WellFormed) (hsub : ∀ entry ∈ follow, entry.1 ∈ kernel)
    (h : g.Paired follow item kind) : g.Follows kernel follow item kind := by
  induction h with
  | kernel h => exact .kernel h
  | opening _ hp hrest hnext ih =>
    rcases (beginsWith_append_terminal hg _ _ _).1 hnext with hbegins | ⟨hvanishes, rfl⟩
    · exact .begins (ih.closed hsub) hp hrest hbegins
    · exact .vanishes ih hp hrest hvanishes

theorem Productive.exists_paired (h : g.Productive) (hg : g.WellFormed)
    (hall : ∀ item ∈ kernel, ∃ kind, (item, kind) ∈ follow) (hclosed : g.Closed kernel item) :
    ∃ kind, g.Paired follow item kind := by
  induction hclosed with
  | kernel hitem =>
    obtain ⟨kind, hkind⟩ := hall _ hitem
    exact ⟨kind, .kernel hkind⟩
  | opening _ hp hrest ih =>
    obtain ⟨kind, hkind⟩ := ih
    -- Without this a production could be under way with no terminal that may follow it.
    rcases h.vanishes_or_beginsWith hrest with hvanishes | ⟨next, hbegins⟩
    · have hnext := (beginsWith_append_terminal hg _ kind kind).2 (Or.inr ⟨hvanishes, rfl⟩)
      exact ⟨kind, .opening hkind hp hrest hnext⟩
    · have hnext := (beginsWith_append_terminal hg _ kind next).2 (Or.inl hbegins)
      exact ⟨next, .opening hkind hp hrest hnext⟩

theorem Follows.paired (hg : g.WellFormed) (hproductive : g.Productive)
    (hall : ∀ item ∈ kernel, ∃ kind, (item, kind) ∈ follow)
    (h : g.Follows kernel follow item kind) : g.Paired follow item kind := by
  induction h with
  | kernel h => exact .kernel h
  | begins h hp hrest hbegins =>
    obtain ⟨other, hother⟩ := hproductive.exists_paired hg hall h
    exact .opening hother hp hrest ((beginsWith_append_terminal hg _ _ _).2 (Or.inl hbegins))
  | vanishes _ hp hrest hvanishes ih =>
    exact .opening ih hp hrest ((beginsWith_append_terminal hg _ _ _).2 (Or.inr ⟨hvanishes, rfl⟩))

/-- If every nonterminal derives something, every item of a canonical state has a lookahead. -/
theorem IsCanonical.exists_follow {state : Canonical} (h : g.IsCanonical state)
    (hg : g.WellFormed) (hproductive : g.Productive) :
    ∀ item ∈ state.kernel, ∃ kind, (item, kind) ∈ state.follow := by
  induction h with
  | start => simp
  | goto h _ ih =>
    rintro next ⟨item, hclosed, hsymbol, hadvance⟩
    obtain ⟨kind, hkind⟩ := hproductive.exists_paired hg ih hclosed
    exact ⟨kind, item, hkind.follows hg h.mem_kernel, hsymbol, hadvance⟩

theorem IsCanonical.image_follow {state : Canonical} (h : g.IsCanonical state)
    (hg : g.WellFormed) (hproductive : g.Productive) : Prod.fst '' state.follow = state.kernel := by
  ext item
  constructor
  · rintro ⟨entry, hentry, rfl⟩
    exact h.mem_kernel entry hentry
  · intro hitem
    obtain ⟨kind, hkind⟩ := h.exists_follow hg hproductive item hitem
    exact ⟨(item, kind), hkind, rfl⟩

theorem IsCanonical.pairedGoto {state : Canonical} (h : g.IsCanonical state) (hg : g.WellFormed)
    (hproductive : g.Productive) (symbol : Symbol) :
    g.pairedGoto state.follow symbol = (state.goto g symbol).follow := by
  ext ⟨next, kind⟩
  constructor
  · rintro ⟨item, hpaired, hsymbol, hadvance⟩
    exact ⟨item, hpaired.follows hg h.mem_kernel, hsymbol, hadvance⟩
  · rintro ⟨item, hfollows, hsymbol, hadvance⟩
    exact ⟨item, hfollows.paired hg hproductive (h.exists_follow hg hproductive), hsymbol, hadvance⟩

/-- Where every nonterminal derives something, the pairs of a canonical state say it all. -/
theorem isPaired_iff_isCanonical (hg : g.WellFormed) (hproductive : g.Productive)
    (pairs : Set (Item × Kind)) : g.IsPaired pairs ↔ g.IsCanonical ⟨Prod.fst '' pairs, pairs⟩ := by
  have hsame {state : Canonical} (h : g.IsCanonical state) :
      g.IsCanonical ⟨Prod.fst '' state.follow, state.follow⟩ := by
    rw [h.image_follow hg hproductive]
    exact h
  constructor
  · intro h
    induction h with
    | start => exact hsame .start
    | @goto pairs symbol _ hsome ih =>
      rw [ih.pairedGoto hg hproductive] at hsome ⊢
      refine hsame (.goto ih ?_)
      obtain ⟨⟨next, kind⟩, item, hfollows, hsymbol, hadvance⟩ := hsome
      exact ⟨next, item, hfollows.closed ih.mem_kernel, hsymbol, hadvance⟩
  · have hpaired {state : Canonical} (h : g.IsCanonical state) : g.IsPaired state.follow := by
      induction h with
      | start => exact .start
      | @goto state symbol h hsome ih =>
        rw [← h.pairedGoto hg hproductive]
        refine .goto ih ?_
        rw [h.pairedGoto hg hproductive]
        obtain ⟨next, hnext⟩ := hsome
        obtain ⟨kind, hkind⟩ := (IsCanonical.goto h ⟨next, hnext⟩).exists_follow hg hproductive
          next hnext
        exact ⟨(next, kind), hkind⟩
    exact fun h => hpaired h

end Grammar
end SqlTree
