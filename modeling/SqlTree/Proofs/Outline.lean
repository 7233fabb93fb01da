import SqlTree.Proofs.Erasure
import SqlTree.Proofs.Operators

/-!
# Cells without the table

What the table does in one state can be told without building it. The items of a state come from those
of the state before, and an outline lists as many of them as there can be, which is checked by going
once over the productions. Conversely, productions that begin one inside the other are under way
together, and the symbols in between tell what may follow the last of them. Where both agree, a cell is
known.

- `Outline`              : items and begun nonterminals, among which all of a state are
- `Outline.Covers.after` : the state after a symbol is covered by the items that have read it
- `Grammar.descends`     : productions that begin one inside the other, in front of a terminal
- `Grammar.shuns`        : nonterminals that are never in front of a terminal
- `Table.actions_eq_shift`, `Table.actions_eq_reduce`, `Table.actions_eq_nil` : known cells
-/

namespace SqlTree

open Item (Begins)

/-! ## Upper bounds -/

/-- Items of which something has been read, and nonterminals all productions of which may be begun. -/
structure Outline where
  items : List Item
  begun : List Nat

namespace Outline

/-- The productions that may be begun. -/
def openings (o : Outline) (g : Grammar) : List (Item × List Symbol) :=
  g.productions.toList.zipIdx.filterMap fun (production, p) =>
    if o.begun.contains production.lhs then some (Item.opening p, production.rhs) else none

/-- All items with what they have still to read. -/
def all (o : Outline) (g : Grammar) : List (Item × List Symbol) :=
  (o.items.map fun item => (item, item.rest g)) ++ o.openings g

/-- Whether every nonterminal that an item asks for is one that may be begun. -/
def closed (o : Outline) (g : Grammar) : Bool :=
  (o.all g).all fun (_, rest) =>
    match rest with
    | .nonterminal i :: _ => o.begun.contains i
    | _ => true

/-- The items that ask for a symbol, after reading it. -/
def after (o : Outline) (g : Grammar) (symbol : Symbol) : List Item :=
  (o.all g).filterMap fun (item, rest) =>
    if rest.head? = some symbol then some item.advance else none

/-- The productions that may be complete. -/
def complete (o : Outline) (g : Grammar) : List Nat :=
  (o.all g).filterMap fun (item, rest) => if rest.isEmpty then some item.production else none

/-- Whether an outline is closed, and has the given complete productions, and the given items after
some symbols. -/
def shows (o : Outline) (g : Grammar) (complete : List Nat) (reads : List (Symbol × List Item)) :
    Bool :=
  o.closed g && o.complete g == complete && reads.all fun (symbol, items) => o.after g symbol == items

end Outline

/-- The state after a symbol. -/
def Grammar.next? (g : Grammar) (state : Nat) (symbol : Symbol) : Option Nat :=
  ((Automaton.build (Closure.Setting.ofGrammar g)).edges state).lookup symbol

variable {g : Grammar} {state target p mark : Nat} {symbol : Symbol} {kind other : Kind} {item : Item}
  {production : Production} {symbols : List Symbol}

namespace Outline

variable {o wider : Outline} {complete : List Nat} {reads : List (Symbol × List Item)}
  {items : List Item}

theorem closed_of_shows (h : o.shows g complete reads = true) : o.closed g = true := by
  simp only [shows, Bool.and_eq_true] at h
  exact h.1.1

theorem complete_of_shows (h : o.shows g complete reads = true) : o.complete g = complete := by
  simp only [shows, Bool.and_eq_true, beq_iff_eq] at h
  exact h.1.2

theorem after_of_shows (h : o.shows g complete reads = true) (hread : (symbol, items) ∈ reads) :
    o.after g symbol = items := by
  simp only [shows, Bool.and_eq_true, List.all_eq_true] at h
  exact beq_iff_eq.1 (h.2 _ hread)

/-- The items of a state of which something has been read are among those of an outline. -/
structure Covers (o : Outline) (g : Grammar) (state : Nat) : Prop where
  lt : state < (Automaton.build (Closure.Setting.ofGrammar g)).kernels.size
  core : ∀ item ∈ g.core state, item ∈ o.items

/-- A closed outline has all items that are under way. -/
theorem Covers.mem_all (h : o.Covers g state) (hclosed : o.closed g = true)
    (hbegins : Begins g (g.core state) item) : (item, item.rest g) ∈ o.all g := by
  induction hbegins with
  | kernel hmem => exact List.mem_append_left _ (List.mem_map_of_mem (h.core _ hmem))
  | @opening item p after production _ hp hrest ih =>
    have hasks := List.all_eq_true.1 hclosed _ ih
    simp only [hrest] at hasks
    refine List.mem_append_right _ (List.mem_filterMap.2 ⟨(production, p), ?_, ?_⟩)
    · exact List.mk_mem_zipIdx_iff_getElem?.2 (by simpa using hp)
    · refine (if_pos hasks).trans ?_
      simp [Item.rest, Item.opening, hp]

theorem Covers.mem_complete (h : o.Covers g state) (hshows : o.shows g complete reads = true)
    (hbegins : Begins g (g.core state) item) (hrest : item.rest g = []) :
    item.production ∈ complete := by
  rw [← complete_of_shows hshows]
  exact List.mem_filterMap.2 ⟨_, h.mem_all (closed_of_shows hshows) hbegins, by simp [hrest]⟩

theorem Covers.mem_after (h : o.Covers g state) (hclosed : o.closed g = true)
    (hbegins : Begins g (g.core state) item) (hrest : item.rest g = symbol :: symbols) :
    item.advance ∈ o.after g symbol :=
  List.mem_filterMap.2 ⟨_, h.mem_all hclosed hbegins, by simp [hrest]⟩

theorem covers_start (hg : g.WellFormed) (begun : List Nat) :
    Covers ⟨[Item.opening Grammar.acceptProduction], begun⟩ g 0 where
  lt := (Automaton.saturated_build hg).1.start.1
  core item hitem := by simpa [g.core_zero] using hitem

/-- The state after a symbol is covered by the items that have read it. -/
theorem Covers.after (h : o.Covers g state) (hshows : o.shows g complete reads = true)
    (htarget : g.next? state symbol = some target) (begun : List Nat) :
    Covers ⟨o.after g symbol, begun⟩ g target where
  lt := ((Automaton.sound_build g).edge _ _ _ (Table.mem_of_lookup htarget)).1
  core item hitem := by
    obtain ⟨before, rfl, hbegins, hhead⟩ :=
      (Table.leads_of_edge (Table.mem_of_lookup htarget)).2 item hitem
    obtain ⟨symbols, hrest⟩ := List.head?_eq_some_iff.1 hhead
    exact h.mem_after (closed_of_shows hshows) hbegins hrest

/-- The same where it is known which items have read the symbol. -/
theorem Covers.after_of_mem (h : o.Covers g state) (hshows : o.shows g complete reads = true)
    (hread : (symbol, items) ∈ reads) (htarget : g.next? state symbol = some target)
    (begun : List Nat) : Covers ⟨items, begun⟩ g target :=
  after_of_shows hshows hread ▸ h.after hshows htarget begun

/-- If there can be only one item in the kernels of two states, they are one state. -/
theorem Covers.eq_of_singleton {state' : Nat} (hg : g.WellFormed) (h : o.Covers g state)
    (h' : wider.Covers g state') (hitems : o.items = [item]) (hitems' : wider.items = [item]) :
    state = state' := by
  have hcoherent := (Automaton.saturated_build hg).1.coherent
  have hcore {o : Outline} {s : Nat} (hs : o.Covers g s) (hitems : o.items = [item]) :
      ((Automaton.build (Closure.Setting.ofGrammar g)).kernel s).items = {item} := by
    obtain ⟨first, hfirst⟩ := (hcoherent.genuine s hs.lt).isKernel.nonempty
    have hall (other : Item)
        (hother : other ∈ ((Automaton.build (Closure.Setting.ofGrammar g)).kernel s).items) :
        other = item := by
      have hmem := hs.core other hother
      rw [hitems] at hmem
      exact List.mem_singleton.1 hmem
    exact Set.eq_singleton_iff_unique_mem.2 ⟨hall first hfirst ▸ hfirst, hall⟩
  exact hcoherent.eq_of_items_eq h.lt h'.lt ((hcore h hitems).trans (hcore h' hitems').symm)

end Outline

/-! ## What is under way -/

namespace Grammar

/-- Whether a terminal comes behind what stands in front of the symbols, given whether it may follow
them. -/
def comes (kind : Kind) (followed : Bool) : List Symbol → Bool
  | [] => followed
  | .terminal next :: _ => next == kind
  | .nonterminal _ :: _ => false

/-- Whether productions begin one inside the other, the first of them in front of the symbols, and a
terminal may follow the last one. -/
def descends (g : Grammar) (kind : Kind) : List Nat → List Symbol → Bool → Bool
  | [], _, followed => followed
  | p :: ps, .nonterminal i :: after, followed =>
    match g.productions[p]? with
    | some production =>
      production.lhs == i && descends g kind ps production.rhs (comes kind followed after)
    | none => false
  | _ :: _, _, _ => false

/-- A production that is begun is followed by what comes behind its nonterminal. -/
theorem followsAt_of_comes {followed : Bool}
    (hstate : state < (Automaton.build (Closure.Setting.ofGrammar g)).kernels.size)
    (hbegins : Begins g (g.core state) item)
    (hfollowed : followed = true → g.FollowsAt state item kind)
    (hp : g.productions[p]? = some production)
    (hrest : item.rest g = .nonterminal production.lhs :: symbols)
    (hcomes : comes kind followed symbols = true) : g.FollowsAt state (Item.opening p) kind := by
  refine ⟨hstate, ?_⟩
  cases symbols with
  | nil => exact .vanishes (hfollowed hcomes).2 hp hrest .refl
  | cons first symbols =>
    cases first with
    | terminal next =>
      obtain rfl : next = kind := by simpa [comes] using hcomes
      exact .begins ((Table.closed_iff_begins g _ item).2 hbegins) hp hrest ⟨symbols, .refl⟩
    | nonterminal => cases hcomes

theorem followsAt_of_descends {followed : Bool} {ps : List Nat}
    (hstate : state < (Automaton.build (Closure.Setting.ofGrammar g)).kernels.size)
    (hbegins : Begins g (g.core state) item)
    (hfollowed : followed = true → g.FollowsAt state item kind)
    (h : g.descends kind ps (item.rest g) followed = true) :
    g.FollowsAt state (ps.foldl (fun _ p => Item.opening p) item) kind := by
  induction ps generalizing item followed with
  | nil => exact hfollowed (by simpa [descends] using h)
  | cons p ps ih =>
    cases hrest : item.rest g with
    | nil => simp [descends, hrest] at h
    | cons symbol after =>
      cases symbol with
      | terminal => simp [descends, hrest] at h
      | nonterminal i =>
        cases hp : g.productions[p]? with
        | none => simp [descends, hrest, hp] at h
        | some production =>
          simp only [descends, hrest, hp, Bool.and_eq_true, beq_iff_eq] at h
          obtain ⟨rfl, h⟩ := h
          have hopening : Item.rest g (Item.opening p) = production.rhs := by
            simp [Item.rest, Item.opening, hp]
          exact ih (.opening hbegins hp hrest)
            (followsAt_of_comes hstate hbegins hfollowed hp hrest) (by rwa [hopening])

/-- From an item that is under way, productions are begun one inside the other. -/
theorem FollowsAt.descend (h : g.FollowsAt state item other) (kind : Kind) (ps : List Nat)
    (hdescends : g.descends kind ps (item.rest g) (other == kind) = true) :
    g.FollowsAt state (ps.foldl (fun _ p => Item.opening p) item) kind :=
  followsAt_of_descends h.1 h.begins (fun heq => (beq_iff_eq.1 heq : other = kind) ▸ h) hdescends

/-- A symbol that an item asks for leads on. -/
theorem FollowsAt.exists_next (hg : g.WellFormed) (h : g.FollowsAt state item kind)
    (hrest : item.rest g = symbol :: symbols) :
    ∃ target, g.next? state symbol = some target ∧ g.FollowsAt target item.advance kind :=
  h.advance hg hrest

/-- The same where it is known where the symbol leads. -/
theorem FollowsAt.next_of_eq (hg : g.WellFormed) (h : g.FollowsAt state item kind)
    (hrest : item.rest g = symbol :: symbols) (htarget : g.next? state symbol = some target) :
    g.FollowsAt target item.advance kind := by
  obtain ⟨other, hother, hfollows⟩ := h.exists_next hg hrest
  obtain rfl := Option.some.inj (hother.symm.trans htarget)
  exact hfollows

/-! ## What never follows -/

/-- Whether a sequence of symbols is not empty and cannot begin with a terminal, given nonterminals of
which this is known. -/
def quiet (kind : Kind) (calm : List Nat) : List Symbol → Bool
  | [] => false
  | .terminal next :: _ => next != kind
  | .nonterminal i :: _ => calm.contains i

/-- Whether no nonterminal of a list is in front of a terminal, where one of them stands in the rest of
a right-hand side. -/
def avoids (kind : Kind) (calm safe : List Nat) (lhs : Nat) : List Symbol → Bool
  | [] => true
  | .terminal _ :: after => avoids kind calm safe lhs after
  | .nonterminal i :: after =>
    (!safe.contains i || (if after.isEmpty then safe.contains lhs else quiet kind calm after)) &&
      avoids kind calm safe lhs after

/-- Whether the nonterminals `safe` are never in front of a terminal, with which none of the
nonterminals `calm` begins. -/
def shuns (g : Grammar) (kind : Kind) (calm safe : List Nat) : Bool :=
  g.productions.toList.all fun production =>
    (!calm.contains production.lhs || quiet kind calm production.rhs) &&
      avoids kind calm safe production.lhs production.rhs

variable {calm safe : List Nat}

theorem shuns_spec (h : g.shuns kind calm safe = true) (hp : g.productions[p]? = some production) :
    (calm.contains production.lhs = true → quiet kind calm production.rhs = true) ∧
      avoids kind calm safe production.lhs production.rhs = true := by
  have hmem : production ∈ g.productions.toList := Array.mem_toList_iff.2 (Array.mem_of_getElem? hp)
  have htest := List.all_eq_true.1 h _ hmem
  simp only [Bool.and_eq_true, Bool.or_eq_true, Bool.not_eq_true'] at htest
  exact ⟨fun hcalm => htest.1.resolve_left fun hnot => by simp_all, htest.2⟩

/-- What is quiet stays so when a nonterminal is replaced by a right-hand side of it. -/
theorem quiet_of_yields {a b : List Symbol} (h : g.shuns kind calm safe = true)
    (hyields : g.Yields a b) (hquiet : quiet kind calm a = true) : quiet kind calm b = true := by
  induction hyields with
  | refl => exact hquiet
  | tail _ hstep ih =>
    cases hstep with
    | @mk p production before after hp =>
      cases before with
      | cons first before => cases first <;> exact ih
      | nil =>
        have hrhs := (shuns_spec h hp).1 ih
        rw [List.nil_append]
        generalize production.rhs = rhs at hrhs
        cases rhs with
        | nil => cases hrhs
        | cons first rest => cases first <;> exact hrhs

theorem avoids_drop {lhs i : Nat} {after : List Symbol}
    (h : avoids kind calm safe lhs symbols = true) (mark : Nat)
    (hrest : symbols.drop mark = .nonterminal i :: after) (hi : safe.contains i = true) :
    (after = [] → safe.contains lhs = true) ∧ (after ≠ [] → quiet kind calm after = true) := by
  induction symbols generalizing mark with
  | nil => simp at hrest
  | cons first rest ih =>
    have hlater : avoids kind calm safe lhs rest = true := by
      cases first with
      | terminal => exact h
      | nonterminal => exact (Bool.and_eq_true_iff.1 h).2
    cases mark with
    | succ mark => exact ih hlater mark hrest
    | zero =>
      obtain ⟨rfl, rfl⟩ := List.cons.inj hrest
      have hhere := (Bool.and_eq_true_iff.1 h).1
      rw [hi, Bool.not_true, Bool.false_or] at hhere
      refine ⟨fun hnil => ?_, fun hne => ?_⟩
      · rwa [if_pos (List.isEmpty_iff.2 hnil)] at hhere
      · rwa [if_neg fun hempty => hne (List.isEmpty_iff.1 hempty)] at hhere

/-- An item of a production whose nonterminal is in front of the terminal. -/
def Spared (g : Grammar) (kind : Kind) (safe : List Nat) (item : Item) (other : Kind) : Prop :=
  other = kind → ∀ production, g.productions[item.production]? = some production →
    safe.contains production.lhs = false

/-- What a closure adds is spared if the kernel is. -/
theorem Follows.spared {kernel : Set Item} {follow : Set (Item × Kind)}
    (htest : g.shuns kind calm safe = true)
    (hfollow : ∀ entry ∈ follow, g.Spared kind safe entry.1 entry.2)
    (h : g.Follows kernel follow item other) : g.Spared kind safe item other := by
  have hopening {item : Item} {q : Nat} {production : Production} {after : List Symbol}
      (hq : g.productions[q]? = some production)
      (hrest : item.rest g = .nonterminal production.lhs :: after)
      (hloud : ∀ outer, g.productions[item.production]? = some outer →
        (after = [] → safe.contains outer.lhs = true) ∧ (after ≠ [] → quiet kind calm after = true) →
          False) : g.Spared kind safe (Item.opening q) kind := by
    intro _ production' hq'
    obtain rfl := Option.some.inj (hq.symm.trans hq')
    obtain ⟨outer, houter, -, -⟩ := exists_of_rest_eq_cons hrest
    rw [Item.rest, houter] at hrest
    by_contra hsafe
    refine hloud outer houter ?_
    exact avoids_drop (shuns_spec htest houter).2 item.mark hrest (by simpa using hsafe)
  induction h with
  | kernel h => exact hfollow _ h
  | @begins item other q after production _ hq hrest hbegins =>
    intro heq
    subst heq
    refine hopening hq hrest (fun outer _ hafter => ?_) rfl
    obtain ⟨rest, hyields⟩ := hbegins
    cases after with
    | nil => cases Yields.of_nil hyields
    | cons first after =>
      have hquiet := quiet_of_yields htest hyields (hafter.2 (List.cons_ne_nil _ _))
      simp [quiet] at hquiet
  | @vanishes item other q after production _ hq hrest hvanishes ih =>
    intro heq
    subst heq
    refine hopening hq hrest (fun outer houter hafter => ?_) rfl
    cases after with
    | nil =>
      have hspared := ih rfl outer houter
      rw [hafter.1 rfl] at hspared
      cases hspared
    | cons first after =>
      have hquiet := quiet_of_yields htest hvanishes (hafter.2 (List.cons_ne_nil _ _))
      cases hquiet

/-- Nonterminals that shun a terminal are in front of it in no state. -/
theorem not_followsAt_of_shuns (hg : g.WellFormed) (htest : g.shuns kind calm safe = true)
    (heof : kind ≠ .eof) (hp : g.productions[p]? = some production)
    (hsafe : safe.contains production.lhs = true) : ¬ g.FollowsAt state ⟨p, mark⟩ kind := by
  -- The lookaheads in the kernels come from the states of the canonical automaton.
  have hcanonical {canonical : Canonical} (h : g.IsCanonical canonical) :
      ∀ entry ∈ canonical.follow, g.Spared kind safe entry.1 entry.2 := by
    induction h with
    | start =>
      intro entry hentry heq
      rw [Set.mem_singleton_iff.1 hentry] at heq
      exact absurd heq.symm heof
    | goto _ _ ih =>
      rintro entry ⟨before, hfollows, -, hadvance⟩
      have hspared := hfollows.spared htest ih
      rw [← hadvance]
      exact hspared
  intro hfollows
  have hgenuine := (Automaton.saturated_build hg).1.coherent.genuine state hfollows.1
  have hkernel : ∀ entry ∈ ((Automaton.build (Closure.Setting.ofGrammar g)).kernel state).follow,
      g.Spared kind safe entry.1 entry.2 := by
    intro entry hentry
    obtain ⟨canonical, hcanon, -, hmem⟩ := hgenuine.canonical entry hentry
    exact hcanonical hcanon entry hmem
  have hspared := hfollows.2.spared htest hkernel rfl production hp
  rw [hsafe] at hspared
  cases hspared

end Grammar

/-! ## Cells -/

namespace Table

open Grammar (CompleteAt AsksAt)

/-- No production is listed twice among those that are complete. -/
theorem nodup_reductionsAt (hg : g.WellFormed)
    (hstate : state < (Automaton.build (Closure.Setting.ofGrammar g)).kernels.size) :
    (reductionsAt g state kind).Nodup := by
  have hproper := ((Automaton.saturated_build hg).1.coherent.genuine state hstate).toProper
  have hitems : (itemsAt g state).Pairwise fun a b => a.1 ≠ b.1 :=
    List.pairwise_map.1 (Closure.nodup_ofKernel hg hproper)
  -- Of a production there is one complete item, that with the mark at its end.
  have hcomplete : ((itemsAt g state).filter fun entry => (entry.1.rest g).isEmpty).Pairwise
      fun a b => a.1.production ≠ b.1.production := by
    refine (hitems.filter _).imp_of_mem fun {a b} ha hb hne heq => hne ?_
    have hmark {entry : Item × TerminalSet}
        (hentry : entry ∈ (itemsAt g state).filter fun entry => (entry.1.rest g).isEmpty) :
        ∃ production, g.productions[entry.1.production]? = some production ∧
          entry.1.mark = production.rhs.length := by
      obtain ⟨hmem, hrest⟩ := List.mem_filter.1 hentry
      have hbegins := (mem_itemsAt hg hstate).1 ⟨entry.2, hmem⟩
      obtain ⟨production, hp⟩ := exists_production_of_begins hg hstate hbegins
      have hle := mark_le_of_begins hg hstate hbegins hp
      have hge : production.rhs.length ≤ entry.1.mark := by simpa [Item.rest, hp] using hrest
      exact ⟨production, hp, Nat.le_antisymm hle hge⟩
    obtain ⟨pa, hpa, hma⟩ := hmark ha
    obtain ⟨pb, hpb, hmb⟩ := hmark hb
    rw [heq] at hpa
    obtain rfl := Option.some.inj (hpa.symm.trans hpb)
    obtain ⟨⟨p, mark⟩, lookahead⟩ := a
    obtain ⟨⟨q, mark'⟩, lookahead'⟩ := b
    exact congrArg₂ Item.mk heq (hma.trans hmb.symm)
  have hsorted := (Kernel.sort_perm _).symm.pairwise hcomplete fun {a b} hne => Ne.symm hne
  have hrow : (Row.complete g (itemsAt g state)).Pairwise fun a b => a.1 ≠ b.1 :=
    List.pairwise_map.2 hsorted
  refine List.pairwise_filterMap.2 ((hrow.filter _).imp fun {a b} hne p hp q hq => ?_)
  obtain ⟨-, hp⟩ := Option.ite_none_right_eq_some.1 hp
  obtain ⟨-, hq⟩ := Option.ite_none_right_eq_some.1 hq
  rwa [← Option.some.inj hp, ← Option.some.inj hq]

variable {o : Outline} {complete : List Nat} {reads : List (Symbol × List Item)}

/-- Where the start rule cannot be complete, binding strengths decide a cell. -/
theorem actions_eq_resolve (hg : g.WellFormed) (h : o.Covers g state)
    (hshows : o.shows g complete reads = true) (hstart : Grammar.acceptProduction ∉ complete)
    (hkind : kind.isToken = true) :
    (ofGrammar g).actions state kind =
      resolve g (shiftAt g state kind) (reductionsAt g state kind) := by
  rw [actions_ofGrammar h.lt hkind]
  refine if_neg fun haccepts => hstart ?_
  obtain ⟨⟨p, lookahead⟩, hmem, hp⟩ := List.any_eq_true.1 (Bool.and_eq_true_iff.1 haccepts).1
  obtain ⟨item, lookahead', hitem, hproduction, hrest⟩ := mem_complete hmem
  rw [← beq_iff_eq.1 hp, ← hproduction]
  exact h.mem_complete hshows ((mem_itemsAt hg h.lt).1 ⟨lookahead', hitem⟩) hrest

/-- What is complete in a state is so in an outline that covers it. -/
theorem mem_complete_of_completeAt (h : o.Covers g state) (hshows : o.shows g complete reads = true)
    (hp : g.CompleteAt state p kind) : p ∈ complete := by
  obtain ⟨-, mark, hfollows, hrest⟩ := hp
  exact h.mem_complete hshows hfollows.begins hrest

/-- A terminal for which no item of an outline asks is not shifted. -/
theorem shiftAt_eq_none (hg : g.WellFormed) (h : o.Covers g state)
    (hshows : o.shows g complete reads = true) (hnone : (.terminal kind, []) ∈ reads) :
    shiftAt g state kind = none := by
  cases hshift : shiftAt g state kind with
  | none => rfl
  | some found =>
    obtain ⟨⟨item, ⟨hbegins, symbols, hrest⟩, -⟩, -⟩ := shiftAt_spec hg h.lt hshift
    have hmem := h.mem_after (Outline.closed_of_shows hshows) hbegins hrest
    rw [Outline.after_of_shows hshows hnone] at hmem
    cases hmem

/-- A terminal that some item asks for is shifted, if every production that is complete in front of it
is weaker. -/
theorem actions_eq_shift (hg : g.WellFormed) (h : o.Covers g state)
    (hshows : o.shows g complete reads = true) (hstart : Grammar.acceptProduction ∉ complete)
    (hkind : kind.isToken = true) (hbegins : Begins g (g.core state) item)
    (hrest : item.rest g = .terminal kind :: symbols)
    (htarget : g.next? state (.terminal kind) = some target)
    (hweak : ∀ p ∈ complete, g.CompleteAt state p kind → precOf g p < precOf g item.production) :
    (ofGrammar g).actions state kind = [.shift target] := by
  rw [actions_eq_resolve hg h hshows hstart hkind]
  obtain ⟨strength, hshift⟩ : ∃ strength, shiftAt g state kind = some (target, strength) :=
    ⟨_, Option.map_eq_some_iff.2 ⟨target, htarget, rfl⟩⟩
  have hle := (shiftAt_spec hg h.lt hshift).2 item ⟨hbegins, symbols, hrest⟩
  rw [hshift]
  cases hstrong : strongest g (reductionsAt g state kind) with
  | nil => simp [resolve, hstrong]
  | cons first rest =>
    have hfirst : first ∈ strongest g (reductionsAt g state kind) := hstrong ▸ List.mem_cons_self
    have hcomplete := (mem_reductionsAt hg h.lt).1 (mem_strongest.1 hfirst).1
    have hlt := hweak first (mem_complete_of_completeAt h hshows hcomplete) hcomplete
    have hlt := Int.lt_of_lt_of_le hlt hle
    simp [resolve, hstrong, Int.not_lt.2 (Int.le_of_lt hlt), hlt]

/-- Where no item asks for a terminal and only one production can be complete, the table reduces by it
in front of every terminal that may follow. -/
theorem actions_eq_reduce (hg : g.WellFormed) (h : o.Covers g state)
    (hshows : o.shows g [p] reads = true) (hne : p ≠ Grammar.acceptProduction)
    (hnone : (.terminal kind, []) ∈ reads) (hkind : kind.isToken = true)
    (hfollows : g.FollowsAt state ⟨p, mark⟩ kind) (hrest : Item.rest g ⟨p, mark⟩ = []) :
    (ofGrammar g).actions state kind = [.reduce p] := by
  have hstart : Grammar.acceptProduction ∉ [p] := fun hmem => hne (List.mem_singleton.1 hmem).symm
  have hreductions : reductionsAt g state kind = [p] := by
    refine List.perm_singleton.1 ((List.perm_ext_iff_of_nodup (nodup_reductionsAt hg h.lt)
      (List.nodup_singleton p)).2 fun q => ⟨fun hq => ?_, fun hq => ?_⟩)
    · exact mem_complete_of_completeAt h hshows ((mem_reductionsAt hg h.lt).1 hq)
    · obtain rfl := List.mem_singleton.1 hq
      exact (mem_reductionsAt hg h.lt).2 ⟨hne, mark, hfollows, hrest⟩
  rw [actions_eq_resolve hg h hshows hstart hkind, shiftAt_eq_none hg h hshows hnone, hreductions]
  simp [resolve, strongest]

/-- The table leads on by a nonterminal as the automaton does. -/
theorem goto?_eq_some {i : Nat} (hg : g.WellFormed)
    (hstate : state < (Automaton.build (Closure.Setting.ofGrammar g)).kernels.size)
    (hp : g.productions[p]? = some production) (hi : .nonterminal i ∈ production.rhs)
    (htarget : g.next? state (.nonterminal i) = some target) :
    (ofGrammar g).goto? state i = some target :=
  (goto?_ofGrammar hstate (hg.lt_of_mem_rhs hp hi)).trans htarget

/-- A cell that nobody claims is empty. -/
theorem actions_eq_nil (hg : g.WellFormed) (h : o.Covers g state)
    (hshows : o.shows g complete reads = true) (hstart : Grammar.acceptProduction ∉ complete)
    (hkind : kind.isToken = true) (hnone : (.terminal kind, []) ∈ reads)
    (hcomplete : ∀ p ∈ complete, ¬ g.CompleteAt state p kind) :
    (ofGrammar g).actions state kind = [] := by
  have hreductions : reductionsAt g state kind = [] := by
    refine List.eq_nil_iff_forall_not_mem.2 fun p hp => ?_
    have hp := (mem_reductionsAt hg h.lt).1 hp
    exact hcomplete p (mem_complete_of_completeAt h hshows hp) hp
  rw [actions_eq_resolve hg h hshows hstart hkind, shiftAt_eq_none hg h hshows hnone, hreductions]
  simp [resolve, strongest]

end Table
end SqlTree
