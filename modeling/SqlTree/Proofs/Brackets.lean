import SqlTree.Proofs.Grouping

/-!
# Pairs of brackets

A grammar may write two brackets only together, with none of the two between them and nothing behind
them. Then the stack of a machine shows which brackets belong together: where a closing bracket is
read, the innermost opening one below is its partner, and what is between them has none of its own.
The search for an unclosed bracket finds this partner, as long as all brackets on the stack are
tokens of the text: it does not count those that a repair has put in.

- `Brackets`          : a pair of brackets
- `Brackets.Suits`    : what the grammar must be like
- `Brackets.test`     : the same as a test
- `Brackets.Aside`    : an entry that stands for neither of the two
- `Stack.Linked.exists_opener` : where a closing bracket is read, there is an opening one
- `Brackets.unclosed?_eq`      : the search finds the innermost opening bracket
- `Brackets.Held.reduce`       : a reduction does not change what it finds
-/

namespace SqlTree

open Item (Begins Leads)
open Element (readings)
open Machine (unclosed?)

/-- A pair of brackets. -/
structure Brackets where
  opener : Kind
  closer : Kind

namespace Brackets

variable (b : Brackets) (g : Grammar)

/-- Whether a symbol is one of the two. -/
def mem : Symbol → Bool
  | .terminal kind => kind == b.opener || kind == b.closer
  | .nonterminal _ => false

/-! ## Grammars with brackets -/

/-- What the grammar must be like. A rule with one of the two brackets makes a node. It has the
opening one, then something without them, and ends with the closing one. -/
structure Suits : Prop where
  ne : b.opener ≠ b.closer
  reserved : b.closer.isContextual = false
  significant : ∀ {kind : Kind}, b.mem (.terminal kind) = true → kind.isTrivia = false
  kinds : ∀ {i : Nat} {kind : Kind}, g.visibleKind? i = some kind → b.mem (.terminal kind) = false
  paired : ∀ {p : Nat} {production : Production} {symbol : Symbol},
    g.productions[p]? = some production → symbol ∈ production.rhs → b.mem symbol = true →
      (g.visibleKind? production.lhs).isSome = true ∧ ∃ front middle,
        production.rhs = front ++ .terminal b.opener :: (middle ++ [.terminal b.closer]) ∧
        ∀ s ∈ front ++ middle, b.mem s = false

/-- Whether a production has both brackets in their places, or none. -/
def testProduction (production : Production) : Bool :=
  let inner := production.rhs.dropWhile fun s => !b.mem s
  inner.isEmpty ||
    (g.visibleKind? production.lhs).isSome && inner.head? == some (.terminal b.opener) &&
      inner.getLast? == some (.terminal b.closer) && inner.tail.dropLast.all fun s => !b.mem s

/-- Whether the grammar is as it should be. -/
def test : Bool :=
  b.opener != b.closer && !b.closer.isContextual && !b.opener.isTrivia && !b.closer.isTrivia &&
  (List.range g.nonterminals.size).all (fun i =>
    (g.visibleKind? i).all fun kind => !b.mem (.terminal kind)) &&
  g.productions.toList.all (b.testProduction g)

variable {b g} {p : Nat} {production : Production} {symbol : Symbol}

@[simp]
theorem mem_opener : b.mem (.terminal b.opener) = true := by simp [mem]

@[simp]
theorem mem_closer : b.mem (.terminal b.closer) = true := by simp [mem]

theorem mem_iff : b.mem symbol = true ↔
    symbol = .terminal b.opener ∨ symbol = .terminal b.closer := by
  cases symbol <;> simp [mem]

theorem paired_of_testProduction (hne : b.opener ≠ b.closer)
    (htest : b.testProduction g production = true) (hsymbol : symbol ∈ production.rhs)
    (hmem : b.mem symbol = true) :
    (g.visibleKind? production.lhs).isSome = true ∧ ∃ front middle,
      production.rhs = front ++ .terminal b.opener :: (middle ++ [.terminal b.closer]) ∧
      ∀ s ∈ front ++ middle, b.mem s = false := by
  obtain ⟨front, hfront⟩ : ∃ front, production.rhs.takeWhile (fun s => !b.mem s) = front := ⟨_, rfl⟩
  obtain ⟨inner, hinner⟩ : ∃ inner, production.rhs.dropWhile (fun s => !b.mem s) = inner := ⟨_, rfl⟩
  have hrhs : production.rhs = front ++ inner := by
    rw [← hfront, ← hinner, List.takeWhile_append_dropWhile]
  have hbefore : ∀ s ∈ front, b.mem s = false := by
    intro s hs
    rw [← hfront] at hs
    simpa using List.all_eq_true.1 List.all_takeWhile s hs
  simp only [testProduction, hinner, Bool.or_eq_true, List.isEmpty_iff, Bool.and_eq_true,
    beq_iff_eq, List.all_eq_true, Bool.not_eq_true'] at htest
  rcases htest with rfl | ⟨⟨⟨hvisible, hhead⟩, hlast⟩, hbetween⟩
  · rw [hrhs, List.append_nil] at hsymbol
    cases hmem.symm.trans (hbefore symbol hsymbol)
  · obtain ⟨more, rfl⟩ : ∃ more, inner = .terminal b.opener :: more := by
      cases inner with
      | nil => cases hhead
      | cons first more =>
        obtain rfl := Option.some.inj hhead
        exact ⟨more, rfl⟩
    have hmore : more.getLast? = some (.terminal b.closer) := by
      cases more with
      | nil =>
        simp only [List.getLast?_singleton, Option.some.injEq, Symbol.terminal.injEq] at hlast
        exact absurd hlast hne
      | cons second more => rwa [List.getLast?_cons_cons] at hlast
    refine ⟨hvisible, front, more.dropLast, ?_, fun s hs => ?_⟩
    · rw [hrhs, List.dropLast_append_getLast? _ hmore]
    · rcases List.mem_append.1 hs with hs | hs
      · exact hbefore s hs
      · exact hbetween s hs

/-- A grammar that passes the test is as it should be. -/
theorem suits_of_test (h : b.test g = true) : b.Suits g := by
  simp only [test, Bool.and_eq_true, List.all_eq_true, bne_iff_ne, Bool.not_eq_true',
    List.mem_range] at h
  obtain ⟨⟨⟨⟨⟨hne, hreserved⟩, hopener⟩, hcloser⟩, hkinds⟩, hproductions⟩ := h
  refine ⟨hne, hreserved, fun hmem => ?_, fun {i kind} hkind => ?_, fun hp => ?_⟩
  · rcases mem_iff.1 hmem with heq | heq <;> cases heq
    · exact hopener
    · exact hcloser
  · have hlt : i < g.nonterminals.size := by
      by_contra hge
      simp [Grammar.visibleKind?, Array.getElem?_eq_none (Nat.not_lt.1 hge)] at hkind
    simpa [hkind] using hkinds i hlt
  · exact paired_of_testProduction hne (hproductions _ (Operators.mem_of_getElem? hp))

mutual

/-- Only the brackets themselves stand for brackets. -/
theorem Suits.not_mem_of_expands (h : b.Suits g) :
    ∀ {symbol : Symbol} {kinds : List Kind}, g.Expands symbol kinds → b.mem symbol = false →
      ∀ kind ∈ kinds, b.mem (.terminal kind) = false
  | _, _, .terminal _, hother => by simpa using hother
  | _, _, .visible hkind, _ => by simpa using h.kinds hkind
  | _, _, .hidden hkind hp hexpands, _ => h.not_mem_of_expandsAll hexpands fun s hs => by
    by_contra hmem
    obtain ⟨hvisible, -⟩ := h.paired hp hs (by simpa using hmem)
    rw [hkind] at hvisible
    cases hvisible

theorem Suits.not_mem_of_expandsAll (h : b.Suits g) :
    ∀ {symbols : List Symbol} {kinds : List Kind}, g.ExpandsAll symbols kinds →
      (∀ s ∈ symbols, b.mem s = false) → ∀ kind ∈ kinds, b.mem (.terminal kind) = false
  | _, _, .nil, _ => by simp
  | _, _, .cons hexpands hrest, hothers => by
    obtain ⟨hfirst, hmore⟩ := List.forall_mem_cons.1 hothers
    intro kind hkind
    rcases List.mem_append.1 hkind with hkind | hkind
    · exact h.not_mem_of_expands hexpands hfirst kind hkind
    · exact h.not_mem_of_expandsAll hrest hmore kind hkind

end

/-- Where an item asks for a closing bracket, an opening one and something without brackets have
been read of it, and it is the last symbol. -/
theorem Suits.asks (h : b.Suits g) {mark : Nat}
    (hsymbol : (Item.rest g ⟨p, mark⟩).head? = some (.terminal b.closer)) :
    ∃ production front middle, g.productions[p]? = some production ∧
      production.rhs = front ++ .terminal b.opener :: (middle ++ [.terminal b.closer]) ∧
      (∀ s ∈ front ++ middle, b.mem s = false) ∧ mark = front.length + 1 + middle.length := by
  simp only [Item.rest] at hsymbol
  split at hsymbol
  swap
  · cases hsymbol
  rename_i production hp
  rw [List.head?_drop] at hsymbol
  obtain ⟨-, front, middle, hrhs, hothers⟩ := h.paired hp (List.mem_of_getElem? hsymbol) mem_closer
  refine ⟨production, front, middle, hp, hrhs, hothers, ?_⟩
  have hlt := (List.getElem?_eq_some_iff.1 hsymbol).1
  rw [hrhs] at hlt hsymbol
  simp only [List.length_append, List.length_cons, List.length_nil] at hlt
  by_contra hmark
  -- Anywhere else there is no closing bracket.
  rcases Nat.lt_trichotomy mark front.length with hbefore | rfl | hbehind
  · rw [List.getElem?_append_left hbefore] at hsymbol
    have hnot := hothers _ (List.mem_append_left _ (List.mem_of_getElem? hsymbol))
    cases mem_closer.symm.trans hnot
  · rw [List.getElem?_append_right (Nat.le_refl _), Nat.sub_self] at hsymbol
    simp only [List.getElem?_cons_zero, Option.some.injEq, Symbol.terminal.injEq] at hsymbol
    exact h.ne hsymbol
  · obtain ⟨n, rfl⟩ := Nat.exists_eq_add_of_lt hbehind
    rw [List.getElem?_append_right (by omega), Nat.add_assoc, Nat.add_sub_cancel_left,
      List.getElem?_cons_succ, List.getElem?_append_left (by omega)] at hsymbol
    have hnot := hothers _ (List.mem_append_right _ (List.mem_of_getElem? hsymbol))
    cases mem_closer.symm.trans hnot

/-- Behind a closing bracket every item is complete. -/
theorem Suits.complete (h : b.Suits g) {core next : List Item} {item : Item}
    (hleads : Leads g core (.terminal b.closer) next) (hbegins : Begins g next item) :
    0 < item.mark ∧ item.rest g = [] := by
  induction hbegins with
  | @kernel item hmem =>
    obtain ⟨⟨p, mark⟩, rfl, -, hsymbol⟩ := hleads.2 item hmem
    obtain ⟨production, front, middle, hp, hrhs, -, hmark⟩ := h.asks hsymbol
    refine ⟨Nat.succ_pos _, ?_⟩
    simp only [Item.rest, Item.advance, hp]
    rw [List.drop_eq_nil_iff, hrhs, hmark]
    simp only [List.length_append, List.length_cons, List.length_nil]
    omega
  | opening _ _ hrest ih =>
    rw [ih.2] at hrest
    cases hrest

/-! ## Entries without brackets -/

/-- An entry that stands for neither of the two brackets. -/
def Aside (b : Brackets) (g : Grammar) (e : Entry) : Prop :=
  e.extra = false → ∀ symbol, g.accessing e.state = some symbol → b.mem symbol = false

/-- An entry that does not count as a bracket. -/
def Uncounted (b : Brackets) (e : Entry) : Prop :=
  ∀ id kind content, e.elements = [.token id kind content] → b.mem (.terminal kind) = false

variable {e : Entry} {stack above below : Stack} {n : Nat}

theorem aside_of_extra (h : e.extra = true) : b.Aside g e := by simp [Aside, h]

theorem unclosed?_of_uncounted (h : b.Uncounted e) :
    unclosed? b.opener b.closer n (e :: below) = unclosed? b.opener b.closer n below := by
  rw [Machine.unclosed?.eq_def]
  dsimp only
  split
  · rename_i id kind content helements
    have hnot := h id kind content helements
    simp only [mem, Bool.or_eq_false_iff, beq_eq_false_iff_ne] at hnot
    rw [if_neg hnot.2, if_neg hnot.1]
  · rfl

theorem unclosed?_append_of_uncounted (h : ∀ e ∈ above, b.Uncounted e) :
    unclosed? b.opener b.closer n (above ++ below) = unclosed? b.opener b.closer n below := by
  induction above with
  | nil => rfl
  | cons e above ih =>
    obtain ⟨he, habove⟩ := List.forall_mem_cons.1 h
    rw [List.cons_append, unclosed?_of_uncounted he, ih habove]

end Brackets

/-! ## Brackets on a stack -/

namespace Stack

variable {b : Brackets} {g : Grammar} {stack : Stack} {e : Entry}

/-- Every entry holds what the symbol may stand for by which its state was reached. -/
theorem Linked.expands (h : Linked g stack) (he : e ∈ stack) :
    e.extra = true ∨ e.elements = [] ∨ ∃ symbol, g.accessing e.state = some symbol ∧
      g.Expands symbol (readings e.elements) := by
  induction h with
  | bottom =>
    obtain rfl := List.mem_singleton.1 he
    exact .inr (.inl rfl)
  | extra hextra _ _ ih =>
    rcases List.mem_cons.1 he with rfl | he
    · exact .inl hextra
    · exact ih he
  | symbol _ hleads hexpands _ ih =>
    rcases List.mem_cons.1 he with rfl | he
    · exact .inr (.inr ⟨_, Grammar.accessing_of_leads hleads, hexpands⟩)
    · exact ih he

/-- What does not stand for a bracket does not count as one. -/
theorem Linked.uncounted (h : Linked g stack) (hb : b.Suits g) (he : e ∈ stack) (hformed : e.Formed)
    (haside : b.Aside g e) : b.Uncounted e := by
  intro id kind content helements
  by_contra hmem
  have hmem : b.mem (.terminal kind) = true := by simpa using hmem
  by_cases hextra : e.extra = true
  · obtain ⟨_, _, herror⟩ := hformed.error hextra
    cases helements.symm.trans herror
  · rcases h.expands he with hyes | hnil | ⟨symbol, haccess, hexpands⟩
    · exact hextra hyes
    · cases helements.symm.trans hnil
    · have hread : kind ∈ readings e.elements := by
        simp [helements, readings, Element.reading?, hb.significant hmem]
      have hother := haside (by simpa using hextra) symbol haccess
      cases hmem.symm.trans (hb.not_mem_of_expands hexpands hother kind hread)

/-- Of an item that has read an opening bracket and then nothing of the pair, the bracket is the
innermost one on the stack. -/
theorem Linked.exists_opener {p n : Nat} {production : Production} {front middle rest : List Symbol}
    (h : Linked g stack) (hp : g.productions[p]? = some production)
    (hrhs : production.rhs = front ++ .terminal b.opener :: (middle ++ rest))
    (hmiddle : ∀ s ∈ middle, b.mem s = false) (hn : n ≤ middle.length)
    (hbegins : Begins g (g.core (topState stack)) ⟨p, front.length + 1 + n⟩) :
    ∃ above o below, stack = above ++ o :: below ∧ o.extra = false ∧
      g.accessing o.state = some (.terminal b.opener) ∧ ∀ e ∈ above, b.Aside g e := by
  induction h generalizing n with
  | bottom =>
    have hmem := hbegins.mem_of_mark_pos (by dsimp only; omega)
    simp [topState, Entry.bottom, g.core_zero, Item.opening] at hmem
  | @extra e below hextra hstate _ ih =>
    obtain ⟨above, o, below, rfl, ho, hopener, habove⟩ := ih hn (hstate ▸ hbegins)
    exact ⟨e :: above, o, below, rfl, ho, hopener,
      List.forall_mem_cons.2 ⟨Brackets.aside_of_extra hextra, habove⟩⟩
  | @symbol e below symbol hextra hleads _ _ ih =>
    have haccess := Grammar.accessing_of_leads hleads
    rw [Nat.add_right_comm] at hbegins
    obtain ⟨hbefore, hsymbol⟩ := hleads.back hp hbegins
    rw [hrhs, List.getElem?_append_right (Nat.le_add_right _ _), Nat.add_sub_cancel_left] at hsymbol
    cases n with
    | zero =>
      obtain rfl := Option.some.inj hsymbol
      exact ⟨[], e, below, rfl, hextra, haccess, by simp⟩
    | succ n =>
      rw [List.getElem?_cons_succ, List.getElem?_append_left hn] at hsymbol
      rw [← Nat.add_assoc, Nat.add_right_comm] at hbefore
      obtain ⟨above, o, below, rfl, ho, hopener, habove⟩ := ih (Nat.le_of_succ_le hn) hbefore
      refine ⟨e :: above, o, below, rfl, ho, hopener, List.forall_mem_cons.2 ⟨?_, habove⟩⟩
      rintro - other hother
      obtain rfl := Option.some.inj (hother.symm.trans haccess)
      exact hmiddle _ (List.mem_of_getElem? hsymbol)

/-- Where a closing bracket is read, there is an opening one below, and none of the two above it. -/
theorem Linked.exists_opener_of_leads {next : List Item} (h : Linked g stack) (hb : b.Suits g)
    (hleads : Leads g (g.core (topState stack)) (.terminal b.closer) next) :
    ∃ above o below, stack = above ++ o :: below ∧ o.extra = false ∧
      g.accessing o.state = some (.terminal b.opener) ∧ ∀ e ∈ above, b.Aside g e := by
  obtain ⟨item, hitem⟩ := List.exists_mem_of_ne_nil _ hleads.1
  obtain ⟨⟨p, mark⟩, -, hbegins, hsymbol⟩ := hleads.2 item hitem
  obtain ⟨production, front, middle, hp, hrhs, hothers, rfl⟩ := hb.asks hsymbol
  exact h.exists_opener hp hrhs (fun s hs => hothers s (List.mem_append_right _ hs)) (Nat.le_refl _)
    hbegins

end Stack

/-- What a reduction makes was reached by reading its nonterminal. -/
theorem Machine.Makes.accessing {g : Grammar} {m : Machine} {base lhs next : Nat}
    {children : List Entry} {core : List Item} {entry : Entry}
    (h : m.Makes g base lhs (m.joinedEntry next children) entry)
    (hleads : Leads g core (.nonterminal lhs) (g.core next)) :
    g.accessing entry.state = some (.nonterminal lhs) := by
  have hstate : entry.state = next :=
    h.frame.2.trans (Entry.ofChildren_state next children m.position)
  exact hstate ▸ Grammar.accessing_of_leads hleads

/-! ## Brackets that are tokens -/

namespace Brackets

variable {b : Brackets} {g : Grammar} {e : Entry} {stack above below children : Stack}
  {n id p : Nat} {content : List Char}

theorem unclosed?_closer (h : e.elements = [.token id b.closer content]) :
    unclosed? b.opener b.closer n (e :: below) = unclosed? b.opener b.closer (n + 1) below := by
  rw [Machine.unclosed?.eq_def]
  simp [h]

theorem unclosed?_opener_zero (hne : b.opener ≠ b.closer)
    (h : e.elements = [.token id b.opener content]) :
    unclosed? b.opener b.closer 0 (e :: below) = some ⟨e.start, e.stop⟩ := by
  rw [Machine.unclosed?.eq_def]
  simp [h, hne]

theorem unclosed?_opener_succ (hne : b.opener ≠ b.closer)
    (h : e.elements = [.token id b.opener content]) :
    unclosed? b.opener b.closer (n + 1) (e :: below) = unclosed? b.opener b.closer n below := by
  rw [Machine.unclosed?.eq_def]
  simp [h, hne]

/-- All brackets on a stack are tokens. -/
def Held (b : Brackets) (g : Grammar) (stack : Stack) : Prop :=
  ∀ e ∈ stack, e.extra = false → ∀ kind, g.accessing e.state = some (.terminal kind) →
    b.mem (.terminal kind) = true → ∃ id content, e.elements = [.token id kind content]

/-- Entries that are read one after the other come apart where their symbols do. -/
theorem exists_of_symbols {front back : List Symbol} {symbol : Symbol}
    (h : (children.filter fun e => !e.extra).map (fun e => g.accessing e.state) =
      (front ++ symbol :: back).map some) :
    ∃ before e after, children = before ++ e :: after ∧ e.extra = false ∧
      g.accessing e.state = some symbol ∧
      (before.filter fun e => !e.extra).map (fun e => g.accessing e.state) = front.map some ∧
      (after.filter fun e => !e.extra).map (fun e => g.accessing e.state) = back.map some := by
  rw [List.map_append, List.map_cons] at h
  obtain ⟨first, rest, hfilter, hfront, hrest⟩ := List.map_eq_append_iff.1 h
  obtain ⟨before, others, rfl, rfl, rfl⟩ := List.filter_eq_append_iff.1 hfilter
  obtain ⟨e, later, hothers, hsymbol, hback⟩ := List.map_eq_cons_iff.1 hrest
  obtain ⟨extras, after, rfl, hextras, hextra, rfl⟩ := List.filter_eq_cons_iff.1 hothers
  refine ⟨before ++ extras, e, after, by simp, by simpa using hextra, hsymbol, ?_, hback⟩
  rw [List.filter_append, List.filter_eq_nil_iff.2 hextras, List.append_nil, hfront]

theorem aside_of_symbols {symbols : List Symbol}
    (h : (children.filter fun e => !e.extra).map (fun e => g.accessing e.state) = symbols.map some)
    (hothers : ∀ s ∈ symbols, b.mem s = false) : ∀ e ∈ children, b.Aside g e := by
  intro e he hextra symbol haccess
  have hmem : some symbol ∈ symbols.map some := by
    rw [← h]
    exact List.mem_map.2 ⟨e, List.mem_filter.2 ⟨he, by simp [hextra]⟩, haccess⟩
  obtain ⟨s, hs, heq⟩ := List.mem_map.1 hmem
  exact Option.some.inj heq ▸ hothers s hs

/-- The entries of a right-hand side with brackets: the two brackets, with none beside them. -/
theorem exists_pair {front middle : List Symbol}
    (h : (children.filter fun e => !e.extra).map (fun e => g.accessing e.state) =
      (front ++ Symbol.terminal b.opener :: (middle ++ [Symbol.terminal b.closer])).map some)
    (hothers : ∀ s ∈ front ++ middle, b.mem s = false) :
    ∃ before o between c after, children = before ++ o :: (between ++ c :: after) ∧
      (o.extra = false ∧ g.accessing o.state = some (.terminal b.opener)) ∧
      (c.extra = false ∧ g.accessing c.state = some (.terminal b.closer)) ∧
      (∀ e ∈ before, b.Aside g e) ∧ (∀ e ∈ between, b.Aside g e) ∧ ∀ e ∈ after, b.Aside g e := by
  obtain ⟨before, o, inner, rfl, ho, hopener, hbefore, hinner⟩ := exists_of_symbols h
  obtain ⟨between, c, after, rfl, hc, hcloser, hbetween, hafter⟩ := exists_of_symbols hinner
  exact ⟨before, o, between, c, after, rfl, ⟨ho, hopener⟩, ⟨hc, hcloser⟩,
    aside_of_symbols hbefore fun s hs => hothers s (List.mem_append_left _ hs),
    aside_of_symbols hbetween fun s hs => hothers s (List.mem_append_right _ hs),
    aside_of_symbols hafter (by simp)⟩

/-- Of a right-hand side that ends with a closing bracket, the opening one is the innermost. -/
theorem exists_partner (hb : b.Suits g) {production : Production} {init : Stack}
    (hp : g.productions[p]? = some production)
    (haccess : ((init ++ [e]).filter fun e => !e.extra).map (fun e => g.accessing e.state) =
      production.rhs.map some)
    (hextra : e.extra = false) (hcloser : g.accessing e.state = some (.terminal b.closer)) :
    (g.visibleKind? production.lhs).isSome = true ∧
      ∃ before o between, init = before ++ o :: between ∧ o.extra = false ∧
        g.accessing o.state = some (.terminal b.opener) ∧ ∀ e ∈ between, b.Aside g e := by
  have hmem : Symbol.terminal b.closer ∈ production.rhs := by
    have hsome : some (Symbol.terminal b.closer) ∈ production.rhs.map some := by
      rw [← haccess]
      exact List.mem_map.2 ⟨e, List.mem_filter.2 ⟨by simp, by simp [hextra]⟩, hcloser⟩
    simpa using hsome
  obtain ⟨hvisible, front, middle, hrhs, hothers⟩ := hb.paired hp hmem mem_closer
  have hinit : (init.filter fun e => !e.extra).map (fun e => g.accessing e.state) =
      (front ++ Symbol.terminal b.opener :: middle).map some := by
    rw [hrhs, ← List.cons_append, ← List.append_assoc, List.map_append, List.filter_append,
      List.map_append] at haccess
    exact (List.append_inj' haccess (by simp [hextra])).1
  obtain ⟨before, o, between, rfl, ho, hopener, -, hbetween⟩ := exists_of_symbols hinit
  exact ⟨hvisible, before, o, between, rfl, ho, hopener,
    aside_of_symbols hbetween fun s hs => hothers s (List.mem_append_right _ hs)⟩

/-- The brackets of a whole right-hand side cancel out. -/
theorem unclosed?_children (hb : b.Suits g) {production : Production}
    (hp : g.productions[p]? = some production)
    (haccess : (children.filter fun e => !e.extra).map (fun e => g.accessing e.state) =
      production.rhs.map some)
    (huncounted : ∀ e ∈ children, b.Aside g e → b.Uncounted e) (hheld : b.Held g children) :
    unclosed? b.opener b.closer n (children.reverse ++ below) =
      unclosed? b.opener b.closer n below := by
  have hpass {part rest : Stack} {n : Nat} (hpart : ∀ e ∈ part, e ∈ children)
      (haside : ∀ e ∈ part, b.Aside g e) : unclosed? b.opener b.closer n (part.reverse ++ rest) =
        unclosed? b.opener b.closer n rest :=
    unclosed?_append_of_uncounted fun e he =>
      huncounted e (hpart e (List.mem_reverse.1 he)) (haside e (List.mem_reverse.1 he))
  by_cases hnone : ∀ s ∈ production.rhs, b.mem s = false
  · exact hpass (fun _ he => he) (aside_of_symbols haccess hnone)
  · obtain ⟨symbol, hsymbol, hmem⟩ : ∃ s ∈ production.rhs, b.mem s = true := by simpa using hnone
    obtain ⟨-, front, middle, hrhs, hothers⟩ := hb.paired hp hsymbol hmem
    rw [hrhs] at haccess
    obtain ⟨before, o, between, c, after, rfl, ⟨ho, hopener⟩, ⟨hc, hcloser⟩, hbefore, hbetween,
      hafter⟩ := exists_pair haccess hothers
    obtain ⟨_, _, htoken⟩ := hheld o (by simp) ho b.opener hopener mem_opener
    obtain ⟨_, _, htoken'⟩ := hheld c (by simp) hc b.closer hcloser mem_closer
    simp only [List.reverse_append, List.reverse_cons, List.append_assoc, List.cons_append,
      List.nil_append]
    rw [hpass (by simp +contextual) hafter, unclosed?_closer htoken',
      hpass (by simp +contextual) hbetween, unclosed?_opener_succ hb.ne htoken,
      hpass (by simp +contextual) hbefore]

/-- The innermost opening bracket is found first. -/
theorem unclosed?_eq (hne : b.opener ≠ b.closer) {o : Entry} (habove : ∀ e ∈ above, b.Uncounted e)
    (ho : o.elements = [.token id b.opener content]) :
    unclosed? b.opener b.closer 0 (above ++ o :: below) = some ⟨o.start, o.stop⟩ := by
  rw [unclosed?_append_of_uncounted habove, unclosed?_opener_zero hne ho]

/-- A reduction joins whole pairs. -/
theorem Held.reduce {m m' : Machine} (h : b.Held g m.stack) (hb : b.Suits g)
    (hreduces : m.Reduces g p m')
    (huncounted : ∀ e ∈ m.stack, b.Aside g e → b.Uncounted e)
    (huncounted' : ∀ e ∈ m'.stack, b.Aside g e → b.Uncounted e) :
    b.Held g m'.stack ∧
      unclosed? b.opener b.closer n m'.stack = unclosed? b.opener b.closer n m.stack := by
  cases hreduces with
  | @mk production extras below children entry next nextId hp _ hstack hextras _ _ _ _ _ _ haccess
      hleads hmakes _ =>
    have hentry := hmakes.accessing hleads
    have hextras' : ∀ e ∈ extras.map fun e => { e with state := next }, e.extra = true := by
      simpa using hextras
    rw [hstack] at h huncounted
    constructor
    · intro e he hextra kind hkind hmem
      rcases List.mem_append.1 he with he | he
      · cases hextra.symm.trans (hextras' e he)
      · rcases List.mem_cons.1 he with rfl | he
        · cases hkind.symm.trans hentry
        · exact h e (by simp [he]) hextra kind hkind hmem
    · rw [hstack, unclosed?_append_of_uncounted fun e he =>
          huncounted e (List.mem_append_left _ he) (aside_of_extra (hextras e he)),
        unclosed?_children hb hp haccess (fun e he => huncounted e (by simp [he]))
          fun e he => h e (by simp [he]),
        unclosed?_append_of_uncounted fun e he =>
          huncounted' e (List.mem_append_left _ he) (aside_of_extra (hextras' e he)),
        unclosed?_of_uncounted (huncounted' entry (by simp) fun _ symbol hsymbol => ?_)]
      obtain rfl := Option.some.inj (hsymbol.symm.trans hentry)
      rfl

end Brackets
end SqlTree
