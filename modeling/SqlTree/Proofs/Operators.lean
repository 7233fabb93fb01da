import SqlTree.Proofs.Cell

/-!
# Operators of two operands

A rule with an operator between two operands, at several levels that group to the left. Two facts
about the table decide how its nodes are grouped: in front of an operator a node is complete only if it
is of no lower level, and behind an operand on the right only operators of a higher level are shifted.

- `Operators`        : the nonterminals of the rule and the levels of its operators
- `Operators.Suits`  : what the grammar must be like
- `Operators.test`   : the same as a test
- `Operators.Suits.le_of_reduce` : where a node is complete, the next operator is not higher
- `Operators.Suits.lt_of_shift`  : behind a right operand, the next operator is higher
-/

namespace SqlTree

open Item (Begins)

/-! ## Rules with operators -/

/-- Operators of two operands. -/
structure Operators where
  /-- The nonterminal of operands. -/
  operand : Nat
  /-- The nonterminal of an operator with its operands. -/
  node : Nat
  /-- The kind of nodes that it makes. -/
  kind : Kind
  /-- The level of an operator that begins with a token. -/
  level : Kind → Option Int
  /-- Hidden nonterminals that stand for one other symbol, `operand` among them. -/
  units : List Nat
  /-- Nonterminals with which something may begin that stands behind an operand. -/
  behind : List Nat

namespace Operators

variable (o : Operators) (g : Grammar)

/-- Entries for the symbol hold one element. -/
def single : Symbol → Bool
  | .terminal _ => true
  | .nonterminal i => (g.visibleKind? i).isSome || o.units.contains i

/-- The last symbols of all operators. -/
def closers : List Symbol :=
  g.productions.toList.filterMap fun p =>
    if p.lhs = o.node then p.rhs[p.rhs.length - 2]? else none

/-- What the grammar must be like. An operator and its operands are one production, which groups to the
left and has the level as its strength. Whoever asks for an operator behind an operand has that
strength, too, except where the operand is not one on the right of another operator. -/
structure Suits : Prop where
  visible : g.visibleKind? o.node = some o.kind
  unique : ∀ i, g.visibleKind? i = some o.kind → i = o.node
  isUnit : o.operand ∈ o.units
  unit : ∀ {p : Nat} {production : Production}, g.productions[p]? = some production →
    production.lhs ∈ o.units → ∃ symbol, production.rhs = [symbol] ∧ o.single g symbol = true
  nested : ∃ (p : Nat) (production : Production), g.productions[p]? = some production ∧
    production.lhs = o.operand ∧ production.rhs = [.nonterminal o.node]
  binary : ∀ {p : Nat} {production : Production}, g.productions[p]? = some production →
    production.lhs = o.node → ∃ (operator : Kind) (more : List Kind),
      production.rhs = .nonterminal o.operand :: .terminal operator ::
        (more.map .terminal ++ [.nonterminal o.operand]) ∧
      o.level operator = some production.prec ∧ production.assoc = .left
  leveled : ∀ {kind : Kind} {l : Int}, o.level kind = some l → ∃ (p : Nat) (production : Production),
    g.productions[p]? = some production ∧ production.lhs = o.node ∧
      production.rhs[1]? = some (.terminal kind) ∧ production.prec = l
  asked : ∀ {p i : Nat} {production : Production} {kind : Kind} {l : Int},
    g.productions[p]? = some production → production.rhs[i]? = some (.nonterminal o.operand) →
    production.rhs[i + 1]? = some (.terminal kind) → o.level kind = some l →
      production.prec = l ∨ ∃ n symbol, i = n + 1 ∧ production.rhs[n]? = some symbol ∧
        symbol ∉ o.closers g
  next : ∀ {p i j : Nat} {production : Production}, g.productions[p]? = some production →
    production.rhs[i]? = some (.nonterminal o.operand) →
    production.rhs[i + 1]? = some (.nonterminal j) → j ∈ o.behind
  begins : ∀ {p : Nat} {production : Production} {symbol : Symbol},
    g.productions[p]? = some production → production.lhs ∈ o.behind →
    production.rhs.head? = some symbol →
      (∀ j, symbol = .nonterminal j → j ∈ o.behind) ∧
      ∀ kind, symbol = .terminal kind → o.level kind = none
  grouped : ∀ {p : Nat} {production : Production} {kind : Kind},
    g.productions[p]? = some production → production.assoc ≠ .left →
    (∀ symbol ∈ production.rhs.getLast?, symbol = .nonterminal o.operand) →
      o.level kind ≠ some production.prec
  split : ∀ {l : Int}, o.level .gt = some l → ∃ l', o.level .shr = some l' ∧ l ≤ l'
  reserved : ∀ {kind : Kind} {l : Int}, o.level kind = some l →
    kind.isContextual = false ∧ kind ≠ .ident

/-! ## A test -/

/-- Whether all that stands behind an operand of a production is as it should be. -/
def followsSafely (production : Production) : Bool :=
  (List.range production.rhs.length).all fun i =>
    production.rhs[i]? != some (.nonterminal o.operand) ||
      match production.rhs[i + 1]? with
      | some (.terminal kind) => (o.level kind).all fun l =>
          production.prec == l || (0 < i && (production.rhs[i - 1]?).any fun symbol =>
            !(o.closers g).contains symbol)
      | some (.nonterminal j) => o.behind.contains j
      | none => true

/-- Whether an operator has its operands, and its level as its strength. -/
def isBinary (production : Production) : Bool :=
  match production.rhs with
  | .nonterminal i :: .terminal kind :: rest =>
    i == o.operand && o.level kind == some production.prec && production.assoc == .left &&
      rest.getLast? == some (.nonterminal o.operand) &&
      rest.dropLast.all fun
        | .terminal _ => true
        | .nonterminal _ => false
  | _ => false

/-- Whether a production is as it should be. -/
def testProduction (levels : List Int) (production : Production) : Bool :=
  (!o.units.contains production.lhs || match production.rhs with
    | [symbol] => o.single g symbol
    | _ => false) &&
  (production.lhs != o.node || o.isBinary production) && o.followsSafely g production &&
  (!o.behind.contains production.lhs || match production.rhs with
    | .nonterminal j :: _ => o.behind.contains j
    | .terminal kind :: _ => (o.level kind).isNone
    | [] => true) &&
  (production.assoc == .left || !levels.contains production.prec ||
    (production.rhs.getLast?).any fun symbol => symbol != .nonterminal o.operand)

/-- Whether a token that begins an operator is as it should be. -/
def testKind (kind : Kind) : Bool :=
  (o.level kind).all fun l => !kind.isContextual && kind != .ident &&
    g.productions.toList.any fun p =>
      p.lhs == o.node && p.rhs[1]? == some (.terminal kind) && p.prec == l

/-- Whether the grammar is as it should be. -/
def test : Bool :=
  g.visibleKind? o.node == some o.kind &&
  (List.range g.nonterminals.size).all (fun i => g.visibleKind? i != some o.kind || i == o.node) &&
  o.units.contains o.operand &&
  g.productions.toList.any (fun p => p.lhs == o.operand && p.rhs == [.nonterminal o.node]) &&
  g.productions.toList.all (o.testProduction g (Kind.all.filterMap o.level)) &&
  Kind.all.all (o.testKind g) &&
  (o.level .gt).all fun l => (o.level .shr).any fun l' => decide (l ≤ l')

variable {o g}

theorem exists_getElem?_of_mem {production : Production} (h : production ∈ g.productions.toList) :
    ∃ p : Nat, g.productions[p]? = some production :=
  Array.getElem?_of_mem (Array.mem_toList_iff.1 h)

theorem mem_of_getElem? {p : Nat} {production : Production}
    (h : g.productions[p]? = some production) : production ∈ g.productions.toList :=
  Array.mem_toList_iff.2 (Array.mem_of_getElem? h)

theorem binary_of_isBinary {production : Production} (h : o.isBinary production = true) :
    ∃ (operator : Kind) (more : List Kind),
      production.rhs = .nonterminal o.operand :: .terminal operator ::
        (more.map .terminal ++ [.nonterminal o.operand]) ∧
      o.level operator = some production.prec ∧ production.assoc = .left := by
  unfold isBinary at h
  split at h
  · rename_i i kind rest hrhs
    simp only [Bool.and_eq_true, beq_iff_eq, List.all_eq_true] at h
    obtain ⟨⟨⟨⟨rfl, hlevel⟩, hassoc⟩, hlast⟩, hmiddle⟩ := h
    obtain ⟨more, hmore⟩ : ∃ more : List Kind, rest.dropLast = more.map .terminal := by
      generalize rest.dropLast = middle at hmiddle
      induction middle with
      | nil => exact ⟨[], rfl⟩
      | cons symbol middle ih =>
        obtain ⟨more, rfl⟩ := ih fun s hs => hmiddle s (List.mem_cons_of_mem _ hs)
        have hsymbol := hmiddle symbol List.mem_cons_self
        cases symbol with
        | terminal kind => exact ⟨kind :: more, rfl⟩
        | nonterminal => cases hsymbol
    refine ⟨kind, more, ?_, hlevel, hassoc⟩
    rw [hrhs, ← hmore, List.dropLast_append_getLast? _ hlast]
  · cases h

/-- A grammar that passes the test is as it should be. -/
theorem suits_of_test (h : o.test g = true) : o.Suits g := by
  simp only [test, Bool.and_eq_true, List.all_eq_true, List.any_eq_true, beq_iff_eq,
    List.mem_range] at h
  obtain ⟨⟨⟨⟨⟨⟨hvisible, hunique⟩, hunit⟩, hnested⟩, hproductions⟩, hkinds⟩, hsplit⟩ := h
  have htest {p : Nat} {production : Production} (hp : g.productions[p]? = some production) :=
    hproductions production (mem_of_getElem? hp)
  simp only [testProduction, Bool.and_eq_true] at htest
  have hkind {kind : Kind} {l : Int} (hl : o.level kind = some l) :
      (kind.isContextual = false ∧ kind ≠ .ident) ∧ ∃ production ∈ g.productions.toList,
        (production.lhs = o.node ∧ production.rhs[1]? = some (.terminal kind)) ∧
          production.prec = l := by
    have hcheck := hkinds kind (Kind.mem_all kind)
    simp only [testKind, hl, Option.all_some, Bool.and_eq_true, Bool.not_eq_true', bne_iff_ne,
      List.any_eq_true, beq_iff_eq] at hcheck
    exact hcheck
  refine {
    visible := hvisible
    unique := ?_
    isUnit := by simpa using hunit
    unit := ?_
    nested := ?_
    binary := ?_
    leveled := ?_
    asked := ?_
    next := ?_
    begins := ?_
    grouped := ?_
    split := ?_
    reserved := fun hl => (hkind hl).1 }
  · intro i hi
    obtain ⟨info, hinfo, -⟩ := Option.bind_eq_some_iff.1 hi
    have hcheck := hunique i (Array.getElem?_eq_some_iff.1 hinfo).1
    simpa [hi] using hcheck
  · intro p production hp hlhs
    have hcheck := (htest hp).1.1.1.1
    simp only [List.contains_iff_mem.2 hlhs, Bool.not_true, Bool.false_or] at hcheck
    split at hcheck
    · rename_i symbol hrhs
      exact ⟨symbol, hrhs, hcheck⟩
    · cases hcheck
  · obtain ⟨production, hmem, hcheck⟩ := hnested
    obtain ⟨p, hp⟩ := exists_getElem?_of_mem hmem
    exact ⟨p, production, hp, hcheck⟩
  · intro p production hp hlhs
    have hcheck := (htest hp).1.1.1.2
    exact binary_of_isBinary (by simpa [hlhs] using hcheck)
  · intro kind l hl
    obtain ⟨production, hmem, ⟨hlhs, hrhs⟩, hprec⟩ := (hkind hl).2
    obtain ⟨p, hp⟩ := exists_getElem?_of_mem hmem
    exact ⟨p, production, hp, hlhs, hrhs, hprec⟩
  · intro p i production kind l hp hi hnext hl
    have hcheck := (htest hp).1.1.2
    simp only [followsSafely, List.all_eq_true, List.mem_range] at hcheck
    have hcheck := hcheck i (List.getElem?_eq_some_iff.1 hi).1
    simp only [hi, hnext, hl, Option.all_some, bne_self_eq_false, Bool.false_or, Bool.or_eq_true,
      beq_iff_eq, Bool.and_eq_true, decide_eq_true_eq, Option.any_eq_true] at hcheck
    rcases hcheck with hcheck | ⟨hpos, symbol, hsymbol, hnot⟩
    · exact Or.inl hcheck
    · obtain ⟨n, rfl⟩ := Nat.exists_eq_succ_of_ne_zero (Nat.ne_of_gt hpos)
      exact Or.inr ⟨n, symbol, rfl, hsymbol, by simpa using hnot⟩
  · intro p i j production hp hi hnext
    have hcheck := (htest hp).1.1.2
    simp only [followsSafely, List.all_eq_true, List.mem_range] at hcheck
    have hcheck := hcheck i (List.getElem?_eq_some_iff.1 hi).1
    simpa [hi, hnext] using hcheck
  · intro p production symbol hp hlhs hhead
    have hcheck := (htest hp).1.2
    obtain ⟨rest, hrhs⟩ := List.head?_eq_some_iff.1 hhead
    simp only [List.contains_iff_mem.2 hlhs, Bool.not_true, Bool.false_or, hrhs] at hcheck
    constructor
    · rintro j rfl
      simpa using hcheck
    · rintro kind rfl
      simpa using hcheck
  · intro p production kind hp hassoc hlast hl
    have hcheck := (htest hp).2
    have hmem : production.prec ∈ Kind.all.filterMap o.level :=
      List.mem_filterMap.2 ⟨kind, Kind.mem_all kind, hl⟩
    simp only [Bool.or_eq_true, beq_iff_eq, Option.any_eq_true, bne_iff_ne] at hcheck
    rcases hcheck with (hleft | hnot) | ⟨symbol, hsymbol, hne⟩
    · exact hassoc hleft
    · simp [hmem] at hnot
    · exact hne (hlast symbol hsymbol)
  · intro l hl
    simpa [hl, Option.any_eq_true] using hsplit

end Operators

/-! ## Items -/

namespace Item

variable {g : Grammar} {item : Item} {p : Nat} {production : Production} {first second : Symbol}
  {after : List Symbol}

theorem rest_opening (hp : g.productions[p]? = some production) :
    (Item.opening p).rest g = production.rhs := by
  simp [Item.rest, Item.opening, hp]

/-- The next two symbols of an item are those of its production at the mark. -/
theorem exists_of_rest_eq_cons_cons (h : item.rest g = first :: second :: after) :
    ∃ production, g.productions[item.production]? = some production ∧
      production.rhs[item.mark]? = some first ∧ production.rhs[item.mark + 1]? = some second := by
  unfold Item.rest at h
  split at h
  · rename_i production hp
    have hget (i : Nat) : production.rhs[item.mark + i]? = (first :: second :: after)[i]? := by
      rw [← List.getElem?_drop, h]
    exact ⟨production, hp, hget 0, hget 1⟩
  · cases h

/-- Behind a symbol that was read stands what items ask for that had it before them. -/
theorem Leads.exists_before {core next : List Item} {symbol : Symbol} (h : Leads g core symbol next)
    (hmem : item ∈ next) (hrest : item.rest g = first :: after) :
    ∃ before, item = before.advance ∧ Begins g core before ∧
      before.rest g = symbol :: first :: after := by
  obtain ⟨before, rfl, hbegins, hsymbol⟩ := h.2 item hmem
  obtain ⟨others, hothers⟩ := List.head?_eq_some_iff.1 hsymbol
  refine ⟨before, rfl, hbegins, ?_⟩
  rw [hothers, ← hrest, Grammar.rest_advance hothers]

end Item

/-! ## Along a path -/

namespace Table

variable {g : Grammar} {state next p : Nat} {symbol : Symbol} {item : Item} {after : List Symbol}
  {production : Production} {taken rest : List (Symbol × Nat)} {kind : Kind}

/-- The table follows the edges of the automaton, of which there is one for each symbol. -/
theorem Moves.lookup (hg : g.WellFormed) (h : (ofGrammar g).Moves state symbol next)
    (hstate : state < (Automaton.build (Closure.Setting.ofGrammar g)).kernels.size) :
    ((Automaton.build (Closure.Setting.ofGrammar g)).edges state).lookup symbol = some next := by
  have hcoherent := (Automaton.saturated_build hg).1.coherent
  have hdone := Automaton.upToDate_build hg hstate
  exact (Automaton.lookup_edges_iff hg hcoherent hdone hstate next).2
    (hdone.items_of_mem hg hcoherent hstate h.mem_edges)

theorem Moves.followsAt (hg : g.WellFormed) (hmove : (ofGrammar g).Moves state symbol next)
    (h : g.FollowsAt state item kind) (hrest : item.rest g = symbol :: after) :
    g.FollowsAt next item.advance kind := by
  obtain ⟨target, hlookup, hfollows⟩ := h.advance hg hrest
  rw [hmove.lookup hg h.1] at hlookup
  obtain rfl := Option.some.inj hlookup
  exact hfollows

/-- What may follow a production when it is begun may follow it all along. -/
theorem Path.followsAt (hg : g.WellFormed) (h : (ofGrammar g).Path (taken ++ rest))
    (hp : g.productions[p]? = some production)
    (hsymbols : (taken.map Prod.fst).reverse <+: production.rhs)
    (hopening : g.FollowsAt (topOf rest) (Item.opening p) kind) :
    g.FollowsAt (topOf (taken ++ rest)) ⟨p, taken.length⟩ kind := by
  induction taken with
  | nil => exact hopening
  | cons first taken ih =>
    cases h with
    | @cons _ symbol next h hmove =>
      rw [List.map_cons, List.reverse_cons] at hsymbols
      have hbefore := ih h ((List.prefix_append _ _).trans hsymbols)
      obtain ⟨after, hafter⟩ := hsymbols
      have hrest : Item.rest g ⟨p, taken.length⟩ = symbol :: after := by
        simp [Item.rest, hp, ← hafter]
      exact hmove.followsAt hg hbefore hrest

end Table

namespace Grammar

theorem FollowsAt.begins {g : Grammar} {state : Nat} {item : Item} {kind : Kind}
    (h : g.FollowsAt state item kind) : Begins g (g.core state) item :=
  (Table.closed_iff_begins g _ item).1 h.closed

end Grammar

/-! ## Cells behind an operand -/

namespace Operators

open Table (Path Moves ofGrammar topOf precOf assocOf)

variable {o : Operators} {g : Grammar} {state p q : Nat} {item : Item} {after : List Symbol}
  {production : Production} {kind : Kind} {l : Int} {core : List Item}
  {taken rest : List (Symbol × Nat)}

/-- Where an operand is asked for, all operators are begun. -/
theorem Suits.begins_node (h : o.Suits g) (hbegins : Begins g core item)
    (hrest : item.rest g = .nonterminal o.operand :: after)
    (hp : g.productions[p]? = some production) (hlhs : production.lhs = o.node) :
    Begins g core (Item.opening p) := by
  obtain ⟨q, other, hq, hother, hrhs⟩ := h.nested
  have hnested : Begins g core (Item.opening q) := .opening hbegins hq (hother ▸ hrest)
  exact .opening hnested hp (by rw [Item.rest_opening hq, hrhs, hlhs])

/-- For every operator there is a production. -/
theorem Suits.exists_operator (h : o.Suits g) (hl : o.level kind = some l) :
    ∃ (p : Nat) (production : Production) (more : List Symbol),
      g.productions[p]? = some production ∧ production.lhs = o.node ∧ production.prec = l ∧
      production.rhs = .nonterminal o.operand :: .terminal kind :: more := by
  obtain ⟨p, production, hp, hlhs, hsecond, hprec⟩ := h.leveled hl
  obtain ⟨operator, more, hrhs, -, -⟩ := h.binary hp hlhs
  rw [hrhs] at hsecond
  cases hsecond
  exact ⟨p, production, _, hp, hlhs, hprec, hrhs⟩

/-- Where an operand is asked for, an operator with its operands may be followed by every operator. -/
theorem Suits.followsAt_node (h : o.Suits g)
    (hstate : state < (Automaton.build (Closure.Setting.ofGrammar g)).kernels.size)
    (hbegins : Begins g (g.core state) item)
    (hrest : item.rest g = .nonterminal o.operand :: after) (hl : o.level kind = some l)
    (hp : g.productions[p]? = some production) (hlhs : production.lhs = o.node) :
    g.FollowsAt state (Item.opening p) kind := by
  obtain ⟨other, outer, more, hother, houter, -, hrhs⟩ := h.exists_operator hl
  obtain ⟨q, unit, hq, hunit, hnested⟩ := h.nested
  -- The operand of the other operator is the node, and the operator comes next.
  have hclosed := (Table.closed_iff_begins g _ _).2 (h.begins_node hbegins hrest hother houter)
  have hoperand : g.FollowsAt state (Item.opening q) kind :=
    ⟨hstate, .begins hclosed hq (by rw [Item.rest_opening hother, hrhs, hunit]) ⟨more, .refl⟩⟩
  have hnode : (Item.opening q).rest g = [.nonterminal production.lhs] := by
    rw [Item.rest_opening hq, hnested, hlhs]
  exact ⟨hstate, .vanishes hoperand.2 hp hnode .refl⟩

/-- The last symbols of an operator with its operands. -/
theorem Suits.exists_closer (h : o.Suits g) (hp : g.productions[p]? = some production)
    (hlhs : production.lhs = o.node) :
    ∃ front closer, production.rhs = front ++ [closer, .nonterminal o.operand] ∧
      closer ∈ o.closers g := by
  obtain ⟨operator, more, hrhs, -, -⟩ := h.binary hp hlhs
  obtain ⟨before, closer, hlast⟩ : ∃ before closer,
      Symbol.nonterminal o.operand :: .terminal operator :: more.map .terminal =
        before ++ [closer] := by
    rcases List.eq_nil_or_concat (Symbol.nonterminal o.operand :: .terminal operator ::
      more.map .terminal) with hnil | ⟨before, closer, hlast⟩
    · cases hnil
    · exact ⟨before, closer, by simpa using hlast⟩
  have hsplit : production.rhs = before ++ [closer, .nonterminal o.operand] := by
    rw [hrhs, ← List.cons_append, ← List.cons_append, hlast, List.append_assoc]
    rfl
  refine ⟨before, closer, hsplit, ?_⟩
  refine List.mem_filterMap.2 ⟨production, mem_of_getElem? hp, ?_⟩
  rw [if_pos hlhs, hsplit]
  simp

/-- A path ends with an operator and its operands. -/
structure Ends (o : Operators) (g : Grammar) (p : Nat) (production : Production)
    (taken rest : List (Symbol × Nat)) : Prop where
  path : (ofGrammar g).Path (taken ++ rest)
  found : g.productions[p]? = some production
  lhs : production.lhs = o.node
  symbols : (taken.map Prod.fst).reverse = production.rhs
  opening : Begins g (g.core (topOf rest)) (Item.opening p)

theorem Ends.rest_opening (hends : o.Ends g p production taken rest) (h : o.Suits g) :
    ∃ after, (Item.opening p).rest g = .nonterminal o.operand :: after := by
  obtain ⟨operator, more, hrhs, -, -⟩ := h.binary hends.found hends.lhs
  exact ⟨_, (Item.rest_opening hends.found).trans hrhs⟩

/-- An operator with its operands is complete in front of every operator. -/
theorem Ends.completeAt (hends : o.Ends g p production taken rest) (h : o.Suits g)
    (hg : g.WellFormed) (hl : o.level kind = some l) :
    g.CompleteAt (topOf (taken ++ rest)) p kind := by
  obtain ⟨after, hrest⟩ := hends.rest_opening h
  have hopening := h.followsAt_node hends.path.of_append.topOf_lt hends.opening hrest hl
    hends.found hends.lhs
  have hlength : production.rhs.length = taken.length := by simp [← hends.symbols]
  refine ⟨?_, taken.length, hends.path.followsAt hg hends.found ?_ hopening, ?_⟩
  · rintro rfl
    obtain ⟨root, -, -, haccept⟩ := hg.accept
    obtain rfl := Option.some.inj (hends.found.symm.trans haccept)
    obtain ⟨operator, more, hrhs, -⟩ := h.binary hends.found hends.lhs
    cases hrhs
  · exact hends.symbols ▸ List.prefix_rfl
  · simp [Item.rest, hends.found, hlength]

/-- The operand on the right follows the last symbol of the operator. -/
theorem Ends.exists_last (hends : o.Ends g p production taken rest) (h : o.Suits g)
    (hg : g.WellFormed) : ∃ closer base top path after,
      taken ++ rest = (.nonterminal o.operand, top) :: (closer, base) :: path ∧
      closer ∈ o.closers g ∧ Begins g (g.core base) ⟨p, taken.length - 1⟩ ∧
      Item.rest g ⟨p, taken.length - 1⟩ = .nonterminal o.operand :: after := by
  obtain ⟨front, closer, hrhs, hcloser⟩ := h.exists_closer hends.found hends.lhs
  have hsymbols : taken.map Prod.fst = .nonterminal o.operand :: closer :: front.reverse := by
    rw [← List.reverse_reverse (taken.map Prod.fst), hends.symbols, hrhs]
    simp
  obtain ⟨⟨_, top⟩, others, rfl, rfl, hothers⟩ := List.map_eq_cons_iff.1 hsymbols
  obtain ⟨⟨last, base⟩, taken, rfl, rfl, hfront⟩ := List.map_eq_cons_iff.1 hothers
  refine ⟨_, base, top, taken ++ rest, [], rfl, hcloser, ?_, ?_⟩
  · obtain ⟨operator, more, -, hl, -⟩ := h.binary hends.found hends.lhs
    obtain ⟨after, hrest⟩ := hends.rest_opening h
    have hopening := h.followsAt_node hends.path.of_append.topOf_lt hends.opening hrest hl
      hends.found hends.lhs
    have hbefore : (ofGrammar g).Path ((last, base) :: taken ++ rest) := by
      cases hends.path with
      | cons hpath _ => exact hpath
    refine (hbefore.followsAt hg hends.found ?_ hopening).begins
    refine ⟨[.nonterminal o.operand], ?_⟩
    simp [hfront, hrhs]
  · have hlength : front.length = taken.length := by
      simpa using (congrArg List.length hfront).symm
    simp [Item.rest, hends.found, hrhs, ← hlength]

/-- Behind the operand on the right, all operators are asked for. -/
theorem Ends.asksAt (hends : o.Ends g p production taken rest) (h : o.Suits g) (hg : g.WellFormed)
    (hl : o.level kind = some l) :
    ∃ item, g.AsksAt (topOf (taken ++ rest)) item kind ∧ precOf g item.production = l := by
  obtain ⟨closer, base, top, path, after, hpath, -, hbegins, hrest⟩ := hends.exists_last h hg
  obtain ⟨other, outer, more, hother, hlhs, hprec, hrhs⟩ := h.exists_operator hl
  have hopening := h.begins_node hbegins hrest hother hlhs
  rw [hpath]
  have hends := hpath ▸ hends.path
  cases hends with
  | cons hbefore hmove =>
    have hbase := hbefore.topOf_lt
    have hfirst := (Item.rest_opening hother).trans hrhs
    obtain ⟨-, hmem⟩ := Table.advance_mem_core hg hbase hopening hfirst (hmove.lookup hg hbase)
    refine ⟨_, ⟨.kernel hmem, more, Grammar.rest_advance hfirst⟩, ?_⟩
    simp [precOf, Item.opening, Item.advance, hother, hprec]

/-- In front of an operator, another one with its operands is complete only if it is of no lower
level. -/
theorem Ends.le_of_reduce (hends : o.Ends g p production taken rest) (h : o.Suits g)
    (hg : g.WellFormed) (haction : .reduce p ∈ (ofGrammar g).actions (topOf (taken ++ rest)) kind)
    (hl : o.level kind = some l) : l ≤ production.prec := by
  obtain ⟨item, hasks, rfl⟩ := hends.asksAt h hg hl
  have hle := (Table.reduce_strongest hg haction).2.2 item hasks
  simpa [precOf, hends.found] using hle

/-! ## Who asks for an operator -/

/-- The nonterminals that are asked for behind an operand. -/
theorem Suits.mem_behind {next : List Item} {j : Nat} (h : o.Suits g)
    (hleads : Item.Leads g core (.nonterminal o.operand) next) (hbegins : Begins g next item)
    (hrest : item.rest g = .nonterminal j :: after) : j ∈ o.behind := by
  induction hbegins generalizing j after with
  | kernel hmem =>
    obtain ⟨before, rfl, -, hbefore⟩ := hleads.exists_before hmem hrest
    obtain ⟨production, hp, hoperand, hnext⟩ := Item.exists_of_rest_eq_cons_cons hbefore
    exact h.next hp hoperand hnext
  | opening _ hp hasked ih =>
    rw [Item.rest_opening hp] at hrest
    exact (h.begins hp (ih hasked) (by rw [hrest]; rfl)).1 j rfl

/-- Whoever asks for an operator behind an operand on the right is as strong as its level. -/
theorem Ends.precOf_of_asksAt (hends : o.Ends g p production taken rest) (h : o.Suits g)
    (hg : g.WellFormed) (hasks : g.AsksAt (topOf (taken ++ rest)) item kind)
    (hl : o.level kind = some l) : precOf g item.production = l := by
  obtain ⟨closer, base, top, path, -, hpath, hcloser, -, -⟩ := hends.exists_last h hg
  have hpaths := hpath ▸ hends.path
  rw [hpath] at hasks
  obtain ⟨hbegins, after, hrest⟩ := hasks
  cases hpaths with
  | cons hbefore hmove =>
    cases hbegins with
    | kernel hmem =>
      obtain ⟨before, rfl, hbegins, hrest⟩ := hmove.leads.exists_before hmem hrest
      obtain ⟨other, hother, hoperand, hnext⟩ := Item.exists_of_rest_eq_cons_cons hrest
      rcases h.asked hother hoperand hnext hl with hprec | ⟨n, symbol, hmark, hsymbol, hnot⟩
      · simp [precOf, Item.advance, hother, hprec]
      · -- The operand comes behind the last symbol of an operator, which is none of these.
        cases hbefore with
        | cons _ hcloses =>
          obtain ⟨q, mark⟩ := before
          obtain rfl : mark = n + 1 := hmark
          obtain ⟨-, hread⟩ := hcloses.leads.back hother hbegins
          rw [hsymbol] at hread
          obtain rfl := Option.some.inj hread
          exact absurd hcloser hnot
    | opening hasking hq hasked =>
      rw [Item.rest_opening hq] at hrest
      have hbehind := h.mem_behind hmove.leads hasking hasked
      have hnone := (h.begins hq hbehind (by rw [hrest]; rfl)).2 kind rfl
      rw [hl] at hnone
      cases hnone

/-- Productions that are complete behind an operand end with it, or are empty. -/
theorem Ends.getLast?_of_completeAt (hends : o.Ends g p production taken rest) (h : o.Suits g)
    (hg : g.WellFormed) {other : Production} (hq : g.productions[q]? = some other)
    (hcomplete : g.CompleteAt (topOf (taken ++ rest)) q kind) :
    ∀ symbol ∈ other.rhs.getLast?, symbol = .nonterminal o.operand := by
  obtain ⟨closer, base, top, path, -, hpath, -, -, -⟩ := hends.exists_last h hg
  have hpaths := hpath ▸ hends.path
  rw [hpath] at hcomplete
  obtain ⟨-, mark, hfollows, hrest⟩ := hcomplete
  have hlength : mark = other.rhs.length := by
    refine Nat.le_antisymm (Table.mark_le_of_begins hg hfollows.1 hfollows.begins hq) ?_
    simpa [Item.rest, hq] using hrest
  intro symbol hsymbol
  cases hpaths with
  | cons _ hmove =>
    cases mark with
    | zero => simp [List.length_eq_zero_iff.1 hlength.symm] at hsymbol
    | succ n =>
      obtain ⟨-, hread⟩ := hmove.leads.back hq hfollows.begins
      rw [List.getLast?_eq_getElem?, ← hlength, Nat.add_sub_cancel, hread] at hsymbol
      exact (Option.mem_some_iff.1 hsymbol).symm

/-- Behind the operand on the right of an operator, only operators of a higher level are shifted. -/
theorem Ends.lt_of_shift {next : Nat} (hends : o.Ends g p production taken rest) (h : o.Suits g)
    (hg : g.WellFormed) (haction : .shift next ∈ (ofGrammar g).actions (topOf (taken ++ rest)) kind)
    (hl : o.level kind = some l) : production.prec < l := by
  obtain ⟨item, hasks, hle, hequal⟩ :=
    Table.shift_strongest hg haction (hends.completeAt h hg hl)
  rw [hends.precOf_of_asksAt h hg hasks hl] at hle hequal
  have hprec : precOf g p = production.prec := by simp [precOf, hends.found]
  rw [hprec] at hle hequal
  refine lt_of_le_of_ne hle fun heq => ?_
  -- Whoever is complete here with the same strength groups to the left.
  obtain ⟨q, hcomplete, hsame, hassoc⟩ := hequal heq
  have ⟨_, _, hfollows, _⟩ := hcomplete
  obtain ⟨other, hq⟩ := Table.exists_production_of_begins hg hfollows.1 hfollows.begins
  have hlast := hends.getLast?_of_completeAt h hg hq hcomplete
  have hlevel : o.level kind = some other.prec := by
    rw [hl, ← heq, ← hsame]
    simp [precOf, hq]
  exact h.grouped hq (by simpa [assocOf, hq] using hassoc) hlast hlevel

end Operators
end SqlTree
