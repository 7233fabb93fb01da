import SqlTree.Grammar.Lowering

/-!
# What definitions make of a grammar

Everything that reads a grammar indexes by its numbers. This is safe because lowering refers only to
nonterminals that exist, and because the start symbol is kept apart: it has one production and no rule
mentions it.

- `Symbol.Proper`      : a token, or a nonterminal other than the start symbol
- `Grammar.WellFormed` : the numbers of a grammar fit together
- `Draft.lower_spec`   : lowering a rule keeps a draft well formed
- `Grammar.wellFormed_ofRules` : so a grammar made from rules is well formed
-/

namespace SqlTree

/-- A token, or one of the first `n` nonterminals other than the start symbol. -/
def Symbol.Proper (n : Nat) : Symbol → Prop
  | .terminal kind => kind.isToken = true
  | .nonterminal i => Grammar.start < i ∧ i < n

theorem Symbol.Proper.mono {n n' : Nat} {symbol : Symbol} (h : symbol.Proper n) (hn : n ≤ n') :
    symbol.Proper n' := by
  cases symbol with
  | terminal kind => exact h
  | nonterminal i => exact ⟨h.1, Nat.lt_of_lt_of_le h.2 hn⟩

/-- A production of a nonterminal other than the start symbol, over proper symbols. -/
structure Production.Proper (n : Nat) (p : Production) : Prop where
  lhs : Grammar.start < p.lhs ∧ p.lhs < n
  rhs : ∀ symbol ∈ p.rhs, symbol.Proper n

theorem Production.Proper.mono {n n' : Nat} {p : Production} (h : p.Proper n) (hn : n ≤ n') :
    p.Proper n' where
  lhs := ⟨h.lhs.1, Nat.lt_of_lt_of_le h.lhs.2 hn⟩
  rhs symbol hsymbol := (h.rhs symbol hsymbol).mono hn

/-- The first production is the only one of the start symbol and leads to the start rule; all others
are proper. -/
structure Grammar.WellFormed (g : Grammar) : Prop where
  accept : ∃ root, start < root ∧ root < g.nonterminals.size ∧
    g.productions[acceptProduction]? = some ⟨start, [.nonterminal root], 0, .none⟩
  proper : ∀ (p : Nat) (production : Production), g.productions[p]? = some production →
    p ≠ acceptProduction → production.Proper g.nonterminals.size

namespace Grammar.WellFormed

variable {g : Grammar} {p i : Nat} {production : Production} {symbol : Symbol}

theorem rhs_proper (h : g.WellFormed) (hp : g.productions[p]? = some production)
    (hsymbol : symbol ∈ production.rhs) : symbol.Proper g.nonterminals.size := by
  by_cases haccept : p = acceptProduction
  · obtain ⟨root, hpos, hlt, hroot⟩ := h.accept
    rw [haccept, hroot] at hp
    cases hp
    obtain rfl := List.mem_singleton.1 hsymbol
    exact ⟨hpos, hlt⟩
  · exact (h.proper p production hp haccept).rhs symbol hsymbol

theorem lhs_lt (h : g.WellFormed) (hp : g.productions[p]? = some production) :
    production.lhs < g.nonterminals.size := by
  by_cases haccept : p = acceptProduction
  · obtain ⟨root, -, hlt, hroot⟩ := h.accept
    rw [haccept, hroot] at hp
    cases hp
    exact Nat.zero_lt_of_lt hlt
  · exact (h.proper p production hp haccept).lhs.2

theorem lt_of_mem_rhs (h : g.WellFormed) (hp : g.productions[p]? = some production)
    (hi : .nonterminal i ∈ production.rhs) : i < g.nonterminals.size :=
  (h.rhs_proper hp hi).2

theorem ne_start_of_mem_rhs (h : g.WellFormed) (hp : g.productions[p]? = some production)
    (hi : .nonterminal i ∈ production.rhs) : i ≠ start :=
  Nat.ne_of_gt (h.rhs_proper hp hi).1

theorem isToken_of_mem_rhs {kind : Kind} (h : g.WellFormed)
    (hp : g.productions[p]? = some production) (hkind : .terminal kind ∈ production.rhs) :
    kind.isToken = true :=
  h.rhs_proper hp hkind

end Grammar.WellFormed

/-! ## Drafts -/

/-- All symbols of an alternative are proper. -/
def Alternative.Proper (n : Nat) (a : Alternative) : Prop := ∀ symbol ∈ a.symbols, symbol.Proper n

theorem Alternative.Proper.append {n : Nat} {a b : Alternative} (ha : a.Proper n)
    (hb : b.Proper n) : (a.append b).Proper n := by
  intro symbol hsymbol
  rcases List.mem_append.1 hsymbol with h | h
  · exact ha symbol h
  · exact hb symbol h

namespace Draft

/-- A draft of at least `n` nonterminals, of which only the first production is one of the start
symbol. -/
structure Proper (n : Nat) (first : Production) (draft : Draft) : Prop where
  size_le : n ≤ draft.nonterminals.length
  productions : ∃ rest, draft.productions = first :: rest ∧
    ∀ p ∈ rest, p.Proper draft.nonterminals.length

variable {n lhs : Nat} {first : Production} {draft draft' : Draft} {names : List RuleName}
  {owner : String} {items : List Alternative}

theorem addAlternatives_nonterminals (lhs : Nat) (items : List Alternative) (draft : Draft) :
    (addAlternatives lhs items draft).nonterminals = draft.nonterminals := by
  induction items generalizing draft with
  | nil => rfl
  | cons a rest ih =>
    rw [addAlternatives, ih]
    split <;> rfl

theorem length_addRepetition : (draft.addRepetition owner items).2.nonterminals.length =
    draft.nonterminals.length + 1 := by
  simp [addRepetition, addAlternatives_nonterminals]

theorem Proper.addAlternatives (h : draft.Proper n first)
    (hlhs : Grammar.start < lhs ∧ lhs < draft.nonterminals.length)
    (hitems : ∀ a ∈ items, a.Proper draft.nonterminals.length) :
    (addAlternatives lhs items draft).Proper n first := by
  induction items generalizing draft with
  | nil => exact h
  | cons a rest ih =>
    have hrest := fun b hb => hitems b (List.mem_cons_of_mem _ hb)
    rw [Draft.addAlternatives]
    split
    · exact ih h hlhs hrest
    · refine ih ⟨h.size_le, ?_⟩ hlhs hrest
      obtain ⟨known, hknown, hproper⟩ := h.productions
      refine ⟨known ++ [a.toProduction lhs], by simp [hknown], fun p hp => ?_⟩
      rcases List.mem_append.1 hp with hp | hp
      · exact hproper p hp
      · obtain rfl := List.mem_singleton.1 hp
        exact ⟨hlhs, hitems a List.mem_cons_self⟩

theorem resolve_lt {name : RuleName} {index : Nat} (h : resolve names name = .ok index) :
    Grammar.start < index ∧ index < names.length + 1 := by
  unfold resolve at h
  split at h
  · rename_i i hi
    cases h
    obtain ⟨hlt, -⟩ := List.findIdx?_eq_some_iff_getElem.1 hi
    exact ⟨Nat.succ_pos i, Nat.succ_lt_succ hlt⟩
  · cases h

/-- A repetition is a new nonterminal over its items. -/
theorem Proper.addRepetition (owner : String) (h : draft.Proper n first) (hn : 0 < n)
    (hitems : ∀ a ∈ items, a.Proper draft.nonterminals.length) :
    (draft.addRepetition owner items).2.Proper n first ∧
      draft.nonterminals.length ≤ (draft.addRepetition owner items).2.nonterminals.length ∧
      (Symbol.nonterminal (draft.addRepetition owner items).1).Proper
        (draft.addRepetition owner items).2.nonterminals.length := by
  have hsize := h.size_le
  -- The alternatives are added to a draft that has the new nonterminal already.
  generalize hadded : (⟨draft.nonterminals ++
    [⟨owner ++ "_repeat" ++ toString draft.nonterminals.length, none⟩],
    draft.productions⟩ : Draft) = added
  have hlength : added.nonterminals.length = draft.nonterminals.length + 1 := by
    simp [← hadded]
  have hindex : Grammar.start < draft.nonterminals.length ∧
      draft.nonterminals.length < added.nonterminals.length := by
    rw [hlength]
    exact ⟨Nat.lt_of_lt_of_le hn hsize, Nat.lt_succ_self _⟩
  have hproper : added.Proper n first := by
    refine ⟨by omega, ?_⟩
    obtain ⟨rest, hrest, hall⟩ := h.productions
    exact ⟨rest, by rw [← hadded]; exact hrest, fun p hp => (hall p hp).mono (by omega)⟩
  have hitems' : ∀ a ∈ items, a.Proper added.nonterminals.length :=
    fun a ha symbol hsymbol => (hitems a ha symbol hsymbol).mono (by omega)
  have hlonger : ∀ a ∈ items.map fun a =>
      { a with symbols := .nonterminal draft.nonterminals.length :: a.symbols },
      a.Proper added.nonterminals.length := by
    intro a ha
    obtain ⟨b, hb, rfl⟩ := List.mem_map.1 ha
    intro symbol hsymbol
    rcases List.mem_cons.1 hsymbol with rfl | hsymbol
    · exact hindex
    · exact hitems' b hb symbol hsymbol
  have hfinal : (draft.addRepetition owner items).2 =
      Draft.addAlternatives draft.nonterminals.length (items.map fun a =>
        { a with symbols := .nonterminal draft.nonterminals.length :: a.symbols })
        (Draft.addAlternatives draft.nonterminals.length items added) := by
    rw [← hadded]
    rfl
  have hcount : (draft.addRepetition owner items).2.nonterminals.length =
      draft.nonterminals.length + 1 := by
    rw [hfinal, addAlternatives_nonterminals, addAlternatives_nonterminals, hlength]
  refine ⟨?_, by omega, ?_⟩
  · rw [hfinal]
    refine (hproper.addAlternatives hindex hitems').addAlternatives ?_ ?_
    · rwa [addAlternatives_nonterminals]
    · rwa [addAlternatives_nonterminals]
  · rw [hcount, ← hlength]
    exact hindex

theorem exists_of_bind_eq_ok {α β : Type} {x : Except GrammarError α}
    {f : α → Except GrammarError β} {b : β} (h : x >>= f = .ok b) :
    ∃ a, x = .ok a ∧ f a = .ok b := by
  cases x with
  | error e => cases h
  | ok a => exact ⟨a, rfl, h⟩

/-- What every repetition keeps is kept by lowering a rule, which adds nothing else. -/
theorem lower_induction {P : Draft → Prop} {rule : Rule}
    (hrepetition : ∀ draft items, P draft → P (draft.addRepetition owner items).2) (h : P draft)
    (hlower : lower names owner rule draft = .ok (items, draft')) : P draft' := by
  induction rule generalizing draft draft' items with
  | token kind =>
    simp only [lower] at hlower
    split at hlower
    · cases hlower
      exact h
    · cases hlower
  | node | hidden =>
    obtain ⟨index, -, hlower⟩ := exists_of_bind_eq_ok hlower
    cases hlower
    exact h
  | empty | never =>
    cases hlower
    exact h
  | cat one two ihone ihtwo | alt one two ihone ihtwo =>
    obtain ⟨⟨firsts, middle⟩, hone, hlower⟩ := exists_of_bind_eq_ok hlower
    obtain ⟨⟨seconds, last⟩, htwo, hlower⟩ := exists_of_bind_eq_ok hlower
    cases hlower
    exact ihtwo (ihone h hone) htwo
  | many1 rule ih =>
    obtain ⟨⟨inner, middle⟩, hinner, hlower⟩ := exists_of_bind_eq_ok hlower
    cases hlower
    exact hrepetition middle inner (ih h hinner)
  | prec level assoc rule ih =>
    obtain ⟨⟨inner, middle⟩, hinner, hlower⟩ := exists_of_bind_eq_ok hlower
    cases hlower
    exact ih h hinner

/-- What repetitions and alternatives keep is kept by lowering all definitions. -/
theorem lowerAll_induction {P : Draft → Prop} {definitions : List Definition}
    (halternatives : ∀ draft lhs items, P draft → P (addAlternatives lhs items draft))
    (hrepetition : ∀ draft owner items, P draft → P (draft.addRepetition owner items).2)
    (h : P draft) (hlower : lowerAll names definitions lhs draft = .ok draft') : P draft' := by
  induction definitions generalizing lhs draft with
  | nil =>
    cases hlower
    exact h
  | cons definition rest ih =>
    obtain ⟨⟨items, middle⟩, hitems, hlower⟩ := exists_of_bind_eq_ok hlower
    have hmiddle := lower_induction (fun draft items => hrepetition draft _ items) h hitems
    exact ih (halternatives middle lhs items hmiddle) hlower

theorem Proper.reference {name : RuleName} {index : Nat} (h : draft.Proper n first)
    (hn : n = names.length + 1) (hresolve : resolve names name = .ok index) :
    (Symbol.nonterminal index).Proper draft.nonterminals.length := by
  obtain ⟨hpos, hlt⟩ := resolve_lt hresolve
  exact ⟨hpos, Nat.lt_of_lt_of_le (hn ▸ hlt) h.size_le⟩

theorem proper_ofSymbol {symbol : Symbol} (h : symbol.Proper n) :
    ∀ a ∈ [Alternative.ofSymbol symbol], a.Proper n := by
  intro a ha s hs
  obtain rfl := List.mem_singleton.1 ha
  obtain rfl := List.mem_singleton.1 hs
  exact h

/-- Lowering a rule keeps a draft proper and makes proper alternatives of the rule. -/
theorem lower_spec {rule : Rule} (hn : n = names.length + 1) (h : draft.Proper n first)
    (hlower : lower names owner rule draft = .ok (items, draft')) :
    draft'.Proper n first ∧ draft.nonterminals.length ≤ draft'.nonterminals.length ∧
      ∀ a ∈ items, a.Proper draft'.nonterminals.length := by
  induction rule generalizing draft draft' items with
  | token kind =>
    simp only [lower] at hlower
    split at hlower
    · rename_i hkind
      cases hlower
      exact ⟨h, Nat.le_refl _, proper_ofSymbol hkind⟩
    · cases hlower
  | node kind =>
    obtain ⟨index, hresolve, hlower⟩ := exists_of_bind_eq_ok hlower
    cases hlower
    exact ⟨h, Nat.le_refl _, proper_ofSymbol (h.reference hn hresolve)⟩
  | hidden name =>
    obtain ⟨index, hresolve, hlower⟩ := exists_of_bind_eq_ok hlower
    cases hlower
    exact ⟨h, Nat.le_refl _, proper_ofSymbol (h.reference hn hresolve)⟩
  | empty =>
    cases hlower
    refine ⟨h, Nat.le_refl _, fun a ha symbol hsymbol => ?_⟩
    obtain rfl := List.mem_singleton.1 ha
    cases hsymbol
  | never =>
    cases hlower
    exact ⟨h, Nat.le_refl _, by simp⟩
  | cat one two ihone ihtwo =>
    obtain ⟨⟨firsts, middle⟩, hone, hlower⟩ := exists_of_bind_eq_ok hlower
    obtain ⟨⟨seconds, last⟩, htwo, hlower⟩ := exists_of_bind_eq_ok hlower
    cases hlower
    obtain ⟨hmiddle, hle, hfirsts⟩ := ihone h hone
    obtain ⟨hlast, hle', hseconds⟩ := ihtwo hmiddle htwo
    refine ⟨hlast, Nat.le_trans hle hle', fun a ha => ?_⟩
    obtain ⟨b, hb, ha⟩ := List.mem_flatMap.1 ha
    obtain ⟨c, hc, rfl⟩ := List.mem_map.1 ha
    -- The second part may have made new nonterminals; those of the first part are still there.
    exact Alternative.Proper.append (fun s hs => (hfirsts b hb s hs).mono hle') (hseconds c hc)
  | alt one two ihone ihtwo =>
    obtain ⟨⟨firsts, middle⟩, hone, hlower⟩ := exists_of_bind_eq_ok hlower
    obtain ⟨⟨seconds, last⟩, htwo, hlower⟩ := exists_of_bind_eq_ok hlower
    cases hlower
    obtain ⟨hmiddle, hle, hfirsts⟩ := ihone h hone
    obtain ⟨hlast, hle', hseconds⟩ := ihtwo hmiddle htwo
    refine ⟨hlast, Nat.le_trans hle hle', fun a ha => ?_⟩
    rcases List.mem_append.1 ha with ha | ha
    · exact fun s hs => (hfirsts a ha s hs).mono hle'
    · exact hseconds a ha
  | many1 rule ih =>
    obtain ⟨⟨repeated, middle⟩, hinner, hlower⟩ := exists_of_bind_eq_ok hlower
    cases hlower
    obtain ⟨hmiddle, hle, hrepeated⟩ := ih h hinner
    obtain ⟨hproper, hle', hindex⟩ := hmiddle.addRepetition owner (by omega) hrepeated
    exact ⟨hproper, Nat.le_trans hle hle', proper_ofSymbol hindex⟩
  | prec level assoc rule ih =>
    obtain ⟨⟨inner, middle⟩, hinner, hlower⟩ := exists_of_bind_eq_ok hlower
    cases hlower
    obtain ⟨hproper, hle, hall⟩ := ih h hinner
    refine ⟨hproper, hle, fun a ha => ?_⟩
    obtain ⟨b, hb, rfl⟩ := List.mem_map.1 ha
    exact hall b hb

theorem lowerAll_spec {definitions : List Definition} (hn : n = names.length + 1)
    (h : draft.Proper n first) (hlhs : Grammar.start < lhs)
    (hcount : lhs + definitions.length ≤ n)
    (hlower : lowerAll names definitions lhs draft = .ok draft') : draft'.Proper n first := by
  induction definitions generalizing lhs draft with
  | nil =>
    cases hlower
    exact h
  | cons definition rest ih =>
    obtain ⟨⟨items, middle⟩, hitems, hlower⟩ := exists_of_bind_eq_ok hlower
    obtain ⟨hmiddle, -, hproper⟩ := lower_spec hn h hitems
    rw [List.length_cons] at hcount
    have hsize := hmiddle.size_le
    have hadded := hmiddle.addAlternatives ⟨hlhs, by omega⟩ hproper
    exact ih hadded (Nat.lt_succ_of_lt hlhs) (by omega) hlower

end Draft

/-! ## Grammars -/

namespace Grammar

variable {definitions : List Definition} {root : String} {g : Grammar}

/-- The first production of a grammar made from rules leads to the start rule, and the others are
proper. -/
theorem productions_ofRules (h : ofRules definitions root = .ok g) :
    ∃ index rest, Draft.resolve (definitions.map Definition.name) (.hidden root) = .ok index ∧
      index < g.nonterminals.size ∧
      g.productions.toList = ⟨start, [.nonterminal index], 0, .none⟩ :: rest ∧
      ∀ p ∈ rest, p.Proper g.nonterminals.size := by
  unfold ofRules at h
  dsimp only at h
  split at h
  · cases h
  · cases h
  · obtain ⟨index, hroot, h⟩ := Draft.exists_of_bind_eq_ok h
    obtain ⟨draft, hdraft, h⟩ := Draft.exists_of_bind_eq_ok h
    cases h
    generalize hnames : definitions.map Definition.name = names at hroot hdraft
    have hopening : (opening names index).Proper (names.length + 1)
        ⟨start, [.nonterminal index], 0, .none⟩ :=
      ⟨by simp [opening], [], rfl, by simp⟩
    have hlength : names.length = definitions.length := by simp [← hnames]
    have hproper := Draft.lowerAll_spec rfl hopening Nat.one_pos (by omega) hdraft
    obtain ⟨rest, hrest, hall⟩ := hproper.productions
    refine ⟨index, rest, hroot, ?_, by simpa using hrest, by simpa using hall⟩
    exact Nat.lt_of_lt_of_le (Draft.resolve_lt hroot).2 (by simpa using hproper.size_le)

/-- The start symbol leads to the start rule. -/
theorem accept_ofRules (h : ofRules definitions root = .ok g) :
    ∃ index, Draft.resolve (definitions.map Definition.name) (.hidden root) = .ok index ∧
      g.productions[acceptProduction]? = some ⟨start, [.nonterminal index], 0, .none⟩ := by
  obtain ⟨index, rest, hroot, -, hproductions, -⟩ := productions_ofRules h
  refine ⟨index, hroot, ?_⟩
  rw [← Array.getElem?_toList, hproductions]
  rfl

/-- A grammar made from rules is well formed. -/
theorem wellFormed_ofRules (h : ofRules definitions root = .ok g) : g.WellFormed := by
  obtain ⟨index, rest, hroot, hlt, hproductions, hall⟩ := productions_ofRules h
  have hget (p : Nat) : g.productions[p]? =
      (⟨start, [.nonterminal index], 0, .none⟩ :: rest : List Production)[p]? := by
    rw [← Array.getElem?_toList, hproductions]
  refine ⟨⟨index, (Draft.resolve_lt hroot).1, hlt, hget _⟩, fun p production hp hne => ?_⟩
  obtain ⟨p, rfl⟩ := Nat.exists_eq_succ_of_ne_zero hne
  rw [hget, List.getElem?_cons_succ] at hp
  exact hall production (List.mem_of_getElem? hp)

end Grammar
end SqlTree
