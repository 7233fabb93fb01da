import Mathlib
import SqlTree.Proofs.Lowering
import SqlTree.Proofs.Recognition

/-!
# Lowering keeps the language of the rules

A rule expression is read as an operation on languages: a sequence is a product, a choice a sum, and a
repetition a closure. The rules mention each other, so together they are a system of equations, and
what they mean is its least solution. The productions that are made from the rules derive exactly that:
they derive every word that the equations give, and they derive nothing that some solution leaves out.

- `Rule.language`      : the words of a rule, given those of the rules that it mentions
- `Definition.meaning` : the least solution of all definitions
- `Grammar.language`   : the words that are derived from a nonterminal
- `Draft.lower_complete` : the alternatives of a rule spell all its words
- `Draft.lower_sound`    : and the productions made for it respect any solution
- `Grammar.language_ofRules` : so a grammar made from rules has their language
-/

namespace SqlTree

open scoped Computability

/-! ## What rules mean -/

namespace Rule

variable {env env' : RuleName → Language Kind}

/-- The words of a rule, given those of the rules that it mentions. -/
def language (env : RuleName → Language Kind) : Rule → Language Kind
  | token kind => {[kind]}
  | node kind => env (.node kind)
  | hidden name => env (.hidden name)
  | empty => 1
  | never => 0
  | cat first second => first.language env * second.language env
  | alt first second => first.language env + second.language env
  | many1 rule => rule.language env * (rule.language env)∗
  | prec _ _ rule => rule.language env

@[simp] theorem language_seq (rules : List Rule) :
    (seq rules).language env = (rules.map (language env)).prod := by
  induction rules with
  | nil => rfl
  | cons rule rules ih => rw [List.map_cons, List.prod_cons, ← ih]; rfl

@[simp] theorem language_choice (rules : List Rule) :
    (choice rules).language env = (rules.map (language env)).sum := by
  induction rules with
  | nil => rfl
  | cons rule rules ih => rw [List.map_cons, List.sum_cons, ← ih]; rfl

@[simp] theorem language_opt (rule : Rule) : (opt rule).language env = rule.language env + 1 := rfl

@[simp] theorem language_many (rule : Rule) : (many rule).language env = (rule.language env)∗ := by
  rw [many, language_opt, add_comm]
  exact Language.one_add_self_mul_kstar_eq_kstar _

theorem language_mono (h : env ≤ env') (rule : Rule) : rule.language env ≤ rule.language env' := by
  induction rule with
  | token | empty | never => exact le_rfl
  | node kind => exact h _
  | hidden name => exact h _
  | cat _ _ ihfirst ihsecond => exact mul_le_mul' ihfirst ihsecond
  | alt _ _ ihfirst ihsecond => exact add_le_add ihfirst ihsecond
  | many1 _ ih => exact mul_le_mul' ih (kstar_mono ih)
  | prec _ _ _ ih => exact ih

end Rule

namespace Definition

/-- The languages satisfy the equation of every definition. -/
def Solves (definitions : List Definition) (env : RuleName → Language Kind) : Prop :=
  ∀ definition ∈ definitions, env definition.name = definition.rule.language env

/-- The words that the definitions give to each name, if the names have the given words already. -/
def consequences (definitions : List Definition) :
    (RuleName → Language Kind) →o (RuleName → Language Kind) where
  toFun env name := {word | ∃ definition ∈ definitions,
    definition.name = name ∧ word ∈ definition.rule.language env}
  monotone' := by
    rintro env env' h name word ⟨definition, hmem, hname, hword⟩
    exact ⟨definition, hmem, hname, definition.rule.language_mono h hword⟩

/-- The language of each rule name: the least that the definitions admit. -/
def meaning (definitions : List Definition) : RuleName → Language Kind :=
  (consequences definitions).lfp

variable {definitions : List Definition} {definition : Definition} {earlier names : List RuleName}
  {env : RuleName → Language Kind}

theorem nodup_of_duplicate?_eq_none (h : duplicate? earlier names = none) :
    names.Nodup ∧ ∀ name ∈ names, name ∉ earlier := by
  induction names generalizing earlier with
  | nil => exact ⟨.nil, by simp⟩
  | cons name names ih =>
    rw [duplicate?] at h
    split at h
    · cases h
    · rename_i hname
      obtain ⟨hnodup, hnew⟩ := ih h
      refine ⟨List.nodup_cons.2 ⟨fun hmem => hnew name hmem List.mem_cons_self, hnodup⟩, ?_⟩
      rintro other hother
      rcases List.mem_cons.1 hother with rfl | hother
      · exact hname
      · exact fun hmem => hnew other hother (List.mem_cons_of_mem _ hmem)

theorem language_le_consequences (h : definition ∈ definitions) :
    definition.rule.language env ≤ consequences definitions env definition.name :=
  fun _ hword => ⟨definition, h, rfl, hword⟩

theorem consequences_le (h : ∀ definition ∈ definitions,
    definition.rule.language env ≤ env definition.name) : consequences definitions env ≤ env := by
  rintro name word ⟨definition, hmem, rfl, hword⟩
  exact h definition hmem hword

/-- With one definition for a name, nothing else adds to its words. -/
theorem consequences_apply (hnodup : (definitions.map name).Nodup) (h : definition ∈ definitions) :
    consequences definitions env definition.name = definition.rule.language env := by
  refine le_antisymm ?_ (language_le_consequences h)
  rintro word ⟨other, hother, hname, hword⟩
  obtain rfl := List.inj_on_of_nodup_map hnodup hother h hname
  exact hword

theorem isLeast_meaning (hnodup : (definitions.map name).Nodup) :
    IsLeast {env | Solves definitions env} (meaning definitions) := by
  constructor
  · intro definition hmem
    rw [← consequences_apply hnodup hmem, meaning, OrderHom.map_lfp]
  · intro env hsolves
    exact OrderHom.lfp_le _ (consequences_le fun definition hmem => (hsolves definition hmem).ge)

end Definition

/-! ## What productions derive -/

namespace Grammar

variable {g : Grammar} {symbols : List Symbol} {word : List Kind} {index : Nat}

/-- The words that are derived from a nonterminal. -/
def language (g : Grammar) (index : Nat) : Language Kind :=
  {word | g.Yields [.nonterminal index] (word.map .terminal)}

theorem mem_language_iff : word ∈ g.language index ↔ g.Spells [.nonterminal index] word :=
  ⟨Yields.spells, Spells.yields⟩

end Grammar

/-! ## Drafts -/

namespace Draft

variable {names : List RuleName} {owner : String} {items : List Alternative} {rule : Rule}
  {lhs l index : Nat} {r : List Symbol} {draft draft' : Draft}

/-- One of the productions leads from `lhs` to `rhs`. -/
def Produces (draft : Draft) (lhs : Nat) (rhs : List Symbol) : Prop :=
  ∃ production ∈ draft.productions, production.lhs = lhs ∧ production.rhs = rhs

/-- A right-hand side that is left out is there already. -/
theorem produces_addAlternatives : (addAlternatives lhs items draft).Produces l r ↔
    draft.Produces l r ∨ l = lhs ∧ ∃ a ∈ items, a.symbols = r := by
  induction items generalizing draft with
  | nil => simp [addAlternatives]
  | cons a rest ih =>
    rw [addAlternatives, ih]
    split
    · rename_i hknown
      obtain ⟨known, hmem, hsame⟩ := List.any_eq_true.1 hknown
      simp only [Bool.and_eq_true, beq_iff_eq] at hsame
      constructor
      · rintro (h | ⟨rfl, b, hb, rfl⟩)
        · exact .inl h
        · exact .inr ⟨rfl, b, List.mem_cons_of_mem _ hb, rfl⟩
      · rintro (h | ⟨rfl, b, hb, rfl⟩)
        · exact .inl h
        · rcases List.mem_cons.1 hb with rfl | hb
          · exact .inl ⟨known, hmem, hsame⟩
          · exact .inr ⟨rfl, b, hb, rfl⟩
    · simp only [Produces, List.mem_append, List.mem_cons, List.not_mem_nil, or_false, or_and_right,
        exists_or, exists_eq_left, or_assoc, and_or_left]
      refine or_congr_right (or_congr_left ?_)
      exact and_congr_left' eq_comm

/-- A repetition has its items, each also after the repetition itself. -/
theorem produces_addRepetition : (draft.addRepetition owner items).2.Produces l r ↔
    draft.Produces l r ∨ l = draft.nonterminals.length ∧
      ∃ a ∈ items, a.symbols = r ∨ .nonterminal draft.nonterminals.length :: a.symbols = r := by
  simp only [addRepetition, produces_addAlternatives, List.mem_map, exists_exists_and_eq_and,
    and_or_left, exists_or, or_assoc]
  exact Iff.rfl

/-- Productions are only ever added. -/
theorem Produces.lower (h : draft.Produces l r)
    (hlower : lower names owner rule draft = .ok (items, draft')) : draft'.Produces l r := by
  refine lower_induction (P := (·.Produces l r)) (fun draft items hdraft => ?_) h hlower
  exact produces_addRepetition.2 (.inl hdraft)

theorem Produces.lowerAll {definitions : List Definition} (h : draft.Produces l r)
    (hlower : lowerAll names definitions lhs draft = .ok draft') : draft'.Produces l r := by
  refine lowerAll_induction (P := (·.Produces l r)) ?_ ?_ h hlower
  · intro draft lhs items hdraft
    exact produces_addAlternatives.2 (.inl hdraft)
  · intro draft owner items hdraft
    exact produces_addRepetition.2 (.inl hdraft)

theorem getElem?_of_resolve {name : RuleName} (h : resolve names name = .ok index) :
    ∃ i, index = i + 1 ∧ names[i]? = some name := by
  unfold resolve at h
  split at h
  · rename_i i hi
    cases h
    obtain ⟨hlt, hname, -⟩ := List.findIdx?_eq_some_iff_getElem.1 hi
    exact ⟨i, rfl, by simpa [List.getElem?_eq_getElem hlt] using hname⟩
  · cases h

theorem resolve_of_getElem? {name : RuleName} {i : Nat} (hnodup : names.Nodup)
    (h : names[i]? = some name) : resolve names name = .ok (i + 1) := by
  cases hresolve : resolve names name with
  | ok index =>
    obtain ⟨j, rfl, hj⟩ := getElem?_of_resolve hresolve
    obtain ⟨hlt, -⟩ := List.getElem?_eq_some_iff.1 hj
    rw [(List.getElem?_inj hlt hnodup).1 (hj.trans h.symm)]
  | error e =>
    unfold resolve at hresolve
    split at hresolve
    · cases hresolve
    · rename_i hnone
      exact absurd (List.findIdx?_eq_none_iff.1 hnone name (List.mem_of_getElem? h)) (by simp)

/-! ## All words of the rules -/

/-- Every production of the draft is one of the grammar. -/
def Within (g : Grammar) (draft : Draft) : Prop :=
  ∀ ⦃l r⦄, draft.Produces l r →
    ∃ (p : Nat) (production : Production), g.productions[p]? = some production ∧
      production.lhs = l ∧ production.rhs = r

variable {g : Grammar} {env : RuleName → Language Kind} {word : List Kind}

theorem Within.spells (h : draft.Within g) (hproduces : draft.Produces l r) (hword : g.Spells r word) :
    g.Spells [.nonterminal l] word := by
  obtain ⟨p, production, hp, rfl, rfl⟩ := h hproduces
  simpa using Grammar.Spells.nonterminal hp hword .nil

/-- Left recursion spells any further items after the first one. -/
theorem Within.spells_repetition (h : (draft.addRepetition owner items).2.Within g)
    {language : Language Kind}
    (hitems : ∀ word ∈ language, ∃ a ∈ items, g.Spells a.symbols word)
    (hword : word ∈ language * language∗) :
    g.Spells [.nonterminal draft.nonterminals.length] word := by
  obtain ⟨first, hfirst, others, hothers, rfl⟩ := Language.mem_mul.1 hword
  obtain ⟨words, rfl, hwords⟩ := Language.mem_kstar.1 hothers
  have hone : g.Spells [.nonterminal draft.nonterminals.length] first := by
    obtain ⟨a, ha, hspells⟩ := hitems first hfirst
    exact h.spells (produces_addRepetition.2 (.inr ⟨rfl, a, ha, .inl rfl⟩)) hspells
  clear hothers hword hfirst
  induction words generalizing first with
  | nil => simpa using hone
  | cons second words ih =>
    obtain ⟨a, ha, hspells⟩ := hitems second (hwords second List.mem_cons_self)
    have htwo : g.Spells [.nonterminal draft.nonterminals.length] (first ++ second) :=
      h.spells (produces_addRepetition.2 (.inr ⟨rfl, a, ha, .inr rfl⟩)) (hone.append hspells)
    rw [List.flatten_cons, ← List.append_assoc]
    exact ih (first ++ second) (fun w hw => hwords w (List.mem_cons_of_mem _ hw)) htwo

/-- The alternatives of a rule spell all its words. -/
theorem lower_complete
    (henv : ∀ name index, resolve names name = .ok index → env name ≤ g.language index)
    (hlower : lower names owner rule draft = .ok (items, draft')) (hg : draft'.Within g)
    (hword : word ∈ rule.language env) : ∃ a ∈ items, g.Spells a.symbols word := by
  induction rule generalizing draft draft' items word with
  | token kind =>
    obtain rfl : word = [kind] := hword
    simp only [lower] at hlower
    split at hlower
    · cases hlower
      exact ⟨_, List.mem_singleton_self _, .terminal .nil⟩
    · cases hlower
  | node kind =>
    obtain ⟨index, hresolve, hlower⟩ := exists_of_bind_eq_ok hlower
    cases hlower
    exact ⟨_, List.mem_singleton_self _, Grammar.mem_language_iff.1 (henv _ _ hresolve hword)⟩
  | hidden name =>
    obtain ⟨index, hresolve, hlower⟩ := exists_of_bind_eq_ok hlower
    cases hlower
    exact ⟨_, List.mem_singleton_self _, Grammar.mem_language_iff.1 (henv _ _ hresolve hword)⟩
  | empty =>
    cases hlower
    obtain rfl : word = [] := hword
    exact ⟨_, List.mem_singleton_self _, .nil⟩
  | never => exact absurd hword (Language.notMem_zero word)
  | cat one two ihone ihtwo =>
    obtain ⟨⟨firsts, middle⟩, hone, hlower⟩ := exists_of_bind_eq_ok hlower
    obtain ⟨⟨seconds, last⟩, htwo, hlower⟩ := exists_of_bind_eq_ok hlower
    cases hlower
    obtain ⟨front, hfront, back, hback, rfl⟩ := Language.mem_mul.1 hword
    have hmiddle : middle.Within g := fun _ _ h => hg (h.lower htwo)
    obtain ⟨a, ha, hspells⟩ := ihone hone hmiddle hfront
    obtain ⟨b, hb, hspells'⟩ := ihtwo htwo hg hback
    exact ⟨a.append b, List.mem_flatMap.2 ⟨a, ha, List.mem_map.2 ⟨b, hb, rfl⟩⟩,
      hspells.append hspells'⟩
  | alt one two ihone ihtwo =>
    obtain ⟨⟨firsts, middle⟩, hone, hlower⟩ := exists_of_bind_eq_ok hlower
    obtain ⟨⟨seconds, last⟩, htwo, hlower⟩ := exists_of_bind_eq_ok hlower
    cases hlower
    have hmiddle : middle.Within g := fun _ _ h => hg (h.lower htwo)
    rcases (Language.mem_add _ _ _).1 hword with hword | hword
    · obtain ⟨a, ha, hspells⟩ := ihone hone hmiddle hword
      exact ⟨a, List.mem_append_left _ ha, hspells⟩
    · obtain ⟨a, ha, hspells⟩ := ihtwo htwo hg hword
      exact ⟨a, List.mem_append_right _ ha, hspells⟩
  | many1 rule ih =>
    obtain ⟨⟨inner, middle⟩, hinner, hlower⟩ := exists_of_bind_eq_ok hlower
    cases hlower
    have hmiddle : middle.Within g := fun _ _ h => hg (produces_addRepetition.2 (.inl h))
    exact ⟨_, List.mem_singleton_self _,
      hg.spells_repetition (fun _ hword => ih hinner hmiddle hword) hword⟩
  | prec level assoc rule ih =>
    obtain ⟨⟨inner, middle⟩, hinner, hlower⟩ := exists_of_bind_eq_ok hlower
    cases hlower
    obtain ⟨a, ha, hspells⟩ := ih hinner hg hword
    exact ⟨a.withPrec level assoc, List.mem_map.2 ⟨a, ha, rfl⟩, hspells⟩

theorem lowerAll_complete {definitions : List Definition} {definition : Definition} {k : Nat}
    (henv : ∀ name index, resolve names name = .ok index → env name ≤ g.language index)
    (hlower : lowerAll names definitions lhs draft = .ok draft') (hg : draft'.Within g)
    (hk : definitions[k]? = some definition) :
    definition.rule.language env ≤ g.language (lhs + k) := by
  induction definitions generalizing lhs draft k with
  | nil => cases hk
  | cons first rest ih =>
    obtain ⟨⟨items, middle⟩, hitems, hrest⟩ := exists_of_bind_eq_ok hlower
    cases k with
    | zero =>
      cases hk
      intro word hword
      have hmiddle : middle.Within g :=
        fun _ _ h => hg (Produces.lowerAll (produces_addAlternatives.2 (.inl h)) hrest)
      obtain ⟨a, ha, hspells⟩ := lower_complete henv hitems hmiddle hword
      have hproduces := Produces.lowerAll (produces_addAlternatives.2 (.inr ⟨rfl, a, ha, rfl⟩)) hrest
      exact Grammar.mem_language_iff.2 (hg.spells hproduces hspells)
    | succ k =>
      rw [← Nat.succ_add_eq_add_succ]
      exact ih hrest hk

end Draft

/-! ## No other words -/

/-- The words of a symbol, given those of the nonterminals. -/
def Symbol.language (values : Nat → Language Kind) : Symbol → Language Kind
  | .terminal kind => {[kind]}
  | .nonterminal index => values index

/-- The words of a sequence of symbols. -/
def Symbol.product (values : Nat → Language Kind) (symbols : List Symbol) : Language Kind :=
  (symbols.map (Symbol.language values)).prod

namespace Symbol

variable {values values' : Nat → Language Kind} {symbols others : List Symbol} {index : Nat}

theorem product_cons (symbol : Symbol) :
    product values (symbol :: symbols) = symbol.language values * product values symbols :=
  List.prod_cons

theorem product_append :
    product values (symbols ++ others) = product values symbols * product values others := by
  simp [product]

theorem product_nonterminal : product values [.nonterminal index] = values index := by
  simp [product, language]

/-- Only the words of the nonterminals that occur matter. -/
theorem product_congr (h : ∀ i, .nonterminal i ∈ symbols → values' i = values i) :
    product values' symbols = product values symbols := by
  refine congrArg List.prod (List.map_congr_left fun symbol hsymbol => ?_)
  cases symbol with
  | terminal kind => rfl
  | nonterminal i => exact h i hsymbol

end Symbol

namespace Draft

variable {names : List RuleName} {owner : String} {items : List Alternative} {rule : Rule}
  {n lhs l : Nat} {r : List Symbol} {first : Production} {draft draft' : Draft}
  {env : RuleName → Language Kind} {values values' : Nat → Language Kind}

/-- What a right-hand side derives is among the words of its nonterminal. -/
def Respects (values : Nat → Language Kind) (draft : Draft) : Prop :=
  ∀ ⦃l r⦄, draft.Produces l r → Symbol.product values r ≤ values l

/-- All productions are over the nonterminals of the draft. -/
def Bounded (draft : Draft) : Prop :=
  ∀ ⦃l r⦄, draft.Produces l r → l < draft.nonterminals.length ∧
    ∀ i, .nonterminal i ∈ r → i < draft.nonterminals.length

theorem product_congr_of_proper {a : Alternative} (h : a.Proper n)
    (hvalues : ∀ i < n, values' i = values i) :
    Symbol.product values' a.symbols = Symbol.product values a.symbols :=
  Symbol.product_congr fun i hi => hvalues i (h _ hi).2

/-- The nonterminals have words that respect all productions, and those of the rules have what `env`
gives to their names. -/
structure Models (names : List RuleName) (first : Production) (env : RuleName → Language Kind)
    (values : Nat → Language Kind) (draft : Draft) : Prop where
  proper : draft.Proper (names.length + 1) first
  bounded : draft.Bounded
  names : ∀ i name, names[i]? = some name → values (i + 1) = env name
  respects : draft.Respects values

/-- A rule name stands for its own nonterminal. -/
theorem Models.reference {name : RuleName} {index : Nat} (h : draft.Models names first env values)
    (hresolve : resolve names name = .ok index) :
    ∀ a ∈ [Alternative.ofSymbol (.nonterminal index)],
      Symbol.product values a.symbols ≤ env name := by
  intro a ha
  obtain rfl := List.mem_singleton.1 ha
  obtain ⟨i, rfl, hi⟩ := getElem?_of_resolve hresolve
  exact (Symbol.product_nonterminal.trans (h.names i name hi)).le

theorem Models.addAlternatives (h : draft.Models names first env values)
    (hlhs : Grammar.start < lhs ∧ lhs < draft.nonterminals.length)
    (hproper : ∀ a ∈ items, a.Proper draft.nonterminals.length)
    (hitems : ∀ a ∈ items, Symbol.product values a.symbols ≤ values lhs) :
    (addAlternatives lhs items draft).Models names first env values where
  proper := h.proper.addAlternatives hlhs hproper
  bounded := by
    intro l r hproduces
    rw [addAlternatives_nonterminals]
    rcases produces_addAlternatives.1 hproduces with hproduces | ⟨rfl, a, ha, rfl⟩
    · exact h.bounded hproduces
    · exact ⟨hlhs.2, fun i hi => (hproper a ha _ hi).2⟩
  names := h.names
  respects := by
    intro l r hproduces
    rcases produces_addAlternatives.1 hproduces with hproduces | ⟨rfl, a, ha, rfl⟩
    · exact h.respects hproduces
    · exact hitems a ha

/-- The nonterminal of a repetition gets the closure of what its items give. -/
theorem Models.addRepetition (h : draft.Models names first env values)
    (hproper : ∀ a ∈ items, a.Proper draft.nonterminals.length) {language : Language Kind}
    (hitems : ∀ a ∈ items, Symbol.product values a.symbols ≤ language) :
    (draft.addRepetition owner items).2.Models names first env
      (Function.update values draft.nonterminals.length (language * language∗)) := by
  have hold : ∀ i < draft.nonterminals.length, Function.update values draft.nonterminals.length
      (language * language∗) i = values i :=
    fun i hi => Function.update_of_ne (Nat.ne_of_lt hi) _ _
  refine ⟨(h.proper.addRepetition owner (Nat.succ_pos _) hproper).1, ?_, ?_, ?_⟩
  · intro l r hproduces
    rw [length_addRepetition]
    rcases produces_addRepetition.1 hproduces with hproduces | ⟨rfl, a, ha, rfl | rfl⟩
    · obtain ⟨hl, hr⟩ := h.bounded hproduces
      exact ⟨Nat.lt_succ_of_lt hl, fun i hi => Nat.lt_succ_of_lt (hr i hi)⟩
    · exact ⟨Nat.lt_succ_self _, fun i hi => Nat.lt_succ_of_lt (hproper a ha _ hi).2⟩
    · refine ⟨Nat.lt_succ_self _, fun i hi => ?_⟩
      rcases List.mem_cons.1 hi with hi | hi
      · cases hi
        exact Nat.lt_succ_self _
      · exact Nat.lt_succ_of_lt (hproper a ha _ hi).2
  · intro i name hi
    obtain ⟨hlt, -⟩ := List.getElem?_eq_some_iff.1 hi
    rw [hold _ (Nat.lt_of_lt_of_le (Nat.succ_lt_succ hlt) h.proper.size_le)]
    exact h.names i name hi
  · intro l r hproduces
    rcases produces_addRepetition.1 hproduces with hproduces | ⟨rfl, a, ha, rfl | rfl⟩
    · obtain ⟨hl, hr⟩ := h.bounded hproduces
      rw [Symbol.product_congr fun i hi => hold i (hr i hi), hold l hl]
      exact h.respects hproduces
    · rw [product_congr_of_proper (hproper a ha) hold, Function.update_self]
      calc Symbol.product values a.symbols ≤ language := hitems a ha
        _ = language * 1 := (mul_one _).symm
        _ ≤ language * language∗ := mul_le_mul_right one_le_kstar _
    · rw [Symbol.product_cons, product_congr_of_proper (hproper a ha) hold, Symbol.language,
        Function.update_self]
      calc language * language∗ * Symbol.product values a.symbols
          ≤ language * language∗ * language := mul_le_mul_right (hitems a ha) _
        _ = language * (language∗ * language) := mul_assoc _ _ _
        _ ≤ language * language∗ := mul_le_mul_right kstar_mul_le_kstar _

/-- The alternatives of a rule derive only its words, once the new nonterminals have theirs. -/
theorem lower_sound (h : draft.Models names first env values)
    (hlower : lower names owner rule draft = .ok (items, draft')) :
    ∃ values', (∀ i < draft.nonterminals.length, values' i = values i) ∧
      draft'.Models names first env values' ∧
      ∀ a ∈ items, Symbol.product values' a.symbols ≤ rule.language env := by
  induction rule generalizing draft draft' items values with
  | token kind =>
    simp only [lower] at hlower
    split at hlower
    · cases hlower
      refine ⟨values, fun _ _ => rfl, h, fun a ha => ?_⟩
      obtain rfl := List.mem_singleton.1 ha
      exact (mul_one _).le
    · cases hlower
  | node kind =>
    obtain ⟨index, hresolve, hlower⟩ := exists_of_bind_eq_ok hlower
    cases hlower
    exact ⟨values, fun _ _ => rfl, h, h.reference hresolve⟩
  | hidden name =>
    obtain ⟨index, hresolve, hlower⟩ := exists_of_bind_eq_ok hlower
    cases hlower
    exact ⟨values, fun _ _ => rfl, h, h.reference hresolve⟩
  | empty =>
    cases hlower
    refine ⟨values, fun _ _ => rfl, h, fun a ha => ?_⟩
    obtain rfl := List.mem_singleton.1 ha
    exact le_rfl
  | never =>
    cases hlower
    exact ⟨values, fun _ _ => rfl, h, by simp⟩
  | cat one two ihone ihtwo =>
    obtain ⟨⟨firsts, middle⟩, hone, hlower⟩ := exists_of_bind_eq_ok hlower
    obtain ⟨⟨seconds, last⟩, htwo, hlower⟩ := exists_of_bind_eq_ok hlower
    cases hlower
    obtain ⟨values₁, hagree₁, hmiddle, hfirsts⟩ := ihone h hone
    obtain ⟨values₂, hagree₂, hlast, hseconds⟩ := ihtwo hmiddle htwo
    obtain ⟨-, hle, hproper⟩ := lower_spec rfl h.proper hone
    refine ⟨values₂, fun i hi => (hagree₂ i (hi.trans_le hle)).trans (hagree₁ i hi), hlast, ?_⟩
    intro a ha
    obtain ⟨b, hb, ha⟩ := List.mem_flatMap.1 ha
    obtain ⟨c, hc, rfl⟩ := List.mem_map.1 ha
    calc Symbol.product values₂ (b.symbols ++ c.symbols)
        = Symbol.product values₁ b.symbols * Symbol.product values₂ c.symbols := by
          rw [Symbol.product_append, product_congr_of_proper (hproper b hb) hagree₂]
      _ ≤ one.language env * two.language env := mul_le_mul' (hfirsts b hb) (hseconds c hc)
  | alt one two ihone ihtwo =>
    obtain ⟨⟨firsts, middle⟩, hone, hlower⟩ := exists_of_bind_eq_ok hlower
    obtain ⟨⟨seconds, last⟩, htwo, hlower⟩ := exists_of_bind_eq_ok hlower
    cases hlower
    obtain ⟨values₁, hagree₁, hmiddle, hfirsts⟩ := ihone h hone
    obtain ⟨values₂, hagree₂, hlast, hseconds⟩ := ihtwo hmiddle htwo
    obtain ⟨-, hle, hproper⟩ := lower_spec rfl h.proper hone
    refine ⟨values₂, fun i hi => (hagree₂ i (hi.trans_le hle)).trans (hagree₁ i hi), hlast, ?_⟩
    intro a ha
    rcases List.mem_append.1 ha with ha | ha
    · rw [product_congr_of_proper (hproper a ha) hagree₂]
      exact (hfirsts a ha).trans le_self_add
    · exact (hseconds a ha).trans le_add_self
  | many1 rule ih =>
    obtain ⟨⟨inner, middle⟩, hinner, hlower⟩ := exists_of_bind_eq_ok hlower
    cases hlower
    obtain ⟨values₁, hagree, hmiddle, hitems⟩ := ih h hinner
    obtain ⟨-, hle, hproper⟩ := lower_spec rfl h.proper hinner
    refine ⟨_, fun i hi => ?_, hmiddle.addRepetition hproper hitems, fun a ha => ?_⟩
    · rw [Function.update_of_ne (Nat.ne_of_lt (hi.trans_le hle))]
      exact hagree i hi
    · obtain rfl := List.mem_singleton.1 ha
      refine (Symbol.product_nonterminal.trans ?_).le
      exact Function.update_self _ _ _
  | prec level assoc rule ih =>
    obtain ⟨⟨inner, middle⟩, hinner, hlower⟩ := exists_of_bind_eq_ok hlower
    cases hlower
    obtain ⟨values', hagree, hmodels, hitems⟩ := ih h hinner
    refine ⟨values', hagree, hmodels, fun a ha => ?_⟩
    obtain ⟨b, hb, rfl⟩ := List.mem_map.1 ha
    exact hitems b hb

theorem lowerAll_sound {definitions : List Definition} (h : draft.Models names first env values)
    (hlhs : Grammar.start < lhs) (hcount : lhs + definitions.length ≤ names.length + 1)
    (hdefinitions : ∀ (k : Nat) (definition : Definition), definitions[k]? = some definition →
      definition.rule.language env ≤ values (lhs + k))
    (hlower : lowerAll names definitions lhs draft = .ok draft') :
    ∃ values', (∀ i < draft.nonterminals.length, values' i = values i) ∧
      draft'.Models names first env values' := by
  induction definitions generalizing lhs draft values with
  | nil =>
    cases hlower
    exact ⟨values, fun _ _ => rfl, h⟩
  | cons definition rest ih =>
    obtain ⟨⟨items, middle⟩, hitems, hrest⟩ := exists_of_bind_eq_ok hlower
    obtain ⟨values₁, hagree₁, hmiddle, hle⟩ := lower_sound h hitems
    obtain ⟨-, hsize, hproper⟩ := lower_spec rfl h.proper hitems
    have hnames := h.proper.size_le
    rw [List.length_cons] at hcount
    have hadded : (Draft.addAlternatives lhs items middle).Models names first env values₁ := by
      refine hmiddle.addAlternatives ⟨hlhs, by omega⟩ hproper fun a ha => ?_
      rw [hagree₁ lhs (by omega)]
      exact (hle a ha).trans (hdefinitions 0 definition rfl)
    obtain ⟨values₂, hagree₂, hmodels⟩ := ih hadded (Nat.lt_succ_of_lt hlhs) (by omega) (by
      intro k other hk
      have hlt := (List.getElem?_eq_some_iff.1 hk).1
      rw [hagree₁ _ (by omega), Nat.succ_add_eq_add_succ]
      exact hdefinitions (k + 1) other hk) hrest
    refine ⟨values₂, fun i hi => ?_, hmodels⟩
    rw [addAlternatives_nonterminals] at hagree₂
    exact (hagree₂ i (hi.trans_le hsize)).trans (hagree₁ i hi)

end Draft

/-! ## Grammars -/

namespace Grammar

variable {definitions : List Definition} {root : String} {g : Grammar}

/-- The words that are derived from the nonterminal of a name. -/
def named (g : Grammar) (names : List RuleName) (name : RuleName) : Language Kind :=
  match Draft.resolve names name with
  | .ok index => g.language index
  | .error _ => 0

theorem named_of_resolve {names : List RuleName} {name : RuleName} {index : Nat}
    (h : Draft.resolve names name = .ok index) : g.named names name = g.language index := by
  rw [named, h]

/-- A derived word is among the words of the symbols, if all productions respect these. -/
theorem Spells.mem_product {values : Nat → Language Kind} {symbols : List Symbol} {word : List Kind}
    (hg : ∀ (p : Nat) (production : Production), g.productions[p]? = some production →
      Symbol.product values production.rhs ≤ values production.lhs)
    (h : g.Spells symbols word) : word ∈ Symbol.product values symbols := by
  induction h with
  | nil => exact Language.nil_mem_one
  | terminal _ ih =>
    rw [Symbol.product_cons]
    exact Language.append_mem_mul (a := [_]) rfl ih
  | nonterminal hp _ _ ihrhs ih =>
    rw [Symbol.product_cons]
    exact Language.append_mem_mul (hg _ _ hp ihrhs) ih

/-- Where a grammar made from rules comes from. -/
theorem exists_draft_of_ofRules (h : ofRules definitions root = .ok g) :
    (definitions.map Definition.name).Nodup ∧ ∃ index draft,
      Draft.resolve (definitions.map Definition.name) (.hidden root) = .ok index ∧
      Draft.lowerAll (definitions.map Definition.name) definitions 1
        (opening (definitions.map Definition.name) index) = .ok draft ∧
      g.nonterminals = draft.nonterminals.toArray ∧
      g.productions = draft.productions.toArray := by
  unfold ofRules at h
  dsimp only at h
  split at h
  · cases h
  · cases h
  · rename_i hnone _
    obtain ⟨index, hroot, h⟩ := Draft.exists_of_bind_eq_ok h
    obtain ⟨draft, hdraft, h⟩ := Draft.exists_of_bind_eq_ok h
    cases h
    exact ⟨(Definition.nodup_of_duplicate?_eq_none hnone).1, index, draft, hroot, hdraft, rfl,
      rfl⟩

/-- What is derived from the names satisfies all definitions. -/
theorem consequences_named_le (h : ofRules definitions root = .ok g) :
    Definition.consequences definitions (g.named (definitions.map Definition.name)) ≤
      g.named (definitions.map Definition.name) := by
  obtain ⟨hnodup, index, draft, -, hdraft, -, hproductions⟩ := exists_draft_of_ofRules h
  have hg : draft.Within g := by
    rintro l r ⟨production, hmem, rfl, rfl⟩
    obtain ⟨p, hp⟩ := List.mem_iff_getElem?.1 hmem
    exact ⟨p, production, by simpa [hproductions] using hp, rfl, rfl⟩
  refine Definition.consequences_le fun definition hmem => ?_
  obtain ⟨k, hk⟩ := List.mem_iff_getElem?.1 hmem
  have hresolve := Draft.resolve_of_getElem? hnodup
    (show (definitions.map Definition.name)[k]? = some definition.name by simp [hk])
  rw [named_of_resolve hresolve, Nat.add_comm k 1]
  exact Draft.lowerAll_complete (fun name index hname => (named_of_resolve hname).le) hdraft hg hk

/-- What is derived is part of any languages that satisfy all definitions. -/
theorem language_le (h : ofRules definitions root = .ok g) {env : RuleName → Language Kind}
    (henv : Definition.consequences definitions env ≤ env) :
    (∀ name index, Draft.resolve (definitions.map Definition.name) name = .ok index →
      g.language index ≤ env name) ∧ g.language start ≤ env (.hidden root) := by
  obtain ⟨-, index, draft, hroot, hdraft, -, hproductions⟩ := exists_draft_of_ofRules h
  generalize hnames : definitions.map Definition.name = names at hroot hdraft
  have hlength : names.length = definitions.length := by simp [← hnames]
  obtain ⟨i, rfl, hi⟩ := Draft.getElem?_of_resolve hroot
  have hilt := (List.getElem?_eq_some_iff.1 hi).1
  -- The start symbol has the words of the root, and each rule those of its name.
  let values : Nat → Language Kind
    | 0 => env (.hidden root)
    | i + 1 => (names[i]?).elim 0 env
  have hvalues (i : Nat) (name : RuleName) (hi : names[i]? = some name) :
      values (i + 1) = env name := by simp [values, hi]
  have hproduces {l : Nat} {r : List Symbol} (hlr : (opening names (i + 1)).Produces l r) :
      l = start ∧ r = [.nonterminal (i + 1)] := by
    obtain ⟨production, hmem, rfl, rfl⟩ := hlr
    obtain rfl := List.mem_singleton.1 hmem
    exact ⟨rfl, rfl⟩
  have hopening : (opening names (i + 1)).Models names ⟨start, [.nonterminal (i + 1)], 0, .none⟩ env
      values := by
    refine ⟨⟨by simp [opening], [], rfl, by simp⟩, ?_, hvalues, ?_⟩
    · intro l r hlr
      obtain ⟨rfl, rfl⟩ := hproduces hlr
      refine ⟨by simp [opening, start], fun j hj => ?_⟩
      cases List.mem_singleton.1 hj
      simpa [opening] using hilt
    · intro l r hlr
      obtain ⟨rfl, rfl⟩ := hproduces hlr
      exact (Symbol.product_nonterminal.trans (hvalues i _ hi)).le
  obtain ⟨values', hagree, hmodels⟩ := Draft.lowerAll_sound hopening Nat.one_pos (by omega) (by
    intro k definition hk
    rw [Nat.add_comm, hvalues k definition.name (by simp [← hnames, hk])]
    exact (Definition.language_le_consequences (List.mem_of_getElem? hk)).trans (henv _)) hdraft
  have hsound (j : Nat) (hj : j < names.length + 1) : g.language j ≤ values j := by
    intro word hword
    have hmem : word ∈ Symbol.product values' [.nonterminal j] := by
      refine (mem_language_iff.1 hword).mem_product fun p production hp => ?_
      refine hmodels.respects ⟨production, ?_, rfl, rfl⟩
      simpa [hproductions] using Array.mem_of_getElem? hp
    rwa [Symbol.product_nonterminal, hagree j (by simpa [opening] using hj)] at hmem
  refine ⟨fun name index hname => ?_, hsound start (Nat.succ_pos _)⟩
  obtain ⟨j, rfl, hj⟩ := Draft.getElem?_of_resolve hname
  rw [← hvalues j name hj]
  exact hsound (j + 1) (Nat.succ_lt_succ (List.getElem?_eq_some_iff.1 hj).1)

/-- Lowering keeps the language. The definitions of a grammar have a least solution; from the
nonterminal of each rule the productions derive exactly the words that it gives to the rule, and from
the start symbol exactly those of the root rule. -/
theorem language_ofRules (h : ofRules definitions root = .ok g) :
    IsLeast {env | Definition.Solves definitions env} (Definition.meaning definitions) ∧
      (∀ name ∈ definitions.map Definition.name, ∃ index,
        Draft.resolve (definitions.map Definition.name) name = .ok index ∧
        g.language index = Definition.meaning definitions name) ∧
      g.language start = Definition.meaning definitions (.hidden root) := by
  obtain ⟨hnodup, -⟩ := exists_draft_of_ofRules h
  have hmeaning : Definition.meaning definitions ≤ g.named (definitions.map Definition.name) :=
    OrderHom.lfp_le _ (consequences_named_le h)
  obtain ⟨hnames, hstart⟩ := language_le h
    (OrderHom.map_lfp (Definition.consequences definitions)).le
  refine ⟨Definition.isLeast_meaning hnodup, fun name hname => ?_, le_antisymm hstart ?_⟩
  · obtain ⟨k, hk⟩ := List.mem_iff_getElem?.1 hname
    have hresolve := Draft.resolve_of_getElem? hnodup hk
    refine ⟨k + 1, hresolve, le_antisymm (hnames name _ hresolve) ?_⟩
    rw [← named_of_resolve hresolve]
    exact hmeaning name
  · -- Whatever the root derives, the start symbol derives through it.
    obtain ⟨index, hroot, haccept⟩ := accept_ofRules h
    intro word hword
    have hspells := mem_language_iff.1 ((named_of_resolve hroot).le (hmeaning _ hword))
    exact mem_language_iff.2 (by simpa using Spells.nonterminal haccept hspells .nil)

/-- Lists in parentheses, which hold identifiers and lists: the grammar derives them and no more. -/
theorem language_ofRules_lists :
    ∃ g, ofRules [.hidden "list" (.seq [.token .lParen,
        .many (.choice [.token .ident, .hidden "list"]), .token .rParen])] "list" = .ok g ∧
      g.language start =
        {[.lParen]} * ({[.ident]} + g.language start)∗ * ({[.rParen]} : Language Kind) := by
  obtain ⟨g, h⟩ : ∃ g, ofRules [.hidden "list" (.seq [.token .lParen,
      .many (.choice [.token .ident, .hidden "list"]), .token .rParen])] "list" = .ok g := ⟨_, rfl⟩
  obtain ⟨⟨hsolves, -⟩, -, hstart⟩ := language_ofRules h
  have hlist := hsolves _ (List.mem_singleton_self _)
  refine ⟨g, h, hstart.trans (hlist.trans ?_)⟩
  rw [hstart]
  simp [Definition.hidden, Rule.language, mul_assoc]

end Grammar
end SqlTree
