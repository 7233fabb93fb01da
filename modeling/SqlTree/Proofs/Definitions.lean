import SqlTree.Proofs.Language

/-!
# Which definitions have a grammar

Definitions are lowered if they fit together: every rule is defined once, visible rules are named by
node kinds, and what a rule mentions is defined or is a token. Nothing that a rule mentions is passed
over, also where no alternative is left in the end, so the error is that of the first leaf that does
not fit. A grammar that is made has consistent numbers.

- `Rule.leaves`           : the tokens and names in a rule, at any depth
- `Definition.WellFormed` : definitions that fit together
- `Definition.Fault`      : what an error says about definitions
- `Draft.failsAt_lower`   : lowering fails at the first leaf that does not fit, and only there
- `Grammar.Consistent`    : productions and nonterminals can be looked up by their numbers and kinds
- `Grammar.ofRules_spec`  : well-formed definitions have a consistent grammar, and others have none
-/

namespace SqlTree

/-! ## What rules mention -/

namespace Rule

/-- A rule without parts: a token, or the name of a rule. -/
inductive Leaf where
  | token (kind : Kind)
  | mention (name : RuleName)
  deriving DecidableEq

/-- The tokens and names in a rule, at any depth and from left to right. -/
def leaves : Rule → List Leaf
  | token kind => [.token kind]
  | node kind => [.mention (.node kind)]
  | hidden name => [.mention (.hidden name)]
  | empty => []
  | never => []
  | cat first second => first.leaves ++ second.leaves
  | alt first second => first.leaves ++ second.leaves
  | many1 rule => rule.leaves
  | prec _ _ rule => rule.leaves

@[simp] theorem leaves_seq (rules : List Rule) : (seq rules).leaves = rules.flatMap leaves := by
  induction rules with
  | nil => rfl
  | cons rule rules ih => rw [List.flatMap_cons, ← ih]; rfl

@[simp] theorem leaves_choice (rules : List Rule) :
    (choice rules).leaves = rules.flatMap leaves := by
  induction rules with
  | nil => rfl
  | cons rule rules ih => rw [List.flatMap_cons, ← ih]; rfl

@[simp] theorem leaves_opt (rule : Rule) : (opt rule).leaves = rule.leaves := List.append_nil _

@[simp] theorem leaves_many (rule : Rule) : (many rule).leaves = rule.leaves := leaves_opt _

namespace Leaf

/-- Whether a leaf can stand in a rule: as a token kind, or as one of the names. -/
def fits (names : List RuleName) : Leaf → Bool
  | token kind => kind.isToken
  | mention name => name ∈ names

/-- The error in place of a leaf that does not fit. -/
def error : Leaf → GrammarError
  | token kind => .notAToken kind
  | mention name => .undefinedRule name.display

/-- The first leaf that does not fit. -/
def unfit? (names : List RuleName) (leaves : List Leaf) : Option Leaf :=
  leaves.find? fun leaf => !leaf.fits names

theorem unfit?_append (names : List RuleName) (leaves leaves' : List Leaf) :
    unfit? names (leaves ++ leaves') = (unfit? names leaves).or (unfit? names leaves') :=
  List.find?_append

end Leaf
end Rule

/-! ## Lowering fails at leaves -/

/-- A result is the error of a leaf if there is one, and otherwise it is there. -/
def FailsAt {α : Type} : Option Rule.Leaf → Except GrammarError α → Prop
  | some leaf, result => result = .error leaf.error
  | none, result => ∃ value, result = .ok value

namespace FailsAt

open Rule

variable {α β : Type} {unfit unfit' : Option Leaf} {result : Except GrammarError α}
  {next : α → Except GrammarError β}

theorem ok (value : α) : FailsAt none (.ok value) := ⟨value, rfl⟩

theorem bind (h : FailsAt unfit result) (hnext : ∀ value, FailsAt unfit' (next value)) :
    FailsAt (unfit.or unfit') (result >>= next) := by
  cases unfit with
  | none =>
    obtain ⟨value, rfl⟩ := h
    exact hnext value
  | some leaf =>
    rw [show result = .error leaf.error from h]
    rfl

theorem bind_ok (h : FailsAt unfit result) {f : α → β} :
    FailsAt unfit (result >>= fun value => .ok (f value)) := by
  have hbind : FailsAt (unfit.or none) (result >>= fun value => .ok (f value)) :=
    h.bind fun value => ok (f value)
  rwa [Option.or_none] at hbind

theorem of_error {e : GrammarError} (h : FailsAt unfit (.error e : Except GrammarError α)) :
    ∃ leaf, unfit = some leaf ∧ e = leaf.error := by
  cases unfit with
  | none =>
    obtain ⟨value, hvalue⟩ := h
    cases hvalue
  | some leaf => exact ⟨leaf, rfl, Except.error.inj h⟩

theorem of_ok {value : α} (h : FailsAt unfit (.ok value)) : unfit = none := by
  cases unfit with
  | none => rfl
  | some leaf => cases h

end FailsAt

namespace Draft

open Rule (Leaf)

theorem failsAt_resolve (names : List RuleName) (name : RuleName) :
    FailsAt (Leaf.unfit? names [.mention name]) (resolve names name) := by
  rw [resolve]
  cases hfind : names.findIdx? (· = name) with
  | some i =>
    obtain ⟨hlt, heq, -⟩ := List.findIdx?_eq_some_iff_getElem.1 hfind
    have hmem : name ∈ names := decide_eq_true_iff.1 heq ▸ List.getElem_mem hlt
    have hnone : Leaf.unfit? names [.mention name] = none := by
      simp [Leaf.unfit?, Leaf.fits, hmem]
    rw [hnone]
    exact .ok _
  | none =>
    have hmem : name ∉ names := fun hmem =>
      absurd (List.findIdx?_eq_none_iff.1 hfind name hmem) (by simp)
    have hsome : Leaf.unfit? names [.mention name] = some (.mention name) := by
      simp [Leaf.unfit?, Leaf.fits, hmem]
    rw [hsome]
    rfl

/-- Lowering fails at the first leaf that does not fit. -/
theorem failsAt_lower (names : List RuleName) (owner : String) (rule : Rule) (draft : Draft) :
    FailsAt (Leaf.unfit? names rule.leaves) (lower names owner rule draft) := by
  induction rule generalizing draft with
  | token kind =>
    rw [lower]
    cases hkind : kind.isToken with
    | true =>
      have hnone : Leaf.unfit? names (Rule.token kind).leaves = none := by
        simp [Rule.leaves, Leaf.unfit?, Leaf.fits, hkind]
      rw [hnone]
      exact .ok _
    | false =>
      have hsome : Leaf.unfit? names (Rule.token kind).leaves = some (.token kind) := by
        simp [Rule.leaves, Leaf.unfit?, Leaf.fits, hkind]
      rw [hsome]
      rfl
  | node kind => exact (failsAt_resolve names (.node kind)).bind_ok
  | hidden name => exact (failsAt_resolve names (.hidden name)).bind_ok
  | empty => exact .ok _
  | never => exact .ok _
  | cat one two ihone ihtwo | alt one two ihone ihtwo =>
    -- The second part is lowered whatever is left of the first one.
    rw [Rule.leaves, Leaf.unfit?_append]
    exact (ihone draft).bind fun middle => (ihtwo middle.2).bind_ok
  | many1 rule ih => exact (ih draft).bind_ok
  | prec level assoc rule ih => exact (ih draft).bind_ok

theorem failsAt_lowerAll (names : List RuleName) (definitions : List Definition) (lhs : Nat)
    (draft : Draft) :
    FailsAt (Leaf.unfit? names (definitions.flatMap (·.rule.leaves)))
      (lowerAll names definitions lhs draft) := by
  induction definitions generalizing lhs draft with
  | nil => exact .ok draft
  | cons definition rest ih =>
    rw [List.flatMap_cons, Leaf.unfit?_append]
    exact (failsAt_lower names _ definition.rule draft).bind fun middle => ih _ _

end Draft

/-! ## Definitions that fit together -/

namespace Definition

variable {definitions : List Definition} {root : String} {names : List RuleName} {kind : Kind}
  {name : RuleName}

/-- Definitions that fit together, with a start rule. -/
structure WellFormed (definitions : List Definition) (root : String) : Prop where
  /-- No rule is defined twice. -/
  nodup : (definitions.map Definition.name).Nodup
  /-- Visible rules are named by node kinds. -/
  isNode : ∀ kind, .node kind ∈ definitions.map Definition.name → kind.isNode = true
  /-- The start rule is defined. -/
  root_mem : .hidden root ∈ definitions.map Definition.name
  /-- The rules mention defined rules only, at any depth. -/
  mention_mem : ∀ definition ∈ definitions, ∀ name, .mention name ∈ definition.rule.leaves →
    name ∈ definitions.map Definition.name
  /-- What stands for a token is a token kind, at any depth. -/
  isToken : ∀ definition ∈ definitions, ∀ kind, .token kind ∈ definition.rule.leaves →
    kind.isToken = true

/-- What is wrong with definitions, told by an error. -/
inductive Fault (definitions : List Definition) (root : String) : GrammarError → Prop where
  | duplicate {name : RuleName} (h : 2 ≤ (definitions.map Definition.name).count name) :
    Fault definitions root (.duplicateRule name.display)
  | notANode {kind : Kind} (h : .node kind ∈ definitions.map Definition.name)
    (hkind : kind.isNode = false) : Fault definitions root (.notANode kind)
  | root (h : .hidden root ∉ definitions.map Definition.name) :
    Fault definitions root (.undefinedRule root)
  | mention {definition : Definition} {name : RuleName} (h : definition ∈ definitions)
    (hleaf : .mention name ∈ definition.rule.leaves)
    (hname : name ∉ definitions.map Definition.name) :
    Fault definitions root (.undefinedRule name.display)
  | token {definition : Definition} {kind : Kind} (h : definition ∈ definitions)
    (hleaf : .token kind ∈ definition.rule.leaves) (hkind : kind.isToken = false) :
    Fault definitions root (.notAToken kind)

theorem WellFormed.not_fault {e : GrammarError} (h : WellFormed definitions root)
    (hfault : Fault definitions root e) : False := by
  cases hfault with
  | @duplicate name hcount =>
    have hone := List.nodup_iff_count_le_one.1 h.nodup name
    omega
  | notANode hmem hkind => exact absurd (h.isNode _ hmem) (by simp [hkind])
  | root hroot => exact hroot h.root_mem
  | mention hmem hleaf hname => exact hname (h.mention_mem _ hmem _ hleaf)
  | token hmem hleaf hkind => exact absurd (h.isToken _ hmem _ hleaf) (by simp [hkind])

/-- A name that is found twice is counted twice. -/
theorem count_of_duplicate? {earlier : List RuleName} (h : duplicate? earlier names = some name) :
    2 ≤ earlier.count name + names.count name := by
  induction names generalizing earlier with
  | nil => cases h
  | cons first rest ih =>
    rw [duplicate?] at h
    split at h
    · rename_i hmem
      obtain rfl := Option.some.inj h
      have hfront := List.count_pos_iff.2 hmem
      rw [List.count_cons_self]
      omega
    · have hcount := ih h
      rw [List.count_cons] at hcount ⊢
      omega

theorem notANode?_eq_some (h : notANode? names = some kind) :
    .node kind ∈ names ∧ kind.isNode = false := by
  obtain ⟨name, hmem, hname⟩ := List.exists_of_findSome?_eq_some h
  cases name with
  | hidden => cases hname
  | node kind' =>
    dsimp only at hname
    split at hname
    · cases hname
    · rename_i hkind
      obtain rfl := Option.some.inj hname
      exact ⟨hmem, by simpa using hkind⟩

theorem notANode?_eq_none (h : notANode? names = none) (hmem : .node kind ∈ names) :
    kind.isNode = true := by
  have hnone := List.findSome?_eq_none_iff.1 h _ hmem
  by_contra hkind
  simp [hkind] at hnone

end Definition

namespace Grammar

open Rule (Leaf)

variable {definitions : List Definition} {root : String} {g : Grammar} {e : GrammarError}

/-- Definitions without double names and with node kinds for the visible rules are lowered unless the
start rule or a leaf of a rule stops that. -/
theorem failsAt_ofRules
    (hduplicate : Definition.duplicate? [] (definitions.map Definition.name) = none)
    (hnode : Definition.notANode? (definitions.map Definition.name) = none) :
    FailsAt (Leaf.unfit? (definitions.map Definition.name)
      (.mention (.hidden root) :: definitions.flatMap (·.rule.leaves)))
      (ofRules definitions root) := by
  rw [ofRules]
  simp only [hduplicate, hnode]
  -- The name of the start rule is looked up before the rules are, like a leaf in front of theirs.
  rw [← List.singleton_append, Leaf.unfit?_append]
  exact (Draft.failsAt_resolve _ _).bind fun index => (Draft.failsAt_lowerAll _ _ _ _).bind_ok

/-- An error tells what is wrong with the definitions. -/
theorem fault_of_ofRules (h : ofRules definitions root = .error e) :
    Definition.Fault definitions root e := by
  cases hduplicate : Definition.duplicate? [] (definitions.map Definition.name) with
  | some name =>
    rw [ofRules] at h
    simp only [hduplicate] at h
    cases h
    exact .duplicate (by simpa using Definition.count_of_duplicate? hduplicate)
  | none =>
    cases hnode : Definition.notANode? (definitions.map Definition.name) with
    | some kind =>
      rw [ofRules] at h
      simp only [hduplicate, hnode] at h
      cases h
      obtain ⟨hmem, hkind⟩ := Definition.notANode?_eq_some hnode
      exact .notANode hmem hkind
    | none =>
      obtain ⟨leaf, hunfit, rfl⟩ := (h ▸ failsAt_ofRules hduplicate hnode :
        FailsAt _ (Except.error e : Except GrammarError Grammar)).of_error
      -- The error is that of a leaf, and the name of the start rule counts as one.
      have hfits := List.find?_some hunfit
      rcases List.mem_cons.1 (List.mem_of_find?_eq_some hunfit) with rfl | hmem
      · exact .root (by simpa [Leaf.fits] using hfits)
      · obtain ⟨definition, hdefinition, hleaf⟩ := List.mem_flatMap.1 hmem
        cases leaf with
        | token kind => exact .token hdefinition hleaf (by simpa [Leaf.fits] using hfits)
        | mention name => exact .mention hdefinition hleaf (by simpa [Leaf.fits] using hfits)

/-- Definitions that have a grammar fit together. -/
theorem wellFormed_definitions (h : ofRules definitions root = .ok g) :
    Definition.WellFormed definitions root := by
  have hnone : Definition.duplicate? [] (definitions.map Definition.name) = none ∧
      Definition.notANode? (definitions.map Definition.name) = none := by
    rw [ofRules] at h
    split at h
    · cases h
    · cases h
    · rename_i hduplicate hnode
      exact ⟨hduplicate, hnode⟩
  obtain ⟨hduplicate, hnode⟩ := hnone
  have hfits := List.find?_eq_none.1
    (h ▸ failsAt_ofRules hduplicate hnode : FailsAt _ (Except.ok g)).of_ok
  have hleaf (definition : Definition) (hdefinition : definition ∈ definitions) (leaf : Leaf)
      (hmem : leaf ∈ definition.rule.leaves) :
      leaf.fits (definitions.map Definition.name) = true := by
    simpa using hfits leaf
      (List.mem_cons_of_mem _ (List.mem_flatMap.2 ⟨definition, hdefinition, hmem⟩))
  refine ⟨(Definition.nodup_of_duplicate?_eq_none hduplicate).1,
    fun kind => Definition.notANode?_eq_none hnode, ?_, ?_, ?_⟩
  · simpa [Leaf.fits] using hfits _ List.mem_cons_self
  · intro definition hdefinition name hmem
    simpa [Leaf.fits] using hleaf definition hdefinition _ hmem
  · intro definition hdefinition kind hmem
    exact hleaf definition hdefinition _ hmem

/-! ## Consistent grammars -/

/-- Productions and nonterminals can be looked up by their numbers and kinds. -/
structure Consistent (g : Grammar) : Prop where
  /-- Every production belongs to one of the nonterminals. -/
  lhs_lt : ∀ (p : Nat) (production : Production), g.productions[p]? = some production →
    production.lhs < g.nonterminals.size
  /-- On the right-hand sides there are nonterminals of the grammar, but not the start symbol. -/
  rhs_proper : ∀ (p : Nat) (production : Production), g.productions[p]? = some production →
    ∀ i, .nonterminal i ∈ production.rhs → i < g.nonterminals.size ∧ i ≠ start
  /-- The first production is the only one of the start symbol. -/
  productionsOf_start : g.productionsOf start = [acceptProduction]
  /-- The productions of a nonterminal are listed, in ascending order. -/
  mem_productionsOf : ∀ i p, p ∈ g.productionsOf i ↔
    ∃ production, g.productions[p]? = some production ∧ production.lhs = i
  pairwise_productionsOf : ∀ i, (g.productionsOf i).Pairwise (· < ·)
  /-- No production is there twice, whatever its strength. -/
  distinct : ∀ (p q : Nat) (production production' : Production),
    g.productions[p]? = some production → g.productions[q]? = some production' →
    production.lhs = production'.lhs → production.rhs = production'.rhs → p = q
  /-- The nonterminal of a kind is the only one that makes nodes of the kind. -/
  nonterminalOfKind? : ∀ kind i, g.nonterminalOfKind? kind = some i ↔
    g.visibleKind? i = some kind

end Grammar

namespace Draft

variable {names : List RuleName} {owner : String} {items : List Alternative} {lhs : Nat}
  {draft : Draft} {known : List Nonterminal}

/-- No production has both sides in common with another one. -/
def Distinct (draft : Draft) : Prop :=
  draft.productions.Pairwise fun p q => ¬ (p.lhs = q.lhs ∧ p.rhs = q.rhs)

theorem Distinct.addAlternatives (h : draft.Distinct) :
    (addAlternatives lhs items draft).Distinct := by
  induction items generalizing draft with
  | nil => exact h
  | cons a rest ih =>
    rw [Draft.addAlternatives]
    split
    · exact ih h
    · rename_i hnew
      refine ih (List.pairwise_append.2 ⟨h, List.pairwise_singleton _ _, ?_⟩)
      rintro p hp q hq ⟨hlhs, hrhs⟩
      obtain rfl := List.mem_singleton.1 hq
      refine hnew (List.any_eq_true.2 ⟨p, hp, ?_⟩)
      rw [Bool.and_eq_true, beq_iff_eq, beq_iff_eq]
      exact ⟨hlhs, hrhs⟩

theorem Distinct.addRepetition (h : draft.Distinct) :
    (draft.addRepetition owner items).2.Distinct := by
  refine Distinct.addAlternatives (Distinct.addAlternatives ?_)
  exact h

/-- All nonterminals after the known ones are hidden. -/
def HidesAfter (known : List Nonterminal) (draft : Draft) : Prop :=
  ∃ more, draft.nonterminals = known ++ more ∧ ∀ info ∈ more, info.kind = none

theorem HidesAfter.addAlternatives (h : draft.HidesAfter known) :
    (addAlternatives lhs items draft).HidesAfter known := by
  rwa [HidesAfter, addAlternatives_nonterminals]

theorem HidesAfter.addRepetition (h : draft.HidesAfter known) :
    (draft.addRepetition owner items).2.HidesAfter known := by
  refine HidesAfter.addAlternatives (HidesAfter.addAlternatives ?_)
  obtain ⟨more, hmore, hhidden⟩ := h
  refine ⟨more ++ [⟨owner ++ "_repeat" ++ toString draft.nonterminals.length, none⟩], ?_, ?_⟩
  · dsimp only
    rw [hmore, List.append_assoc]
  · intro info hinfo
    rcases List.mem_append.1 hinfo with hinfo | hinfo
    · exact hhidden info hinfo
    · obtain rfl := List.mem_singleton.1 hinfo
      rfl

end Draft

namespace Grammar

variable {definitions : List Definition} {root : String} {g : Grammar}

/-- No two productions of a grammar made from rules have both sides in common. -/
theorem pairwise_productions_ofRules (h : ofRules definitions root = .ok g) :
    g.productions.toList.Pairwise fun p q => ¬ (p.lhs = q.lhs ∧ p.rhs = q.rhs) := by
  obtain ⟨-, index, draft, -, hdraft, -, hproductions⟩ := exists_draft_of_ofRules h
  rw [hproductions, List.toList_toArray]
  have hopening : (opening (definitions.map Definition.name) index).Distinct :=
    List.pairwise_singleton _ _
  exact Draft.lowerAll_induction (P := Draft.Distinct) (fun draft lhs items => .addAlternatives)
    (fun draft owner items => .addRepetition) hopening hdraft

/-- The nonterminals of a grammar made from rules are the start symbol, those of the definitions and
hidden ones. -/
theorem nonterminals_ofRules (h : ofRules definitions root = .ok g) : ∃ more,
    g.nonterminals.toList =
      ⟨"$start", none⟩ :: (definitions.map Definition.name).map Definition.nonterminal ++ more ∧
    ∀ info ∈ more, info.kind = none := by
  obtain ⟨-, index, draft, -, hdraft, hnonterminals, -⟩ := exists_draft_of_ofRules h
  rw [hnonterminals, List.toList_toArray]
  have hopening : (opening (definitions.map Definition.name) index).HidesAfter
      (opening (definitions.map Definition.name) index).nonterminals :=
    ⟨[], (List.append_nil _).symm, List.forall_mem_nil _⟩
  exact Draft.lowerAll_induction (P := Draft.HidesAfter _) (fun draft lhs items => .addAlternatives)
    (fun draft owner items => .addRepetition) hopening hdraft

theorem kind_nonterminal {name : RuleName} {kind : Kind} :
    (Definition.nonterminal name).kind = some kind ↔ name = .node kind := by
  cases name <;> simp [Definition.nonterminal]

/-- Nodes of a kind are made by the nonterminal of the definition that the kind names. -/
theorem visibleKind?_ofRules {i : Nat} {kind : Kind} (h : ofRules definitions root = .ok g) :
    g.visibleKind? i = some kind ↔
      ∃ j, i = j + 1 ∧ (definitions.map Definition.name)[j]? = some (.node kind) := by
  obtain ⟨more, hmore, hhidden⟩ := nonterminals_ofRules h
  generalize definitions.map Definition.name = names at hmore
  rw [visibleKind?, ← Array.getElem?_toList, hmore]
  cases i with
  | zero => simp
  | succ j =>
    rw [List.cons_append, List.getElem?_cons_succ]
    by_cases hj : j < names.length
    · rw [List.getElem?_append_left (by simpa using hj), List.getElem?_map,
        List.getElem?_eq_getElem hj]
      simp [kind_nonterminal, hj]
    · -- What comes after the definitions is hidden.
      have hnone : names[j]? = none := List.getElem?_eq_none (Nat.le_of_not_lt hj)
      rw [List.getElem?_append_right (by simpa using hj)]
      constructor
      · intro hkind
        obtain ⟨info, hinfo, hkind⟩ := Option.bind_eq_some_iff.1 hkind
        rw [hhidden info (List.mem_of_getElem? hinfo)] at hkind
        cases hkind
      · rintro ⟨j', hj', hname⟩
        obtain rfl := Nat.succ.inj hj'
        rw [hnone] at hname
        cases hname

/-- Of the nonterminals, one at most makes nodes of a kind. -/
theorem eq_of_visibleKind? {i j : Nat} {kind : Kind} (h : ofRules definitions root = .ok g)
    (hi : g.visibleKind? i = some kind) (hj : g.visibleKind? j = some kind) : i = j := by
  obtain ⟨i, rfl, hname⟩ := (visibleKind?_ofRules h).1 hi
  obtain ⟨j, rfl, hname'⟩ := (visibleKind?_ofRules h).1 hj
  obtain ⟨hlt, -⟩ := List.getElem?_eq_some_iff.1 hname
  have hnodup := (wellFormed_definitions h).nodup
  rw [(List.getElem?_inj hlt hnodup).1 (hname.trans hname'.symm)]

theorem nonterminalOfKind?_ofRules {i : Nat} {kind : Kind} (h : ofRules definitions root = .ok g) :
    g.nonterminalOfKind? kind = some i ↔ g.visibleKind? i = some kind := by
  have hfound {i : Nat} (hi : g.nonterminalOfKind? kind = some i) :
      g.visibleKind? i = some kind := by
    obtain ⟨hlt, hkind, -⟩ := Array.findIdx?_eq_some_iff_getElem.1 hi
    rw [visibleKind?, Array.getElem?_eq_getElem hlt]
    exact beq_iff_eq.1 hkind
  refine ⟨hfound, fun hi => ?_⟩
  cases hfind : g.nonterminalOfKind? kind with
  | some j => rw [eq_of_visibleKind? h (hfound hfind) hi]
  | none =>
    obtain ⟨info, hinfo, hkind⟩ := Option.bind_eq_some_iff.1 hi
    have hnone := Array.findIdx?_eq_none_iff.1 hfind info (Array.mem_of_getElem? hinfo)
    rw [hkind, beq_self_eq_true] at hnone
    cases hnone

/-- The start symbol has one production, since the other productions are proper. -/
theorem productionsOf_start (h : g.WellFormed) : g.productionsOf start = [acceptProduction] := by
  obtain ⟨root, -, -, haccept⟩ := h.accept
  obtain ⟨hsize, -⟩ := Array.getElem?_eq_some_iff.1 haccept
  obtain ⟨size, hsize⟩ := Nat.exists_eq_add_of_lt hsize
  rw [productionsOf, hsize, acceptProduction, Nat.zero_add, List.range_succ_eq_map,
    List.filter_cons_of_pos]
  · rw [List.cons.injEq]
    refine ⟨rfl, List.filter_eq_nil_iff.2 fun p hp hstart => ?_⟩
    obtain ⟨i, -, rfl⟩ := List.mem_map.1 hp
    obtain ⟨production, hproduction, hlhs⟩ := (Option.any_eq_true _ _).1 hstart
    have hproper := h.proper _ production hproduction (Nat.succ_ne_zero i)
    exact absurd (beq_iff_eq.1 hlhs) (Nat.ne_of_gt hproper.lhs.1)
  · rw [show g.productions[0]? = _ from haccept]
    rfl

/-- Two productions with the same sides have the same number. -/
theorem eq_of_sides {p q : Nat} {production production' : Production}
    (h : ofRules definitions root = .ok g) (hp : g.productions[p]? = some production)
    (hq : g.productions[q]? = some production') (hlhs : production.lhs = production'.lhs)
    (hrhs : production.rhs = production'.rhs) : p = q := by
  have hpairwise := List.pairwise_iff_getElem.1 (pairwise_productions_ofRules h)
  rw [← Array.getElem?_toList] at hp hq
  obtain ⟨hpsize, rfl⟩ := List.getElem?_eq_some_iff.1 hp
  obtain ⟨hqsize, rfl⟩ := List.getElem?_eq_some_iff.1 hq
  rcases Nat.lt_trichotomy p q with hlt | heq | hgt
  · exact absurd ⟨hlhs, hrhs⟩ (hpairwise p q hpsize hqsize hlt)
  · exact heq
  · exact absurd ⟨hlhs.symm, hrhs.symm⟩ (hpairwise q p hqsize hpsize hgt)

theorem consistent_ofRules (h : ofRules definitions root = .ok g) : g.Consistent where
  lhs_lt _ _ := (wellFormed_ofRules h).lhs_lt
  rhs_proper _ _ hp _ hi :=
    ⟨(wellFormed_ofRules h).lt_of_mem_rhs hp hi, (wellFormed_ofRules h).ne_start_of_mem_rhs hp hi⟩
  productionsOf_start := productionsOf_start (wellFormed_ofRules h)
  mem_productionsOf _ _ := Closure.mem_productionsOf_iff
  pairwise_productionsOf _ := List.pairwise_lt_range.filter _
  distinct _ _ _ _ := eq_of_sides h
  nonterminalOfKind? _ _ := nonterminalOfKind?_ofRules h

/-- Definitions have a grammar if and only if they fit together, and then its numbers are consistent.
Otherwise the error tells what is wrong with them. -/
theorem ofRules_spec (definitions : List Definition) (root : String) :
    ((∃ g, ofRules definitions root = .ok g) ↔ Definition.WellFormed definitions root) ∧
    (∀ e, ofRules definitions root = .error e → Definition.Fault definitions root e) ∧
    ∀ g, ofRules definitions root = .ok g → g.Consistent := by
  refine ⟨⟨?_, fun hdefinitions => ?_⟩, fun e => fault_of_ofRules, fun g => consistent_ofRules⟩
  · rintro ⟨g, h⟩
    exact wellFormed_definitions h
  · cases h : ofRules definitions root with
    | ok g => exact ⟨g, rfl⟩
    | error e => exact absurd (fault_of_ofRules h) hdefinitions.not_fault

end Grammar
end SqlTree
