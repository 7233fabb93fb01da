import SqlTree.Proofs.Lowering
import SqlTree.Grammar.BigQuery

/-!
# Lowering one definition at a time

Before a production is added, all earlier ones are searched for it. Only those of the same
nonterminal can be found, and these belong to the same definition. So every definition may be lowered
without the productions of the others, which is much less to evaluate for a large grammar.

- `Draft.behind`         : a draft with more productions in front
- `Draft.lower_behind`   : they make no difference for lowering a rule
- `Draft.lowerApart`     : lowering every definition for itself
- `Grammar.ofRules_eq`   : this leads to the same grammar
- `BigQuery.grammar_eq`  : the grammar of queries
-/

namespace SqlTree

namespace Draft

variable {n lhs : Nat} {before : List Production} {draft draft' : Draft} {names : List RuleName}
  {owner : String} {items : List Alternative} {p : Production}

/-- A draft with more productions in front of its own. -/
def behind (before : List Production) (draft : Draft) : Draft :=
  { draft with productions := before ++ draft.productions }

/-! ## Productions in front -/

/-- Productions of other nonterminals are not taken for an alternative. -/
theorem hasAlternative_behind (hbefore : ∀ p ∈ before, p.lhs ≠ lhs) (a : Alternative) :
    (draft.behind before).hasAlternative lhs a = draft.hasAlternative lhs a := by
  have hnone : before.any (fun p => p.lhs == lhs && p.rhs == a.symbols) = false := by
    rw [List.any_eq_false]
    intro p hp
    simp [hbefore p hp]
  unfold hasAlternative behind
  rw [List.any_append, hnone, Bool.false_or]

theorem addAlternatives_behind (hbefore : ∀ p ∈ before, p.lhs ≠ lhs) (items : List Alternative)
    (draft : Draft) :
    addAlternatives lhs items (draft.behind before) =
      (addAlternatives lhs items draft).behind before := by
  induction items generalizing draft with
  | nil => rfl
  | cons a rest ih =>
    rw [addAlternatives, addAlternatives, hasAlternative_behind hbefore, ← ih]
    split
    · rfl
    · rw [behind, behind, List.append_assoc]

theorem addRepetition_behind (hbefore : ∀ p ∈ before, p.lhs < draft.nonterminals.length)
    (owner : String) (items : List Alternative) :
    (draft.behind before).addRepetition owner items =
      Prod.map id (behind before) (draft.addRepetition owner items) := by
  have hne : ∀ p ∈ before, p.lhs ≠ draft.nonterminals.length := by
    intro p hp
    exact Nat.ne_of_lt (hbefore p hp)
  generalize hadded : (⟨draft.nonterminals ++
    [⟨owner ++ "_repeat" ++ toString draft.nonterminals.length, none⟩],
    draft.productions⟩ : Draft) = added
  have hitems := addAlternatives_behind hne items added
  have hlonger := addAlternatives_behind hne (items.map fun a =>
      { a with symbols := .nonterminal draft.nonterminals.length :: a.symbols })
    (addAlternatives draft.nonterminals.length items added)
  rw [← hitems, ← hadded] at hlonger
  exact Prod.ext rfl hlonger

/-! ## Whose productions are added -/

theorem mem_addAlternatives (h : p ∈ (addAlternatives lhs items draft).productions) :
    p ∈ draft.productions ∨ p.lhs = lhs := by
  induction items generalizing draft with
  | nil => exact .inl h
  | cons a rest ih =>
    rw [addAlternatives] at h
    split at h
    · exact ih h
    · rcases ih h with h | h
      · rcases List.mem_append.1 h with h | h
        · exact .inl h
        · obtain rfl := List.mem_singleton.1 h
          exact .inr rfl
      · exact .inr h

/-- Of the first `n` nonterminals, those from `lhs` on have no productions yet. -/
structure Apart (n lhs : Nat) (draft : Draft) : Prop where
  size_le : n ≤ draft.nonterminals.length
  lt : ∀ p ∈ draft.productions, p.lhs < draft.nonterminals.length
  apart : ∀ p ∈ draft.productions, p.lhs < lhs ∨ n ≤ p.lhs

theorem Apart.addAlternatives (h : draft.Apart n lhs) (hlhs : lhs < n) (items : List Alternative) :
    (addAlternatives lhs items draft).Apart n (lhs + 1) where
  size_le := by
    rw [addAlternatives_nonterminals]
    exact h.size_le
  lt p hp := by
    rw [addAlternatives_nonterminals]
    rcases mem_addAlternatives hp with hp | hp
    · exact h.lt p hp
    · rw [hp]
      exact Nat.lt_of_lt_of_le hlhs h.size_le
  apart p hp := by
    rcases mem_addAlternatives hp with hp | hp
    · exact (h.apart p hp).imp_left Nat.lt_succ_of_lt
    · exact .inl (Nat.lt_succ_of_le (Nat.le_of_eq hp))

theorem Apart.addRepetition (h : draft.Apart n lhs) (owner : String) (items : List Alternative) :
    (draft.addRepetition owner items).2.Apart n lhs := by
  -- What is added belongs to the new nonterminal.
  have hmem : ∀ p ∈ (draft.addRepetition owner items).2.productions,
      p ∈ draft.productions ∨ p.lhs = draft.nonterminals.length := by
    intro p hp
    rcases mem_addAlternatives hp with hp | hp
    · rcases mem_addAlternatives hp with hp | hp
      · exact .inl hp
      · exact .inr hp
    · exact .inr hp
  have hlength : (draft.addRepetition owner items).2.nonterminals.length =
      draft.nonterminals.length + 1 := length_addRepetition
  refine ⟨?_, ?_, ?_⟩
  · rw [hlength]
    exact Nat.le_succ_of_le h.size_le
  · intro p hp
    rw [hlength]
    rcases hmem p hp with hp | hp
    · exact Nat.lt_succ_of_lt (h.lt p hp)
    · exact Nat.lt_succ_of_le (Nat.le_of_eq hp)
  · intro p hp
    rcases hmem p hp with hp | hp
    · exact h.apart p hp
    · exact .inr (hp ▸ h.size_le)

theorem Apart.behind (h : draft.Apart n lhs) (hlt : ∀ p ∈ before, p.lhs < draft.nonterminals.length)
    (hapart : ∀ p ∈ before, p.lhs < lhs ∨ n ≤ p.lhs) : (draft.behind before).Apart n lhs where
  size_le := h.size_le
  lt := List.forall_mem_append.2 ⟨hlt, h.lt⟩
  apart := List.forall_mem_append.2 ⟨hapart, h.apart⟩

/-! ## Lowering -/

theorem length_le_of_lower {rule : Rule}
    (hlower : lower names owner rule draft = .ok (items, draft')) :
    draft.nonterminals.length ≤ draft'.nonterminals.length := by
  refine lower_induction (P := fun middle => draft.nonterminals.length ≤ middle.nonterminals.length)
    (fun middle items hle => ?_) (Nat.le_refl _) hlower
  rw [length_addRepetition]
  exact Nat.le_succ_of_le hle

/-- Productions of earlier nonterminals make no difference for lowering a rule. -/
theorem lower_behind (rule : Rule) (hbefore : ∀ p ∈ before, p.lhs < draft.nonterminals.length) :
    lower names owner rule (draft.behind before) =
      Prod.map id (behind before) <$> lower names owner rule draft := by
  -- Both sides fail together, and the parts of a rule are lowered one after the other.
  induction rule generalizing draft with
  | token kind =>
    simp only [lower]
    split <;> rfl
  | node kind | hidden name =>
    simp only [lower]
    cases resolve names _ <;> rfl
  | empty | never => rfl
  | cat first second ihfirst ihsecond | alt first second ihfirst ihsecond =>
    simp only [lower]
    rw [ihfirst hbefore]
    cases hfirst : lower names owner first draft with
    | error e => rfl
    | ok result =>
      obtain ⟨firsts, middle⟩ := result
      have hmiddle : ∀ p ∈ before, p.lhs < middle.nonterminals.length := by
        intro p hp
        exact Nat.lt_of_lt_of_le (hbefore p hp) (length_le_of_lower hfirst)
      change (lower names owner second (middle.behind before) >>= _) =
        Prod.map id (behind before) <$> (lower names owner second middle >>= _)
      rw [ihsecond hmiddle]
      cases hsecond : lower names owner second middle with
      | error e => rfl
      | ok result => rfl
  | many1 rule ih =>
    simp only [lower]
    rw [ih hbefore]
    cases hrule : lower names owner rule draft with
    | error e => rfl
    | ok result =>
      obtain ⟨inner, middle⟩ := result
      have hmiddle : ∀ p ∈ before, p.lhs < middle.nonterminals.length := by
        intro p hp
        exact Nat.lt_of_lt_of_le (hbefore p hp) (length_le_of_lower hrule)
      have hadd := addRepetition_behind hmiddle owner inner
      exact congrArg (fun added : Nat × Draft =>
        Except.ok ([Alternative.ofSymbol (.nonterminal added.1)], added.2)) hadd
  | prec level assoc rule ih =>
    simp only [lower]
    rw [ih hbefore]
    cases lower names owner rule draft <;> rfl

/-- Lowers the definitions in order, each without the productions of the others. -/
def lowerApart (names : List RuleName) :
    List Definition → Nat → List Nonterminal → Except GrammarError Draft
  | [], _, nonterminals => .ok ⟨nonterminals, []⟩
  | definition :: rest, lhs, nonterminals => do
    let (items, draft) ← lower names definition.name.display definition.rule ⟨nonterminals, []⟩
    let draft := addAlternatives lhs items draft
    let later ← lowerApart names rest (lhs + 1) draft.nonterminals
    return later.behind draft.productions

/-- The definitions can be lowered each for itself if none of them has productions yet. -/
theorem lowerAll_eq (names : List RuleName) (definitions : List Definition)
    {nonterminals : List Nonterminal} (h : (⟨nonterminals, before⟩ : Draft).Apart n lhs) (hcount : lhs + definitions.length ≤ n) :
    lowerAll names definitions lhs ⟨nonterminals, before⟩ =
      behind before <$> lowerApart names definitions lhs nonterminals := by
  induction definitions generalizing lhs nonterminals before with
  | nil => exact congrArg (fun ps => Except.ok (⟨nonterminals, ps⟩ : Draft)) (List.append_nil _).symm
  | cons definition rest ih =>
    have hlhs : lhs < n := by
      rw [List.length_cons] at hcount
      omega
    have hstart : (⟨nonterminals, before⟩ : Draft) = (⟨nonterminals, []⟩ : Draft).behind before := by
      rw [behind, List.append_nil]
    have hrule : lower names definition.name.display definition.rule
        ((⟨nonterminals, []⟩ : Draft).behind before) = Prod.map id (behind before) <$>
          lower names definition.name.display definition.rule ⟨nonterminals, []⟩ :=
      lower_behind definition.rule h.lt
    rw [lowerAll, lowerApart, hstart, hrule]
    cases hlower : lower names definition.name.display definition.rule ⟨nonterminals, []⟩ with
    | error e => rfl
    | ok result =>
      obtain ⟨items, draft⟩ := result
      have hempty : (⟨nonterminals, []⟩ : Draft).Apart n lhs :=
        ⟨h.size_le, List.forall_mem_nil _, List.forall_mem_nil _⟩
      have hdraft : draft.Apart n lhs :=
        lower_induction (fun middle items hmiddle => hmiddle.addRepetition _ items) hempty hlower
      have hadded := hdraft.addAlternatives hlhs items
      have hlength := length_le_of_lower hlower
      have hne : ∀ p ∈ before, p.lhs ≠ lhs := by
        intro p hp
        rcases h.apart p hp with hlt | hle <;> omega
      change lowerAll names rest (lhs + 1) (addAlternatives lhs items (draft.behind before)) = _
      rw [addAlternatives_behind hne]
      have hnext : ((addAlternatives lhs items draft).behind before).Apart n (lhs + 1) := by
        refine hadded.behind ?_ ?_
        · intro p hp
          rw [addAlternatives_nonterminals]
          exact Nat.lt_of_lt_of_le (h.lt p hp) hlength
        · intro p hp
          exact (h.apart p hp).imp_left Nat.lt_succ_of_lt
      rw [List.length_cons] at hcount
      refine (ih hnext (by omega)).trans ?_
      change _ = behind before <$> (lowerApart names rest (lhs + 1)
        (addAlternatives lhs items draft).nonterminals >>= _)
      cases lowerApart names rest (lhs + 1) (addAlternatives lhs items draft).nonterminals with
      | error e => rfl
      | ok later =>
        exact congrArg (fun ps => Except.ok (⟨later.nonterminals, ps⟩ : Draft)) (List.append_assoc ..)

end Draft

namespace Grammar

/-- The grammar of the definitions, each of them lowered for itself. -/
def ofRulesApart (definitions : List Definition) (root : String) : Except GrammarError Grammar :=
  let names := definitions.map Definition.name
  match Definition.duplicate? [] names, Definition.notANode? names with
  | some name, _ => .error (.duplicateRule name.display)
  | none, some kind => .error (.notANode kind)
  | none, none => do
    let root ← Draft.resolve names (.hidden root)
    let later ← Draft.lowerApart names definitions 1 (opening names root).nonterminals
    let draft := later.behind (opening names root).productions
    return ⟨draft.nonterminals.toArray, draft.productions.toArray⟩

theorem ofRules_eq (definitions : List Definition) (root : String) :
    ofRules definitions root = ofRulesApart definitions root := by
  -- Only the start symbol has a production when lowering begins.
  have hopening (index : Nat) : (opening (definitions.map Definition.name) index).Apart
      (definitions.length + 1) 1 := by
    refine ⟨?_, ?_, ?_⟩
    · simp [opening]
    · simp [opening, start]
    · simp [opening, start]
  unfold ofRules ofRulesApart
  dsimp only
  generalize definitions.map Definition.name = names at hopening ⊢
  cases Definition.duplicate? [] names with
  | some name => rfl
  | none =>
    cases Definition.notANode? names with
    | some kind => rfl
    | none =>
      cases Draft.resolve names (.hidden root) with
      | error e => rfl
      | ok index =>
        have hlower : Draft.lowerAll names definitions 1 (opening names index) =
            Draft.behind (opening names index).productions <$>
              Draft.lowerApart names definitions 1 (opening names index).nonterminals :=
          Draft.lowerAll_eq names definitions (hopening index) (by omega)
        change (Draft.lowerAll names definitions 1 (opening names index) >>= _) =
          (Draft.lowerApart names definitions 1 (opening names index).nonterminals >>= _)
        rw [hlower]
        cases Draft.lowerApart names definitions 1 (opening names index).nonterminals <;> rfl

end Grammar

/-- The grammar of queries in a form that is quick to evaluate. -/
theorem BigQuery.grammar_eq : grammar = Grammar.ofRulesApart rules root :=
  Grammar.ofRules_eq rules root

end SqlTree
