import SqlTree.Proofs.SelectStates
import SqlTree.Proofs.View

/-!
# Precedence in queries

- `BigQuery.operatorLevel?` : the levels of operators
- `BigQuery.operators_grouped` : how operators are grouped in the trees of queries
- `BigQuery.not_grouped_behind_error` : an operator behind an error, which takes all on its left
-/

namespace SqlTree
namespace BigQuery

/-! ## Operators of queries -/

/-- The level of an operator in an expression, by the token with which it begins. -/
def operatorLevel? : Kind → Option Int
  | .orKw => some 1
  | .andKw => some 2
  | .eq | .neq | .lt | .gt | .ltEq | .gtEq | .likeKw | .notKw => some 4
  | .pipe => some 5
  | .caret => some 6
  | .amp => some 7
  | .shl | .shr => some 8
  | .plus | .minus => some 9
  | .star | .slash | .pipePipe => some 10
  | _ => none

/-- Operators in expressions. -/
def expressionOperators : Operators where
  operand := 46
  node := 48
  kind := .binaryExpression
  level := operatorLevel?
  units := [46, 47]
  behind := [15, 35, 37, 47, 56, 81, 84, 85, 86, 87, 88, 91]

/-- Operators between queries, which are all of the same level. -/
def queryOperators : Operators where
  operand := 9
  node := 8
  kind := .setOperation
  level
    | .unionKw | .intersectKw | .exceptKw => some 1
    | _ => none
  units := [9]
  behind := []

set_option maxRecDepth 100000 in
theorem operators_test : (match BigQuery.grammar with
    | .ok g => expressionOperators.test g && queryOperators.test g
    | .error _ => false) = true := by
  rw [grammar_eq]
  decide +kernel

theorem operators_suit {g : Grammar} (hgrammar : BigQuery.grammar = .ok g) :
    expressionOperators.Suits g ∧ queryOperators.Suits g := by
  have htest := operators_test
  rw [hgrammar] at htest
  obtain ⟨hexpression, hquery⟩ := Bool.and_eq_true_iff.1 htest
  exact ⟨Operators.suits_of_test hexpression, Operators.suits_of_test hquery⟩

open Tree (Occurs)

/-- Operators are grouped in all trees that are made without an old one. -/
theorem all_grouped {setting : Setting} {text : List Char} (h : Occurs BigQuery.table setting text)
    (hreuse : setting.reuse = none) (firstId : Nat) :
    (Tree.parseWith setting text firstId).root.All expressionOperators.Grouped ∧
      (Tree.parseWith setting text firstId).root.All queryOperators.Grouped := by
  obtain ⟨g, hgrammar, htable, hsafe, -⟩ := table_spec
  have hg := Grammar.wellFormed_ofRules hgrammar
  obtain ⟨production, honce⟩ := Grammar.startsOnce_of_isSafe hsafe
  have hstart := Table.actions_start hg honce (isErasable_root hgrammar)
  obtain ⟨hexpression, hquery⟩ := operators_suit hgrammar
  have hsuits := suits htable hsafe h
  exact ⟨Tree.all_grouped hexpression hg hsuits hreuse hstart (by decide) firstId,
    Tree.all_grouped hquery hg hsuits hreuse hstart (by decide) firstId⟩

/-- All operators between queries are of one level. -/
theorem eq_one_of_queryLevel {x : Element} {l : Int} (h : x.level? queryOperators.level = some l) :
    l = 1 := by
  obtain ⟨kind, -, hlevel⟩ := Option.bind_eq_some_iff.1 h
  unfold queryOperators at hlevel
  dsimp only at hlevel
  split at hlevel
  · exact (Option.some.inj hlevel).symm
  · exact (Option.some.inj hlevel).symm
  · exact (Option.some.inj hlevel).symm
  · cases hlevel

/-- Operators are grouped by level and to the left, in every tree that is made from a text. A binary
expression has two operands and an operator with a level. If its right operand is a binary expression,
that one is of a higher level. If its left operand is one, that is of no lower level, unless something
that a repair left comes right behind it; where no repair was made nothing does. The right operand of a
set operation is never a set operation. -/
theorem operators_grouped (options : Options) (text : List Char) (firstId : Nat) :
    (Tree.parse BigQuery.table options text firstId).root.All fun x =>
      (x.isNodeOf .binaryExpression = true → ∃ left right l,
        x.leftOperand? = some left ∧ x.rightOperand? = some right ∧
        x.level? operatorLevel? = some l ∧
        (right.isNodeOf .binaryExpression = true →
          ∃ l', right.level? operatorLevel? = some l' ∧ l < l') ∧
        (left.isNodeOf .binaryExpression = true → x.interrupted = false →
          ∃ l', left.level? operatorLevel? = some l' ∧ l ≤ l')) ∧
      (x.hasError = false → x.interrupted = false) ∧
      (x.isNodeOf .setOperation = true →
        ∃ right, x.rightOperand? = some right ∧ right.isNodeOf .setOperation = false) := by
  have hgrouped := all_grouped (.scratch options text) rfl firstId
  unfold Tree.parse
  generalize (Tree.parseWith ⟨BigQuery.table, options, none⟩ text firstId).root = root at hgrouped ⊢
  refine hgrouped.1.imp₂ hgrouped.2 fun x hexpression hquery => ⟨fun hnode => ?_,
    Element.interrupted_of_hasError, fun hnode => ?_⟩
  · obtain ⟨left, right, l, hleft, hright, hlevel, hbefore, hbehind⟩ := hexpression hnode
    exact ⟨left, right, l, hleft, hright, hlevel, hbehind, hbefore⟩
  · obtain ⟨left, right, l, -, hright, hlevel, -, hbehind⟩ := hquery hnode
    refine ⟨right, hright, Bool.eq_false_iff.2 fun hnested => ?_⟩
    obtain ⟨l', hlevel', hlt⟩ := hbehind hnested
    rw [eq_one_of_queryLevel hlevel, eq_one_of_queryLevel hlevel'] at hlt
    exact lt_irrefl _ hlt

/-! ## Operators behind an error -/

open Machine (Comes)

section

variable {g : Grammar} {rank : Nat → Nat} {setting : Setting} {text : List Char}
  {firstId attempts state base next number : Nat} {xs : List Element}
  {below : List (Nat × List Element)} {kind : Kind} {kinds : List Kind}

/-- A number is read as an operand. -/
theorem comes_operand (states : SelectStates setting.table)
    (h : Comes setting text firstId ((state, xs) :: below) (.number :: kind :: kinds) attempts)
    (hg : g.WellFormed) (hsuits : setting.Suits g rank text) (hreuse : setting.reuse = none)
    (hrules : SelectRules g) (hstate : state ∈ [states.select, states.plus, states.star])
    (hkind : kind ∈ [Kind.plus, .rBracket, .eof]) (hgoto : setting.table.goto? state 46 = some next) :
    ∃ x, Comes setting text firstId ((next, [x]) :: (state, xs) :: below) (kind :: kinds) attempts := by
  obtain ⟨-, -, -, -, hproduction, -, -, -, -, -, hhidden, -⟩ := hrules
  have hreserved : ∀ kind ∈ [Kind.plus, .rBracket, .eof], kind.isContextual = false := by decide
  obtain ⟨x, -, h⟩ := h.shift hsuits hreuse (by decide) rfl (states.shift_number state hstate)
  obtain ⟨ys, hforms, h⟩ := Comes.reduce [(states.number, [x])] h hg hsuits (hreserved kind hkind) rfl
    rfl (states.reduce_number kind hkind) hproduction rfl hgoto
  cases hforms with
  | hidden => exact ⟨x, h⟩
  | visible hvisible => cases hhidden.symm.trans hvisible

/-- An operator and its operands become a binary expression. -/
theorem comes_binary {operator : Kind} {level : Int} {assoc : Assoc} {left x right : Element}
    {result behind operand : Nat}
    (h : Comes setting text firstId
      ((result, [right]) :: (behind, [x]) :: (operand, [left]) :: (base, xs) :: below) (kind :: kinds)
      attempts)
    (hg : g.WellFormed) (hsuits : setting.Suits g rank text) (hrules : SelectRules g)
    (hproduction : g.productions[number]? =
      some ⟨48, [.nonterminal 46, .terminal operator, .nonterminal 46], level, assoc⟩)
    (hkind : kind.isContextual = false) (hcell : setting.table.actions result kind = [.reduce number])
    (hgoto : setting.table.goto? base 48 = some next) :
    ∃ y, y.isNodeOf .binaryExpression = true ∧ y.constituents = [left, x, right] ∧
      Comes setting text firstId ((next, [y]) :: (base, xs) :: below) (kind :: kinds) attempts := by
  obtain ⟨-, -, -, -, -, -, -, -, -, -, -, hvisible⟩ := hrules
  obtain ⟨ys, hforms, h⟩ := Comes.reduce [(result, [right]), (behind, [x]), (operand, [left])] h hg
    hsuits hkind rfl rfl hcell hproduction rfl hgoto
  cases hforms with
  | hidden hhidden => cases hhidden.symm.trans hvisible
  | @visible kind y hkind' hnode hchildren =>
    obtain rfl := Option.some.inj (hvisible.symm.trans hkind')
    exact ⟨y, hnode, hchildren, h⟩

/-- In `1+1]*1` the sum is complete in front of the `]`. That is skipped, and so the sum is the left
operand of the product. -/
theorem exists_sum_in_product (hsuits : setting.Suits g rank "SELECT 1+1]*1".toList)
    (states : SelectStates setting.table) (hg : g.WellFormed) (hreuse : setting.reuse = none)
    (hrules : SelectRules g)
    (hoptions : setting.options.maxInsertions = 0 ∧ setting.options.recoveryValidation = 0 ∧
      0 < setting.options.simulationSteps) :
    ∃ v ∈ (Tree.parseWith setting "SELECT 1+1]*1".toList 0).root.visits, ∃ sum,
      v.element.isNodeOf .binaryExpression = true ∧ v.element.leftOperand? = some sum ∧
      sum.isNodeOf .binaryExpression = true ∧ v.element.level? operatorLevel? = some 10 ∧
      sum.level? operatorLevel? = some 9 := by
  obtain ⟨-, -, -, hunit, -, hplus, hstar, -, -, -, hhidden, -⟩ := id hrules
  have hstart : Comes setting "SELECT 1+1]*1".toList 0 [(0, [])]
      [.selectKw, .number, .plus, .number, .rBracket, .star, .number, .eof] 0 :=
    .start (by decide +kernel)
  -- The sum is read up to the bracket.
  obtain ⟨_, -, hselect⟩ := hstart.shift hsuits hreuse (by decide) rfl states.shift_select
  obtain ⟨a, ha⟩ := comes_operand states hselect hg hsuits hreuse hrules (by simp) (by simp)
    states.goto_operand
  obtain ⟨plus, hreading, hshift⟩ := ha.shift hsuits hreuse (by decide) rfl states.shift_plus
  obtain ⟨b, hb⟩ := comes_operand states hshift hg hsuits hreuse hrules (by simp) (by simp)
    states.goto_sum
  obtain ⟨sum, hsum, hchildren, hbinary⟩ := comes_binary hb hg hsuits hrules hplus rfl
    states.reduce_sum states.goto_binary
  obtain ⟨ys, hforms, hreduce⟩ := Comes.reduce [(states.binary, [sum])] hbinary hg hsuits rfl rfl rfl
    states.reduce_binary hunit rfl states.goto_operand
  obtain rfl : ys = [sum] := by
    cases hforms with
    | hidden => rfl
    | visible hvisible => cases hhidden.symm.trans hvisible
  -- The bracket is skipped, and the product goes on behind it.
  have hstray : Machine.Stray .rBracket :=
    ⟨by decide, fun context => (by cases context <;> decide), by decide⟩
  have hskip := hreduce.skip hsuits (by decide) hstray (by decide) rfl states.stuck states.shift_star
    hoptions (by decide)
  obtain ⟨star, hreading', hshift'⟩ := hskip.shift hsuits hreuse (by decide) rfl states.shift_star
  obtain ⟨c, hc⟩ := comes_operand states hshift' hg hsuits hreuse hrules (by simp) (by simp)
    states.goto_product
  obtain ⟨product, hproduct, hchildren', hend⟩ := comes_binary hc hg hsuits hrules hstar rfl
    states.reduce_product states.goto_binary
  obtain ⟨v, hv, rfl⟩ := hend.exists_visit hsuits List.mem_cons_self (List.mem_singleton_self _)
  refine ⟨v, hv, sum, hproduct, ?_, hsum, ?_, ?_⟩
  · rw [Element.leftOperand?, hchildren']
    rfl
  · simp [Element.level?, hchildren', hreading', operatorLevel?]
  · simp [Element.level?, hchildren, hreading, operatorLevel?]

end

/-- What is repaired on the left of an operator can leave it an operand of a lower level. -/
theorem not_grouped_behind_error :
    ¬ (Tree.parse BigQuery.table { maxInsertions := 0, recoveryValidation := 0 }
        "SELECT 1+1]*1".toList 0).root.All fun x =>
      ∀ left l, x.isNodeOf .binaryExpression = true → x.leftOperand? = some left →
        left.isNodeOf .binaryExpression = true → x.level? operatorLevel? = some l →
        ∃ l', left.level? operatorLevel? = some l' ∧ l ≤ l' := by
  obtain ⟨g, hgrammar, -, hrules, ⟨states⟩⟩ := exists_selectStates
  obtain ⟨g', hgrammar', htable, hsafe, -⟩ := table_spec
  cases hgrammar.symm.trans hgrammar'
  have hsuits := suits htable hsafe
    (.scratch { maxInsertions := 0, recoveryValidation := 0 } "SELECT 1+1]*1".toList)
  have hsteps : 0 < Options.simulationSteps { maxInsertions := 0, recoveryValidation := 0 } := by
    decide
  obtain ⟨v, hv, sum, hproduct, hleft, hsum, hlevel, hlevel'⟩ := exists_sum_in_product hsuits
    states (Grammar.wellFormed_ofRules hgrammar) rfl hrules ⟨rfl, rfl, hsteps⟩
  unfold Tree.parse
  generalize (Tree.parseWith _ "SELECT 1+1]*1".toList 0).root = root at hv ⊢
  intro hall
  obtain ⟨l', hl', hle⟩ :=
    Element.all_iff_forall_visits.1 hall v hv sum 10 hproduct hleft hsum hlevel
  obtain rfl := Option.some.inj (hlevel'.symm.trans hl')
  exact absurd hle (by decide)

end BigQuery
end SqlTree
