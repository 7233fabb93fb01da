import SqlTree.Proofs.BigQuery
import SqlTree.Proofs.Outline

/-!
# Sums behind `SELECT`

The part of the table of queries that reads sums and products of numbers behind `SELECT`. It is found
without building the table: outlines bound what can be done in these states, and productions begun one
inside the other show that it is done. A number, and a sum of two, is complete in front of a `]` also
here, where no array is open, because these states are the same ones inside an array.

- `BigQuery.SelectStates` : the states and what the table does in them
- `BigQuery.exists_selectStates` : the table of queries has them
-/

namespace SqlTree
namespace BigQuery

open Grammar (FollowsAt)
open Outline (Covers)
open Table (precOf ofGrammar)

/-! ## Outlines -/

/-- The nonterminals with which an operand may begin. -/
def operandBegun : List Nat :=
  [10, 46, 47, 48, 49, 50, 51, 52, 53, 54, 55, 58, 59, 60, 62, 63, 64, 65, 66, 67, 69, 70, 71]

/-- Before a text. -/
def textOutline : Outline := ⟨[Item.opening 0], [1, 2, 4, 5, 6, 7, 8, 9, 10, 11, 13, 74]⟩

/-- Behind `SELECT`. -/
def selectOutline (g : Grammar) : Outline :=
  ⟨textOutline.after g (.terminal .selectKw), [14, 16, 17] ++ operandBegun⟩

/-- Behind an operand that stands behind `SELECT`. -/
def operandOutline (g : Grammar) : Outline :=
  ⟨(selectOutline g).after g (.nonterminal 46), [15, 47]⟩

/-- Behind a `[` that stands behind `SELECT`. -/
def bracketOutline (g : Grammar) : Outline :=
  ⟨(selectOutline g).after g (.terminal .lBracket), operandBegun⟩

/-- Behind an operand that stands behind such a `[`. -/
def elementOutline (g : Grammar) : Outline :=
  ⟨(bracketOutline g).after g (.nonterminal 46), [88]⟩

/-- Behind the operator of a production. -/
def operatorOutline (p : Nat) : Outline := ⟨[⟨p, 2⟩], operandBegun⟩

/-- Behind the operand that stands behind it. -/
def resultOutline (g : Grammar) (p : Nat) : Outline :=
  ⟨(operatorOutline p).after g (.nonterminal 46), []⟩

/-- Behind the symbol of a production with a single one. -/
def unitOutline (p : Nat) : Outline := ⟨[⟨p, 1⟩], []⟩

/-! ## A test for the grammar -/

/-- The productions by which sums and products behind `SELECT` are read, and nonterminals that some
terminals never follow. -/
def SelectRules (g : Grammar) : Prop :=
  g.productions[8]? = some ⟨1, [], 0, .none⟩ ∧
  g.productions[121]? = some ⟨13, [.terminal .selectKw, .nonterminal 14], 0, .none⟩ ∧
  g.productions[123]? = some ⟨14, [.nonterminal 46], 0, .none⟩ ∧
  g.productions[244]? = some ⟨46, [.nonterminal 48], 0, .none⟩ ∧
  g.productions[266]? = some ⟨46, [.terminal .number], 0, .none⟩ ∧
  g.productions[290]? = some ⟨48, [.nonterminal 46, .terminal .plus, .nonterminal 46], 9, .left⟩ ∧
  g.productions[292]? = some ⟨48, [.nonterminal 46, .terminal .star, .nonterminal 46], 10, .left⟩ ∧
  g.productions[397]? =
    some ⟨65, [.terminal .lBracket, .nonterminal 46, .terminal .rBracket], 0, .none⟩ ∧
  g.shuns .selectKw [] [0, 1] = true ∧
  g.shuns .rBracket [21, 31, 32, 33, 34, 35, 37, 39, 74, 76]
    [0, 1, 2, 3, 4, 5, 6, 7, 8, 9, 13, 14, 74, 76] = true ∧
  g.visibleKind? 46 = none ∧ g.visibleKind? 48 = some .binaryExpression

instance (g : Grammar) : Decidable (SelectRules g) := inferInstanceAs (Decidable (_ ∧ _))

/-- The outlines leave nothing out, and show no more than is needed. -/
def SelectOutlines (g : Grammar) : Prop :=
  textOutline.shows g [8] [] = true ∧
  (selectOutline g).shows g []
    [(.terminal .number, [⟨266, 1⟩]), (.nonterminal 48, [⟨244, 1⟩])] = true ∧
  (operandOutline g).shows g [123] [(.terminal .plus, [⟨290, 2⟩]),
    (.terminal .star, [⟨292, 2⟩]), (.terminal .rBracket, [])] = true ∧
  (bracketOutline g).shows g [] [(.nonterminal 48, [⟨244, 1⟩])] = true ∧
  (elementOutline g).shows g [] [(.terminal .plus, [⟨290, 2⟩])] = true ∧
  (operatorOutline 290).shows g [] [(.terminal .number, [⟨266, 1⟩])] = true ∧
  (operatorOutline 292).shows g [] [(.terminal .number, [⟨266, 1⟩])] = true ∧
  (resultOutline g 290).shows g [290] [(.terminal .rBracket, [])] = true ∧
  (resultOutline g 292).shows g [292] [(.terminal .eof, [])] = true ∧
  (unitOutline 244).shows g [244] [(.terminal .rBracket, [])] = true ∧
  (unitOutline 266).shows g [266]
    [(.terminal .plus, []), (.terminal .rBracket, []), (.terminal .eof, [])] = true

instance (g : Grammar) : Decidable (SelectOutlines g) := inferInstanceAs (Decidable (_ ∧ _))

/-- Productions begin one inside the other, in front of a text and behind `SELECT`. -/
def SelectDescents (g : Grammar) : Prop :=
  g.descends .eof [6, 9, 18, 19, 85, 121] (Item.rest g (Item.opening 0)) true = true ∧
  g.descends .plus [123, 244, 290, 266] (Item.rest g ⟨121, 1⟩) false = true ∧
  g.descends .eof [123, 244] (Item.rest g ⟨121, 1⟩) true = true ∧
  g.descends .eof [123, 244, 290] (Item.rest g ⟨121, 1⟩) true = true ∧
  g.descends .eof [123, 244, 292] (Item.rest g ⟨121, 1⟩) true = true ∧
  g.descends .eof [123, 259, 397] (Item.rest g ⟨121, 1⟩) true = true

instance (g : Grammar) : Decidable (SelectDescents g) := inferInstanceAs (Decidable (_ ∧ _))

set_option maxRecDepth 100000 in
theorem selectTest : (match BigQuery.grammar with
    | .ok g => decide (SelectRules g ∧ SelectOutlines g ∧ SelectDescents g)
    | .error _ => false) = true := by
  rw [grammar_eq]
  decide +kernel

/-! ## The states -/

variable {g : Grammar} {state : Nat} {kind other : Kind} {item : Item}

theorem rest_of_production {p mark : Nat} {production : Production}
    (hp : g.productions[p]? = some production) :
    Item.rest g ⟨p, mark⟩ = production.rhs.drop mark := by
  simp [Item.rest, hp]

/-- The states that are reached in reading sums and products of numbers behind `SELECT`. -/
structure SelectPath (g : Grammar) where
  /-- Behind `SELECT`. -/
  select : Nat
  /-- Behind a number. -/
  number : Nat
  /-- Behind the operand that stands behind `SELECT`. -/
  operand : Nat
  /-- Behind a binary expression that is that operand. -/
  binary : Nat
  /-- Behind a `+` that follows the operand. -/
  plus : Nat
  /-- Behind a `*` that follows the operand. -/
  star : Nat
  /-- Behind the second operand of the `+`. -/
  sum : Nat
  /-- Behind the second operand of the `*`. -/
  product : Nat
  next_select : g.next? 0 (.terminal .selectKw) = some select
  next_number : g.next? select (.terminal .number) = some number
  next_operand : g.next? select (.nonterminal 46) = some operand
  next_binary : g.next? select (.nonterminal 48) = some binary
  next_plus : g.next? operand (.terminal .plus) = some plus
  next_star : g.next? operand (.terminal .star) = some star
  next_sum : g.next? plus (.nonterminal 46) = some sum
  next_product : g.next? star (.nonterminal 46) = some product
  select_begins : FollowsAt g 0 (Item.opening 121) .eof
  number_begins : FollowsAt g select (Item.opening 266) .plus
  array_begins : FollowsAt g select (Item.opening 397) .eof
  sum_follows : FollowsAt g operand ⟨290, 1⟩ .eof
  product_follows : FollowsAt g operand ⟨292, 1⟩ .eof
  number_follows : FollowsAt g number ⟨266, 1⟩ .plus
  plus_follows : FollowsAt g plus ⟨290, 2⟩ .eof
  star_follows : FollowsAt g star ⟨292, 2⟩ .eof

theorem exists_selectPath (hg : g.WellFormed) (hrules : SelectRules g)
    (hdescents : SelectDescents g) : Nonempty (SelectPath g) := by
  obtain ⟨-, h121, -, h244, h266, h290, h292, h397, -⟩ := hrules
  obtain ⟨hselect, hnumber, hbinary, hsum, hproduct, harray⟩ := hdescents
  have f121 : FollowsAt g 0 (Item.opening 121) .eof :=
    (Grammar.followsAt_start hg).descend _ _ hselect
  obtain ⟨select, hselect, hitem⟩ := f121.exists_next hg (Item.rest_opening h121)
  have f244 : FollowsAt g select (Item.opening 244) .eof := hitem.descend _ _ hbinary
  have f266 : FollowsAt g select (Item.opening 266) .plus := hitem.descend _ _ hnumber
  have f290 : FollowsAt g select (Item.opening 290) .eof := hitem.descend _ _ hsum
  have f292 : FollowsAt g select (Item.opening 292) .eof := hitem.descend _ _ hproduct
  obtain ⟨number, hnumber, number_follows⟩ := f266.exists_next hg (Item.rest_opening h266)
  obtain ⟨binary, hbinary, -⟩ := f244.exists_next hg (Item.rest_opening h244)
  obtain ⟨operand, hoperand, hsum⟩ := f290.exists_next hg (Item.rest_opening h290)
  have hproduct := f292.next_of_eq hg (Item.rest_opening h292) hoperand
  obtain ⟨plus, hplus, plus_follows⟩ := hsum.exists_next hg (rest_of_production h290)
  obtain ⟨star, hstar, star_follows⟩ := hproduct.exists_next hg (rest_of_production h292)
  obtain ⟨sum, hsum', -⟩ := plus_follows.exists_next hg (rest_of_production h290)
  obtain ⟨product, hproduct', -⟩ := star_follows.exists_next hg (rest_of_production h292)
  exact ⟨{ select, number, operand, binary, plus, star, sum, product
           next_select := hselect, next_number := hnumber, next_operand := hoperand
           next_binary := hbinary, next_plus := hplus, next_star := hstar
           next_sum := hsum', next_product := hproduct'
           select_begins := f121, number_begins := f266
           array_begins := hitem.descend _ _ harray
           sum_follows := hsum, product_follows := hproduct
           number_follows, plus_follows, star_follows }⟩

namespace SelectPath

variable (path : SelectPath g) (hg : g.WellFormed) (hrules : SelectRules g)
  (houtlines : SelectOutlines g)

section Covers

include path hg houtlines

theorem covers_select :
    (selectOutline g).Covers g path.select :=
  (Outline.covers_start hg _).after houtlines.1 path.next_select _

theorem covers_operand :
    (operandOutline g).Covers g path.operand :=
  (path.covers_select hg houtlines).after houtlines.2.1 path.next_operand _

theorem covers_number :
    (unitOutline 266).Covers g path.number :=
  (path.covers_select hg houtlines).after_of_mem houtlines.2.1 (by simp) path.next_number _

theorem covers_binary :
    (unitOutline 244).Covers g path.binary :=
  (path.covers_select hg houtlines).after_of_mem houtlines.2.1 (by simp) path.next_binary _

theorem covers_plus :
    (operatorOutline 290).Covers g path.plus :=
  (path.covers_operand hg houtlines).after_of_mem houtlines.2.2.1 (by simp) path.next_plus _

theorem covers_star :
    (operatorOutline 292).Covers g path.star :=
  (path.covers_operand hg houtlines).after_of_mem houtlines.2.2.1 (by simp) path.next_star _

theorem covers_sum :
    (resultOutline g 290).Covers g path.sum :=
  (path.covers_plus hg houtlines).after houtlines.2.2.2.2.2.1 path.next_sum _

theorem covers_product :
    (resultOutline g 292).Covers g path.product :=
  (path.covers_star hg houtlines).after houtlines.2.2.2.2.2.2.1 path.next_product _

end Covers

/-! ## What follows in the states -/

include hg hrules houtlines

/-- Inside an array, the same states are reached behind a binary expression and behind a `+`. -/
theorem array_follows :
    FollowsAt g path.binary ⟨244, 1⟩ .rBracket ∧ FollowsAt g path.plus ⟨290, 2⟩ .rBracket := by
  have cbinary := path.covers_binary hg houtlines
  have cplus := path.covers_plus hg houtlines
  have cselect := path.covers_select hg houtlines
  obtain ⟨-, -, -, h244, -, h290, -, h397, -⟩ := hrules
  obtain ⟨-, hselect, -, hbracket, helement, -⟩ := houtlines
  obtain ⟨bracket, hnext, hitem⟩ := path.array_begins.exists_next hg (Item.rest_opening h397)
  have cbracket : (bracketOutline g).Covers g bracket := cselect.after hselect hnext _
  have hrest : Item.rest g ⟨397, 1⟩ = [.nonterminal 46, .terminal .rBracket] :=
    rest_of_production h397
  have f244 : FollowsAt g bracket (Item.opening 244) .rBracket :=
    hitem.descend _ [244] (by
      simp [Item.opening, Item.advance, hrest, Grammar.descends, h244, Grammar.comes])
  have f290 : FollowsAt g bracket (Item.opening 290) .rBracket :=
    hitem.descend _ [244, 290] (by
      simp [Item.opening, Item.advance, hrest, Grammar.descends, h244, h290, Grammar.comes])
  obtain ⟨binary, hbinary, binary_follows⟩ := f244.exists_next hg (Item.rest_opening h244)
  obtain ⟨element, helement', hsum⟩ := f290.exists_next hg (Item.rest_opening h290)
  obtain ⟨plus, hplus, plus_follows⟩ := hsum.exists_next hg (rest_of_production h290)
  -- In the kernels of these states there is only one item each, as in those outside the array.
  have cbinary' : (unitOutline 244).Covers g binary :=
    cbracket.after_of_mem hbracket (by simp) hbinary _
  have celement : (elementOutline g).Covers g element := cbracket.after hbracket helement' _
  have cplus' : (operatorOutline 290).Covers g plus :=
    celement.after_of_mem helement (by simp) hplus _
  obtain rfl : path.binary = binary := cbinary.eq_of_singleton hg cbinary' rfl rfl
  obtain rfl : path.plus = plus := cplus.eq_of_singleton hg cplus' rfl rfl
  exact ⟨binary_follows, plus_follows⟩

/-- A number that is the second operand of an operator leads to the state behind a number, and is
followed by what follows the operator. -/
theorem number_spec {p : Nat}
    (hshows : (operatorOutline p).shows g [] [(.terminal .number, [⟨266, 1⟩])] = true)
    (hcovers : (operatorOutline p).Covers g state) (h : FollowsAt g state ⟨p, 2⟩ kind)
    (hrest : Item.rest g ⟨p, 2⟩ = [.nonterminal 46]) :
    FollowsAt g state (Item.opening 266) kind ∧
      g.next? state (.terminal .number) = some path.number ∧
      FollowsAt g path.number ⟨266, 1⟩ kind := by
  obtain ⟨-, -, -, -, h266, -⟩ := hrules
  have f266 : FollowsAt g state (Item.opening 266) kind :=
    h.descend _ [266] (by simp [hrest, Grammar.descends, h266, Grammar.comes])
  obtain ⟨number, hnumber, number_follows⟩ := f266.exists_next hg (Item.rest_opening h266)
  have cnumber : (unitOutline 266).Covers g number := hcovers.after_of_mem hshows (by simp) hnumber _
  obtain rfl : path.number = number :=
    (path.covers_number hg houtlines).eq_of_singleton hg cnumber rfl rfl
  exact ⟨f266, hnumber, number_follows⟩

/-! ## Cells of the states -/

theorem shift_select : (ofGrammar g).actions 0 .selectKw = [.shift path.select] := by
  obtain ⟨h8, h121, -, -, -, -, -, -, hshuns, -⟩ := hrules
  refine Table.actions_eq_shift hg (Outline.covers_start hg _) houtlines.1 (by decide) rfl
    path.select_begins.begins (Item.rest_opening h121) path.next_select fun p hp hcomplete => ?_
  -- The empty text is complete only in front of the end of the input.
  obtain rfl := List.mem_singleton.1 hp
  obtain ⟨-, mark, hfollows, -⟩ := hcomplete
  exact absurd hfollows (Grammar.not_followsAt_of_shuns hg hshuns (by simp) h8 (by simp))

theorem shift_number : ∀ state ∈ [path.select, path.plus, path.star],
    (ofGrammar g).actions state .number = [.shift path.number] := by
  have hshift {o : Outline} {reads : List (Symbol × List Item)} {state : Nat} {kind : Kind}
      (hshows : o.shows g [] reads = true) (hcovers : o.Covers g state)
      (hbegins : FollowsAt g state (Item.opening 266) kind)
      (hnumber : g.next? state (.terminal .number) = some path.number) :
      (ofGrammar g).actions state .number = [.shift path.number] :=
    Table.actions_eq_shift hg hcovers hshows (by simp) rfl hbegins.begins
      (Item.rest_opening hrules.2.2.2.2.1) hnumber (by simp)
  have cplus := path.covers_plus hg houtlines
  have cstar := path.covers_star hg houtlines
  obtain ⟨-, h290, h292, -⟩ := hrules.2.2.2.2
  obtain ⟨-, hselect, -, -, -, hplus, hstar, -⟩ := id houtlines
  obtain ⟨bplus, nplus, -⟩ := path.number_spec hg hrules houtlines hplus cplus path.plus_follows
    (rest_of_production h290)
  obtain ⟨bstar, nstar, -⟩ := path.number_spec hg hrules houtlines hstar cstar path.star_follows
    (rest_of_production h292)
  intro state hstate
  simp only [List.mem_cons, List.not_mem_nil, or_false] at hstate
  rcases hstate with rfl | rfl | rfl
  · exact hshift hselect (path.covers_select hg houtlines) path.number_begins path.next_number
  · exact hshift hplus cplus bplus nplus
  · exact hshift hstar cstar bstar nstar

/-- Behind an operand, an operator is stronger than the end of the column. -/
theorem shift_operator {p : Nat} {kind : Kind} {target : Nat} {prec : Int}
    (hp : g.productions[p]? =
      some ⟨48, [.nonterminal 46, .terminal kind, .nonterminal 46], prec, .left⟩)
    (hpos : 0 < prec) (hkind : kind.isToken = true) (hfollows : FollowsAt g path.operand ⟨p, 1⟩ other)
    (htarget : g.next? path.operand (.terminal kind) = some target) :
    (ofGrammar g).actions path.operand kind = [.shift target] := by
  refine Table.actions_eq_shift hg (path.covers_operand hg houtlines) houtlines.2.2.1 (by decide) hkind
    hfollows.begins (rest_of_production hp) htarget fun q hq _ => ?_
  obtain rfl := List.mem_singleton.1 hq
  obtain ⟨-, -, h123, -⟩ := hrules
  simpa [precOf, h123, hp] using hpos

/-- A number is complete in front of whatever may follow it. -/
theorem reduce_number : ∀ kind ∈ [Kind.plus, .rBracket, .eof],
    (ofGrammar g).actions path.number kind = [.reduce 266] := by
  have cnumber := path.covers_number hg houtlines
  obtain ⟨-, fplus⟩ := path.array_follows hg hrules houtlines
  obtain ⟨h266, h290, h292, -⟩ := hrules.2.2.2.2
  obtain ⟨-, -, -, -, -, hplus, hstar, -, -, -, hnumber⟩ := id houtlines
  obtain ⟨-, -, fsum⟩ := path.number_spec hg hrules houtlines hplus
    (path.covers_plus hg houtlines) fplus (rest_of_production h290)
  obtain ⟨-, -, fproduct⟩ := path.number_spec hg hrules houtlines hstar
    (path.covers_star hg houtlines) path.star_follows (rest_of_production h292)
  have hrest : Item.rest g ⟨266, 1⟩ = [] := rest_of_production h266
  intro kind hkind
  simp only [List.mem_cons, List.not_mem_nil, or_false] at hkind
  rcases hkind with rfl | rfl | rfl
  · exact Table.actions_eq_reduce hg cnumber hnumber (by decide) (by simp) rfl path.number_follows hrest
  · exact Table.actions_eq_reduce hg cnumber hnumber (by decide) (by simp) rfl fsum hrest
  · exact Table.actions_eq_reduce hg cnumber hnumber (by decide) (by simp) rfl fproduct hrest

theorem reduce_binary : (ofGrammar g).actions path.binary .rBracket = [.reduce 244] := by
  obtain ⟨fbinary, -⟩ := path.array_follows hg hrules houtlines
  obtain ⟨-, -, -, -, -, -, -, -, -, hbinary, -⟩ := id houtlines
  exact Table.actions_eq_reduce hg (path.covers_binary hg houtlines) hbinary (by decide) (by simp) rfl
    fbinary (rest_of_production hrules.2.2.2.1)

theorem reduce_sum : (ofGrammar g).actions path.sum .rBracket = [.reduce 290] := by
  obtain ⟨-, fplus⟩ := path.array_follows hg hrules houtlines
  obtain ⟨-, h290, -⟩ := hrules.2.2.2.2
  obtain ⟨-, -, -, -, -, -, -, hsum, -⟩ := id houtlines
  exact Table.actions_eq_reduce hg (path.covers_sum hg houtlines) hsum (by decide) (by simp) rfl
    (fplus.next_of_eq hg (rest_of_production h290) path.next_sum) (rest_of_production h290)

theorem reduce_product : (ofGrammar g).actions path.product .eof = [.reduce 292] := by
  obtain ⟨-, -, h292, -⟩ := hrules.2.2.2.2
  obtain ⟨-, -, -, -, -, -, -, -, hproduct, -⟩ := id houtlines
  exact Table.actions_eq_reduce hg (path.covers_product hg houtlines) hproduct (by decide) (by simp) rfl
    (path.star_follows.next_of_eq hg (rest_of_production h292) path.next_product)
    (rest_of_production h292)

/-- Behind an operand no `]` is read, and no column ends in front of one. -/
theorem stuck : (ofGrammar g).actions path.operand .rBracket = [] := by
  obtain ⟨-, -, h123, -, -, -, -, -, -, hshuns, -⟩ := hrules
  refine Table.actions_eq_nil hg (path.covers_operand hg houtlines) houtlines.2.2.1 (by decide) rfl
    (by simp) fun p hp hcomplete => ?_
  obtain rfl := List.mem_singleton.1 hp
  obtain ⟨-, mark, hfollows, -⟩ := hcomplete
  exact Grammar.not_followsAt_of_shuns hg hshuns (by simp) h123 (by simp) hfollows

end SelectPath

/-! ## The table -/

/-- States of a table that reads sums and products of numbers behind `SELECT`, with the cells and
gotos that this takes. -/
structure SelectStates (t : Table) where
  select : Nat
  number : Nat
  operand : Nat
  binary : Nat
  plus : Nat
  star : Nat
  sum : Nat
  product : Nat
  shift_select : t.actions 0 .selectKw = [.shift select]
  shift_number : ∀ state ∈ [select, plus, star], t.actions state .number = [.shift number]
  shift_plus : t.actions operand .plus = [.shift plus]
  shift_star : t.actions operand .star = [.shift star]
  reduce_number : ∀ kind ∈ [Kind.plus, .rBracket, .eof], t.actions number kind = [.reduce 266]
  reduce_binary : t.actions binary .rBracket = [.reduce 244]
  reduce_sum : t.actions sum .rBracket = [.reduce 290]
  reduce_product : t.actions product .eof = [.reduce 292]
  stuck : t.actions operand .rBracket = []
  goto_operand : t.goto? select 46 = some operand
  goto_binary : t.goto? select 48 = some binary
  goto_sum : t.goto? plus 46 = some sum
  goto_product : t.goto? star 46 = some product

theorem SelectPath.exists_states (path : SelectPath g) (hg : g.WellFormed) (hrules : SelectRules g)
    (houtlines : SelectOutlines g) : Nonempty (SelectStates (ofGrammar g)) := by
  have hselect := (path.covers_select hg houtlines).lt
  have hplus := (path.covers_plus hg houtlines).lt
  have hstar := (path.covers_star hg houtlines).lt
  obtain ⟨h244, -, h290, h292, -⟩ := hrules.2.2.2
  exact ⟨{
    select := path.select
    number := path.number
    operand := path.operand
    binary := path.binary
    plus := path.plus
    star := path.star
    sum := path.sum
    product := path.product
    shift_select := path.shift_select hg hrules houtlines
    shift_number := path.shift_number hg hrules houtlines
    shift_plus := path.shift_operator hg hrules houtlines h290 (by decide) rfl path.sum_follows
      path.next_plus
    shift_star := path.shift_operator hg hrules houtlines h292 (by decide) rfl path.product_follows
      path.next_star
    reduce_number := path.reduce_number hg hrules houtlines
    reduce_binary := path.reduce_binary hg hrules houtlines
    reduce_sum := path.reduce_sum hg hrules houtlines
    reduce_product := path.reduce_product hg hrules houtlines
    stuck := path.stuck hg hrules houtlines
    goto_operand := Table.goto?_eq_some hg hselect h290 (by simp) path.next_operand
    goto_binary := Table.goto?_eq_some hg hselect h244 (by simp) path.next_binary
    goto_sum := Table.goto?_eq_some hg hplus h290 (by simp) path.next_sum
    goto_product := Table.goto?_eq_some hg hstar h290 (by simp) path.next_product }⟩

/-- The table of queries has such states. -/
theorem exists_selectStates : ∃ g, BigQuery.grammar = .ok g ∧ BigQuery.table = Table.ofGrammar g ∧
    SelectRules g ∧ Nonempty (SelectStates BigQuery.table) := by
  obtain ⟨g, hgrammar, htable, -⟩ := table_spec
  have hg := Grammar.wellFormed_ofRules hgrammar
  have htest := selectTest
  rw [hgrammar] at htest
  obtain ⟨hrules, houtlines, hdescents⟩ := of_decide_eq_true htest
  obtain ⟨path⟩ := exists_selectPath hg hrules hdescents
  exact ⟨g, hgrammar, htable, hrules, htable ▸ path.exists_states hg hrules houtlines⟩

end BigQuery
end SqlTree
