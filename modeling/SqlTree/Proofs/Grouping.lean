import SqlTree.Proofs.Erasure
import SqlTree.Proofs.Operators

/-!
# How operators are grouped

Of two operators, the one of the higher level is applied first, and of two at the same level the one
on the left. A machine decides this step by step: what stands on top of its stack is complete in front
of an operator only if its own operator is of no lower level, and behind an operator only a higher
one is shifted before its operand is complete. On the right this holds whatever was repaired. On the
left it takes that the operator was read right behind the operand: what has been skipped or put in
between them comes after the operand was made in front of some other token.

- `Element.constituents`, `Element.level?` : the operands of a node and the level of its operator
- `Operators.Grouped` : a node whose operands are of levels that fit its own
- `Operators.Fits`    : an entry on which such a node can be built
- `Machine.Ordered`   : a machine on whose stack everything is grouped
- `Machine.Ordered.step` : a step keeps it so
- `Tree.all_grouped`  : so everything is grouped in the tree of a text
-/

namespace SqlTree

open Item (Begins)
open Table (ofGrammar topOf Path Moves)

/-! ## Operands -/

namespace Element

/-- Whether an element is a node of a kind. -/
def isNodeOf (kind : Kind) : Element → Bool
  | token .. => false
  | node _ kind' _ _ => kind' == kind

/-- Whether an element is a token that does not matter to the grammar. -/
def isTrivia : Element → Bool
  | token _ kind _ => kind.isTrivia
  | node .. => false

/-- Whether a repair left an element. -/
def isFault : Element → Bool
  | token .. => false
  | node _ kind _ _ => kind.isErrorOrMissing

/-- The elements that the grammar sees. -/
def seen (es : List Element) : List Element := es.filter fun x => x.reading?.isSome

/-- The children that are neither trivia nor errors: operands, and between them an operator. -/
def constituents (x : Element) : List Element := seen x.children

def leftOperand? (x : Element) : Option Element := x.constituents.head?

def rightOperand? (x : Element) : Option Element := x.constituents.getLast?

/-- The level of the operator of a node, which is that of the token with which it begins. A missing
token counts as if it were there. -/
def level? (level : Kind → Option Int) (x : Element) : Option Int :=
  (x.constituents[1]?.bind reading?).bind level

/-- Whether the first of the elements, trivia apart, is one that a repair left. -/
def faultFirst (es : List Element) : Bool := (es.find? fun c => !c.isTrivia).any isFault

/-- Whether something that a repair left comes right behind the first operand of a node: an error, or
a missing operator. -/
def interrupted (x : Element) : Bool :=
  faultFirst (x.children.dropWhile fun c => c.reading?.isNone).tail

variable {es fs : List Element} {x : Element}

@[simp]
theorem seen_append (es fs : List Element) : seen (es ++ fs) = seen es ++ seen fs :=
  List.filter_append es fs

theorem seen_singleton (h : x.reading?.isSome = true) : seen [x] = [x] := by
  simp [seen, h]

/-- What is not read is not seen. -/
theorem reading?_eq_none_of_readings (h : readings es = []) : ∀ x ∈ es, x.reading? = none :=
  List.filterMap_eq_nil_iff.1 h

theorem seen_eq_nil (h : readings es = []) : seen es = [] := by
  refine List.filter_eq_nil_iff.2 fun x hx => ?_
  simp [reading?_eq_none_of_readings h x hx]

theorem dropWhile_append_of_readings (h : readings es = []) :
    (es ++ fs).dropWhile (fun c => c.reading?.isNone) =
      fs.dropWhile fun c => c.reading?.isNone := by
  refine List.dropWhile_append_of_pos fun x hx => ?_
  simp [reading?_eq_none_of_readings h x hx]

/-- An element that is not read is trivia, or a repair left it. -/
theorem isTrivia_or_isFault (h : x.reading? = none) : x.isTrivia = true ∨ x.isFault = true := by
  cases x with
  | token id kind text => exact Or.inl (by simpa [reading?, isTrivia] using h)
  | node id kind origin children =>
    refine Or.inr ?_
    by_contra hfault
    have hkind : kind.isErrorOrMissing = false := by simpa [isFault] using hfault
    cases (reading?_node hkind id origin children).symm.trans h

theorem faultFirst_of_readings (h : readings es = []) (hfault : faultFirst (es ++ fs) = false) :
    faultFirst fs = false := by
  rw [faultFirst, List.find?_append] at hfault
  cases hfirst : es.find? fun c => !c.isTrivia with
  | none =>
    rw [hfirst] at hfault
    exact hfault
  | some y =>
    have hnone := reading?_eq_none_of_readings h y (List.mem_of_find?_eq_some hfirst)
    have htrivia : y.isTrivia = false := by simpa using List.find?_some hfirst
    have hy : y.isFault = false := by simpa [hfirst] using hfault
    have hcases := isTrivia_or_isFault hnone
    simp [htrivia, hy] at hcases

theorem hasError_of_mem (h : hasErrorAny es = false) (hx : x ∈ es) : x.hasError = false := by
  obtain ⟨before, after, rfl⟩ := List.append_of_mem hx
  rw [hasErrorAny_append, Bool.or_eq_false_iff, hasErrorAny, Bool.or_eq_false_iff] at h
  exact h.2.1

/-- Nothing is interrupted where no repair was made. -/
theorem interrupted_of_hasError (h : x.hasError = false) : x.interrupted = false := by
  cases x with
  | token => rfl
  | node id kind origin children =>
    rw [hasError, Bool.or_eq_false_iff] at h
    rw [interrupted, faultFirst, Option.any_eq_false]
    intro y hy
    have hmem : y ∈ children :=
      (List.dropWhile_sublist _).subset (List.mem_of_mem_tail (List.mem_of_find?_eq_some hy))
    have hfault := hasError_of_mem h.2 hmem
    cases y with
    | token => rfl
    | node => exact (Bool.or_eq_false_iff.1 hfault).1

theorem exists_of_isNodeOf {kind : Kind} (h : x.isNodeOf kind = true) :
    ∃ id origin children, x = node id kind origin children := by
  cases x with
  | token => cases h
  | node id kind' origin children =>
    obtain rfl : kind' = kind := by simpa [isNodeOf] using h
    exact ⟨id, origin, children, rfl⟩

end Element

open Element (readings seen)

namespace Entry

variable {children : List Entry} {first : Entry} {x : Element}

/-- Of entries that are joined the elements are seen one after the other. -/
theorem seen_ofChildren (state offset : Nat) (hchildren : ∀ child ∈ children, child.Silent) :
    seen (ofChildren state children offset).elements =
      children.flatMap fun child => seen child.elements := by
  have hleading := Element.seen_eq_nil (silent_ofChildren state offset hchildren).1
  have hcontent := congrArg seen (ofChildren_content state children offset)
  rw [content, Element.seen_append, hleading, List.nil_append] at hcontent
  rw [hcontent]
  clear hcontent hleading
  induction children with
  | nil => rfl
  | cons child children ih =>
    have hsilent := Element.seen_eq_nil (hchildren child List.mem_cons_self)
    rw [List.flatMap_cons, List.flatMap_cons, Element.seen_append, content, Element.seen_append,
      hsilent, ih fun c hc => hchildren c (List.mem_cons_of_mem _ hc), List.nil_append]

/-- Behind the first element of joined entries comes all that the others hold. -/
theorem dropWhile_ofChildren (state offset : Nat)
    (hchildren : ∀ child ∈ first :: children, child.Silent) (hfirst : first.elements = [x])
    (hx : x.reading?.isSome = true) :
    (ofChildren state (first :: children) offset).elements.dropWhile (fun c => c.reading?.isNone) =
      x :: children.flatMap content := by
  have hleading := (silent_ofChildren state offset hchildren).1
  rw [← Element.dropWhile_append_of_readings hleading]
  change (ofChildren state (first :: children) offset).content.dropWhile _ = _
  rw [ofChildren_content, List.flatMap_cons, content, hfirst, List.append_assoc,
    Element.dropWhile_append_of_readings (hchildren first List.mem_cons_self),
    List.singleton_append, List.dropWhile_cons_of_neg]
  simpa using Option.isSome_iff_ne_none.1 hx

end Entry

/-! ## Paths -/

/-- The symbols of a path are those by which its states are reached. -/
theorem Table.Path.accessing {g : Grammar} {path : List (Symbol × Nat)}
    (h : (ofGrammar g).Path path) :
    path.map (fun step => g.accessing step.2) = path.map fun step => some step.1 := by
  induction h with
  | nil => rfl
  | cons _ hmove ih =>
    rw [List.map_cons, List.map_cons, ih, Grammar.accessing_of_leads hmove.leads]

namespace Operators

variable {o : Operators} {g : Grammar} {p : Nat} {production : Production} {l : Int}
  {taken rest : List (Symbol × Nat)} {children : List Entry} {below : Stack}

/-- Behind an operand that is read in a state, an operator of a level is shifted. -/
def ShiftsBehind (o : Operators) (g : Grammar) (state : Nat) (l : Int) : Prop :=
  ∃ kind operand next, o.level kind = some l ∧
    (ofGrammar g).goto? state o.operand = some operand ∧
    .shift next ∈ (ofGrammar g).actions operand kind

/-- The operator of a node was shifted behind its first operand. -/
theorem Ends.shiftsBehind (hends : o.Ends g p production taken rest) (h : o.Suits g) :
    o.ShiftsBehind g (topOf rest) production.prec := by
  obtain ⟨kind, more, hrhs, hlevel, -⟩ := h.binary hends.found hends.lhs
  have hsymbols : taken.map Prod.fst =
      (more.map Symbol.terminal ++ [Symbol.nonterminal o.operand]).reverse ++
        [Symbol.terminal kind, .nonterminal o.operand] := by
    rw [← List.reverse_reverse (taken.map Prod.fst), hends.symbols, hrhs]
    simp
  obtain ⟨later, first, rfl, -, hfirst⟩ := List.map_eq_append_iff.1 hsymbols
  obtain ⟨⟨_, next⟩, others, rfl, rfl, hothers⟩ := List.map_eq_cons_iff.1 hfirst
  obtain ⟨⟨_, operand⟩, others, rfl, rfl, hnil⟩ := List.map_eq_cons_iff.1 hothers
  obtain rfl := List.map_eq_nil_iff.1 hnil
  have hpath := hends.path
  rw [List.append_assoc] at hpath
  cases hpath.of_append with
  | cons hpath hshift =>
    cases hpath with
    | cons _ hgoto =>
      cases hshift with
      | shift hshift =>
        cases hgoto with
        | goto hgoto => exact ⟨kind, operand, next, hlevel, hgoto, hshift⟩

/-- An operator that was shifted behind the first operand of an operand on the right is of a higher
level. -/
theorem Ends.lt_of_shiftsBehind (hends : o.Ends g p production taken rest) (h : o.Suits g)
    (hg : g.WellFormed) (hshifts : o.ShiftsBehind g (topOf (taken ++ rest).tail) l) :
    production.prec < l := by
  obtain ⟨kind, operand, next, hlevel, hgoto, hshift⟩ := hshifts
  obtain ⟨closer, base, top, path, -, hpath, -, -, -⟩ := hends.exists_last h hg
  have hmoves := hpath ▸ hends.path
  rw [hpath] at hgoto
  obtain rfl : top = operand := by
    cases hmoves with
    | cons _ hmove =>
      cases hmove with
      | goto htop => exact Option.some.inj (htop.symm.trans hgoto)
  have haction : .shift next ∈ (ofGrammar g).actions (topOf (taken ++ rest)) kind := by
    rw [hpath]
    exact hshift
  exact hends.lt_of_shift h hg haction hlevel

/-- The entries of an operator and its operands on a path. -/
theorem Ends.of_tracks {path : List (Symbol × Nat)}
    (htracks : Stack.Tracks (ofGrammar g) (children.reverse ++ below) path) (hbelow : below ≠ [])
    (hp : g.productions[p]? = some production) (hlhs : production.lhs = o.node)
    (hopening : Begins g (g.core (Stack.topState below)) (Item.opening p))
    (haccess : (children.filter fun e => !e.extra).map (fun e => g.accessing e.state) =
      production.rhs.map some) :
    ∃ taken rest, path = taken ++ rest ∧ Stack.topState below = topOf rest ∧
      o.Ends g p production taken rest := by
  obtain ⟨taken, rest, rfl, hrest, hstates⟩ := htracks.split hbelow
  refine ⟨taken, rest, rfl, hrest.topState_eq, htracks.isPath, hp, hlhs, ?_,
    hrest.topState_eq ▸ hopening⟩
  have hpath := htracks.isPath.accessing
  rw [List.map_append, List.map_append] at hpath
  have htaken := (List.append_inj hpath (by simp)).1
  refine List.map_injective_iff.2 (Option.some_injective _) ?_
  rw [← haccess, List.map_reverse, List.map_map, Function.comp_def, ← htaken]
  have hmapped := congrArg (List.map g.accessing) hstates
  rw [List.map_map, List.map_map, List.filter_reverse, List.map_reverse] at hmapped
  rw [← List.reverse_reverse (List.map _ (children.filter _))]
  exact congrArg List.reverse hmapped

/-! ## Nodes -/

/-- The operands of a node are of levels that fit its own: on the left, if nothing comes in between, at
least as high, and on the right higher. -/
def Grouped (o : Operators) (x : Element) : Prop :=
  x.isNodeOf o.kind = true → ∃ left right l,
    x.leftOperand? = some left ∧ x.rightOperand? = some right ∧ x.level? o.level = some l ∧
    (left.isNodeOf o.kind = true → x.interrupted = false →
      ∃ l', left.level? o.level = some l' ∧ l ≤ l') ∧
    (right.isNodeOf o.kind = true → ∃ l', right.level? o.level = some l' ∧ l < l')

/-- An entry holds one node, for the operator or for an operand. -/
structure Holds (o : Operators) (g : Grammar) (e : Entry) (x : Element) : Prop where
  extra : e.extra = false
  elements : e.elements = [x]
  isNode : x.isNodeOf o.kind = true
  single : ∃ symbol, g.accessing e.state = some symbol ∧ o.single g symbol = true

/-- What is known about an entry above others. -/
structure Fits (o : Operators) (g : Grammar) (below : Stack) (e : Entry) : Prop where
  token : ∀ {kind : Kind}, g.accessing e.state = some (.terminal kind) →
    ∃ x, e.elements = [x] ∧ x.reading? = some kind ∧ (x.isToken = true ∨ x.isFault = true)
  unit : ∀ {i : Nat}, g.accessing e.state = some (.nonterminal i) →
    o.single g (.nonterminal i) = true → ∃ x, e.elements = [x] ∧ x.reading?.isSome = true
  grown : ∀ {x : Element}, o.Holds g e x →
    ∃ l, x.level? o.level = some l ∧ o.ShiftsBehind g (Stack.topState below) l
  placed : ∀ {kind : Kind} {l : Int} {token x : Element} {first : Entry} {rest : Stack},
    g.accessing e.state = some (.terminal kind) → o.level kind = some l → e.elements = [token] →
    token.isToken = true → below = first :: rest → o.Holds g first x →
      ∃ l', x.level? o.level = some l' ∧ l ≤ l'

theorem Fits.single {e : Entry} {symbol : Symbol} (h : o.Fits g below e)
    (haccess : g.accessing e.state = some symbol) (hsingle : o.single g symbol = true) :
    ∃ x, e.elements = [x] ∧ x.reading?.isSome = true := by
  cases symbol with
  | terminal kind =>
    obtain ⟨x, hx, hreading, -⟩ := h.token haccess
    exact ⟨x, hx, by simp [hreading]⟩
  | nonterminal i => exact h.unit haccess hsingle

theorem Suits.single_operand (h : o.Suits g) : o.single g (.nonterminal o.operand) = true := by
  simp [Operators.single, h.isUnit]

end Operators

/-! ## Stacks -/

namespace Stack

variable {o : Operators} {g : Grammar} {stack popped below : Stack} {e : Entry}

/-- All entries of a stack fit on those below them. -/
def Ordered (o : Operators) (g : Grammar) : Stack → Prop
  | [] => True
  | e :: below => (e.extra = false → o.Fits g below e) ∧ Ordered o g below

theorem Ordered.of_append (h : Ordered o g (popped ++ below)) : Ordered o g below := by
  induction popped with
  | nil => exact h
  | cons e popped ih => exact ih h.2

theorem Ordered.exists_fits (h : Ordered o g stack) (he : e ∈ stack) (hextra : e.extra = false) :
    ∃ below, o.Fits g below e := by
  obtain ⟨popped, below, rfl⟩ := List.append_of_mem he
  exact ⟨below, h.of_append.1 hextra⟩

theorem Ordered.extras (h : Ordered o g stack) {extras : Stack} {next : Nat}
    (hextras : ∀ e ∈ extras, e.extra = true) :
    Ordered o g ((extras.map fun e => { e with state := next }) ++ stack) := by
  induction extras with
  | nil => exact h
  | cons e extras ih =>
    refine ⟨fun hextra => ?_, ih fun x hx => hextras x (List.mem_cons_of_mem _ hx)⟩
    have htrue := hextras e List.mem_cons_self
    simp only at hextra
    rw [hextra] at htrue
    cases htrue

end Stack

namespace Operators

variable {o : Operators} {g : Grammar} {p : Nat} {production : Production} {l : Int}
  {children middle : List Entry} {left right : Entry} {below : Stack}

/-- The entries of an operator with its operands: an operand, the tokens of the operator, and an
operand, with what was skipped between them. -/
theorem Suits.exists_operands (h : o.Suits g) (hp : g.productions[p]? = some production)
    (hlhs : production.lhs = o.node)
    (hends : ∀ e, e ∈ children.head? ∨ e ∈ children.getLast? → e.extra = false)
    (haccess : (children.filter fun e => !e.extra).map (fun e => g.accessing e.state) =
      production.rhs.map some) :
    ∃ (left right : Entry) (middle : List Entry) (kind : Kind) (more : List Kind),
      children = left :: (middle ++ [right]) ∧ left.extra = false ∧ right.extra = false ∧
      g.accessing left.state = some (.nonterminal o.operand) ∧
      g.accessing right.state = some (.nonterminal o.operand) ∧
      (middle.filter fun e => !e.extra).map (fun e => g.accessing e.state) =
        (kind :: more).map (fun kind => some (.terminal kind)) ∧
      o.level kind = some production.prec := by
  obtain ⟨kind, more, hrhs, hlevel, -⟩ := h.binary hp hlhs
  rw [hrhs] at haccess
  cases children with
  | nil => cases haccess
  | cons left others =>
    have hleft := hends left (.inl rfl)
    rcases List.eq_nil_or_concat' others with rfl | ⟨middle, right, rfl⟩
    · simp [hleft] at haccess
    · have hright := hends right (.inr (List.getLast?_concat (l := left :: middle)))
      simp only [List.filter_cons, List.filter_append, List.filter_nil, hleft, hright, Bool.not_false,
        if_true, List.map_cons, List.map_append, List.map_nil, List.map_map, List.cons.injEq] at haccess
      obtain ⟨hfirst, hothers⟩ := haccess
      rw [← List.cons_append] at hothers
      obtain ⟨hmiddle, hlast⟩ := List.append_inj' hothers rfl
      exact ⟨left, right, middle, kind, more, rfl, hleft, hright, hfirst, by simpa using hlast,
        hmiddle, hlevel⟩

/-- The tokens of an operator are seen one after the other. -/
theorem map_reading?_seen {kinds : List Kind}
    (hfits : ∀ e ∈ middle, e.extra = false → ∃ below, o.Fits g below e)
    (hformed : ∀ e ∈ middle, e.Formed)
    (haccess : (middle.filter fun e => !e.extra).map (fun e => g.accessing e.state) =
      kinds.map fun kind => some (.terminal kind)) :
    (middle.flatMap fun e => seen e.elements).map Element.reading? = kinds.map some := by
  induction middle generalizing kinds with
  | nil =>
    obtain rfl : kinds = [] := by simpa using haccess.symm
    rfl
  | cons e middle ih =>
    have hfits' := fun x hx => hfits x (List.mem_cons_of_mem _ hx)
    have hformed' := fun x hx => hformed x (List.mem_cons_of_mem _ hx)
    rw [List.flatMap_cons, List.map_append]
    cases hextra : e.extra with
    | true =>
      rw [Element.seen_eq_nil ((hformed e List.mem_cons_self).readings_of_extra hextra)]
      exact ih hfits' hformed' (by simpa [hextra] using haccess)
    | false =>
      obtain ⟨below, hfit⟩ := hfits e List.mem_cons_self hextra
      cases kinds with
      | nil => simp [hextra] at haccess
      | cons kind kinds =>
        simp only [List.filter_cons, hextra, Bool.not_false, if_true, List.map_cons,
          List.cons.injEq] at haccess
        obtain ⟨x, hx, hreading, -⟩ := hfit.token haccess.1
        rw [hx, Element.seen_singleton (by simp [hreading]), ih hfits' hformed' haccess.2]
        simp [hreading]

/-- Where nothing interrupts a node, the token of its operator lies right above the first operand on
the stack. -/
theorem exists_token_of_faultFirst {kind : Kind} {more : List Kind}
    (hfits : ∀ e ∈ middle, e.extra = false → ∃ below, o.Fits g below e)
    (hformed : ∀ e ∈ middle, e.Formed) (hsilent : ∀ e ∈ middle, e.Silent)
    (haccess : (middle.filter fun e => !e.extra).map (fun e => g.accessing e.state) =
      (kind :: more).map fun kind => some (.terminal kind)) {others : List Element}
    (hfault : Element.faultFirst (middle.flatMap Entry.content ++ others) = false) :
    ∃ operator middle' token, middle = operator :: middle' ∧ operator.extra = false ∧
      g.accessing operator.state = some (.terminal kind) ∧ operator.elements = [token] ∧
      token.isToken = true := by
  cases middle with
  | nil => cases haccess
  | cons operator middle' =>
    rw [List.flatMap_cons, Entry.content, List.append_assoc, List.append_assoc] at hfault
    have hfault := Element.faultFirst_of_readings (hsilent operator List.mem_cons_self) hfault
    cases hextra : operator.extra with
    | true =>
      -- What was skipped is in the way.
      obtain ⟨id, skipped, helements⟩ := (hformed operator List.mem_cons_self).error hextra
      rw [helements, List.singleton_append, Element.faultFirst, List.find?_cons_of_pos rfl] at hfault
      cases hfault
    | false =>
      obtain ⟨below, hfit⟩ := hfits operator List.mem_cons_self hextra
      simp only [List.filter_cons, hextra, Bool.not_false, if_true, List.map_cons,
        List.cons.injEq] at haccess
      obtain ⟨token, helements, hreading, htoken⟩ := hfit.token haccess.1
      refine ⟨operator, middle', token, rfl, hextra, haccess.1, helements, ?_⟩
      rcases htoken with htoken | hmissing
      · exact htoken
      · rw [helements, List.singleton_append] at hfault
        cases token with
        | token => rfl
        | node =>
          rw [Element.faultFirst, List.find?_cons_of_pos rfl] at hfault
          cases hmissing.symm.trans hfault

/-- A node over an operator and its operands is grouped, and has the strength of its production as
its level. -/
theorem Suits.grouped_node {taken rest : List (Symbol × Nat)} (h : o.Suits g) (hg : g.WellFormed)
    (hends : o.Ends g p production taken rest)
    (htracks : Stack.Tracks (ofGrammar g) (children.reverse ++ below) (taken ++ rest))
    (hordered : Stack.Ordered o g (children.reverse ++ below))
    (hformed : ∀ e ∈ children, e.Formed) (hsilent : ∀ e ∈ children, e.Silent)
    (hsymbols : ∀ e, e ∈ children.head? ∨ e ∈ children.getLast? → e.extra = false)
    (haccess : (children.filter fun e => !e.extra).map (fun e => g.accessing e.state) =
      production.rhs.map some) (id : Nat) (origin : Option Origin) (state offset : Nat) :
    let x := Element.node id o.kind origin (Entry.ofChildren state children offset).elements
    x.level? o.level = some production.prec ∧ o.Grouped x := by
  intro x
  obtain ⟨left, right, middle, kind, more, rfl, hleft, hright, hfirst, hlast, hmiddle, hlevel⟩ :=
    h.exists_operands hends.found hends.lhs hsymbols haccess
  have hstack : (left :: (middle ++ [right])).reverse ++ below =
      right :: (middle.reverse ++ left :: below) := by simp
  rw [hstack] at hordered htracks
  have hin : ∀ e ∈ middle, e ∈ left :: (middle ++ [right]) := fun e he => by simp [he]
  have hfits : ∀ e ∈ middle, e.extra = false → ∃ below, o.Fits g below e :=
    fun e he hextra => hordered.exists_fits (by simp [he]) hextra
  have hleftFits : o.Fits g below left := hordered.2.of_append.1 hleft
  obtain ⟨a, ha, hseen⟩ := hleftFits.single hfirst h.single_operand
  obtain ⟨b, hb, hseen'⟩ := (hordered.1 hright).single hlast h.single_operand
  have hreadings := map_reading?_seen hfits (fun e he => hformed e (hin e he)) hmiddle
  obtain ⟨y, ys, hys, hy, -⟩ := List.map_eq_cons_iff.1 hreadings
  have hconstituents : x.constituents = a :: y :: (ys ++ [b]) := by
    have hjoined := Entry.seen_ofChildren state offset hsilent
    rw [List.flatMap_cons, List.flatMap_append, hys, ha, Element.seen_singleton hseen,
      List.flatMap_singleton, hb, Element.seen_singleton hseen'] at hjoined
    exact hjoined
  have hxlevel : x.level? o.level = some production.prec := by
    simp [Element.level?, hconstituents, hy, hlevel]
  refine ⟨hxlevel, fun _ => ⟨a, b, production.prec, by simp [Element.leftOperand?, hconstituents],
    ?_, hxlevel, fun hnode hplace => ?_, fun hnode => ?_⟩⟩
  · rw [Element.rightOperand?, hconstituents, ← List.cons_append, ← List.cons_append,
      List.getLast?_concat]
  · -- The token of the operator was shifted right behind the first operand.
    have hdrop := Entry.dropWhile_ofChildren state offset hsilent ha hseen
    have hfault : Element.faultFirst ((middle ++ [right]).flatMap Entry.content) = false := by
      unfold Element.interrupted at hplace
      rwa [show x.children = (Entry.ofChildren state (left :: (middle ++ [right])) offset).elements
        from rfl, hdrop] at hplace
    rw [List.flatMap_append] at hfault
    obtain ⟨operator, middle', token, rfl, hextra, hoperator, helements, htoken⟩ :=
      exists_token_of_faultFirst hfits (fun e he => hformed e (hin e he))
        (fun e he => hsilent e (hin e he)) hmiddle hfault
    have hfit : o.Fits g (left :: below) operator := by
      have hbelow := hordered.2
      rw [List.reverse_cons, List.append_assoc] at hbelow
      exact hbelow.of_append.1 hextra
    exact hfit.placed hoperator hlevel helements htoken rfl
      ⟨hleft, ha, hnode, _, hfirst, h.single_operand⟩
  · obtain ⟨l, hl, hshifts⟩ := (hordered.1 hright).grown ⟨hright, hb, hnode, _, hlast, h.single_operand⟩
    refine ⟨l, hl, hends.lt_of_shiftsBehind h hg ?_⟩
    generalize taken ++ rest = path at htracks ⊢
    generalize middle.reverse ++ left :: below = lower at htracks hshifts
    cases htracks with
    | bottom => cases g.accessing_zero.symm.trans hlast
    | extra hextra =>
      rw [hright] at hextra
      cases hextra
    | symbol _ _ hbelow => exact hbelow.topState_eq ▸ hshifts

/-- A nonterminal that stands for one other symbol has one entry below it. -/
theorem Suits.exists_unit (h : o.Suits g) (hp : g.productions[p]? = some production)
    (hunit : production.lhs ∈ o.units)
    (hends : ∀ e, e ∈ children.head? ∨ e ∈ children.getLast? → e.extra = false)
    (haccess : (children.filter fun e => !e.extra).map (fun e => g.accessing e.state) =
      production.rhs.map some) :
    ∃ child symbol, children = [child] ∧ child.extra = false ∧
      g.accessing child.state = some symbol ∧ o.single g symbol = true := by
  obtain ⟨symbol, hrhs, hsingle⟩ := h.unit hp hunit
  rw [hrhs] at haccess
  cases children with
  | nil => cases haccess
  | cons child others =>
    have hchild := hends child (.inl rfl)
    rcases List.eq_nil_or_concat' others with rfl | ⟨middle, last, rfl⟩
    · exact ⟨child, symbol, rfl, hchild, by simpa [hchild] using haccess, hsingle⟩
    · have hlast := hends last (.inr (List.getLast?_concat (l := child :: middle)))
      simp [hchild, hlast] at haccess

/-- The entry of a token. -/
theorem fits_token {e : Entry} {kind : Kind} {x : Element}
    (haccess : g.accessing e.state = some (.terminal kind)) (hx : e.elements = [x])
    (hreading : x.reading? = some kind) (htoken : x.isToken = true ∨ x.isFault = true)
    (hnode : x.isNodeOf o.kind = false)
    (hplaced : x.isToken = true → ∀ {l : Int} {y : Element} {first : Entry} {rest : Stack},
      o.level kind = some l → below = first :: rest → o.Holds g first y →
        ∃ l', y.level? o.level = some l' ∧ l ≤ l') : o.Fits g below e where
  token haccess' := by
    cases haccess.symm.trans haccess'
    exact ⟨x, hx, hreading, htoken⟩
  unit haccess' := by cases haccess.symm.trans haccess'
  grown hholds := by
    obtain rfl : x = _ := by simpa [hx] using hholds.elements
    rw [hholds.isNode] at hnode
    cases hnode
  placed haccess' hlevel helements htoken hbelow hholds := by
    cases haccess.symm.trans haccess'
    obtain rfl : x = _ := by simpa [hx] using helements
    exact hplaced htoken hlevel hbelow hholds

theorem fits_bottom (o : Operators) (g : Grammar) : o.Fits g [] Entry.bottom where
  token haccess := by cases g.accessing_zero.symm.trans haccess
  unit haccess := by cases g.accessing_zero.symm.trans haccess
  grown hholds := by cases hholds.elements
  placed haccess := by cases g.accessing_zero.symm.trans haccess

theorem grouped_of_isNodeOf {x : Element} (h : x.isNodeOf o.kind = false) : o.Grouped x := by
  intro hnode
  rw [h] at hnode
  cases hnode

theorem all_grouped_of_isToken {x : Element} (h : x.isToken = true) : x.All o.Grouped := by
  cases x with
  | token => exact grouped_of_isNodeOf rfl
  | node => cases h

/-- What repairs leave is no node of the rule. -/
theorem Suits.kind_ne (h : o.Suits g) (hnames : g.NamesNodes) : o.kind ≠ .error ∧ o.kind ≠ .missing := by
  have hkind := hnames _ _ h.visible
  constructor
  · intro heq
    rw [heq] at hkind
    cases hkind
  · intro heq
    rw [heq] at hkind
    cases hkind

end Operators

/-! ## The machine -/

namespace Machine

variable {o : Operators} {g : Grammar} {rank : Nat → Nat} {text : List Char} {m m' next : Machine}
  {setting : Setting} {kind : Kind} {p : Nat} {production : Production}

/-- All that stands on the stack of a machine is grouped, and if a node is complete on top of it, an
operator that comes next is not of a higher level. -/
structure Ordered (o : Operators) (g : Grammar) (m : Machine) : Prop where
  stack : Stack.Ordered o g m.stack
  top : ∀ {e : Entry} {below : Stack} {x : Element} {l : Int}, m.stack = e :: below →
    o.Holds g e x → m.injected = none → o.level (m.source.ahead 0).kind = some l →
      ∃ l', x.level? o.level = some l' ∧ l ≤ l'
  grouped : ∀ e ∈ m.stack, ∀ x ∈ e.content, x.All o.Grouped

theorem Ordered.start (o : Operators) (g : Grammar) (text : List Char) (firstId : Nat) :
    (Machine.start text firstId).Ordered o g where
  stack := ⟨fun _ => o.fits_bottom g, trivial⟩
  top hstack hholds := by
    obtain ⟨rfl, -⟩ := List.cons.inj hstack
    cases hholds.elements
  grouped e he x hx := by
    obtain rfl := List.mem_singleton.1 he
    cases hx

theorem Ordered.congr (h : m.Ordered o g) (hstack : m'.stack = m.stack)
    (hinjected : m'.injected = m.injected)
    (hkind : (m'.source.ahead 0).kind = (m.source.ahead 0).kind) : m'.Ordered o g where
  stack := hstack ▸ h.stack
  top hstack' hholds hnone hlevel :=
    h.top (hstack ▸ hstack') hholds (hinjected ▸ hnone) (hkind ▸ hlevel)
  grouped := hstack ▸ h.grouped

/-! ## Shifting -/

theorem Ordered.push {entry : Entry} (h : m.Ordered o g) (hstack : m'.stack = entry :: m.stack)
    (hfits : o.Fits g m.stack entry) (hnode : ∀ x ∈ entry.elements, x.isNodeOf o.kind = false)
    (hgrouped : ∀ x ∈ entry.content, x.All o.Grouped) : m'.Ordered o g where
  stack := hstack ▸ ⟨fun _ => hfits, h.stack⟩
  top hstack' hholds := by
    obtain ⟨rfl, -⟩ := List.cons.inj (hstack.symm.trans hstack')
    have hnot := hnode _ (by rw [hholds.elements]; exact List.mem_cons_self)
    rw [hholds.isNode] at hnot
    cases hnot
  grouped := hstack ▸ List.forall_mem_cons.2 ⟨hgrouped, h.grouped⟩

theorem Ordered.shift {state : Nat} (h : m.Ordered o g) (hsuits : o.Suits g)
    (hfaithful : m.Faithful text) (htable : setting.table = ofGrammar g) (hnames : g.NamesNodes)
    (hmem : (kind, .shift state) ∈ candidates setting.table m.topState m.lookahead) :
    (m.shift kind state).Ordered o g := by
  obtain ⟨haction, hreading⟩ := mem_candidates hmem
  have haccess := Grammar.accessing_of_leads (Table.leads_of_shift (htable ▸ haction))
  unfold Machine.shift
  split
  · rw [shiftMissing_eq]
    have hnode : (Element.node (m.nextId + 1) .missing none [.token m.nextId kind []]).isNodeOf
        o.kind = false := by
      simpa [Element.isNodeOf] using (hsuits.kind_ne hnames).2.symm
    have hfits : o.Fits g m.stack (m.missingEntry kind state) := by
      refine Operators.fits_token haccess rfl ?_ (.inr rfl) hnode fun htoken => by cases htoken
      simp [Element.reading?, Element.kind]
    refine h.push rfl hfits ?_ ?_
    · simpa [missingEntry] using hnode
    · intro x hx
      obtain rfl := List.mem_singleton.1 hx
      refine Element.all_node.2 ⟨Operators.grouped_of_isNodeOf hnode, fun x hx => ?_⟩
      obtain rfl := List.mem_singleton.1 hx
      exact Operators.all_grouped_of_isToken rfl
  · rename_i hinjected
    have hinjected : m.injected = none := by simpa using hinjected
    have htrivia := isTrivia_of_mem_candidates hfaithful hinjected hmem
    rw [shiftToken_eq]
    have hfits : o.Fits g m.stack (m.tokenEntry kind state) := by
      refine Operators.fits_token haccess rfl (by simp [Element.reading?, htrivia]) (.inl rfl) rfl ?_
      intro _ l y first rest hlevel hstack hholds
      -- The token is the one in front of which what lies below it was complete.
      refine h.top hstack hholds hinjected ?_
      obtain rfl : kind = m.lookahead := by
        rcases hreading with heq | ⟨hident, -⟩
        · exact heq
        · exact absurd hident (hsuits.reserved hlevel).2
      rwa [lookahead, hinjected] at hlevel
    refine h.push rfl hfits ?_ ?_
    · simp [tokenEntry, Element.isNodeOf]
    · exact fun x hx => Operators.all_grouped_of_isToken (m.isToken_of_mem_tokenEntry kind state x hx)

/-! ## Reducing -/

/-- A reduction to an operator with its operands makes a node that is grouped. What was read before it
allows its operator behind an operand, and an operator that comes next is not of a higher level. -/
theorem Ordered.created {extras below : Stack} {children : List Entry} (h : m.Ordered o g)
    (hsuits : o.Suits g) (hg : g.WellFormed) (hregular : m.Regular g text)
    (htracked : m.Tracked (ofGrammar g))
    (haction : .reduce p ∈ (ofGrammar g).actions m.topState kind)
    (hp : g.productions[p]? = some production) (hlhs : production.lhs = o.node)
    (hstack : m.stack = extras ++ (children.reverse ++ below))
    (hextras : ∀ e ∈ extras, e.extra = true) (hbelow : below ≠ [])
    (hopening : Begins g (g.core (Stack.topState below)) (Item.opening p))
    (hends : ∀ e, e ∈ children.head? ∨ e ∈ children.getLast? → e.extra = false)
    (haccess : (children.filter fun e => !e.extra).map (fun e => g.accessing e.state) =
      production.rhs.map some) (id : Nat) (origin : Option Origin) (state : Nat) :
    let x := Element.node id o.kind origin (m.joinedEntry state children).elements
    x.level? o.level = some production.prec ∧ o.Grouped x ∧
      o.ShiftsBehind g (Stack.topState below) production.prec ∧
      ∀ l, o.level kind = some l → l ≤ production.prec := by
  intro x
  have hin : ∀ e ∈ children, e ∈ m.stack := fun e he => by simp [hstack, he]
  obtain ⟨path, htracks⟩ := htracked
  have htop : m.topState = topOf path := htracks.topState_eq
  have hordered := h.stack
  rw [hstack] at htracks hordered
  -- Extra entries on top do not count.
  obtain ⟨none, path, rfl, hrest, hnone⟩ := htracks.split (by simp [hbelow])
  obtain rfl : none = [] := by
    rw [List.filter_eq_nil_iff.2 (by simpa using hextras)] at hnone
    exact List.map_eq_nil_iff.1 hnone
  rw [List.nil_append] at htop
  obtain ⟨taken, rest, rfl, hbase, hpath⟩ :=
    Operators.Ends.of_tracks hrest hbelow hp hlhs hopening haccess
  obtain ⟨hlevel, hgrouped⟩ := hsuits.grouped_node hg hpath hrest hordered.of_append
    (fun e he => hregular.faithful.formed e (hin e he))
    (fun e he => hregular.grammatical.silent e (hin e he)) hends haccess id origin state m.position
  refine ⟨hlevel, hgrouped, hbase ▸ hpath.shiftsBehind hsuits, fun l hl => ?_⟩
  exact hpath.le_of_reduce hsuits hg (htop ▸ haction) hl

theorem joinedEntry_singleton (m : Machine) (state : Nat) (child : Entry) :
    (m.joinedEntry state [child]).elements = child.elements := by
  simp [joinedEntry, Entry.ofChildren, Entry.join]

section Makes

variable {base state : Nat} {children : List Entry} {entry : Entry} {x : Element}

/-- A node that a reduction leaves on top is a new one, or it was there before and the nonterminal stands
for it. -/
theorem Makes.holds (hmakes : m.Makes g base production.lhs (m.joinedEntry state children) entry)
    (hsuits : o.Suits g) (hp : g.productions[p]? = some production)
    (hends : ∀ e, e ∈ children.head? ∨ e ∈ children.getLast? → e.extra = false)
    (haccess : (children.filter fun e => !e.extra).map (fun e => g.accessing e.state) =
      production.rhs.map some)
    (hentry : g.accessing entry.state = some (.nonterminal production.lhs)) (hx : o.Holds g entry x) :
    (∃ id origin, production.lhs = o.node ∧
      x = .node id o.kind origin (m.joinedEntry state children).elements) ∨
    ∃ child, children = [child] ∧ o.Holds g child x := by
  obtain ⟨-, helements, hnode, symbol, hsymbol, hsingle⟩ := hx
  obtain rfl := Option.some.inj (hentry.symm.trans hsymbol)
  cases hmakes with
  | visible hkind =>
    obtain rfl := List.singleton_inj.1 helements
    obtain ⟨id, origin, elements, heq⟩ := Element.exists_of_isNodeOf hnode
    cases heq
    exact Or.inl ⟨_, _, hsuits.unique _ hkind, rfl⟩
  | hidden hkind =>
    have hunit : production.lhs ∈ o.units := by simpa [Operators.single, hkind] using hsingle
    obtain ⟨child, symbol, rfl, hchild, hsymbol, hsingle⟩ := hsuits.exists_unit hp hunit hends haccess
    rw [joinedEntry_singleton] at helements
    exact Or.inr ⟨child, rfl, hchild, helements, hnode, symbol, hsymbol, hsingle⟩

/-- What stands for one symbol holds one element. -/
theorem Makes.exists_element {below : Stack}
    (hmakes : m.Makes g base production.lhs (m.joinedEntry state children) entry) (hsuits : o.Suits g)
    (hnames : g.NamesNodes) (hp : g.productions[p]? = some production)
    (hends : ∀ e, e ∈ children.head? ∨ e ∈ children.getLast? → e.extra = false)
    (haccess : (children.filter fun e => !e.extra).map (fun e => g.accessing e.state) =
      production.rhs.map some)
    (hordered : Stack.Ordered o g (children.reverse ++ below))
    (hsingle : o.single g (.nonterminal production.lhs) = true) :
    ∃ x, entry.elements = [x] ∧ x.reading?.isSome = true := by
  cases hmakes with
  | visible hkind => exact ⟨_, rfl, by simp [Element.reading?_node (hnames _ _ hkind)]⟩
  | hidden hkind =>
    have hunit : production.lhs ∈ o.units := by simpa [Operators.single, hkind] using hsingle
    obtain ⟨child, symbol, rfl, hchild, hsymbol, hsingle⟩ := hsuits.exists_unit hp hunit hends haccess
    rw [joinedEntry_singleton]
    exact (hordered.1 hchild).single hsymbol hsingle

/-- What a reduction leaves is grouped if a new node is. -/
theorem Makes.all_grouped (hmakes : m.Makes g base production.lhs (m.joinedEntry state children) entry)
    (hchildren : ∀ child ∈ children, ∀ x ∈ child.content, x.All o.Grouped)
    (hnew : ∀ id kind origin, g.visibleKind? production.lhs = some kind →
      o.Grouped (.node id kind origin (m.joinedEntry state children).elements)) :
    ∀ x ∈ entry.content, x.All o.Grouped := by
  have hjoined : ∀ x ∈ (m.joinedEntry state children).content, x.All o.Grouped := by
    intro x hx
    obtain ⟨child, hchild, hx⟩ := Entry.mem_ofChildren hx
    exact hchildren child hchild x hx
  cases hmakes with
  | hidden => exact hjoined
  | visible hkind =>
    intro x hx
    rcases List.mem_append.1 hx with hx | hx
    · exact hjoined x (List.mem_append_left _ hx)
    · obtain rfl := List.mem_singleton.1 hx
      exact Element.all_node.2 ⟨hnew _ _ _ hkind, fun x hx => hjoined x (List.mem_append_right _ hx)⟩

end Makes

theorem Ordered.reduce (h : m.Ordered o g) (hsuits : o.Suits g) (hg : g.WellFormed)
    (hregular : m.Regular g text) (htracked : m.Tracked setting.table)
    (htable : setting.table = ofGrammar g) (hnames : g.NamesNodes)
    (hmem : (kind, .reduce p) ∈ candidates setting.table m.topState m.lookahead)
    (hreduced : m.reduce? setting p = some next) : next.Ordered o g := by
  have hreduces := hregular.grammatical.reduces hregular.faithful htable hmem hreduced
  obtain ⟨haction, hreading⟩ := mem_candidates hmem
  rw [htable] at haction htracked
  cases hreduces with
  | @mk production extras below children entry state nextId hp _ hstack hextras _ _ hbelow hopening
      hends _ haccess hleads hmakes _ =>
    have hcreated (hlhs : production.lhs = o.node) := h.created hsuits hg hregular htracked haction hp
      hlhs hstack hextras hbelow hopening hends haccess
    have hordered : Stack.Ordered o g (children.reverse ++ below) := (hstack ▸ h.stack).of_append
    have hstate : entry.state = state := hmakes.frame.2.trans (Entry.ofChildren_state _ _ _)
    have hentry : g.accessing entry.state = some (.nonterminal production.lhs) :=
      hstate ▸ Grammar.accessing_of_leads hleads
    have hholds {x : Element} (hx : o.Holds g entry x) :=
      hmakes.holds hsuits hp hends haccess hentry hx
    have hfits : o.Fits g below entry := {
      token := fun haccess => by cases hentry.symm.trans haccess
      unit := fun {i} haccess' hsingle => by
        cases hentry.symm.trans haccess'
        exact hmakes.exists_element hsuits hnames hp hends haccess hordered hsingle
      grown := fun hx => by
        rcases hholds hx with ⟨id, origin, hlhs, rfl⟩ | ⟨child, rfl, hchild⟩
        · obtain ⟨hlevel, -, hshifts, -⟩ := hcreated hlhs id origin state
          exact ⟨_, hlevel, hshifts⟩
        · exact (hordered.1 hchild.extra).grown hchild
      placed := fun haccess => by cases hentry.symm.trans haccess }
    have hnew : Stack.Ordered o g (entry :: below) := ⟨fun _ => hfits, hordered.of_append⟩
    refine ⟨hnew.extras hextras, fun {e below' x l} hstack' hx hinjected hlevel => ?_, fun e he => ?_⟩
    · cases extras with
      | cons extra extras =>
        obtain ⟨rfl, -⟩ := List.cons.inj hstack'
        cases (hextras extra List.mem_cons_self).symm.trans hx.extra
      | nil =>
        obtain ⟨rfl, rfl⟩ := List.cons.inj hstack'
        simp only [Source.ahead_peek] at hinjected hlevel
        rcases hholds hx with ⟨id, origin, hlhs, rfl⟩ | ⟨child, rfl, hchild⟩
        · -- The token is the one in front of which the new node is complete.
          obtain ⟨hxlevel, -, -, hle⟩ := hcreated hlhs id origin state
          refine ⟨_, hxlevel, hle l ?_⟩
          rw [lookahead, hinjected, Option.getD_none] at hreading
          rcases hreading with rfl | ⟨-, hcontextual⟩
          · exact hlevel
          · cases (hsuits.reserved hlevel).1.symm.trans hcontextual
        · exact h.top hstack hchild hinjected hlevel
    · rcases mem_reduced he with ⟨old, hold, heq⟩ | rfl
      · rw [heq]
        refine h.grouped old ?_
        rw [hstack]
        rcases List.mem_append.1 hold with hold | hold <;> simp [hold]
      · refine hmakes.all_grouped (fun child hchild => h.grouped child (by simp [hstack, hchild])) ?_
        intro id kind origin hkind hnode
        obtain ⟨_, _, _, heq⟩ := Element.exists_of_isNodeOf hnode
        cases heq
        exact (hcreated (hsuits.unique _ hkind) id origin state).2.1 hnode

/-! ## Repairing -/

/-- What is skipped is an error, under which no operator is read. -/
theorem ordered_skip (hordered : Stack.Ordered o g m.stack)
    (hgrouped : ∀ e ∈ m.stack, ∀ x ∈ e.content, x.All o.Grouped)
    (hformed : ∀ e ∈ m.stack, e.Formed) (hkind : o.kind ≠ .error) {skipped depth : Nat}
    (hne : (m.gathered skipped (min depth (m.stack.length - 1))).1.elements ≠ []) :
    (m.skip skipped depth).Ordered o g := by
  obtain ⟨d, rfl, hskip⟩ := skip_eq hformed skipped depth
  rcases hskip with ⟨hnil, -⟩ | ⟨-, hskip⟩
  · exact absurd (List.append_eq_nil_iff.1 hnil).2 hne
  · rw [hskip]
    generalize min depth (m.stack.length - 1) = d
    have hstack : (m.gathered skipped d).2.stack = m.stack.drop d := by
      rw [gathered, skipInto_frame]
      rfl
    have hgathered : ∀ x ∈ (m.gathered skipped d).1.content, x.All o.Grouped := by
      intro x hx
      rcases mem_skipInto hx with hx | ⟨id, kind, text, rfl⟩
      · obtain ⟨e, he, hx⟩ := mem_poppedEntry hx
        exact hgrouped e he x hx
      · exact Operators.all_grouped_of_isToken rfl
    refine ⟨⟨fun hextra => (by cases hextra), ?_⟩, fun hstack' hholds => ?_,
      List.forall_mem_cons.2 ⟨fun x hx => ?_, fun e he => ?_⟩⟩
    · rw [← List.take_append_drop d m.stack] at hordered
      exact hstack ▸ hordered.of_append
    · obtain ⟨rfl, -⟩ := List.cons.inj hstack'
      cases hholds.extra
    · rcases List.mem_append.1 hx with hx | hx
      · exact hgathered x (List.mem_append_left _ hx)
      · obtain rfl := List.mem_singleton.1 hx
        refine Element.all_node.2 ⟨Operators.grouped_of_isNodeOf ?_,
          fun x hx => hgathered x (List.mem_append_right _ hx)⟩
        simpa [Element.isNodeOf] using hkind.symm
    · exact hgrouped e (List.mem_of_mem_drop (hstack ▸ he))

theorem Ordered.recover (h : m.Ordered o g) (hregular : m.Regular g text)
    (hready : m.Ready setting.table) (hkind : o.kind ≠ .error)
    (htable : setting.table = ofGrammar g) (hstart : (ofGrammar g).actions 0 .eof ≠ [])
    (hempty : candidates setting.table m.topState m.lookahead = [])
    (hrecover : m.recover? setting = some next) : next.Ordered o g := by
  have hrepaired := recover?_repaired setting m
  rw [hrecover] at hrepaired
  cases hrepaired with
  | inserted => exact ⟨h.stack, fun _ _ hinjected => (by cases hinjected), h.grouped⟩
  | @skipped n skipped depth repairs diagnostic _ _ _ _ hdepth =>
    generalize hm₁ : { m.looked n with injected := none, repairs := repairs } = m₁
    have hstack : m₁.stack = m.stack := by rw [← hm₁]; rfl
    have hne := hready.gathered_ne_nil hregular htable hstart hempty hstack hdepth
    have hskip : (m₁.skip skipped depth).Ordered o g :=
      ordered_skip (hstack ▸ h.stack) (hstack ▸ h.grouped) (hstack ▸ hregular.faithful.formed) hkind hne
    exact hskip.congr rfl rfl rfl

/-! ## Whole runs -/

/-- A step keeps everything grouped. -/
theorem Ordered.step (h : m.Ordered o g) (hoperators : o.Suits g) (hg : g.WellFormed)
    (hregular : m.Regular g text) (htracked : m.Tracked setting.table)
    (hready : m.Ready setting.table) (hsuits : setting.Suits g rank text)
    (hreuse : setting.reuse = none) (hstart : (ofGrammar g).actions 0 .eof ≠ [])
    (hstep : m.step setting = .running next) : next.Ordered o g := by
  have hrepair := htracked.candidates_eq_nil hg hsuits.table_eq
  obtain ⟨n, fork, htakes, hcases⟩ := step_cases setting m
  have hahead : (m.looked n).source.ahead 0 = m.source.ahead 0 := Source.ahead_fetchMany _ _ _
  have hlookahead : lookahead { m.looked n with forkPending := fork } = m.lookahead := by
    simp only [lookahead, looked, Source.ahead_fetchMany]
  have h : Ordered o g { m.looked n with forkPending := fork } :=
    h.congr rfl rfl (congrArg Lexeme.kind hahead)
  have hregular : Regular g text { m.looked n with forkPending := fork } :=
    ⟨(hregular.faithful.looked n).congr rfl rfl, hregular.grammatical.congr rfl⟩
  have htracked : Tracked setting.table { m.looked n with forkPending := fork } := htracked.congr rfl
  have hready : Ready setting.table { m.looked n with forkPending := fork } := by
    intro e below hstack hnil
    rw [hlookahead]
    exact hready e below hstack hnil
  have hrepair : (m.turn setting).2 = .repair → candidates setting.table
      (topState { m.looked n with forkPending := fork })
      (lookahead { m.looked n with forkPending := fork }) = [] := by
    rw [hlookahead]
    exact hrepair
  rw [hcases] at hstep
  generalize (m.turn setting).2 = turn at htakes hstep hrepair
  generalize { m.looked n with forkPending := fork } = m₁
    at htakes hstep h hregular htracked hready hrepair
  cases htakes with
  | accept => cases hstep
  | split hinjected hkind hbuffer _ =>
    cases hstep
    refine ⟨h.stack, fun {e below x l} hstack hholds _ hlevel => ?_, h.grouped⟩
    -- Read as one token, the two are an operator of no lower level.
    rw [show (m₁.source.splitShift.ahead 0).kind = .gt by
      rw [Source.ahead_splitShift hbuffer hkind]] at hlevel
    obtain ⟨whole, hwhole, hle⟩ := hoperators.split hlevel
    obtain ⟨l', hl', hle'⟩ := h.top hstack hholds hinjected (hkind ▸ hwhole)
    exact ⟨l', hl', hle.trans hle'⟩
  | shift hmem =>
    cases hstep
    exact h.shift hoperators hregular.faithful hsuits.table_eq hsuits.names hmem
  | takeOver _ htaken =>
    obtain ⟨reuse, _, _, hsome, -⟩ := takeOver?_spec htaken
    cases hreuse.symm.trans hsome
  | reduce hmem hreduced =>
    cases hstep
    exact h.reduce hoperators hg hregular htracked hsuits.table_eq hsuits.names hmem hreduced
  | repair =>
    simp only [perform, repairOrEnd] at hstep
    split at hstep
    · rename_i repaired hrecover
      cases hstep
      exact h.recover hregular hready (hoperators.kind_ne hsuits.names).1 hsuits.table_eq hstart
        (hrepair rfl) hrecover
    · cases hstep

theorem Run.ordered {firstId : Nat} {turns : List Turn}
    (hrun : Run setting (Machine.start text firstId) turns m) (hoperators : o.Suits g)
    (hg : g.WellFormed) (hsuits : setting.Suits g rank text) (hreuse : setting.reuse = none)
    (hstart : (ofGrammar g).actions 0 .eof ≠ []) : m.Ordered o g := by
  have hfirst : (Machine.start text firstId).Regular g text := .start g text firstId
  have htracked : (Machine.start text firstId).Tracked setting.table := .start _ text firstId
  refine hrun.invariant (.start o g text firstId) fun hrun hstep h => ?_
  exact h.step hoperators hg (hrun.regular hfirst hsuits)
    (hrun.tracked htracked hfirst.faithful hsuits.truthful)
    (hrun.ready hg hfirst htracked hsuits hstart (.start _ text firstId)) hsuits hreuse hstart hstep

theorem Ordered.finish (h : m.Ordered o g) (hfaithful : m.Faithful text) (herror : o.kind ≠ .error)
    (hroot : o.kind ≠ .sourceFile) : (m.finish text).root.All o.Grouped := by
  have hnode {id : Nat} {kind : Kind} {children : List Element} (hkind : o.kind ≠ kind) :
      o.Grouped (.node id kind none children) :=
    Operators.grouped_of_isNodeOf (by simpa [Element.isNodeOf] using hkind.symm)
  obtain ⟨id, children, heq, hchildren⟩ := all_below_finish hfaithful.source_at text h.grouped
    (fun _ _ _ => Operators.grouped_of_isNodeOf rfl) fun _ _ => hnode herror
  rw [heq]
  exact Element.all_node.2 ⟨hnode hroot, hchildren⟩

end Machine

/-! ## Trees -/

/-- All operators are grouped in the tree of a text. -/
theorem Tree.all_grouped {o : Operators} {g : Grammar} {rank : Nat → Nat} {text : List Char}
    {setting : Setting} (hoperators : o.Suits g) (hg : g.WellFormed)
    (hsuits : setting.Suits g rank text) (hreuse : setting.reuse = none)
    (hstart : (ofGrammar g).actions 0 .eof ≠ []) (hroot : o.kind ≠ .sourceFile) (firstId : Nat) :
    (parseWith setting text firstId).root.All o.Grouped := by
  obtain ⟨turns, m, last, hrun, hstep, -, hparse⟩ := Machine.exists_run hsuits firstId
  have hfirst : (Machine.start text firstId).Regular g text := .start g text firstId
  have hordered := hrun.ordered hoperators hg hsuits hreuse hstart
  obtain ⟨n, fork, rfl⟩ := Machine.eq_looked_of_finished hstep
  have hlast : Machine.Ordered o g { m.looked n with forkPending := fork } :=
    hordered.congr rfl rfl (congrArg Lexeme.kind (Source.ahead_fetchMany _ _ _))
  have hfaithful : Machine.Faithful text { m.looked n with forkPending := fork } :=
    ((hrun.regular hfirst hsuits).faithful.looked n).congr rfl rfl
  rw [hparse]
  exact hlast.finish hfaithful (hoperators.kind_ne hsuits.names).1 hroot

end SqlTree
