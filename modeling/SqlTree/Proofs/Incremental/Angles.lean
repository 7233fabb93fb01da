import SqlTree.Proofs.SelectStates

/-!
# Where a `>>` closes two brackets

In front of a `>>` that means nothing in a state, the first half of it may complete a type. Behind the
type, the whole `>>` must mean nothing either, or else it would matter whether the type is built or taken
over. That holds because a `>>` can stand behind everything but types that a `>` can stand behind.

- `Grammar.accompanies` : a test by which one terminal can follow wherever another one can
- `Grammar.FollowsAt.accompanied` : so it does in every state
- `Table.actions_eq_nil_of_shuns` : no action on a terminal behind what is never in front of it
- `Grammar.Angular`     : where `>>` means nothing, it does so behind what a `>` completes
- `BigQuery.angular`    : this holds of the table of queries
-/

namespace SqlTree

open Item (Begins Leads)

variable {g : Grammar} {state next p q mark : Nat} {kind other : Kind} {item : Item}
  {production : Production} {calm others : List Nat} {kernel : Set Item} {follow : Set (Item × Kind)}

/-! ## Terminals that stand in the same places -/

namespace Grammar

/-- Whether a production begins with a nonterminal in front of one terminal, and another production of
the same nonterminal begins with it in front of the other terminal. -/
def besides (g : Grammar) (kind other : Kind) (production : Production) : Bool :=
  match production.rhs with
  | .nonterminal i :: .terminal first :: _ =>
    first == kind && g.productions.toList.any fun sibling =>
      sibling.lhs == production.lhs && sibling.rhs.take 2 == [.nonterminal i, .terminal other]
  | _ => false

/-- Whether the nonterminals `others` are in front of the first terminal only where they are in front of
the second one as well. The nonterminals `calm` do not begin with the first. -/
def accompanies (g : Grammar) (kind other : Kind) (calm others : List Nat) : Bool :=
  g.shuns kind calm [] && !(g.productions[acceptProduction]?).any (g.besides kind other) &&
    g.productions.toList.all fun production => avoids kind calm others production.lhs
      (if g.besides kind other production then production.rhs.tail else production.rhs)

theorem exists_of_besides (h : g.besides kind other production = true) :
    ∃ (i : Nat) (after : List Symbol) (q : Nat) (sibling : Production) (more : List Symbol),
      production.rhs = .nonterminal i :: .terminal kind :: after ∧
      g.productions[q]? = some sibling ∧ sibling.lhs = production.lhs ∧
      sibling.rhs = .nonterminal i :: .terminal other :: more := by
  unfold besides at h
  split at h
  · rename_i i first after hrhs
    simp only [Bool.and_eq_true, beq_iff_eq, List.any_eq_true] at h
    obtain ⟨rfl, sibling, hmem, hlhs, htake⟩ := h
    obtain ⟨q, hq⟩ := List.getElem?_of_mem hmem
    refine ⟨i, after, q, sibling, sibling.rhs.drop 2, hrhs, by simpa using hq, hlhs, ?_⟩
    calc sibling.rhs = sibling.rhs.take 2 ++ sibling.rhs.drop 2 := (List.take_append_drop 2 _).symm
      _ = _ := by rw [htake]; rfl
  · cases h

/-- What stands behind a nonterminal is not the first terminal, or it can be the second as well. -/
theorem accompanies_spec (h : g.accompanies kind other calm others = true)
    (hp : g.productions[item.production]? = some production) {i : Nat} {after : List Symbol}
    (hrest : item.rest g = .nonterminal i :: after) (hi : others.contains i = true) :
    ((after = [] → others.contains production.lhs = true) ∧
      (after ≠ [] → quiet kind calm after = true)) ∨
    (item.mark = 0 ∧ g.besides kind other production = true) := by
  obtain ⟨-, htest⟩ := Bool.and_eq_true_iff.1 h
  have havoids := List.all_eq_true.1 htest production
    (Array.mem_toList_iff.2 (Array.mem_of_getElem? hp))
  rw [Item.rest, hp] at hrest
  split at havoids
  · rename_i hbesides
    cases hmark : item.mark with
    | zero => exact .inr ⟨rfl, hbesides⟩
    | succ m =>
      refine .inl (avoids_drop havoids m ?_ hi)
      rw [hmark] at hrest
      rwa [List.drop_tail]
  · exact .inl (avoids_drop havoids item.mark hrest hi)

/-- Begun together with one production, all others of its nonterminal are begun. -/
theorem Closed.sibling {sibling : Production} (h : g.Closed kernel item) (hmark : item.mark = 0)
    (hkernel : ∀ item ∈ kernel, item = Item.opening acceptProduction ∨ 0 < item.mark)
    (hne : item ≠ Item.opening acceptProduction)
    (hp : g.productions[item.production]? = some production)
    (hq : g.productions[q]? = some sibling) (hlhs : sibling.lhs = production.lhs) :
    g.Closed kernel (Item.opening q) := by
  cases h with
  | kernel hmem =>
    rcases hkernel item hmem with heq | hpos
    · exact absurd heq hne
    · omega
  | @opening item p after outer hclosed hp' hrest =>
    obtain rfl := Option.some.inj (hp'.symm.trans hp)
    exact .opening hclosed hq (hlhs ▸ hrest)

/-- The nonterminal of an item is one of a list. -/
def Of (g : Grammar) (others : List Nat) (item : Item) : Prop :=
  ∃ production, g.productions[item.production]? = some production ∧
    others.contains production.lhs = true

/-- What a closure adds is followed by the second terminal wherever it is followed by the first. -/
theorem Follows.accompanied {first : Kind} (htest : g.accompanies kind other calm others = true)
    (hkernel : ∀ item ∈ kernel, item = Item.opening acceptProduction ∨ 0 < item.mark)
    (hfollow : ∀ item, (item, kind) ∈ follow → g.Of others item → (item, other) ∈ follow)
    (h : g.Follows kernel follow item first) (hfirst : first = kind) (hof : g.Of others item) :
    g.Follows kernel follow item other := by
  obtain ⟨hfront, -⟩ := Bool.and_eq_true_iff.1 htest
  obtain ⟨hshuns, haccept⟩ := Bool.and_eq_true_iff.1 hfront
  induction h with
  | kernel h => exact .kernel (hfollow _ (hfirst ▸ h) hof)
  | @begins item first q after inner hclosed hq hrest hbegins =>
    subst hfirst
    obtain ⟨inner', hq', hi⟩ := hof
    obtain rfl := Option.some.inj (hq.symm.trans hq')
    obtain ⟨outer, houter, -, -⟩ := exists_of_rest_eq_cons hrest
    rcases accompanies_spec htest houter hrest hi with ⟨-, hquiet⟩ | ⟨hmark, hbesides⟩
    · -- What is quiet does not begin with the terminal.
      obtain ⟨rest, hyields⟩ := hbegins
      cases after with
      | nil => cases Yields.of_nil hyields
      | cons symbol after =>
        have hfirst := quiet_of_yields hshuns hyields (hquiet (List.cons_ne_nil _ _))
        simp [quiet] at hfirst
    · obtain ⟨i, behind, r, sibling, more, hrhs, hr, hlhs, hmore⟩ := exists_of_besides hbesides
      have hne : item ≠ Item.opening acceptProduction := by
        rintro rfl
        have haccepted : g.productions[acceptProduction]? = some outer := houter
        rw [haccepted, Option.any_some, hbesides] at haccept
        cases haccept
      have hsibling := hclosed.sibling hmark hkernel hne houter hr hlhs
      rw [Item.rest, houter] at hrest
      simp only [hmark, List.drop_zero, hrhs, List.cons.injEq, Symbol.nonterminal.injEq] at hrest
      refine .begins hsibling hq ?_ ⟨more, .refl⟩
      rw [Item.rest_opening hr, hmore, hrest.1]
  | @vanishes item first q after inner _ hq hrest hvanishes ih =>
    obtain ⟨inner', hq', hi⟩ := hof
    obtain rfl := Option.some.inj (hq.symm.trans hq')
    obtain ⟨outer, houter, -, -⟩ := exists_of_rest_eq_cons hrest
    rcases accompanies_spec htest houter hrest hi with ⟨hlast, hquiet⟩ | ⟨hmark, hbesides⟩
    · cases after with
      | nil => exact .vanishes (ih hfirst ⟨outer, houter, hlast rfl⟩) hq hrest hvanishes
      | cons symbol after =>
        have hfirst := quiet_of_yields hshuns hvanishes (hquiet (List.cons_ne_nil _ _))
        cases hfirst
    · obtain ⟨i, behind, -, -, -, hrhs, -, -, -⟩ := exists_of_besides hbesides
      rw [Item.rest, houter] at hrest
      simp only [hmark, List.drop_zero, hrhs, List.cons.injEq] at hrest
      have hterminal : g.Yields (.terminal kind :: behind) [] := hrest.2 ▸ hvanishes
      obtain ⟨rest, hrest⟩ := Yields.of_terminal hterminal
      cases hrest

/-- Only the start rule is under way from its beginning. -/
theorem IsKernel.mark_pos (h : g.IsKernel kernel) :
    ∀ item ∈ kernel, item = Item.opening acceptProduction ∨ 0 < item.mark := by
  cases h with
  | start => exact fun item hitem => .inl (Set.mem_singleton_iff.1 hitem)
  | goto =>
    rintro item ⟨before, -, -, rfl⟩
    exact .inr (Nat.succ_pos _)

theorem IsCanonical.accompanied {canonical : Canonical} (h : g.IsCanonical canonical)
    (htest : g.accompanies kind other calm others = true) (heof : kind ≠ .eof) :
    ∀ item, (item, kind) ∈ canonical.follow → g.Of others item → (item, other) ∈ canonical.follow := by
  induction h with
  | start =>
    intro item hitem
    rw [Set.mem_singleton_iff, Prod.mk.injEq] at hitem
    exact absurd hitem.2 heof
  | @goto canonical symbol h _ ih =>
    rintro item ⟨before, hfollows, hhead, rfl⟩ hof
    exact ⟨before, hfollows.accompanied htest h.isKernel.mark_pos ih rfl hof, hhead, rfl⟩

/-- In every state, what is followed by the first terminal is followed by the second. -/
theorem FollowsAt.accompanied (hg : g.WellFormed) (htest : g.accompanies kind other calm others = true)
    (heof : kind ≠ .eof) (h : g.FollowsAt state item kind) (hof : g.Of others item) :
    g.FollowsAt state item other := by
  have hcoherent := (Automaton.saturated_build hg).1.coherent
  have hgenuine := hcoherent.genuine state h.1
  refine ⟨h.1, h.2.accompanied htest hgenuine.isKernel.mark_pos (fun item hitem hof => ?_) rfl hof⟩
  obtain ⟨canonical, hcanonical, hkernel, hmem⟩ := hgenuine.canonical _ hitem
  obtain ⟨s, hs, hitems, hfollow⟩ := Automaton.exists_state_of_isCanonical hg hcanonical
  obtain rfl : s = state := hcoherent.eq_of_items_eq hs h.1 (hitems.trans hkernel)
  exact hfollow (hcanonical.accompanied htest heof item hmem hof)

end Grammar

/-! ## Cells -/

namespace Table

open Grammar (avoids avoids_drop quiet shuns_spec)

variable {safe : List Nat} {base : Nat}

/-- Where one terminal completes a production, the other one does something as well. -/
theorem actions_ne_nil_of_accompanied (hg : g.WellFormed)
    (htest : g.accompanies kind other calm others = true) (heof : kind ≠ .eof)
    (hother : other.isToken = true) (hp : g.productions[p]? = some production)
    (hlhs : others.contains production.lhs = true)
    (hreduce : .reduce p ∈ (ofGrammar g).actions state kind) :
    (ofGrammar g).actions state other ≠ [] := by
  obtain ⟨⟨hne, mark, hfollows, hrest⟩, -, -⟩ := reduce_strongest hg hreduce
  have haccompanied := hfollows.accompanied hg htest heof ⟨production, hp, hlhs⟩
  exact actions_ne_nil hg hfollows.1 hother (.inr ⟨p, hne, mark, haccompanied, hrest⟩)

/-- Behind a nonterminal that is never in front of a terminal, that terminal means nothing. -/
theorem actions_eq_nil_of_shuns (hg : g.WellFormed) (htest : g.shuns kind calm safe = true)
    (heof : kind ≠ .eof) {i : Nat} (hi : safe.contains i = true)
    (hleads : Leads g (g.core base) (.nonterminal i) (g.core next)) :
    (ofGrammar g).actions next kind = [] := by
  -- What is still to be read does not begin with the terminal, and what is complete is not in front of it.
  have hunder {item : Item} (hbegins : Begins g (g.core next) item) :
      (item.rest g = [] ∧ ∃ production, g.productions[item.production]? = some production ∧
        safe.contains production.lhs = true) ∨ quiet kind calm (item.rest g) = true := by
    induction hbegins with
    | @kernel item hmem =>
      obtain ⟨before, rfl, -, hhead⟩ := hleads.2 item hmem
      obtain ⟨after, hrest⟩ := List.head?_eq_some_iff.1 hhead
      obtain ⟨outer, houter, -, -⟩ := Grammar.exists_of_rest_eq_cons hrest
      rw [Grammar.rest_advance hrest]
      rw [Item.rest, houter] at hrest
      obtain ⟨hlast, hquiet⟩ := avoids_drop (shuns_spec htest houter).2 before.mark hrest hi
      cases after with
      | nil => exact .inl ⟨rfl, outer, houter, hlast rfl⟩
      | cons first after => exact .inr (hquiet (List.cons_ne_nil _ _))
    | @opening item q after production _ hq hrest ih =>
      right
      rcases ih with ⟨hnil, -⟩ | hquiet
      · cases hrest.symm.trans hnil
      · rw [hrest] at hquiet
        rw [Item.rest_opening hq]
        exact (shuns_spec htest hq).1 hquiet
  refine List.eq_nil_iff_forall_not_mem.2 fun action haction => ?_
  cases action with
  | accept =>
    obtain ⟨rfl, -⟩ := complete_of_accept haction
    exact heof rfl
  | shift target =>
    obtain ⟨hne, hleads⟩ := (Moves.shift haction).leads
    obtain ⟨item, hitem⟩ := List.exists_mem_of_ne_nil _ hne
    obtain ⟨before, -, hbegins, hhead⟩ := hleads item hitem
    obtain ⟨after, hrest⟩ := List.head?_eq_some_iff.1 hhead
    rcases hunder hbegins with ⟨hnil, -⟩ | hquiet
    · cases hrest.symm.trans hnil
    · simp [hrest, quiet] at hquiet
  | reduce q =>
    obtain ⟨⟨-, mark, hfollows, hrest⟩, -, -⟩ := reduce_strongest hg haction
    rcases hunder hfollows.begins with ⟨-, production, hq, hsafe⟩ | hquiet
    · exact Grammar.not_followsAt_of_shuns hg htest heof hq hsafe hfollows
    · rw [hrest] at hquiet
      cases hquiet

end Table

/-! ## Tokens of one production -/

namespace Grammar

/-- Whether a terminal stands only in a certain production, and alone there. -/
def isSole (g : Grammar) (kind : Kind) (p : Nat) : Bool :=
  g.productions.toList.zipIdx.all fun (production, q) =>
    !production.rhs.contains (.terminal kind) || q == p && production.rhs == [.terminal kind]

/-- Where such a production has been read, nothing else is under way. -/
theorem covers_unit (hg : g.WellFormed) (htest : g.isSole kind p = true)
    (hp : g.productions[p]? = some production) (hrhs : production.rhs = [.terminal kind])
    (h : g.FollowsAt state ⟨p, 1⟩ other) : (BigQuery.unitOutline p).Covers g state := by
  have hunit {before : Item} (hhead : (before.rest g).head? = some (.terminal kind)) :
      before = Item.opening p := by
    obtain ⟨after, hrest⟩ := List.head?_eq_some_iff.1 hhead
    obtain ⟨outer, houter, hmem, -⟩ := exists_of_rest_eq_cons hrest
    have hhere := List.all_eq_true.1 htest (outer, before.production)
      (List.mk_mem_zipIdx_iff_getElem?.2 (by simpa using houter))
    simp only [List.contains_iff_mem.2 hmem, Bool.not_true, Bool.false_or, Bool.and_eq_true,
      beq_iff_eq] at hhere
    obtain ⟨hproduction, houtside⟩ := hhere
    simp only [Item.rest, houter, houtside] at hrest
    obtain ⟨q, mark⟩ := before
    cases mark with
    | zero => exact congrArg (Item.mk · 0) hproduction
    | succ mark => simp at hrest
  have hmem : (⟨p, 1⟩ : Item) ∈ ((Automaton.build (Closure.Setting.ofGrammar g)).kernel state).items :=
    h.begins.mem_of_mark_pos Nat.one_pos
  have hkernel := ((Automaton.saturated_build hg).1.coherent.genuine state h.1).isKernel
  refine ⟨h.1, fun item hitem => List.mem_singleton.2 ?_⟩
  have hitem : item ∈ ((Automaton.build (Closure.Setting.ofGrammar g)).kernel state).items := hitem
  generalize ((Automaton.build (Closure.Setting.ofGrammar g)).kernel state).items = items at *
  cases hkernel with
  | start =>
    have hmark := congrArg Item.mark (Set.mem_singleton_iff.1 hmem)
    cases hmark
  | @goto kernel symbol _ _ =>
    obtain ⟨first, -, hhead, hfirst⟩ := hmem
    obtain ⟨before, -, hhead', rfl⟩ := hitem
    obtain ⟨q, mark⟩ := first
    obtain ⟨rfl, hmark⟩ := Item.mk.inj hfirst
    obtain rfl : mark = 0 := Nat.succ.inj hmark
    -- The symbol that was read is the terminal, so the other item has read it as well.
    simp only [Item.rest, hp, hrhs, List.drop_zero, List.head?_cons, Option.some.injEq] at hhead
    have hbefore := hunit (hhead ▸ hhead')
    rw [hbefore]
    rfl

end Grammar

/-! ## Behind a `>` -/

/-- Where a `>` completes a production and `>>` means nothing, `>>` means nothing behind the nonterminal
of the production either. -/
def Grammar.Angular (g : Grammar) : Prop :=
  ∀ (state base next p : Nat) (production : Production),
    .reduce p ∈ (Table.ofGrammar g).actions state .gt → (Table.ofGrammar g).actions state .shr = [] →
    g.productions[p]? = some production →
    Leads g (g.core base) (.nonterminal production.lhs) (g.core next) →
      (Table.ofGrammar g).actions next .shr = []

/-- The tokens that begin with a `>`. -/
def angles : List Kind := [.gt, .gtEq, .shr]

/-- None of the nonterminals `calm` begins with such a token, and every nonterminal that makes a node is
among them. -/
structure Grammar.Blunt (g : Grammar) (calm : List Nat) : Prop where
  shuns : ∀ kind ∈ angles, g.shuns kind calm [] = true
  visible : ∀ i kind, g.visibleKind? i = some kind → calm.contains i = true

namespace BigQuery

open Grammar (FollowsAt accompanies isSole shuns)
open Table (ofGrammar)

/-- The nonterminals for types and lists of their fields. -/
def angleTypes : List Nat := [72, 73, 89, 93]

/-- The nonterminals that a `>>` can stand behind wherever a `>` can. -/
def angleOthers : List Nat :=
  [0, 1, 2, 3, 4, 5, 6, 7, 8, 9, 10, 11, 12, 13, 14, 15, 16, 17, 18, 19, 20, 21, 22, 23, 24, 25, 26,
   27, 28, 29, 30, 31, 32, 33, 34, 35, 36, 37, 38, 39, 40, 41, 42, 43, 44, 45, 46, 48, 49, 50, 51, 52,
   53, 54, 55, 56, 57, 58, 59, 60, 61, 62, 63, 64, 65, 66, 67, 68, 69, 70, 71, 74, 75, 76, 77, 78, 79,
   80, 81, 82, 83, 84, 85, 86, 87, 88, 90, 91, 92]

/-- Nonterminals that are not empty and do not begin with `>` or `>>`. -/
def angleCalm : List Nat :=
  [2, 3, 4, 5, 6, 7, 8, 9, 10, 11, 12, 13, 14, 15, 16, 17, 18, 19, 20, 21, 22, 23, 24, 25, 26, 27, 28,
   29, 30, 31, 32, 33, 34, 35, 36, 37, 38, 39, 40, 41, 43, 44, 45, 46, 47, 48, 49, 50, 51, 52, 53, 54,
   55, 56, 57, 58, 59, 60, 61, 62, 63, 64, 65, 66, 67, 68, 69, 70, 71, 72, 73, 74, 75, 76, 77, 78, 79,
   80, 81, 82, 83, 84, 85, 86, 87, 88, 89, 90, 91, 92, 93]

/-- What is known of types, and of the identifiers that they may begin with. -/
def AngleRules (g : Grammar) : Prop :=
  g.accompanies .gt .shr angleCalm angleOthers = true ∧
  g.shuns .shr angleCalm angleTypes = true ∧
  (∀ kind ∈ angles, g.shuns kind angleCalm [] = true) ∧
  (∀ entry ∈ g.nonterminals.toList.zipIdx, entry.1.kind = none ∨ angleCalm.contains entry.2 = true) ∧
  (∀ entry ∈ g.productions.toList.zipIdx,
    entry.1.lhs ∈ angleTypes ∨ entry.1.lhs ∈ angleOthers ∨ entry.2 = 273 ∨ entry.2 = 274) ∧
  (g.productions[273]? = some ⟨47, [.terminal .ident], 0, .none⟩ ∧ g.isSole .ident 273 = true ∧
    g.descends .shr [123, 244, 289, 265, 273] (Item.rest g ⟨121, 1⟩) false = true) ∧
  (g.productions[274]? = some ⟨47, [.terminal .quotedIdent], 0, .none⟩ ∧
    g.isSole .quotedIdent 274 = true ∧
    g.descends .shr [123, 244, 289, 265, 274] (Item.rest g ⟨121, 1⟩) false = true)

instance (g : Grammar) : Decidable (AngleRules g) := inferInstanceAs (Decidable (_ ∧ _))

set_option maxRecDepth 100000 in
theorem angleTest : (match BigQuery.grammar with
    | .ok g => decide (AngleRules g)
    | .error _ => false) = true := by
  rw [grammar_eq]
  decide +kernel

/-- Behind the token of an identifier there is one state, in which a `>>` completes the identifier. -/
theorem shr_completes {prec : Int} {assoc : Assoc} {lhs select : Nat} (hg : g.WellFormed)
    (hselect : FollowsAt g select ⟨121, 1⟩ .eof)
    (hp : g.productions[p]? = some ⟨lhs, [.terminal kind], prec, assoc⟩)
    (hsole : g.isSole kind p = true) (ps : List Nat)
    (hdescends : g.descends .shr (ps ++ [p]) (Item.rest g ⟨121, 1⟩) false = true)
    (hreduce : .reduce p ∈ (ofGrammar g).actions state other) :
    (ofGrammar g).actions state .shr ≠ [] := by
  obtain ⟨⟨hne, mark, hfollows, hrest⟩, -, -⟩ := Table.reduce_strongest hg hreduce
  obtain rfl : mark = 1 := by
    have hle := Table.mark_le_of_begins hg hfollows.1 hfollows.begins hp
    have hge : 1 ≤ mark := by simpa [Item.rest, hp] using hrest
    exact Nat.le_antisymm hle hge
  have hopening : FollowsAt g select (Item.opening p) .shr := by
    have hlast := hselect.descend .shr (ps ++ [p]) hdescends
    rwa [List.foldl_append] at hlast
  obtain ⟨target, -, hshr⟩ := hopening.exists_next hg (Item.rest_opening hp)
  obtain rfl : state = target := (Grammar.covers_unit hg hsole hp rfl hfollows).eq_of_singleton hg
    (Grammar.covers_unit hg hsole hp rfl hshr) rfl rfl
  exact Table.actions_ne_nil hg hfollows.1 rfl (.inr ⟨p, hne, 1, hshr, hrest⟩)

theorem angular_of_rules (hg : g.WellFormed) (hselect : FollowsAt g state ⟨121, 1⟩ .eof)
    (hrules : AngleRules g) : g.Angular := by
  obtain ⟨hfollowed, hshuns, -, -, hall, ⟨hident, hsole, hdescends⟩, hquoted, hsole', hdescends'⟩ :=
    hrules
  intro state' base next p production hreduce hnil hp hleads
  have hmem : (production, p) ∈ g.productions.toList.zipIdx :=
    List.mk_mem_zipIdx_iff_getElem?.2 (by simpa using hp)
  rcases hall _ hmem with hlhs | hlhs | rfl | rfl
  · exact Table.actions_eq_nil_of_shuns hg hshuns (by simp) (List.contains_iff_mem.2 hlhs) hleads
  · exact absurd hnil (Table.actions_ne_nil_of_accompanied hg hfollowed (by simp) rfl hp
      (List.contains_iff_mem.2 hlhs) hreduce)
  · exact absurd hnil (shr_completes hg hselect hident hsole [123, 244, 289, 265] hdescends hreduce)
  · exact absurd hnil (shr_completes hg hselect hquoted hsole' [123, 244, 289, 265] hdescends' hreduce)

theorem blunt_of_rules (hrules : AngleRules g) : g.Blunt angleCalm where
  shuns := hrules.2.2.1
  visible i kind hkind := by
    obtain ⟨nonterminal, hi, hkind⟩ := Option.bind_eq_some_iff.1 hkind
    have hmem : (nonterminal, i) ∈ g.nonterminals.toList.zipIdx :=
      List.mk_mem_zipIdx_iff_getElem?.2 (by simpa using hi)
    refine (hrules.2.2.2.1 _ hmem).resolve_left fun hnone => ?_
    cases hnone.symm.trans hkind

/-- In the table of queries, where a `>` completes something and `>>` means nothing, `>>` means nothing
behind it either, and no node of a query begins with such a token. -/
theorem exists_angular : ∃ g, BigQuery.grammar = .ok g ∧ BigQuery.table = ofGrammar g ∧ g.Angular ∧
    g.Blunt angleCalm := by
  obtain ⟨g, hgrammar, htable, -⟩ := table_spec
  have hg := Grammar.wellFormed_ofRules hgrammar
  have hselect := selectTest
  have hangle := angleTest
  rw [hgrammar] at hselect hangle
  obtain ⟨⟨-, h121, -⟩, -, hdescents, -⟩ := of_decide_eq_true hselect
  have hrules := of_decide_eq_true hangle
  have hbegins : FollowsAt g 0 (Item.opening 121) .eof :=
    (Grammar.followsAt_start hg).descend _ _ hdescents
  obtain ⟨select, -, hitem⟩ := hbegins.exists_next hg (Item.rest_opening h121)
  exact ⟨g, hgrammar, htable, angular_of_rules hg hitem hrules, blunt_of_rules hrules⟩

end BigQuery
end SqlTree
