import Mathlib.Algebra.GroupWithZero.Nat
import SqlTree.Proofs.Derivation

/-!
# Reductions come to an end

Every reduction lowers the potential of the stack. A reduction by two symbols or more takes entries
from it. One by a single symbol puts a nonterminal of a higher rank in its place, which needs a
grammar without cycles. One by nothing at all adds an entry, but it cannot be followed by another of
its kind.

- `Grammar.Tame`     : what the grammar has to do for this
- `Stack.potential`  : the potential of a stack
- `Stack.potential_le` : it is bounded by the height of the stack
- `Machine.potential_reduce` : a reduction lowers it
-/

namespace SqlTree

open Item (Begins Leads)

/-! ## Grammars -/

/-- The rank of a symbol, by which terminals come first. -/
def Symbol.rank (rank : Nat → Nat) : Symbol → Nat
  | .terminal _ => 0
  | .nonterminal i => rank i

theorem Symbol.rank_nonterminal (rank : Nat → Nat) (i : Nat) :
    (Symbol.nonterminal i).rank rank = rank i := rfl

namespace Grammar

/-- The nonterminals that have an empty production. -/
def erasable (g : Grammar) : List Nat :=
  (g.productions.toList.filter fun p => p.rhs.isEmpty).map Production.lhs

def isErasable (g : Grammar) (i : Nat) : Bool := g.erasable.contains i

/-- A production by one symbol leads to a higher rank. A nonterminal with an empty production stands
neither in front of another nonterminal nor at the end of a production. The end of the input is never
read. None of this is asked of the production of the start symbol where it is not reduced by. -/
structure Tame (g : Grammar) (rank : Nat → Nat) : Prop where
  rank_le : ∀ i, rank i ≤ g.nonterminals.size
  unit : ∀ (p : Nat) (production : Production) (symbol : Symbol),
    g.productions[p]? = some production → p ≠ acceptProduction →
    production.rhs = [symbol] → symbol.rank rank < rank production.lhs
  last : ∀ (p : Nat) (production : Production) (i : Nat),
    g.productions[p]? = some production → p ≠ acceptProduction →
    production.rhs.getLast? = some (.nonterminal i) → g.isErasable i = false
  next : ∀ (p : Nat) (production : Production) (mark i j : Nat),
    g.productions[p]? = some production →
    production.rhs[mark]? = some (.nonterminal i) → g.isErasable i = true →
    production.rhs[mark + 1]? ≠ some (.nonterminal j)
  eof : ∀ (p : Nat) (production : Production), g.productions[p]? = some production →
    Symbol.terminal .eof ∉ production.rhs

/-- Whether the symbol that led to a state has an empty production. -/
def erases (g : Grammar) (state : Nat) : Bool :=
  match g.accessing state with
  | some (.nonterminal i) => g.isErasable i
  | _ => false

/-- What a symbol weighs on the stack. -/
def weight (g : Grammar) (rank : Nat → Nat) (symbol : Symbol) : Nat :=
  2 * g.nonterminals.size + 2 - symbol.rank rank

/-- What the way to a state weighs on the stack. -/
def weightAt (g : Grammar) (rank : Nat → Nat) (state : Nat) : Nat :=
  ((g.accessing state).map (g.weight rank)).getD 0

variable {g : Grammar} {rank : Nat → Nat} {p : Nat} {production : Production}

theorem isErasable_of_rhs_eq_nil (hp : g.productions[p]? = some production)
    (hrhs : production.rhs = []) : g.isErasable production.lhs = true := by
  refine List.contains_iff_mem.2 (List.mem_map_of_mem (List.mem_filter.2 ⟨?_, by simp [hrhs]⟩))
  exact Array.mem_toList_iff.2 (Array.mem_of_getElem? hp)

theorem Tame.symbol_rank_le (h : g.Tame rank) (symbol : Symbol) :
    symbol.rank rank ≤ g.nonterminals.size := by
  cases symbol with
  | terminal kind => exact Nat.zero_le _
  | nonterminal i => exact h.rank_le i

/-- No production is begun behind a nonterminal with an empty production. -/
theorem Tame.mark_pos {core next : List Item} {i : Nat} {item : Item} (h : g.Tame rank)
    (hleads : Leads g core (.nonterminal i) next) (hi : g.isErasable i = true)
    (hbegins : Begins g next item) : 0 < item.mark := by
  induction hbegins with
  | kernel hmem =>
    obtain ⟨before, rfl, -⟩ := hleads.2 _ hmem
    exact Nat.succ_pos _
  | @opening _ _ _ opened hbegins hp hrest ih =>
    obtain ⟨⟨q, mark⟩, rfl, -, hsymbol⟩ := hleads.2 _ (hbegins.mem_of_mark_pos ih)
    simp only [Item.rest, Item.advance] at hsymbol hrest
    split at hsymbol
    · rename_i production hq
      simp only [hq] at hrest
      have hnext : production.rhs[mark + 1]? = some (.nonterminal opened.lhs) := by
        rw [← List.head?_drop, hrest]
        rfl
      exact absurd hnext (h.next q production mark i _ hq (by simpa using hsymbol) hi)
    · cases hsymbol

/-- The end of the input is never shifted. -/
theorem Tame.not_leads_eof {core next : List Item} (h : g.Tame rank) :
    ¬ Leads g core (.terminal .eof) next := by
  rintro ⟨hne, hall⟩
  obtain ⟨item, hitem⟩ := List.exists_mem_of_ne_nil _ hne
  obtain ⟨⟨q, mark⟩, -, -, hsymbol⟩ := hall item hitem
  simp only [Item.rest] at hsymbol
  split at hsymbol
  · rename_i production hq
    exact h.eof q production hq (List.mem_of_mem_drop (List.mem_of_head? hsymbol))
  · cases hsymbol

/-- A production weighs less than its right-hand side, unless that is empty. -/
theorem Tame.weight_lt (h : g.Tame rank) (hp : g.productions[p]? = some production)
    (hne : p ≠ acceptProduction) (hrhs : production.rhs ≠ []) :
    g.weight rank (.nonterminal production.lhs) <
      (production.rhs.map (g.weight rank)).sum := by
  have hlhs := h.rank_le production.lhs
  rcases hlist : production.rhs with - | ⟨first, - | ⟨second, rest⟩⟩
  · exact absurd hlist hrhs
  · have hunit := h.unit p production first hp hne hlist
    simp only [weight, Symbol.rank_nonterminal, List.map_cons, List.map_nil, List.sum_cons, List.sum_nil]
    omega
  · have hfirst := h.symbol_rank_le first
    have hsecond := h.symbol_rank_le second
    simp only [weight, Symbol.rank_nonterminal, List.map_cons, List.sum_cons]
    omega

end Grammar

/-! ## Stacks -/

namespace Stack

open Grammar (Tame)

variable {g : Grammar} {rank : Nat → Nat}

/-- What the grammar symbols on a stack weigh. -/
def weight (g : Grammar) (rank : Nat → Nat) (stack : Stack) : Nat :=
  ((stack.filter fun e => !e.extra).map fun e => g.weightAt rank e.state).sum

/-- The potential of a stack: its weight, and what an empty production may still add. -/
def potential (g : Grammar) (rank : Nat → Nat) (stack : Stack) : Nat :=
  weight g rank stack + if g.erases (topState stack) then 0 else 2 * g.nonterminals.size + 3

@[simp]
theorem weight_append (a b : Stack) :
    weight g rank (a ++ b) = weight g rank a + weight g rank b := by
  simp [weight]

theorem weight_extras {extras : Stack} (h : ∀ e ∈ extras, e.extra = true) :
    weight g rank extras = 0 := by
  have hnil : (extras.filter fun e => !e.extra) = [] :=
    List.filter_eq_nil_iff.2 fun e he => by simp [h e he]
  simp [weight, hnil]

theorem weightAt_le (g : Grammar) (rank : Nat → Nat) (state : Nat) :
    g.weightAt rank state ≤ 2 * g.nonterminals.size + 2 := by
  unfold Grammar.weightAt
  cases g.accessing state with
  | none => exact Nat.zero_le _
  | some symbol => exact Nat.sub_le _ _

theorem weight_cons_le (e : Entry) (stack : Stack) :
    weight g rank (e :: stack) ≤ weight g rank stack + (2 * g.nonterminals.size + 2) := by
  have hle := weightAt_le g rank e.state
  simp only [weight, List.filter_cons]
  split
  · simp only [List.map_cons, List.sum_cons]
    omega
  · omega

theorem weight_le (stack : Stack) :
    weight g rank stack ≤ stack.length * (2 * g.nonterminals.size + 2) := by
  induction stack with
  | nil => simp [weight]
  | cons e stack ih =>
    rw [List.length_cons, Nat.add_one_mul]
    exact Nat.le_trans (weight_cons_le e stack) (Nat.add_le_add_right ih _)

theorem potential_le (stack : Stack) :
    potential g rank stack ≤ (stack.length + 1) * (2 * g.nonterminals.size + 3) := by
  have hweight : weight g rank stack ≤ stack.length * (2 * g.nonterminals.size + 2) :=
    weight_le stack
  have hmul : stack.length * (2 * g.nonterminals.size + 2) ≤
      stack.length * (2 * g.nonterminals.size + 3) := Nat.mul_le_mul_left _ (by omega)
  rw [potential, Nat.add_one_mul stack.length]
  split <;> omega

/-- A state is the first one, or was reached from some other. -/
theorem Linked.topState_cases {stack : Stack} (h : Linked g stack) :
    topState stack = 0 ∨ ∃ core symbol, Leads g core symbol (g.core (topState stack)) := by
  induction h with
  | bottom => exact Or.inl rfl
  | extra _ hstate _ ih =>
    simp only [topState] at hstate ih ⊢
    rwa [hstate]
  | symbol _ hleads _ _ _ => exact Or.inr ⟨_, _, hleads⟩

/-- Where a production is begun, the symbol before is not one with an empty production. -/
theorem Linked.erases_eq_false {stack : Stack} {p : Nat} (h : Linked g stack)
    (htame : g.Tame rank) (hbegins : Begins g (g.core (topState stack)) ⟨p, 0⟩) :
    g.erases (topState stack) = false := by
  rcases h.topState_cases with hzero | ⟨core, symbol, hleads⟩
  · rw [hzero, Grammar.erases, g.accessing_zero]
  · rw [Grammar.erases, Grammar.accessing_of_leads hleads]
    cases symbol with
    | terminal kind => rfl
    | nonterminal i =>
      cases hi : g.isErasable i with
      | false => exact hi
      | true => exact absurd (htame.mark_pos hleads hi hbegins) (Nat.lt_irrefl 0)

/-- The state on top is the one of the highest entry that is not extra. -/
theorem Linked.topState_eq {popped below : Stack} {e : Entry} (h : Linked g (popped ++ below))
    (he : (popped.filter fun e => !e.extra).head? = some e) :
    topState (popped ++ below) = e.state := by
  induction popped with
  | nil => cases he
  | cons first popped ih =>
    generalize hstack : first :: popped ++ below = stack at h
    cases hextra : first.extra with
    | false =>
      simp only [List.filter_cons, hextra, Bool.not_false, if_true, List.head?_cons,
        Option.some.injEq] at he
      rw [← hstack, ← he]
      rfl
    | true =>
      simp only [List.filter_cons, hextra, Bool.not_true, Bool.false_eq_true, if_false] at he
      cases h with
      | bottom =>
        simp only [List.cons_append, List.cons.injEq] at hstack
        rw [hstack.1] at hextra
        cases hextra
      | extra _ hstate h =>
        simp only [List.cons_append, List.cons.injEq] at hstack
        obtain ⟨rfl, rfl⟩ := hstack
        exact hstate.trans (ih h he)
      | symbol hnot _ _ _ =>
        simp only [List.cons_append, List.cons.injEq] at hstack
        rw [hstack.1, hnot] at hextra
        cases hextra

end Stack

/-! ## Reductions -/

namespace Machine

variable {g : Grammar} {rank : Nat → Nat} {m m' : Machine} {production : Nat}

/-- Entries of a right-hand side weigh as much as its symbols. -/
theorem weight_children {children : List Entry} {symbols : List Symbol}
    (h : (children.filter fun e => !e.extra).map (fun e => g.accessing e.state) =
      symbols.map some) :
    Stack.weight g rank children.reverse = (symbols.map (g.weight rank)).sum := by
  have hmap := congrArg (List.map fun symbol => (symbol.map (g.weight rank)).getD 0) h
  rw [List.map_map, List.map_map] at hmap
  rw [Stack.weight, List.filter_reverse, List.map_reverse, List.sum_reverse]
  exact congrArg List.sum hmap

/-- Where something is reduced that is not empty, its last symbol has no empty production. -/
theorem Reduces.erases_eq_false {p : Production} {children : List Entry} {below : Stack}
    (htame : g.Tame rank) (hp : g.productions[production]? = some p)
    (hne : production ≠ Grammar.acceptProduction) (hrhs : p.rhs ≠ [])
    (hlinked : Stack.Linked g (children.reverse ++ below))
    (haccess : (children.filter fun e => !e.extra).map (fun e => g.accessing e.state) =
      p.rhs.map some) : g.erases (Stack.topState (children.reverse ++ below)) = false := by
  have hlast := congrArg List.getLast? haccess
  rw [List.getLast?_map, List.getLast?_map, List.getLast?_eq_some_getLast hrhs,
    Option.map_some] at hlast
  obtain ⟨e, he, haccess⟩ := Option.map_eq_some_iff.1 hlast
  have htop : Stack.topState (children.reverse ++ below) = e.state := by
    refine hlinked.topState_eq ?_
    rw [List.filter_reverse, List.head?_reverse, he]
  rw [htop, Grammar.erases, haccess]
  cases hsymbol : p.rhs.getLast hrhs with
  | terminal kind => rfl
  | nonterminal i =>
    refine htame.last production p i hp hne ?_
    rw [List.getLast?_eq_some_getLast hrhs, hsymbol]

/-- A reduction lowers the potential. -/
theorem Reduces.potential_lt (h : m.Reduces g production m') (htame : g.Tame rank) :
    Stack.potential g rank m'.stack < Stack.potential g rank m.stack := by
  obtain ⟨hp, hne, hstack, hextras, hlinked, htop, hbelow, hopening, hends, -, haccess, hleads,
    hmakes, -⟩ := h
  rename_i p extras below children entry next nextId
  obtain ⟨hentry, hnext⟩ : entry.extra = false ∧ entry.state = next := by
    obtain ⟨hextra, hstate⟩ := hmakes.frame
    exact ⟨hextra.trans (Entry.ofChildren_extra _ _ _),
      hstate.trans (Entry.ofChildren_state _ _ _)⟩
  have hbefore : Stack.weight g rank m.stack =
      (p.rhs.map (g.weight rank)).sum + Stack.weight g rank below := by
    rw [hstack, Stack.weight_append, Stack.weight_append, Stack.weight_extras hextras,
      weight_children haccess, Nat.zero_add]
  have hafter : Stack.weight g rank ((extras.map fun e => { e with state := next }) ++
      entry :: below) = g.weight rank (.nonterminal p.lhs) + Stack.weight g rank below := by
    rw [Stack.weight_append, Stack.weight_extras (by
      intro e he
      obtain ⟨old, hold, rfl⟩ := List.mem_map.1 he
      exact hextras old hold)]
    simp [Stack.weight, hentry, hnext, Grammar.weightAt, Grammar.accessing_of_leads hleads]
  have hstate : Stack.topState ((extras.map fun e => { e with state := next }) ++
      entry :: below) = next := by
    cases extras with
    | nil => exact hnext
    | cons e extras => rfl
  have htop : Stack.topState m.stack = _ := htop
  simp only [Stack.potential, hbefore, hafter, hstate, htop]
  by_cases hrhs : p.rhs = []
  · -- Nothing is taken from the stack, but nothing more can be added without it.
    have hnil : children = [] := by
      rw [hrhs, List.map_nil, List.map_eq_nil_iff] at haccess
      cases children with
      | nil => rfl
      | cons e children =>
        have hfirst := hends e (.inl rfl)
        simp [hfirst] at haccess
    subst hnil
    rw [List.reverse_nil, List.nil_append] at hlinked ⊢
    have herases : g.erases next = true := by
      rw [Grammar.erases, Grammar.accessing_of_leads hleads]
      exact Grammar.isErasable_of_rhs_eq_nil hp hrhs
    have hle : g.weight rank (.nonterminal p.lhs) ≤ 2 * g.nonterminals.size + 2 := Nat.sub_le _ _
    simp only [hrhs, herases, hlinked.erases_eq_false htame hopening, if_true, List.map_nil,
      List.sum_nil, Bool.false_eq_true, if_false]
    omega
  · have hlt := htame.weight_lt hp hne hrhs
    rw [Reduces.erases_eq_false htame hp hne hrhs hlinked haccess, if_neg Bool.false_ne_true]
    split <;> omega

end Machine
end SqlTree
