import Mathlib.Data.Finset.Powerset
import SqlTree.Proofs.Closure

/-!
# Kernels of states

Sorting gives every set of items one kernel, so states can be told apart by their items. The kernels
that the automaton makes are kernels of the canonical automaton with lookaheads from there, and that
stays so when two with the same items are merged and when a symbol is read.

- `Kernel.sorted_sort`    : the items of a sorted kernel are in order
- `Kernel.Genuine`        : a kernel in order, with items and lookaheads of the canonical automaton
- `Kernel.follow_merge`   : merging unites the lookaheads
- `Kernel.Genuine.successor` : the kernels after each symbol are those of the canonical automaton
- `Kernel.le_two_pow`     : there are no more of them than sets of items
-/

namespace SqlTree

/-! ## Order -/

namespace Item

theorem le_total (a b : Item) : a.le b = true ∨ b.le a = true := by
  simp only [le, Bool.or_eq_true, Bool.and_eq_true, decide_eq_true_eq, beq_iff_eq]
  omega

theorem le_trans {a b c : Item} (hab : a.le b = true) (hbc : b.le c = true) : a.le c = true := by
  simp only [le, Bool.or_eq_true, Bool.and_eq_true, decide_eq_true_eq, beq_iff_eq] at *
  omega

theorem le_antisymm {a b : Item} (hab : a.le b = true) (hba : b.le a = true) : a = b := by
  obtain ⟨p, m⟩ := a
  obtain ⟨q, n⟩ := b
  simp only [le, Bool.or_eq_true, Bool.and_eq_true, decide_eq_true_eq, beq_iff_eq, mk.injEq] at *
  omega

end Item

namespace Kernel

variable {g : Grammar} {kernel : Kernel} {item : Item} {symbol : Symbol} {next : Kernel}

/-- The items are in order. -/
def Sorted (kernel : Kernel) : Prop := kernel.core.Pairwise fun a b => a.le b = true

theorem sorted_insert (entry : Item × TerminalSet) (h : kernel.Sorted) :
    (insert entry kernel).Sorted := by
  induction kernel with
  | nil => exact List.pairwise_singleton _ _
  | cons first rest ih =>
    obtain ⟨hfirst, hrest⟩ := List.pairwise_cons.1 h
    unfold insert
    split
    · rename_i hle
      refine List.pairwise_cons.2 ⟨fun item hitem => ?_, h⟩
      rcases List.mem_cons.1 hitem with rfl | hitem
      · exact hle
      · exact Item.le_trans hle (hfirst item hitem)
    · rename_i hle
      refine List.pairwise_cons.2 ⟨fun item hitem => ?_, ih hrest⟩
      obtain ⟨other, hother, rfl⟩ := List.mem_map.1 hitem
      rcases List.mem_cons.1 ((insert_perm entry rest).mem_iff.1 hother) with rfl | hother
      · exact (Item.le_total _ _).resolve_left hle
      · exact hfirst _ (List.mem_map_of_mem hother)

theorem sorted_sort (kernel : Kernel) : (sort kernel).Sorted := by
  induction kernel with
  | nil => exact List.Pairwise.nil
  | cons entry rest ih => exact sorted_insert entry ih

/-- Two kernels in order with the same items have the same core. -/
theorem core_eq_of_items_eq {other : Kernel} (hsorted : kernel.Sorted) (hnodup : kernel.core.Nodup)
    (hsorted' : other.Sorted) (hnodup' : other.core.Nodup) (h : kernel.items = other.items) :
    kernel.core = other.core := by
  have hperm : kernel.core.Perm other.core :=
    (List.perm_ext_iff_of_nodup hnodup hnodup').2 fun item => Set.ext_iff.1 h item
  exact hperm.eq_of_pairwise (fun _ _ _ _ => Item.le_antisymm) hsorted hsorted'

end Kernel

/-! ## Items of a grammar -/

namespace Grammar

variable {g : Grammar}

/-- All items of a grammar. -/
def items (g : Grammar) : List Item :=
  (List.range g.productions.size).flatMap fun p =>
    (List.range ((g.productions[p]?).elim 0 fun production => production.rhs.length + 1)).map
      (Item.mk p)

theorem length_items (g : Grammar) : g.items.length = Automaton.itemCount g := by
  have hcount (productions : List Production) (n : Nat) :
      productions.foldl (fun n p => n + (p.rhs.length + 1)) n =
        n + (productions.map fun p => p.rhs.length + 1).sum := by
    induction productions generalizing n with
    | nil => rfl
    | cons p rest ih =>
      rw [List.foldl_cons, ih, List.map_cons, List.sum_cons]
      omega
  have hmap : (List.range g.productions.size).map (fun p =>
      (g.productions[p]?).elim 0 fun production => production.rhs.length + 1) =
      g.productions.toList.map fun p => p.rhs.length + 1 := by
    refine List.ext_getElem (by simp) fun i hi hi' => ?_
    simp only [List.length_map, List.length_range] at hi
    simp [hi]
  rw [items, List.length_flatMap, Automaton.itemCount, ← Array.foldl_toList, hcount, Nat.zero_add,
    ← hmap]
  simp

theorem mem_items {p mark : Nat} {production : Production}
    (hp : g.productions[p]? = some production) (hmark : mark ≤ production.rhs.length) :
    ⟨p, mark⟩ ∈ g.items := by
  obtain ⟨hlt, -⟩ := Array.getElem?_eq_some_iff.1 hp
  refine List.mem_flatMap.2 ⟨p, List.mem_range.2 hlt, List.mem_map.2 ⟨mark, ?_, rfl⟩⟩
  rw [hp]
  exact List.mem_range.2 (Nat.lt_succ_of_le hmark)

theorem exists_of_mem_items {item : Item} (h : item ∈ g.items) :
    ∃ production, g.productions[item.production]? = some production := by
  obtain ⟨p, hp, hitem⟩ := List.mem_flatMap.1 h
  obtain ⟨mark, -, rfl⟩ := List.mem_map.1 hitem
  exact ⟨_, Array.getElem?_eq_getElem (List.mem_range.1 hp)⟩

theorem advance_mem_items {item : Item} {symbol : Symbol}
    (h : (item.rest g).head? = some symbol) : item.advance ∈ g.items := by
  unfold Item.rest at h
  split at h
  · rename_i production hp
    refine mem_items hp ?_
    rw [List.head?_drop] at h
    exact (List.getElem?_eq_some_iff.1 h).1
  · cases h

end Grammar

namespace Kernel

variable {g : Grammar} {kernel other : Kernel} {item : Item} {symbol : Symbol} {next : Kernel}

/-- A kernel in order, with items and lookaheads of the canonical automaton. -/
structure Genuine (g : Grammar) (kernel : Kernel) : Prop extends Kernel.Proper kernel where
  sorted : kernel.Sorted
  fits : ∀ item ∈ kernel.core, item ∈ g.items
  isKernel : g.IsKernel kernel.items
  canonical : ∀ entry ∈ kernel.follow, ∃ state, g.IsCanonical state ∧
    state.kernel = kernel.items ∧ entry ∈ state.follow

/-! ## Merging -/

theorem follow_cons (item : Item) (s : TerminalSet) (rest : Kernel) :
    follow ((item, s) :: rest) =
      {entry | entry.1 = item ∧ s.contains entry.2 = true} ∪ follow rest := by
  ext ⟨other, kind⟩
  simp only [follow, Set.mem_ofPred_eq, Set.mem_union, List.mem_cons, Prod.mk.injEq]
  constructor
  · rintro ⟨t, ⟨rfl, rfl⟩ | ht, hkind⟩
    · exact Or.inl ⟨rfl, hkind⟩
    · exact Or.inr ⟨t, ht, hkind⟩
  · rintro (⟨rfl, hkind⟩ | ⟨t, ht, hkind⟩)
    · exact ⟨s, Or.inl ⟨rfl, rfl⟩, hkind⟩
    · exact ⟨t, Or.inr ht, hkind⟩

theorem follow_merge (h : kernel.core = other.core) :
    (Automaton.merge kernel other).1.follow = kernel.follow ∪ other.follow := by
  induction kernel generalizing other with
  | nil =>
    obtain rfl := List.map_eq_nil_iff.1 h.symm
    exact (Set.union_self _).symm
  | cons entry rest ih =>
    obtain ⟨item, s⟩ := entry
    obtain _ | ⟨⟨item', t⟩, others⟩ := other
    · cases h
    obtain ⟨rfl, hrest⟩ := List.cons.inj h
    simp only [Automaton.merge, follow_cons, ih hrest]
    ext ⟨k, kind⟩
    simp only [Set.mem_union, Set.mem_ofPred_eq, TerminalSet.contains_union, Bool.or_eq_true]
    tauto

theorem merge_of_not_grew (h : (Automaton.merge kernel other).2 = false) :
    (Automaton.merge kernel other).1 = kernel := by
  induction kernel generalizing other with
  | nil => cases other <;> rfl
  | cons entry rest ih =>
    obtain ⟨item, s⟩ := entry
    obtain _ | ⟨⟨item', t⟩, others⟩ := other
    · rfl
    simp only [Automaton.merge, Bool.or_eq_false_iff, TerminalSet.grows, bne_eq_false_iff_eq] at h ⊢
    have hunion : s.union t = s := by
      obtain ⟨bits⟩ := s
      exact congrArg TerminalSet.mk h.1
    rw [hunion, ih h.2]

theorem proper_merge (h : ∀ entry ∈ kernel, entry.2.Proper)
    (hother : ∀ entry ∈ other, entry.2.Proper) :
    ∀ entry ∈ (Automaton.merge kernel other).1, entry.2.Proper := by
  induction kernel generalizing other with
  | nil => cases other <;> exact h
  | cons first rest ih =>
    obtain ⟨item, s⟩ := first
    obtain _ | ⟨⟨item', t⟩, others⟩ := other
    · exact h
    obtain ⟨hfirst, hrest⟩ := List.forall_mem_cons.1 h
    obtain ⟨hfirst', hrest'⟩ := List.forall_mem_cons.1 hother
    exact List.forall_mem_cons.2 ⟨hfirst.union hfirst', ih hrest hrest'⟩

theorem Genuine.merge (h : kernel.Genuine g) (hother : other.Genuine g)
    (hcore : kernel.core = other.core) : (Automaton.merge kernel other).1.Genuine g := by
  have hsame : (Automaton.merge kernel other).1.core = kernel.core :=
    Automaton.core_merge kernel other
  have hitems : (Automaton.merge kernel other).1.items = kernel.items := by
    simp only [items, hsame]
  refine ⟨⟨hsame ▸ h.nodup, hsame ▸ h.read, proper_merge h.lookaheads hother.lookaheads⟩, ?_,
    hsame ▸ h.fits, hitems ▸ h.isKernel, ?_⟩
  · rw [Sorted, hsame]
    exact h.sorted
  · rw [hitems, follow_merge hcore]
    rintro entry (hentry | hentry)
    · exact h.canonical entry hentry
    · have hitems' : kernel.items = other.items := by simp only [items, hcore]
      rw [hitems']
      exact hother.canonical entry hentry

/-- The number of terminals that can still be added to the lookaheads. -/
def room (kernel : Kernel) : Nat := (kernel.map fun entry => Kind.count - entry.2.card).sum

/-- Lookaheads that grow leave less room. -/
theorem room_merge (h : ∀ entry ∈ kernel, entry.2.Proper)
    (hother : ∀ entry ∈ other, entry.2.Proper) :
    (Automaton.merge kernel other).1.room + (Automaton.merge kernel other).2.toNat ≤
      kernel.room := by
  induction kernel generalizing other with
  | nil => cases other <;> simp [Automaton.merge]
  | cons first rest ih =>
    obtain ⟨item, s⟩ := first
    obtain _ | ⟨⟨item', t⟩, others⟩ := other
    · simp [Automaton.merge]
    obtain ⟨(hs : s.Proper), hrest⟩ := List.forall_mem_cons.1 h
    obtain ⟨(ht : t.Proper), hrest'⟩ := List.forall_mem_cons.1 hother
    have hle := ih hrest hrest'
    have hcount := (s.union t).card_le
    simp only [Automaton.merge, room, List.map_cons, List.sum_cons] at hle ⊢
    -- One set that grows is enough to pay; the others take no more room than before.
    cases hgrows : s.grows t with
    | true =>
      have hne : s.union t ≠ s := by
        intro heq
        simp [TerminalSet.grows, heq] at hgrows
      have hlt := TerminalSet.card_lt_card_union hs ht hne
      have hbool := Bool.toNat_le (Automaton.merge rest others).2
      simp only [Bool.true_or, Bool.toNat_true]
      omega
    | false =>
      have hcard := TerminalSet.card_le_card_union hs ht
      simp only [Bool.false_or]
      omega

theorem Genuine.room_le (h : kernel.Genuine g) :
    kernel.room ≤ Automaton.itemCount g * Kind.count := by
  have hlength : kernel.length ≤ Automaton.itemCount g := by
    have hsub := (List.subperm_of_subset h.nodup h.fits).length_le
    rwa [core, List.length_map, Grammar.length_items] at hsub
  have hsum := sum_le_length_mul kernel (f := fun entry => Kind.count - entry.2.card)
    (n := Kind.count) fun entry _ => Nat.sub_le _ _
  exact Nat.le_trans hsum (Nat.mul_le_mul_right _ hlength)

/-! ## Successors -/

theorem mem_readable {items : Kernel} {lookahead : TerminalSet} :
    (symbol, item, lookahead) ∈ Automaton.readable g items ↔
      (item, lookahead) ∈ items ∧ (item.rest g).head? = some symbol := by
  simp only [Automaton.readable, List.mem_filterMap, Option.map_eq_some_iff, Prod.exists,
    Prod.mk.injEq]
  constructor
  · rintro ⟨item, lookahead, hmem, symbol, hsymbol, rfl, rfl, rfl⟩
    exact ⟨hmem, hsymbol⟩
  · rintro ⟨hmem, hsymbol⟩
    exact ⟨item, lookahead, hmem, symbol, hsymbol, rfl, rfl, rfl⟩

theorem mem_after {items : Kernel} {lookahead : TerminalSet} {after : Item} :
    (after, lookahead) ∈ Automaton.after (Automaton.readable g items) symbol ↔
      ∃ item, (item, lookahead) ∈ items ∧ (item.rest g).head? = some symbol ∧
        item.advance = after := by
  rw [Automaton.after, (sort_perm _).mem_iff]
  simp only [List.mem_filterMap, Prod.exists, Option.ite_none_right_eq_some, Option.some.injEq,
    Prod.mk.injEq]
  constructor
  · rintro ⟨symbol, item, lookahead, hmem, rfl, hadvance, rfl⟩
    obtain ⟨hitem, hsymbol⟩ := mem_readable.1 hmem
    exact ⟨item, hitem, hsymbol, hadvance⟩
  · rintro ⟨item, hitem, hsymbol, hadvance⟩
    exact ⟨symbol, item, lookahead, mem_readable.2 ⟨hitem, hsymbol⟩, rfl, hadvance, rfl⟩

theorem mem_successors_iff {items : Kernel} :
    (symbol, next) ∈ Automaton.successors g items ↔
      (∃ item ∈ items.core, (item.rest g).head? = some symbol) ∧
        Automaton.after (Automaton.readable g items) symbol = next := by
  constructor
  · intro h
    obtain ⟨other, hother, heq⟩ := List.mem_map.1 h
    cases heq
    obtain ⟨⟨next, item, lookahead⟩, hmem, rfl⟩ := List.mem_map.1 (List.mem_eraseDups.1 hother)
    obtain ⟨hitem, hsymbol⟩ := mem_readable.1 hmem
    exact ⟨⟨item, List.mem_map.2 ⟨_, hitem, rfl⟩, hsymbol⟩, rfl⟩
  · rintro ⟨⟨item, hitem, hsymbol⟩, rfl⟩
    obtain ⟨⟨item, lookahead⟩, hmem, rfl⟩ := List.mem_map.1 hitem
    have hreadable := mem_readable.2 ⟨hmem, hsymbol⟩
    exact List.mem_map.2 ⟨symbol, List.mem_eraseDups.2 (List.mem_map.2 ⟨_, hreadable, rfl⟩), rfl⟩

/-- The items after a symbol are the items that read it, advanced. -/
theorem core_after_perm (items : Kernel) :
    (Automaton.after (Automaton.readable g items) symbol).core.Perm
      (items.core.filterMap fun item =>
        if (item.rest g).head? = some symbol then some item.advance else none) := by
  refine ((sort_perm _).map Prod.fst).trans (List.Perm.of_eq ?_)
  rw [Automaton.readable, List.filterMap_filterMap, List.map_filterMap, core, List.filterMap_map]
  refine List.filterMap_congr fun entry _ => ?_
  dsimp only [Function.comp_apply]
  cases (entry.1.rest g).head? with
  | none => simp
  | some head => by_cases hhead : head = symbol <;> simp [hhead]

theorem nodup_after {items : Kernel} (h : items.core.Nodup) :
    (Automaton.after (Automaton.readable g items) symbol).core.Nodup := by
  refine (core_after_perm items).nodup_iff.2 (h.filterMap fun a b c ha hb => ?_)
  -- Advancing is injective, so items that are distinct stay distinct.
  simp only [Option.mem_def, Option.ite_none_right_eq_some, Option.some.injEq] at ha hb
  obtain ⟨p, m⟩ := a
  obtain ⟨q, n⟩ := b
  have heq := ha.2.trans hb.2.symm
  simpa [Item.advance] using heq

/-- The kernels after each symbol are those of the canonical automaton. -/
theorem items_of_mem_successors (hg : g.WellFormed) (h : kernel.Proper)
    (hnext : (symbol, next) ∈
      Automaton.successors g (Closure.ofKernel (Closure.Setting.ofGrammar g) kernel)) :
    next.items = g.goto kernel.items symbol := by
  obtain ⟨-, rfl⟩ := mem_successors_iff.1 hnext
  have hclosure := Closure.items_ofKernel hg h
  ext after
  constructor
  · intro hafter
    obtain ⟨⟨after, lookahead⟩, hmem, rfl⟩ := List.mem_map.1 hafter
    obtain ⟨item, hitem, hsymbol, hadvance⟩ := mem_after.1 hmem
    have hclosed : item ∈ (Closure.ofKernel (Closure.Setting.ofGrammar g) kernel).items :=
      List.mem_map.2 ⟨_, hitem, rfl⟩
    rw [hclosure] at hclosed
    exact ⟨item, hclosed, hsymbol, hadvance⟩
  · rintro ⟨item, hclosed, hsymbol, hadvance⟩
    have hitem : item ∈ (Closure.ofKernel (Closure.Setting.ofGrammar g) kernel).items := by
      rw [hclosure]
      exact hclosed
    obtain ⟨⟨item, lookahead⟩, hmem, rfl⟩ := List.mem_map.1 hitem
    exact List.mem_map.2 ⟨(after, lookahead), mem_after.2 ⟨item, hmem, hsymbol, hadvance⟩, rfl⟩

theorem follow_of_mem_successors (hg : g.WellFormed) (h : kernel.Proper)
    (hnext : (symbol, next) ∈
      Automaton.successors g (Closure.ofKernel (Closure.Setting.ofGrammar g) kernel)) :
    next.follow = ((Canonical.mk kernel.items kernel.follow).goto g symbol).follow := by
  obtain ⟨-, rfl⟩ := mem_successors_iff.1 hnext
  have hclosure := Closure.follow_ofKernel hg h
  ext ⟨after, kind⟩
  constructor
  · rintro ⟨lookahead, hmem, hkind⟩
    obtain ⟨item, hitem, hsymbol, hadvance⟩ := mem_after.1 hmem
    have hfollows : (item, kind) ∈
        (Closure.ofKernel (Closure.Setting.ofGrammar g) kernel).follow := ⟨lookahead, hitem, hkind⟩
    rw [hclosure] at hfollows
    exact ⟨item, hfollows, hsymbol, hadvance⟩
  · rintro ⟨item, hfollows, hsymbol, hadvance⟩
    have hmem : (item, kind) ∈
        (Closure.ofKernel (Closure.Setting.ofGrammar g) kernel).follow := by
      rw [hclosure]
      exact hfollows
    obtain ⟨lookahead, hitem, hkind⟩ := hmem
    exact ⟨lookahead, mem_after.2 ⟨item, hitem, hsymbol, hadvance⟩, hkind⟩

/-- A symbol is followed by a kernel exactly if some item under way asks for it. -/
theorem exists_mem_successors (hg : g.WellFormed) (h : kernel.Proper)
    (hsome : (g.goto kernel.items symbol).Nonempty) :
    ∃ next, (symbol, next) ∈
      Automaton.successors g (Closure.ofKernel (Closure.Setting.ofGrammar g) kernel) := by
  obtain ⟨after, item, hclosed, hsymbol, -⟩ := hsome
  refine ⟨_, mem_successors_iff.2 ⟨⟨item, ?_, hsymbol⟩, rfl⟩⟩
  have hitem : item ∈ (Closure.ofKernel (Closure.Setting.ofGrammar g) kernel).items := by
    rw [Closure.items_ofKernel hg h]
    exact hclosed
  exact hitem

theorem Genuine.successor (hg : g.WellFormed) (h : kernel.Genuine g)
    (hnext : (symbol, next) ∈
      Automaton.successors g (Closure.ofKernel (Closure.Setting.ofGrammar g) kernel)) :
    next.Genuine g := by
  have hitems := items_of_mem_successors hg h.toProper hnext
  have hfollow := follow_of_mem_successors hg h.toProper hnext
  obtain ⟨⟨item, hitem, hsymbol⟩, hafter⟩ := mem_successors_iff.1 hnext
  have hadvance {item : Item} (hmem : item ∈ next.core) :
      ∃ before : Item, (before.rest g).head? = some symbol ∧ before.advance = item := by
    have hgoto : item ∈ next.items := hmem
    rw [hitems] at hgoto
    obtain ⟨before, -, hbefore, hadvance⟩ := hgoto
    exact ⟨before, hbefore, hadvance⟩
  have hsome : next.items.Nonempty := by
    obtain ⟨⟨item, lookahead⟩, hentry, rfl⟩ := List.mem_map.1 hitem
    rw [← hafter]
    exact ⟨item.advance, List.mem_map.2 ⟨_, mem_after.2 ⟨item, hentry, hsymbol, rfl⟩, rfl⟩⟩
  refine ⟨⟨?_, fun item hmem => ?_, fun entry hentry => ?_⟩, ?_, fun item hmem => ?_,
    hitems ▸ .goto h.isKernel (hitems ▸ hsome), fun entry hentry => ?_⟩
  · rw [← hafter]
    exact nodup_after (Closure.nodup_ofKernel hg h.toProper)
  · obtain ⟨before, -, rfl⟩ := hadvance hmem
    exact Or.inl (Nat.succ_pos _)
  · rw [← hafter] at hentry
    obtain ⟨before, hbefore, -⟩ := mem_after.1 hentry
    exact Closure.proper_of_mem_ofKernel hg h.toProper hbefore
  · rw [← hafter]
    exact sorted_sort _
  · obtain ⟨before, hbefore, rfl⟩ := hadvance hmem
    exact Grammar.advance_mem_items hbefore
  · -- The lookahead comes from one of the canonical states that the kernel stands for.
    rw [hfollow] at hentry
    obtain ⟨before, hfollows, hbefore, hentry⟩ := hentry
    obtain ⟨state, ⟨hstate, hkernel⟩, hfollows⟩ := hfollows.exists_of_cover
      {state | g.IsCanonical state ∧ state.kernel = kernel.items}
      h.isKernel.exists_isCanonical fun entry hentry => by
        obtain ⟨state, hstate, hkernel, hmem⟩ := h.canonical entry hentry
        exact ⟨state, ⟨hstate, hkernel⟩, hmem⟩
    rw [← hkernel] at hitems hfollows
    refine ⟨state.goto g symbol, .goto hstate ?_, hitems.symm, before, hfollows, hbefore, hentry⟩
    rw [← hitems]
    exact hsome

/-- There are no more kernels than sets of items. -/
theorem le_two_pow {n : Nat} {kernels : Nat → Kernel} (hgenuine : ∀ s < n, (kernels s).Genuine g)
    (hdistinct : ∀ s < n, ∀ t < n, (kernels s).core = (kernels t).core → s = t) :
    n ≤ 2 ^ Automaton.itemCount g := by
  have hinjective : Set.InjOn (fun s => (kernels s).core.toFinset) (Finset.range n) := by
    intro s hs t ht heq
    have hs' := hgenuine s (Finset.mem_range.1 hs)
    have ht' := hgenuine t (Finset.mem_range.1 ht)
    refine hdistinct s (Finset.mem_range.1 hs) t (Finset.mem_range.1 ht) ?_
    refine core_eq_of_items_eq hs'.sorted hs'.nodup ht'.sorted ht'.nodup (Set.ext fun item => ?_)
    have hmem : item ∈ (kernels s).core ↔ item ∈ (kernels t).core := by
      simpa using Finset.ext_iff.1 heq item
    exact hmem
  have hmaps : Set.MapsTo (fun s => (kernels s).core.toFinset) (Finset.range n)
      g.items.toFinset.powerset := by
    intro s hs
    refine Finset.mem_powerset.2 fun item hitem => ?_
    exact List.mem_toFinset.2
      ((hgenuine s (Finset.mem_range.1 hs)).fits item (List.mem_toFinset.1 hitem))
  calc n = (Finset.range n).card := (Finset.card_range n).symm
    _ ≤ g.items.toFinset.powerset.card := Finset.card_le_card_of_injOn _ hmaps hinjective
    _ = 2 ^ g.items.toFinset.card := Finset.card_powerset _
    _ ≤ 2 ^ Automaton.itemCount g :=
      Nat.pow_le_pow_right (by decide) (g.length_items ▸ List.toFinset_card_le g.items)

end Kernel
end SqlTree
