import Mathlib.Data.List.Nodup
import SqlTree.Proofs.Automaton
import SqlTree.Proofs.Canonical

/-!
# Closures are exact

Every task that is followed up lowers a potential: what is pending, and what can still be added to the
nonterminals that productions begin. So nothing is pending in the end, and then the closure of a kernel
is the one of the canonical automaton.

- `Begun.follows_add`      : what adding to a nonterminal does
- `Closure.potential`      : an upper bound for the tasks to come
- `Closure.Progress`       : each item is satisfied, or it is pending
- `Closure.close_spec`     : in the end nothing is pending
- `Closure.items_ofKernel`, `Closure.follow_ofKernel` : the items of a closure and their lookaheads
-/

namespace SqlTree

/-! ## Kernels as sets -/

namespace Kernel

def items (kernel : Kernel) : Set Item := {item | item ∈ kernel.core}

/-- The terminals that may follow the production of each item. -/
def follow (kernel : Kernel) : Set (Item × Kind) :=
  {entry | ∃ lookahead, (entry.1, lookahead) ∈ kernel ∧ lookahead.contains entry.2 = true}

theorem mem_items_of_mem_follow {kernel : Kernel} {entry : Item × Kind}
    (h : entry ∈ kernel.follow) : entry.1 ∈ kernel.items := by
  obtain ⟨lookahead, hmem, -⟩ := h
  exact List.mem_map.2 ⟨_, hmem, rfl⟩

/-- Items without repetition, of which something has been read unless they begin the start rule. -/
structure Proper (kernel : Kernel) : Prop where
  nodup : kernel.core.Nodup
  read : ∀ item ∈ kernel.core, 0 < item.mark ∨ item = Item.opening Grammar.acceptProduction
  lookaheads : ∀ entry ∈ kernel, entry.2.Proper

/-- An item has one lookahead set. -/
theorem eq_of_mem {kernel : Kernel} {item : Item} {s t : TerminalSet} (h : kernel.core.Nodup)
    (hs : (item, s) ∈ kernel) (ht : (item, t) ∈ kernel) : s = t := by
  have heq := List.inj_on_of_nodup_map h hs ht rfl
  exact congrArg Prod.snd heq

theorem mem_follow_iff {kernel : Kernel} {item : Item} {s : TerminalSet} {kind : Kind}
    (h : kernel.core.Nodup) (hs : (item, s) ∈ kernel) :
    (item, kind) ∈ kernel.follow ↔ s.contains kind = true := by
  constructor
  · rintro ⟨t, ht, hkind⟩
    rwa [eq_of_mem h hs ht]
  · exact fun hkind => ⟨s, hs, hkind⟩

end Kernel

/-! ## Adding to a nonterminal -/

namespace Begun

variable {n i : Nat} {b : Begun} {follow : TerminalSet}

/-- The nonterminal has been begun. -/
def Has (b : Begun) (i : Nat) : Prop := (b.follows.getD i .none).isSome = true

/-- Something is known about each of `n` nonterminals. -/
structure Fits (n : Nat) (b : Begun) : Prop where
  size : b.follows.size = n
  mem_order : ∀ i, i ∈ b.order.toList ↔ b.Has i
  nodup : b.order.toList.Nodup
  proper : ∀ i, (b.follow i).Proper

theorem follows_none (n i : Nat) : (none n).follows.getD i .none = .none := by
  simp only [none, Array.getD_eq_getD_getElem?, Array.getElem?_replicate]
  split <;> rfl

theorem Fits.none (n : Nat) : (none n).Fits n where
  size := Array.size_replicate
  mem_order i := by
    rw [Has, follows_none]
    simp [Begun.none]
  nodup := by simp [Begun.none]
  proper i := by
    rw [Begun.follow, follows_none]
    exact TerminalSet.proper_empty

theorem union_empty (follow : TerminalSet) : TerminalSet.empty.union follow = follow := by
  simp [TerminalSet.union, TerminalSet.empty]

/-- Adding to a nonterminal begins it, and changes nothing else. -/
theorem follows_add (h : b.Fits n) (hi : i < n) (follow : TerminalSet) (k : Nat) :
    (b.add i follow).1.follows.getD k .none =
      if k = i then some ((b.follow i).union follow) else b.follows.getD k .none := by
  have hset (s : TerminalSet) : (b.follows.setIfInBounds i (some s)).getD k .none =
      if k = i then some s else b.follows.getD k .none := by
    rw [Array.getD_eq_getD_getElem?, Array.getElem?_setIfInBounds, Array.getD_eq_getD_getElem?]
    by_cases hk : k = i
    · subst hk
      simp [h.size, hi]
    · simp [hk, Ne.symm hk]
  unfold add
  cases hknown : b.follows.getD i .none with
  | none => simp only [hset, Begun.follow, hknown, Option.getD_none, union_empty]
  | some known =>
    simp only [Begun.follow, hknown, Option.getD_some]
    split
    · rename_i hsame
      split
      · rename_i hk
        rw [hk, hknown, hsame]
      · rfl
    · exact hset _

theorem has_add (h : b.Fits n) (hi : i < n) (follow : TerminalSet) (k : Nat) :
    (b.add i follow).1.Has k ↔ k = i ∨ b.Has k := by
  rw [Has, follows_add h hi]
  by_cases hk : k = i <;> simp [hk, Has]

theorem follow_add (h : b.Fits n) (hi : i < n) (follow : TerminalSet) (k : Nat) :
    (b.add i follow).1.follow k =
      if k = i then (b.follow i).union follow else b.follow k := by
  rw [Begun.follow, follows_add h hi]
  split <;> rfl

theorem order_add (b : Begun) (i : Nat) (follow : TerminalSet) :
    (b.add i follow).1.order.toList =
      if b.follows.getD i .none = .none then b.order.toList ++ [i] else b.order.toList := by
  unfold add
  cases hknown : b.follows.getD i .none with
  | none => simp
  | some known =>
    simp only [reduceCtorEq, if_false]
    split <;> rfl

theorem Fits.add (h : b.Fits n) (hi : i < n) (hfollow : follow.Proper) :
    (b.add i follow).1.Fits n where
  size := by
    rw [← h.size]
    unfold Begun.add
    split
    · exact Array.size_setIfInBounds
    · dsimp only
      split
      · rfl
      · exact Array.size_setIfInBounds
  mem_order k := by
    rw [has_add h hi, order_add]
    split
    · rw [List.mem_append, List.mem_singleton, h.mem_order]
      exact or_comm
    · rename_i hsome
      have hhas : b.Has i := Option.isSome_iff_ne_none.2 hsome
      rw [h.mem_order]
      constructor
      · exact Or.inr
      · rintro (rfl | hk)
        · exact hhas
        · exact hk
  nodup := by
    rw [order_add]
    split
    · rename_i hnone
      refine List.nodup_append.2 ⟨h.nodup, List.nodup_singleton i, fun a ha b hb => ?_⟩
      rintro rfl
      have hhas := (h.mem_order a).1 ha
      rw [List.mem_singleton.1 hb, Has, hnone] at hhas
      cases hhas
    · exact h.nodup
  proper k := by
    rw [follow_add h hi]
    split
    · exact (h.proper i).union hfollow
    · exact h.proper k

/-- If nothing is new, nothing changes. -/
theorem add_of_not_grew (h : (b.add i follow).2 = false) : (b.add i follow).1 = b := by
  unfold add at h ⊢
  split
  · rename_i hknown
    simp [hknown] at h
  · rename_i known hknown
    simp only [hknown] at h
    dsimp only
    split
    · rfl
    · rename_i hne
      rw [if_neg hne] at h
      cases h

/-- What can still be added to a nonterminal. -/
def room (b : Begun) (i : Nat) : Nat :=
  match b.follows.getD i .none with
  | .none => Kind.count + 1
  | some known => Kind.count - known.card

theorem room_le (b : Begun) (i : Nat) : b.room i ≤ Kind.count + 1 := by
  unfold room
  split
  · exact Nat.le_refl _
  · omega

theorem room_add (h : b.Fits n) (hi : i < n) (hfollow : follow.Proper)
    (hgrew : (b.add i follow).2 = true) (k : Nat) :
    (b.add i follow).1.room k + (if k = i then 1 else 0) ≤ b.room k := by
  by_cases hk : k = i
  · subst hk
    have hcard := ((b.follow k).union follow).card_le
    rw [room, follows_add h hi, if_pos rfl, if_pos rfl, room]
    cases hknown : b.follows.getD k .none with
    | none =>
      simp only
      omega
    | some known =>
      have hsame : b.follow k = known := by rw [Begun.follow, hknown, Option.getD_some]
      rw [hsame] at hcard ⊢
      have hne : known.union follow ≠ known := by
        intro hsame
        simp [add, hknown, hsame] at hgrew
      have hlt := TerminalSet.card_lt_card_union (hsame ▸ h.proper k) hfollow hne
      simp only
      omega
  · rw [room, follows_add h hi, if_neg hk, if_neg hk, room]
    exact Nat.le_refl _

end Begun

/-! ## Tasks -/

namespace Closure

variable {g : Grammar} {kernel : Kernel} {begun : Begun} {pending : List Task} {task : Task}
  {i p : Nat} {after : List Symbol} {lookahead : TerminalSet} {production : Production}

@[simp]
theorem grammar_ofGrammar (g : Grammar) : (Setting.ofGrammar g).grammar = g := rfl

@[simp]
theorem first_ofGrammar (g : Grammar) : (Setting.ofGrammar g).first = First.ofGrammar g := rfl

theorem openings_ofGrammar (hi : i < g.nonterminals.size) :
    (Setting.ofGrammar g).openings.getD i [] = g.productionsOf i := by
  simp [Setting.ofGrammar, Array.getD_eq_getD_getElem?, hi]

theorem mem_productionsOf_iff : p ∈ g.productionsOf i ↔
    ∃ production, g.productions[p]? = some production ∧ production.lhs = i := by
  refine ⟨mem_productionsOf, ?_⟩
  rintro ⟨production, hp, hlhs⟩
  obtain ⟨hlt, -⟩ := Array.getElem?_eq_some_iff.1 hp
  refine List.mem_filter.2 ⟨List.mem_range.2 hlt, ?_⟩
  rw [hp, Option.any_some, hlhs, beq_self_eq_true]

theorem foldl_opening (ps : List Nat) (pending : List Task) :
    ps.foldl (fun pending p => .opening p :: pending) pending =
      (ps.map Task.opening).reverse ++ pending := by
  induction ps generalizing pending with
  | nil => rfl
  | cons p ps ih => simp [ih]

/-- A task follows up an item under way. -/
def Task.Valid (g : Grammar) (kernel : Kernel) : Task → Prop
  | .kernel rest lookahead => ∃ item, (item, lookahead) ∈ kernel ∧ item.rest g = rest
  | .opening p => g.Closed kernel.items (Item.opening p)

/-- What a task asks for has been begun, with all that may follow it. -/
def Task.Satisfied (g : Grammar) (begun : Begun) (task : Task) : Prop :=
  ∀ i after lookahead, task.outlook g begun = (.nonterminal i :: after, lookahead) →
    begun.Has i ∧ ∀ kind, ((First.ofGrammar g).ofSequence lookahead after).contains kind = true →
      (begun.follow i).contains kind = true

/-- An upper bound for the number of tasks to come. -/
def potential (g : Grammar) (begun : Begun) (pending : List Task) : Nat :=
  pending.length + ((List.range g.productions.size).map fun p =>
    (g.productions[p]?).elim 0 fun production => begun.room production.lhs).sum

theorem potential_le (g : Grammar) (begun : Begun) (pending : List Task) :
    potential g begun pending ≤ pending.length + g.productions.size * (Kind.count + 1) := by
  have hsum := sum_le_length_mul (List.range g.productions.size) (f := fun p =>
      (g.productions[p]?).elim 0 fun production => begun.room production.lhs)
    (n := Kind.count + 1) fun p _ => by
      cases g.productions[p]? with
      | none => exact Nat.zero_le _
      | some production => exact begun.room_le production.lhs
  rw [List.length_range] at hsum
  exact Nat.add_le_add_left hsum _

/-- To begin a nonterminal, or to add to it, costs more than it makes pending. -/
theorem potential_add (pending : List Task) (h : begun.Fits g.nonterminals.size) (hi : i < g.nonterminals.size)
    {follow : TerminalSet} (hfollow : follow.Proper) (hgrew : (begun.add i follow).2 = true) :
    potential g (begun.add i follow).1
        (((Setting.ofGrammar g).openings.getD i []).foldl (fun pending p => .opening p :: pending)
          pending) ≤
      potential g begun pending := by
  have hsum := sum_add_countP_le (List.range g.productions.size)
    (f := fun p => (g.productions[p]?).elim 0 fun production =>
      (begun.add i follow).1.room production.lhs)
    (g := fun p => (g.productions[p]?).elim 0 fun production => begun.room production.lhs)
    (q := fun p => (g.productions[p]?).any fun production => production.lhs == i)
    fun p _ => by
      cases g.productions[p]? with
      | none => simp
      | some production => simpa using Begun.room_add h hi hfollow hgrew production.lhs
  rw [openings_ofGrammar hi, foldl_opening]
  have hlength : (g.productionsOf i).length = (List.range g.productions.size).countP fun p =>
      (g.productions[p]?).any fun production => production.lhs == i := by
    rw [List.countP_eq_length_filter, Grammar.productionsOf]
  simp only [potential, List.length_append, List.length_reverse, List.length_map]
  omega

/-! ## Progress -/

/-- All that was begun belongs to the closure, and each task that belongs to it is satisfied or
pending. -/
structure Progress (g : Grammar) (kernel : Kernel) (begun : Begun) (pending : List Task) :
    Prop where
  fits : begun.Fits g.nonterminals.size
  valid : ∀ task ∈ pending, task.Valid g kernel
  asked : ∀ i, begun.Has i → ∃ item after, g.Closed kernel.items item ∧
    item.rest g = .nonterminal i :: after
  sound : ∀ p production kind, g.productions[p]? = some production →
    (begun.follow production.lhs).contains kind = true →
      g.Follows kernel.items kernel.follow (Item.opening p) kind
  kernel : ∀ entry ∈ kernel, Task.kernel (entry.1.rest g) entry.2 ∈ pending ∨
    (Task.kernel (entry.1.rest g) entry.2).Satisfied g begun
  opening : ∀ p production, g.productions[p]? = some production → begun.Has production.lhs →
    Task.opening p ∈ pending ∨ (Task.opening p).Satisfied g begun

/-- The item that a task follows up. -/
theorem Progress.exists_item (h : Progress g kernel begun pending) (htask : task.Valid g kernel)
    (houtlook : task.outlook g begun = (.nonterminal i :: after, lookahead)) :
    ∃ item, g.Closed kernel.items item ∧ item.rest g = .nonterminal i :: after ∧
      ∀ kind, lookahead.contains kind = true →
        g.Follows kernel.items kernel.follow item kind := by
  cases task with
  | kernel rest follow =>
    obtain ⟨item, hmem, hrest⟩ := htask
    cases houtlook
    exact ⟨item, .kernel (List.mem_map.2 ⟨_, hmem, rfl⟩), hrest,
      fun kind hkind => .kernel ⟨_, hmem, hkind⟩⟩
  | opening p =>
    simp only [Task.outlook] at houtlook
    split at houtlook
    · rename_i production hp
      obtain ⟨hrhs, rfl⟩ := Prod.mk.inj houtlook
      refine ⟨Item.opening p, htask, ?_, fun kind hkind => h.sound p production kind hp hkind⟩
      simpa [Item.rest, Item.opening, hp] using hrhs
    · cases houtlook

theorem Task.proper_outlook (h : begun.Fits g.nonterminals.size) (hkernel : kernel.Proper)
    (htask : task.Valid g kernel) : (task.outlook g begun).2.Proper := by
  cases task with
  | kernel rest follow =>
    obtain ⟨item, hmem, -⟩ := htask
    exact hkernel.lookaheads _ hmem
  | opening p =>
    simp only [Task.outlook]
    split
    · exact h.proper _
    · exact TerminalSet.proper_empty

/-- A satisfied task stays satisfied while its own lookahead stays. -/
theorem Task.Satisfied.add {follow : TerminalSet} (h : task.Satisfied g begun)
    (hfits : begun.Fits g.nonterminals.size) (hi : i < g.nonterminals.size)
    (hsame : task.outlook g (begun.add i follow).1 = task.outlook g begun) :
    task.Satisfied g (begun.add i follow).1 := by
  intro k after lookahead houtlook
  rw [hsame] at houtlook
  obtain ⟨hhas, hcontains⟩ := h k after lookahead houtlook
  refine ⟨(Begun.has_add hfits hi _ k).2 (Or.inr hhas), fun kind hkind => ?_⟩
  rw [Begun.follow_add hfits hi]
  split
  · rename_i hk
    rw [TerminalSet.contains_union, ← hk, hcontains kind hkind, Bool.true_or]
  · exact hcontains kind hkind

/-- A task is satisfied once it has been followed up, unless it changes its own lookahead. -/
theorem Task.satisfied_add (h : begun.Fits g.nonterminals.size) (hi : i < g.nonterminals.size)
    (houtlook : task.outlook g begun = (.nonterminal i :: after, lookahead))
    (hsame : task.outlook g (begun.add i ((First.ofGrammar g).ofSequence lookahead after)).1 =
      task.outlook g begun) :
    task.Satisfied g (begun.add i ((First.ofGrammar g).ofSequence lookahead after)).1 := by
  intro k rest follow hother
  rw [hsame, houtlook] at hother
  cases hother
  refine ⟨(Begun.has_add h hi _ i).2 (Or.inl rfl), fun kind hkind => ?_⟩
  rw [Begun.follow_add h hi, if_pos rfl, TerminalSet.contains_union, hkind, Bool.or_true]

/-- A task that asks for nothing, or for what is there, is done. -/
theorem Progress.drop (h : Progress g kernel begun (task :: pending))
    (hsatisfied : task.Satisfied g begun) : Progress g kernel begun pending := by
  have hkept {other : Task} (hother : other ∈ task :: pending ∨ other.Satisfied g begun) :
      other ∈ pending ∨ other.Satisfied g begun := by
    rcases hother with hmem | hdone
    · rcases List.mem_cons.1 hmem with rfl | hmem
      · exact Or.inr hsatisfied
      · exact Or.inl hmem
    · exact Or.inr hdone
  exact ⟨h.fits, fun other hother => h.valid other (List.mem_cons_of_mem _ hother), h.asked, h.sound,
    fun entry hentry => hkept (h.kernel entry hentry),
    fun p production hp hhas => hkept (h.opening p production hp hhas)⟩

theorem outlook_opening_add {follow : TerminalSet} (h : begun.Fits g.nonterminals.size)
    (hi : i < g.nonterminals.size) (hp : g.productions[p]? = some production)
    (hlhs : production.lhs ≠ i) :
    (Task.opening p).outlook g (begun.add i follow).1 = (Task.opening p).outlook g begun := by
  simp only [Task.outlook, hp]
  rw [Begun.follow_add h hi, if_neg hlhs]

/-- A task that begins a nonterminal, or adds to it, makes the productions of that nonterminal
pending. -/
theorem Progress.add (h : Progress g kernel begun (task :: pending)) (hg : g.WellFormed)
    (hi : i < g.nonterminals.size) (hproper : lookahead.Proper)
    (houtlook : task.outlook g begun = (.nonterminal i :: after, lookahead)) :
    Progress g kernel
      (begun.add i ((First.ofGrammar g).ofSequence lookahead after)).1
      (((Setting.ofGrammar g).openings.getD i []).foldl (fun pending p => .opening p :: pending)
        pending) := by
  obtain ⟨item, hclosed, hrest, hlookahead⟩ :=
    h.exists_item (h.valid task List.mem_cons_self) houtlook
  have hfits := h.fits
  rw [openings_ofGrammar hi, foldl_opening]
  have hpending {other : Task} (hother : other ∈ pending) :
      other ∈ ((g.productionsOf i).map Task.opening).reverse ++ pending :=
    List.mem_append_right _ hother
  have hopening {p : Nat} {production : Production} (hp : g.productions[p]? = some production)
      (hlhs : production.lhs = i) :
      Task.opening p ∈ ((g.productionsOf i).map Task.opening).reverse ++ pending := by
    refine List.mem_append_left _ (List.mem_reverse.2 (List.mem_map_of_mem ?_))
    exact mem_productionsOf_iff.2 ⟨production, hp, hlhs⟩
  have hkept {other : Task} (hother : other ∈ task :: pending ∨ other.Satisfied g begun)
      (hsame : other.outlook g (begun.add i ((First.ofGrammar g).ofSequence lookahead
        after)).1 = other.outlook g begun) :
      other ∈ ((g.productionsOf i).map Task.opening).reverse ++ pending ∨
        other.Satisfied g (begun.add i ((First.ofGrammar g).ofSequence lookahead after)).1 := by
    rcases hother with hmem | hdone
    · rcases List.mem_cons.1 hmem with rfl | hmem
      · exact Or.inr (Task.satisfied_add hfits hi houtlook hsame)
      · exact Or.inl (hpending hmem)
    · exact Or.inr (hdone.add hfits hi hsame)
  refine ⟨hfits.add hi ((First.absorb_ofGrammar hg).1.ofSequence hproper after), ?_, ?_, ?_, ?_, ?_⟩
  · intro other hother
    rcases List.mem_append.1 hother with hother | hother
    · obtain ⟨p, hmem, rfl⟩ := List.mem_map.1 (List.mem_reverse.1 hother)
      obtain ⟨production, hp, rfl⟩ := mem_productionsOf hmem
      exact .opening hclosed hp hrest
    · exact h.valid other (List.mem_cons_of_mem _ hother)
  · intro k hk
    rcases (Begun.has_add hfits hi _ k).1 hk with rfl | hk
    · exact ⟨item, after, hclosed, hrest⟩
    · exact h.asked k hk
  · intro p production kind hp hkind
    rw [Begun.follow_add hfits hi] at hkind
    split at hkind
    · rename_i hlhs
      rw [TerminalSet.contains_union, Bool.or_eq_true,
        First.contains_ofSequence_ofGrammar hg] at hkind
      rw [← hlhs] at hrest
      rcases hkind with hkind | hbegins | ⟨hvanishes, hkind⟩
      · exact h.sound p production kind hp (hlhs ▸ hkind)
      · exact .begins hclosed hp hrest hbegins
      · exact .vanishes (hlookahead kind hkind) hp hrest hvanishes
    · exact h.sound p production kind hp hkind
  · intro entry hentry
    exact hkept (h.kernel entry hentry) rfl
  · -- Only the productions of this nonterminal see another lookahead, and these are pending again.
    intro p production hp hhas
    by_cases hlhs : production.lhs = i
    · exact Or.inl (hopening hp hlhs)
    · have hold : begun.Has production.lhs :=
        ((Begun.has_add hfits hi _ _).1 hhas).resolve_left hlhs
      exact hkept (h.opening p production hp hold) (outlook_opening_add hfits hi hp hlhs)

theorem close_of_grew (fuel : Nat)
    (houtlook : task.outlook g begun = (.nonterminal i :: after, lookahead))
    (hgrew : (begun.add i ((First.ofGrammar g).ofSequence lookahead after)).2 = true) :
    close (Setting.ofGrammar g) (fuel + 1) begun (task :: pending) =
      close (Setting.ofGrammar g) fuel
        (begun.add i ((First.ofGrammar g).ofSequence lookahead after)).1
        (((Setting.ofGrammar g).openings.getD i []).foldl (fun pending p => .opening p :: pending)
          pending) := by
  simp only [close, grammar_ofGrammar, houtlook]
  exact if_pos hgrew

theorem close_of_not_grew (fuel : Nat)
    (houtlook : task.outlook g begun = (.nonterminal i :: after, lookahead))
    (hgrew : (begun.add i ((First.ofGrammar g).ofSequence lookahead after)).2 = false) :
    close (Setting.ofGrammar g) (fuel + 1) begun (task :: pending) =
      close (Setting.ofGrammar g) fuel begun pending := by
  simp only [close, grammar_ofGrammar, houtlook]
  refine (if_neg (Bool.eq_false_iff.1 hgrew)).trans ?_
  rw [first_ofGrammar, Begun.add_of_not_grew hgrew]

theorem close_of_none (fuel : Nat)
    (h : ∀ i after lookahead, task.outlook g begun ≠ (.nonterminal i :: after, lookahead)) :
    close (Setting.ofGrammar g) (fuel + 1) begun (task :: pending) =
      close (Setting.ofGrammar g) fuel begun pending := by
  rw [close]
  split
  · rename_i i after lookahead houtlook
    exact absurd houtlook (h i after lookahead)
  · rfl

/-- With enough fuel nothing is pending in the end, and more fuel changes nothing. -/
theorem close_spec {fuel : Nat} (hg : g.WellFormed) (hkernel : kernel.Proper)
    (h : Progress g kernel begun pending) (hfuel : potential g begun pending ≤ fuel) :
    Progress g kernel (close (Setting.ofGrammar g) fuel begun pending) [] ∧
      ∀ more, close (Setting.ofGrammar g) (fuel + more) begun pending =
        close (Setting.ofGrammar g) fuel begun pending := by
  induction fuel generalizing begun pending with
  | zero =>
    cases pending with
    | nil => exact ⟨h, fun more => by cases more <;> rfl⟩
    | cons task pending => simp [potential] at hfuel
  | succ fuel ih =>
    cases pending with
    | nil => exact ⟨h, fun more => by rw [Nat.succ_add]; rfl⟩
    | cons task pending =>
      have hvalid := h.valid task List.mem_cons_self
      have hless : potential g begun pending + 1 = potential g begun (task :: pending) := by
        simp only [potential, List.length_cons]
        omega
      by_cases hasks : ∃ i after lookahead,
          task.outlook g begun = (.nonterminal i :: after, lookahead)
      · obtain ⟨i, after, lookahead, houtlook⟩ := hasks
        obtain ⟨item, -, hrest, -⟩ := h.exists_item hvalid houtlook
        obtain ⟨production, hp, hmem, -⟩ := Grammar.exists_of_rest_eq_cons hrest
        have hi := hg.lt_of_mem_rhs hp hmem
        have hproper : lookahead.Proper := by
          have houtlook' := Task.proper_outlook h.fits hkernel hvalid
          rwa [houtlook] at houtlook'
        have hsequence := (First.absorb_ofGrammar hg).1.ofSequence hproper after
        -- What is new pays for the tasks that it makes pending; a task that adds nothing is done.
        cases hgrew : (begun.add i ((First.ofGrammar g).ofSequence lookahead after)).2 with
        | true =>
          have hpotential := potential_add pending h.fits hi hsequence hgrew
          simp only [Nat.succ_add, close_of_grew _ houtlook hgrew]
          exact ih (h.add hg hi hproper houtlook) (by omega)
        | false =>
          have hadd := Begun.add_of_not_grew hgrew
          have hsatisfied := Task.satisfied_add h.fits hi houtlook (by rw [hadd])
          rw [hadd] at hsatisfied
          simp only [Nat.succ_add, close_of_not_grew _ houtlook hgrew]
          exact ih (h.drop hsatisfied) (by omega)
      · -- A task in front of a terminal or of nothing asks for no nonterminal.
        have hnone : ∀ i after lookahead,
            task.outlook g begun ≠ (.nonterminal i :: after, lookahead) :=
          fun i after lookahead houtlook => hasks ⟨i, after, lookahead, houtlook⟩
        simp only [Nat.succ_add, close_of_none _ hnone]
        exact ih (h.drop fun i after lookahead houtlook => absurd houtlook (hnone i after lookahead))
          (by omega)

/-! ## Closures of kernels -/

/-- The tasks with which a closure begins. -/
def tasks (g : Grammar) (kernel : Kernel) : List Task :=
  (kernel.map fun entry => Task.kernel (entry.1.rest g) entry.2).reverse

theorem Progress.initial (g : Grammar) (kernel : Kernel) :
    Progress g kernel (Begun.none g.nonterminals.size) (tasks g kernel) where
  fits := .none _
  valid task htask := by
    obtain ⟨⟨item, lookahead⟩, hmem, rfl⟩ := List.mem_map.1 (List.mem_reverse.1 htask)
    exact ⟨item, hmem, rfl⟩
  asked i hi := by
    rw [Begun.Has, Begun.follows_none] at hi
    cases hi
  sound p production kind _ hkind := by
    rw [Begun.follow, Begun.follows_none] at hkind
    simp at hkind
  kernel entry hentry := Or.inl (List.mem_reverse.2 (List.mem_map.2 ⟨entry, hentry, rfl⟩))
  opening p production _ hhas := by
    rw [Begun.Has, Begun.follows_none] at hhas
    cases hhas

/-- The fuel of a closure is enough. -/
theorem begun_spec (hg : g.WellFormed) (hkernel : kernel.Proper) :
    Progress g kernel (Closure.begun (Setting.ofGrammar g) kernel) [] ∧
      ∀ more, close (Setting.ofGrammar g)
          ((kernel.length + g.productions.size) * (Kind.count + 2) + more)
          (Begun.none g.nonterminals.size) (tasks g kernel) =
        Closure.begun (Setting.ofGrammar g) kernel := by
  refine close_spec hg hkernel (.initial g kernel) ?_
  have hle := potential_le g (Begun.none g.nonterminals.size) (tasks g kernel)
  have hlength : (tasks g kernel).length = kernel.length := by simp [tasks]
  rw [hlength] at hle
  calc _ ≤ kernel.length + g.productions.size * (Kind.count + 1) := hle
    _ ≤ kernel.length * (Kind.count + 2) + g.productions.size * (Kind.count + 2) :=
      Nat.add_le_add (Nat.le_mul_of_pos_right _ (by omega)) (Nat.mul_le_mul_left _ (by omega))
    _ = _ := (Nat.add_mul _ _ _).symm

theorem mem_ofKernel {item : Item} (hg : g.WellFormed) (hkernel : kernel.Proper) :
    (item, lookahead) ∈ ofKernel (Setting.ofGrammar g) kernel ↔
      (item, lookahead) ∈ kernel ∨ ∃ p production, g.productions[p]? = some production ∧
        (Closure.begun (Setting.ofGrammar g) kernel).Has production.lhs ∧
        item = Item.opening p ∧
        lookahead = (Closure.begun (Setting.ofGrammar g) kernel).follow production.lhs := by
  have hprogress := (begun_spec hg hkernel).1
  rw [ofKernel, List.mem_append]
  refine or_congr_right ⟨fun h => ?_, ?_⟩
  · obtain ⟨i, hi, h⟩ := List.mem_flatMap.1 h
    obtain ⟨p, hp, heq⟩ := List.mem_map.1 h
    cases heq
    obtain ⟨production, hproduction, rfl⟩ := mem_openings hp
    exact ⟨p, production, hproduction, (hprogress.fits.mem_order _).1 hi, rfl, rfl⟩
  · rintro ⟨p, production, hp, hhas, rfl, hlookahead⟩
    rw [hlookahead]
    refine List.mem_flatMap.2 ⟨production.lhs, (hprogress.fits.mem_order _).2 hhas, ?_⟩
    refine List.mem_map.2 ⟨p, ?_, rfl⟩
    rw [openings_ofGrammar (hg.lhs_lt hp)]
    exact mem_productionsOf_iff.2 ⟨production, hp, rfl⟩

/-- What an item of a closure asks for has been begun. -/
theorem satisfied_of_mem_ofKernel {item : Item} (hg : g.WellFormed) (hkernel : kernel.Proper)
    (hmem : (item, lookahead) ∈ ofKernel (Setting.ofGrammar g) kernel)
    (hrest : item.rest g = .nonterminal i :: after) :
    (Closure.begun (Setting.ofGrammar g) kernel).Has i ∧
      ∀ kind, ((First.ofGrammar g).ofSequence lookahead after).contains kind = true →
        ((Closure.begun (Setting.ofGrammar g) kernel).follow i).contains kind = true := by
  have hprogress := (begun_spec hg hkernel).1
  rcases (mem_ofKernel hg hkernel).1 hmem with hmem | ⟨p, production, hp, hhas, rfl, hlookahead⟩
  · have hdone := (hprogress.kernel _ hmem).resolve_left (by simp)
    exact hdone i after lookahead (by rw [Task.outlook, hrest])
  · have hdone := (hprogress.opening p production hp hhas).resolve_left (by simp)
    refine hdone i after lookahead ?_
    simp only [Item.rest, Item.opening, hp, List.drop_zero] at hrest
    simp only [Task.outlook, hp, hrest, hlookahead]

/-- The closure of a kernel holds the items under way. -/
theorem items_ofKernel (hg : g.WellFormed) (hkernel : kernel.Proper) :
    (ofKernel (Setting.ofGrammar g) kernel).items = {item | g.Closed kernel.items item} := by
  ext item
  constructor
  · intro h
    obtain ⟨⟨item, lookahead⟩, hmem, rfl⟩ := List.mem_map.1 h
    rcases (mem_ofKernel hg hkernel).1 hmem with hmem | ⟨p, production, hp, hhas, rfl, -⟩
    · exact .kernel (List.mem_map.2 ⟨_, hmem, rfl⟩)
    · obtain ⟨item, after, hclosed, hrest⟩ := (begun_spec hg hkernel).1.asked _ hhas
      exact .opening hclosed hp hrest
  · intro h
    refine List.mem_map.2 ?_
    induction h with
    | kernel h =>
      obtain ⟨entry, hmem, rfl⟩ := List.mem_map.1 h
      exact ⟨entry, (mem_ofKernel hg hkernel).2 (Or.inl hmem), rfl⟩
    | opening _ hp hrest ih =>
      obtain ⟨⟨item, lookahead⟩, hmem, rfl⟩ := ih
      have hhas := (satisfied_of_mem_ofKernel hg hkernel hmem hrest).1
      exact ⟨(_, _), (mem_ofKernel hg hkernel).2 (Or.inr ⟨_, _, hp, hhas, rfl, rfl⟩), rfl⟩

/-- The closure of a kernel holds the lookaheads of the items under way. -/
theorem follow_ofKernel (hg : g.WellFormed) (hkernel : kernel.Proper) :
    (ofKernel (Setting.ofGrammar g) kernel).follow =
      {entry | g.Follows kernel.items kernel.follow entry.1 entry.2} := by
  ext ⟨item, kind⟩
  constructor
  · rintro ⟨lookahead, hmem, hkind⟩
    rcases (mem_ofKernel hg hkernel).1 hmem with hmem | ⟨p, production, hp, hhas, heq, hlookahead⟩
    · exact .kernel ⟨lookahead, hmem, hkind⟩
    · dsimp only at heq hkind
      subst heq
      rw [hlookahead] at hkind
      exact (begun_spec hg hkernel).1.sound p production kind hp hkind
  · intro (h : g.Follows kernel.items kernel.follow item kind)
    -- What an item under way makes a begun production be followed by is in the closure.
    have hopening {item : Item} {lookahead : TerminalSet} {kind : Kind} {p : Nat}
        {after : List Symbol} {production : Production}
        (hmem : (item, lookahead) ∈ ofKernel (Setting.ofGrammar g) kernel)
        (hp : g.productions[p]? = some production)
        (hrest : item.rest g = .nonterminal production.lhs :: after)
        (hkind : g.BeginsWith after kind ∨ (g.Vanishes after ∧ lookahead.contains kind = true)) :
        (Item.opening p, kind) ∈ (ofKernel (Setting.ofGrammar g) kernel).follow := by
      obtain ⟨hhas, hcontains⟩ := satisfied_of_mem_ofKernel hg hkernel hmem hrest
      exact ⟨_, (mem_ofKernel hg hkernel).2 (Or.inr ⟨p, production, hp, hhas, rfl, rfl⟩),
        hcontains kind ((First.contains_ofSequence_ofGrammar hg _ _ _).2 hkind)⟩
    induction h with
    | kernel h =>
      obtain ⟨lookahead, hmem, hkind⟩ := h
      exact ⟨lookahead, (mem_ofKernel hg hkernel).2 (Or.inl hmem), hkind⟩
    | @begins item kind p after production h hp hrest hbegins =>
      have hitem : item ∈ (ofKernel (Setting.ofGrammar g) kernel).items := by
        rw [items_ofKernel hg hkernel]
        exact h
      obtain ⟨⟨item, lookahead⟩, hmem, rfl⟩ := List.mem_map.1 hitem
      exact hopening hmem hp hrest (Or.inl hbegins)
    | vanishes _ hp hrest hvanishes ih =>
      obtain ⟨lookahead, hmem, hkind⟩ := ih
      exact hopening hmem hp hrest (Or.inr ⟨hvanishes, hkind⟩)

/-- A nonterminal that is begun is not the start symbol, so its productions are none of the kernel's
items. -/
theorem opening_notMem_core (hg : g.WellFormed) (hkernel : kernel.Proper)
    (hp : g.productions[p]? = some production)
    (hhas : (Closure.begun (Setting.ofGrammar g) kernel).Has production.lhs) :
    Item.opening p ∉ kernel.core := by
  intro hmem
  rcases hkernel.read _ hmem with hread | heq
  · exact Nat.lt_irrefl 0 hread
  · obtain rfl := congrArg Item.production heq
    obtain ⟨item, after, -, hrest⟩ := (begun_spec hg hkernel).1.asked _ hhas
    obtain ⟨other, hother, hasked, -⟩ := Grammar.exists_of_rest_eq_cons hrest
    obtain ⟨root, -, -, hroot⟩ := hg.accept
    refine hg.ne_start_of_mem_rhs hother hasked ?_
    obtain rfl := Option.some.inj (hp.symm.trans hroot)
    rfl

theorem nodup_ofKernel (hg : g.WellFormed) (hkernel : kernel.Proper) :
    (ofKernel (Setting.ofGrammar g) kernel).core.Nodup := by
  have hprogress := (begun_spec hg hkernel).1
  have hcore : (ofKernel (Setting.ofGrammar g) kernel).core = kernel.core ++
      (Closure.begun (Setting.ofGrammar g) kernel).order.toList.flatMap fun i =>
        ((Setting.ofGrammar g).openings.getD i []).map Item.opening := by
    simp [ofKernel, Kernel.core, List.map_flatMap, Function.comp_def]
  rw [hcore]
  refine List.nodup_append'.2 ⟨hkernel.nodup, List.nodup_flatMap.2 ⟨fun i hi => ?_, ?_⟩, ?_⟩
  · refine List.Nodup.map (fun p q heq => congrArg Item.production heq) ?_
    obtain ⟨item, after, -, hrest⟩ := hprogress.asked i ((hprogress.fits.mem_order i).1 hi)
    obtain ⟨production, hp, hmem, -⟩ := Grammar.exists_of_rest_eq_cons hrest
    rw [openings_ofGrammar (hg.lt_of_mem_rhs hp hmem)]
    exact List.Nodup.filter _ List.nodup_range
  · refine hprogress.fits.nodup.imp fun {i k} hne item hi hk => hne ?_
    obtain ⟨p, hp, rfl⟩ := List.mem_map.1 hi
    obtain ⟨q, hq, heq⟩ := List.mem_map.1 hk
    obtain rfl := congrArg Item.production heq
    obtain ⟨production, hproduction, rfl⟩ := mem_openings hp
    obtain ⟨other, hother, rfl⟩ := mem_openings hq
    obtain rfl := Option.some.inj (hproduction.symm.trans hother)
    rfl
  · intro item hitem hopening
    obtain ⟨i, hi, hmem⟩ := List.mem_flatMap.1 hopening
    obtain ⟨p, hp, rfl⟩ := List.mem_map.1 hmem
    obtain ⟨production, hproduction, rfl⟩ := mem_openings hp
    exact opening_notMem_core hg hkernel hproduction ((hprogress.fits.mem_order _).1 hi) hitem

theorem proper_of_mem_ofKernel {item : Item} (hg : g.WellFormed) (hkernel : kernel.Proper)
    (hmem : (item, lookahead) ∈ ofKernel (Setting.ofGrammar g) kernel) : lookahead.Proper := by
  rcases (mem_ofKernel hg hkernel).1 hmem with hmem | ⟨p, production, hp, hhas, -, hlookahead⟩
  · exact hkernel.lookaheads _ hmem
  · rw [hlookahead]
    exact (begun_spec hg hkernel).1.fits.proper _

end Closure
end SqlTree
