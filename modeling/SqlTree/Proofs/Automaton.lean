import SqlTree.Automaton.Table

/-!
# What the states of a table stand for

A state stands for the items in its kernel. They are all that the proofs about parsing need to know
of a state, and they never change once the state is there: building the automaton further only adds
lookaheads.

- `Item.Begins`     : the items under way in a state
- `Item.Leads`      : reading a symbol advances items that ask for it
- `Item.Leads.back` : so an item tells which symbols have been read
- `Automaton.Sound` : every edge leads from its state to the next one in this sense
- `Grammar.core`    : the kernel items of a state of the table
- `Table.leads_of_shift`, `Table.leads_of_goto?` : where shifts and gotos lead
- `Table.complete_of_reduce`, `Table.complete_of_accept` : what is complete where the table reduces
  or accepts
-/

namespace SqlTree
namespace Item

/-- The items of a core, and those that begin a production of a nonterminal that one of them asks
for. -/
inductive Begins (g : Grammar) (core : List Item) : Item → Prop where
  | kernel {item : Item} (h : item ∈ core) : Begins g core item
  | opening {item : Item} {p : Nat} {after : List Symbol} {production : Production}
      (h : Begins g core item) (hp : g.productions[p]? = some production)
      (hrest : item.rest g = .nonterminal production.lhs :: after) :
      Begins g core (Item.opening p)

/-- Every item of the second core is one under way in the first, with the symbol read. -/
def Leads (g : Grammar) (core : List Item) (symbol : Symbol) (next : List Item) : Prop :=
  next ≠ [] ∧ ∀ item ∈ next, ∃ before, item = before.advance ∧ Begins g core before ∧
    (before.rest g).head? = some symbol

variable {g : Grammar} {core core' next : List Item} {item : Item} {symbol : Symbol}

theorem Begins.mono (h : Begins g core item) (hsub : ∀ item ∈ core, item ∈ core') :
    Begins g core' item := by
  induction h with
  | kernel h => exact .kernel (hsub _ h)
  | opening _ hp hrest ih => exact .opening ih hp hrest

theorem Leads.mono (h : Leads g core symbol next) (hsub : ∀ item ∈ core, item ∈ core') :
    Leads g core' symbol next := by
  refine ⟨h.1, fun item hitem => ?_⟩
  obtain ⟨before, hadvance, hbegins, hsymbol⟩ := h.2 item hitem
  exact ⟨before, hadvance, hbegins.mono hsub, hsymbol⟩

/-- An item of which something has been read belongs to the core. -/
theorem Begins.mem_of_mark_pos (h : Begins g core item) (hmark : 0 < item.mark) : item ∈ core := by
  cases h with
  | kernel h => exact h
  | opening => cases hmark

/-- One symbol back: an item of which something has been read was under way before its last symbol
was read, which is the one that led here. -/
theorem Leads.back {p mark : Nat} {production : Production} (h : Leads g core symbol next)
    (hp : g.productions[p]? = some production) (hbegins : Begins g next ⟨p, mark + 1⟩) :
    Begins g core ⟨p, mark⟩ ∧ production.rhs[mark]? = some symbol := by
  obtain ⟨⟨q, n⟩, hadvance, hbefore, hsymbol⟩ := h.2 _ (hbegins.mem_of_mark_pos (Nat.succ_pos mark))
  simp only [advance, Item.mk.injEq, Nat.add_right_cancel_iff] at hadvance
  obtain ⟨rfl, rfl⟩ := hadvance
  refine ⟨hbefore, ?_⟩
  simpa [rest, hp] using hsymbol

end Item

/-! ## Closures -/

namespace Closure

open Item (Begins)

variable {g : Grammar} {core : List Item}

/-- Some item under way asks for the nonterminal. -/
def Asked (g : Grammar) (core : List Item) (i : Nat) : Prop :=
  ∃ item after, Begins g core item ∧ item.rest g = .nonterminal i :: after

/-- A task follows up an item under way. -/
def Task.Sound (g : Grammar) (core : List Item) : Task → Prop
  | .kernel rest _ => ∃ item ∈ core, item.rest g = rest
  | .opening p => Begins g core (Item.opening p)

theorem Task.Sound.asked {task : Task} {begun : Begun} {i : Nat} {after : List Symbol}
    {lookahead : TerminalSet} (h : task.Sound g core)
    (houtlook : task.outlook g begun = (.nonterminal i :: after, lookahead)) : Asked g core i := by
  cases task with
  | kernel rest follow =>
    obtain ⟨item, hitem, hrest⟩ := h
    cases houtlook
    exact ⟨item, after, .kernel hitem, hrest⟩
  | opening p =>
    refine ⟨Item.opening p, after, h, ?_⟩
    simp only [Task.outlook] at houtlook
    split at houtlook
    · rename_i production hp
      have hrhs := congrArg Prod.fst houtlook
      simpa [Item.rest, Item.opening, hp] using hrhs
    · cases houtlook

theorem mem_order_add {begun : Begun} {i k : Nat} {follow : TerminalSet}
    (h : k ∈ (begun.add i follow).1.order) : k ∈ begun.order ∨ k = i := by
  unfold Begun.add at h
  split at h
  · simpa using h
  · dsimp only at h
    split at h <;> exact Or.inl h

theorem mem_productionsOf {i p : Nat} (h : p ∈ g.productionsOf i) :
    ∃ production, g.productions[p]? = some production ∧ production.lhs = i := by
  simp only [Grammar.productionsOf, List.mem_filter, Option.any_eq_true, beq_iff_eq] at h
  exact h.2

theorem mem_openings {i p : Nat} (h : p ∈ (Setting.ofGrammar g).openings.getD i []) :
    ∃ production, g.productions[p]? = some production ∧ production.lhs = i := by
  simp only [Setting.ofGrammar, Array.getD_eq_getD_getElem?, List.getElem?_toArray,
    List.getElem?_map] at h
  by_cases hi : i < g.nonterminals.size
  · rw [List.getElem?_range hi] at h
    exact mem_productionsOf h
  · rw [List.getElem?_eq_none (by simpa using hi)] at h
    cases h

theorem mem_foldl_opening {ps : List Nat} {pending : List Task} {task : Task}
    (h : task ∈ ps.foldl (fun pending p => .opening p :: pending) pending) :
    task ∈ pending ∨ ∃ p ∈ ps, task = .opening p := by
  induction ps generalizing pending with
  | nil => exact Or.inl h
  | cons p ps ih =>
    rcases ih h with h | ⟨q, hq, rfl⟩
    · rcases List.mem_cons.1 h with rfl | h
      · exact Or.inr ⟨p, List.mem_cons_self, rfl⟩
      · exact Or.inl h
    · exact Or.inr ⟨q, List.mem_cons_of_mem _ hq, rfl⟩

/-- Only nonterminals that are asked for are begun. -/
theorem asked_of_mem_close (core : List Item) (fuel : Nat) (begun : Begun) (pending : List Task)
    (horder : ∀ i ∈ begun.order, Asked g core i) (hpending : ∀ task ∈ pending, task.Sound g core) :
    ∀ i ∈ (close (Setting.ofGrammar g) fuel begun pending).order, Asked g core i := by
  induction fuel generalizing begun pending with
  | zero => exact horder
  | succ fuel ih =>
    cases pending with
    | nil => exact horder
    | cons task pending =>
      have htask := hpending task List.mem_cons_self
      have hrest := fun t ht => hpending t (List.mem_cons_of_mem _ ht)
      simp only [close]
      split
      · rename_i i after lookahead houtlook
        have hasked : Asked g core i := htask.asked houtlook
        have hadd : ∀ k ∈ (begun.add i ((Setting.ofGrammar g).first.ofSequence lookahead
            after)).1.order, Asked g core k := by
          intro k hk
          rcases mem_order_add hk with hk | rfl
          · exact horder k hk
          · exact hasked
        split
        · refine ih _ _ hadd fun task htask => ?_
          rcases mem_foldl_opening htask with htask | ⟨p, hp, rfl⟩
          · exact hrest task htask
          · obtain ⟨production, hproduction, rfl⟩ := mem_openings hp
            obtain ⟨item, after, hbegins, hitem⟩ := hasked
            exact .opening hbegins hproduction hitem
        · exact ih _ _ hadd hrest
      · exact ih _ _ horder hrest

theorem asked_of_mem_begun {kernel : Kernel} {i : Nat}
    (h : i ∈ (begun (Setting.ofGrammar g) kernel).order) : Asked g kernel.core i := by
  unfold begun at h
  refine asked_of_mem_close kernel.core _ _ _ ?_ ?_ i h
  · intro i hi
    simp [Begun.none] at hi
  · intro task htask
    obtain ⟨⟨item, lookahead⟩, hmem, rfl⟩ := List.mem_map.1 (List.mem_reverse.1 htask)
    exact ⟨item, List.mem_map_of_mem hmem, rfl⟩

/-- The closure of a kernel holds only items that are under way. -/
theorem begins_of_mem_ofKernel {kernel : Kernel} {entry : Item × TerminalSet}
    (h : entry ∈ ofKernel (Setting.ofGrammar g) kernel) : Begins g kernel.core entry.1 := by
  rcases List.mem_append.1 h with h | h
  · exact .kernel (List.mem_map_of_mem h)
  · obtain ⟨i, hi, hentry⟩ := List.mem_flatMap.1 h
    obtain ⟨p, hp, rfl⟩ := List.mem_map.1 hentry
    obtain ⟨production, hproduction, rfl⟩ := mem_openings hp
    obtain ⟨item, after, hbegins, hitem⟩ := asked_of_mem_begun (Array.mem_toList_iff.1 hi)
    exact .opening hbegins hproduction hitem

end Closure

/-! ## The automaton -/

namespace Automaton

open Item (Begins Leads)

variable {g : Grammar} {a a' : Automaton}

/-- The items of a state without their lookaheads. -/
def core (a : Automaton) (state : Nat) : List Item := (a.kernel state).core

/-- The second automaton has the states of the first, perhaps with more lookaheads, and more. -/
structure Extends (a a' : Automaton) : Prop where
  size_le : a.kernels.size ≤ a'.kernels.size
  core_eq : ∀ s < a.kernels.size, a'.core s = a.core s
  edges_eq : ∀ s, a'.edges s = a.edges s

theorem Extends.refl (a : Automaton) : Extends a a := ⟨Nat.le_refl _, fun _ _ => rfl, fun _ => rfl⟩

theorem Extends.trans {b : Automaton} (h : Extends a a') (h' : Extends a' b) : Extends a b where
  size_le := Nat.le_trans h.size_le h'.size_le
  core_eq s hs := by rw [h'.core_eq s (Nat.lt_of_lt_of_le hs h.size_le), h.core_eq s hs]
  edges_eq s := by rw [h'.edges_eq, h.edges_eq]

theorem core_eq_nil {s : Nat} (h : a.kernels.size ≤ s) : a.core s = [] := by
  simp [core, kernel, Kernel.core, Array.getD_eq_getD_getElem?, h]

/-- No item of a state goes away. -/
theorem Extends.subset (h : Extends a a') (s : Nat) : ∀ item ∈ a.core s, item ∈ a'.core s := by
  intro item hitem
  by_cases hs : s < a.kernels.size
  · rwa [h.core_eq s hs]
  · rw [core_eq_nil (Nat.le_of_not_lt hs)] at hitem
    cases hitem

theorem core_merge (known added : Kernel) : (merge known added).1.core = known.core := by
  induction known generalizing added with
  | nil => cases added <;> rfl
  | cons first rest ih =>
    cases added with
    | nil => rfl
    | cons other others => simpa [merge, Kernel.core] using ih others

theorem core_enqueue (a : Automaton) (state s : Nat) : (a.enqueue state).core s = a.core s := by
  unfold enqueue
  split <;> rfl

theorem size_enqueue (a : Automaton) (state : Nat) :
    (a.enqueue state).kernels.size = a.kernels.size := by
  unfold enqueue
  split <;> rfl

theorem edges_enqueue (a : Automaton) (state s : Nat) :
    (a.enqueue state).edges s = a.edges s := by
  unfold enqueue
  split <;> rfl

theorem core_of_find? {kernel : Kernel} {state : Nat} (h : a.find? kernel = some state) :
    state < a.kernels.size ∧ a.core state = kernel.core := by
  obtain ⟨hlt, hsame, -⟩ := Array.findIdx?_eq_some_iff_getElem.1 h
  refine ⟨hlt, ?_⟩
  rw [(Kernel.sameCore_iff _ _).1 hsame]
  simp [core, Automaton.kernel, hlt]

/-- The state of a kernel has its items, and the other states keep theirs. -/
theorem intern_spec (a : Automaton) (kernel : Kernel) :
    (a.intern kernel).1 < (a.intern kernel).2.kernels.size ∧
      (a.intern kernel).2.core (a.intern kernel).1 = kernel.core ∧ Extends a (a.intern kernel).2 := by
  unfold intern
  split
  · rename_i state hfind
    obtain ⟨hlt, hcore⟩ := core_of_find? hfind
    dsimp only
    split
    · -- Lookaheads are added to a state that is there.
      have hset (s : Nat) : core { a with
          kernels := a.kernels.setIfInBounds state (merge (a.kernel state) kernel).1 } s =
          a.core s := by
        simp only [core, Automaton.kernel, Array.getD_eq_getD_getElem?,
          Array.getElem?_setIfInBounds]
        split
        · rename_i heq
          subst heq
          rw [Option.getD_some, core_merge]
        · rfl
      refine ⟨?_, ?_, ?_, ?_, ?_⟩
      · simpa [size_enqueue] using hlt
      · rw [core_enqueue, hset, hcore]
      · simp [size_enqueue]
      · intro s _
        rw [core_enqueue, hset]
      · exact fun s => edges_enqueue _ _ s
    · exact ⟨hlt, hcore, .refl a⟩
  · -- A new state is put behind the others.
    refine ⟨?_, ?_, ?_, ?_, ?_⟩
    · simp [size_enqueue]
    · rw [core_enqueue]
      simp [core, Automaton.kernel]
    · simp [size_enqueue]
    · intro s hs
      rw [core_enqueue]
      simp [core, Automaton.kernel, Array.getElem?_push, Nat.ne_of_lt hs]
    · intro s
      rw [edges_enqueue]
      simp only [edges, Array.getD_eq_getD_getElem?, Array.getElem?_push]
      split
      · rename_i heq
        simp [heq]
      · rfl

/-! ## Successors -/

/-- The kernel after a symbol leads there from the items that ask for it. -/
theorem leads_of_mem_successors {items : Kernel} {core : List Item} {symbol : Symbol}
    {kernel : Kernel} (hitems : ∀ entry ∈ items, Begins g core entry.1)
    (h : (symbol, kernel) ∈ successors g items) : Leads g core symbol kernel.core := by
  obtain ⟨symbol, hsymbol, heq⟩ := List.mem_map.1 h
  cases heq
  have hreadable {next : Symbol} {item : Item} {lookahead : TerminalSet}
      (hmem : (next, item, lookahead) ∈ readable g items) :
      Begins g core item ∧ (item.rest g).head? = some next := by
    obtain ⟨entry, hentry, hhead⟩ := List.mem_filterMap.1 hmem
    obtain ⟨next, hnext, heq⟩ := Option.map_eq_some_iff.1 hhead
    cases heq
    exact ⟨hitems _ hentry, hnext⟩
  have hafter (item : Item) : item ∈ (after (readable g items) symbol).core ↔
      ∃ before lookahead, (symbol, before, lookahead) ∈ readable g items ∧
        before.advance = item := by
    simp only [Kernel.core, after, List.mem_map, (Kernel.sort_perm _).mem_iff,
      List.mem_filterMap, Prod.exists, Option.ite_none_right_eq_some, Option.some.injEq,
      Prod.mk.injEq]
    constructor
    · rintro ⟨item, lookahead, ⟨next, before, follow, hmem, rfl, rfl, rfl⟩, rfl⟩
      exact ⟨before, follow, hmem, rfl⟩
    · rintro ⟨before, lookahead, hmem, rfl⟩
      exact ⟨before.advance, lookahead, ⟨symbol, before, lookahead, hmem, rfl, rfl, rfl⟩, rfl⟩
  refine ⟨?_, fun item hitem => ?_⟩
  · obtain ⟨⟨next, item, lookahead⟩, hmem, rfl⟩ :=
      List.mem_map.1 (List.mem_eraseDups.1 hsymbol)
    exact List.ne_nil_of_mem ((hafter _).2 ⟨item, lookahead, hmem, rfl⟩)
  · obtain ⟨before, lookahead, hmem, rfl⟩ := (hafter item).1 hitem
    exact ⟨before, rfl, hreadable hmem⟩

theorem internAll_spec (list : List (Symbol × Kernel)) (a : Automaton) :
    Extends a (internAll list a).2 ∧
      ∀ symbol target, (symbol, target) ∈ (internAll list a).1 →
        target < (internAll list a).2.kernels.size ∧
        ∃ kernel, (symbol, kernel) ∈ list ∧
          (internAll list a).2.core target = kernel.core := by
  induction list generalizing a with
  | nil => exact ⟨.refl a, by simp [internAll]⟩
  | cons first rest ih =>
    obtain ⟨symbol, kernel⟩ := first
    obtain ⟨hlt, hcore, hextends⟩ := intern_spec a kernel
    obtain ⟨hextends', hedges⟩ := ih (a.intern kernel).2
    refine ⟨hextends.trans hextends', fun next target h => ?_⟩
    rcases List.mem_cons.1 h with heq | h
    · cases heq
      exact ⟨Nat.lt_of_lt_of_le hlt hextends'.size_le, kernel, List.mem_cons_self,
        (hextends'.core_eq _ hlt).trans hcore⟩
    · obtain ⟨hlt', kernel', hmem, hcore'⟩ := hedges next target h
      exact ⟨hlt', kernel', List.mem_cons_of_mem _ hmem, hcore'⟩

/-! ## All states -/

/-- The first state is the beginning of the start rule, and every edge reads its symbol. -/
structure Sound (g : Grammar) (a : Automaton) : Prop where
  start : 0 < a.kernels.size ∧ a.core 0 = [Item.opening Grammar.acceptProduction]
  edge : ∀ s symbol target, (symbol, target) ∈ a.edges s →
    target < a.kernels.size ∧ Leads g (a.core s) symbol (a.core target)

theorem Sound.initial (g : Grammar) : Sound g Automaton.initial := by
  obtain ⟨hlt, hcore, hextends⟩ :=
    intern_spec empty [(Item.opening Grammar.acceptProduction, .singleton .eof)]
  have hzero : (empty.intern
      [(Item.opening Grammar.acceptProduction, .singleton .eof)]).1 = 0 := by
    simp [intern, find?, empty]
  rw [hzero] at hlt hcore
  refine ⟨⟨hlt, hcore⟩, fun s symbol target h => ?_⟩
  have hnone : Automaton.initial.edges s = [] := hextends.edges_eq s
  rw [hnone] at h
  cases h

theorem Sound.expand (h : Sound g a) (state : Nat) :
    Sound g (a.expand (Closure.Setting.ofGrammar g) state) := by
  generalize hitems : Closure.ofKernel (Closure.Setting.ofGrammar g) (a.kernel state) = items
  have hexpand : a.expand (Closure.Setting.ofGrammar g) state =
      { (internAll (successors g items) a).2 with
        transitions := (internAll (successors g items) a).2.transitions.setIfInBounds state
          (internAll (successors g items) a).1 } := by
    rw [← hitems]
    rfl
  rw [hexpand]
  obtain ⟨hextends, hedges⟩ := internAll_spec (successors g items) a
  generalize internAll (successors g items) a = interned at hextends hedges
  obtain ⟨edges, a'⟩ := interned
  simp only at hextends hedges ⊢
  refine ⟨⟨Nat.lt_of_lt_of_le h.start.1 hextends.size_le,
    (hextends.core_eq 0 h.start.1).trans h.start.2⟩, fun s symbol target hmem => ?_⟩
  have hcases : (symbol, target) ∈ a.edges s ∨ (s = state ∧ (symbol, target) ∈ edges) := by
    rw [← hextends.edges_eq s]
    simp only [Automaton.edges, Array.getD_eq_getD_getElem?, Array.getElem?_setIfInBounds] at hmem ⊢
    split at hmem
    · rename_i heq
      split at hmem
      · exact Or.inr ⟨heq.symm, hmem⟩
      · cases hmem
    · exact Or.inl hmem
  clear hmem
  rcases hcases with hmem | ⟨rfl, hmem⟩
  · obtain ⟨hlt, hleads⟩ := h.edge s symbol target hmem
    refine ⟨Nat.lt_of_lt_of_le hlt hextends.size_le, ?_⟩
    have htarget : a'.core target = a.core target := hextends.core_eq target hlt
    change Leads g (a'.core s) symbol (a'.core target)
    rw [htarget]
    exact hleads.mono (hextends.subset s)
  · obtain ⟨hlt, kernel, hkernel, hcore⟩ := hedges symbol target hmem
    refine ⟨hlt, ?_⟩
    change Leads g (a'.core s) symbol (a'.core target)
    have hleads : Leads g (a.core s) symbol kernel.core := by
      refine leads_of_mem_successors (fun entry hentry => ?_) hkernel
      rw [← hitems] at hentry
      exact Closure.begins_of_mem_ofKernel hentry
    rw [hcore]
    exact hleads.mono (hextends.subset s)

theorem Sound.saturate (fuel : Nat) (h : Sound g a) :
    Sound g (saturate (Closure.Setting.ofGrammar g) fuel a) := by
  induction fuel generalizing a with
  | zero => exact h
  | succ fuel ih =>
    simp only [Automaton.saturate]
    split
    · exact h
    · rename_i state rest _
      have hrest : Sound g { a with queue := rest } := ⟨h.start, h.edge⟩
      exact ih (hrest.expand state)

end Automaton

/-! ## The table -/

/-- The items of a state of the table of a grammar. -/
def Grammar.core (g : Grammar) (state : Nat) : List Item :=
  (Automaton.build (Closure.Setting.ofGrammar g)).core state

theorem Automaton.sound_build (g : Grammar) : Sound g (build (Closure.Setting.ofGrammar g)) :=
  Sound.saturate _ (Sound.initial g)

theorem Grammar.core_zero (g : Grammar) : g.core 0 = [Item.opening acceptProduction] :=
  (Automaton.sound_build g).start.2

/-- The symbol that was read on the way to a state; none for the first state. -/
def Grammar.accessing (g : Grammar) (state : Nat) : Option Symbol :=
  match g.core state with
  | ⟨p, mark + 1⟩ :: _ => (g.productions[p]?).bind fun production => production.rhs[mark]?
  | _ => none

theorem Grammar.accessing_zero (g : Grammar) : g.accessing 0 = none := by
  simp [accessing, g.core_zero, Item.opening]

theorem Grammar.accessing_of_leads {g : Grammar} {core : List Item} {symbol : Symbol} {next : Nat}
    (h : Item.Leads g core symbol (g.core next)) : g.accessing next = some symbol := by
  obtain ⟨hne, hall⟩ := h
  unfold accessing
  cases hcore : g.core next with
  | nil => exact absurd hcore hne
  | cons item rest =>
    obtain ⟨⟨p, mark⟩, rfl, -, hsymbol⟩ := hall item (by simp [hcore])
    simp only [Item.rest] at hsymbol
    split at hsymbol
    · rename_i production hp
      simpa [Item.advance, hp] using hsymbol
    · cases hsymbol

namespace Table

open Item (Begins Leads)

variable {g : Grammar} {state next production : Nat} {kind : Kind} {action : Action}

theorem mem_resolve {shift : Option (Nat × Int)} {reductions : List Nat}
    (h : action ∈ resolve g shift reductions) :
    (∃ strength next, shift = some (next, strength) ∧ action = .shift next) ∨
      ∃ p ∈ reductions, action = .reduce p := by
  have hstrongest {p : Nat} (hp : p ∈ strongest g reductions) : p ∈ reductions := by
    unfold strongest at hp
    split at hp
    · exact (List.mem_filter.1 hp).1
    · cases hp
  have hreduce (hmem : action ∈ (strongest g reductions).map Action.reduce) :
      ∃ p ∈ reductions, action = .reduce p := by
    obtain ⟨p, hp, rfl⟩ := List.mem_map.1 hmem
    exact ⟨p, hstrongest hp, rfl⟩
  have hshift {next : Nat} {strength : Int} (heq : shift = some (next, strength))
      (hmem : action ∈ [Action.shift next]) :
      ∃ strength next, shift = some (next, strength) ∧ action = .shift next :=
    ⟨strength, next, heq, List.mem_singleton.1 hmem⟩
  simp only [resolve] at h
  split at h
  · exact Or.inr (hreduce h)
  · exact Or.inl (hshift rfl h)
  · split at h
    · exact Or.inr (hreduce h)
    · split at h
      · exact Or.inl (hshift rfl h)
      · split at h
        · exact Or.inr (hreduce h)
        · exact Or.inl (hshift rfl h)
        · rcases List.mem_cons.1 h with h | h
          · exact Or.inl (hshift rfl (List.mem_singleton.2 h))
          · exact Or.inr (hreduce h)

theorem mem_of_lookup {edges : List (Symbol × Nat)} {symbol : Symbol}
    (h : edges.lookup symbol = some next) : (symbol, next) ∈ edges := by
  obtain ⟨before, after, rfl, -⟩ := List.lookup_eq_some_iff.1 h
  simp

theorem mem_complete {items : Kernel} {lookahead : TerminalSet}
    (h : (production, lookahead) ∈ Row.complete g items) :
    ∃ item lookahead, (item, lookahead) ∈ items ∧ item.production = production ∧
      item.rest g = [] := by
  obtain ⟨⟨item, lookahead⟩, hmem, heq⟩ := List.mem_map.1 h
  cases heq
  obtain ⟨hmem, hrest⟩ := List.mem_filter.1 ((Kernel.sort_perm _).mem_iff.1 hmem)
  exact ⟨item, lookahead, hmem, rfl, by simpa using hrest⟩

theorem eq_of_getElem?_range {n i j : Nat} (h : (List.range n)[i]? = some j) : i = j := by
  obtain ⟨_, h⟩ := List.getElem?_eq_some_iff.1 h
  simpa using h

/-- The row of a state comes from its kernel and its edges. -/
theorem row_ofGrammar {row : Row} (h : (ofGrammar g).rows[state]? = some row) :
    ∃ kernel, kernel.core = g.core state ∧
      row = Row.ofItems g kernel (Closure.ofKernel (Closure.Setting.ofGrammar g) kernel)
        ((Automaton.build (Closure.Setting.ofGrammar g)).edges state) := by
  simp only [ofGrammar, List.getElem?_toArray, List.getElem?_map, Option.map_eq_some_iff] at h
  obtain ⟨s, hs, rfl⟩ := h
  obtain rfl := eq_of_getElem?_range hs
  exact ⟨_, rfl, rfl⟩

theorem getElem?_terminals {k : Kind} (h : Kind.terminals[kind.id]? = some k) : k = kind := by
  have hid : Kind.all[kind.id]? = some kind := Kind.ofId?_id kind
  rw [Kind.terminals, List.getElem?_take] at h
  split at h
  · rw [hid] at h
    exact (Option.some.inj h).symm
  · cases h

/-- What the table says is decided by the edges and the items of the state. -/
theorem mem_actions (h : action ∈ (ofGrammar g).actions state kind) :
    (∃ next, action = .shift next ∧
        (.terminal kind, next) ∈ (Automaton.build (Closure.Setting.ofGrammar g)).edges state) ∨
      (∃ item : Item, action = .reduce item.production ∧
        item.production ≠ Grammar.acceptProduction ∧ item.rest g = [] ∧
        Begins g (g.core state) item) ∨
      (∃ item : Item, action = .accept ∧ kind = .eof ∧
        item.production = Grammar.acceptProduction ∧ item.rest g = [] ∧
        Begins g (g.core state) item) := by
  unfold actions at h
  split at h
  · rename_i row hrow
    obtain ⟨kernel, hcore, rfl⟩ := row_ofGrammar hrow
    have hcomplete {p : Nat} {lookahead : TerminalSet} (hmem : (p, lookahead) ∈ Row.complete g
        (Closure.ofKernel (Closure.Setting.ofGrammar g) kernel)) :
        ∃ item : Item, item.production = p ∧ item.rest g = [] ∧ Begins g (g.core state) item := by
      obtain ⟨item, _, hitem, hp, hrest⟩ := mem_complete hmem
      exact ⟨item, hp, hrest, hcore ▸ Closure.begins_of_mem_ofKernel hitem⟩
    simp only [Row.ofItems, Array.getD_eq_getD_getElem?, List.getElem?_toArray,
      List.getElem?_map] at h
    cases hk : Kind.terminals[kind.id]? with
    | none => simp [hk] at h
    | some k =>
      obtain rfl := getElem?_terminals hk
      simp only [hk, Option.map_some, Option.getD_some] at h
      split at h
      · rename_i haccept
        simp only [Bool.and_eq_true, List.any_eq_true, beq_iff_eq] at haccept
        obtain ⟨⟨⟨p, lookahead⟩, hmem, hp⟩, hkind⟩ := haccept
        obtain ⟨item, hitem, hrest, hbegins⟩ := hcomplete hmem
        exact Or.inr (Or.inr ⟨item, List.mem_singleton.1 h, hkind, hitem.trans hp, hrest, hbegins⟩)
      · rcases mem_resolve h with ⟨strength, next, hshift, rfl⟩ | ⟨p, hp, rfl⟩
        · obtain ⟨_, hlookup, heq⟩ := Option.map_eq_some_iff.1 hshift
          cases heq
          exact Or.inl ⟨next, rfl, mem_of_lookup hlookup⟩
        · obtain ⟨⟨p, lookahead⟩, hmem, hcontains⟩ := List.mem_filterMap.1 hp
          obtain ⟨hmem, hne⟩ := List.mem_filter.1 hmem
          obtain ⟨-, heq⟩ := Option.ite_none_right_eq_some.1 hcontains
          cases heq
          obtain ⟨item, rfl, hrest, hbegins⟩ := hcomplete hmem
          exact Or.inr (Or.inl ⟨item, rfl, by simpa using hne, hrest, hbegins⟩)
  · cases h

theorem leads_of_edge {symbol : Symbol}
    (h : (symbol, next) ∈ (Automaton.build (Closure.Setting.ofGrammar g)).edges state) :
    Leads g (g.core state) symbol (g.core next) :=
  ((Automaton.sound_build g).edge state symbol next h).2

/-- A shift reads its terminal. -/
theorem leads_of_shift (h : .shift next ∈ (ofGrammar g).actions state kind) :
    Leads g (g.core state) (.terminal kind) (g.core next) := by
  rcases mem_actions h with ⟨target, heq, hedge⟩ | ⟨item, heq, -⟩ | ⟨item, heq, -⟩
  · cases heq
    exact leads_of_edge hedge
  · cases heq
  · cases heq

/-- A goto reads its nonterminal. -/
theorem leads_of_goto? {i : Nat} (h : (ofGrammar g).goto? state i = some next) :
    Leads g (g.core state) (.nonterminal i) (g.core next) := by
  obtain ⟨row, hrow, h⟩ := Option.bind_eq_some_iff.1 h
  obtain ⟨kernel, -, rfl⟩ := row_ofGrammar hrow
  simp only [Row.ofItems, Array.getD_eq_getD_getElem?, List.getElem?_toArray,
    List.getElem?_map] at h
  cases hi : (List.range g.nonterminals.size)[i]? with
  | none => simp [hi] at h
  | some j =>
    obtain rfl := eq_of_getElem?_range hi
    simp only [hi, Option.map_some, Option.getD_some] at h
    exact leads_of_edge (mem_of_lookup h)

/-- A production by which the table reduces is complete, and it is not the one of the start
symbol. -/
theorem complete_of_reduce (h : .reduce production ∈ (ofGrammar g).actions state kind) :
    production ≠ Grammar.acceptProduction ∧ ∃ mark, Item.rest g ⟨production, mark⟩ = [] ∧
      Begins g (g.core state) ⟨production, mark⟩ := by
  rcases mem_actions h with ⟨target, heq, -⟩ | ⟨item, heq, hne, hrest, hbegins⟩ | ⟨item, heq, -⟩
  · cases heq
  · cases heq
    exact ⟨hne, item.mark, hrest, hbegins⟩
  · cases heq

/-- Where the table accepts, the start rule is complete and the input has ended. -/
theorem complete_of_accept (h : .accept ∈ (ofGrammar g).actions state kind) :
    kind = .eof ∧ ∃ mark, Item.rest g ⟨Grammar.acceptProduction, mark⟩ = [] ∧
      Begins g (g.core state) ⟨Grammar.acceptProduction, mark⟩ := by
  rcases mem_actions h with ⟨target, heq, -⟩ | ⟨item, heq, -⟩ | ⟨item, -, hkind, hp, hrest, hbegins⟩
  · cases heq
  · cases heq
  · exact ⟨hkind, item.mark, hp ▸ hrest, hp ▸ hbegins⟩

end Table
end SqlTree
