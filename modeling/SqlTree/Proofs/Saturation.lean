import Mathlib.Data.List.Forall2
import SqlTree.Proofs.Kernel

/-!
# The automaton is complete

A state whose lookaheads grow goes back to the queue, also when it is its own successor. So every state
is waiting or up to date, and a potential of the queue, the lookaheads and the states still to be found
bounds the number of expansions: in the end the queue is empty and every state is up to date.

- `Automaton.Grows`       : what interning may change
- `Automaton.Coherent`    : the kernels of an automaton are genuine and pairwise different
- `Automaton.potential`   : an upper bound for the expansions to come
- `Automaton.UpToDate`    : the successors of a state have been made from its present lookaheads
- `Automaton.saturated_build` : every state of the finished automaton is up to date
-/

namespace SqlTree
namespace Automaton

variable {g : Grammar} {a a' a'' : Automaton} {kernel : Kernel} {state : Nat}

/-! ## Interning -/

/-- The second automaton has the states of the first, with the same edges and perhaps with more
lookaheads, and more states. All that is new is in its queue. -/
structure Grows (a a' : Automaton) : Prop extends Extends a a' where
  follow : ∀ s < a.kernels.size, (a.kernel s).follow ⊆ (a'.kernel s).follow
  queue : ∀ s ∈ a.queue, s ∈ a'.queue
  kept : ∀ s < a'.kernels.size,
    (s < a.kernels.size ∧ a'.kernel s = a.kernel s) ∨ s ∈ a'.queue

theorem Grows.refl (a : Automaton) : Grows a a where
  toExtends := .refl a
  follow _ _ := Set.Subset.rfl
  queue _ hs := hs
  kept _ hs := Or.inl ⟨hs, rfl⟩

theorem Grows.trans (h : Grows a a') (h' : Grows a' a'') : Grows a a'' where
  toExtends := h.toExtends.trans h'.toExtends
  follow s hs := (h.follow s hs).trans (h'.follow s (Nat.lt_of_lt_of_le hs h.size_le))
  queue s hs := h'.queue s (h.queue s hs)
  kept s hs := by
    rcases h'.kept s hs with ⟨hlt, hsame⟩ | hqueue
    · rcases h.kept s hlt with ⟨hlt', hsame'⟩ | hqueue
      · exact Or.inl ⟨hlt', hsame.trans hsame'⟩
      · exact Or.inr (h'.queue s hqueue)
    · exact Or.inr hqueue

/-- The kernels of all states are genuine and pairwise different. -/
structure Coherent (g : Grammar) (a : Automaton) : Prop where
  transitions : a.transitions.size = a.kernels.size
  genuine : ∀ s < a.kernels.size, (a.kernel s).Genuine g
  distinct : ∀ s < a.kernels.size, ∀ t < a.kernels.size, a.core s = a.core t → s = t
  queue : ∀ s ∈ a.queue, s < a.kernels.size

theorem Coherent.size_le (h : Coherent g a) : a.kernels.size ≤ 2 ^ itemCount g :=
  Kernel.le_two_pow h.genuine h.distinct

/-- An upper bound for the number of expansions to come. -/
def potential (g : Grammar) (a : Automaton) : Nat :=
  a.queue.length + ((List.range a.kernels.size).map fun s => (a.kernel s).room).sum +
    (2 ^ itemCount g - a.kernels.size) * (itemCount g * Kind.count + 1)

@[simp]
theorem kernels_enqueue (a : Automaton) (state : Nat) :
    (a.enqueue state).kernels = a.kernels := by
  unfold enqueue
  split <;> rfl

@[simp]
theorem transitions_enqueue (a : Automaton) (state : Nat) :
    (a.enqueue state).transitions = a.transitions := by
  unfold enqueue
  split <;> rfl

theorem mem_queue_enqueue (a : Automaton) (state s : Nat) :
    s ∈ (a.enqueue state).queue ↔ s ∈ a.queue ∨ s = state := by
  unfold enqueue
  split
  · rename_i hmem
    constructor
    · exact Or.inl
    · rintro (hs | rfl)
      · exact hs
      · exact hmem
  · simp

theorem length_queue_enqueue_le (a : Automaton) (state : Nat) :
    (a.enqueue state).queue.length ≤ a.queue.length + 1 := by
  unfold enqueue
  split
  · exact Nat.le_succ _
  · simp

/-- The automaton with other lookaheads for a state. -/
def widen (a : Automaton) (state : Nat) (kernel : Kernel) : Automaton :=
  { a with kernels := a.kernels.setIfInBounds state kernel }.enqueue state

/-- The automaton with one more state. -/
def extend (a : Automaton) (kernel : Kernel) : Automaton :=
  { a with
    kernels := a.kernels.push kernel
    transitions := a.transitions.push [] }.enqueue a.kernels.size

/-- A kernel is found with all its lookaheads, or it widens the state that has its items, or it makes
a new state. -/
theorem intern_cases (a : Automaton) (kernel : Kernel) :
    (∃ state, a.find? kernel = some state ∧ (merge (a.kernel state) kernel).2 = false ∧
        a.intern kernel = (state, a)) ∨
      (∃ state, a.find? kernel = some state ∧ (merge (a.kernel state) kernel).2 = true ∧
        a.intern kernel = (state, a.widen state (merge (a.kernel state) kernel).1)) ∨
      (a.find? kernel = none ∧ a.intern kernel = (a.kernels.size, a.extend kernel)) := by
  unfold intern
  split
  · rename_i state hfind
    cases hgrew : (merge (a.kernel state) kernel).2 with
    | false => exact Or.inl ⟨state, hfind, hgrew, by simp [hgrew]⟩
    | true => exact Or.inr (Or.inl ⟨state, hfind, hgrew, by simp [hgrew, widen]⟩)
  · rename_i hfind
    exact Or.inr (Or.inr ⟨hfind, rfl⟩)

@[simp]
theorem size_widen (a : Automaton) (state : Nat) (kernel : Kernel) :
    (a.widen state kernel).kernels.size = a.kernels.size := by
  simp [widen]

theorem kernel_widen (hstate : state < a.kernels.size) (kernel : Kernel) (s : Nat) :
    (a.widen state kernel).kernel s = if s = state then kernel else a.kernel s := by
  simp only [widen, kernels_enqueue, Automaton.kernel, Array.getD_eq_getD_getElem?,
    Array.getElem?_setIfInBounds]
  by_cases hs : s = state
  · subst hs
    simp [hstate]
  · simp [hs, Ne.symm hs]

theorem core_widen (hstate : state < a.kernels.size) (hcore : kernel.core = a.core state) (s : Nat) :
    (a.widen state kernel).core s = a.core s := by
  rw [core, kernel_widen hstate]
  split
  · rename_i heq
    rw [heq, hcore]
  · rfl

@[simp]
theorem size_extend (a : Automaton) (kernel : Kernel) :
    (a.extend kernel).kernels.size = a.kernels.size + 1 := by
  simp [extend]

theorem kernel_extend (a : Automaton) (kernel : Kernel) (s : Nat) :
    (a.extend kernel).kernel s = if s = a.kernels.size then kernel else a.kernel s := by
  simp only [extend, kernels_enqueue, Automaton.kernel, Array.getD_eq_getD_getElem?,
    Array.getElem?_push]
  split <;> rfl

theorem core_ne_of_find? (h : a.find? kernel = none) {s : Nat} (hs : s < a.kernels.size) :
    a.core s ≠ kernel.core := by
  intro heq
  have hnone := Array.findIdx?_eq_none_iff.1 h a.kernels[s] (Array.getElem_mem hs)
  have hcore : kernel.sameCore a.kernels[s] = true := by
    rw [Kernel.sameCore_iff, ← heq]
    simp [core, Automaton.kernel, hs]
  rw [hcore] at hnone
  cases hnone

/-- A widened state keeps its items, and is put into the queue. -/
theorem Grows.widen (hstate : state < a.kernels.size) (hcore : kernel.core = a.core state)
    (hfollow : (a.kernel state).follow ⊆ kernel.follow) : Grows a (a.widen state kernel) where
  size_le := Nat.le_of_eq (size_widen a state kernel).symm
  core_eq s _ := core_widen hstate hcore s
  edges_eq s := by simp [Automaton.edges, Automaton.widen]
  follow s _ := by
    rw [kernel_widen hstate]
    split
    · rename_i heq
      rw [heq]
      exact hfollow
    · exact Set.Subset.rfl
  queue s hs := (mem_queue_enqueue _ _ _).2 (Or.inl hs)
  kept s hs := by
    by_cases heq : s = state
    · exact Or.inr ((mem_queue_enqueue _ _ _).2 (Or.inr heq))
    · rw [kernel_widen hstate, if_neg heq]
      exact Or.inl ⟨size_widen a state kernel ▸ hs, rfl⟩

theorem Coherent.widen (h : Coherent g a) (hstate : state < a.kernels.size)
    (hkernel : kernel.Genuine g) (hcore : kernel.core = a.core state) :
    Coherent g (a.widen state kernel) := by
  refine ⟨by simpa [Automaton.widen] using h.transitions, fun s hs => ?_, fun s hs t ht heq => ?_,
    fun s hs => ?_⟩
  · rw [size_widen] at hs
    rw [kernel_widen hstate]
    split
    · exact hkernel
    · exact h.genuine s hs
  · rw [size_widen] at hs ht
    rw [core_widen hstate hcore, core_widen hstate hcore] at heq
    exact h.distinct s hs t ht heq
  · rw [size_widen]
    rcases (mem_queue_enqueue _ _ _).1 hs with hs | rfl
    · exact h.queue s hs
    · exact hstate

/-- The state that goes back to the queue is paid for by the lookaheads that were added to it. -/
theorem potential_widen (g : Grammar) (hstate : state < a.kernels.size)
    (hroom : kernel.room < (a.kernel state).room) :
    potential g (a.widen state kernel) ≤ potential g a := by
  have hsum := sum_add_countP_le (List.range a.kernels.size)
    (f := fun s => ((a.widen state kernel).kernel s).room)
    (g := fun s => (a.kernel s).room) (q := fun s => s == state)
    fun s _ => by
      rw [kernel_widen hstate]
      by_cases hs : s = state
      · subst hs
        simpa using Nat.succ_le_of_lt hroom
      · simp [hs]
  have hpos : 0 < (List.range a.kernels.size).countP fun s => s == state :=
    List.countP_pos_iff.2 ⟨state, List.mem_range.2 hstate, by simp⟩
  have hqueue : (a.widen state kernel).queue.length ≤ a.queue.length + 1 :=
    length_queue_enqueue_le _ _
  simp only [potential, size_widen]
  omega

theorem Grows.extend (a : Automaton) (kernel : Kernel) : Grows a (a.extend kernel) where
  size_le := by simp
  core_eq s hs := by rw [core, kernel_extend, if_neg (Nat.ne_of_lt hs), core]
  edges_eq s := by
    simp only [Automaton.edges, Automaton.extend, transitions_enqueue,
      Array.getD_eq_getD_getElem?, Array.getElem?_push]
    split
    · rename_i heq
      simp [heq]
    · rfl
  follow s hs := by rw [kernel_extend, if_neg (Nat.ne_of_lt hs)]
  queue s hs := (mem_queue_enqueue _ _ _).2 (Or.inl hs)
  kept s hs := by
    by_cases heq : s = a.kernels.size
    · exact Or.inr ((mem_queue_enqueue _ _ _).2 (Or.inr heq))
    · have hlt : s < a.kernels.size := by
        rw [size_extend] at hs
        omega
      exact Or.inl ⟨hlt, by rw [kernel_extend, if_neg heq]⟩

theorem Coherent.extend (h : Coherent g a) (hkernel : kernel.Genuine g)
    (hfind : a.find? kernel = none) : Coherent g (a.extend kernel) := by
  have hcores (s : Nat) : (a.extend kernel).core s =
      if s = a.kernels.size then kernel.core else a.core s := by
    simp only [core, kernel_extend]
    split <;> rfl
  refine ⟨by simpa [Automaton.extend] using h.transitions, fun s hs => ?_,
    fun s hs t ht heq => ?_, fun s hs => ?_⟩
  · rw [kernel_extend]
    split
    · exact hkernel
    · rw [size_extend] at hs
      exact h.genuine s (by omega)
  · rw [size_extend] at hs ht
    rw [hcores, hcores] at heq
    -- No old state has the items of the new one: the search went over all of them.
    split at heq <;> split at heq
    · omega
    · exact absurd heq.symm (core_ne_of_find? hfind (by omega))
    · exact absurd heq (core_ne_of_find? hfind (by omega))
    · exact h.distinct s (by omega) t (by omega) heq
  · rw [size_extend]
    rcases (mem_queue_enqueue _ _ _).1 hs with hs | rfl
    · exact Nat.lt_succ_of_lt (h.queue s hs)
    · exact Nat.lt_succ_self _

/-- A new state and all that can be added to it are paid for by the states still to be found. -/
theorem potential_extend (h : Coherent g (a.extend kernel)) (hkernel : kernel.Genuine g) :
    potential g (a.extend kernel) ≤ potential g a := by
  have hsize := h.size_le
  have hroom := hkernel.room_le
  have hsum : ((List.range (a.kernels.size + 1)).map fun s =>
      ((a.extend kernel).kernel s).room).sum =
      ((List.range a.kernels.size).map fun s => (a.kernel s).room).sum + kernel.room := by
    rw [List.range_succ, List.map_append, List.sum_append, List.map_singleton,
      List.sum_singleton, kernel_extend, if_pos rfl]
    congr 2
    refine List.map_congr_left fun s hs => ?_
    rw [kernel_extend, if_neg (Nat.ne_of_lt (List.mem_range.1 hs))]
  have hqueue : (a.extend kernel).queue.length ≤ a.queue.length + 1 := length_queue_enqueue_le _ _
  rw [size_extend] at hsize
  have hleft : 2 ^ itemCount g - a.kernels.size =
      2 ^ itemCount g - (a.kernels.size + 1) + 1 := by omega
  simp only [potential, size_extend, hsum, hleft, Nat.add_mul, Nat.one_mul]
  omega

/-- Interning finds the state of a kernel, and keeps all that is there. -/
theorem Grows.intern (a : Automaton) (kernel : Kernel) :
    Grows a (a.intern kernel).2 ∧
      kernel.follow ⊆ ((a.intern kernel).2.kernel (a.intern kernel).1).follow := by
  rcases intern_cases a kernel with ⟨state, hfind, hgrew, hintern⟩ | ⟨state, hfind, hgrew, hintern⟩ |
    ⟨hfind, hintern⟩
  · obtain ⟨-, hcore⟩ := core_of_find? hfind
    have hfollow := Kernel.follow_merge hcore
    rw [Kernel.merge_of_not_grew hgrew] at hfollow
    rw [hintern]
    exact ⟨.refl a, hfollow ▸ Set.subset_union_right⟩
  · obtain ⟨hlt, hcore⟩ := core_of_find? hfind
    have hfollow := Kernel.follow_merge hcore
    rw [hintern]
    refine ⟨.widen hlt (core_merge _ _) (hfollow ▸ Set.subset_union_left), ?_⟩
    rw [kernel_widen hlt, if_pos rfl, hfollow]
    exact Set.subset_union_right
  · rw [hintern]
    refine ⟨.extend a kernel, ?_⟩
    rw [kernel_extend, if_pos rfl]

theorem Coherent.intern (h : Coherent g a) (hkernel : kernel.Genuine g) :
    Coherent g (a.intern kernel).2 := by
  rcases intern_cases a kernel with ⟨state, -, -, hintern⟩ | ⟨state, hfind, -, hintern⟩ |
    ⟨hfind, hintern⟩
  · rw [hintern]
    exact h
  · obtain ⟨hlt, hcore⟩ := core_of_find? hfind
    rw [hintern]
    exact h.widen hlt ((h.genuine state hlt).merge hkernel hcore) (core_merge _ _)
  · rw [hintern]
    exact h.extend hkernel hfind

/-- Interning puts no more into the queue than it takes from the room that is left. -/
theorem potential_intern (h : Coherent g a) (hkernel : kernel.Genuine g) :
    potential g (a.intern kernel).2 ≤ potential g a := by
  rcases intern_cases a kernel with ⟨state, -, -, hintern⟩ | ⟨state, hfind, hgrew, hintern⟩ |
    ⟨hfind, hintern⟩
  · rw [hintern]
  · obtain ⟨hlt, -⟩ := core_of_find? hfind
    have hroom := Kernel.room_merge (h.genuine state hlt).lookaheads hkernel.lookaheads
    rw [hgrew, Bool.toNat_true] at hroom
    rw [hintern]
    exact potential_widen g hlt hroom
  · rw [hintern]
    exact potential_extend (h.extend hkernel hfind) hkernel

/-! ## Expanding -/

/-- An edge reads the symbol of a kernel and leads to its state, which has all its lookaheads. -/
structure Reaches (a : Automaton) (next : Symbol × Kernel) (edge : Symbol × Nat) : Prop where
  symbol : edge.1 = next.1
  lt : edge.2 < a.kernels.size
  core : a.core edge.2 = next.2.core
  follow : next.2.follow ⊆ (a.kernel edge.2).follow

theorem Reaches.mono {next : Symbol × Kernel} {edge : Symbol × Nat} (h : a.Reaches next edge)
    (hgrows : Grows a a') : a'.Reaches next edge where
  symbol := h.symbol
  lt := Nat.lt_of_lt_of_le h.lt hgrows.size_le
  core := (hgrows.core_eq _ h.lt).trans h.core
  follow := h.follow.trans (hgrows.follow _ h.lt)

theorem internAll_grows {list : List (Symbol × Kernel)} (h : Coherent g a)
    (hall : ∀ next ∈ list, next.2.Genuine g) :
    Grows a (internAll list a).2 ∧ Coherent g (internAll list a).2 ∧
      potential g (internAll list a).2 ≤ potential g a ∧
      List.Forall₂ (internAll list a).2.Reaches list (internAll list a).1 := by
  induction list generalizing a with
  | nil => exact ⟨.refl a, h, Nat.le_refl _, .nil⟩
  | cons next rest ih =>
    obtain ⟨symbol, kernel⟩ := next
    obtain ⟨hkernel, hrest⟩ := List.forall_mem_cons.1 hall
    obtain ⟨hlt, hcore, -⟩ := intern_spec a kernel
    obtain ⟨hgrows, hfollow⟩ := Grows.intern a kernel
    obtain ⟨hgrows', hcoherent, hpotential, hreaches⟩ := ih (h.intern hkernel) hrest
    have hfirst : (a.intern kernel).2.Reaches (symbol, kernel) (symbol, (a.intern kernel).1) :=
      ⟨rfl, hlt, hcore, hfollow⟩
    exact ⟨hgrows.trans hgrows', hcoherent, Nat.le_trans hpotential (potential_intern h hkernel),
      .cons (hfirst.mono hgrows') hreaches⟩

/-- Where an edge leads is a matter of the kernels. -/
theorem Reaches.congr {next : Symbol × Kernel} {edge : Symbol × Nat} (h : a.Reaches next edge)
    (hkernels : a'.kernels = a.kernels) : a'.Reaches next edge where
  symbol := h.symbol
  lt := hkernels ▸ h.lt
  core := by
    rw [← h.core]
    simp only [Automaton.core, kernel, hkernels]
  follow := by
    refine h.follow.trans ?_
    simp only [kernel, hkernels]
    exact Set.Subset.rfl

/-- The automaton with other edges for a state. -/
def relink (a : Automaton) (state : Nat) (edges : List (Symbol × Nat)) : Automaton :=
  { a with transitions := a.transitions.setIfInBounds state edges }

theorem edges_relink {edges : List (Symbol × Nat)} (hstate : state < a.transitions.size) (s : Nat) :
    (a.relink state edges).edges s = if s = state then edges else a.edges s := by
  simp only [relink, Automaton.edges, Array.getD_eq_getD_getElem?, Array.getElem?_setIfInBounds]
  by_cases hs : s = state
  · subst hs
    simp [hstate]
  · simp [hs, Ne.symm hs]

theorem Coherent.relink (h : Coherent g a) (state : Nat) (edges : List (Symbol × Nat)) :
    Coherent g (a.relink state edges) where
  transitions := by simpa [Automaton.relink] using h.transitions
  genuine := h.genuine
  distinct := h.distinct
  queue := h.queue

/-- Expanding a state interns all its successors and links it to them. -/
theorem expand_spec (hg : g.WellFormed) (h : Coherent g a) (hstate : state < a.kernels.size) :
    ∃ a' edges, a.expand (Closure.Setting.ofGrammar g) state = a'.relink state edges ∧
      Grows a a' ∧ Coherent g a' ∧ potential g a' ≤ potential g a ∧
      List.Forall₂ a'.Reaches
        (successors g (Closure.ofKernel (Closure.Setting.ofGrammar g) (a.kernel state))) edges := by
  have hgenuine : ∀ next ∈ successors g (Closure.ofKernel (Closure.Setting.ofGrammar g)
      (a.kernel state)), next.2.Genuine g :=
    fun next hnext => (h.genuine state hstate).successor hg hnext
  exact ⟨_, _, rfl, internAll_grows h hgenuine⟩

/-- The successors of a state have been made from its present lookaheads. -/
def UpToDate (g : Grammar) (a : Automaton) (s : Nat) : Prop :=
  List.Forall₂ a.Reaches
    (successors g (Closure.ofKernel (Closure.Setting.ofGrammar g) (a.kernel s))) (a.edges s)

/-- The automaton without the state that is expanded next. -/
def pop (a : Automaton) (rest : List Nat) : Automaton := { a with queue := rest }

theorem Coherent.pop {rest : List Nat} (h : Coherent g a) (hqueue : a.queue = state :: rest) :
    Coherent g (a.pop rest) where
  transitions := h.transitions
  genuine := h.genuine
  distinct := h.distinct
  queue s hs := h.queue s (by rw [hqueue]; exact List.mem_cons_of_mem _ hs)

theorem potential_pop {rest : List Nat} (hqueue : a.queue = state :: rest) :
    potential g (a.pop rest) + 1 = potential g a := by
  have hlength : a.queue.length = (a.pop rest).queue.length + 1 := by
    rw [hqueue, List.length_cons]
    rfl
  rw [potential, potential, hlength]
  change _ + ((List.range a.kernels.size).map fun s => (a.kernel s).room).sum +
    (2 ^ itemCount g - a.kernels.size) * _ + 1 = _
  omega

/-- Every state is waiting or up to date, and the first one begins the start rule. -/
structure Saturating (g : Grammar) (a : Automaton) : Prop where
  coherent : Coherent g a
  start : 0 < a.kernels.size ∧ a.core 0 = [Item.opening Grammar.acceptProduction] ∧
    (Item.opening Grammar.acceptProduction, .eof) ∈ (a.kernel 0).follow
  done : ∀ s < a.kernels.size, s ∈ a.queue ∨ UpToDate g a s

/-- Expanding the next state of the queue brings it up to date. -/
theorem Saturating.expand {rest : List Nat} (hg : g.WellFormed) (h : Saturating g a)
    (hqueue : a.queue = state :: rest) :
    Saturating g ((a.pop rest).expand (Closure.Setting.ofGrammar g) state) ∧
      potential g ((a.pop rest).expand (Closure.Setting.ofGrammar g) state) < potential g a := by
  have hstate : state < a.kernels.size := h.coherent.queue state (by simp [hqueue])
  have hpotential := potential_pop (g := g) hqueue
  obtain ⟨a', edges, hexpand, hgrows, hcoherent, hle, hreaches⟩ :=
    expand_spec hg (h.coherent.pop hqueue) hstate
  have hlt : state < a'.transitions.size := by
    rw [hcoherent.transitions]
    exact Nat.lt_of_lt_of_le hstate hgrows.size_le
  have hsame {list : List (Symbol × Kernel)} {edges' : List (Symbol × Nat)}
      (hall : List.Forall₂ a'.Reaches list edges') :
      List.Forall₂ (a'.relink state edges).Reaches list edges' :=
    hall.imp fun _ _ hreaches => hreaches.congr rfl
  rw [hexpand]
  refine ⟨⟨hcoherent.relink state edges, ?_, fun s hs => ?_⟩, ?_⟩
  · obtain ⟨hpos, hcore, hfollow⟩ := h.start
    exact ⟨Nat.lt_of_lt_of_le hpos hgrows.size_le, (hgrows.core_eq 0 hpos).trans hcore,
      hgrows.follow 0 hpos hfollow⟩
  · -- A state with new lookaheads is waiting, also the one that was expanded.
    rcases hgrows.kept s hs with ⟨hold, hkernel⟩ | hwaiting
    · have hsuccessors : (a'.relink state edges).kernel s = a.kernel s := hkernel
      by_cases heq : s = state
      · right
        rw [UpToDate, edges_relink hlt, if_pos heq, hsuccessors, heq]
        exact hsame hreaches
      · rcases h.done s hold with hwaiting | hdone
        · left
          rw [hqueue] at hwaiting
          exact hgrows.queue s ((List.mem_cons.1 hwaiting).resolve_left heq)
        · right
          have hedges : a'.edges s = a.edges s := hgrows.edges_eq s
          rw [UpToDate, edges_relink hlt, if_neg heq, hsuccessors, hedges]
          refine hsame (hdone.imp fun next edge hreaches => ?_)
          have hpop : (a.pop rest).Reaches next edge := hreaches.congr rfl
          exact hpop.mono hgrows
    · exact Or.inl hwaiting
  · change potential g a' < potential g a
    omega

theorem Saturating.saturate (hg : g.WellFormed) (h : Saturating g a) (fuel : Nat) :
    Saturating g (saturate (Closure.Setting.ofGrammar g) fuel a) ∧
      (potential g a ≤ fuel → (saturate (Closure.Setting.ofGrammar g) fuel a).queue = []) := by
  induction fuel generalizing a with
  | zero =>
    -- The length of the queue is a part of the potential.
    refine ⟨h, fun hfuel => List.length_eq_zero_iff.1 ?_⟩
    simp only [potential] at hfuel
    simp only [Automaton.saturate]
    omega
  | succ fuel ih =>
    simp only [Automaton.saturate]
    split
    · rename_i hqueue
      exact ⟨h, fun _ => hqueue⟩
    · rename_i state rest hqueue
      obtain ⟨hexpand, hless⟩ := h.expand hg hqueue
      obtain ⟨hsaturating, hempty⟩ := ih hexpand
      exact ⟨hsaturating, fun hfuel =>
        hempty (Nat.le_of_lt_succ (Nat.lt_of_lt_of_le hless hfuel))⟩

/-! ## The finished automaton -/

theorem genuine_start (hg : g.WellFormed) :
    Kernel.Genuine g [(Item.opening Grammar.acceptProduction, .singleton .eof)] := by
  obtain ⟨root, -, -, hroot⟩ := hg.accept
  have hitems : Kernel.items [(Item.opening Grammar.acceptProduction, .singleton .eof)] =
      {Item.opening Grammar.acceptProduction} := by
    ext item
    simp [Kernel.items, Kernel.core]
  refine ⟨⟨List.nodup_singleton _, ?_, ?_⟩, List.pairwise_singleton _ _, ?_, hitems ▸ .start, ?_⟩
  · simp [Kernel.core]
  · simpa using TerminalSet.proper_singleton .eof
  · intro item hitem
    obtain rfl := List.mem_singleton.1 hitem
    exact Grammar.mem_items hroot (Nat.zero_le _)
  · rintro ⟨item, kind⟩ ⟨lookahead, hmem, hkind⟩
    obtain ⟨rfl, rfl⟩ := Prod.mk.inj (List.mem_singleton.1 hmem)
    have heof : Kind.eof = kind := by simpa using hkind
    exact ⟨_, .start, hitems.symm, by simp [heof]⟩

theorem initial_eq : Automaton.initial =
    empty.extend [(Item.opening Grammar.acceptProduction, .singleton .eof)] := by
  simp [Automaton.initial, Automaton.intern, find?, empty, extend]

theorem Coherent.empty (g : Grammar) : Coherent g empty := by
  constructor <;> simp [Automaton.empty]

theorem Saturating.initial (hg : g.WellFormed) : Saturating g Automaton.initial := by
  refine ⟨(Coherent.empty g).intern (genuine_start hg), ?_, fun s hs => ?_⟩
  · rw [initial_eq, core, kernel_extend]
    refine ⟨by simp, rfl, ?_⟩
    exact ⟨.singleton .eof, List.mem_singleton.2 rfl, by simp⟩
  · left
    rw [initial_eq] at hs ⊢
    have hzero : s = empty.kernels.size := by
      simp only [size_extend, empty] at hs ⊢
      simpa using hs
    exact (mem_queue_enqueue _ _ _).2 (Or.inr hzero)

/-- The fuel of the automaton is enough: nothing is waiting, and every state is up to date. -/
theorem saturated_build (hg : g.WellFormed) :
    Saturating g (build (Closure.Setting.ofGrammar g)) ∧
      (build (Closure.Setting.ofGrammar g)).queue = [] := by
  obtain ⟨hsaturating, hempty⟩ := (Saturating.initial hg).saturate hg
    (Nat.pow 2 (itemCount g) * (itemCount g * Kind.count + 1) + 1)
  refine ⟨hsaturating, hempty ?_⟩
  have hpotential := potential_intern (Coherent.empty g) (genuine_start hg)
  have hnone : potential g empty = 2 ^ itemCount g * (itemCount g * Kind.count + 1) := by
    simp [potential, empty]
  rw [hnone] at hpotential
  exact Nat.le_succ_of_le hpotential

theorem upToDate_build (hg : g.WellFormed) {s : Nat}
    (hs : s < (build (Closure.Setting.ofGrammar g)).kernels.size) :
    UpToDate g (build (Closure.Setting.ofGrammar g)) s := by
  obtain ⟨hsaturating, hqueue⟩ := saturated_build hg
  rcases hsaturating.done s hs with hwaiting | hdone
  · rw [hqueue] at hwaiting
    cases hwaiting
  · exact hdone

end Automaton
end SqlTree
