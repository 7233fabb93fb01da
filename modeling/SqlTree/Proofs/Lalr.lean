import Mathlib.Data.Set.Function
import SqlTree.Proofs.Saturation

/-!
# The automaton is the merged canonical automaton

The states of the automaton are the sets of items that can be reached, its edges lead where reading a
symbol leads, and the lookaheads of an item are those that it has in any of the canonical states with
the same items.

- `Automaton.IsLalr`      : what the automaton of a grammar has to be
- `Automaton.Terminates`  : the loops that build it stop by themselves
- `Automaton.build_isLalr` : it is that, for every grammar made from rules
-/

namespace SqlTree
namespace Automaton

variable {g : Grammar} {a : Automaton}

/-- The automaton of the reachable sets of items, with the united lookaheads of the canonical states
that have these items. -/
structure IsLalr (g : Grammar) (a : Automaton) : Prop where
  /-- States and reachable sets of items correspond one to one. -/
  states : Set.BijOn (fun s => (a.kernel s).items) {s | s < a.kernels.size}
    {kernel | g.IsKernel kernel}
  /-- No item of a state is listed twice. -/
  nodup : ∀ s < a.kernels.size, (a.core s).Nodup
  /-- The edge on a symbol leads to the items after that symbol. -/
  edges : ∀ s < a.kernels.size, ∀ symbol t, (a.edges s).lookup symbol = some t ↔
    t < a.kernels.size ∧ (a.kernel t).items = g.goto (a.kernel s).items symbol
  /-- An item has the lookaheads that it has in some canonical state with these items. -/
  lookaheads : ∀ s < a.kernels.size, ∀ item lookahead, (item, lookahead) ∈ a.kernel s →
    ∀ kind, lookahead.contains kind = true ↔
      ∃ state, g.IsCanonical state ∧ state.kernel = (a.kernel s).items ∧
        (item, kind) ∈ state.follow
  /-- The same with sets of pairs for canonical states, where these say as much. -/
  pairs : g.Productive → ∀ s < a.kernels.size, ∀ item lookahead, (item, lookahead) ∈ a.kernel s →
    ∀ kind, lookahead.contains kind = true ↔
      ∃ pairs, g.IsPaired pairs ∧ Prod.fst '' pairs = (a.kernel s).items ∧ (item, kind) ∈ pairs

/-- The loops that build an automaton come to their end, for whatever state and whenever they are
run. -/
structure Terminates (g : Grammar) : Prop where
  /-- Another round over the productions adds no first terminals. -/
  first : First.round g (First.ofGrammar g) = First.ofGrammar g
  /-- More steps would not add to the closure of a state. -/
  closure : ∀ fuel s, s < (saturate (Closure.Setting.ofGrammar g) fuel initial).kernels.size →
    ∀ kernel, kernel = (saturate (Closure.Setting.ofGrammar g) fuel initial).kernel s →
      ∀ more, Closure.close (Closure.Setting.ofGrammar g)
          ((kernel.length + g.productions.size) * (Kind.count + 2) + more)
          (Begun.none g.nonterminals.size) (Closure.tasks g kernel) =
        Closure.begun (Closure.Setting.ofGrammar g) kernel
  /-- No state is waiting to be expanded, and more steps would change nothing. -/
  queue : (build (Closure.Setting.ofGrammar g)).queue = [] ∧
    ∃ n, ∀ fuel ≥ n, saturate (Closure.Setting.ofGrammar g) fuel initial =
      build (Closure.Setting.ofGrammar g)

/-! ## Termination -/

theorem saturate_of_queue_eq_nil {setting : Closure.Setting} (h : a.queue = []) (fuel : Nat) :
    saturate setting fuel a = a := by
  cases fuel with
  | zero => rfl
  | succ fuel => simp only [saturate, h]

theorem saturate_add {setting : Closure.Setting} {fuel : Nat}
    (h : (saturate setting fuel a).queue = []) (more : Nat) :
    saturate setting (fuel + more) a = saturate setting fuel a := by
  induction fuel generalizing a with
  | zero => exact saturate_of_queue_eq_nil h _
  | succ fuel ih =>
    rw [Nat.succ_add]
    simp only [saturate] at h ⊢
    split
    · rfl
    · rename_i state rest hqueue
      rw [hqueue] at h
      exact ih h

theorem terminates (hg : g.WellFormed) : Terminates g where
  first := (First.absorb_ofGrammar hg).2.1
  closure fuel s hs kernel hkernel := by
    have hcoherent := ((Saturating.initial hg).saturate hg fuel).1.coherent
    subst hkernel
    exact (Closure.begun_spec hg (hcoherent.genuine s hs).toProper).2
  queue := by
    have hqueue := (saturated_build hg).2
    refine ⟨hqueue, Nat.pow 2 (itemCount g) * (itemCount g * Kind.count + 1) + 1,
      fun fuel hfuel => ?_⟩
    obtain ⟨more, rfl⟩ := Nat.exists_eq_add_of_le hfuel
    exact saturate_add hqueue more

/-! ## States and edges -/

/-- Two states with the same items are one. -/
theorem Coherent.eq_of_items_eq (h : Coherent g a) {s t : Nat} (hs : s < a.kernels.size)
    (ht : t < a.kernels.size) (heq : (a.kernel s).items = (a.kernel t).items) : s = t := by
  have hs' := h.genuine s hs
  have ht' := h.genuine t ht
  exact h.distinct s hs t ht
    (Kernel.core_eq_of_items_eq hs'.sorted hs'.nodup ht'.sorted ht'.nodup heq)

theorem items_eq_of_core_eq {kernel : Kernel} {s : Nat} (h : a.core s = kernel.core) :
    (a.kernel s).items = kernel.items := by
  simp only [Kernel.items, ← h]
  rfl

theorem exists_of_mem_of_forall₂ {α β : Type} {r : α → β → Prop} {as : List α} {bs : List β}
    (h : List.Forall₂ r as bs) :
    (∀ a ∈ as, ∃ b ∈ bs, r a b) ∧ ∀ b ∈ bs, ∃ a ∈ as, r a b := by
  induction h with
  | nil => simp
  | cons hfirst _ ih =>
    refine ⟨fun a ha => ?_, fun b hb => ?_⟩
    · rcases List.mem_cons.1 ha with rfl | ha
      · exact ⟨_, List.mem_cons_self, hfirst⟩
      · obtain ⟨b, hb, hr⟩ := ih.1 a ha
        exact ⟨b, List.mem_cons_of_mem _ hb, hr⟩
    · rcases List.mem_cons.1 hb with rfl | hb
      · exact ⟨_, List.mem_cons_self, hfirst⟩
      · obtain ⟨a, ha, hr⟩ := ih.2 b hb
        exact ⟨a, List.mem_cons_of_mem _ ha, hr⟩

/-- An edge leads to the items after its symbol. -/
theorem UpToDate.items_of_mem (hg : g.WellFormed) (hcoherent : Coherent g a) {s t : Nat}
    {symbol : Symbol} (h : UpToDate g a s) (hs : s < a.kernels.size)
    (hedge : (symbol, t) ∈ a.edges s) :
    t < a.kernels.size ∧ (a.kernel t).items = g.goto (a.kernel s).items symbol := by
  obtain ⟨⟨symbol', next⟩, hnext, hreaches⟩ := (exists_of_mem_of_forall₂ h).2 _ hedge
  obtain rfl : symbol = symbol' := hreaches.symbol
  refine ⟨hreaches.lt, ?_⟩
  rw [items_eq_of_core_eq hreaches.core]
  exact Kernel.items_of_mem_successors hg (hcoherent.genuine s hs).toProper hnext

/-- Where some item asks for a symbol, there is an edge, and the lookaheads have come along. -/
theorem UpToDate.exists_edge (hg : g.WellFormed) (hcoherent : Coherent g a) {s : Nat}
    {symbol : Symbol} (h : UpToDate g a s) (hs : s < a.kernels.size)
    (hsome : (g.goto (a.kernel s).items symbol).Nonempty) :
    ∃ t, (symbol, t) ∈ a.edges s ∧
      ((Canonical.mk (a.kernel s).items (a.kernel s).follow).goto g symbol).follow ⊆
        (a.kernel t).follow := by
  have hproper := (hcoherent.genuine s hs).toProper
  obtain ⟨next, hnext⟩ := Kernel.exists_mem_successors hg hproper hsome
  obtain ⟨⟨symbol', t⟩, hedge, hreaches⟩ := (exists_of_mem_of_forall₂ h).1 _ hnext
  obtain rfl : symbol' = symbol := hreaches.symbol
  refine ⟨t, hedge, ?_⟩
  rw [← Kernel.follow_of_mem_successors hg hproper hnext]
  exact hreaches.follow

theorem exists_lookup_of_mem {edges : List (Symbol × Nat)} {symbol : Symbol} {t : Nat}
    (h : (symbol, t) ∈ edges) : ∃ t', edges.lookup symbol = some t' := by
  cases hlookup : edges.lookup symbol with
  | some t' => exact ⟨t', rfl⟩
  | none =>
    have hne := List.lookup_eq_none_iff.1 hlookup _ h
    simp at hne

/-- The table leads from a state to the items after a symbol, and nowhere else. -/
theorem lookup_edges_iff (hg : g.WellFormed) (hcoherent : Coherent g a) {s : Nat} {symbol : Symbol}
    (h : UpToDate g a s) (hs : s < a.kernels.size) (t : Nat) :
    (a.edges s).lookup symbol = some t ↔
      t < a.kernels.size ∧ (a.kernel t).items = g.goto (a.kernel s).items symbol := by
  have hforward {t : Nat} (hlookup : (a.edges s).lookup symbol = some t) :=
    h.items_of_mem hg hcoherent hs (Table.mem_of_lookup hlookup)
  refine ⟨hforward, ?_⟩
  rintro ⟨ht, hitems⟩
  have hsome : (g.goto (a.kernel s).items symbol).Nonempty :=
    hitems ▸ (hcoherent.genuine t ht).isKernel.nonempty
  obtain ⟨u, hedge, -⟩ := h.exists_edge hg hcoherent hs hsome
  -- The first edge on the symbol need not be this one, but it leads to the same items.
  obtain ⟨u, hlookup⟩ := exists_lookup_of_mem hedge
  obtain ⟨hu, hitems'⟩ := hforward hlookup
  rw [hlookup, hcoherent.eq_of_items_eq hu ht (hitems'.trans hitems.symm)]

/-! ## Lookaheads -/

/-- Every canonical state is part of the state with the same items. -/
theorem exists_state_of_isCanonical (hg : g.WellFormed) {state : Canonical}
    (h : g.IsCanonical state) :
    ∃ s < (build (Closure.Setting.ofGrammar g)).kernels.size,
      ((build (Closure.Setting.ofGrammar g)).kernel s).items = state.kernel ∧
      state.follow ⊆ ((build (Closure.Setting.ofGrammar g)).kernel s).follow := by
  obtain ⟨hcoherent, ⟨hpos, hcore, heof⟩, -⟩ := (saturated_build hg).1
  induction h with
  | start =>
    refine ⟨0, hpos, ?_, Set.singleton_subset_iff.2 heof⟩
    ext item
    have hmem : item ∈ (build (Closure.Setting.ofGrammar g)).core 0 ↔
        item ∈ ({Item.opening Grammar.acceptProduction} : Set Item) := by simp [hcore]
    exact hmem
  | @goto state symbol _ hsome ih =>
    obtain ⟨s, hs, hkernel, hfollow⟩ := ih
    -- The state is up to date, so its successor has the lookaheads that come from the larger set.
    have hdone := upToDate_build hg hs
    rw [← hkernel] at hsome
    obtain ⟨t, hedge, hsub⟩ := hdone.exists_edge hg hcoherent hs hsome
    obtain ⟨ht, hitems⟩ := hdone.items_of_mem hg hcoherent hs hedge
    refine ⟨t, ht, by rw [hitems, hkernel]; rfl, fun entry hentry => hsub ?_⟩
    obtain ⟨item, hfollows, hsymbol, hadvance⟩ := hentry
    refine ⟨item, ?_, hsymbol, hadvance⟩
    rw [← hkernel] at hfollows
    exact hfollows.mono hfollow

theorem contains_iff_exists_isCanonical (hg : g.WellFormed) {s : Nat}
    (hs : s < (build (Closure.Setting.ofGrammar g)).kernels.size) {item : Item}
    {lookahead : TerminalSet}
    (hmem : (item, lookahead) ∈ (build (Closure.Setting.ofGrammar g)).kernel s) (kind : Kind) :
    lookahead.contains kind = true ↔ ∃ state, g.IsCanonical state ∧
      state.kernel = ((build (Closure.Setting.ofGrammar g)).kernel s).items ∧
      (item, kind) ∈ state.follow := by
  have hcoherent := (saturated_build hg).1.coherent
  have hgenuine := hcoherent.genuine s hs
  constructor
  · exact fun hkind => hgenuine.canonical (item, kind) ⟨lookahead, hmem, hkind⟩
  · rintro ⟨state, hstate, hkernel, hfollow⟩
    obtain ⟨t, ht, hitems, hsub⟩ := exists_state_of_isCanonical hg hstate
    obtain rfl := hcoherent.eq_of_items_eq ht hs (hitems.trans hkernel)
    exact (Kernel.mem_follow_iff hgenuine.nodup hmem).1 (hsub hfollow)

theorem isLalr_build (hg : g.WellFormed) : IsLalr g (build (Closure.Setting.ofGrammar g)) := by
  have hcoherent := (saturated_build hg).1.coherent
  refine ⟨⟨fun s hs => (hcoherent.genuine s hs).isKernel, fun s hs t ht heq => ?_,
      fun kernel hkernel => ?_⟩, fun s hs => (hcoherent.genuine s hs).nodup,
    fun s hs symbol t => lookup_edges_iff hg hcoherent (upToDate_build hg hs) hs t,
    fun s hs item lookahead hmem kind => contains_iff_exists_isCanonical hg hs hmem kind,
    fun hproductive s hs item lookahead hmem kind => ?_⟩
  · exact hcoherent.eq_of_items_eq hs ht heq
  · obtain ⟨state, hstate, rfl⟩ := hkernel.exists_isCanonical
    obtain ⟨s, hs, hitems, -⟩ := exists_state_of_isCanonical hg hstate
    exact ⟨s, hs, hitems⟩
  · rw [contains_iff_exists_isCanonical hg hs hmem]
    constructor
    · rintro ⟨state, hstate, hkernel, hfollow⟩
      have himage := hstate.image_follow hg hproductive
      refine ⟨state.follow, (Grammar.isPaired_iff_isCanonical hg hproductive _).2 ?_,
        himage.trans hkernel, hfollow⟩
      rw [himage]
      exact hstate
    · rintro ⟨pairs, hpairs, himage, hmem⟩
      exact ⟨⟨Prod.fst '' pairs, pairs⟩, (Grammar.isPaired_iff_isCanonical hg hproductive _).1 hpairs,
        himage, hmem⟩

/-- The automaton of every grammar made from rules is found after finitely many steps, and it is the
one of the reachable sets of items, with all lookaheads of the canonical automaton and no others. -/
theorem build_isLalr {definitions : List Definition} {root : String}
    (h : Grammar.ofRules definitions root = .ok g) :
    Terminates g ∧ IsLalr g (build (Closure.Setting.ofGrammar g)) :=
  ⟨terminates (Grammar.wellFormed_ofRules h), isLalr_build (Grammar.wellFormed_ofRules h)⟩

/-- Sums: a left-recursive rule, whose state is its own successor. -/
theorem build_isLalr_sum :
    ∃ g, Grammar.ofRules [.hidden "sum" (.alt (.seq [.hidden "sum", .token .plus, .token .ident])
        (.token .ident))] "sum" = .ok g ∧
      Terminates g ∧ IsLalr g (build (Closure.Setting.ofGrammar g)) := by
  obtain ⟨g, h⟩ : ∃ g, Grammar.ofRules [.hidden "sum" (.alt (.seq [.hidden "sum", .token .plus,
      .token .ident]) (.token .ident))] "sum" = .ok g := ⟨_, rfl⟩
  exact ⟨g, h, build_isLalr h⟩

end Automaton
end SqlTree
