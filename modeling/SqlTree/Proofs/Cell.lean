import SqlTree.Proofs.Recognition

/-!
# Cells of a table

What the table does with a terminal in a state is decided among the productions that are complete in
front of the terminal and the items that ask for it. Whoever stays is at least as strong as the others,
and somebody always stays.

- `Grammar.CompleteAt` : a production is complete in front of a terminal
- `Grammar.AsksAt`     : an item asks for a terminal
- `Table.mem_resolve_reduce`, `Table.mem_resolve_shift` : who stays is the strongest
- `Table.reduce_strongest`, `Table.shift_strongest` : the same for the cells of a table
- `Table.actions_ne_nil` : a cell is empty only where nobody claims it
-/

namespace SqlTree

open Item (Begins)

/-! ## Who claims a cell -/

namespace Grammar

/-- A production other than that of the start symbol is complete in a state, in front of a terminal
that may follow it. -/
def CompleteAt (g : Grammar) (state p : Nat) (kind : Kind) : Prop :=
  p ≠ acceptProduction ∧ ∃ mark, g.FollowsAt state ⟨p, mark⟩ kind ∧ Item.rest g ⟨p, mark⟩ = []

/-- An item under way in a state asks for a terminal. -/
def AsksAt (g : Grammar) (state : Nat) (item : Item) (kind : Kind) : Prop :=
  Begins g (g.core state) item ∧ ∃ after, item.rest g = .terminal kind :: after

end Grammar

namespace Table

open Grammar (CompleteAt AsksAt FollowsAt)

variable {g : Grammar} {shift : Option (Nat × Int)} {reductions : List Nat} {p next state : Nat}
  {kind : Kind}

/-! ## Who stays -/

theorem mem_strongest : p ∈ strongest g reductions ↔
    p ∈ reductions ∧ ∀ q ∈ reductions, precOf g q ≤ precOf g p := by
  unfold strongest
  cases hmax : (reductions.map (precOf g)).max? with
  | none =>
    rw [List.max?_eq_none_iff, List.map_eq_nil_iff] at hmax
    simp [hmax]
  | some best =>
    obtain ⟨hmem, hle⟩ := List.max?_eq_some_iff.1 hmax
    obtain ⟨strong, hstrong, rfl⟩ := List.mem_map.1 hmem
    have hle : ∀ q ∈ reductions, precOf g q ≤ precOf g strong :=
      fun q hq => hle _ (List.mem_map_of_mem hq)
    rw [List.mem_filter, beq_iff_eq]
    refine and_congr_right fun hp => ⟨fun heq => heq ▸ hle, fun h => ?_⟩
    exact Int.le_antisymm (hle p hp) (h strong hstrong)

theorem strongest_ne_nil (h : reductions ≠ []) : strongest g reductions ≠ [] := by
  unfold strongest
  cases hmax : (reductions.map (precOf g)).max? with
  | none =>
    rw [List.max?_eq_none_iff, List.map_eq_nil_iff] at hmax
    exact absurd hmax h
  | some best =>
    obtain ⟨strong, hstrong, rfl⟩ := List.mem_map.1 (List.max?_mem hmax)
    exact List.ne_nil_of_mem (List.mem_filter.2 ⟨hstrong, by simp⟩)

/-- The cases in which a reduction stays, and those in which the shift does. -/
theorem resolve_cons {first : Nat} {rest : List Nat} {strength : Int}
    (h : strongest g reductions = first :: rest) :
    (∀ action ∈ resolve g (some (next, strength)) reductions,
      (∃ p ∈ first :: rest, action = .reduce p ∧ strength ≤ precOf g first) ∨
      (action = .shift next ∧ (precOf g first < strength ∨
        precOf g first = strength ∧ assocOf g first ≠ .left))) ∧
    resolve g (some (next, strength)) reductions ≠ [] := by
  have hreduce {action : Action} (hle : strength ≤ precOf g first)
      (hmem : action ∈ (first :: rest).map Action.reduce) :
      ∃ p ∈ first :: rest, action = .reduce p ∧ strength ≤ precOf g first := by
    obtain ⟨p, hp, rfl⟩ := List.mem_map.1 hmem
    exact ⟨p, hp, rfl, hle⟩
  simp only [resolve, h]
  split
  · rename_i hlt
    exact ⟨fun action hmem => .inl (hreduce (Int.le_of_lt hlt) hmem), by simp⟩
  · rename_i hge
    split
    · rename_i hlt
      exact ⟨fun action hmem => .inr ⟨List.mem_singleton.1 hmem, .inl hlt⟩, by simp⟩
    · rename_i hle
      have heq : precOf g first = strength := by omega
      split
      · exact ⟨fun action hmem => .inl (hreduce heq.ge hmem), by simp⟩
      · rename_i hright
        refine ⟨fun action hmem => .inr ⟨List.mem_singleton.1 hmem, .inr ⟨heq, ?_⟩⟩, by simp⟩
        simp [hright]
      · rename_i hnone
        refine ⟨fun action hmem => ?_, by simp⟩
        rcases List.mem_cons.1 hmem with hmem | hmem
        · exact .inr ⟨hmem, .inr ⟨heq, by simp [hnone]⟩⟩
        · exact .inl (hreduce heq.ge hmem)

/-- A reduction that stays is as strong as the others, and as the shift. -/
theorem mem_resolve_reduce (h : .reduce p ∈ resolve g shift reductions) :
    p ∈ strongest g reductions ∧
      ∀ next strength, shift = some (next, strength) → strength ≤ precOf g p := by
  cases shift with
  | none =>
    refine ⟨?_, by simp⟩
    obtain ⟨q, hq, heq⟩ := List.mem_map.1 h
    cases heq
    exact hq
  | some candidate =>
    obtain ⟨next, strength⟩ := candidate
    cases hlist : strongest g reductions with
    | nil => simp [resolve, hlist] at h
    | cons first rest =>
      rcases (resolve_cons hlist).1 _ h with ⟨q, hq, heq, hle⟩ | ⟨heq, -⟩
      · cases heq
        have hfirst : first ∈ strongest g reductions := hlist ▸ List.mem_cons_self
        have hp : p ∈ strongest g reductions := hlist ▸ hq
        refine ⟨hq, fun next' strength' heq => ?_⟩
        cases heq
        exact hle.trans ((mem_strongest.1 hp).2 first (mem_strongest.1 hfirst).1)
      · cases heq

/-- A shift that stays is as strong as every reduction, and stronger where these group to the left. -/
theorem mem_resolve_shift (h : .shift next ∈ resolve g shift reductions) :
    ∃ strength, shift = some (next, strength) ∧ ∀ p ∈ reductions, precOf g p ≤ strength ∧
      (precOf g p = strength →
        ∃ q ∈ reductions, precOf g q = precOf g p ∧ assocOf g q ≠ .left) := by
  cases shift with
  | none =>
    obtain ⟨q, -, heq⟩ := List.mem_map.1 h
    cases heq
  | some candidate =>
    obtain ⟨state, strength⟩ := candidate
    cases hlist : strongest g reductions with
    | nil =>
      have hnil : reductions = [] := by
        by_contra hne
        exact strongest_ne_nil hne hlist
      simp only [resolve, hlist, List.mem_singleton, Action.shift.injEq] at h
      exact ⟨strength, by rw [h], by simp [hnil]⟩
    | cons first rest =>
      rcases (resolve_cons hlist).1 _ h with ⟨q, -, heq, -⟩ | ⟨heq, hstronger⟩
      · cases heq
      · cases heq
        obtain ⟨hfirst, hall⟩ := mem_strongest.1 (hlist ▸ List.mem_cons_self : first ∈ _)
        refine ⟨strength, rfl, fun p hp => ?_⟩
        have hle := hall p hp
        rcases hstronger with hlt | ⟨heq, hassoc⟩
        · exact ⟨by omega, fun _ => by omega⟩
        · exact ⟨by omega, fun hsame => ⟨first, hfirst, by omega, hassoc⟩⟩

theorem resolve_ne_nil (h : shift.isSome = true ∨ reductions ≠ []) :
    resolve g shift reductions ≠ [] := by
  cases shift with
  | none =>
    have hne : reductions ≠ [] := by simpa using h
    have hstrong := strongest_ne_nil (g := g) hne
    simpa [resolve] using hstrong
  | some candidate =>
    obtain ⟨state, strength⟩ := candidate
    cases hlist : strongest g reductions with
    | nil => simp [resolve, hlist]
    | cons first rest => exact (resolve_cons hlist).2

/-! ## Cells -/

/-- The items under way in a state, with their lookaheads. -/
def itemsAt (g : Grammar) (state : Nat) : Kernel :=
  Closure.ofKernel (Closure.Setting.ofGrammar g)
    ((Automaton.build (Closure.Setting.ofGrammar g)).kernel state)

/-- The productions that are complete in front of a terminal. -/
def reductionsAt (g : Grammar) (state : Nat) (kind : Kind) : List Nat :=
  ((Row.complete g (itemsAt g state)).filter fun (p, _) => p != Grammar.acceptProduction).filterMap
    fun (p, lookahead) => if lookahead.contains kind then some p else none

/-- The shift of a terminal with its strength. -/
def shiftAt (g : Grammar) (state : Nat) (kind : Kind) : Option (Nat × Int) :=
  (((Automaton.build (Closure.Setting.ofGrammar g)).edges state).lookup (.terminal kind)).map
    fun next => (next, (Row.shiftStrength? g (itemsAt g state) kind).getD 0)

theorem lt_of_mem_actions {action : Action} (h : action ∈ (ofGrammar g).actions state kind) :
    state < (Automaton.build (Closure.Setting.ofGrammar g)).kernels.size := by
  unfold actions at h
  split at h
  · rename_i row hrow
    obtain ⟨hlt, -⟩ := Array.getElem?_eq_some_iff.1 hrow
    simpa [ofGrammar] using hlt
  · cases h

theorem isToken_of_mem_actions {action : Action} (h : action ∈ (ofGrammar g).actions state kind) :
    kind.isToken = true := by
  rw [actions, rows_ofGrammar (lt_of_mem_actions h)] at h
  simp only [Row.ofItems, Array.getD_eq_getD_getElem?, List.getElem?_toArray,
    List.getElem?_map] at h
  cases hkind : Kind.terminals[kind.id]? with
  | none => simp [hkind] at h
  | some other =>
    obtain ⟨hlt, -⟩ := List.getElem?_eq_some_iff.1 hkind
    have hcount : Kind.terminals.length ≤ Kind.terminalCount := List.length_take_le _ _
    simpa [Kind.isToken] using hlt.trans_le hcount

/-- A cell accepts, or binding strengths decide it. -/
theorem actions_ofGrammar
    (hstate : state < (Automaton.build (Closure.Setting.ofGrammar g)).kernels.size)
    (hkind : kind.isToken = true) :
    (ofGrammar g).actions state kind =
      if (Row.complete g (itemsAt g state)).any (fun (p, _) => p == Grammar.acceptProduction) &&
        kind == .eof then [.accept]
      else resolve g (shiftAt g state kind) (reductionsAt g state kind) := by
  rw [actions, rows_ofGrammar hstate]
  simp only [Row.ofItems, Array.getD_eq_getD_getElem?, List.getElem?_toArray, List.getElem?_map,
    getElem?_terminals_of_isToken hkind, Option.map_some, Option.getD_some, shiftAt, reductionsAt,
    itemsAt]

theorem mem_reductionsAt (hg : g.WellFormed)
    (hstate : state < (Automaton.build (Closure.Setting.ofGrammar g)).kernels.size) :
    p ∈ reductionsAt g state kind ↔ g.CompleteAt state p kind := by
  have hproper := ((Automaton.saturated_build hg).1.coherent.genuine state hstate).toProper
  constructor
  · intro h
    obtain ⟨⟨q, lookahead⟩, hmem, hcontains⟩ := List.mem_filterMap.1 h
    obtain ⟨hmem, hne⟩ := List.mem_filter.1 hmem
    obtain ⟨hlookahead, heq⟩ := Option.ite_none_right_eq_some.1 hcontains
    obtain rfl := Option.some.inj heq
    obtain ⟨⟨item, lookahead'⟩, hitem, heq⟩ := List.mem_map.1 hmem
    obtain ⟨rfl, rfl⟩ := Prod.mk.inj heq
    obtain ⟨hitem, hrest⟩ := List.mem_filter.1 ((Kernel.sort_perm _).mem_iff.1 hitem)
    have hfollow : (item, kind) ∈ (itemsAt g state).follow := ⟨lookahead', hitem, hlookahead⟩
    rw [itemsAt, Closure.follow_ofKernel hg hproper] at hfollow
    exact ⟨by simpa using hne, item.mark, ⟨hstate, hfollow⟩, by simpa using hrest⟩
  · rintro ⟨hne, mark, hfollows, hrest⟩
    obtain ⟨lookahead, hcontains, hmem⟩ := hfollows.mem_complete hg hrest
    refine List.mem_filterMap.2 ⟨(p, lookahead), List.mem_filter.2 ⟨hmem, by simpa using hne⟩, ?_⟩
    exact if_pos hcontains

theorem mem_itemsAt {item : Item} (hg : g.WellFormed)
    (hstate : state < (Automaton.build (Closure.Setting.ofGrammar g)).kernels.size) :
    (∃ lookahead, (item, lookahead) ∈ itemsAt g state) ↔ Begins g (g.core state) item := by
  have hproper := ((Automaton.saturated_build hg).1.coherent.genuine state hstate).toProper
  have hitems := Closure.items_ofKernel hg hproper
  have hmem : item ∈ (itemsAt g state).items ↔ g.Closed
      ((Automaton.build (Closure.Setting.ofGrammar g)).kernel state).items item := by
    rw [itemsAt, hitems]
    rfl
  rw [closed_iff_begins] at hmem
  refine Iff.trans ?_ hmem
  simp [Kernel.items, Kernel.core]

/-- An edge leads to where the items that ask for its symbol have read it. -/
theorem advance_mem_core {item : Item} {symbol : Symbol} {after : List Symbol} (hg : g.WellFormed)
    (hstate : state < (Automaton.build (Closure.Setting.ofGrammar g)).kernels.size)
    (hbegins : Begins g (g.core state) item) (hrest : item.rest g = symbol :: after)
    (hlookup : ((Automaton.build (Closure.Setting.ofGrammar g)).edges state).lookup symbol =
      some next) :
    next < (Automaton.build (Closure.Setting.ofGrammar g)).kernels.size ∧
      item.advance ∈ g.core next := by
  have hcoherent := (Automaton.saturated_build hg).1.coherent
  obtain ⟨hnext, hitems⟩ := (Automaton.lookup_edges_iff hg hcoherent
    (Automaton.upToDate_build hg hstate) hstate next).1 hlookup
  refine ⟨hnext, ?_⟩
  have hmem : item.advance ∈ ((Automaton.build (Closure.Setting.ofGrammar g)).kernel next).items := by
    rw [hitems]
    exact ⟨item, (closed_iff_begins g _ item).2 hbegins, by rw [hrest]; rfl, rfl⟩
  exact hmem

/-- The mark of an item is inside its production. -/
theorem mark_le_of_begins {mark : Nat} {production : Production} (hg : g.WellFormed)
    (hstate : state < (Automaton.build (Closure.Setting.ofGrammar g)).kernels.size)
    (hbegins : Begins g (g.core state) ⟨p, mark⟩) (hp : g.productions[p]? = some production) :
    mark ≤ production.rhs.length := by
  have hgenuine := (Automaton.saturated_build hg).1.coherent.genuine state hstate
  generalize hitem : Item.mk p mark = item at hbegins
  cases hbegins with
  | kernel hmem =>
    have hfits := hgenuine.fits item hmem
    rw [← hitem] at hfits
    obtain ⟨q, -, hq⟩ := List.mem_flatMap.1 hfits
    obtain ⟨mark', hmark, heq⟩ := List.mem_map.1 hq
    obtain ⟨rfl, rfl⟩ := Item.mk.inj heq
    rw [hp] at hmark
    exact Nat.le_of_lt_succ (List.mem_range.1 hmark)
  | opening =>
    obtain rfl : mark = 0 := congrArg Item.mark hitem
    exact Nat.zero_le _

/-- The strengths among which that of a shift is chosen are those of the items that ask for the
terminal. -/
theorem exists_strengths (hg : g.WellFormed)
    (hstate : state < (Automaton.build (Closure.Setting.ofGrammar g)).kernels.size) (kind : Kind) :
    ∃ strengths : List Int, Row.shiftStrength? g (itemsAt g state) kind = strengths.max? ∧
      ∀ strength, strength ∈ strengths ↔
        ∃ item, g.AsksAt state item kind ∧ precOf g item.production = strength := by
  refine ⟨_, rfl, fun strength => ?_⟩
  rw [List.mem_filterMap]
  constructor
  · rintro ⟨⟨item, lookahead⟩, hmem, hitem⟩
    dsimp only at hitem
    split at hitem
    · rename_i asked after hrest
      obtain ⟨rfl, hprec⟩ := Option.ite_none_right_eq_some.1 hitem
      exact ⟨item, ⟨(mem_itemsAt hg hstate).1 ⟨lookahead, hmem⟩, after, hrest⟩,
        Option.some.inj hprec⟩
    · cases hitem
  · rintro ⟨item, ⟨hbegins, after, hrest⟩, rfl⟩
    obtain ⟨lookahead, hmem⟩ := (mem_itemsAt hg hstate).2 hbegins
    exact ⟨(item, lookahead), hmem, by simp [hrest]⟩

/-- The strength of a shift is the greatest of the items that ask for the terminal. -/
theorem shiftAt_spec (hg : g.WellFormed)
    (hstate : state < (Automaton.build (Closure.Setting.ofGrammar g)).kernels.size)
    {strength : Int} (h : shiftAt g state kind = some (next, strength)) :
    (∃ item, g.AsksAt state item kind ∧ precOf g item.production = strength) ∧
      ∀ item, g.AsksAt state item kind → precOf g item.production ≤ strength := by
  obtain ⟨target, hlookup, heq⟩ := Option.map_eq_some_iff.1 h
  obtain ⟨rfl, rfl⟩ := Prod.mk.inj heq
  obtain ⟨strengths, hmax, hmem⟩ := exists_strengths hg hstate kind
  -- An edge is there because some item asks for its terminal.
  obtain ⟨hne, hall⟩ := leads_of_edge (mem_of_lookup hlookup)
  obtain ⟨item, hitem⟩ := List.exists_mem_of_ne_nil _ hne
  obtain ⟨before, -, hbegins, hsymbol⟩ := hall item hitem
  obtain ⟨after, hrest⟩ := List.head?_eq_some_iff.1 hsymbol
  have hasked := (hmem _).2 ⟨before, ⟨hbegins, after, hrest⟩, rfl⟩
  rw [hmax]
  cases hbest : strengths.max? with
  | none =>
    rw [List.max?_eq_none_iff] at hbest
    simp [hbest] at hasked
  | some best =>
    obtain ⟨hbest, hle⟩ := List.max?_eq_some_iff.1 hbest
    exact ⟨(hmem best).1 hbest, fun item hasks => hle _ ((hmem _).2 ⟨item, hasks, rfl⟩)⟩

theorem shiftAt_isSome (hg : g.WellFormed)
    (hstate : state < (Automaton.build (Closure.Setting.ofGrammar g)).kernels.size) {item : Item}
    (h : g.AsksAt state item kind) : (shiftAt g state kind).isSome = true := by
  obtain ⟨hbegins, after, hrest⟩ := h
  obtain ⟨next, hlookup⟩ := exists_lookup_edges hg hstate hbegins (by rw [hrest]; rfl)
  simp [shiftAt, hlookup]

/-- Where the table reduces, the production is complete, and as strong as all others that are and as
all items that ask for the terminal. -/
theorem reduce_strongest (hg : g.WellFormed) (h : .reduce p ∈ (ofGrammar g).actions state kind) :
    g.CompleteAt state p kind ∧ (∀ q, g.CompleteAt state q kind → precOf g q ≤ precOf g p) ∧
      ∀ item, g.AsksAt state item kind → precOf g item.production ≤ precOf g p := by
  have hstate := lt_of_mem_actions h
  rw [actions_ofGrammar hstate (isToken_of_mem_actions h)] at h
  split at h
  · cases List.mem_singleton.1 h
  · obtain ⟨hstrong, hshift⟩ := mem_resolve_reduce h
    obtain ⟨hmem, hall⟩ := mem_strongest.1 hstrong
    refine ⟨(mem_reductionsAt hg hstate).1 hmem, fun q hq => ?_, fun item hitem => ?_⟩
    · exact hall q ((mem_reductionsAt hg hstate).2 hq)
    · obtain ⟨⟨next, strength⟩, hsome⟩ := Option.isSome_iff_exists.1 (shiftAt_isSome hg hstate hitem)
      exact ((shiftAt_spec hg hstate hsome).2 item hitem).trans (hshift next strength hsome)

/-- Where the table shifts, some item that asks for the terminal is as strong as any production that is
complete, and stronger where productions of that strength group to the left. -/
theorem shift_strongest (hg : g.WellFormed) (h : .shift next ∈ (ofGrammar g).actions state kind)
    (hp : g.CompleteAt state p kind) :
    ∃ item, g.AsksAt state item kind ∧ precOf g p ≤ precOf g item.production ∧
      (precOf g p = precOf g item.production →
        ∃ q, g.CompleteAt state q kind ∧ precOf g q = precOf g p ∧ assocOf g q ≠ .left) := by
  have hstate := lt_of_mem_actions h
  rw [actions_ofGrammar hstate (isToken_of_mem_actions h)] at h
  split at h
  · cases List.mem_singleton.1 h
  · obtain ⟨strength, hshift, hall⟩ := mem_resolve_shift h
    obtain ⟨hle, hequal⟩ := hall p ((mem_reductionsAt hg hstate).2 hp)
    obtain ⟨⟨item, hitem, rfl⟩, -⟩ := shiftAt_spec hg hstate hshift
    refine ⟨item, hitem, hle, fun heq => ?_⟩
    obtain ⟨q, hq, hprec, hassoc⟩ := hequal heq
    exact ⟨q, (mem_reductionsAt hg hstate).1 hq, hprec, hassoc⟩

/-- Where an item asks for a terminal, or a production is complete in front of it, the table has an
action. -/
theorem actions_ne_nil (hg : g.WellFormed)
    (hstate : state < (Automaton.build (Closure.Setting.ofGrammar g)).kernels.size)
    (hkind : kind.isToken = true)
    (h : (∃ item, g.AsksAt state item kind) ∨ ∃ p, g.CompleteAt state p kind) :
    (ofGrammar g).actions state kind ≠ [] := by
  rw [actions_ofGrammar hstate hkind]
  split
  · simp
  · apply resolve_ne_nil
    rcases h with ⟨item, hitem⟩ | ⟨p, hp⟩
    · exact .inl (shiftAt_isSome hg hstate hitem)
    · exact .inr (List.ne_nil_of_mem ((mem_reductionsAt hg hstate).2 hp))

/-- Where the start rule is complete, the table accepts the end of the input. -/
theorem accept_mem_actions (hg : g.WellFormed) {mark : Nat}
    (h : g.FollowsAt state ⟨Grammar.acceptProduction, mark⟩ .eof)
    (hrest : Item.rest g ⟨Grammar.acceptProduction, mark⟩ = []) :
    .accept ∈ (ofGrammar g).actions state .eof := by
  obtain ⟨lookahead, -, hmem⟩ := h.mem_complete hg hrest
  have haccepts : ((Row.complete g (itemsAt g state)).any
      fun (p, _) => p == Grammar.acceptProduction) = true :=
    List.any_eq_true.2 ⟨_, hmem, by simp⟩
  rw [actions_ofGrammar h.1 (by decide), haccepts]
  simp

end Table
end SqlTree
