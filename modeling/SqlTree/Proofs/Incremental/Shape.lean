import SqlTree.Proofs.Incremental.Agreement
import SqlTree.Proofs.Change

/-!
# What a decision depends on

What a parse decides depends on the shape of its stack and on the lexemes ahead, and neither on the
numbers of elements and the records of nodes nor on how far the text has been read.

- `Entry.shape`, `Stack.shape` : entries and stacks as far as their structure goes
- `Simulation.go_congr`        : looking ahead depends on structure only
- `Machine.choose_congr`       : so does the choice between several actions
-/

namespace SqlTree

/-! ## Elements -/

namespace Element

mutual

@[simp]
theorem text_shape : (e : Element) → e.shape.text = e.text
  | token .. => rfl
  | node _ _ _ children => textAll_shapes children

theorem textAll_shapes : (es : List Element) → textAll (shapes es) = textAll es
  | [] => rfl
  | e :: rest => by rw [shapes, textAll, textAll, text_shape e, textAll_shapes rest]

end

@[simp]
theorem textAll_map_shape (es : List Element) : textAll (es.map shape) = textAll es := by
  rw [← shapes_eq_map, textAll_shapes]

/-- New tokens as far as their shape goes. -/
def bareTokens (leaves : List Leaf) : List Element :=
  leaves.map fun leaf => token 0 leaf.1 leaf.2

theorem textAll_bareTokens (leaves : List Leaf) : textAll (bareTokens leaves) = Lexeme.spell leaves := by
  induction leaves with
  | nil => rfl
  | cons leaf leaves ih =>
    rw [bareTokens, List.map_cons, textAll_cons, text_token, ← bareTokens, ih]
    rfl

end Element

namespace Entry

open Element (shape bareTokens)

/-- The entry without numbers, without what is recorded about nodes, and without its place. -/
def shape (e : Entry) : Entry :=
  { e with
    leading := e.leading.map Element.shape
    elements := e.elements.map Element.shape
    start := 0
    stop := 0 }

theorem shape_join (e child : Entry) : (e.join child).shape = e.shape.join child.shape := by
  unfold join shape
  cases he : e.elements <;> simp

theorem shape_foldl_join (children : List Entry) (e : Entry) :
    (children.foldl join e).shape = (children.map shape).foldl join e.shape := by
  induction children generalizing e with
  | nil => rfl
  | cons child children ih => rw [List.foldl_cons, ih, shape_join, List.map_cons, List.foldl_cons]

theorem shape_ofChildren (state : Nat) (children : List Entry) (offset : Nat) :
    (ofChildren state children offset).shape = ofChildren state (children.map shape) 0 := by
  rw [ofChildren, shape_foldl_join]
  rfl

end Entry

namespace Stack

/-- The stack without numbers and places. -/
def shape (stack : Stack) : Stack := stack.map Entry.shape

@[simp]
theorem topState_shape (stack : Stack) : topState (shape stack) = topState stack := by
  cases stack <;> rfl

theorem topState_of_shape_eq {a b : Stack} (h : shape a = shape b) : topState a = topState b := by
  rw [← topState_shape a, h, topState_shape]

theorem popSymbols?_shape (n : Nat) (stack : Stack) (taken : List Entry) :
    popSymbols? n (shape stack) (taken.map Entry.shape) =
      (popSymbols? n stack taken).map fun found => (found.1.map Entry.shape, shape found.2) := by
  fun_induction popSymbols? n stack taken with
  | case1 stack taken => simp [popSymbols?]
  | case2 n e next rest taken hextra ih =>
    have hshape : (Entry.shape e).extra = true := hextra
    simp only [shape, List.map_cons, popSymbols?, hshape, if_true] at ih ⊢
    exact ih
  | case3 n e next rest taken hextra ih =>
    have hshape : ¬ (Entry.shape e).extra = true := hextra
    simp only [shape, List.map_cons, popSymbols?, if_neg hshape] at ih ⊢
    exact ih
  | case4 stack n taken hshort =>
    cases stack with
    | nil => rfl
    | cons e stack =>
      cases stack with
      | nil => rfl
      | cons next rest => exact absurd rfl (hshort e next rest)

theorem map_shape_elements (stack : Stack) :
    (Machine.elements stack).map Element.shape = Machine.elements (shape stack) := by
  simp only [Machine.elements, shape, List.map_flatMap, List.map_append, ← List.map_reverse,
    List.flatMap_map]
  rfl

theorem takeWhile_extra_shape (stack : Stack) :
    (shape stack).takeWhile Entry.extra = shape (stack.takeWhile Entry.extra) := by
  rw [shape, List.takeWhile_map]
  rfl

theorem dropWhile_extra_shape (stack : Stack) :
    (shape stack).dropWhile Entry.extra = shape (stack.dropWhile Entry.extra) := by
  rw [shape, List.dropWhile_map]
  rfl

end Stack

/-! ## Looking ahead -/

namespace Overlay

/-- The stack without numbers and places. -/
def shape (o : Overlay) : Overlay := ⟨o.pushed, Stack.shape o.below⟩

theorem top?_shape (o : Overlay) : o.shape.top? = o.top? := by
  obtain ⟨pushed, below⟩ := o
  cases pushed with
  | cons state rest => rfl
  | nil =>
    simp only [shape, top?, Stack.shape, List.find?_map, Option.map_map]
    rfl

theorem popBelow_shape (n : Nat) (stack : Stack) : popBelow n (Stack.shape stack) =
    ((popBelow n stack).1, Stack.shape (popBelow n stack).2) := by
  induction n generalizing stack with
  | zero => rfl
  | succ n ih =>
    simp only [popBelow, Stack.dropWhile_extra_shape]
    cases stack.dropWhile Entry.extra with
    | nil => rfl
    | cons e rest => exact ih rest

theorem pop_shape (o : Overlay) (n : Nat) :
    o.shape.pop n = ((o.pop n).1, (o.pop n).2.shape) := by
  simp only [pop, shape, popBelow_shape]

end Overlay

namespace Simulation

variable {table : Table} {trial : Trial} {s s' : Simulation}

/-- The simulations differ only in numbers and places, and in how far the text has been read. -/
structure Like (s s' : Simulation) : Prop where
  stack : s.stack.shape = s'.stack.shape
  ahead : s.source.ahead = s'.source.ahead
  consumed : s.consumed = s'.consumed
  halves : s.halves = s'.halves

theorem Like.kind (h : Like s s') (trial : Trial) : (s.kind trial).1 = (s'.kind trial).1 ∧
    Like (s.kind trial).2 (s'.kind trial).2 := by
  have hpeek (n : Nat) : (s.source.peek n).1.kind = (s'.source.peek n).1.kind := by
    have hahead := congrFun h.ahead n
    rw [Source.ahead, Source.ahead] at hahead
    rw [hahead]
  have hlook (n : Nat) : Like { s with source := (s.source.peek n).2 }
      { s' with source := (s'.source.peek n).2 } := by
    refine ⟨h.stack, ?_, h.consumed, h.halves⟩
    funext i
    simp only [Source.ahead_peek, h.ahead]
  obtain ⟨stack, source, consumed, halves⟩ := s
  obtain ⟨stack', source', consumed', halves'⟩ := s'
  obtain rfl : consumed = consumed' := h.consumed
  obtain rfl : halves = halves' := h.halves
  unfold Simulation.kind
  dsimp only
  split
  · exact ⟨rfl, h⟩
  · split
    · exact ⟨rfl, h⟩
    · exact ⟨hpeek _, hlook _⟩
    · exact ⟨hpeek _, hlook _⟩

theorem Like.top? (h : Like s s') : s.stack.top? = s'.stack.top? := by
  rw [← Overlay.top?_shape, h.stack, Overlay.top?_shape]

theorem Like.action? (h : Like s s') (table : Table) (forced : Option Action) (state : Nat)
    (kind : Kind) :
    (s.action? table forced state kind = none ∧ s'.action? table forced state kind = none) ∨
      ∃ action t t', s.action? table forced state kind = some (action, t) ∧
        s'.action? table forced state kind = some (action, t') ∧ Like t t' := by
  unfold Simulation.action?
  split
  · exact Or.inr ⟨_, _, _, rfl, rfl, h⟩
  · split
    · cases table.firstAction? state .gt with
      | none => exact Or.inl ⟨rfl, rfl⟩
      | some action => exact Or.inr ⟨_, _, _, rfl, rfl, ⟨h.stack, h.ahead, h.consumed, rfl⟩⟩
    · exact Or.inl ⟨rfl, rfl⟩

theorem Like.shift (h : Like s s') (state : Nat) : Like (s.shift state) (s'.shift state) := by
  have hstack : (s.stack.push state).shape = (s'.stack.push state).shape := by
    have hpushed := congrArg Overlay.pushed h.stack
    have hbelow := congrArg Overlay.below h.stack
    simp only [Overlay.shape] at hpushed hbelow
    simp only [Overlay.shape, Overlay.push, hpushed, hbelow]
  unfold Simulation.shift
  simp only [h.halves]
  split
  · exact ⟨hstack, h.ahead, h.consumed, rfl⟩
  · exact ⟨hstack, h.ahead, congrArg (· + 1) h.consumed, rfl⟩

theorem Like.reduce? (h : Like s s') (table : Table) (production : Nat) :
    (s.reduce? table production = none ∧ s'.reduce? table production = none) ∨
      ∃ t t', s.reduce? table production = some t ∧ s'.reduce? table production = some t' ∧
        Like t t' := by
  unfold Simulation.reduce?
  cases table.grammar.productions[production]? with
  | none => exact Or.inl ⟨rfl, rfl⟩
  | some p =>
    have hpop : (s.stack.pop p.rhs.length).1 = (s'.stack.pop p.rhs.length).1 ∧
        (s.stack.pop p.rhs.length).2.shape = (s'.stack.pop p.rhs.length).2.shape := by
      have hshape := Overlay.pop_shape s.stack p.rhs.length
      rw [h.stack, Overlay.pop_shape] at hshape
      exact ⟨(congrArg Prod.fst hshape).symm, (congrArg Prod.snd hshape).symm⟩
    simp only [Option.bind_some]
    generalize s.stack.pop p.rhs.length = popped at hpop
    generalize s'.stack.pop p.rhs.length = popped' at hpop
    obtain ⟨enough, stack⟩ := popped
    obtain ⟨enough', stack'⟩ := popped'
    obtain ⟨rfl, hstack⟩ := hpop
    cases enough with
    | false => exact Or.inl ⟨rfl, rfl⟩
    | true =>
      have htop : stack.top? = stack'.top? := by
        rw [← Overlay.top?_shape, hstack, Overlay.top?_shape]
      simp only [htop]
      cases stack'.top? with
      | none => exact Or.inl ⟨rfl, rfl⟩
      | some top =>
        simp only [Option.bind_some]
        cases table.goto? top p.lhs with
        | none => exact Or.inl ⟨rfl, rfl⟩
        | some next =>
          refine Or.inr ⟨_, _, rfl, rfl, ⟨?_, h.ahead, h.consumed, h.halves⟩⟩
          have hpushed := congrArg Overlay.pushed hstack
          have hbelow := congrArg Overlay.below hstack
          simp only [Overlay.shape] at hpushed hbelow
          simp only [Overlay.shape, Overlay.push, hpushed, hbelow]

/-- How far a simulation gets depends on shapes only. -/
theorem go_congr (budget : Nat) (forced : Option Action) (h : Like s s') :
    (go table trial budget forced s).1 = (go table trial budget forced s').1 := by
  induction budget generalizing forced s s' with
  | zero => simp only [go, h.consumed]
  | succ budget ih =>
    obtain ⟨hkind, hlook⟩ := h.kind trial
    simp only [go, h.consumed]
    split
    · rfl
    · rw [hkind, hlook.top?]
      generalize (s.kind trial).2 = t at hlook
      generalize (s'.kind trial).2 = t' at hlook
      cases t'.stack.top? with
      | none => simp only [Option.bind_none, hlook.consumed]
      | some state =>
        simp only [Option.bind_some]
        rcases hlook.action? table forced state (s'.kind trial).1 with ⟨hnone, hnone'⟩ | ⟨action, u, u', hsome, hsome', hlike⟩
        · simp only [hnone, hnone', hlook.consumed]
        · simp only [hsome, hsome']
          cases action with
          | accept => rfl
          | shift next => exact ih none (hlike.shift next)
          | reduce production =>
            rcases hlike.reduce? table production with
              ⟨hnone, hnone'⟩ | ⟨v, v', hsome, hsome', hnext⟩
            · simp only [hnone, hnone', hlike.consumed]
            · simp only [hsome, hsome']
              exact ih none hnext

end Simulation

/-- The settings differ at most in the tree that nodes can be taken from. -/
structure Setting.Like (setting setting' : Setting) : Prop where
  table : setting.table = setting'.table
  options : setting.options = setting'.options

theorem Setting.Like.refl (setting : Setting) : setting.Like setting := ⟨rfl, rfl⟩

namespace Machine

variable {setting setting' : Setting} {m m' : Machine}

theorem simulate_congr (hlike : setting.Like setting') {o o' : Overlay} (hstack : o.shape = o'.shape)
    (hahead : m.source.ahead = m'.source.ahead) (trial : Trial) :
    (m.simulate setting trial o).1 = (m'.simulate setting' trial o').1 := by
  simp only [simulate, Simulation.run, hlike.table, hlike.options]
  exact Simulation.go_congr _ _ ⟨hstack, hahead, rfl, rfl⟩

theorem shape_ofStack {stack stack' : Stack} (h : Stack.shape stack = Stack.shape stack') :
    (Overlay.ofStack stack).shape = (Overlay.ofStack stack').shape := by
  simpa [Overlay.shape, Overlay.ofStack, Overlay.popped] using h

theorem shape_popped {stack stack' : Stack} (h : Stack.shape stack = Stack.shape stack') (depth : Nat) :
    (Overlay.popped stack depth).shape = (Overlay.popped stack' depth).shape := by
  simp only [Overlay.popped, Overlay.shape, Stack.shape, List.map_drop] at h ⊢
  rw [h]

theorem looked_ahead (m : Machine) (n : Nat) : (m.looked n).source.ahead = m.source.ahead := by
  funext i
  exact Source.ahead_fetchMany _ _ _

theorem chooseFrom_congr (hlike : setting.Like setting')
    (hstack : Stack.shape m.stack = Stack.shape m'.stack)
    (hahead : m.source.ahead = m'.source.ahead) (best : Kind × Action) (score : Reach)
    (rest : List (Kind × Action)) :
    (chooseFrom setting best score rest m).1 = (chooseFrom setting' best score rest m').1 := by
  induction rest generalizing best score m m' with
  | nil => rfl
  | cons candidate rest ih =>
    have hreach := simulate_congr hlike (shape_ofStack hstack) hahead
      { forced := some candidate.2, limit := setting.options.ambiguityLookahead }
    obtain ⟨n, hn⟩ := simulate_snd setting m
      { forced := some candidate.2, limit := setting.options.ambiguityLookahead }
      (Overlay.ofStack m.stack)
    obtain ⟨k, hk⟩ := simulate_snd setting' m'
      { forced := some candidate.2, limit := setting.options.ambiguityLookahead }
      (Overlay.ofStack m'.stack)
    simp only [chooseFrom, ← hlike.options, hreach, hn, hk]
    have hlook : (m.looked n).source.ahead = (m'.looked k).source.ahead := by
      rw [looked_ahead, looked_ahead, hahead]
    have hstack : Stack.shape (m.looked n).stack = Stack.shape (m'.looked k).stack := hstack
    split
    · exact ih hstack hlook candidate _
    · exact ih hstack hlook best score

/-- The choice between several actions depends on shapes only. -/
theorem choose_congr (hlike : setting.Like setting')
    (hstack : Stack.shape m.stack = Stack.shape m'.stack)
    (hahead : m.source.ahead = m'.source.ahead) (first : Kind × Action)
    (rest : List (Kind × Action)) :
    (m.choose setting first rest).1 = (m'.choose setting' first rest).1 := by
  have hreach := simulate_congr hlike (shape_ofStack hstack) hahead
    { forced := some first.2, limit := setting.options.ambiguityLookahead }
  obtain ⟨n, hn⟩ := simulate_snd setting m
    { forced := some first.2, limit := setting.options.ambiguityLookahead }
    (Overlay.ofStack m.stack)
  obtain ⟨k, hk⟩ := simulate_snd setting' m'
    { forced := some first.2, limit := setting.options.ambiguityLookahead }
    (Overlay.ofStack m'.stack)
  simp only [choose, ← hlike.options, hreach, hn, hk]
  have hstack : Stack.shape (m.looked n).stack = Stack.shape (m'.looked k).stack := hstack
  refine chooseFrom_congr hlike hstack ?_ _ _ _
  rw [looked_ahead, looked_ahead, hahead]

end Machine
end SqlTree
