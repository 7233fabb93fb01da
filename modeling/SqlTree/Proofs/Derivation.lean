import SqlTree.Proofs.Automaton
import SqlTree.Proofs.Session

/-!
# Nodes are built by the grammar

The children of a node, read without trivia and errors, are what a rule of its kind allows. The
stack accounts for this: from entry to entry its states follow the edges of the automaton, and each
entry holds what the symbol of its edge may stand for.

- `Grammar.Expands`  : the kinds of children for which a symbol may stand
- `Grammar.Derives`  : the kinds of children that a rule allows
- `Element.reading?` : an element as a child that the grammar sees
- `Element.Derived`  : a node whose children are allowed
- `Stack.Linked`     : a stack along the edges of the automaton
- `Stack.Linked.pop` : what lies on top of it when a production is complete
- `Machine.Grammatical.step` : a step keeps all this
-/

namespace SqlTree

open Item (Begins Leads)

/-! ## Derivations -/

namespace Grammar

mutual

/-- The kinds of children for which a symbol may stand. A visible nonterminal stands for one node,
a hidden one for what its productions say. -/
inductive Expands (g : Grammar) : Symbol → List Kind → Prop where
  | terminal (kind : Kind) : Expands g (.terminal kind) [kind]
  | visible {i : Nat} {kind : Kind} (hkind : g.visibleKind? i = some kind) :
      Expands g (.nonterminal i) [kind]
  | hidden {p : Nat} {production : Production} {kinds : List Kind}
      (hkind : g.visibleKind? production.lhs = none) (hp : g.productions[p]? = some production)
      (h : ExpandsAll g production.rhs kinds) : Expands g (.nonterminal production.lhs) kinds

/-- The kinds of children for which a sequence of symbols may stand. -/
inductive ExpandsAll (g : Grammar) : List Symbol → List Kind → Prop where
  | nil : ExpandsAll g [] []
  | cons {symbol : Symbol} {symbols : List Symbol} {kinds more : List Kind}
      (h : Expands g symbol kinds) (hrest : ExpandsAll g symbols more) :
      ExpandsAll g (symbol :: symbols) (kinds ++ more)

end

/-- The kinds of children that the productions of a nonterminal allow. -/
def Derives (g : Grammar) (i : Nat) (kinds : List Kind) : Prop :=
  ∃ (p : Nat) (production : Production), g.productions[p]? = some production ∧
    production.lhs = i ∧ g.ExpandsAll production.rhs kinds

/-- Kinds that stand for what a repair leaves are no rules of the grammar. -/
def NamesNodes (g : Grammar) : Prop :=
  ∀ i kind, g.visibleKind? i = some kind → kind.isErrorOrMissing = false

variable {g : Grammar}

theorem ExpandsAll.concat {symbols : List Symbol} {symbol : Symbol} {kinds more : List Kind}
    (h : g.ExpandsAll symbols kinds) (hlast : g.Expands symbol more) :
    g.ExpandsAll (symbols ++ [symbol]) (kinds ++ more) := by
  induction symbols generalizing kinds with
  | nil =>
    cases h
    simpa using ExpandsAll.cons hlast .nil
  | cons first symbols ih =>
    cases h with
    | cons hfirst hrest =>
      rw [List.append_assoc]
      exact .cons hfirst (ih hrest)

theorem visibleKind?_of_nonterminalOfKind? {kind : Kind} {i : Nat}
    (h : g.nonterminalOfKind? kind = some i) : g.visibleKind? i = some kind := by
  obtain ⟨hlt, hkind, -⟩ := Array.findIdx?_eq_some_iff_getElem.1 h
  simpa [visibleKind?, hlt] using hkind

end Grammar

/-! ## Children -/

namespace Element

/-- An element as a child that the grammar sees: trivia and errors are passed over, and a missing
token counts as if it were there. -/
def reading? : Element → Option Kind
  | token _ kind _ => if kind.isTrivia then none else some kind
  | node _ kind _ children =>
    if kind = .error then none
    else if kind = .missing then children.head?.map Element.kind
    else some kind

/-- The kinds of children that the grammar sees. -/
def readings (es : List Element) : List Kind := es.filterMap reading?

@[simp]
theorem readings_nil : readings [] = [] := rfl

@[simp]
theorem readings_append (a b : List Element) : readings (a ++ b) = readings a ++ readings b :=
  List.filterMap_append

/-- A node of the grammar has children that a rule of its kind allows. -/
def Derived (g : Grammar) : Element → Prop
  | token .. => True
  | node _ kind _ children =>
    kind ≠ .sourceFile → kind ≠ .error → kind ≠ .missing →
      ∃ i, g.visibleKind? i = some kind ∧ g.Derives i (readings children)

theorem reading?_node {kind : Kind} (h : kind.isErrorOrMissing = false) (id : Nat)
    (origin : Option Origin) (children : List Element) :
    (node id kind origin children).reading? = some kind := by
  have herror : kind ≠ .error := by
    rintro rfl
    cases h
  have hmissing : kind ≠ .missing := by
    rintro rfl
    cases h
  simp [reading?, herror, hmissing]

theorem all_derived_token (g : Grammar) (id : Nat) (kind : Kind) (text : List Char) :
    (token id kind text).All (Derived g) := by
  simp [All, Derived]

end Element

open Element (readings)

/-! ## Entries -/

namespace Entry

/-- Nothing in front of the first element matters to the grammar. -/
def Silent (e : Entry) : Prop := readings e.leading = []

theorem Silent.join {e child : Entry} (he : e.Silent) (hchild : child.Silent) :
    (e.join child).Silent ∧
      readings (e.join child).elements = readings e.elements ++ readings child.elements := by
  unfold Silent at *
  unfold Entry.join
  by_cases hel : e.elements = []
  · simp [hel, he, hchild]
  · simp [hel, he, hchild]

theorem Silent.foldl_join {children : List Entry} {e : Entry} (he : e.Silent)
    (hchildren : ∀ child ∈ children, child.Silent) :
    (children.foldl Entry.join e).Silent ∧ readings (children.foldl Entry.join e).elements =
      readings e.elements ++ children.flatMap fun child => readings child.elements := by
  induction children generalizing e with
  | nil => simp [he]
  | cons child children ih =>
    obtain ⟨hjoin, hreadings⟩ := he.join (hchildren child List.mem_cons_self)
    obtain ⟨hsilent, hfold⟩ := ih hjoin fun c hc => hchildren c (List.mem_cons_of_mem _ hc)
    exact ⟨hsilent, by simp [hfold, hreadings]⟩

/-- Entries that are joined are read one after the other. -/
theorem silent_ofChildren {children : List Entry} (state offset : Nat)
    (hchildren : ∀ child ∈ children, child.Silent) :
    (ofChildren state children offset).Silent ∧ readings (ofChildren state children offset).elements =
      children.flatMap fun child => readings child.elements := by
  have hbase : Silent { state := state, start := offset, stop := offset } := rfl
  obtain ⟨hsilent, hfold⟩ := hbase.foldl_join hchildren
  exact ⟨hsilent, by simpa [ofChildren] using hfold⟩

/-- What stands between grammar symbols is passed over. -/
theorem Formed.readings_of_extra {e : Entry} (h : e.Formed) (hextra : e.extra = true) :
    readings e.elements = [] := by
  obtain ⟨id, skipped, helements⟩ := h.error hextra
  simp [helements, readings, Element.reading?]

end Entry

/-! ## Stacks -/

namespace Stack

/-- The states of a stack follow the edges of the automaton, and every entry holds what the symbol of
its edge may stand for. -/
inductive Linked (g : Grammar) : Stack → Prop where
  | bottom : Linked g [Entry.bottom]
  | extra {e : Entry} {below : Stack} (hextra : e.extra = true) (hstate : e.state = topState below)
      (h : Linked g below) : Linked g (e :: below)
  | symbol {e : Entry} {below : Stack} {symbol : Symbol} (hextra : e.extra = false)
      (hleads : Leads g (g.core (topState below)) symbol (g.core e.state))
      (hexpands : g.Expands symbol (readings e.elements)) (h : Linked g below) :
      Linked g (e :: below)

variable {g : Grammar}

theorem Linked.ne_nil {stack : Stack} (h : Linked g stack) : stack ≠ [] := by
  cases h <;> simp

theorem Linked.of_append {popped below : Stack} (h : Linked g (popped ++ below))
    (hbelow : below ≠ []) : Linked g below := by
  induction popped with
  | nil => exact h
  | cons e popped ih =>
    refine ih ?_
    generalize hstack : e :: popped ++ below = stack at h
    cases h with
    | bottom =>
      simp only [List.cons_append, List.cons.injEq, List.append_eq_nil_iff] at hstack
      exact absurd hstack.2.2 hbelow
    | extra _ _ h =>
      simp only [List.cons_append, List.cons.injEq] at hstack
      rw [hstack.2]
      exact h
    | symbol _ _ _ h =>
      simp only [List.cons_append, List.cons.injEq] at hstack
      rw [hstack.2]
      exact h

/-- No more than the right-hand side has been read of a production. -/
theorem Linked.mark_le {stack : Stack} {p mark : Nat} {production : Production}
    (h : Linked g stack) (hp : g.productions[p]? = some production)
    (hbegins : Begins g (g.core (topState stack)) ⟨p, mark⟩) : mark ≤ production.rhs.length := by
  cases mark with
  | zero => exact Nat.zero_le _
  | succ mark =>
    induction h with
    | bottom =>
      have hmem := hbegins.mem_of_mark_pos (Nat.succ_pos mark)
      simp [topState, Entry.bottom, g.core_zero, Item.opening] at hmem
    | extra _ hstate _ ih => exact ih (hstate ▸ hbegins)
    | symbol _ hleads _ _ _ =>
      obtain ⟨hlt, -⟩ := List.getElem?_eq_some_iff.1 (hleads.back hp hbegins).2
      exact hlt

/-- The entries on top hold the symbols of an item that have been read last, and these are the
symbols by which their states were reached. -/
theorem Linked.pop {popped below : Stack} {p mark : Nat} {production : Production}
    (h : Linked g (popped ++ below)) (hbelow : below ≠ [])
    (hp : g.productions[p]? = some production) (hformed : ∀ e ∈ popped, e.Formed)
    (hbegins : Begins g (g.core (topState (popped ++ below)))
      ⟨p, mark + (popped.filter fun e => !e.extra).length⟩) :
    Begins g (g.core (topState below)) ⟨p, mark⟩ ∧
      g.ExpandsAll ((production.rhs.drop mark).take (popped.filter fun e => !e.extra).length)
        (popped.reverse.flatMap fun e => readings e.elements) ∧
      (popped.reverse.filter fun e => !e.extra).map (fun e => g.accessing e.state) =
        ((production.rhs.drop mark).take (popped.filter fun e => !e.extra).length).map some := by
  -- The induction goes down the stack, one symbol of the item back at a time.
  induction popped with
  | nil => exact ⟨hbegins, by simpa using .nil, by simp⟩
  | cons e popped ih =>
    have hformed' := fun x hx => hformed x (List.mem_cons_of_mem _ hx)
    generalize hstack : e :: popped ++ below = stack at h
    cases h with
    | bottom =>
      simp only [List.cons_append, List.cons.injEq, List.append_eq_nil_iff] at hstack
      exact absurd hstack.2.2 hbelow
    | extra hextra hstate h =>
      simp only [List.cons_append, List.cons.injEq] at hstack
      obtain ⟨rfl, rfl⟩ := hstack
      simp only [List.filter_cons, hextra, Bool.not_true, Bool.false_eq_true, if_false] at hbegins ⊢
      obtain ⟨hlast, hexpands, haccess⟩ := ih h hformed' (hstate ▸ hbegins)
      refine ⟨hlast, ?_, ?_⟩
      · simpa [(hformed e List.mem_cons_self).readings_of_extra hextra] using hexpands
      · simpa [List.filter_append, hextra] using haccess
    | symbol hextra hleads hsymbol h =>
      simp only [List.cons_append, List.cons.injEq] at hstack
      obtain ⟨rfl, rfl⟩ := hstack
      simp only [List.filter_cons, hextra, Bool.not_false, if_true, List.length_cons,
        ← Nat.add_assoc] at hbegins ⊢
      obtain ⟨hbegins, hget⟩ := hleads.back hp hbegins
      obtain ⟨hlast, hexpands, haccess⟩ := ih h hformed' hbegins
      rw [List.take_add_one, List.getElem?_drop, hget]
      refine ⟨hlast, ?_, ?_⟩
      · simpa using hexpands.concat hsymbol
      · simpa [List.filter_append, hextra, Grammar.accessing_of_leads hleads] using haccess

/-- Where a production is complete, the entries on top hold its right-hand side. -/
theorem Linked.pop_complete {children : List Entry} {below : Stack} {p mark : Nat}
    {production : Production} (h : Linked g (children.reverse ++ below)) (hbelow : below ≠ [])
    (hp : g.productions[p]? = some production) (hformed : ∀ e ∈ children, e.Formed)
    (hbegins : Begins g (g.core (topState (children.reverse ++ below))) ⟨p, mark⟩)
    (hrest : Item.rest g ⟨p, mark⟩ = [])
    (hcount : (children.filter fun e => !e.extra).length = production.rhs.length) :
    Begins g (g.core (topState below)) (Item.opening p) ∧
      g.ExpandsAll production.rhs (children.flatMap fun e => readings e.elements) ∧
      (children.filter fun e => !e.extra).map (fun e => g.accessing e.state) =
        production.rhs.map some := by
  have hle := h.mark_le hp hbegins
  have hge : production.rhs.length ≤ mark := by
    simpa [Item.rest, hp] using hrest
  have hlength : (children.reverse.filter fun e => !e.extra).length = production.rhs.length := by
    rw [List.filter_reverse, List.length_reverse, hcount]
  have hzero : Begins g (g.core (topState (children.reverse ++ below)))
      ⟨p, 0 + (children.reverse.filter fun e => !e.extra).length⟩ := by
    rw [hlength, Nat.zero_add, Nat.le_antisymm hge hle]
    exact hbegins
  obtain ⟨hopening, hexpands, haccess⟩ :=
    h.pop hbelow hp (fun e he => hformed e (List.mem_reverse.1 he)) hzero
  rw [hlength] at hexpands haccess
  exact ⟨hopening, by simpa using hexpands, by simpa using haccess⟩

/-- There is always an entry that is not extra. -/
theorem Linked.exists_not_extra {stack : Stack} (h : Linked g stack) :
    ∃ e ∈ stack, e.extra = false := by
  induction h with
  | bottom => exact ⟨_, List.mem_cons_self, rfl⟩
  | extra _ _ _ ih =>
    obtain ⟨e, he, hextra⟩ := ih
    exact ⟨e, List.mem_cons_of_mem _ he, hextra⟩
  | symbol hextra _ _ _ _ => exact ⟨_, List.mem_cons_self, hextra⟩

theorem Linked.below_ne_nil {extras children below : Stack}
    (h : Linked g (extras ++ (children ++ below))) (hextras : ∀ e ∈ extras, e.extra = true)
    (hbelow : children ≠ [] → below ≠ []) : below ≠ [] := by
  by_cases hchildren : children = []
  · rintro rfl
    obtain ⟨e, he, hnot⟩ := h.exists_not_extra
    rw [hextras e (by simpa [hchildren] using he)] at hnot
    cases hnot
  · exact hbelow hchildren

/-- Extra entries on top are in the state of the entry below them. -/
theorem Linked.topState_extras {extras below : Stack} (h : Linked g (extras ++ below))
    (hextras : ∀ e ∈ extras, e.extra = true) : topState (extras ++ below) = topState below := by
  induction extras with
  | nil => rfl
  | cons e extras ih =>
    have hextra := hextras e List.mem_cons_self
    generalize hstack : e :: extras ++ below = stack at h
    cases h with
    | bottom =>
      simp only [List.cons_append, List.cons.injEq] at hstack
      rw [hstack.1] at hextra
      cases hextra
    | extra _ hstate h =>
      simp only [List.cons_append, List.cons.injEq] at hstack
      obtain ⟨rfl, rfl⟩ := hstack
      exact hstate.trans (ih h fun x hx => hextras x (List.mem_cons_of_mem _ hx))
    | symbol hnot _ _ _ =>
      simp only [List.cons_append, List.cons.injEq] at hstack
      rw [hstack.1, hnot] at hextra
      cases hextra

/-- Extra entries may be put on top in the state that is there. -/
theorem Linked.extras {stack : Stack} {next : Nat} (h : Linked g stack)
    (hnext : topState stack = next) {extras : Stack} (hextras : ∀ e ∈ extras, e.extra = true) :
    Linked g ((extras.map fun e => { e with state := next }) ++ stack) ∧
      topState ((extras.map fun e => { e with state := next }) ++ stack) = next := by
  induction extras with
  | nil => exact ⟨h, hnext⟩
  | cons e extras ih =>
    obtain ⟨hlinked, htop⟩ := ih fun x hx => hextras x (List.mem_cons_of_mem _ hx)
    exact ⟨.extra (hextras e List.mem_cons_self) htop.symm hlinked, rfl⟩

end Stack

/-! ## The machine -/

/-- Old nodes that may be taken over are built by the grammar. -/
def Setting.Grammatical (g : Grammar) (setting : Setting) : Prop :=
  ∀ reuse ∈ setting.reuse, ∀ state offset old,
    reuse.find? setting.table state offset = some old →
      old.reading? = some old.kind ∧ old.All (Element.Derived g)

namespace Machine

/-- The stack is one that the automaton can come to, and everything on it is built by the grammar. -/
structure Grammatical (g : Grammar) (m : Machine) : Prop where
  linked : Stack.Linked g m.stack
  silent : ∀ e ∈ m.stack, e.Silent
  derived : ∀ e ∈ m.stack, ∀ x ∈ e.leading ++ e.elements, x.All (Element.Derived g)

variable {g : Grammar} {text : List Char} {m m' : Machine} {setting : Setting}

theorem Grammatical.start (g : Grammar) (text : List Char) (firstId : Nat) :
    (Machine.start text firstId).Grammatical g where
  linked := .bottom
  silent e he := by
    obtain rfl := List.mem_singleton.1 he
    rfl
  derived e he x hx := by
    obtain rfl := List.mem_singleton.1 he
    simp [Entry.bottom] at hx

theorem Grammatical.congr (h : m.Grammatical g) (hstack : m'.stack = m.stack) :
    m'.Grammatical g := by
  obtain ⟨hlinked, hsilent, hderived⟩ := h
  exact ⟨hstack ▸ hlinked, hstack ▸ hsilent, hstack ▸ hderived⟩

theorem Grammatical.push {entry : Entry} {symbol : Symbol} (h : m.Grammatical g)
    (hstack : m'.stack = entry :: m.stack) (hextra : entry.extra = false)
    (hleads : Leads g (g.core m.topState) symbol (g.core entry.state))
    (hexpands : g.Expands symbol (readings entry.elements)) (hsilent : entry.Silent)
    (hderived : ∀ x ∈ entry.leading ++ entry.elements, x.All (Element.Derived g)) :
    m'.Grammatical g := by
  refine ⟨hstack ▸ .symbol hextra hleads hexpands h.linked, ?_, ?_⟩ <;> rw [hstack]
  · exact List.forall_mem_cons.2 ⟨hsilent, h.silent⟩
  · exact List.forall_mem_cons.2 ⟨hderived, h.derived⟩

/-! ## Shifting and taking over -/

/-- The trivia in front of a token are passed over. -/
theorem readings_leading {lexeme : Lexeme} (h : lexeme.Sound) (m : Machine) :
    readings (m.newTokens lexeme.leading).1 = [] := by
  refine List.filterMap_eq_nil_iff.2 fun x hx => ?_
  obtain ⟨i, hi, rfl⟩ := List.mem_mapIdx.1 hx
  simp [Element.reading?, h.trivia _ (List.getElem_mem hi)]

theorem Faithful.sound (h : m.Faithful text) : (m.source.ahead 0).Sound := h.source_at.front.1

theorem all_derived_newTokens (g : Grammar) (m : Machine) (leaves : List Leaf) :
    ∀ x ∈ (m.newTokens leaves).1, x.All (Element.Derived g) := by
  intro x hx
  obtain ⟨i, hi, rfl⟩ := List.mem_mapIdx.1 hx
  exact Element.all_derived_token _ _ _ _

theorem Grammatical.shiftToken {kind : Kind} {next : Nat} (h : m.Grammatical g)
    (hfaithful : m.Faithful text) (hkind : kind.isTrivia = false)
    (hleads : Leads g (g.core m.topState) (.terminal kind) (g.core next)) :
    (m.shiftToken kind next).Grammatical g := by
  rw [shiftToken_eq]
  refine h.push rfl rfl hleads ?_ (readings_leading hfaithful.sound _) ?_
  · simpa [tokenEntry, readings, Element.reading?, hkind] using .terminal kind
  · intro x hx
    rcases List.mem_append.1 hx with hx | hx
    · exact all_derived_newTokens g _ _ x hx
    · obtain rfl := List.mem_singleton.1 hx
      exact Element.all_derived_token _ _ _ _

theorem Grammatical.shiftMissing {kind : Kind} {next : Nat} (h : m.Grammatical g)
    (hleads : Leads g (g.core m.topState) (.terminal kind) (g.core next)) :
    (m.shiftMissing kind next).Grammatical g := by
  rw [shiftMissing_eq]
  refine h.push rfl rfl hleads ?_ rfl ?_
  · simpa [missingEntry, readings, Element.reading?, Element.kind] using .terminal kind
  · intro x hx
    obtain rfl := List.mem_singleton.1 hx
    refine Element.all_node.2 ⟨fun _ _ hne => absurd rfl hne, fun x hx => ?_⟩
    obtain rfl := List.mem_singleton.1 hx
    exact Element.all_derived_token _ _ _ _

/-- A token is read as what it is, or as an identifier. -/
theorem isTrivia_of_mem_candidates {kind : Kind} {action : Action} (hfaithful : m.Faithful text)
    (hinjected : m.injected = none)
    (h : (kind, action) ∈ candidates setting.table m.topState m.lookahead) :
    kind.isTrivia = false := by
  rcases (mem_candidates h).2 with rfl | ⟨rfl, -⟩
  · simpa [lookahead, hinjected] using hfaithful.sound.significant
  · rfl

theorem Grammatical.shift {kind : Kind} {next : Nat} (h : m.Grammatical g)
    (hfaithful : m.Faithful text) (htable : setting.table = Table.ofGrammar g)
    (hmem : (kind, .shift next) ∈ candidates setting.table m.topState m.lookahead) :
    (m.shift kind next).Grammatical g := by
  have hleads := Table.leads_of_shift (htable ▸ (mem_candidates hmem).1)
  unfold Machine.shift
  split
  · exact h.shiftMissing hleads
  · rename_i hnone
    exact h.shiftToken hfaithful
      (isTrivia_of_mem_candidates hfaithful (by simpa using hnone) hmem) hleads

theorem Grammatical.takeOver (h : m.Grammatical g) (hfaithful : m.Faithful text)
    (htable : setting.table = Table.ofGrammar g) (hsetting : setting.Grammatical g)
    (htaken : m.takeOver? setting m.topState = some m') : m'.Grammatical g := by
  obtain ⟨reuse, old, next, hreuse, hfind, hgoto, rfl⟩ := takeOver?_spec htaken
  obtain ⟨hreading, hderived⟩ := hsetting reuse hreuse _ _ old hfind
  obtain ⟨i, hi, hgoto⟩ := Option.bind_eq_some_iff.1 hgoto
  rw [htable] at hi hgoto
  refine h.push rfl rfl (Table.leads_of_goto? hgoto) ?_ (readings_leading hfaithful.sound _) ?_
  · simpa [oldEntry, readings, hreading] using
      .visible (Grammar.visibleKind?_of_nonterminalOfKind? hi)
  · intro x hx
    rcases List.mem_append.1 hx with hx | hx
    · exact all_derived_newTokens g _ _ x hx
    · obtain rfl := List.mem_singleton.1 hx
      exact hderived

/-! ## Reducing -/

/-- What is made of the children of a production stands for its nonterminal. -/
theorem Makes.grammatical {base next production : Nat} {p : Production} {joined entry : Entry}
    (h : m.Makes g base p.lhs joined entry) (hp : g.productions[production]? = some p)
    (hnames : g.NamesNodes) (hexpands : g.ExpandsAll p.rhs (readings joined.elements))
    (hjoined : joined.extra = false ∧ joined.state = next ∧ joined.Silent)
    (hderived : ∀ x ∈ joined.leading ++ joined.elements, x.All (Element.Derived g)) :
    (entry.extra = false ∧ entry.state = next ∧ entry.Silent) ∧
      g.Expands (.nonterminal p.lhs) (readings entry.elements) ∧
      ∀ x ∈ entry.leading ++ entry.elements, x.All (Element.Derived g) := by
  cases h with
  | hidden hkind => exact ⟨hjoined, .hidden hkind hp hexpands, hderived⟩
  | visible hkind =>
    refine ⟨hjoined, ?_, fun x hx => ?_⟩
    · simpa [readings, Element.reading?_node (hnames _ _ hkind)] using .visible hkind
    · rcases List.mem_append.1 hx with hx | hx
      · exact hderived x (List.mem_append_left _ hx)
      · obtain rfl := List.mem_singleton.1 hx
        refine Element.all_node.2 ⟨fun _ _ _ => ⟨p.lhs, hkind, _, p, hp, rfl, hexpands⟩, ?_⟩
        exact fun x hx => hderived x (List.mem_append_right _ hx)

/-- A reduction of a grammatical machine: the entries of the right-hand side, which has been read, are
replaced by one for the nonterminal. -/
inductive Reduces (g : Grammar) (m : Machine) (production : Nat) : Machine → Prop where
  | mk {p : Production} {extras below : Stack} {children : List Entry} {entry : Entry}
      {next nextId : Nat}
      (hp : g.productions[production]? = some p)
      (hne : production ≠ Grammar.acceptProduction)
      (hstack : m.stack = extras ++ (children.reverse ++ below))
      (hextras : ∀ e ∈ extras, e.extra = true)
      (hlinked : Stack.Linked g (children.reverse ++ below))
      (htop : m.topState = Stack.topState (children.reverse ++ below))
      (hbelow : below ≠ [])
      (hopening : Begins g (g.core (Stack.topState below)) (Item.opening production))
      (hends : ∀ e, e ∈ children.head? ∨ e ∈ children.getLast? → e.extra = false)
      (hexpands : g.ExpandsAll p.rhs (children.flatMap fun e => readings e.elements))
      (haccess : (children.filter fun e => !e.extra).map (fun e => g.accessing e.state) =
        p.rhs.map some)
      (hleads : Leads g (g.core (Stack.topState below)) (.nonterminal p.lhs) (g.core next))
      (hmakes : m.Makes g (Stack.topState below) p.lhs (m.joinedEntry next children) entry)
      (hgoto : (Table.ofGrammar g).goto? (Stack.topState below) p.lhs = some next) :
      Reduces g m production { m with
        source := (m.source.peek 0).2
        stack := (extras.map fun e => { e with state := next }) ++ entry :: below
        nextId := nextId }

theorem Grammatical.reduces {kind : Kind} {production : Nat} (h : m.Grammatical g)
    (hfaithful : m.Faithful text) (htable : setting.table = Table.ofGrammar g)
    (hmem : (kind, .reduce production) ∈ candidates setting.table m.topState m.lookahead)
    (hreduced : m.reduce? setting production = some m') : m.Reduces g production m' := by
  obtain ⟨p, extras, children, below, next, entry, nextId, hp, hstack, hextras, hcount, hends,
    hbelow, hgoto, hmakes, rfl⟩ := reduce?_spec hreduced
  have hgrammar : setting.table.grammar = g := by
    rw [htable]
    rfl
  rw [hgrammar] at hp hmakes
  rw [htable] at hgoto
  have hlinked := hstack ▸ h.linked
  have hbelow := hlinked.below_ne_nil hextras (by simpa using hbelow)
  have hrest := hlinked.of_append (by simp [hbelow])
  have htop : m.topState = Stack.topState (children.reverse ++ below) := by
    rw [← hlinked.topState_extras hextras, ← hstack]
    rfl
  -- The automaton has read the right-hand side, so that is what the children are.
  obtain ⟨hne, mark, hcomplete, hbegins⟩ :=
    Table.complete_of_reduce (htable ▸ (mem_candidates hmem).1)
  obtain ⟨hopening, hexpands, haccess⟩ := hrest.pop_complete hbelow hp
    (fun e he => hfaithful.formed e (by simp [hstack, he])) (htop ▸ hbegins) hcomplete hcount
  exact .mk hp hne hstack hextras hrest htop hbelow hopening hends hexpands haccess
    (Table.leads_of_goto? hgoto) hmakes hgoto

theorem Grammatical.reduce {production : Nat} (h : m.Grammatical g) (hnames : g.NamesNodes)
    (hreduces : m.Reduces g production m') : m'.Grammatical g := by
  obtain ⟨hp, -, hstack, hextras, hlinked, -, hbelow, -, -, hexpands, -, hleads, hmakes, -⟩ :=
    hreduces
  rename_i p extras below children entry next nextId
  have hin : ∀ e ∈ children, e ∈ m.stack := fun e he => by simp [hstack, he]
  obtain ⟨hsilent, hreadings⟩ :=
    Entry.silent_ofChildren next m.position fun e he => h.silent e (hin e he)
  rw [← hreadings] at hexpands
  obtain ⟨⟨hentry, hnext, hsilent⟩, hsymbol, hderived⟩ := hmakes.grammatical hp hnames hexpands
    ⟨Entry.ofChildren_extra _ _ _, Entry.ofChildren_state _ _ _, hsilent⟩ (fun x hx => by
      obtain ⟨child, hchild, hx⟩ := Entry.mem_ofChildren hx
      exact h.derived child (hin child hchild) x hx)
  have hnew : Stack.Linked g (entry :: below) :=
    .symbol hentry (hnext ▸ hleads) hsymbol (hlinked.of_append hbelow)
  have hold : ∀ e ∈ extras ++ below, e ∈ m.stack := by
    intro e he
    rw [hstack]
    rcases List.mem_append.1 he with he | he <;> simp [he]
  refine ⟨(hnew.extras hnext hextras).1, fun e he => ?_, fun e he => ?_⟩
  · rcases mem_reduced he with ⟨old, hmem, heq⟩ | rfl
    · rw [heq]
      exact h.silent old (hold old hmem)
    · exact hsilent
  · rcases mem_reduced he with ⟨old, hmem, heq⟩ | rfl
    · rw [heq]
      exact h.derived old (hold old hmem)
    · exact hderived

/-! ## Repairing -/

theorem Grammatical.skip (h : m.Grammatical g) (hfaithful : m.Faithful text)
    (skipped depth : Nat) : (m.skip skipped depth).Grammatical g := by
  obtain ⟨d, t, hskips⟩ := skip_skips hfaithful.source_at hfaithful.formed skipped depth
  have hstack := hskips.stack
  have hlinked : Stack.Linked g (m.stack.drop d) := by
    have hall := h.linked
    rw [← List.take_append_drop d m.stack] at hall
    refine hall.of_append ?_
    have hpos := List.length_pos_iff.2 h.linked.ne_nil
    have hd := hskips.depth_le
    rw [← List.length_pos_iff, List.length_drop]
    omega
  have hderived {x : Element} (hx : (∃ e ∈ m.stack, x ∈ e.leading ++ e.elements) ∨
      ∃ id kind text, x = .token id kind text) : x.All (Element.Derived g) := by
    rcases hx with ⟨e, he, hx⟩ | ⟨id, kind, text, rfl⟩
    · exact h.derived e he x hx
    · exact Element.all_derived_token _ _ _ _
  generalize m.skip skipped depth = m' at hstack
  obtain ⟨_, stack', _, _, _, _, _, _⟩ := m'
  simp only at hstack
  cases hstack with
  | nothing =>
    exact ⟨hlinked, fun e he => h.silent e (List.mem_of_mem_drop he),
      fun e he => h.derived e (List.mem_of_mem_drop he)⟩
  | error helements hextra _ hstate _ hleading hskipped =>
    refine ⟨.extra hextra hstate hlinked, List.forall_mem_cons.2 ⟨?_, fun e he => ?_⟩,
      List.forall_mem_cons.2 ⟨fun x hx => ?_, fun e he => ?_⟩⟩
    · refine List.filterMap_eq_nil_iff.2 fun x hx => ?_
      rcases hleading x hx with ⟨e, he, hx⟩ | ⟨id, kind, text, rfl, htrivia⟩
      · exact List.filterMap_eq_nil_iff.1 (h.silent e he) x hx
      · simp [Element.reading?, htrivia]
    · exact h.silent e (List.mem_of_mem_drop he)
    · rw [helements] at hx
      rcases List.mem_append.1 hx with hx | hx
      · exact hderived (hskipped x (List.mem_append_left _ hx))
      · obtain rfl := List.mem_singleton.1 hx
        refine Element.all_node.2 ⟨fun _ hne => absurd rfl hne, fun x hx => ?_⟩
        exact hderived (hskipped x (List.mem_append_right _ hx))
    · exact h.derived e (List.mem_of_mem_drop he)

theorem Grammatical.recover (h : m.Grammatical g) (hfaithful : m.Faithful text)
    (hrecover : m.recover? setting = some m') : m'.Grammatical g := by
  have hrepaired := recover?_repaired setting m
  rw [hrecover] at hrepaired
  cases hrepaired with
  | inserted => exact h.congr rfl
  | @skipped n skipped depth repairs diagnostic =>
    have hbase : Grammatical g { m.looked n with injected := none, repairs := repairs } :=
      h.congr rfl
    have hfaithful : Faithful text { m.looked n with injected := none, repairs := repairs } :=
      (hfaithful.looked n).congr rfl rfl
    exact (hbase.skip hfaithful skipped depth).congr rfl

/-! ## Whole runs -/

/-- A step keeps the stack grammatical. -/
theorem Grammatical.step (h : m.Grammatical g) (hfaithful : m.Faithful text)
    (htable : setting.table = Table.ofGrammar g) (hnames : g.NamesNodes)
    (hsetting : setting.Grammatical g) : (m.step setting).machine.Grammatical g := by
  refine step_keeps (J := fun m => m.Faithful text ∧ m.Grammatical g)
    (fun n _ => ⟨(hfaithful.looked n).congr rfl rfl, h.congr rfl⟩) (fun _ h => h.2) ?_
  rintro m next ⟨hfaithful, h⟩ heffect
  cases heffect with
  | split => exact h.congr rfl
  | shift hmem => exact h.shift hfaithful htable hmem
  | takeOver _ htaken => exact h.takeOver hfaithful htable hsetting htaken
  | reduce hmem hreduced =>
    exact h.reduce hnames (h.reduces hfaithful htable hmem hreduced)
  | repair hrecover => exact h.recover hfaithful hrecover

theorem Grammatical.run (h : m.Grammatical g) (hfaithful : m.Faithful text)
    (htruthful : setting.Truthful text) (htable : setting.table = Table.ofGrammar g)
    (hnames : g.NamesNodes) (hsetting : setting.Grammatical g) (fuel : Nat) :
    (m.run setting fuel).Grammatical g := by
  refine (run_induction (I := fun m => m.Faithful text ∧ m.Grammatical g) ?_ fuel
    ⟨hfaithful, h⟩).2
  rintro m ⟨hfaithful, h⟩
  exact ⟨hfaithful.step htruthful, h.step hfaithful htable hnames hsetting⟩

theorem Grammatical.finish (h : m.Grammatical g) (hfaithful : m.Faithful text) :
    (m.finish text).root.All (Element.Derived g) := by
  obtain ⟨id, children, hroot, hchildren⟩ := all_below_finish hfaithful.source_at text h.derived
    (fun _ _ _ => trivial) fun _ _ _ hne => absurd rfl hne
  rw [hroot]
  exact Element.all_node.2 ⟨fun hne => absurd rfl hne, hchildren⟩

end Machine

/-! ## Trees of a session -/

namespace Tree

variable {g : Grammar} {text : List Char} {t : Tree}

theorem all_derived_parseWith {setting : Setting} (htruthful : setting.Truthful text)
    (htable : setting.table = Table.ofGrammar g) (hnames : g.NamesNodes)
    (hsetting : setting.Grammatical g) (firstId : Nat) :
    (parseWith setting text firstId).root.All (Element.Derived g) := by
  have hstart := Machine.Faithful.start text firstId
  exact ((Machine.Grammatical.start g text firstId).run hstart htruthful htable hnames hsetting
    _).finish (hstart.run htruthful _)

/-- Nodes of a tree that is built by the grammar can be taken over. -/
theorem grammatical_ofRoot {table : Table} {root : Element} {edit : Edit}
    (hroot : root.All (Element.Derived g)) (options : Options) :
    Setting.Grammatical g ⟨table, options, some (Reuse.ofRoot root edit)⟩ := by
  intro reuse hreuse state offset old hfind
  cases hreuse
  obtain ⟨v, origin, rfl, hvisit, -, horigin, -, -, hkind, -⟩ := Reuse.find?_spec hfind
  refine ⟨?_, Element.all_of_mem_preorder root 0 0 hroot hvisit⟩
  cases hv : v.element with
  | token id kind text =>
    rw [hv] at horigin
    cases horigin
  | node id kind origin children =>
    rw [hv] at hkind
    exact Element.reading?_node hkind id origin children

theorem Reached.all_derived (h : Reached (Table.ofGrammar g) text t) (hnames : g.NamesNodes) :
    t.root.All (Element.Derived g) := by
  refine reached_induction (P := fun _ t => t.root.All (Element.Derived g)) ?_ ?_ h
  · intro options text firstId
    exact all_derived_parseWith (Occurs.scratch options text).truthful rfl hnames
      (by simp [Setting.Grammatical]) firstId
  · intro _ _ _ old _ _ _ options hold hderived hreplace
    exact all_derived_parseWith (Occurs.again options hold hreplace).truthful rfl hnames
      (grammatical_ofRoot hderived options) old.nextId

theorem Occurs.grammatical {setting : Setting} (h : Occurs (Table.ofGrammar g) setting text)
    (hnames : g.NamesNodes) : setting.Grammatical g := by
  cases h with
  | scratch => simp [Setting.Grammatical]
  | again options hold _ => exact grammatical_ofRoot (hold.all_derived hnames) options

end Tree
end SqlTree
