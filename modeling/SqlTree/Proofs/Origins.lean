import SqlTree.Proofs.Erasure

/-!
# What is recorded about nodes

A node that is made of others records the state in which it was begun, how far bytes mattered to it,
and whether it may be taken over. A later parse relies on these records, also on those of nodes
inside the one that it takes over, so they have to be there and to agree with each other. That they
do rests on two accounts that the machine keeps: the starts of its entries, and the offset up to
which it has looked.

- `Element.LooksWithin` : nothing behind a certain byte mattered to the nodes of an element
- `Element.Recorded`    : the record of a node is there and right
- `Stack.Placed`        : entries know where they start
- `Machine.Recorded`    : all of this, for what is on the stack of a machine
- `Machine.Recorded.step` : a step keeps it
- `BigQuery.origins_recorded` : so the records in every tree of a session are right
-/

namespace SqlTree

/-- The element that is visited and all below it, where they stand. -/
def Visit.inside (v : Visit) : List Visit := v.element.preorder v.depth v.start

namespace Element

/-! ## Elements inside others -/

mutual

theorem mem_preorder_of_mem_inside (e : Element) {depth start : Nat} {v w : Visit}
    (hv : v ∈ e.preorder depth start) (hw : w ∈ v.inside) : w ∈ e.preorder depth start := by
  cases e with
  | token id kind text =>
    obtain rfl := List.mem_singleton.1 hv
    exact hw
  | node id kind origin children =>
    rcases List.mem_cons.1 hv with rfl | hv
    · exact hw
    · exact List.mem_cons_of_mem _ (mem_preorderAll_of_mem_inside children hv hw)

theorem mem_preorderAll_of_mem_inside (es : List Element) {depth start : Nat} {v w : Visit}
    (hv : v ∈ preorderAll es depth start) (hw : w ∈ v.inside) : w ∈ preorderAll es depth start := by
  cases es with
  | nil => cases hv
  | cons e rest =>
    rcases List.mem_append.1 hv with hv | hv
    · exact List.mem_append_left _ (mem_preorder_of_mem_inside e hv hw)
    · exact List.mem_append_right _ (mem_preorderAll_of_mem_inside rest hv hw)

end

/-! ## How far bytes mattered -/

mutual

/-- No byte from `limit` on mattered to a node in an element at byte `start`. -/
def LooksWithin (limit : Nat) : Element → Nat → Prop
  | token .., _ => True
  | node _ _ origin children, start =>
    (∀ o ∈ origin, start + o.lookahead ≤ limit) ∧ LookWithin limit children start

def LookWithin (limit : Nat) : List Element → Nat → Prop
  | [], _ => True
  | e :: rest, start => e.LooksWithin limit start ∧ LookWithin limit rest (start + e.size)

end

variable {limit limit' start : Nat} {es : List Element} {e : Element}

@[simp]
theorem lookWithin_append {a b : List Element} : LookWithin limit (a ++ b) start ↔
    LookWithin limit a start ∧ LookWithin limit b (start + sizeAll a) := by
  induction a generalizing start with
  | nil => simp [LookWithin, sizeAll]
  | cons e a ih => simp [LookWithin, sizeAll, ih, and_assoc, Nat.add_assoc]

theorem lookWithin_singleton : LookWithin limit [e] start ↔ e.LooksWithin limit start := by
  simp [LookWithin]

theorem lookWithin_of_tokens (h : ∀ x ∈ es, x.isToken = true) : LookWithin limit es start := by
  induction es generalizing start with
  | nil => trivial
  | cons e es ih =>
    refine ⟨?_, ih fun x hx => h x (List.mem_cons_of_mem _ hx)⟩
    cases e with
    | token => trivial
    | node => cases h _ List.mem_cons_self

mutual

theorem LooksWithin.mono (e : Element) {start : Nat} (h : e.LooksWithin limit start)
    (hle : limit ≤ limit') : e.LooksWithin limit' start := by
  cases e with
  | token => trivial
  | node id kind origin children =>
    exact ⟨fun o ho => Nat.le_trans (h.1 o ho) hle, LookWithin.mono children h.2 hle⟩

theorem LookWithin.mono (es : List Element) {start : Nat} (h : LookWithin limit es start)
    (hle : limit ≤ limit') : LookWithin limit' es start := by
  cases es with
  | nil => trivial
  | cons e rest => exact ⟨LooksWithin.mono e h.1 hle, LookWithin.mono rest h.2 hle⟩

end

mutual

/-- An element takes along how far it looks. -/
theorem looksWithin_add (e : Element) (limit start d : Nat) :
    e.LooksWithin (limit + d) (start + d) ↔ e.LooksWithin limit start := by
  cases e with
  | token => rfl
  | node id kind origin children =>
    have hbound (o : Origin) : start + d + o.lookahead ≤ limit + d ↔ start + o.lookahead ≤ limit := by
      omega
    simp only [LooksWithin, hbound, lookWithin_add children limit start d]

theorem lookWithin_add (es : List Element) (limit start d : Nat) :
    LookWithin (limit + d) es (start + d) ↔ LookWithin limit es start := by
  cases es with
  | nil => rfl
  | cons e rest =>
    have hrest := lookWithin_add rest limit (start + e.size) d
    rw [Nat.add_right_comm] at hrest
    simp only [LookWithin, looksWithin_add e limit start d, hrest]

end

mutual

theorem LooksWithin.of_mem_preorder (e : Element) {depth start : Nat} (h : e.LooksWithin limit start)
    {w : Visit} (hw : w ∈ e.preorder depth start) :
    ∀ o ∈ w.element.origin?, w.start + o.lookahead ≤ limit := by
  cases e with
  | token id kind text =>
    obtain rfl := List.mem_singleton.1 hw
    simp [origin?]
  | node id kind origin children =>
    rcases List.mem_cons.1 hw with rfl | hw
    · exact h.1
    · exact LookWithin.of_mem_preorderAll children h.2 hw

theorem LookWithin.of_mem_preorderAll (es : List Element) {depth start : Nat}
    (h : LookWithin limit es start) {w : Visit} (hw : w ∈ preorderAll es depth start) :
    ∀ o ∈ w.element.origin?, w.start + o.lookahead ≤ limit := by
  cases es with
  | nil => cases hw
  | cons e rest =>
    rcases List.mem_append.1 hw with hw | hw
    · exact LooksWithin.of_mem_preorder e h.1 hw
    · exact LookWithin.of_mem_preorderAll rest h.2 hw

end

/-! ## Records -/

/-- A token, or a node that may be taken over. -/
def Lasting (e : Element) : Prop := e.isToken = true ∨ ∃ o ∈ e.origin?, o.reusable = true

/-- The record of a node below the root is there, unless a repair left the node, and it is right. -/
structure Recorded (table : Table) (e : Element) : Prop where
  exists_origin : e.isToken = false → e.kind.isErrorOrMissing = false → ∃ o, e.origin? = some o
  goto : ∀ o ∈ e.origin?, (table.gotoKind? o.state e.kind).isSome = true
  lookahead : ∀ o ∈ e.origin?, e.size + Source.readAhead ≤ o.lookahead
  within : ∀ o ∈ e.origin?, LookWithin o.lookahead e.children 0
  lasting : ∀ o ∈ e.origin?, o.reusable = true → ∀ c ∈ e.children, c.All Lasting

variable {table : Table}

theorem recorded_of_isToken (h : e.isToken = true) : e.Recorded table := by
  cases e with
  | token => constructor <;> simp [origin?, isToken]
  | node => cases h

theorem all_recorded_of_isToken (h : e.isToken = true) : e.All (Recorded table) := by
  cases e with
  | token => exact recorded_of_isToken rfl
  | node => cases h

theorem all_lasting_of_isToken (h : e.isToken = true) : e.All Lasting := by
  cases e with
  | token => exact Or.inl rfl
  | node => cases h

theorem kind_of_hasError_eq_false (htoken : e.isToken = false) (h : e.hasError = false) :
    e.kind.isErrorOrMissing = false := by
  cases e with
  | token => cases htoken
  | node => exact (Bool.or_eq_false_iff.1 h).1

/-- What a repair leaves needs no record. -/
theorem recorded_of_fault {id : Nat} {kind : Kind} {children : List Element}
    (hkind : kind.isErrorOrMissing = true) : (node id kind none children).Recorded table := by
  constructor <;> simp [origin?, Element.kind, hkind]

/-- A node that may be taken over holds only such nodes. -/
theorem Recorded.all_lasting (h : e.Recorded table) {o : Origin} (ho : e.origin? = some o)
    (hreusable : o.reusable = true) : e.All Lasting := by
  cases e with
  | token => cases ho
  | node id kind origin children =>
    exact all_node.2 ⟨Or.inr ⟨o, ho, hreusable⟩, h.lasting o ho hreusable⟩

/-- A node heeds at most the bytes that it says, wherever it stands. -/
theorem Recorded.looksWithin (h : e.Recorded table) {o : Origin} (ho : e.origin? = some o)
    (start : Nat) : e.LooksWithin (start + o.lookahead) start := by
  cases e with
  | token => cases ho
  | node id kind origin children =>
    refine ⟨fun o' ho' => ?_, ?_⟩
    · obtain rfl : o' = o := Option.some.inj (ho'.symm.trans ho)
      exact Nat.le_refl _
    · have hadd := (lookWithin_add children o.lookahead 0 start).2 (h.within o ho)
      rwa [Nat.zero_add, Nat.add_comm] at hadd

end Element

open Element (sizeAll LookWithin)

/-! ## Starts of entries -/

namespace Stack

/-- Every entry that is not empty starts behind all that is below it, `base` bytes under the stack
included, and the trivia in front of it. -/
def Placed (base : Nat) : Stack → Prop
  | [] => True
  | e :: below =>
    (e.elements ≠ [] → e.start = base + sizeAll (Machine.elements below) + sizeAll e.leading) ∧
      Placed base below

variable {base : Nat}

theorem placed_append_iff {xs ys : Stack} : Placed base (xs ++ ys) ↔
    Placed (base + sizeAll (Machine.elements ys)) xs ∧ Placed base ys := by
  induction xs with
  | nil => simp [Placed]
  | cons e xs ih => simp [Placed, ih, and_assoc, Nat.add_assoc]

theorem placed_map_state {xs : Stack} {state : Nat} :
    Placed base (xs.map fun e => { e with state := state }) ↔ Placed base xs := by
  induction xs with
  | nil => rfl
  | cons e xs ih =>
    rw [List.map_cons, Placed, Placed, ih, Machine.elements_map_state]

/-- Two entries next to each other may be joined. -/
theorem Placed.join {e child : Entry} {below : Stack} (h : Placed base (child :: e :: below)) :
    Placed base (e.join child :: below) := by
  obtain ⟨hchild, he, hbelow⟩ := h
  refine ⟨fun hne => ?_, hbelow⟩
  rw [Machine.elements_cons, Entry.content, Element.sizeAll_append, Element.sizeAll_append] at hchild
  unfold Entry.join at hne ⊢
  by_cases hel : e.elements = []
  · -- The start is that of the child, and all trivia stay in front of it.
    simp only [hel, List.isEmpty_nil, if_true, Bool.true_and] at hne hchild ⊢
    have hnonempty : (!child.elements.isEmpty) = true := by simpa using hne
    rw [if_pos hnonempty, hchild hne, Element.sizeAll_append, sizeAll]
    omega
  · have hempty : e.elements.isEmpty = false := by simpa using hel
    simp only [hempty, Bool.false_and, Bool.false_eq_true, if_false]
    exact he hel

theorem Placed.foldl_join (children : List Entry) {e : Entry} {below : Stack}
    (h : Placed base (children.reverse ++ e :: below)) :
    Placed base (children.foldl Entry.join e :: below) := by
  induction children generalizing e with
  | nil => exact h
  | cons child children ih =>
    rw [List.reverse_cons, List.append_assoc, List.singleton_append, placed_append_iff] at h
    refine ih (placed_append_iff.2 ⟨?_, h.2.join⟩)
    simpa [Machine.elements_cons, Entry.join_content] using h.1

/-- Entries next to each other may be replaced by all of them as one. -/
theorem Placed.ofChildren {children : List Entry} {below : Stack} (state offset : Nat)
    (h : Placed base (children.reverse ++ below)) :
    Placed base (Entry.ofChildren state children offset :: below) := by
  refine Placed.foldl_join children ?_
  rw [placed_append_iff] at h ⊢
  refine ⟨?_, fun hne => absurd rfl hne, h.2⟩
  simpa [Machine.elements_cons, Entry.content] using h.1

end Stack

/-! ## How far a source has looked -/

namespace Source

theorem examined_le_fetchMany (s : Source) (n : Nat) : s.examined ≤ (fetchMany n s).examined := by
  induction n generalizing s with
  | zero => exact Nat.le_refl _
  | succ n ih => exact Nat.le_trans (Nat.le_max_left _ _) (ih s.fetch)

theorem examined_le_peek (s : Source) (n : Nat) : s.examined ≤ (s.peek n).2.examined := by
  rw [peek_snd]
  exact examined_le_fetchMany s _

theorem examined_le_bump (s : Source) : s.examined ≤ s.bump.2.examined := examined_le_peek s 0

theorem examined_splitShift (s : Source) : s.splitShift.examined = s.examined := by
  unfold splitShift
  split
  · split <;> rfl
  · rfl

end Source

/-! ## Entries -/

/-- All that an entry holds is recorded, and may be taken over if nothing is marked against the
entry. -/
structure Entry.Recorded (table : Table) (e : Entry) : Prop where
  recorded : ∀ x ∈ e.content, x.All (Element.Recorded table)
  lasting : e.hasError = false → e.fragile = false → ∀ x ∈ e.content, x.All Element.Lasting

namespace Entry

variable {table : Table} {e child : Entry}

theorem recorded_of_tokens (h : ∀ x ∈ e.content, x.isToken = true) : e.Recorded table where
  recorded x hx := Element.all_recorded_of_isToken (h x hx)
  lasting _ _ x hx := Element.all_lasting_of_isToken (h x hx)

theorem Recorded.join (he : e.Recorded table) (hchild : child.Recorded table) :
    (e.join child).Recorded table where
  recorded x hx := by
    rw [join_content] at hx
    rcases List.mem_append.1 hx with hx | hx
    · exact he.recorded x hx
    · exact hchild.recorded x hx
  lasting herror hfragile x hx := by
    obtain ⟨herror, herror'⟩ := Bool.or_eq_false_iff.1 herror
    obtain ⟨hfragile, hfragile'⟩ := Bool.or_eq_false_iff.1 hfragile
    rw [join_content] at hx
    rcases List.mem_append.1 hx with hx | hx
    · exact he.lasting herror hfragile x hx
    · exact hchild.lasting herror' hfragile' x hx

theorem recorded_ofChildren {children : List Entry} (state offset : Nat)
    (hchildren : ∀ child ∈ children, child.Recorded table) :
    (ofChildren state children offset).Recorded table :=
  ofChildren_of_join state offset (recorded_of_tokens (by simp [content]))
    fun _ child hchild he => he.join (hchildren child hchild)

end Entry

/-- Old nodes that may be taken over have their records. -/
def Setting.Recorded (setting : Setting) : Prop :=
  ∀ reuse ∈ setting.reuse, ∀ state offset old,
    reuse.find? setting.table state offset = some old →
      old.All (Element.Recorded setting.table) ∧
        ∃ o, old.origin? = some o ∧ o.reusable = true

/-! ## The machine -/

/-- No two rules make nodes of one kind, and a rule that makes nodes never stands for nothing. -/
structure Grammar.NamesApart (g : Grammar) : Prop where
  nonterminalOfKind? : ∀ i kind, g.visibleKind? i = some kind → g.nonterminalOfKind? kind = some i
  visibleKind? : ∀ i, g.isErasable i = true → g.visibleKind? i = none

namespace Machine

variable {table : Table} {g : Grammar} {text : List Char} {m m' : Machine} {setting : Setting}

/-- What is on the stack is recorded, the entries know where they start, and nothing behind the bytes
looked at so far mattered. -/
structure Recorded (table : Table) (m : Machine) : Prop where
  entries : ∀ e ∈ m.stack, e.Recorded table
  placed : Stack.Placed 0 m.stack
  within : LookWithin m.source.examined (elements m.stack) 0

theorem Recorded.start (table : Table) (text : List Char) (firstId : Nat) :
    (Machine.start text firstId).Recorded table where
  entries e he := by
    obtain rfl := List.mem_singleton.1 he
    exact Entry.recorded_of_tokens (by simp [Entry.content, Entry.bottom])
  placed := ⟨fun hne => absurd rfl hne, trivial⟩
  within := trivial

theorem Recorded.congr (h : m.Recorded table) (hstack : m'.stack = m.stack)
    (hexamined : m.source.examined ≤ m'.source.examined) : m'.Recorded table where
  entries := hstack ▸ h.entries
  placed := hstack ▸ h.placed
  within := hstack ▸ h.within.mono _ hexamined

/-- A new entry on top. -/
theorem Recorded.push {entry : Entry} (h : m.Recorded table) (hstack : m'.stack = entry :: m.stack)
    (hexamined : m.source.examined ≤ m'.source.examined) (hentry : entry.Recorded table)
    (hstart : entry.elements ≠ [] → entry.start = sizeAll (elements m.stack) + sizeAll entry.leading)
    (hwithin : LookWithin m'.source.examined entry.content (sizeAll (elements m.stack))) :
    m'.Recorded table where
  entries := hstack ▸ List.forall_mem_cons.2 ⟨hentry, h.entries⟩
  placed := by
    rw [hstack]
    exact ⟨by simpa using hstart, h.placed⟩
  within := by
    rw [hstack, elements_cons, Element.lookWithin_append, Nat.zero_add]
    exact ⟨h.within.mono _ hexamined, hwithin⟩

/-! ## Shifting and taking over -/

theorem sizeAll_newTokens (m : Machine) (leaves : List Leaf) :
    sizeAll (m.newTokens leaves).1 = Text.size (Lexeme.spell leaves) := by
  rw [← Element.size_textAll, textAll_newTokens]

/-- The current token starts behind the trivia that are read with it. -/
theorem Faithful.start_eq (h : m.Faithful text) : (m.source.ahead 0).start =
    sizeAll (elements m.stack) + sizeAll (m.newTokens (m.source.ahead 0).leading).1 := by
  rw [h.sizeAll_elements, h.position_eq, sizeAll_newTokens]
  exact h.source_at.front.2.2.1

theorem Recorded.shift (h : m.Recorded table) (hfaithful : m.Faithful text) (kind : Kind)
    (next : Nat) : (m.shift kind next).Recorded table := by
  unfold Machine.shift
  split
  · rw [shiftMissing_eq]
    refine h.push rfl (Source.examined_le_peek _ 0) ⟨fun x hx => ?_, fun herror => (by cases herror)⟩
      (fun _ => ?_) ?_
    · obtain rfl := List.mem_singleton.1 hx
      refine Element.all_node.2 ⟨Element.recorded_of_fault rfl, fun c hc => ?_⟩
      obtain rfl := List.mem_singleton.1 hc
      exact Element.all_recorded_of_isToken rfl
    · exact hfaithful.sizeAll_elements.symm
    · simp [Entry.content, missingEntry, LookWithin, Element.LooksWithin]
  · rw [shiftToken_eq]
    have htokens := isToken_of_mem_tokenEntry m kind next
    exact h.push rfl (Source.examined_le_bump _) (Entry.recorded_of_tokens htokens)
      (fun _ => hfaithful.start_eq) (Element.lookWithin_of_tokens htokens)

theorem Recorded.takeOver {state : Nat} (h : m.Recorded setting.table) (hfaithful : m.Faithful text)
    (hsetting : setting.Recorded) (htaken : m.takeOver? setting state = some m') :
    m'.Recorded setting.table := by
  obtain ⟨reuse, old, next, hreuse, hfind, -, rfl⟩ := takeOver?_spec htaken
  obtain ⟨hrecorded, origin, horigin, hreusable⟩ := hsetting reuse hreuse _ _ old hfind
  have htokens := isToken_newTokens m (m.source.ahead 0).leading
  refine h.push rfl ?_ ⟨fun x hx => ?_, fun _ _ x hx => ?_⟩ (fun _ => hfaithful.start_eq) ?_
  · calc m.source.examined ≤ (m.source.peek 0).2.examined := Source.examined_le_peek _ 0
      _ ≤ (m.source.peek 0).2.bump.2.examined := Source.examined_le_bump _
      _ ≤ _ := Nat.le_max_left _ _
  · rcases List.mem_append.1 hx with hx | hx
    · exact Element.all_recorded_of_isToken (htokens x hx)
    · obtain rfl := List.mem_singleton.1 hx
      exact hrecorded
  · rcases List.mem_append.1 hx with hx | hx
    · exact Element.all_lasting_of_isToken (htokens x hx)
    · obtain rfl := List.mem_singleton.1 hx
      exact hrecorded.self.all_lasting horigin hreusable
  · -- What mattered to the old node has been noted along with it.
    refine Element.lookWithin_append.2 ⟨Element.lookWithin_of_tokens htokens, ?_⟩
    refine Element.lookWithin_singleton.2 ?_
    have hold := hrecorded.self.looksWithin horigin (m.source.ahead 0).start
    rw [horigin]
    simp only [oldEntry, ← hfaithful.start_eq]
    exact hold.mono _ (Nat.le_max_right _ _)

/-! ## Reducing -/

/-- The entries of a right-hand side as one start where they say and end in front of the current
token. -/
theorem Recorded.start_joinedEntry {extras children below : List Entry} (h : m.Recorded table)
    (hfaithful : m.Faithful text) (hstack : m.stack = extras ++ (children.reverse ++ below))
    {next : Nat} (hne : (m.joinedEntry next children).elements ≠ []) :
    (m.joinedEntry next children).start =
        sizeAll (elements below) + sizeAll (m.joinedEntry next children).leading ∧
      (m.joinedEntry next children).start + sizeAll (m.joinedEntry next children).elements ≤
        m.position := by
  have hplaced := h.placed
  rw [hstack, Stack.placed_append_iff] at hplaced
  have hstart : (m.joinedEntry next children).start =
      0 + sizeAll (elements below) + sizeAll (m.joinedEntry next children).leading :=
    (hplaced.2.ofChildren next m.position).1 hne
  rw [Nat.zero_add] at hstart
  have hcontent : (m.joinedEntry next children).content = children.flatMap Entry.content :=
    Entry.ofChildren_content next children m.position
  refine ⟨hstart, ?_⟩
  calc (m.joinedEntry next children).start + sizeAll (m.joinedEntry next children).elements
      = sizeAll (elements below) + sizeAll (m.joinedEntry next children).content := by
        rw [hstart, Entry.content, Element.sizeAll_append, Nat.add_assoc]
    _ ≤ sizeAll (elements m.stack) := by
        rw [hcontent, hstack]
        simp only [elements_append, elements_reverse, Element.sizeAll_append]
        omega
    _ = m.position := hfaithful.sizeAll_elements

/-- The current token and what may decide about it have been looked at. -/
theorem Faithful.position_le_examined (h : m.Faithful text) :
    m.position + Source.readAhead ≤ (m.source.peek 0).2.examined := by
  obtain ⟨-, -, hstart, -, hexamined⟩ := h.source_at.front
  simp only [Lexeme.stop, hstart] at hexamined
  have hposition := h.position_eq
  omega

/-- A node that a reduction makes has its record. -/
theorem recorded_node {entry : Entry} {base lhs next id : Nat} {kind : Kind}
    (hfaithful : m.Faithful text) (hentry : entry.Recorded table)
    (hstop : entry.start + sizeAll entry.elements ≤ m.position)
    (hwithin : LookWithin (m.source.peek 0).2.examined entry.elements entry.start)
    (hkind : table.grammar.nonterminalOfKind? kind = some lhs)
    (hgoto : table.goto? base lhs = some next) :
    (Element.node id kind (some (m.originOf base entry)) entry.elements).Recorded table where
  exists_origin _ _ := ⟨_, rfl⟩
  goto o ho := by
    obtain rfl := Option.some.inj ho
    simp [Table.gotoKind?, Element.kind, originOf, hkind, hgoto]
  lookahead o ho := by
    obtain rfl := Option.some.inj ho
    have hexamined := hfaithful.position_le_examined
    simp only [Element.size, originOf]
    omega
  within o ho := by
    obtain rfl := Option.some.inj ho
    have hexamined := hfaithful.position_le_examined
    refine (Element.lookWithin_add _ _ 0 entry.start).1 ?_
    simp only [originOf, Nat.zero_add, Element.children]
    rwa [Nat.sub_add_cancel (by omega)]
  lasting o ho hreusable c hc := by
    obtain rfl := Option.some.inj ho
    simp only [originOf, Bool.and_eq_true, Bool.not_eq_true'] at hreusable
    exact hentry.lasting hreusable.1 hreusable.2 c (List.mem_append_right _ hc)

/-- What a reduction makes behind `below` bytes is recorded, covers what it is made of and starts
where it says. -/
theorem Makes.recorded (table : Table) {base lhs next below : Nat} {joined entry : Entry}
    (h : m.Makes table.grammar base lhs joined entry) (hfaithful : m.Faithful text)
    (hapart : table.grammar.NamesApart) (hgoto : table.goto? base lhs = some next)
    (hjoined : joined.Recorded table)
    (hvisible : table.grammar.visibleKind? lhs ≠ none → joined.elements ≠ [])
    (hstart : joined.elements ≠ [] → joined.start = below + sizeAll joined.leading ∧
      joined.start + sizeAll joined.elements ≤ m.position)
    (hwithin : LookWithin (m.source.peek 0).2.examined joined.content below) :
    entry.Recorded table ∧ sizeAll entry.content = sizeAll joined.content ∧
      (entry.elements ≠ [] → entry.start = below + sizeAll entry.leading) ∧
      LookWithin (m.source.peek 0).2.examined entry.content below := by
  obtain ⟨hleading, helements⟩ := Element.lookWithin_append.1 hwithin
  cases h with
  | hidden => exact ⟨hjoined, rfl, fun hne => (hstart hne).1, hwithin⟩
  | @visible kind hkind =>
    obtain ⟨hstart, hstop⟩ := hstart (hvisible (by simp [hkind]))
    rw [← hstart] at helements
    have hnode : (Element.node m.nextId kind (some (m.originOf base joined))
        joined.elements).Recorded table :=
      recorded_node hfaithful hjoined hstop helements (hapart.nonterminalOfKind? _ _ hkind) hgoto
    refine ⟨⟨fun x hx => ?_, fun herror hfragile x hx => ?_⟩, ?_, fun _ => hstart, ?_⟩
    · rcases List.mem_append.1 hx with hx | hx
      · exact hjoined.recorded x (List.mem_append_left _ hx)
      · obtain rfl := List.mem_singleton.1 hx
        refine Element.all_node.2 ⟨hnode, fun c hc => ?_⟩
        exact hjoined.recorded c (List.mem_append_right _ hc)
    · rcases List.mem_append.1 hx with hx | hx
      · exact hjoined.lasting herror hfragile x (List.mem_append_left _ hx)
      · obtain rfl := List.mem_singleton.1 hx
        exact hnode.all_lasting rfl (by simp_all [originOf])
    · simp [Entry.content, sizeAll, Element.size]
    · refine Element.lookWithin_append.2 ⟨hleading, Element.lookWithin_singleton.2 ⟨?_, ?_⟩⟩
      · intro o ho
        obtain rfl := Option.some.inj ho
        have hexamined := hfaithful.position_le_examined
        simp only [originOf]
        omega
      · rwa [← hstart]

/-- A node is never made of nothing. -/
theorem Grammatical.joinedEntry_ne_nil {rank : Nat → Nat} {production : Nat} {p : Production}
    {children : List Entry} (h : m.Grammatical g) (htame : g.Tame rank) (hg : g.WellFormed)
    (hapart : g.NamesApart) (hchildren : ∀ e ∈ children, e ∈ m.stack)
    (hp : g.productions[production]? = some p) (hne : production ≠ Grammar.acceptProduction)
    (hexpands : g.ExpandsAll p.rhs (children.flatMap fun e => Element.readings e.elements))
    (hvisible : g.visibleKind? p.lhs ≠ none) (next : Nat) :
    (m.joinedEntry next children).elements ≠ [] := by
  intro hnil
  obtain ⟨-, hreadings⟩ :=
    Entry.silent_ofChildren next m.position fun e he => h.silent e (hchildren e he)
  have hnil : (Entry.ofChildren next children m.position).elements = [] := hnil
  rw [hnil] at hreadings
  rw [← hreadings] at hexpands
  have hrhs := htame.rhs_eq_nil hg hp hne hexpands
  exact hvisible (hapart.visibleKind? _ (Grammar.isErasable_of_rhs_eq_nil hp hrhs))

theorem Recorded.reduce {rank : Nat → Nat} {production : Nat}
    (h : m.Recorded (Table.ofGrammar g)) (hregular : m.Regular g text) (htame : g.Tame rank)
    (hg : g.WellFormed) (hapart : g.NamesApart) (hreduces : m.Reduces g production m') :
    m'.Recorded (Table.ofGrammar g) := by
  obtain ⟨hp, hne, hstack, -, -, -, -, -, -, hexpands, -, -, hmakes, hgoto⟩ := hreduces
  rename_i p extras below children entry next nextId
  have hchildren : ∀ e ∈ children, e ∈ m.stack := fun e he => by simp [hstack, he]
  have hjoined : (m.joinedEntry next children).Recorded (Table.ofGrammar g) := by
    obtain ⟨hrecorded, hlasting⟩ := Entry.recorded_ofChildren next m.position
      fun e he => h.entries e (hchildren e he)
    refine ⟨hrecorded, fun herror hfragile => hlasting herror ?_⟩
    exact (Bool.or_eq_false_iff.1 hfragile).1
  have hcontent : (m.joinedEntry next children).content = children.flatMap Entry.content :=
    Entry.ofChildren_content next children m.position
  have hplaced := h.placed
  have hwithin := h.within.mono _ (Source.examined_le_peek m.source 0)
  simp only [hstack, Stack.placed_append_iff, elements_append, elements_reverse,
    Element.lookWithin_append, Element.sizeAll_append, Nat.zero_add, ← hcontent]
    at hplaced hwithin
  obtain ⟨hmade, hcover, hstart, hlook⟩ := Makes.recorded (.ofGrammar g) hmakes
    hregular.faithful hapart hgoto hjoined
    (fun hvisible => hregular.grammatical.joinedEntry_ne_nil htame hg hapart hchildren hp hne
      hexpands hvisible next)
    (h.start_joinedEntry hregular.faithful hstack) hwithin.1.2
  refine ⟨fun e he => ?_, ?_, ?_⟩
  · rcases mem_reduced he with ⟨old, hold, heq⟩ | rfl
    · have hmem : old ∈ m.stack := by
        rw [hstack]
        rcases List.mem_append.1 hold with hold | hold <;> simp [hold]
      obtain ⟨hrecorded, hlasting⟩ := h.entries old hmem
      rw [heq]
      exact ⟨hrecorded, hlasting⟩
    · exact hmade
  · -- The new entry covers what its children covered, so what is above it stays where it is.
    refine Stack.placed_append_iff.2 ⟨Stack.placed_map_state.2 ?_, fun hne => ?_, hplaced.2.2⟩
    · rw [elements_cons, Element.sizeAll_append, hcover, Nat.zero_add]
      exact hplaced.1
    · rw [Nat.zero_add]
      exact hstart hne
  · simp only [elements_append, elements_cons, elements_map_state, Element.lookWithin_append,
      Element.sizeAll_append, hcover, Nat.zero_add]
    exact ⟨⟨hwithin.1.1, hlook⟩, hwithin.2⟩

/-! ## Skipping -/

/-- Moving lexemes into an entry on `below` bytes keeps its start right, and only looks further. -/
theorem placed_skipInto (n : Nat) {e : Entry} {m : Machine} {done : List Char} {below : Nat}
    (hat : m.source.At done) (hsize : Text.size done = below + sizeAll e.content)
    (hstart : e.elements ≠ [] → e.start = below + sizeAll e.leading) :
    ((skipInto n e m).1.elements ≠ [] →
      (skipInto n e m).1.start = below + sizeAll (skipInto n e m).1.leading) ∧
      m.source.examined ≤ (skipInto n e m).2.source.examined := by
  induction n generalizing e m done with
  | zero => exact ⟨hstart, Nat.le_refl _⟩
  | succ n ih =>
    simp only [skipInto]
    generalize he' : (if e.elements.isEmpty = true then _ else _ : Entry) = e'
    have hfront : m.source.bump.1.start = Text.size done +
        Text.size (Lexeme.spell m.source.bump.1.leading) := hat.front.2.2.1
    have hnext : sizeAll e'.content = sizeAll e.content + Text.size m.source.bump.1.content ∧
        (e'.elements ≠ [] → e'.start = below + sizeAll e'.leading) := by
      rw [← he']
      by_cases hnil : e.elements = []
      · rw [if_pos (List.isEmpty_iff.2 hnil)]
        refine ⟨?_, fun _ => ?_⟩
        · simp [Entry.content, hnil, sizeAll_newTokens, Lexeme.content, newToken, sizeAll,
            Element.size, bump]
        · rw [Entry.content, hnil, List.append_nil] at hsize
          rw [Element.sizeAll_append, sizeAll_newTokens, ← Nat.add_assoc, ← hsize]
          exact hfront
      · rw [if_neg fun hempty => hnil (List.isEmpty_iff.1 hempty)]
        refine ⟨?_, fun _ => hstart hnil⟩
        simp [Entry.content, sizeAll_newTokens, Lexeme.content, newToken, sizeAll, Element.size,
          bump, Nat.add_assoc]
    obtain ⟨hplaced, hexamined⟩ := ih (e := e') (m := ((m.bump.2.newTokens m.bump.1.leading).2.newToken
      m.bump.1.kind m.bump.1.text).2) hat.bump (by rw [Text.size_append, hsize, hnext.1]; omega)
      hnext.2
    exact ⟨hplaced, Nat.le_trans (Source.examined_le_bump m.source) hexamined⟩

/-- What is gathered to be left as an error starts where it says. -/
theorem Recorded.placed_gathered (h : m.Recorded table) (hfaithful : m.Faithful text)
    (skipped d : Nat) :
    ((m.gathered skipped d).1.elements ≠ [] → (m.gathered skipped d).1.start =
      sizeAll (elements (m.stack.drop d)) + sizeAll (m.gathered skipped d).1.leading) ∧
      m.source.examined ≤ (m.gathered skipped d).2.source.examined := by
  have hsize : Text.size (Stack.text m.stack) =
      sizeAll (elements (m.stack.drop d)) + sizeAll (m.poppedEntry d).content := by
    rw [← hfaithful.position_eq, ← hfaithful.sizeAll_elements, poppedEntry_content,
      ← Element.sizeAll_append, ← elements_append, List.take_append_drop]
  have hplaced := h.placed
  rw [← List.take_append_drop d m.stack, ← List.reverse_reverse (m.stack.take d)] at hplaced
  have hpopped := (hplaced.ofChildren (Stack.topState (m.stack.drop d)) m.position).1
  rw [Nat.zero_add] at hpopped
  obtain ⟨hstart, hexamined⟩ := placed_skipInto skipped
    (m := ({ m with stack := m.stack.drop d }.peek 0).2) (hfaithful.source_at.peek 0) hsize hpopped
  exact ⟨hstart, Nat.le_trans (Source.examined_le_peek m.source 0) hexamined⟩

theorem Recorded.skip (h : m.Recorded table) (hfaithful : m.Faithful text) (skipped depth : Nat) :
    (m.skip skipped depth).Recorded table := by
  obtain ⟨d, -, hskip⟩ := skip_eq hfaithful.formed skipped depth
  obtain ⟨hstart, hexamined⟩ := h.placed_gathered hfaithful skipped d
  obtain ⟨more, hcontent, htokens⟩ := m.gathered_content skipped d
  have hstack : (m.gathered skipped d).2.stack = m.stack.drop d := by
    rw [gathered, skipInto_frame]
    rfl
  have hwithin := h.within.mono _ hexamined
  have hplaced := h.placed
  rw [← List.take_append_drop d m.stack] at hwithin hplaced
  rw [elements_append, Element.lookWithin_append, Nat.zero_add] at hwithin
  have hbase : (m.gathered skipped d).2.Recorded table := by
    refine ⟨fun e he => h.entries e ?_, ?_, ?_⟩
    · exact List.mem_of_mem_drop (hstack ▸ he)
    · exact hstack ▸ (Stack.placed_append_iff.1 hplaced).2
    · exact hstack ▸ hwithin.1
  have hrecorded : ∀ x ∈ (m.gathered skipped d).1.content, x.All (Element.Recorded table) := by
    intro x hx
    rw [hcontent] at hx
    rcases List.mem_append.1 hx with hx | hx
    · simp only [elements, List.mem_flatMap, List.mem_reverse] at hx
      obtain ⟨e, he, hx⟩ := hx
      exact (h.entries e (List.mem_of_mem_take he)).recorded x hx
    · exact Element.all_recorded_of_isToken (htokens x hx)
  have hlook : LookWithin (m.gathered skipped d).2.source.examined (m.gathered skipped d).1.content
      (sizeAll (elements (m.stack.drop d))) := by
    rw [hcontent]
    exact Element.lookWithin_append.2 ⟨hwithin.2, Element.lookWithin_of_tokens htokens⟩
  rcases hskip with ⟨-, hskip⟩ | ⟨hne, hskip⟩
  · rw [hskip]
    exact hbase
  · rw [hskip]
    refine hbase.push rfl (Nat.le_refl _) ⟨fun x hx => ?_, fun herror => (by cases herror)⟩
      (fun _ => ?_) ?_
    · rcases List.mem_append.1 hx with hx | hx
      · exact hrecorded x (List.mem_append_left _ hx)
      · obtain rfl := List.mem_singleton.1 hx
        exact Element.all_node.2 ⟨Element.recorded_of_fault rfl,
          fun c hc => hrecorded c (List.mem_append_right _ hc)⟩
    · rw [hstack]
      exact hstart hne
    · rw [hstack]
      obtain ⟨hleading, helements⟩ := Element.lookWithin_append.1 hlook
      refine Element.lookWithin_append.2 ⟨hleading, Element.lookWithin_singleton.2 ⟨?_, helements⟩⟩
      intro o ho
      cases ho

/-! ## Whole runs -/

theorem Recorded.recover (h : m.Recorded table) (hfaithful : m.Faithful text)
    (hrecover : m.recover? setting = some m') : m'.Recorded table := by
  have hrepaired := recover?_repaired setting m
  rw [hrecover] at hrepaired
  cases hrepaired with
  | inserted => exact h.congr rfl (Source.examined_le_fetchMany _ _)
  | @skipped n skipped depth repairs diagnostic =>
    have hbase : Recorded table { m.looked n with injected := none, repairs := repairs } :=
      h.congr rfl (Source.examined_le_fetchMany _ _)
    have hfaithful : Faithful text { m.looked n with injected := none, repairs := repairs } :=
      (hfaithful.looked n).congr rfl rfl
    exact (hbase.skip hfaithful skipped depth).congr rfl (Nat.le_refl _)

/-- A step keeps the records right. -/
theorem Recorded.step {rank : Nat → Nat} (h : m.Recorded (Table.ofGrammar g))
    (hregular : m.Regular g text) (hsuits : setting.Suits g rank text) (hg : g.WellFormed)
    (hapart : g.NamesApart) (hsetting : setting.Recorded) :
    (m.step setting).machine.Recorded (Table.ofGrammar g) := by
  refine step_keeps (J := fun m => m.Regular g text ∧ m.Recorded (Table.ofGrammar g))
    (fun n _ => ⟨⟨(hregular.faithful.looked n).congr rfl rfl, hregular.grammatical.congr rfl⟩,
      h.congr rfl (Source.examined_le_fetchMany _ _)⟩) (fun _ h => h.2) ?_
  rintro m next ⟨hregular, h⟩ heffect
  cases heffect with
  | split => exact h.congr rfl (Nat.le_of_eq (Source.examined_splitShift _).symm)
  | shift => exact h.shift hregular.faithful _ _
  | takeOver _ htaken =>
    rw [← hsuits.table_eq] at h ⊢
    exact h.takeOver hregular.faithful hsetting htaken
  | reduce hmem hreduced =>
    have hreduces := hregular.grammatical.reduces hregular.faithful hsuits.table_eq hmem hreduced
    exact h.reduce hregular hsuits.tame hg hapart hreduces
  | repair hrecover => exact h.recover hregular.faithful hrecover

end Machine

/-! ## Trees of a session -/

namespace Tree

variable {g : Grammar} {rank : Nat → Nat} {text : List Char} {t : Tree} {setting : Setting}

/-- The root has no record, and everything below it is recorded. -/
def Recorded (table : Table) (t : Tree) : Prop :=
  ∃ id children, t.root = .node id .sourceFile none children ∧
    ∀ c ∈ children, c.All (Element.Recorded table)

theorem recorded_parseWith (hsuits : setting.Suits g rank text) (hg : g.WellFormed)
    (hapart : g.NamesApart) (hsetting : setting.Recorded) (firstId : Nat) :
    (parseWith setting text firstId).Recorded (Table.ofGrammar g) := by
  obtain ⟨hregular, hrecorded⟩ := Machine.run_induction
    (I := fun m : Machine => m.Regular g text ∧ m.Recorded (Table.ofGrammar g))
    (fun m h => ⟨h.1.step hsuits, h.2.step h.1 hsuits hg hapart hsetting⟩)
    (Machine.maxSteps setting.table (Text.size text))
    ⟨.start g text firstId, .start _ text firstId⟩
  exact Machine.all_below_finish hregular.faithful.source_at text
    (fun e he => (hrecorded.entries e he).recorded) (fun _ _ _ => Element.recorded_of_isToken rfl)
    fun _ _ => Element.recorded_of_fault rfl

/-- The records of a tree are those that taking over its nodes relies on. -/
theorem Recorded.ofRoot {table : Table} {edit : Edit} (h : t.Recorded table) (options : Options) :
    Setting.Recorded ⟨table, options, some (Reuse.ofRoot t.root edit)⟩ := by
  intro reuse hreuse state offset old hfind
  cases hreuse
  obtain ⟨id, children, hroot, hall⟩ := h
  rw [hroot] at hfind
  obtain ⟨-, origin, -, -, -, horigin, hreusable, -⟩ := Reuse.find?_spec hfind
  exact ⟨Reuse.all_of_find? hall hfind, origin, horigin, hreusable⟩

/-- Every tree of a session is recorded. -/
theorem Reached.recorded (hg : g.WellFormed) (hapart : g.NamesApart)
    (hsuits : ∀ setting text, Occurs (Table.ofGrammar g) setting text → setting.Suits g rank text)
    (h : Reached (Table.ofGrammar g) text t) : t.Recorded (Table.ofGrammar g) := by
  refine reached_induction (P := fun _ t => t.Recorded (Table.ofGrammar g)) ?_ ?_ h
  · intro options text firstId
    exact recorded_parseWith (hsuits _ _ (.scratch options text)) hg hapart
      (by simp [Setting.Recorded]) firstId
  · intro _ _ _ old _ _ _ options hold hrecorded hreplace
    exact recorded_parseWith (hsuits _ _ (.again options hold hreplace)) hg hapart
      (hrecorded.ofRoot options) old.nextId

end Tree

/-! ## Queries -/

namespace Grammar

theorem namesApart_of_isApart {g : Grammar} (h : g.isApart = true) : g.NamesApart := by
  have hcheck {i : Nat} {kind : Kind} (hkind : g.visibleKind? i = some kind) :
      g.nonterminalOfKind? kind = some i ∧ g.isErasable i = false := by
    have hlt : i < g.nonterminals.size := by
      obtain ⟨info, hinfo, -⟩ := Option.bind_eq_some_iff.1 hkind
      exact (Array.getElem?_eq_some_iff.1 hinfo).1
    have hi := List.all_eq_true.1 h i (List.mem_range.2 hlt)
    simpa [hkind] using hi
  refine ⟨fun i kind hkind => (hcheck hkind).1, fun i herasable => ?_⟩
  cases hkind : g.visibleKind? i with
  | none => rfl
  | some kind =>
    rw [(hcheck hkind).2] at herasable
    cases herasable

end Grammar

namespace BigQuery

open Tree (Reached)

/-- The records of the nodes of every tree of a session are complete and agree with each other. A node
below the root that no repair left records a state from which the table goes on with its kind, and a
lookahead that ends at least three bytes behind it. If it may be taken over, then nothing inside it is
left by a repair and every node inside it may be taken over as well. And no node inside it has looked
further than itself. -/
theorem origins_recorded {text : List Char} {t : Tree} (h : Reached BigQuery.table text t) :
    ∀ v ∈ t.root.visits.tail, v.element.isToken = false →
      v.element.kind.isErrorOrMissing = false →
      ∃ origin, v.element.origin? = some origin ∧
        (BigQuery.table.gotoKind? origin.state v.element.kind).isSome = true ∧
        v.element.size + 3 ≤ origin.lookahead ∧
        (origin.reusable = true → ∀ w ∈ v.inside, w.element.isToken = false →
          w.element.kind.isErrorOrMissing = false ∧
            ∃ o, w.element.origin? = some o ∧ o.reusable = true) ∧
        ∀ w ∈ v.inside, w ∈ t.root.visits ∧ ∀ o, w.element.origin? = some o →
          w.start + o.lookahead ≤ v.start + origin.lookahead := by
  obtain ⟨g, hgrammar, htable, hsafe, -⟩ := table_spec
  have hapart := (grammar_spec hgrammar).2.1
  have hsuits (setting : Setting) (text : List Char)
      (hoccurs : Tree.Occurs BigQuery.table setting text) : setting.Suits g (g.rank 8) text :=
    suits htable hsafe hoccurs
  have htrusted := h.all_trusted hsuits
  rw [htable] at h hsuits ⊢
  obtain ⟨id, children, hroot, hall⟩ := h.recorded (Grammar.wellFormed_ofRules hgrammar)
    (Grammar.namesApart_of_isApart hapart) hsuits
  intro v hv htoken hkind
  have hvisit : v ∈ t.root.visits := List.mem_of_mem_tail hv
  have hrecorded : v.element.All (Element.Recorded (Table.ofGrammar g)) := by
    rw [hroot] at hv
    exact Element.all_of_mem_preorderAll children 1 0 (Element.allIn_iff.2 hall) hv
  obtain ⟨origin, horigin⟩ := hrecorded.self.exists_origin htoken hkind
  refine ⟨origin, horigin, hrecorded.self.goto origin horigin,
    hrecorded.self.lookahead origin horigin, fun hreusable w hw hnode => ?_, fun w hw => ⟨?_, ?_⟩⟩
  · have hlasting := Element.all_of_mem_preorder _ _ _ (hrecorded.self.all_lasting horigin hreusable) hw
    obtain ⟨o, ho, hlast⟩ := hlasting.self.resolve_left (by simp [hnode])
    refine ⟨?_, o, ho, hlast⟩
    have hclean := Element.all_of_mem_preorder _ _ _
      (Element.all_of_mem_preorder _ _ _ htrusted hvisit) hw
    exact Element.kind_of_hasError_eq_false hnode (hclean.self o ho hlast)
  · exact Element.mem_preorder_of_mem_inside t.root hvisit hw
  · exact (hrecorded.self.looksWithin horigin v.start).of_mem_preorder _ hw

/-- The records after an edit inside a query, where nodes in front of the edit and behind it are taken
over. -/
theorem origins_recorded_after_edit :
    ∃ edit new, Edit.replace "SELECT a, b FROM t; SELECT c".toList 10 11 "x + y".toList =
        .ok (edit, "SELECT a, x + y FROM t; SELECT c".toList) ∧
      Reached BigQuery.table "SELECT a, x + y FROM t; SELECT c".toList new ∧
      ∀ v ∈ new.root.visits.tail, v.element.isToken = false →
        v.element.kind.isErrorOrMissing = false →
        ∃ origin, v.element.origin? = some origin ∧ v.element.size + 3 ≤ origin.lookahead := by
  obtain ⟨edit, hreplace⟩ : ∃ edit,
      Edit.replace "SELECT a, b FROM t; SELECT c".toList 10 11 "x + y".toList =
        .ok (edit, "SELECT a, x + y FROM t; SELECT c".toList) := ⟨_, rfl⟩
  have hscratch : Reached BigQuery.table "SELECT a, b FROM t; SELECT c".toList _ := .parse {} _ 0
  have hreparse := hscratch.reparse_of_replace {} hreplace
  have hnew := Reached.edit {} hscratch hreplace hreparse
  refine ⟨edit, _, hreplace, hnew, fun v hv htoken hkind => ?_⟩
  obtain ⟨origin, horigin, -, hlookahead, -⟩ := origins_recorded hnew v hv htoken hkind
  exact ⟨origin, horigin, hlookahead⟩

end BigQuery
end SqlTree
