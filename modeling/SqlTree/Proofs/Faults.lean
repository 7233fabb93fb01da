import SqlTree.Proofs.BigQuery

/-!
# Faults in a tree

The nodes that repairs leave, with their offsets, and what every operation on the stack does to them.
Shifting, reducing and taking over leave them as they are: an old node may be taken over only if it
has no faults, and a record of that goes with every node. A missing token adds one at the end, and
skipping adds one around those that it drops.

- `Visit.isFault`     : a node that a repair left
- `Element.faultsAt`  : all such nodes in an element, with their offsets
- `Element.Trusted`   : a node that may be taken over has no faults
- `Entry.content`     : what an entry holds, which joining puts one behind the other
- `Machine.faults`    : the faults on the stack of a machine
- `Machine.Candid`    : entries that claim to have no faults have none
- `Machine.Candid.step` : a step keeps that
- `Tree.Reached.all_trusted` : so the nodes of every tree can be trusted
-/

namespace SqlTree

/-- A node that a repair left. -/
def Visit.isFault (v : Visit) : Bool := !v.element.isToken && v.element.kind.isErrorOrMissing

/-! ## Faults of elements -/

namespace Element

mutual

/-- The nodes that repairs left in an element at byte `start`, with their offsets, from the root down
and from left to right. -/
def faultsAt : Element → Nat → List (Nat × Element)
  | token .., _ => []
  | node id kind origin children, start =>
    (if kind.isErrorOrMissing then [(start, node id kind origin children)] else []) ++
      faultsAllAt children start

def faultsAllAt : List Element → Nat → List (Nat × Element)
  | [], _ => []
  | e :: rest, start => e.faultsAt start ++ faultsAllAt rest (start + e.size)

end

variable {es : List Element} {start : Nat}

@[simp]
theorem faultsAllAt_append (a b : List Element) (start : Nat) :
    faultsAllAt (a ++ b) start = faultsAllAt a start ++ faultsAllAt b (start + sizeAll a) := by
  induction a generalizing start with
  | nil => rfl
  | cons e a ih => simp only [List.cons_append, faultsAllAt, ih, sizeAll, List.append_assoc,
      Nat.add_assoc]

theorem faultsAllAt_singleton (e : Element) (start : Nat) :
    faultsAllAt [e] start = e.faultsAt start := by
  simp [faultsAllAt]

/-- Tokens are no faults. -/
theorem faultsAllAt_tokens (h : ∀ e ∈ es, e.isToken = true) (start : Nat) :
    faultsAllAt es start = [] := by
  induction es generalizing start with
  | nil => rfl
  | cons e es ih =>
    cases e with
    | token id kind text =>
      simpa [faultsAllAt, faultsAt] using ih (fun x hx => h x (List.mem_cons_of_mem _ hx)) _
    | node id kind origin children => cases h _ List.mem_cons_self

/-- The faults of a proper node are those of its children. -/
theorem faultsAt_node {kind : Kind} (hkind : kind.isErrorOrMissing = false) (id : Nat)
    (origin : Option Origin) (children : List Element) (start : Nat) :
    (node id kind origin children).faultsAt start = faultsAllAt children start := by
  simp [faultsAt, hkind]

mutual

theorem hasError_eq_false_iff : (e : Element) → (start : Nat) →
    (e.hasError = false ↔ e.faultsAt start = [])
  | token .., _ => by simp [hasError, faultsAt]
  | node id kind origin children, start => by
    rw [hasError, faultsAt, Bool.or_eq_false_iff, hasErrorAny_eq_false_iff children start]
    cases kind.isErrorOrMissing <;> simp

theorem hasErrorAny_eq_false_iff : (es : List Element) → (start : Nat) →
    (hasErrorAny es = false ↔ faultsAllAt es start = [])
  | [], _ => by simp [hasErrorAny, faultsAllAt]
  | e :: rest, start => by
    rw [hasErrorAny, faultsAllAt, Bool.or_eq_false_iff, hasError_eq_false_iff e start,
      hasErrorAny_eq_false_iff rest (start + e.size), List.append_eq_nil_iff]

end

theorem hasErrorAny_append (a b : List Element) :
    hasErrorAny (a ++ b) = (hasErrorAny a || hasErrorAny b) := by
  induction a with
  | nil => rfl
  | cons e a ih => simp [hasErrorAny, ih, Bool.or_assoc]

mutual

/-- The faults are found among the elements that are visited, in their order. -/
theorem map_filter_preorder : (e : Element) → (depth start : Nat) →
    ((e.preorder depth start).filter Visit.isFault).map (fun v => (v.start, v.element)) =
      e.faultsAt start
  | token .., _, _ => by simp [preorder, faultsAt, Visit.isFault, isToken]
  | node id kind origin children, depth, start => by
    rw [preorder, faultsAt, List.filter_cons, ← map_filter_preorderAll children (depth + 1) start]
    cases hkind : kind.isErrorOrMissing <;> simp [Visit.isFault, isToken, Element.kind, hkind]

theorem map_filter_preorderAll : (es : List Element) → (depth start : Nat) →
    ((preorderAll es depth start).filter Visit.isFault).map (fun v => (v.start, v.element)) =
      faultsAllAt es start
  | [], _, _ => rfl
  | e :: rest, depth, start => by
    rw [preorderAll, faultsAllAt, List.filter_append, List.map_append, map_filter_preorder e,
      map_filter_preorderAll rest]

end

/-! ## Nodes that can be trusted -/

/-- A node that may be taken over has no faults. -/
def Trusted (e : Element) : Prop :=
  ∀ origin ∈ e.origin?, origin.reusable = true → e.hasError = false

theorem trusted_of_origin_eq_none {e : Element} (h : e.origin? = none) : e.Trusted := by
  simp [Trusted, h]

theorem all_trusted_of_isToken {e : Element} (h : e.isToken = true) : e.All Trusted := by
  cases e with
  | token id kind text => exact trusted_of_origin_eq_none rfl
  | node => cases h

end Element

open Element (faultsAllAt sizeAll)

/-! ## What entries hold -/

namespace Entry

/-- All that an entry holds. -/
def content (e : Entry) : List Element := e.leading ++ e.elements

theorem join_content (e child : Entry) : (e.join child).content = e.content ++ child.content := by
  unfold join content
  by_cases hel : e.elements = []
  · simp [hel]
  · simp [hel]

theorem foldl_join_content (children : List Entry) (e : Entry) :
    (children.foldl join e).content = e.content ++ children.flatMap content := by
  induction children generalizing e with
  | nil => simp
  | cons child children ih => simp [ih, join_content]

/-- Joined entries hold what they held one behind the other. -/
theorem ofChildren_content (state : Nat) (children : List Entry) (offset : Nat) :
    (ofChildren state children offset).content = children.flatMap content := by
  rw [ofChildren, foldl_join_content]
  rfl

end Entry

namespace Machine

@[simp]
theorem elements_append (a b : Stack) : elements (a ++ b) = elements b ++ elements a := by
  simp [elements]

theorem elements_cons (e : Entry) (stack : Stack) :
    elements (e :: stack) = elements stack ++ e.content := by
  simp [elements, Entry.content]

theorem elements_reverse (children : List Entry) :
    elements children.reverse = children.flatMap Entry.content := by
  rw [elements, List.reverse_reverse]
  rfl

theorem elements_map_state (extras : Stack) (state : Nat) :
    elements (extras.map fun e => { e with state := state }) = elements extras := by
  simp [elements, List.flatMap, ← List.map_reverse, Function.comp_def]

/-- The nodes that repairs left on the stack, with their offsets. -/
def faults (m : Machine) : List (Nat × Element) := faultsAllAt (elements m.stack) 0

variable {text : List Char} {m m' : Machine} {setting : Setting} {g : Grammar}

theorem Faithful.sizeAll_elements (h : m.Faithful text) : sizeAll (elements m.stack) = m.position := by
  rw [h.position_eq, ← Element.size_textAll]
  rfl

theorem faults_push {entry : Entry} (hstack : m'.stack = entry :: m.stack) :
    m'.faults = m.faults ++ faultsAllAt entry.content (sizeAll (elements m.stack)) := by
  rw [faults, hstack, elements_cons, Element.faultsAllAt_append, Nat.zero_add]
  rfl

theorem isToken_newTokens (m : Machine) (leaves : List Leaf) :
    ∀ x ∈ (m.newTokens leaves).1, x.isToken = true := by
  intro x hx
  obtain ⟨i, hi, rfl⟩ := List.mem_mapIdx.1 hx
  rfl

/-! ## Faults and actions -/

theorem isToken_of_mem_tokenEntry (m : Machine) (kind : Kind) (next : Nat) :
    ∀ x ∈ (m.tokenEntry kind next).content, x.isToken = true := by
  intro x hx
  rcases List.mem_append.1 hx with hx | hx
  · exact isToken_newTokens _ _ x hx
  · obtain rfl := List.mem_singleton.1 hx
    rfl

theorem faults_shiftToken (m : Machine) (kind : Kind) (next : Nat) :
    (m.shiftToken kind next).faults = m.faults := by
  rw [shiftToken_eq, faults_push rfl,
    Element.faultsAllAt_tokens (isToken_of_mem_tokenEntry m kind next), List.append_nil]

theorem faults_shiftMissing (h : m.Faithful text) (kind : Kind) (next : Nat) :
    (m.shiftMissing kind next).faults =
      m.faults ++ [(m.position, .node (m.nextId + 1) .missing none [.token m.nextId kind []])] := by
  rw [shiftMissing_eq, faults_push rfl, h.sizeAll_elements]
  simp [Entry.content, missingEntry, faultsAllAt, Element.faultsAt, Kind.isErrorOrMissing]

theorem faults_oldEntry (m : Machine) {old : Element} (hold : old.hasError = false) (next start : Nat) :
    faultsAllAt (m.oldEntry old next).content start = [] := by
  have hleading := Element.faultsAllAt_tokens
    (isToken_newTokens m (m.source.ahead 0).leading) start
  rw [Entry.content, Element.faultsAllAt_append]
  simp only [oldEntry, hleading, Element.faultsAllAt_singleton, List.nil_append]
  exact (Element.hasError_eq_false_iff old _).1 hold

/-- What a reduction makes has the faults of what it is made of. -/
theorem Makes.faults {base lhs : Nat} {joined entry : Entry} (h : m.Makes g base lhs joined entry)
    (hnames : g.NamesNodes) (start : Nat) :
    faultsAllAt entry.content start = faultsAllAt joined.content start ∧
      sizeAll entry.content = sizeAll joined.content := by
  cases h with
  | hidden => exact ⟨rfl, rfl⟩
  | visible hkind =>
    refine ⟨?_, ?_⟩
    · rw [Entry.content, Entry.content, Element.faultsAllAt_append, Element.faultsAllAt_append,
        Element.faultsAllAt_singleton, Element.faultsAt_node (hnames _ _ hkind)]
    · rw [Entry.content, Entry.content, Element.sizeAll_append, Element.sizeAll_append,
        Element.sizeAll_singleton, Element.size]

theorem faults_reduce {production : Nat} (hnames : g.NamesNodes)
    (htable : setting.table.grammar = g) (hreduced : m.reduce? setting production = some m') :
    m'.faults = m.faults := by
  obtain ⟨p, extras, children, below, next, entry, nextId, -, hstack, -, -, -, -, -, hmakes, rfl⟩ :=
    reduce?_spec hreduced
  rw [htable] at hmakes
  have hcontent : (m.joinedEntry next children).content = children.flatMap Entry.content :=
    Entry.ofChildren_content next children m.position
  obtain ⟨hfaults, hsize⟩ := hmakes.faults hnames (sizeAll (elements below))
  rw [hcontent] at hfaults hsize
  simp only [faults, hstack, elements_append, elements_cons, elements_reverse, elements_map_state,
    Element.faultsAllAt_append, Element.sizeAll_append, Nat.zero_add, hfaults, hsize]

/-! ## Faults and skipping -/

/-- Once an entry has elements, lexemes that are moved into it go behind them. -/
theorem skipInto_of_ne_nil (n : Nat) {e : Entry} (h : e.elements ≠ []) (m : Machine) :
    (skipInto n e m).1.leading = e.leading ∧
      ∃ more, (skipInto n e m).1.elements = e.elements ++ more ∧ ∀ x ∈ more, x.isToken = true := by
  induction n generalizing e m with
  | zero => exact ⟨rfl, [], by simp [skipInto], by simp⟩
  | succ n ih =>
    have hempty : ¬ e.elements.isEmpty = true := by simpa using h
    simp only [skipInto, if_neg hempty]
    obtain ⟨hleading, more, helements, htokens⟩ := ih (e := { e with
      elements := e.elements ++ (m.bump.2.newTokens m.bump.1.leading).1 ++
        [((m.bump.2.newTokens m.bump.1.leading).2.newToken m.bump.1.kind m.bump.1.text).1]
      stop := m.bump.1.stop }) (by simp) _
    refine ⟨hleading, (m.bump.2.newTokens m.bump.1.leading).1 ++
      [((m.bump.2.newTokens m.bump.1.leading).2.newToken m.bump.1.kind m.bump.1.text).1] ++ more,
      ?_, ?_⟩
    · simpa only [List.append_assoc] using helements
    · intro x hx
      simp only [List.mem_append, List.mem_singleton] at hx
      rcases hx with (hx | rfl) | hx
      · exact isToken_newTokens _ _ x hx
      · rfl
      · exact htokens x hx

/-- The first of the lexemes that are moved into an entry becomes one of its elements, behind all that
the entry held and the trivia in front of the lexeme. -/
theorem skipInto_succ (n : Nat) (e : Entry) (m : Machine) :
    ∃ before token after, (skipInto (n + 1) e m).1.elements = before ++ token :: after ∧
      token.isToken = true ∧ token.size = Text.size m.source.bump.1.text ∧
      (∀ x ∈ after, x.isToken = true) ∧
      (skipInto (n + 1) e m).1.leading ++ before =
        e.content ++ (m.bump.2.newTokens m.source.bump.1.leading).1 := by
  simp only [skipInto]
  generalize htoken : ((m.bump.2.newTokens m.bump.1.leading).2.newToken m.bump.1.kind
    m.bump.1.text).1 = token
  have hsize : token.isToken = true ∧ token.size = Text.size m.source.bump.1.text := by
    rw [← htoken]
    exact ⟨rfl, rfl⟩
  by_cases hempty : e.elements.isEmpty = true
  · simp only [if_pos hempty]
    obtain ⟨hleading, more, helements, htokens⟩ := skipInto_of_ne_nil n (e := { e with
      leading := e.leading ++ (m.bump.2.newTokens m.bump.1.leading).1
      elements := [token]
      start := m.bump.1.start
      stop := m.bump.1.stop }) (by simp)
      ((m.bump.2.newTokens m.bump.1.leading).2.newToken m.bump.1.kind m.bump.1.text).2
    refine ⟨[], token, more, helements, hsize.1, hsize.2, htokens, ?_⟩
    rw [hleading, Entry.content, List.isEmpty_iff.1 hempty, List.append_nil, List.append_nil]
    rfl
  · simp only [if_neg hempty]
    obtain ⟨hleading, more, helements, htokens⟩ := skipInto_of_ne_nil n (e := { e with
      elements := e.elements ++ (m.bump.2.newTokens m.bump.1.leading).1 ++ [token]
      stop := m.bump.1.stop }) (by simp)
      ((m.bump.2.newTokens m.bump.1.leading).2.newToken m.bump.1.kind m.bump.1.text).2
    refine ⟨e.elements ++ (m.bump.2.newTokens m.bump.1.leading).1, token, more, ?_, hsize.1, hsize.2,
      htokens, ?_⟩
    · rw [helements]
      simp
    · rw [hleading]
      exact (List.append_assoc _ _ _).symm

/-- Lexemes that are moved into an entry bring tokens only. -/
theorem skipInto_content (n : Nat) (e : Entry) (m : Machine) :
    ∃ more, (skipInto n e m).1.content = e.content ++ more ∧ ∀ x ∈ more, x.isToken = true := by
  cases n with
  | zero => exact ⟨[], by simp [skipInto], by simp⟩
  | succ n =>
    obtain ⟨before, token, after, helements, htoken, -, hafter, hbefore⟩ := skipInto_succ n e m
    refine ⟨(m.bump.2.newTokens m.source.bump.1.leading).1 ++ token :: after, ?_, fun x hx => ?_⟩
    · rw [Entry.content, helements, ← List.append_assoc, hbefore, List.append_assoc]
    · rcases List.mem_append.1 hx with hx | hx
      · exact isToken_newTokens _ _ x hx
      · rcases List.mem_cons.1 hx with rfl | hx
        · exact htoken
        · exact hafter x hx

theorem poppedEntry_content (m : Machine) (d : Nat) :
    (m.poppedEntry d).content = elements (m.stack.take d) := by
  rw [poppedEntry, Entry.ofChildren_content, ← elements_reverse, List.reverse_reverse]

theorem gathered_content (m : Machine) (skipped d : Nat) :
    ∃ more, (m.gathered skipped d).1.content = elements (m.stack.take d) ++ more ∧
      ∀ x ∈ more, x.isToken = true := by
  rw [← poppedEntry_content]
  exact skipInto_content skipped (m.poppedEntry d) _

/-- Where a lexeme is skipped, there is something to be left as an error. -/
theorem gathered_ne_nil_of_pos (m : Machine) {skipped : Nat} (h : 0 < skipped) (d : Nat) :
    (m.gathered skipped d).1.elements ≠ [] := by
  obtain ⟨n, rfl⟩ := Nat.exists_eq_succ_of_ne_zero (Nat.ne_of_gt h)
  obtain ⟨before, token, after, helements, -⟩ := skipInto_succ n (m.poppedEntry d)
    ({ m with stack := m.stack.drop d }.peek 0).2
  simp [gathered, helements]

/-- The faults on the stack are those below what is gathered and those in it. -/
theorem faults_eq_gathered (m : Machine) (skipped d : Nat) :
    m.faults = faultsAllAt (elements (m.stack.drop d)) 0 ++
      faultsAllAt (m.gathered skipped d).1.content (sizeAll (elements (m.stack.drop d))) := by
  obtain ⟨more, hcontent, htokens⟩ := m.gathered_content skipped d
  have hstack : elements m.stack =
      elements (m.stack.drop d) ++ elements (m.stack.take d) := by
    rw [← elements_append, List.take_append_drop]
  rw [faults, hstack, hcontent, Element.faultsAllAt_append, Element.faultsAllAt_append,
    Element.faultsAllAt_tokens htokens, List.append_nil, Nat.zero_add]

/-- What skipping does to the faults: one more, around all that were in what is dropped. -/
theorem faults_skip (hformed : ∀ e ∈ m.stack, e.Formed) {skipped depth d : Nat}
    (hd : d = min depth (m.stack.length - 1)) (hne : (m.gathered skipped d).1.elements ≠ []) :
    ∃ front back, m.faults = front ++ back ∧
      (m.skip skipped depth).faults = front ++
        (sizeAll (elements (m.stack.drop d)) + sizeAll (m.gathered skipped d).1.leading,
          .node (m.gathered skipped d).2.nextId .error none (m.gathered skipped d).1.elements) ::
          back := by
  obtain ⟨d', hd', hskip⟩ := skip_eq hformed skipped depth
  obtain rfl := hd'.trans hd.symm
  rcases hskip with ⟨hnil, -⟩ | ⟨-, hskip⟩
  · exact absurd (List.append_eq_nil_iff.1 hnil).2 hne
  have hstack : (m.gathered skipped d').2.stack = m.stack.drop d' := by
    rw [gathered, skipInto_frame]
    rfl
  refine ⟨faultsAllAt (elements (m.stack.drop d')) 0 ++ faultsAllAt (m.gathered skipped d').1.leading
    (sizeAll (elements (m.stack.drop d'))), faultsAllAt (m.gathered skipped d').1.elements
    (sizeAll (elements (m.stack.drop d')) + sizeAll (m.gathered skipped d').1.leading), ?_, ?_⟩
  · rw [m.faults_eq_gathered skipped d', Entry.content, Element.faultsAllAt_append,
      List.append_assoc]
  · rw [hskip]
    simp [faults, hstack, elements_cons, Entry.content, Element.faultsAllAt_singleton,
      Element.faultsAt, Kind.isErrorOrMissing]

end Machine

/-! ## Entries that say whether they have faults -/

namespace Entry

/-- An entry that claims to have no faults has none, and all that it holds can be trusted. -/
structure Candid (e : Entry) : Prop where
  hasError : e.hasError = false → Element.hasErrorAny e.content = false
  trusted : ∀ x ∈ e.content, x.All Element.Trusted

theorem candid_of_tokens {e : Entry} (h : ∀ x ∈ e.content, x.isToken = true) : e.Candid where
  hasError _ := (Element.hasErrorAny_eq_false_iff _ 0).2 (Element.faultsAllAt_tokens h 0)
  trusted x hx := Element.all_trusted_of_isToken (h x hx)

theorem Candid.join {e child : Entry} (he : e.Candid) (hchild : child.Candid) :
    (e.join child).Candid where
  hasError h := by
    obtain ⟨hleft, hright⟩ := Bool.or_eq_false_iff.1 h
    rw [join_content, Element.hasErrorAny_append, he.hasError hleft, hchild.hasError hright]
    rfl
  trusted x hx := by
    rw [join_content] at hx
    rcases List.mem_append.1 hx with hx | hx
    · exact he.trusted x hx
    · exact hchild.trusted x hx

theorem candid_ofChildren {children : List Entry} (state offset : Nat)
    (hchildren : ∀ child ∈ children, child.Candid) : (ofChildren state children offset).Candid :=
  ofChildren_of_join state offset (candid_of_tokens (by simp [content]))
    fun _ child hchild he => he.join (hchildren child hchild)

end Entry

/-- Old nodes that may be taken over have no faults. -/
def Setting.Candid (setting : Setting) : Prop :=
  ∀ reuse ∈ setting.reuse, ∀ state offset old,
    reuse.find? setting.table state offset = some old →
      old.hasError = false ∧ old.All Element.Trusted

namespace Machine

variable {text : List Char} {m m' : Machine} {setting : Setting} {g : Grammar}

/-- All entries say whether they have faults. -/
def Candid (m : Machine) : Prop := ∀ e ∈ m.stack, e.Candid

theorem Candid.start (text : List Char) (firstId : Nat) : (Machine.start text firstId).Candid := by
  intro e he
  obtain rfl := List.mem_singleton.1 he
  exact Entry.candid_of_tokens (by simp [Entry.content, Entry.bottom])

theorem Candid.push {entry : Entry} (h : m.Candid) (hstack : m'.stack = entry :: m.stack)
    (hentry : entry.Candid) : m'.Candid := by
  unfold Candid
  rw [hstack]
  exact List.forall_mem_cons.2 ⟨hentry, h⟩

theorem Candid.shift (h : m.Candid) (kind : Kind) (next : Nat) : (m.shift kind next).Candid := by
  unfold Machine.shift
  split
  · rw [shiftMissing_eq]
    refine h.push rfl ⟨fun herror => (by cases herror), fun x hx => ?_⟩
    obtain rfl := List.mem_singleton.1 hx
    refine Element.all_node.2 ⟨Element.trusted_of_origin_eq_none rfl, fun x hx => ?_⟩
    obtain rfl := List.mem_singleton.1 hx
    exact Element.all_trusted_of_isToken rfl
  · rw [shiftToken_eq]
    exact h.push rfl (Entry.candid_of_tokens (isToken_of_mem_tokenEntry m kind next))

theorem Candid.takeOver {state : Nat} (h : m.Candid) (hsetting : setting.Candid)
    (htaken : m.takeOver? setting state = some m') : m'.Candid := by
  obtain ⟨reuse, old, next, hreuse, hfind, -, rfl⟩ := takeOver?_spec htaken
  obtain ⟨herror, htrusted⟩ := hsetting reuse hreuse _ _ old hfind
  refine h.push rfl ⟨fun _ => ?_, fun x hx => ?_⟩
  · exact (Element.hasErrorAny_eq_false_iff _ 0).2 (faults_oldEntry m herror next 0)
  · rcases List.mem_append.1 hx with hx | hx
    · exact Element.all_trusted_of_isToken (isToken_newTokens _ _ x hx)
    · obtain rfl := List.mem_singleton.1 hx
      exact htrusted

/-- A node is marked for taking over only if what it is made of has no faults. -/
theorem Makes.candid {base lhs : Nat} {joined entry : Entry} (h : m.Makes g base lhs joined entry)
    (hnames : g.NamesNodes) (hjoined : joined.Candid) : entry.Candid := by
  have hsame := h.faults hnames 0
  cases h with
  | hidden => exact hjoined
  | @visible kind hkind =>
    refine ⟨fun herror => ?_, fun x hx => ?_⟩
    · rw [Element.hasErrorAny_eq_false_iff _ 0, hsame.1, ← Element.hasErrorAny_eq_false_iff]
      exact hjoined.hasError herror
    · rcases List.mem_append.1 hx with hx | hx
      · exact hjoined.trusted x (List.mem_append_left _ hx)
      · obtain rfl := List.mem_singleton.1 hx
        refine Element.all_node.2 ⟨fun origin horigin hreusable => ?_, fun x hx => ?_⟩
        · obtain rfl := Option.some.inj horigin
          simp only [originOf, Bool.and_eq_true, Bool.not_eq_true'] at hreusable
          have hnone := hjoined.hasError hreusable.1
          rw [Entry.content, Element.hasErrorAny_append, Bool.or_eq_false_iff] at hnone
          simp [Element.hasError, hnames _ _ hkind, hnone.2]
        · exact hjoined.trusted x (List.mem_append_right _ hx)

theorem Candid.reduce {production : Nat} (h : m.Candid) (hnames : g.NamesNodes)
    (htable : setting.table.grammar = g) (hreduced : m.reduce? setting production = some m') :
    m'.Candid := by
  obtain ⟨p, extras, children, below, next, entry, nextId, -, hstack, -, -, -, -, -, hmakes, rfl⟩ :=
    reduce?_spec hreduced
  rw [htable] at hmakes
  have hjoined : (m.joinedEntry next children).Candid := by
    have hchildren : ∀ e ∈ children, e.Candid := fun e he => h e (by simp [hstack, he])
    obtain ⟨herror, htrusted⟩ := Entry.candid_ofChildren next m.position hchildren
    exact ⟨herror, htrusted⟩
  intro e he
  rcases mem_reduced he with ⟨old, hold, heq⟩ | rfl
  · have hmem : old ∈ m.stack := by
      rw [hstack]
      rcases List.mem_append.1 hold with hold | hold <;> simp [hold]
    obtain ⟨herror, htrusted⟩ := h old hmem
    rw [heq]
    exact ⟨herror, htrusted⟩
  · exact hmakes.candid hnames hjoined

theorem Candid.skip (h : m.Candid) (hformed : ∀ e ∈ m.stack, e.Formed) (skipped depth : Nat) :
    (m.skip skipped depth).Candid := by
  obtain ⟨d, -, hskip⟩ := skip_eq hformed skipped depth
  have hstack : (m.gathered skipped d).2.stack = m.stack.drop d := by
    rw [gathered, skipInto_frame]
    rfl
  have hdrop : ∀ e ∈ m.stack.drop d, e.Candid := fun e he => h e (List.mem_of_mem_drop he)
  obtain ⟨more, hcontent, htokens⟩ := m.gathered_content skipped d
  have htrusted : ∀ x ∈ (m.gathered skipped d).1.content, x.All Element.Trusted := by
    intro x hx
    rw [hcontent] at hx
    rcases List.mem_append.1 hx with hx | hx
    · simp only [elements, List.mem_flatMap, List.mem_reverse] at hx
      obtain ⟨e, he, hx⟩ := hx
      exact (h e (List.mem_of_mem_take he)).trusted x hx
    · exact Element.all_trusted_of_isToken (htokens x hx)
  rcases hskip with ⟨-, hskip⟩ | ⟨-, hskip⟩
  · rw [hskip, Candid, hstack]
    exact hdrop
  · rw [hskip, Candid, hstack]
    refine List.forall_mem_cons.2 ⟨⟨fun herror => (by cases herror), fun x hx => ?_⟩, hdrop⟩
    rcases List.mem_append.1 hx with hx | hx
    · exact htrusted x (List.mem_append_left _ hx)
    · obtain rfl := List.mem_singleton.1 hx
      refine Element.all_node.2 ⟨Element.trusted_of_origin_eq_none rfl, fun x hx => ?_⟩
      exact htrusted x (List.mem_append_right _ hx)

/-- A step keeps the entries candid. -/
theorem Candid.step (h : m.Candid) (hfaithful : m.Faithful text) (hnames : g.NamesNodes)
    (htable : setting.table.grammar = g) (hsetting : setting.Candid) :
    (m.step setting).machine.Candid := by
  refine step_keeps (J := fun m => m.Faithful text ∧ m.Candid)
    (fun n _ => ⟨(hfaithful.looked n).congr rfl rfl, h⟩) (fun _ h => h.2) ?_
  rintro m next ⟨hfaithful, h⟩ heffect
  cases heffect with
  | split => exact h
  | shift => exact h.shift _ _
  | takeOver _ htaken => exact h.takeOver hsetting htaken
  | reduce _ hreduced => exact h.reduce hnames htable hreduced
  | repair hrecover =>
    have hrepaired := recover?_repaired setting m
    rw [hrecover] at hrepaired
    cases hrepaired with
    | inserted => exact h
    | @skipped n skipped depth repairs diagnostic =>
      have hlooked : Candid { m.looked n with injected := none, repairs := repairs } := h
      exact hlooked.skip hfaithful.formed skipped depth

end Machine

/-! ## Trees of a session -/

namespace Tree

variable {g : Grammar} {rank : Nat → Nat} {text : List Char} {t : Tree} {setting : Setting}

theorem all_trusted_parseWith (hsuits : setting.Suits g rank text) (hsetting : setting.Candid)
    (firstId : Nat) : (parseWith setting text firstId).root.All Element.Trusted := by
  have hgrammar : setting.table.grammar = g := by
    rw [hsuits.table_eq]
    rfl
  obtain ⟨hfaithful, hcandid⟩ := Machine.run_induction
    (I := fun m : Machine => m.Faithful text ∧ m.Candid)
    (fun m h => ⟨h.1.step hsuits.truthful, h.2.step h.1 hsuits.names hgrammar hsetting⟩)
    (Machine.maxSteps setting.table (Text.size text)) ⟨.start text firstId, .start text firstId⟩
  obtain ⟨id, children, hroot, hchildren⟩ := Machine.all_below_finish hfaithful.source_at text
    (fun e he => (hcandid e he).trusted) (fun _ _ _ => Element.trusted_of_origin_eq_none rfl)
    fun _ _ => Element.trusted_of_origin_eq_none rfl
  rw [parseWith, hroot]
  exact Element.all_node.2 ⟨Element.trusted_of_origin_eq_none rfl, hchildren⟩

/-- Nodes of a tree that can be trusted can be taken over. -/
theorem candid_ofRoot {table : Table} {root : Element} {edit : Edit}
    (hroot : root.All Element.Trusted) (options : Options) :
    Setting.Candid ⟨table, options, some (Reuse.ofRoot root edit)⟩ := by
  intro reuse hreuse state offset old hfind
  cases hreuse
  obtain ⟨v, origin, rfl, hvisit, -, horigin, hreusable, -⟩ := Reuse.find?_spec hfind
  have hall := Element.all_of_mem_preorder root 0 0 hroot hvisit
  exact ⟨hall.self origin horigin hreusable, hall⟩

/-- The nodes of every tree can be trusted. -/
theorem Reached.all_trusted {table : Table}
    (hsuits : ∀ setting text, Occurs table setting text → setting.Suits g rank text)
    (h : Reached table text t) : t.root.All Element.Trusted := by
  refine reached_induction (P := fun _ t => t.root.All Element.Trusted) ?_ ?_ h
  · intro options text firstId
    exact all_trusted_parseWith (hsuits _ _ (.scratch options text)) (by simp [Setting.Candid])
      firstId
  · intro _ _ _ old _ _ _ options hold htrusted hreplace
    exact all_trusted_parseWith (hsuits _ _ (.again options hold hreplace))
      (candid_ofRoot htrusted options) old.nextId

theorem Occurs.candid {table : Table}
    (hsuits : ∀ setting text, Occurs table setting text → setting.Suits g rank text)
    (h : Occurs table setting text) : setting.Candid := by
  cases h with
  | scratch => simp [Setting.Candid]
  | again options hold _ => exact candid_ofRoot (hold.all_trusted hsuits) options

end Tree
end SqlTree
