import SqlTree.Proofs.Element
import SqlTree.Proofs.Repair

/-!
# What happens to the stack

The laws of the operations that change the stack: joining entries, taking grammar symbols from the
stack, reducing and skipping. They speak about the entries themselves; what the entries stand for is
up to those who use the laws.

- `Entry.text`, `Stack.text` : what has been read into an entry and into a stack
- `Stack.popSymbols?_spec`   : the entries of the last grammar symbols
- `Machine.reduce?_spec`     : a reduction replaces these entries by one
- `Machine.Skips`, `Machine.skip_skips` : skipping leaves one entry for all that it drops
-/

namespace SqlTree

open Element (textAll)

/-! ## Texts -/

/-- The text that has been read into an entry. -/
def Entry.text (e : Entry) : List Char := textAll e.leading ++ textAll e.elements

/-- The text that has been read into a stack. -/
def Stack.text (stack : Stack) : List Char := textAll (Machine.elements stack)

namespace Stack

@[simp]
theorem text_nil : text [] = [] := rfl

@[simp]
theorem text_cons (e : Entry) (stack : Stack) : text (e :: stack) = text stack ++ e.text := by
  simp [text, Machine.elements, Entry.text]

@[simp]
theorem text_append (a b : Stack) : text (a ++ b) = text b ++ text a := by
  induction a with
  | nil => simp
  | cons e a ih => simp [ih]

end Stack

namespace Entry

@[simp]
theorem join_text (e child : Entry) : (e.join child).text = e.text ++ child.text := by
  unfold join text
  cases he : e.elements with
  | nil => simp
  | cons x xs => simp

theorem foldl_join_text (children : List Entry) (e : Entry) :
    (children.foldl join e).text = e.text ++ Stack.text children.reverse := by
  induction children generalizing e with
  | nil => simp
  | cons child children ih => simp [ih]

theorem ofChildren_text (state : Nat) (children : List Entry) (offset : Nat) :
    (ofChildren state children offset).text = Stack.text children.reverse := by
  rw [ofChildren, foldl_join_text]
  simp [text]

/-- What joining one entry after the other keeps holds of all of them as one. -/
theorem ofChildren_of_join {P : Entry → Prop} {children : List Entry} (state offset : Nat)
    (hbase : P { state := state, start := offset, stop := offset })
    (hjoin : ∀ e, ∀ child ∈ children, P e → P (e.join child)) :
    P (ofChildren state children offset) := by
  have hfold {e : Entry} (he : P e) : P (children.foldl join e) := by
    induction children generalizing e with
    | nil => exact he
    | cons child children ih =>
      exact ih (fun e c hc => hjoin e c (List.mem_cons_of_mem _ hc))
        (hjoin e child List.mem_cons_self he)
  exact hfold hbase

theorem foldl_join_extra (children : List Entry) (e : Entry) :
    (children.foldl join e).extra = e.extra := by
  induction children generalizing e with
  | nil => rfl
  | cons child children ih => exact ih _

@[simp]
theorem ofChildren_extra (state : Nat) (children : List Entry) (offset : Nat) :
    (ofChildren state children offset).extra = false := foldl_join_extra children _

theorem foldl_join_state (children : List Entry) (e : Entry) :
    (children.foldl join e).state = e.state := by
  induction children generalizing e with
  | nil => rfl
  | cons child children ih => exact ih _

@[simp]
theorem ofChildren_state (state : Nat) (children : List Entry) (offset : Nat) :
    (ofChildren state children offset).state = state := foldl_join_state children _

theorem foldl_join_hasError (children : List Entry) (e : Entry) :
    (children.foldl join e).hasError = (e.hasError || children.any Entry.hasError) := by
  induction children generalizing e with
  | nil => simp
  | cons child children ih => simp [ih, join, Bool.or_assoc]

@[simp]
theorem ofChildren_hasError (state : Nat) (children : List Entry) (offset : Nat) :
    (ofChildren state children offset).hasError = children.any Entry.hasError := by
  rw [ofChildren, foldl_join_hasError, Bool.false_or]

/-- The elements of joined entries come from the entries. -/
theorem mem_foldl_join {children : List Entry} {e : Entry} {x : Element}
    (hx : x ∈ (children.foldl join e).leading ++ (children.foldl join e).elements) :
    x ∈ e.leading ++ e.elements ∨ ∃ child ∈ children, x ∈ child.leading ++ child.elements := by
  induction children generalizing e with
  | nil => exact Or.inl hx
  | cons child children ih =>
    rcases ih hx with h | ⟨c, hc, h⟩
    · have hjoin : x ∈ e.leading ++ e.elements ∨ x ∈ child.leading ++ child.elements := by
        unfold join at h
        cases he : e.elements with
        | nil => simpa [he] using h
        | cons y ys => simpa [he, or_assoc] using h
      rcases hjoin with h | h
      · exact Or.inl h
      · exact Or.inr ⟨child, List.mem_cons_self, h⟩
    · exact Or.inr ⟨c, List.mem_cons_of_mem _ hc, h⟩

theorem mem_ofChildren {state offset : Nat} {children : List Entry} {x : Element}
    (hx : x ∈ (ofChildren state children offset).leading ++
      (ofChildren state children offset).elements) :
    ∃ child ∈ children, x ∈ child.leading ++ child.elements := by
  rcases mem_foldl_join hx with h | h
  · simp at h
  · exact h

/-! ## What an entry looks like -/

/-- Trivia only stand in front of something, and what stands between grammar symbols is an error. -/
structure Formed (e : Entry) : Prop where
  leading_eq_nil : e.elements = [] → e.leading = []
  hasError : e.extra = true → e.hasError = true
  error : e.extra = true → ∃ id skipped, e.elements = [.node id .error none skipped]

theorem formed_of_elements_ne_nil {e : Entry} (h : e.elements ≠ []) (hextra : e.extra = false) :
    e.Formed :=
  ⟨fun hnil => absurd hnil h, by simp [hextra], by simp [hextra]⟩

theorem join_leading_eq_nil {e child : Entry} (he : e.elements = [] → e.leading = [])
    (hchild : child.elements = [] → child.leading = []) (h : (e.join child).elements = []) :
    (e.join child).leading = [] := by
  unfold join at h ⊢
  cases hel : e.elements with
  | nil =>
    simp only [hel, List.isEmpty_nil, if_true] at h ⊢
    rw [he hel, hchild h, List.append_nil]
  | cons x xs => simp [hel] at h

theorem ofChildren_leading_eq_nil {state offset : Nat} {children : List Entry}
    (hchildren : ∀ child ∈ children, child.Formed)
    (h : (ofChildren state children offset).elements = []) :
    (ofChildren state children offset).leading = [] :=
  ofChildren_of_join (P := fun e => e.elements = [] → e.leading = []) state offset (fun _ => rfl)
    (fun _ c hc he => join_leading_eq_nil he (hchildren c hc).leading_eq_nil) h

/-- Elements that are there do not go away. -/
theorem foldl_join_elements_ne_nil (children : List Entry) {e : Entry} (h : e.elements ≠ []) :
    (children.foldl join e).elements ≠ [] := by
  induction children generalizing e with
  | nil => exact h
  | cons child children ih => exact ih (by simp [join, h])

theorem foldl_join_start {children : List Entry} {e : Entry}
    (h : (children.foldl join e).elements = []) : (children.foldl join e).start = e.start := by
  induction children generalizing e with
  | nil => rfl
  | cons child children ih =>
    have hjoin : (e.join child).elements = [] := by
      rcases hel : (e.join child).elements with - | ⟨x, xs⟩
      · rfl
      · exact absurd h (foldl_join_elements_ne_nil children (by simp [hel]))
    rw [List.foldl_cons, ih h]
    unfold join at hjoin ⊢
    cases hel : e.elements with
    | nil => simp_all
    | cons x xs => simp [hel] at hjoin

theorem ofChildren_start {state offset : Nat} {children : List Entry}
    (h : (ofChildren state children offset).elements = []) :
    (ofChildren state children offset).start = offset := foldl_join_start h

theorem mem_leading_foldl_join {children : List Entry} {e : Entry} {x : Element}
    (hx : x ∈ (children.foldl join e).leading) :
    x ∈ e.leading ∨ ∃ child ∈ children, x ∈ child.leading := by
  induction children generalizing e with
  | nil => exact Or.inl hx
  | cons child children ih =>
    rcases ih hx with h | ⟨c, hc, h⟩
    · simp only [join] at h
      split at h
      · rcases List.mem_append.1 h with h | h
        · exact Or.inl h
        · exact Or.inr ⟨child, List.mem_cons_self, h⟩
      · exact Or.inl h
    · exact Or.inr ⟨c, List.mem_cons_of_mem _ hc, h⟩

end Entry

/-! ## Taking grammar symbols from the stack -/

namespace Stack

/-- As many grammar symbols as asked for are taken, the lowest entry taken is one of them, and
something stays. -/
theorem popSymbols?_spec {n : Nat} {stack : Stack} {taken children : List Entry} {below : Stack}
    (h : popSymbols? n stack taken = some (children, below)) :
    ∃ popped, children = popped ++ taken ∧ stack = popped.reverse ++ below ∧
      (popped.filter fun e => !e.extra).length = n ∧ (∀ e ∈ popped.head?, e.extra = false) ∧
      (popped ≠ [] → below ≠ []) := by
  fun_induction popSymbols? n stack taken with
  | case1 stack taken =>
    cases h
    exact ⟨[], by simp, by simp, by simp, by simp, by simp⟩
  | case2 n e next rest taken hextra ih =>
    obtain ⟨popped, rfl, hstack, hcount, hhead, hbelow⟩ := ih h
    refine ⟨popped ++ [e], by simp, by simp [hstack], by simp [hcount, hextra], ?_, ?_⟩
    · cases popped with
      | nil => simp at hcount
      | cons first popped => simpa using hhead
    · intro _
      cases popped with
      | nil =>
        simp only [List.reverse_nil, List.nil_append] at hstack
        rw [← hstack]
        simp
      | cons first popped => exact hbelow (by simp)
  | case3 n e next rest taken hextra ih =>
    obtain ⟨popped, rfl, hstack, hcount, hhead, hbelow⟩ := ih h
    have hextra : e.extra = false := by simpa using hextra
    refine ⟨popped ++ [e], by simp, by simp [hstack], by simp [hcount, hextra], ?_, ?_⟩
    · cases popped with
      | nil => simpa using hextra
      | cons first popped => simpa using hhead
    · intro _
      cases popped with
      | nil =>
        simp only [List.reverse_nil, List.nil_append] at hstack
        rw [← hstack]
        simp
      | cons first popped => exact hbelow (by simp)
  | case4 => cases h

end Stack

namespace Machine

/-! ## Shifting and taking over -/

/-- The entry of the current token, read as `kind`. -/
def tokenEntry (m : Machine) (kind : Kind) (next : Nat) : Entry where
  state := next
  leading := (m.newTokens (m.source.ahead 0).leading).1
  elements := [.token (m.nextId + (m.source.ahead 0).leading.length) kind (m.source.ahead 0).text]
  start := (m.source.ahead 0).start
  stop := (m.source.ahead 0).stop
  fragile := m.forkPending

/-- The entry of a missing token, read as `kind`. -/
def missingEntry (m : Machine) (kind : Kind) (next : Nat) : Entry where
  state := next
  elements := [.node (m.nextId + 1) .missing none [.token m.nextId kind []]]
  start := m.position
  stop := m.position
  fragile := m.forkPending
  hasError := true

/-- The entry of an old node that begins with the current token. -/
def oldEntry (m : Machine) (old : Element) (next : Nat) : Entry where
  state := next
  leading := (m.newTokens (m.source.ahead 0).leading).1
  elements := [old]
  start := (m.source.ahead 0).start
  stop := (m.source.ahead 0).start + old.size

theorem shiftToken_eq (m : Machine) (kind : Kind) (next : Nat) :
    m.shiftToken kind next = { m with
      source := m.source.bump.2
      stack := m.tokenEntry kind next :: m.stack
      forkPending := false
      nextId := m.nextId + (m.source.ahead 0).leading.length + 1 } := rfl

theorem shiftMissing_eq (m : Machine) (kind : Kind) (next : Nat) :
    m.shiftMissing kind next = { m with
      source := (m.source.peek 0).2
      stack := m.missingEntry kind next :: m.stack
      injected := none
      forkPending := false
      nextId := m.nextId + 2 } := rfl

theorem takeOver?_spec {setting : Setting} {m m' : Machine} {state : Nat}
    (h : m.takeOver? setting state = some m') :
    ∃ reuse old next, setting.reuse = some reuse ∧
      reuse.find? setting.table state (m.source.ahead 0).start = some old ∧
      setting.table.gotoKind? state old.kind = some next ∧
      m' = { m with
        source := (Source.reset (m.source.peek 0).2.bump.2
          ((m.source.ahead 0).start + old.size)).markExamined
            ((m.source.ahead 0).start + (old.origin?.map Origin.lookahead).getD 0)
        stack := m.oldEntry old next :: m.stack
        nextId := m.nextId + (m.source.ahead 0).leading.length
        reused := m.reused + 1 } := by
  simp only [takeOver?, peek_eq] at h
  obtain ⟨old, hfind, h⟩ := Option.bind_eq_some_iff.1 h
  obtain ⟨reuse, hreuse, hfind⟩ := Option.bind_eq_some_iff.1 hfind
  obtain ⟨next, hgoto, h⟩ := Option.map_eq_some_iff.1 h
  refine ⟨reuse, old, next, hreuse, hfind, hgoto, ?_⟩
  have hbump : (m.source.fetchMany (0 + 1 - m.source.buffer.length)).bump.1 = m.source.ahead 0 :=
    Source.ahead_fetchMany _ _ _
  rw [← h, Source.peek_snd]
  simp only [bump, looked, hbump]
  rfl

/-! ## Reducing -/

/-- The entries of a right-hand side as one. -/
def joinedEntry (m : Machine) (next : Nat) (children : List Entry) : Entry :=
  let entry := Entry.ofChildren next children m.position
  { entry with fragile := entry.fragile || m.forkPending }

/-- What is recorded about a node begun in state `base` and made in front of the current token. -/
def originOf (m : Machine) (base : Nat) (entry : Entry) : Origin where
  state := base
  lookahead := (m.source.peek 0).2.examined - entry.start
  reusable := !entry.hasError && !entry.fragile

/-- The entry for `lhs` over the entries of a right-hand side, under a node if `lhs` is visible. -/
inductive Makes (grammar : Grammar) (m : Machine) (base lhs : Nat) (joined : Entry) :
    Entry → Prop where
  | hidden (hkind : grammar.visibleKind? lhs = none) : Makes grammar m base lhs joined joined
  | visible {kind : Kind} (hkind : grammar.visibleKind? lhs = some kind) :
      Makes grammar m base lhs joined { joined with
        elements := [.node m.nextId kind (some (m.originOf base joined)) joined.elements] }

theorem Makes.frame {grammar : Grammar} {m : Machine} {base lhs : Nat} {joined entry : Entry}
    (h : m.Makes grammar base lhs joined entry) :
    entry.extra = joined.extra ∧ entry.state = joined.state := by
  cases h <;> exact ⟨rfl, rfl⟩

/-- The entries after a reduction are the new one and old ones, some of them in a new state. -/
theorem mem_reduced {extras below : Stack} {entry e : Entry} {next : Nat}
    (he : e ∈ (extras.map fun e => { e with state := next }) ++ entry :: below) :
    (∃ old ∈ extras ++ below, e = { old with state := e.state }) ∨ e = entry := by
  simp only [List.mem_append, List.mem_map, List.mem_cons] at he ⊢
  rcases he with ⟨old, hold, rfl⟩ | rfl | he
  · exact Or.inl ⟨old, Or.inl hold, rfl⟩
  · exact Or.inr rfl
  · exact Or.inl ⟨e, Or.inr he, rfl⟩

theorem wrap_spec (grammar : Grammar) (m : Machine) (base lhs : Nat) (joined : Entry) :
    ∃ entry nextId, m.Makes grammar base lhs joined entry ∧
      (m.peek 0).2.wrap grammar base lhs joined =
        (entry, { m with source := (m.source.peek 0).2, nextId := nextId }) := by
  unfold wrap
  cases hkind : grammar.visibleKind? lhs with
  | none => exact ⟨_, _, .hidden hkind, rfl⟩
  | some kind => exact ⟨_, _, .visible hkind, rfl⟩

/-- The machine after a reduction: what stays below, the new entry, and the extra entries that were
on top, which are now in the state of the new entry. Its children begin and end with a grammar
symbol. -/
theorem reduce?_spec {setting : Setting} {m m' : Machine} {production : Nat}
    (h : m.reduce? setting production = some m') :
    ∃ p extras children below next entry nextId,
      setting.table.grammar.productions[production]? = some p ∧
      m.stack = extras ++ (children.reverse ++ below) ∧
      (∀ e ∈ extras, e.extra = true) ∧
      (children.filter fun e => !e.extra).length = p.rhs.length ∧
      (∀ e, e ∈ children.head? ∨ e ∈ children.getLast? → e.extra = false) ∧
      (children ≠ [] → below ≠ []) ∧
      setting.table.goto? (Stack.topState below) p.lhs = some next ∧
      m.Makes setting.table.grammar (Stack.topState below) p.lhs (m.joinedEntry next children)
        entry ∧
      m' = { m with
        source := (m.source.peek 0).2
        stack := (extras.map fun e => { e with state := next }) ++ entry :: below
        nextId := nextId } := by
  obtain ⟨p, hp, h⟩ := Option.bind_eq_some_iff.1 h
  obtain ⟨⟨children, below⟩, hpop, h⟩ := Option.bind_eq_some_iff.1 h
  obtain ⟨next, hgoto, h⟩ := Option.map_eq_some_iff.1 h
  obtain ⟨popped, rfl, hstack, hcount, hhead, hbelow⟩ := Stack.popSymbols?_spec hpop
  simp only [List.append_nil] at *
  obtain ⟨entry, nextId, hmakes, hwrap⟩ := wrap_spec setting.table.grammar m
    (Stack.topState below) p.lhs (m.joinedEntry next popped)
  refine ⟨p, m.stack.takeWhile Entry.extra, popped, below, next, entry, nextId, hp, ?_, ?_, hcount,
    ?_, hbelow, hgoto, hmakes, ?_⟩
  · rw [← hstack, List.takeWhile_append_dropWhile]
  · exact List.all_eq_true.1 List.all_takeWhile
  · rintro e (he | he)
    · exact hhead e he
    · -- The last one is on top once the extra entries there are gone.
      have htop : (m.stack.dropWhile Entry.extra).head? = some e := by
        rw [hstack, List.head?_append, List.head?_reverse, Option.mem_def.1 he]
        rfl
      have hnot := List.head?_dropWhile_not Entry.extra m.stack
      simpa [htop] using hnot
  · simp only [joinedEntry, position, Source.ahead] at hwrap
    simp only [← h, peek] at hwrap ⊢
    rw [hwrap]

/-! ## Skipping -/

/-- Moving lexemes into an entry changes the source and the next number only. -/
theorem skipInto_frame (n : Nat) (e : Entry) (m : Machine) :
    (skipInto n e m).2 = { m with
      source := (skipInto n e m).2.source
      nextId := (skipInto n e m).2.nextId } := by
  induction n generalizing e m with
  | zero => rfl
  | succ n ih =>
    simp only [skipInto]
    rw [ih]
    rfl

/-- Moving lexemes into an entry keeps what it is, apart from its elements and its place. -/
theorem skipInto_entry (n : Nat) (e : Entry) (m : Machine) :
    (skipInto n e m).1 = { e with
      leading := (skipInto n e m).1.leading
      elements := (skipInto n e m).1.elements
      start := (skipInto n e m).1.start
      stop := (skipInto n e m).1.stop } := by
  induction n generalizing e m with
  | zero => rfl
  | succ n ih =>
    simp only [skipInto]
    rw [ih]
    split <;> rfl

/-- The text of the lexemes goes from the source into the entry. -/
theorem skipInto_text (n : Nat) (e : Entry) (m : Machine) :
    ∃ t, (skipInto n e m).1.text = e.text ++ t ∧
      (∀ done, m.source.At done → (skipInto n e m).2.source.At (done ++ t)) ∧
      (n = 0 → t = []) ∧ (0 < n → ∃ more, t = m.source.bump.1.content ++ more) := by
  induction n generalizing e m with
  | zero => exact ⟨[], by simp [skipInto], fun done h => by simpa [skipInto] using h, by simp⟩
  | succ n ih =>
    simp only [skipInto]
    generalize he' : (if e.elements.isEmpty = true then _ else _ : Entry) = e'
    obtain ⟨t, htext, hat, -⟩ := ih e' _
    refine ⟨m.source.bump.1.content ++ t, ?_, fun done h => ?_, by simp, fun _ => ⟨t, rfl⟩⟩
    · rw [htext, ← List.append_assoc]
      congr 1
      rw [← he']
      have hleading := Element.textAll_mapIdx_token m.source.bump.1.leading fun i => m.nextId + i
      cases hel : e.elements with
      | nil => simp [Entry.text, hel, newTokens, newToken, bump, Lexeme.content, hleading]
      | cons x xs =>
        simp [Entry.text, hel, newTokens, newToken, bump, Lexeme.content, hleading]
    · rw [← List.append_assoc]
      exact hat _ h.bump

theorem skipInto_source_text (n : Nat) (e : Entry) (m : Machine) :
    (skipInto n e m).2.source.text = m.source.text := by
  induction n generalizing e m with
  | zero => rfl
  | succ n ih =>
    simp only [skipInto]
    rw [ih]
    exact Source.bump_text m.source

/-- An entry into which a lexeme has been moved is not empty. -/
theorem skipInto_leading_eq_nil {n : Nat} {e : Entry} {m : Machine}
    (he : e.elements = [] → e.leading = []) (h : (skipInto n e m).1.elements = []) :
    (skipInto n e m).1.leading = [] := by
  induction n generalizing e m with
  | zero => exact he h
  | succ n ih =>
    simp only [skipInto] at h ⊢
    refine ih (fun hnil => ?_) h
    split at hnil <;> simp at hnil

/-- An element of the entry was there before, or is a token of a lexeme that has been moved. -/
theorem mem_skipInto {n : Nat} {e : Entry} {m : Machine} {x : Element}
    (hx : x ∈ (skipInto n e m).1.leading ++ (skipInto n e m).1.elements) :
    x ∈ e.leading ++ e.elements ∨ ∃ id kind text, x = .token id kind text := by
  induction n generalizing e m with
  | zero => exact Or.inl hx
  | succ n ih =>
    simp only [skipInto] at hx
    rcases ih hx with h | h
    · by_cases hnil : e.elements.isEmpty = true
      · rw [if_pos hnil] at h
        simp only [newTokens, newToken, List.mem_append, List.mem_mapIdx, List.mem_singleton] at h
        rcases h with (h | ⟨i, hi, rfl⟩) | rfl
        · exact Or.inl (List.mem_append_left _ h)
        · exact Or.inr ⟨_, _, _, rfl⟩
        · exact Or.inr ⟨_, _, _, rfl⟩
      · rw [if_neg hnil] at h
        simp only [newTokens, newToken, List.mem_append, List.mem_mapIdx, List.mem_singleton] at h
        rcases h with h | (h | ⟨i, hi, rfl⟩) | rfl
        · exact Or.inl (List.mem_append_left _ h)
        · exact Or.inl (List.mem_append_right _ h)
        · exact Or.inr ⟨_, _, _, rfl⟩
        · exact Or.inr ⟨_, _, _, rfl⟩
    · exact Or.inr h

theorem mem_leading_skipInto {n : Nat} {e : Entry} {m : Machine} {x : Element}
    {done : List Char} (hat : m.source.At done) (hx : x ∈ (skipInto n e m).1.leading) :
    x ∈ e.leading ∨ ∃ id kind text, x = .token id kind text ∧ kind.isTrivia = true := by
  induction n generalizing e m done with
  | zero => exact Or.inl hx
  | succ n ih =>
    simp only [skipInto] at hx
    rcases ih hat.bump hx with h | h
    · split at h
      · rcases List.mem_append.1 h with h | h
        · exact Or.inl h
        · obtain ⟨i, hi, rfl⟩ := List.mem_mapIdx.1 h
          exact Or.inr ⟨_, _, _, rfl, hat.front.1.trivia _ (List.getElem_mem hi)⟩
      · exact Or.inl h
    · exact Or.inr h

/-- What skipping leaves on a stack from which `d` entries were taken and to which the text `t` has
come: the entries that stay, and on them an error with all the rest, unless that is nothing. -/
inductive Leaves (stack : Stack) (d : Nat) (t : List Char) : Stack → Prop where
  | nothing (htext : Stack.text (stack.take d) ++ t = []) : Leaves stack d t (stack.drop d)
  | error {entry : Entry} {id : Nat} {skipped : List Element}
      (helements : entry.elements = [.node id .error none skipped])
      (hextra : entry.extra = true) (herror : entry.hasError = true)
      (hstate : entry.state = Stack.topState (stack.drop d))
      (htext : entry.text = Stack.text (stack.take d) ++ t)
      (hleading : ∀ x ∈ entry.leading, (∃ e ∈ stack, x ∈ e.leading) ∨
        ∃ id kind text, x = .token id kind text ∧ kind.isTrivia = true)
      (hskipped : ∀ x ∈ entry.leading ++ skipped, (∃ e ∈ stack, x ∈ e.leading ++ e.elements) ∨
        ∃ id kind text, x = .token id kind text) :
      Leaves stack d t (entry :: stack.drop d)

/-- All that skipping does. -/
structure Skips (m : Machine) (skipped : Nat) (m' : Machine) (d : Nat) (t : List Char) : Prop where
  depth_le : d ≤ m.stack.length - 1
  stack : Leaves m.stack d t m'.stack
  source_at : ∀ done, m.source.At done → m'.source.At (done ++ t)
  source_text : m'.source.text = m.source.text
  none : skipped = 0 → t = [] ∧ ∃ n, m'.source = m.source.fetchMany n
  some : 0 < skipped → ∃ more, t = (m.source.ahead 0).content ++ more
  frame : m'.injected = m.injected ∧ m'.repairs = m.repairs ∧ m'.diagnostics = m.diagnostics

/-- The top `d` entries as one. -/
def poppedEntry (m : Machine) (d : Nat) : Entry :=
  Entry.ofChildren (Stack.topState (m.stack.drop d)) (m.stack.take d).reverse m.position

theorem poppedEntry_text (m : Machine) (d : Nat) :
    (m.poppedEntry d).text = Stack.text (m.stack.take d) := by
  rw [poppedEntry, Entry.ofChildren_text, List.reverse_reverse]

theorem mem_poppedEntry {m : Machine} {d : Nat} {x : Element}
    (hx : x ∈ (m.poppedEntry d).leading ++ (m.poppedEntry d).elements) :
    ∃ e ∈ m.stack, x ∈ e.leading ++ e.elements := by
  obtain ⟨e, he, hx⟩ := Entry.mem_ofChildren hx
  exact ⟨e, List.mem_of_mem_take (List.mem_reverse.1 he), hx⟩

theorem mem_leading_poppedEntry {m : Machine} {d : Nat} {x : Element}
    (hx : x ∈ (m.poppedEntry d).leading) : ∃ e ∈ m.stack, x ∈ e.leading := by
  rcases Entry.mem_leading_foldl_join hx with hx | ⟨e, he, hx⟩
  · cases hx
  · exact ⟨e, List.mem_of_mem_take (List.mem_reverse.1 he), hx⟩

/-- The top `d` entries with the next lexemes behind them, and the machine without both. -/
def gathered (m : Machine) (skipped d : Nat) : Entry × Machine :=
  skipInto skipped (m.poppedEntry d) ({ m with stack := m.stack.drop d }.peek 0).2

/-- Popped entries have no trivia without anything behind them, so there is always an error to be
left if anything is. -/
theorem gathered_leading_eq_nil {m : Machine} {skipped d : Nat} (hformed : ∀ e ∈ m.stack, e.Formed)
    (h : (m.gathered skipped d).1.elements = []) : (m.gathered skipped d).1.leading = [] := by
  refine skipInto_leading_eq_nil (Entry.ofChildren_leading_eq_nil fun child hchild => ?_) h
  exact hformed child (List.mem_of_mem_take (List.mem_reverse.1 hchild))

/-- Skipping leaves what it gathers as an error. -/
theorem skip_eq {m : Machine} (hformed : ∀ e ∈ m.stack, e.Formed) (skipped depth : Nat) :
    ∃ d, d = min depth (m.stack.length - 1) ∧
      (((m.gathered skipped d).1.leading ++ (m.gathered skipped d).1.elements = [] ∧
        m.skip skipped depth = (m.gathered skipped d).2) ∨
      ((m.gathered skipped d).1.elements ≠ [] ∧
        m.skip skipped depth = { (m.gathered skipped d).2 with
          nextId := (m.gathered skipped d).2.nextId + 1
          stack := { (m.gathered skipped d).1 with
              elements := [.node (m.gathered skipped d).2.nextId .error none
                (m.gathered skipped d).1.elements]
              hasError := true
              extra := true } :: (m.gathered skipped d).2.stack })) := by
  refine ⟨min depth (m.stack.length - 1), rfl, ?_⟩
  generalize hd : min depth (m.stack.length - 1) = d
  by_cases hnil : (m.gathered skipped d).1.elements = []
  · have hleading := gathered_leading_eq_nil hformed hnil
    refine Or.inl ⟨by simp [hnil, hleading], ?_⟩
    subst hd
    refine (if_pos (List.isEmpty_iff.2 hnil)).trans ?_
    exact if_pos (List.isEmpty_iff.2 hleading)
  · subst hd
    exact Or.inr ⟨hnil, if_neg fun h => hnil (List.isEmpty_iff.1 h)⟩

theorem gathered_skips {m m' : Machine} {skipped d : Nat} (hd : d ≤ m.stack.length - 1)
    (hsource : m'.source = (m.gathered skipped d).2.source)
    (hframe : m'.injected = (m.gathered skipped d).2.injected ∧
      m'.repairs = (m.gathered skipped d).2.repairs ∧
      m'.diagnostics = (m.gathered skipped d).2.diagnostics)
    (hstack : ∀ t, (m.gathered skipped d).1.text = (m.poppedEntry d).text ++ t →
      Leaves m.stack d t m'.stack) : ∃ t, m.Skips skipped m' d t := by
  have hpeek : ({ m with stack := m.stack.drop d }.peek 0).2.source = (m.source.peek 0).2 := rfl
  obtain ⟨t, htext, hmoves, hnone, hsome⟩ :=
    skipInto_text skipped (m.poppedEntry d) ({ m with stack := m.stack.drop d }.peek 0).2
  refine ⟨t, hd, hstack t htext, fun done h => ?_, ?_, fun h => ?_, fun h => ?_, ?_⟩
  · rw [hsource]
    exact hmoves done (h.peek 0)
  · rw [hsource, gathered, skipInto_source_text, hpeek, Source.peek_snd, Source.fetchMany_text]
  · refine ⟨hnone h, 0 + 1 - m.source.buffer.length, ?_⟩
    rw [hsource, ← Source.peek_snd]
    subst h
    rfl
  · obtain ⟨more, rfl⟩ := hsome h
    refine ⟨more, ?_⟩
    rw [hpeek, Source.bump_fst, ← Source.ahead, Source.peek_snd, Source.ahead_fetchMany]
  · rw [hframe.1, hframe.2.1, hframe.2.2, gathered, skipInto_frame]
    exact ⟨rfl, rfl, rfl⟩

theorem skip_skips {m : Machine} {done : List Char} (hat : m.source.At done)
    (hformed : ∀ e ∈ m.stack, e.Formed) (skipped depth : Nat) :
    ∃ d t, m.Skips skipped (m.skip skipped depth) d t := by
  obtain ⟨d, hmin, hskip⟩ := skip_eq hformed skipped depth
  have hd : d ≤ m.stack.length - 1 := hmin ▸ Nat.min_le_right _ _
  refine ⟨d, ?_⟩
  have hstack : (m.gathered skipped d).2.stack = m.stack.drop d := by
    rw [gathered, skipInto_frame]
    rfl
  rcases hskip with ⟨hnil, hskip⟩ | ⟨-, hskip⟩
  · rw [hskip]
    refine gathered_skips hd rfl ⟨rfl, rfl, rfl⟩ fun t htext => ?_
    rw [hstack]
    refine .nothing ?_
    rw [← poppedEntry_text, ← htext, Entry.text, ← Element.textAll_append, hnil]
    rfl
  · rw [hskip]
    refine gathered_skips hd rfl ⟨rfl, rfl, rfl⟩ fun t htext => ?_
    have hentry := skipInto_entry skipped (m.poppedEntry d)
      ({ m with stack := m.stack.drop d }.peek 0).2
    rw [hstack]
    refine .error rfl rfl rfl ?_ ?_ (fun x hx => ?_) (fun x hx => ?_)
    · rw [gathered, hentry]
      exact Entry.ofChildren_state _ _ _
    · rw [← poppedEntry_text, ← htext]
      simp [Entry.text]
    · rcases mem_leading_skipInto (hat.peek 0) hx with hx | hx
      · exact Or.inl (mem_leading_poppedEntry hx)
      · exact Or.inr hx
    · rcases mem_skipInto hx with hx | hx
      · exact Or.inl (mem_poppedEntry hx)
      · exact Or.inr hx

end Machine
end SqlTree
