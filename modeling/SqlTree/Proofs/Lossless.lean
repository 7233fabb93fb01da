import SqlTree.Proofs.Stack

/-!
# Nothing is lost

At every moment of a parse the stack spells the text that the source has handed out, whatever was
skipped, put in or taken over. For taking over, this has to be known of the old tree as well: a node
that may be taken over was made without looking further than it says, and it says at least as much
as it covers.

- `Element.Covered`  : a node that may be taken over has looked past its own end
- `Stack.Clean`      : the recorded starts of entries account for what was read since
- `Machine.Faithful` : the stack spells what the source has handed out
- `Machine.Faithful.step` : a step keeps this
- `Machine.Faithful.finish` : so the tree spells the text
-/

namespace SqlTree

open Element (textAll)

/-- A node that may be taken over was made by looking at all of its bytes and some behind it. -/
def Element.Covered (e : Element) : Prop :=
  ∀ origin ∈ e.origin?, origin.reusable = true → e.size + Source.readAhead ≤ origin.lookahead

theorem Element.covered_of_origin_eq_none {e : Element} (h : e.origin? = none) : e.Covered := by
  simp [Element.Covered, h]

theorem Element.all_covered_token (id : Nat) (kind : Kind) (text : List Char) :
    (Element.token id kind text).All Element.Covered :=
  Element.covered_of_origin_eq_none rfl

/-! ## Starts of entries -/

namespace Stack

/-- The bytes read since the last entry with an error, if there were `above` of them before. -/
def clean (above : Nat) (e : Entry) : Nat :=
  if e.hasError then 0 else Text.size e.text + above

/-- From the start of an entry without errors there is room up to `position` for all that was read
into the entry and, up to the next entry with an error, into those above it. The entries above the
whole stack hold `above` bytes. An entry that is empty may claim to start anywhere. -/
def Clean (position : Nat) : Nat → Stack → Prop
  | _, [] => True
  | above, e :: below =>
    (e.hasError = false → e.elements ≠ [] →
      e.start + Text.size (textAll e.elements) + above ≤ position) ∧
    Clean position (clean above e) below

theorem clean_le {a a' d : Nat} (e : Entry) (h : a' ≤ a + d) : clean a' e ≤ clean a e + d := by
  unfold clean
  split <;> omega

theorem Clean.weaken {p p' a a' : Nat} {stack : Stack} (h : Clean p a stack) (hp : p ≤ p')
    (ha : a' + p ≤ a + p') : Clean p' a' stack := by
  induction stack generalizing a a' with
  | nil => trivial
  | cons e below ih =>
    obtain ⟨hstart, hbelow⟩ := h
    refine ⟨fun herror hne => ?_, ih hbelow ?_⟩
    · have := hstart herror hne
      omega
    · have := clean_le e (show a' ≤ a + (p' - p) by omega)
      omega

theorem clean_append_iff {p a : Nat} {xs ys : Stack} :
    Clean p a (xs ++ ys) ↔ Clean p a xs ∧ Clean p (xs.foldl clean a) ys := by
  induction xs generalizing a with
  | nil => simp [Clean]
  | cons e xs ih => simp [Clean, ih, and_assoc]

/-- Two entries next to each other may be joined. -/
theorem Clean.join {p a : Nat} {e child : Entry} {below : Stack}
    (h : Clean p a (child :: e :: below)) : Clean p a (e.join child :: below) := by
  obtain ⟨hchild, he, hbelow⟩ := h
  have hjoin : (e.join child).hasError = (e.hasError || child.hasError) := rfl
  have htext : Text.size (e.join child).text = Text.size e.text + Text.size child.text := by
    rw [Entry.join_text, Text.size_append]
  refine ⟨fun herror hne => ?_, hbelow.weaken (Nat.le_refl _) ?_⟩
  · rw [hjoin, Bool.or_eq_false_iff] at herror
    have he := he herror.1
    have hchild := hchild herror.2
    simp only [clean, herror.2, Bool.false_eq_true, if_false, Entry.text, Text.size_append] at he
    unfold Entry.join at hne ⊢
    cases hel : e.elements with
    | nil =>
      simp only [hel, List.isEmpty_nil, if_true, Bool.true_and] at hne ⊢
      have hnonempty : (!child.elements.isEmpty) = true := by simpa using hne
      simp only [hnonempty, if_true]
      exact hchild hne
    | cons x xs =>
      simp only [hel, List.isEmpty_cons, Bool.false_and, Bool.false_eq_true, if_false,
        Element.textAll_append, Text.size_append] at he ⊢
      have := he (by simp)
      omega
  · unfold clean
    rw [hjoin]
    cases e.hasError <;> cases child.hasError <;> simp <;> omega

theorem Clean.foldl_join {p a : Nat} (children : List Entry) {e : Entry} {below : Stack}
    (h : Clean p a (children.reverse ++ e :: below)) :
    Clean p a (children.foldl Entry.join e :: below) := by
  induction children generalizing e with
  | nil => exact h
  | cons child children ih =>
    rw [List.reverse_cons, List.append_assoc, List.singleton_append, clean_append_iff] at h
    exact ih (clean_append_iff.2 ⟨h.1, h.2.join⟩)

/-- Entries next to each other may be replaced by all of them as one. -/
theorem Clean.ofChildren {p a : Nat} {children : List Entry} {below : Stack} (state offset : Nat)
    (h : Clean p a (children.reverse ++ below)) :
    Clean p a (Entry.ofChildren state children offset :: below) := by
  refine Clean.foldl_join children ?_
  rw [clean_append_iff] at h ⊢
  refine ⟨h.1, fun _ hne => absurd rfl hne, ?_⟩
  simpa [clean, Entry.text] using h.2

/-- A new entry on top, once its text has been read. -/
theorem Clean.push {p : Nat} {stack : Stack} {e : Entry} (h : Clean p 0 stack)
    (he : e.hasError = false →
      e.start + Text.size (textAll e.elements) ≤ p + Text.size e.text) :
    Clean (p + Text.size e.text) 0 (e :: stack) := by
  refine ⟨fun herror _ => by simpa using he herror, h.weaken (Nat.le_add_right _ _) ?_⟩
  unfold clean
  split <;> omega

end Stack

/-! ## The account of a machine -/

/-- An old node that may be taken over where the text has a certain offset is what the text spells
there. -/
def Setting.Truthful (setting : Setting) (text : List Char) : Prop :=
  ∀ reuse ∈ setting.reuse, ∀ state offset old,
    reuse.find? setting.table state offset = some old →
      old.All Element.Covered ∧ ∀ before after, text = before ++ after →
        Text.size before = offset → ∃ rest, after = old.text ++ rest

namespace Machine

/-- The stack spells what the source has handed out of `text`, and all that stands on it may be
relied upon later. -/
structure Faithful (text : List Char) (m : Machine) : Prop where
  source_at : m.source.At (Stack.text m.stack)
  text_eq : m.source.text = text
  formed : ∀ e ∈ m.stack, e.Formed
  clean : Stack.Clean (Text.size (Stack.text m.stack)) 0 m.stack
  covered : ∀ e ∈ m.stack, ∀ x ∈ e.leading ++ e.elements, x.All Element.Covered

variable {text : List Char} {m m' : Machine} {setting : Setting}

theorem Faithful.start (text : List Char) (firstId : Nat) :
    (Machine.start text firstId).Faithful text where
  source_at := Source.At.ofText text
  text_eq := rfl
  formed e he := by
    obtain rfl := List.mem_singleton.1 he
    exact ⟨fun _ => rfl, by simp [Entry.bottom], by simp [Entry.bottom]⟩
  clean := ⟨fun _ hne => absurd rfl hne, trivial⟩
  covered e he x hx := by
    obtain rfl := List.mem_singleton.1 he
    simp [Entry.bottom] at hx

/-- The account is about the source and the stack only. -/
theorem Faithful.congr (h : m.Faithful text) (hsource : m'.source = m.source)
    (hstack : m'.stack = m.stack) : m'.Faithful text := by
  obtain ⟨hat, htext, hformed, hclean, hcovered⟩ := h
  refine ⟨?_, ?_, ?_, ?_, ?_⟩ <;> simp only [hsource, hstack] <;> assumption

theorem Faithful.looked (h : m.Faithful text) (n : Nat) : (m.looked n).Faithful text where
  source_at := h.source_at.fetchMany n
  text_eq := by simpa [Machine.looked] using h.text_eq
  formed := h.formed
  clean := h.clean
  covered := h.covered

theorem Faithful.position_eq (h : m.Faithful text) : m.position = Text.size (Stack.text m.stack) :=
  h.source_at.fullStart

/-- A new entry for what has been taken from the source. -/
theorem Faithful.push {entry : Entry} (h : m.Faithful text) (hstack : m'.stack = entry :: m.stack)
    (hat : m'.source.At (Stack.text m.stack ++ entry.text)) (htext : m'.source.text = text)
    (hformed : entry.Formed)
    (hstart : entry.hasError = false → entry.start + Text.size (textAll entry.elements) ≤
      Text.size (Stack.text m.stack) + Text.size entry.text)
    (hcovered : ∀ x ∈ entry.leading ++ entry.elements, x.All Element.Covered) :
    m'.Faithful text where
  source_at := by rwa [hstack, Stack.text_cons]
  text_eq := htext
  formed e he := by
    rw [hstack] at he
    rcases List.mem_cons.1 he with rfl | he
    · exact hformed
    · exact h.formed e he
  clean := by
    rw [hstack, Stack.text_cons, Text.size_append]
    exact h.clean.push hstart
  covered e he x hx := by
    rw [hstack] at he
    rcases List.mem_cons.1 he with rfl | he
    · exact hcovered x hx
    · exact h.covered e he x hx

/-! ## Shifting -/

theorem all_covered_newTokens (m : Machine) (leaves : List Leaf) :
    ∀ x ∈ (m.newTokens leaves).1, x.All Element.Covered := by
  intro x hx
  obtain ⟨i, hi, rfl⟩ := List.mem_mapIdx.1 hx
  exact Element.all_covered_token _ _ _

theorem textAll_newTokens (m : Machine) (leaves : List Leaf) :
    textAll (m.newTokens leaves).1 = Lexeme.spell leaves :=
  Element.textAll_mapIdx_token leaves fun i => m.nextId + i

theorem tokenEntry_text (m : Machine) (kind : Kind) (next : Nat) :
    (m.tokenEntry kind next).text = m.source.bump.1.content := by
  simp [Entry.text, tokenEntry, textAll_newTokens, Lexeme.content, Source.bump_fst, Source.ahead]

theorem Faithful.shiftToken (h : m.Faithful text) (kind : Kind) (next : Nat) :
    (m.shiftToken kind next).Faithful text := by
  rw [shiftToken_eq]
  refine h.push rfl ?_ ?_ (Entry.formed_of_elements_ne_nil (by simp [tokenEntry]) rfl) ?_ ?_
  · rw [tokenEntry_text]
    exact h.source_at.bump
  · exact (Source.bump_text _).trans h.text_eq
  · intro _
    have hstart : (m.source.ahead 0).start = _ := h.source_at.front.2.2.1
    rw [tokenEntry_text, Lexeme.content, Text.size_append]
    simp only [tokenEntry, hstart, Element.textAll_cons, Element.text_token, Element.textAll_nil,
      List.append_nil]
    exact Nat.le_of_eq (Nat.add_assoc _ _ _)
  · intro x hx
    rcases List.mem_append.1 hx with hx | hx
    · exact all_covered_newTokens _ _ x hx
    · obtain rfl := List.mem_singleton.1 hx
      exact Element.all_covered_token _ _ _

theorem Faithful.shiftMissing (h : m.Faithful text) (kind : Kind) (next : Nat) :
    (m.shiftMissing kind next).Faithful text := by
  have htext : (m.missingEntry kind next).text = [] := by simp [Entry.text, missingEntry]
  rw [shiftMissing_eq]
  refine h.push rfl ?_ ?_ (Entry.formed_of_elements_ne_nil (by simp [missingEntry]) rfl) ?_ ?_
  · rw [htext, List.append_nil]
    exact h.source_at.peek 0
  · rw [← h.text_eq, Source.peek_snd]
    exact Source.fetchMany_text _ _
  · intro herror
    cases herror
  · intro x hx
    obtain rfl := List.mem_singleton.1 hx
    refine Element.all_node.2 ⟨Element.covered_of_origin_eq_none rfl, ?_⟩
    intro x hx
    obtain rfl := List.mem_singleton.1 hx
    exact Element.all_covered_token _ _ _

theorem Faithful.shift (h : m.Faithful text) (kind : Kind) (next : Nat) :
    (m.shift kind next).Faithful text := by
  unfold Machine.shift
  split
  · exact h.shiftMissing kind next
  · exact h.shiftToken kind next

/-! ## Taking over -/

theorem Faithful.takeOver {state : Nat} (h : m.Faithful text) (hsetting : setting.Truthful text)
    (htaken : m.takeOver? setting state = some m') : m'.Faithful text := by
  obtain ⟨reuse, old, next, hreuse, hfind, -, rfl⟩ := takeOver?_spec htaken
  obtain ⟨hcovered, hplace⟩ := hsetting reuse hreuse state _ old hfind
  have hat := h.source_at.peek 0
  have hfront := h.source_at.front
  have hstart : (m.source.ahead 0).start = _ := hfront.2.2.1
  -- The text in front of the token is what the stack spells and the trivia in between.
  generalize hbefore : Stack.text m.stack ++ Lexeme.spell (m.source.ahead 0).leading = before
  have hsize : Text.size before = (m.source.ahead 0).start := by
    rw [hstart, ← hbefore, Text.size_append]
    rfl
  obtain ⟨rest, hrest⟩ : ∃ rest, text = before ++ old.text ++ rest := by
    have htext := hat.text_eq
    rw [Source.pending, Source.buffer_peek_zero, Lexeme.contents_cons, Lexeme.content,
      Source.peek_snd, Source.fetchMany_text, h.text_eq] at htext
    obtain ⟨rest, hrest⟩ := hplace before _ (by
      rw [htext, ← hbefore]
      simp only [List.append_assoc]
      rfl) hsize
    exact ⟨rest, by rw [List.append_assoc, ← hrest, htext, ← hbefore]; simp [Source.ahead]⟩
  have hentry : Stack.text m.stack ++ (m.oldEntry old next).text = before ++ old.text := by
    simp [Entry.text, oldEntry, textAll_newTokens, ← hbefore]
  refine h.push rfl ?_ ?_ (Entry.formed_of_elements_ne_nil (by simp [oldEntry]) rfl) ?_ ?_
  · rw [hentry, ← hsize, ← old.size_text, ← Text.size_append]
    exact (hat.bump.reset (by
      rw [Source.bump_text, Source.peek_snd, Source.fetchMany_text, h.text_eq, hrest])).markExamined _
  · rw [← h.text_eq]
    simp [Source.markExamined, Source.reset, Source.peek_snd]
  · intro _
    rw [← Text.size_append, hentry, Text.size_append, hsize]
    simp [oldEntry]
  · intro x hx
    rcases List.mem_append.1 hx with hx | hx
    · exact all_covered_newTokens _ _ x hx
    · obtain rfl := List.mem_singleton.1 hx
      exact hcovered

/-! ## Reducing -/

theorem foldl_clean_extras {extras : Stack} (h : ∀ e ∈ extras, e.hasError = true) :
    extras.foldl Stack.clean 0 = 0 := by
  induction extras with
  | nil => rfl
  | cons e extras ih =>
    rw [List.foldl_cons, Stack.clean, if_pos (h e List.mem_cons_self)]
    exact ih fun e he => h e (List.mem_cons_of_mem _ he)

theorem Faithful.clean_extras {extras below : Stack} (h : m.Faithful text)
    (hstack : m.stack = extras ++ below) (hextras : ∀ e ∈ extras, e.extra = true) :
    Stack.Clean (Text.size (Stack.text m.stack)) 0 extras ∧
      Stack.Clean (Text.size (Stack.text m.stack)) 0 below := by
  have hclean := h.clean
  rwa [hstack, Stack.clean_append_iff, foldl_clean_extras fun e he =>
    (h.formed e (by simp [hstack, he])).hasError (hextras e he), ← hstack] at hclean

/-- The machine after some entries were replaced by one that spells the same, under extra entries
that only change their state. -/
theorem Faithful.replace {extras children below : Stack} {entry : Entry} {next : Nat}
    (h : m.Faithful text) (hstack : m.stack = extras ++ (children ++ below))
    (hextras : ∀ e ∈ extras, e.extra = true)
    (hsource : m'.source = (m.source.peek 0).2)
    (hstack' : m'.stack = (extras.map fun e => { e with state := next }) ++ entry :: below)
    (htext : entry.text = Stack.text children) (hformed : entry.Formed)
    (hclean : Stack.Clean (Text.size (Stack.text m.stack)) 0 (entry :: below))
    (hcovered : ∀ x ∈ entry.leading ++ entry.elements, x.All Element.Covered) :
    m'.Faithful text := by
  have hextraText : Stack.text (extras.map fun e => { e with state := next }) =
      Stack.text extras := by
    clear hstack hextras hstack'
    induction extras with
    | nil => rfl
    | cons e extras ih => simp [ih, Entry.text]
  have hsame : Stack.text m'.stack = Stack.text m.stack := by
    rw [hstack', hstack]
    simp [hextraText, htext]
  have hmem : ∀ e ∈ m'.stack, (∃ old ∈ m.stack, e = { old with state := e.state }) ∨ e = entry := by
    intro e he
    rw [hstack'] at he
    rcases mem_reduced he with ⟨old, hold, heq⟩ | rfl
    · refine Or.inl ⟨old, ?_, heq⟩
      rw [hstack]
      rcases List.mem_append.1 hold with hold | hold <;> simp [hold]
    · exact Or.inr rfl
  have hcleanExtras (a : Nat) (stack : Stack) (p : Nat) :
      Stack.Clean p a ((extras.map fun e => { e with state := next }) ++ stack) ↔
        Stack.Clean p a (extras ++ stack) := by
    clear hstack hextras hstack' hextraText
    induction extras generalizing a with
    | nil => rfl
    | cons e extras ih => simp [Stack.Clean, Stack.clean, Entry.text, ih]
  refine ⟨?_, ?_, ?_, ?_, ?_⟩
  · rw [hsame, hsource]
    exact h.source_at.peek 0
  · rw [hsource, Source.peek_snd, Source.fetchMany_text]
    exact h.text_eq
  · intro e he
    rcases hmem e he with ⟨e', he', heq⟩ | rfl
    · obtain ⟨hleading, hasError, herror⟩ := h.formed e' he'
      rw [heq]
      exact ⟨hleading, hasError, herror⟩
    · exact hformed
  · rw [hsame, hstack', hcleanExtras, Stack.clean_append_iff, foldl_clean_extras fun e he =>
      (h.formed e (by simp [hstack, he])).hasError (hextras e he)]
    exact ⟨(h.clean_extras hstack hextras).1, hclean⟩
  · intro e he x hx
    rcases hmem e he with ⟨e', he', heq⟩ | rfl
    · rw [heq] at hx
      exact h.covered e' he' x hx
    · exact hcovered x hx

/-- A new node has looked at the whole of the current token, which comes after it. -/
theorem Faithful.covered_node (h : m.Faithful text) {entry : Entry} (base id : Nat) (kind : Kind)
    (hclean : entry.hasError = false →
      entry.start + Text.size (textAll entry.elements) ≤ Text.size (Stack.text m.stack)) :
    (Element.node id kind (some (m.originOf base entry)) entry.elements).Covered := by
  intro origin horigin hreusable
  obtain rfl : m.originOf base entry = origin := by simpa [Element.origin?] using horigin
  simp only [originOf, Bool.and_eq_true, Bool.not_eq_true'] at hreusable
  have hstart := hclean hreusable.1
  obtain ⟨-, -, hfront, -, hexamined⟩ := h.source_at.front
  simp only [Lexeme.stop, hfront] at hexamined
  rw [← Element.size_text, Element.text_node]
  simp only [originOf]
  omega

theorem Faithful.reduce {production : Nat} (h : m.Faithful text)
    (hreduced : m.reduce? setting production = some m') : m'.Faithful text := by
  obtain ⟨p, extras, children, below, next, entry, nextId, -, hstack, hextras, -, -, -, -, hmakes,
    rfl⟩ := reduce?_spec hreduced
  have hchildren : ∀ e ∈ children, e ∈ m.stack := fun e he => by simp [hstack, he]
  generalize hjoined : m.joinedEntry next children = joined at hmakes
  have htext : joined.text = Stack.text children.reverse := by
    rw [← hjoined, ← Entry.ofChildren_text next children m.position]
    rfl
  have hcovered : ∀ x ∈ joined.leading ++ joined.elements, x.All Element.Covered := by
    intro x hx
    rw [← hjoined] at hx
    obtain ⟨child, hchild, hx⟩ := Entry.mem_ofChildren hx
    exact h.covered child (hchildren child hchild) x hx
  have hextra : joined.extra = false := by simp [← hjoined, joinedEntry]
  have hclean : Stack.Clean (Text.size (Stack.text m.stack)) 0 (joined :: below) :=
    hjoined ▸ (h.clean_extras hstack hextras).2.ofChildren next m.position
  cases hmakes with
  | hidden hkind =>
    refine h.replace hstack hextras rfl rfl htext ?_ hclean hcovered
    refine ⟨?_, by simp [hextra], by simp [hextra]⟩
    rw [← hjoined]
    exact Entry.ofChildren_leading_eq_nil fun e he => h.formed e (hchildren e he)
  | visible hkind =>
    -- A node without elements starts at the current token.
    have hstart (herror : joined.hasError = false) :
        joined.start + Text.size (textAll joined.elements) ≤ Text.size (Stack.text m.stack) := by
      by_cases hnil : joined.elements = []
      · have : joined.start = m.position := by
          rw [← hjoined] at hnil ⊢
          exact Entry.ofChildren_start hnil
        rw [this, hnil, h.position_eq]
        simp
      · exact hclean.1 herror hnil
    refine h.replace hstack hextras rfl rfl ?_
      (Entry.formed_of_elements_ne_nil (by simp) hextra) ?_ ?_
    · simpa [Entry.text] using htext
    · refine ⟨fun herror _ => ?_, ?_⟩
      · simpa using hstart herror
      · simpa [Stack.clean, Entry.text] using hclean.2
    · intro x hx
      rcases List.mem_append.1 hx with hx | hx
      · exact hcovered x (List.mem_append_left _ hx)
      · obtain rfl := List.mem_singleton.1 hx
        refine Element.all_node.2 ⟨h.covered_node _ _ _ hstart, fun x hx => ?_⟩
        exact hcovered x (List.mem_append_right _ hx)

/-! ## Repairing -/

theorem Leaves.text_eq {stack stack' : Stack} {d : Nat} {t : List Char}
    (h : Leaves stack d t stack') : Stack.text stack' = Stack.text stack ++ t := by
  have hsplit : Stack.text stack = Stack.text (stack.drop d) ++ Stack.text (stack.take d) := by
    rw [← Stack.text_append, List.take_append_drop]
  rw [hsplit, List.append_assoc]
  cases h with
  | nothing htext => rw [htext, List.append_nil]
  | error _ _ _ _ htext _ _ => rw [Stack.text_cons, htext]

theorem Faithful.skip (h : m.Faithful text) (skipped depth : Nat) :
    (m.skip skipped depth).Faithful text := by
  obtain ⟨d, t, hskips⟩ := skip_skips h.source_at h.formed skipped depth
  have hstack := hskips.stack
  have htext := hstack.text_eq
  have hkept : Stack.Clean (Text.size (Stack.text m.stack ++ t)) 0 (m.stack.drop d) := by
    have hold : Stack.Clean (Text.size (Stack.text m.stack)) 0
        (m.stack.take d ++ m.stack.drop d) := by
      rw [List.take_append_drop]
      exact h.clean
    exact (Stack.clean_append_iff.1 hold).2.weaken (by simp) (by simp; omega)
  have hcovered {x : Element} (hx : (∃ e ∈ m.stack, x ∈ e.leading ++ e.elements) ∨
      ∃ id kind text, x = .token id kind text) : x.All Element.Covered := by
    rcases hx with ⟨e, he, hx⟩ | ⟨id, kind, text, rfl⟩
    · exact h.covered e he x hx
    · exact Element.all_covered_token id kind text
  refine ⟨?_, hskips.source_text.trans h.text_eq, ?_, ?_, ?_⟩
  · rw [htext]
    exact hskips.source_at _ h.source_at
  · generalize (m.skip skipped depth).stack = stack' at hstack
    cases hstack with
    | nothing => exact fun e he => h.formed e (List.mem_of_mem_drop he)
    | error helements hextra herror =>
      refine List.forall_mem_cons.2 ⟨?_, fun e he => h.formed e (List.mem_of_mem_drop he)⟩
      exact ⟨by simp [helements], fun _ => herror, fun _ => ⟨_, _, helements⟩⟩
  · rw [htext]
    generalize (m.skip skipped depth).stack = stack' at hstack
    cases hstack with
    | nothing => exact hkept
    | error _ _ herror =>
      refine ⟨by simp [herror], ?_⟩
      rw [Stack.clean, if_pos herror]
      exact hkept
  · generalize (m.skip skipped depth).stack = stack' at hstack
    cases hstack with
    | nothing => exact fun e he => h.covered e (List.mem_of_mem_drop he)
    | error helements _ _ _ _ _ hskipped =>
      refine List.forall_mem_cons.2 ⟨fun x hx => ?_,
        fun e he => h.covered e (List.mem_of_mem_drop he)⟩
      rw [helements] at hx
      rcases List.mem_append.1 hx with hx | hx
      · exact hcovered (hskipped x (List.mem_append_left _ hx))
      · obtain rfl := List.mem_singleton.1 hx
        refine Element.all_node.2 ⟨Element.covered_of_origin_eq_none rfl, fun x hx => ?_⟩
        exact hcovered (hskipped x (List.mem_append_right _ hx))

theorem Faithful.recover (h : m.Faithful text) (hrecover : m.recover? setting = some m') :
    m'.Faithful text := by
  have hrepaired := recover?_repaired setting m
  rw [hrecover] at hrepaired
  cases hrepaired with
  | inserted => exact (h.looked _).congr rfl rfl
  | skipped =>
    refine Faithful.congr (Faithful.skip ?_ _ _) rfl rfl
    exact (h.looked _).congr rfl rfl

/-! ## Whole runs -/

/-- A step keeps the account. -/
theorem Faithful.step (h : m.Faithful text) (hsetting : setting.Truthful text) :
    (m.step setting).machine.Faithful text := by
  refine step_keeps (J := Faithful text) (fun n _ => (h.looked n).congr rfl rfl) (fun _ h => h) ?_
  intro m next h heffect
  cases heffect with
  | split => exact ⟨h.source_at.splitShift, by simpa using h.text_eq, h.formed, h.clean, h.covered⟩
  | shift => exact h.shift _ _
  | takeOver _ htaken => exact h.takeOver hsetting htaken
  | reduce _ hreduced => exact h.reduce hreduced
  | repair hrecover => exact h.recover hrecover

theorem Faithful.run (h : m.Faithful text) (hsetting : setting.Truthful text) (fuel : Nat) :
    (m.run setting fuel).Faithful text :=
  run_induction (fun _ h => h.step hsetting) fuel h

/-! ## The root -/

/-- Reading what is left changes the source and the next number only. -/
theorem leftOver_frame (fuel : Nat) (m : Machine) :
    (leftOver fuel m).2 = { m with
      source := (leftOver fuel m).2.source
      nextId := (leftOver fuel m).2.nextId } := by
  induction fuel generalizing m with
  | zero => rfl
  | succ fuel ih =>
    simp only [leftOver]
    split
    · rfl
    · dsimp only
      rw [ih]
      rfl

/-- Reading what is left gets to the end of the input. -/
theorem leftOver_spec {done : List Char} (fuel : Nat) (m : Machine) (h : m.source.At done)
    (hfuel : Text.size m.source.text < Text.size done + fuel) :
    (leftOver fuel m).2.source.At (done ++ textAll (leftOver fuel m).1) ∧
      (leftOver fuel m).2.source.text = m.source.text ∧
      ((leftOver fuel m).2.source.ahead 0).kind = .eof ∧
      ((m.source.ahead 0).kind = .eof → (leftOver fuel m).1 = []) ∧
      ∀ x ∈ (leftOver fuel m).1, ∃ id kind text, x = .token id kind text := by
  induction fuel generalizing m done with
  | zero =>
    rw [h.text_eq, Text.size_append] at hfuel
    omega
  | succ fuel ih =>
    simp only [leftOver, peek_eq]
    generalize 0 + 1 - m.source.buffer.length = n
    have hlook : (m.looked n).source.At done := h.fetchMany n
    have htext : (m.looked n).source.text = m.source.text := Source.fetchMany_text _ _
    split
    · rename_i heof
      refine ⟨by simpa using hlook, htext, ?_, fun _ => rfl, by simp⟩
      simpa only [looked, Source.ahead_fetchMany] using heof
    · rename_i hne
      have hbump : (m.looked n).source.bump.1 = m.source.ahead 0 := Source.ahead_fetchMany _ _ _
      have hsound : (m.source.ahead 0).Sound := h.front.1
      have hpos : 0 < Text.size (m.source.ahead 0).text := by
        rcases htext : (m.source.ahead 0).text with - | ⟨c, cs⟩
        · exact absurd (hsound.text_eq_nil_iff.1 htext) hne
        · have := c.utf8Size_pos
          simp only [Text.size_cons]
          omega
      have hat := hlook.bump
      rw [hbump] at hat
      obtain ⟨hat', htext', heof, -, htokens⟩ := ih
        ((m.looked n).bump.2.newTokens (m.looked n).bump.1.leaves).2 hat (by
          change Text.size (m.looked n).source.bump.2.text < _
          rw [Source.bump_text, htext, Text.size_append, Lexeme.content, Text.size_append]
          omega)
      have hleaves : textAll ((m.looked n).bump.2.newTokens (m.looked n).bump.1.leaves).1 =
          (m.source.ahead 0).content := by
        rw [textAll_newTokens, Lexeme.spell_leaves]
        exact congrArg _ hbump
      refine ⟨?_, ?_, heof, fun h => absurd h hne, ?_⟩
      · simp only [Element.textAll_append, hleaves, ← List.append_assoc]
        exact hat'
      · rw [htext', ← htext]
        exact Source.bump_text _
      · intro x hx
        rcases List.mem_append.1 hx with hx | hx
        · obtain ⟨i, hi, rfl⟩ := List.mem_mapIdx.1 hx
          exact ⟨_, _, _, rfl⟩
        · exact htokens x hx

/-- The root holds what is on the stack, what is left of the input as an error, and the trivia at
the end. -/
theorem finish_spec {done : List Char} (h : m.source.At done) (text : List Char) :
    ∃ id rest errors trivia,
      (m.finish text).root = .node id .sourceFile none (elements m.stack ++ errors ++ trivia) ∧
      (m.finish text).diagnostics = m.diagnostics ∧
      ((rest = [] ∧ errors = []) ∨ ∃ id, errors = [.node id .error none rest]) ∧
      m.source.text = done ++ textAll rest ++ textAll trivia ∧
      ((m.source.ahead 0).kind = .eof → errors = []) ∧
      (∀ x ∈ rest, ∃ id kind text, x = .token id kind text) ∧
      ∀ x ∈ trivia, ∃ id kind text, x = .token id kind text ∧ kind.isTrivia = true := by
  obtain ⟨hat, htext, heof, hnone, htokens⟩ := leftOver_spec (m.source.size + 1) m h (by
    rw [h.size_eq]
    omega)
  have hframe := leftOver_frame (m.source.size + 1) m
  simp only [finish]
  generalize leftOver (m.source.size + 1) m = left at *
  obtain ⟨rest, m'⟩ := left
  simp only at *
  -- Only trivia are left in front of the end.
  have hsound := hat.front.1
  have hend : m.source.text = done ++ textAll rest ++ Lexeme.spell (m'.source.ahead 0).leading := by
    have hnil : (m'.source.ahead 0).text = [] := hsound.text_eq_nil_iff.2 heof
    have hlast := hat.bump.text_eq
    have hpending : m'.source.bump.2.pending = [] := hat.front.2.2.2.1 heof
    rw [hpending, List.append_nil, Source.bump_text, htext, Source.bump_fst, Lexeme.content] at hlast
    rw [hlast, ← Source.ahead, hnil, List.append_nil]
  have htrivia (m₁ : Machine) : ∀ x ∈ (m₁.newTokens (m'.source.ahead 0).leading).1,
      ∃ id kind text, x = .token id kind text ∧ kind.isTrivia = true := by
    intro x hx
    obtain ⟨i, hi, rfl⟩ := List.mem_mapIdx.1 hx
    exact ⟨_, _, _, rfl, hsound.trivia _ (List.getElem_mem hi)⟩
  generalize hpair : (if rest.isEmpty = true then ([], m') else
    ([(m'.newNode .error none rest).1], (m'.newNode .error none rest).2)) = pair
  obtain ⟨errors, m₁⟩ := pair
  obtain ⟨hsource, hdiagnostics, herrors, hclean⟩ : m₁.source = m'.source ∧
      m₁.diagnostics = m.diagnostics ∧
      ((rest = [] ∧ errors = []) ∨ ∃ id, errors = [.node id .error none rest]) ∧
      (rest = [] → errors = []) := by
    split at hpair
    · rename_i hrest
      cases hpair
      exact ⟨rfl, by rw [hframe], Or.inl ⟨List.isEmpty_iff.1 hrest, rfl⟩, fun _ => rfl⟩
    · rename_i hrest
      cases hpair
      refine ⟨rfl, by rw [hframe]; rfl, Or.inr ⟨_, rfl⟩, fun hnil => ?_⟩
      exact absurd (List.isEmpty_iff.2 hnil) hrest
  have hbump : m₁.bump.1 = m'.source.ahead 0 := by
    rw [← hsource]
    rfl
  refine ⟨_, rest, errors, _, rfl, hdiagnostics, herrors, ?_, fun heof => hclean (hnone heof),
    htokens, ?_⟩
  · rw [hend, textAll_newTokens, hbump]
  · rw [hbump]
    exact htrivia _

/-- What holds of tokens, of everything on the stack and of errors holds of everything below the root. -/
theorem all_below_finish {P : Element → Prop} {done : List Char} (hat : m.source.At done)
    (text : List Char) (hstack : ∀ e ∈ m.stack, ∀ x ∈ e.leading ++ e.elements, x.All P)
    (htoken : ∀ id kind text, P (.token id kind text))
    (herror : ∀ id children, P (.node id .error none children)) :
    ∃ id children, (m.finish text).root = .node id .sourceFile none children ∧
      ∀ x ∈ children, x.All P := by
  obtain ⟨id, rest, errors, trivia, hroot, -, herrors, -, -, hrest, htrivia⟩ := finish_spec hat text
  refine ⟨id, _, hroot, fun x hx => ?_⟩
  simp only [List.mem_append] at hx
  rcases hx with (hx | hx) | hx
  · simp only [elements, List.mem_flatMap, List.mem_reverse] at hx
    obtain ⟨e, he, hx⟩ := hx
    exact hstack e he x hx
  · rcases herrors with ⟨-, rfl⟩ | ⟨id, rfl⟩
    · cases hx
    · obtain rfl := List.mem_singleton.1 hx
      refine Element.all_node.2 ⟨herror _ _, fun x hx => ?_⟩
      obtain ⟨id, kind, text, rfl⟩ := hrest x hx
      exact htoken id kind text
  · obtain ⟨id, kind, text, rfl, -⟩ := htrivia x hx
    exact htoken id kind text

/-- The tree spells the text, and can be relied upon later. -/
theorem Faithful.finish (h : m.Faithful text) :
    (m.finish text).root.text = text ∧ (m.finish text).root.All Element.Covered := by
  constructor
  · obtain ⟨id, rest, errors, trivia, hroot, -, herrors, htext, -⟩ := finish_spec h.source_at text
    have hsame : textAll errors = textAll rest := by
      rcases herrors with ⟨rfl, rfl⟩ | ⟨id, rfl⟩
      · rfl
      · simp
    rw [h.text_eq] at htext
    rw [hroot]
    simp only [Element.text_node, Element.textAll_append, hsame]
    exact htext.symm
  · obtain ⟨id, children, hroot, hchildren⟩ := all_below_finish h.source_at text h.covered
      Element.all_covered_token fun _ _ => Element.covered_of_origin_eq_none rfl
    rw [hroot]
    exact Element.all_node.2 ⟨Element.covered_of_origin_eq_none rfl, hchildren⟩

end Machine
end SqlTree
