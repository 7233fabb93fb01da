import SqlTree.Proofs.Diagnostics
import SqlTree.Proofs.Origins

/-!
# Numbers of elements

A parse numbers the elements that it makes upwards from a first number, and an element that it takes
over keeps its number, which is below the first. So the numbers tell what is new and what is old: the
new elements have numbers of their own, and the outermost old ones are those that were taken over.

- `Element.ids`      : the numbers in an element
- `Element.keptAt`   : the outermost old elements, with their offsets
- `Element.newIds`   : the numbers of the elements that are not part of an old one
- `Element.Mixed`    : elements put together from new ones and old ones
- `Machine.Mixed.step` : the stack of a machine stays so
- `Tree.mixed_parseWith` : so the tree is put together from new elements and what was taken over
-/

namespace SqlTree
namespace Element

mutual

/-- The numbers of an element and of all below it. -/
def ids : Element → List Nat
  | token id _ _ => [id]
  | node id _ _ children => id :: idsAll children

def idsAll : List Element → List Nat
  | [] => []
  | e :: rest => e.ids ++ idsAll rest

end

mutual

/-- The outermost elements with numbers below `bound` in an element at byte `start`, with their
offsets. -/
def keptAt (bound : Nat) : Element → Nat → List (Nat × Element)
  | token id kind text, start => if id < bound then [(start, token id kind text)] else []
  | node id kind origin children, start =>
    if id < bound then [(start, node id kind origin children)] else keptAllAt bound children start

def keptAllAt (bound : Nat) : List Element → Nat → List (Nat × Element)
  | [], _ => []
  | e :: rest, start => e.keptAt bound start ++ keptAllAt bound rest (start + e.size)

end

mutual

/-- The numbers of the elements that are not part of one with a number below `bound`. -/
def newIds (bound : Nat) : Element → List Nat
  | token id _ _ => if id < bound then [] else [id]
  | node id _ _ children => if id < bound then [] else id :: newIdsAll bound children

def newIdsAll (bound : Nat) : List Element → List Nat
  | [] => []
  | e :: rest => e.newIds bound ++ newIdsAll bound rest

end

variable {bound lo mid hi : Nat} {a b es : List Element} {e : Element}

@[simp]
theorem idsAll_append (a b : List Element) : idsAll (a ++ b) = idsAll a ++ idsAll b := by
  induction a with
  | nil => rfl
  | cons e a ih => simp [idsAll, ih]

@[simp]
theorem keptAllAt_append (a b : List Element) (start : Nat) : keptAllAt bound (a ++ b) start =
    keptAllAt bound a start ++ keptAllAt bound b (start + sizeAll a) := by
  induction a generalizing start with
  | nil => rfl
  | cons e a ih => simp [keptAllAt, ih, sizeAll, Nat.add_assoc]

@[simp]
theorem newIdsAll_append (a b : List Element) :
    newIdsAll bound (a ++ b) = newIdsAll bound a ++ newIdsAll bound b := by
  induction a with
  | nil => rfl
  | cons e a ih => simp [newIdsAll, ih]

/-- An old element is kept as a whole. -/
theorem keptAt_of_lt (h : e.id < bound) (start : Nat) : e.keptAt bound start = [(start, e)] := by
  cases e <;> exact if_pos h

theorem newIds_of_lt (h : e.id < bound) : e.newIds bound = [] := by
  cases e <;> exact if_pos h

theorem id_mem_ids (e : Element) : e.id ∈ e.ids := by
  cases e <;> exact List.mem_cons_self

mutual

/-- Among new elements nothing is kept. -/
theorem keptAt_of_forall_le (e : Element) (h : ∀ id ∈ e.ids, bound ≤ id) (start : Nat) :
    e.keptAt bound start = [] ∧ e.newIds bound = e.ids := by
  have hself := Nat.not_lt.2 (h _ e.id_mem_ids)
  cases e with
  | token id kind text => exact ⟨if_neg hself, if_neg hself⟩
  | node id kind origin children =>
    obtain ⟨hkept, hnew⟩ := keptAllAt_of_forall_le children
      (fun id hid => h id (List.mem_cons_of_mem _ hid)) start
    refine ⟨(if_neg hself).trans hkept, (if_neg hself).trans ?_⟩
    rw [hnew, ids]

theorem keptAllAt_of_forall_le (es : List Element) (h : ∀ id ∈ idsAll es, bound ≤ id) (start : Nat) :
    keptAllAt bound es start = [] ∧ newIdsAll bound es = idsAll es := by
  cases es with
  | nil => exact ⟨rfl, rfl⟩
  | cons e rest =>
    obtain ⟨hkept, hnew⟩ := keptAt_of_forall_le e (fun id hid => h id (List.mem_append_left _ hid)) start
    obtain ⟨hkept', hnew'⟩ := keptAllAt_of_forall_le rest
      (fun id hid => h id (List.mem_append_right _ hid)) (start + e.size)
    exact ⟨by rw [keptAllAt, hkept, hkept']; rfl, by rw [newIdsAll, hnew, hnew', idsAll]⟩

end

mutual

/-- The numbers are those of new elements and those in the elements that are kept. -/
theorem ids_perm (e : Element) (bound start : Nat) :
    e.ids.Perm (e.newIds bound ++ (e.keptAt bound start).flatMap fun p => p.2.ids) := by
  by_cases hlt : e.id < bound
  · rw [newIds_of_lt hlt, keptAt_of_lt hlt]
    simp
  · cases e with
    | token id kind text =>
      have hid : ¬ id < bound := hlt
      rw [newIds, keptAt, if_neg hid, if_neg hid]
      exact .refl _
    | node id kind origin children =>
      have hid : ¬ id < bound := hlt
      rw [newIds, keptAt, if_neg hid, if_neg hid]
      exact .cons id (idsAll_perm children bound start)

theorem idsAll_perm (es : List Element) (bound start : Nat) :
    (idsAll es).Perm
      (newIdsAll bound es ++ (keptAllAt bound es start).flatMap fun p => p.2.ids) := by
  cases es with
  | nil => exact .refl _
  | cons e rest =>
    have hboth := (ids_perm e bound start).append (idsAll_perm rest bound (start + e.size))
    rw [idsAll, newIdsAll, keptAllAt, List.flatMap_append]
    refine hboth.trans ?_
    simp only [List.append_assoc]
    exact .append_left _ (List.perm_append_comm_assoc _ _ _)

end

/-! ## New elements -/

/-- Elements with different numbers, from `lo` on and below `hi`. -/
structure Numbered (lo hi : Nat) (es : List Element) : Prop where
  nodup : (idsAll es).Nodup
  bounds : ∀ id ∈ idsAll es, lo ≤ id ∧ id < hi

theorem numbered_nil (lo : Nat) : Numbered lo lo [] := ⟨.nil, by simp [idsAll]⟩

theorem numbered_token (id : Nat) (kind : Kind) (text : List Char) :
    Numbered id (id + 1) [token id kind text] :=
  ⟨by simp [idsAll, ids], by simp [idsAll, ids]⟩

/-- Elements may be followed by later ones. -/
theorem Numbered.append (ha : Numbered lo mid a) (hb : Numbered mid hi b) (hlo : lo ≤ mid)
    (hhi : mid ≤ hi) : Numbered lo hi (a ++ b) where
  nodup := by
    rw [idsAll_append]
    refine List.Nodup.append ha.nodup hb.nodup fun id hleft hright => ?_
    have := ha.bounds id hleft
    have := hb.bounds id hright
    omega
  bounds id hid := by
    rw [idsAll_append] at hid
    rcases List.mem_append.1 hid with hid | hid
    · have := ha.bounds id hid
      omega
    · have := hb.bounds id hid
      omega

/-- A node comes after its children. -/
theorem Numbered.node (h : Numbered lo hi es) (hle : lo ≤ hi) (kind : Kind) (origin : Option Origin) :
    Numbered lo (hi + 1) [node hi kind origin es] where
  nodup := by
    simp only [idsAll, ids, List.append_nil, List.nodup_cons]
    exact ⟨fun hmem => Nat.lt_irrefl _ (h.bounds hi hmem).2, h.nodup⟩
  bounds id hid := by
    simp only [idsAll, ids, List.append_nil, List.mem_cons] at hid
    rcases hid with rfl | hid
    · omega
    · have := h.bounds id hid
      omega

/-! ## New elements and old ones -/

/-- The elements are put together from new ones, with numbers from `bound` on and below `next`, and
from `count` old ones about which `Known` says what is known at their offsets. -/
structure Mixed (bound : Nat) (Known : Nat → Element → Prop) (es : List Element) (next count : Nat) :
    Prop where
  le_next : bound ≤ next
  length_kept : (keptAllAt bound es 0).length = count
  known : ∀ p ∈ keptAllAt bound es 0, Known p.1 p.2
  nodup : (newIdsAll bound es).Nodup
  lt_next : ∀ id ∈ newIdsAll bound es, id < next

variable {Known : Nat → Element → Prop} {next count : Nat}

theorem mixed_nil (next : Nat) : Mixed next Known [] next 0 :=
  ⟨Nat.le_refl _, rfl, by simp [keptAllAt], .nil, by simp [newIdsAll]⟩

/-- New elements may follow. -/
theorem Mixed.append (h : Mixed bound Known a next count) (hb : Numbered next hi b)
    (hle : next ≤ hi) : Mixed bound Known (a ++ b) hi count := by
  have hbound : ∀ id ∈ idsAll b, bound ≤ id := fun id hid =>
    Nat.le_trans h.le_next (hb.bounds id hid).1
  have hkept : keptAllAt bound (a ++ b) 0 = keptAllAt bound a 0 := by
    rw [keptAllAt_append, (keptAllAt_of_forall_le b hbound _).1, List.append_nil]
  have hnew : newIdsAll bound (a ++ b) = newIdsAll bound a ++ idsAll b := by
    rw [newIdsAll_append, (keptAllAt_of_forall_le b hbound 0).2]
  refine ⟨Nat.le_trans h.le_next hle, hkept ▸ h.length_kept, hkept ▸ h.known, ?_, fun id hid => ?_⟩
  · rw [hnew]
    refine List.Nodup.append h.nodup hb.nodup fun id hleft hright => ?_
    exact Nat.not_lt.2 (hb.bounds id hright).1 (h.lt_next id hleft)
  · rw [hnew] at hid
    rcases List.mem_append.1 hid with hid | hid
    · exact Nat.lt_of_lt_of_le (h.lt_next id hid) hle
    · exact (hb.bounds id hid).2

/-- An old element may follow. -/
theorem Mixed.keep (h : Mixed bound Known a next count) (hold : e.id < bound)
    (hknown : Known (sizeAll a) e) : Mixed bound Known (a ++ [e]) next (count + 1) := by
  have hkept : keptAllAt bound (a ++ [e]) 0 = keptAllAt bound a 0 ++ [(sizeAll a, e)] := by
    simp [keptAllAt, keptAt_of_lt hold]
  have hnew : newIdsAll bound (a ++ [e]) = newIdsAll bound a := by
    simp [newIdsAll, newIds_of_lt hold]
  refine ⟨h.le_next, ?_, fun p hp => ?_, hnew ▸ h.nodup, hnew ▸ h.lt_next⟩
  · rw [hkept, List.length_append, h.length_kept]
    rfl
  · rw [hkept] at hp
    rcases List.mem_append.1 hp with hp | hp
    · exact h.known p hp
    · obtain rfl := List.mem_singleton.1 hp
      exact hknown

/-- Some of the elements may become the children of a new one. -/
theorem Mixed.wrap {cs : List Element} (h : Mixed bound Known (a ++ cs ++ b) next count) (kind : Kind)
    (origin : Option Origin) :
    Mixed bound Known (a ++ [node next kind origin cs] ++ b) (next + 1) count := by
  have hnot := Nat.not_lt.2 h.le_next
  have hkept : keptAllAt bound (a ++ [node next kind origin cs] ++ b) 0 =
      keptAllAt bound (a ++ cs ++ b) 0 := by
    simp [keptAllAt, keptAt, hnot, size]
  have hnew : (newIdsAll bound (a ++ [node next kind origin cs] ++ b)).Perm
      (next :: newIdsAll bound (a ++ cs ++ b)) := by
    simp only [newIdsAll_append, newIdsAll, newIds, if_neg hnot, List.append_assoc,
      List.cons_append]
    exact List.perm_middle
  refine ⟨Nat.le_succ_of_le h.le_next, hkept ▸ h.length_kept, hkept ▸ h.known, ?_, fun id hid => ?_⟩
  · refine hnew.nodup_iff.2 (List.nodup_cons.2 ⟨fun hmem => ?_, h.nodup⟩)
    exact Nat.lt_irrefl _ (h.lt_next next hmem)
  · rcases List.mem_cons.1 (hnew.mem_iff.1 hid) with rfl | hid
    · exact Nat.lt_succ_self _
    · exact Nat.lt_succ_of_lt (h.lt_next id hid)

end Element

open Element (Mixed Numbered sizeAll)

/-- Old nodes that may be taken over have numbers below `bound`, and something is known about them
where they are put. -/
def Setting.Offers (setting : Setting) (bound : Nat) (Known : Nat → Element → Prop) : Prop :=
  ∀ reuse ∈ setting.reuse, ∀ state offset old,
    reuse.find? setting.table state offset = some old → old.id < bound ∧ Known offset old

namespace Machine

variable {text : List Char} {m m' : Machine} {setting : Setting} {bound : Nat}
  {Known : Nat → Element → Prop}

/-- What is on the stack is put together from new elements and from those taken over. -/
def Mixed (bound : Nat) (Known : Nat → Element → Prop) (m : Machine) : Prop :=
  Element.Mixed bound Known (elements m.stack) m.nextId m.reused

theorem Mixed.start (text : List Char) (firstId : Nat) :
    (Machine.start text firstId).Mixed firstId Known := Element.mixed_nil firstId

/-! ## Shifting and taking over -/

theorem numbered_newTokens (m : Machine) (leaves : List Leaf) :
    Numbered m.nextId (m.nextId + leaves.length) (m.newTokens leaves).1 := by
  have hids (n : Nat) : Element.idsAll (leaves.mapIdx fun i leaf => .token (n + i) leaf.1 leaf.2) =
      List.range' n leaves.length := by
    induction leaves generalizing n with
    | nil => rfl
    | cons leaf leaves ih =>
      have hnext := ih (n + 1)
      simp only [Nat.add_right_comm n 1] at hnext
      simp [Element.idsAll, Element.ids, List.range'_succ, ← Nat.add_assoc, hnext]
  refine ⟨?_, fun id hid => ?_⟩
  · rw [newTokens, hids]
    exact List.nodup_range'
  · rw [newTokens, hids] at hid
    simpa [List.mem_range'_1] using hid

/-- A lexeme becomes new tokens. -/
theorem numbered_leaves (m : Machine) (leaves : List Leaf) (kind : Kind) (text : List Char) :
    Numbered m.nextId (m.nextId + leaves.length + 1)
      ((m.newTokens leaves).1 ++ [.token (m.nextId + leaves.length) kind text]) :=
  (m.numbered_newTokens leaves).append (Element.numbered_token _ kind text) (Nat.le_add_right _ _)
    (Nat.le_succ _)

theorem Mixed.shift (h : m.Mixed bound Known) (kind : Kind) (next : Nat) :
    (m.shift kind next).Mixed bound Known := by
  unfold Machine.shift
  split
  · rw [shiftMissing_eq, Mixed, elements_cons]
    have htoken := Element.numbered_token m.nextId kind []
    exact h.append (htoken.node (Nat.le_succ _) .missing none) (Nat.le_add_right _ 2)
  · rw [shiftToken_eq, Mixed, elements_cons]
    exact h.append (m.numbered_leaves _ kind _)
      (Nat.le_succ_of_le (Nat.le_add_right _ (m.source.ahead 0).leading.length))

theorem Mixed.takeOver {state : Nat} (h : m.Mixed bound Known) (hfaithful : m.Faithful text)
    (hsetting : setting.Offers bound Known) (htaken : m.takeOver? setting state = some m') :
    m'.Mixed bound Known := by
  obtain ⟨reuse, old, next, hreuse, hfind, -, rfl⟩ := takeOver?_spec htaken
  obtain ⟨hold, hknown⟩ := hsetting reuse hreuse _ _ old hfind
  have hleading := h.append (m.numbered_newTokens (m.source.ahead 0).leading) (Nat.le_add_right _ _)
  rw [hfaithful.start_eq, ← Element.sizeAll_append] at hknown
  have hkeep := hleading.keep hold hknown
  rw [List.append_assoc] at hkeep
  rw [Mixed, elements_cons]
  exact hkeep

/-! ## Reducing -/

/-- A reduction numbers the node that it makes. -/
theorem nextId_reduce? {production : Nat} {p : Production}
    (hp : setting.table.grammar.productions[production]? = some p)
    (h : m.reduce? setting production = some m') :
    m'.nextId = m.nextId + if (setting.table.grammar.visibleKind? p.lhs).isSome then 1 else 0 := by
  obtain ⟨q, hq, h⟩ := Option.bind_eq_some_iff.1 h
  obtain rfl := Option.some.inj (hp.symm.trans hq)
  obtain ⟨⟨children, below⟩, -, h⟩ := Option.bind_eq_some_iff.1 h
  obtain ⟨next, -, rfl⟩ := Option.map_eq_some_iff.1 h
  simp only [peek, wrap]
  split
  · rename_i hkind
    simp [hkind]
  · rename_i kind hkind
    simp [hkind, newNode]

theorem Mixed.reduce {production : Nat} (h : m.Mixed bound Known)
    (hreduced : m.reduce? setting production = some m') : m'.Mixed bound Known := by
  have hspec := reduce?_spec hreduced
  obtain ⟨p, extras, children, below, next, entry, nextId, hp, hstack, -, -, -, -, -, hmakes, heq⟩ :=
    hspec
  have hnext := nextId_reduce? hp hreduced
  subst heq
  simp only at hnext
  have hcontent : (m.joinedEntry next children).content = children.flatMap Entry.content :=
    Entry.ofChildren_content next children m.position
  have hold : elements m.stack = elements below ++ (m.joinedEntry next children).leading ++
      (m.joinedEntry next children).elements ++ elements extras := by
    rw [hstack, elements_append, elements_append, elements_reverse, ← hcontent, Entry.content,
      ← List.append_assoc (elements below)]
  have hnew : elements ((extras.map fun e => { e with state := next }) ++ entry :: below) =
      elements below ++ entry.leading ++ entry.elements ++ elements extras := by
    rw [elements_append, elements_cons, elements_map_state, Entry.content,
      ← List.append_assoc (elements below)]
  rw [Mixed, hold] at h
  rw [Mixed]
  simp only [hnew, hnext]
  cases hmakes with
  | hidden hkind =>
    rw [hkind]
    exact h
  | visible hkind =>
    rw [hkind]
    exact h.wrap _ _

/-! ## Skipping -/

/-- Lexemes that are moved into an entry become new tokens behind what it holds. -/
theorem numbered_skipInto (n : Nat) (e : Entry) (m : Machine) :
    ∃ more, (skipInto n e m).1.content = e.content ++ more ∧
      Numbered m.nextId (skipInto n e m).2.nextId more := by
  induction n generalizing e m with
  | zero => exact ⟨[], by simp [skipInto], Element.numbered_nil _⟩
  | succ n ih =>
    simp only [skipInto]
    generalize he' : (if e.elements.isEmpty = true then _ else _ : Entry) = e'
    have hcontent : e'.content = e.content ++ ((m.newTokens m.bump.1.leading).1 ++
        [.token (m.nextId + m.bump.1.leading.length) m.bump.1.kind m.bump.1.text]) := by
      rw [← he']
      by_cases hnil : e.elements = []
      · simp [Entry.content, hnil, newTokens, newToken, bump]
      · simp [Entry.content, hnil, newTokens, newToken, bump]
    obtain ⟨more, hmore, hnumbered⟩ := ih e' ((m.bump.2.newTokens m.bump.1.leading).2.newToken
      m.bump.1.kind m.bump.1.text).2
    rw [hcontent, List.append_assoc] at hmore
    refine ⟨_, hmore, ?_⟩
    exact (m.numbered_leaves m.bump.1.leading m.bump.1.kind m.bump.1.text).append hnumbered
      (by omega) (nextId_le_skipInto n e' ((m.bump.2.newTokens m.bump.1.leading).2.newToken
        m.bump.1.kind m.bump.1.text).2)

theorem Mixed.skip (h : m.Mixed bound Known) (hformed : ∀ e ∈ m.stack, e.Formed)
    (skipped depth : Nat) : (m.skip skipped depth).Mixed bound Known := by
  obtain ⟨d, -, hskip⟩ := skip_eq hformed skipped depth
  obtain ⟨more, hcontent, hnumbered⟩ := numbered_skipInto skipped (m.poppedEntry d)
    ({ m with stack := m.stack.drop d }.peek 0).2
  rw [poppedEntry_content] at hcontent
  have hframe : (m.gathered skipped d).2.stack = m.stack.drop d ∧
      (m.gathered skipped d).2.reused = m.reused := by
    rw [gathered, skipInto_frame]
    exact ⟨rfl, rfl⟩
  -- What is gathered stands behind what stays, and only then it becomes an error.
  have hall : Element.Mixed bound Known (elements (m.stack.drop d) ++
      (m.gathered skipped d).1.leading ++ (m.gathered skipped d).1.elements)
      (m.gathered skipped d).2.nextId m.reused := by
    have happend := h.append hnumbered (m.nextId_le_gathered skipped d)
    have hstack : elements m.stack =
        elements (m.stack.drop d) ++ elements (m.stack.take d) := by
      rw [← elements_append, List.take_append_drop]
    rw [hstack, List.append_assoc, ← hcontent] at happend
    rw [List.append_assoc]
    exact happend
  rcases hskip with ⟨hnil, hskip⟩ | ⟨-, hskip⟩
  · rw [hskip, Mixed, hframe.1, hframe.2]
    rwa [List.append_assoc, hnil, List.append_nil] at hall
  · have hwrap := Element.Mixed.wrap (b := []) (by rwa [List.append_nil]) .error none
    rw [List.append_nil, List.append_assoc] at hwrap
    rw [hskip, Mixed, elements_cons, hframe.1]
    simp only [hframe.2]
    exact hwrap

/-! ## Whole runs -/

/-- A step keeps the stack put together from new elements and those taken over. -/
theorem Mixed.step (h : m.Mixed bound Known) (hfaithful : m.Faithful text)
    (hsetting : setting.Offers bound Known) : (m.step setting).machine.Mixed bound Known := by
  refine step_keeps (J := fun m => m.Faithful text ∧ m.Mixed bound Known)
    (fun n _ => ⟨(hfaithful.looked n).congr rfl rfl, h⟩) (fun _ h => h.2) ?_
  rintro m next ⟨hfaithful, h⟩ heffect
  cases heffect with
  | split => exact h
  | shift => exact h.shift _ _
  | takeOver _ htaken => exact h.takeOver hfaithful hsetting htaken
  | reduce _ hreduced => exact h.reduce hreduced
  | repair hrecover =>
    have hrepaired := recover?_repaired setting m
    rw [hrecover] at hrepaired
    cases hrepaired with
    | inserted => exact h
    | @skipped n skipped depth repairs diagnostic =>
      have hlooked : Mixed bound Known { m.looked n with injected := none, repairs := repairs } := h
      exact hlooked.skip hfaithful.formed skipped depth

/-! ## The root -/

theorem numbered_leftOver (fuel : Nat) (m : Machine) :
    m.nextId ≤ (leftOver fuel m).2.nextId ∧
      Numbered m.nextId (leftOver fuel m).2.nextId (leftOver fuel m).1 := by
  induction fuel generalizing m with
  | zero => exact ⟨Nat.le_refl _, Element.numbered_nil _⟩
  | succ fuel ih =>
    simp only [leftOver]
    split
    · exact ⟨Nat.le_refl _, Element.numbered_nil _⟩
    · obtain ⟨hle, hnumbered⟩ := ih ((m.peek 0).2.bump.2.newTokens (m.peek 0).2.bump.1.leaves).2
      have hfirst := (m.peek 0).2.bump.2.numbered_newTokens (m.peek 0).2.bump.1.leaves
      have hnext : m.nextId ≤ ((m.peek 0).2.bump.2.newTokens (m.peek 0).2.bump.1.leaves).2.nextId :=
        Nat.le_add_right _ _
      exact ⟨Nat.le_trans hnext hle, hfirst.append hnumbered hnext hle⟩

/-- The tree is put together like the stack. -/
theorem Mixed.finish (h : m.Mixed bound Known) (text : List Char) :
    Element.Mixed bound Known [(m.finish text).root] (m.finish text).nextId
      (m.finish text).reused := by
  obtain ⟨hle, hrest⟩ := numbered_leftOver (m.source.size + 1) m
  have hframe := leftOver_frame (m.source.size + 1) m
  simp only [Machine.finish]
  generalize leftOver (m.source.size + 1) m = left at hle hrest hframe ⊢
  obtain ⟨rest, m₁⟩ := left
  simp only at hle hrest hframe ⊢
  have hreused : m₁.reused = m.reused := by rw [hframe]
  generalize hpair : (if rest.isEmpty = true then ([], m₁) else
    ([(m₁.newNode .error none rest).1], (m₁.newNode .error none rest).2)) = pair
  obtain ⟨errors, m₂⟩ := pair
  obtain ⟨hle', herrors, hreused'⟩ : m.nextId ≤ m₂.nextId ∧ Numbered m.nextId m₂.nextId errors ∧
      m₂.reused = m.reused := by
    split at hpair
    · cases hpair
      refine ⟨hle, ⟨.nil, by simp [Element.idsAll]⟩, hreused⟩
    · cases hpair
      exact ⟨Nat.le_succ_of_le hle, hrest.node hle .error none, hreused⟩
  have htrivia := m₂.bump.2.numbered_newTokens m₂.bump.1.leading
  have hall := (h.append herrors hle').append htrivia (Nat.le_add_right _ _)
  rw [← hreused'] at hall
  exact Element.Mixed.wrap (a := []) (b := []) (by rwa [List.append_nil]) .sourceFile none

end Machine

namespace Tree

variable {setting : Setting} {text : List Char} {Known : Nat → Element → Prop}

/-- A tree is put together from new elements and from as many old ones as were taken over. -/
theorem mixed_parseWith {firstId : Nat} (htruthful : setting.Truthful text)
    (hsetting : setting.Offers firstId Known) :
    Mixed firstId Known [(parseWith setting text firstId).root]
      (parseWith setting text firstId).nextId (parseWith setting text firstId).reused := by
  obtain ⟨-, hmixed⟩ := Machine.run_induction
    (I := fun m : Machine => m.Faithful text ∧ m.Mixed firstId Known)
    (fun m h => ⟨h.1.step htruthful, h.2.step h.1 hsetting⟩)
    (Machine.maxSteps setting.table (Text.size text)) ⟨.start text firstId, .start text firstId⟩
  exact hmixed.finish text

end Tree
end SqlTree
