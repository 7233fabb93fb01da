import SqlTree.Proofs.Diagnostics

/-!
# What has been built is kept

A machine never takes apart what it has built. A reduction puts what it joins under one node, a repair
puts what it drops under an error, and everything else only adds to the stack. So whatever stands on
the stack at any time is found again in the tree, and at the same place.

- `Element.AllAt`     : a property of an element at its offset and of everything below it
- `Machine.AllBuilt`  : such a property of everything that has been built
- `Machine.AllBuilt.of_step` : what holds of everything after a step held before
- `Machine.Run.exists_visit_at` : what is on the stack is visited in the tree where it stood
-/

namespace SqlTree

/-! ## Properties of elements at their places -/

namespace Element

mutual

/-- `P` holds of the element, which stands at an offset, and of everything below it. -/
def AllAt (P : Nat → Element → Prop) : Element → Nat → Prop
  | token id kind text, start => P start (token id kind text)
  | node id kind origin children, start =>
    P start (node id kind origin children) ∧ AllInAt P children start

def AllInAt (P : Nat → Element → Prop) : List Element → Nat → Prop
  | [], _ => True
  | e :: rest, start => e.AllAt P start ∧ AllInAt P rest (start + e.size)

end

variable {P : Nat → Element → Prop} {start : Nat}

theorem AllAt.self {e : Element} (h : e.AllAt P start) : P start e := by
  cases e with
  | token => exact h
  | node => exact h.1

theorem allInAt_append {a b : List Element} :
    AllInAt P (a ++ b) start ↔ AllInAt P a start ∧ AllInAt P b (start + sizeAll a) := by
  induction a generalizing start with
  | nil => simp [AllInAt, sizeAll]
  | cons e a ih => simp [AllInAt, ih, sizeAll, and_assoc, Nat.add_assoc]

mutual

theorem allAt_of_forall_preorder (e : Element) (depth start : Nat)
    (h : ∀ v ∈ e.preorder depth start, P v.start v.element) : e.AllAt P start := by
  cases e with
  | token id kind text => exact h _ List.mem_cons_self
  | node id kind origin children =>
    exact ⟨h _ List.mem_cons_self, allInAt_of_forall_preorderAll children (depth + 1) start
      fun v hv => h v (List.mem_cons_of_mem _ hv)⟩

theorem allInAt_of_forall_preorderAll (es : List Element) (depth start : Nat)
    (h : ∀ v ∈ preorderAll es depth start, P v.start v.element) : AllInAt P es start := by
  cases es with
  | nil => trivial
  | cons e rest =>
    exact ⟨allAt_of_forall_preorder e depth start fun v hv => h v (List.mem_append_left _ hv),
      allInAt_of_forall_preorderAll rest depth (start + e.size) fun v hv =>
        h v (List.mem_append_right _ hv)⟩

end

end Element

namespace Machine

open Element (AllInAt allInAt_append sizeAll)

variable {P : Nat → Element → Prop} {m m' next last : Machine} {setting : Setting}
  {text : List Char} {g : Grammar} {rank : Nat → Nat} {turns : List Turn}

/-- `P` holds of everything on the stack and below it, where it stands. -/
def AllBuilt (P : Nat → Element → Prop) (m : Machine) : Prop := AllInAt P (elements m.stack) 0

/-- Being put under a node takes no room. -/
theorem Makes.sizeAll_content {base lhs : Nat} {joined entry : Entry}
    (h : m.Makes g base lhs joined entry) : sizeAll entry.content = sizeAll joined.content := by
  cases h with
  | hidden => rfl
  | visible => simp [Entry.content, Element.sizeAll_append, Element.sizeAll_singleton, Element.size]

namespace AllBuilt

theorem congr (h : m'.AllBuilt P) (hstack : m'.stack = m.stack) : m.AllBuilt P := by
  unfold AllBuilt at h
  rw [hstack] at h
  exact h

theorem of_push {entry : Entry} (h : m'.AllBuilt P) (hstack : m'.stack = entry :: m.stack) :
    m.AllBuilt P := by
  unfold AllBuilt at h
  rw [hstack, elements_cons] at h
  exact (allInAt_append.1 h).1

theorem of_shift {kind : Kind} {state : Nat} (h : (m.shift kind state).AllBuilt P) :
    m.AllBuilt P := by
  unfold shift at h
  split at h
  · exact h.of_push rfl
  · exact h.of_push rfl

/-- What a reduction joins is found in what it makes of it. -/
theorem of_makes {base lhs start : Nat} {joined entry : Entry}
    (hmakes : m.Makes g base lhs joined entry) (h : AllInAt P entry.content start) :
    AllInAt P joined.content start := by
  cases hmakes with
  | hidden => exact h
  | visible =>
    obtain ⟨hleading, hnode⟩ := allInAt_append.1 h
    exact allInAt_append.2 ⟨hleading, hnode.1.2⟩

theorem of_reduce {production : Nat} (h : m'.AllBuilt P)
    (hreduced : m.reduce? setting production = some m') : m.AllBuilt P := by
  obtain ⟨p, extras, children, below, next, entry, nextId, -, hstack, -, -, -, -, -, hmakes, rfl⟩ :=
    reduce?_spec hreduced
  have hjoined : (m.joinedEntry next children).content = elements children.reverse :=
    (Entry.ofChildren_content next children m.position).trans (elements_reverse children).symm
  unfold AllBuilt at h ⊢
  rw [elements_append, elements_cons, elements_map_state] at h
  obtain ⟨hrest, hextras⟩ := allInAt_append.1 h
  obtain ⟨hbelow, hentry⟩ := allInAt_append.1 hrest
  have hchildren := of_makes hmakes hentry
  rw [Element.sizeAll_append, hmakes.sizeAll_content] at hextras
  rw [hjoined] at hchildren hextras
  rw [hstack, elements_append, elements_append]
  refine allInAt_append.2 ⟨allInAt_append.2 ⟨hbelow, hchildren⟩, ?_⟩
  rwa [Element.sizeAll_append]

/-- What a repair drops is found in the error that it leaves. -/
theorem of_skip {skipped depth : Nat} (hformed : ∀ e ∈ m.stack, e.Formed)
    (h : (m.skip skipped depth).AllBuilt P) : m.AllBuilt P := by
  obtain ⟨d, -, hskip⟩ := skip_eq hformed skipped depth
  have hstack : (m.gathered skipped d).2.stack = m.stack.drop d := by
    rw [gathered, skipInto_frame]
    rfl
  obtain ⟨more, hmore, -⟩ := m.gathered_content skipped d
  -- Whatever is gathered is below the error; where there is nothing to gather, none is left.
  have hboth : AllInAt P (elements (m.stack.drop d) ++ (m.gathered skipped d).1.content) 0 := by
    unfold AllBuilt at h
    rcases hskip with ⟨hnil, hskip⟩ | ⟨-, hskip⟩
    · rw [Entry.content, hnil, List.append_nil]
      rwa [hskip, hstack] at h
    · rw [hskip, elements_cons, hstack] at h
      obtain ⟨hrest, herror⟩ := allInAt_append.1 h
      obtain ⟨hleading, hnode⟩ := allInAt_append.1 herror
      exact allInAt_append.2 ⟨hrest, allInAt_append.2 ⟨hleading, hnode.1.2⟩⟩
  rw [hmore, ← List.append_assoc] at hboth
  unfold AllBuilt
  rw [← List.take_append_drop d m.stack, elements_append]
  exact (allInAt_append.1 hboth).1

theorem of_recover (hfaithful : m.Faithful text) (hrecover : m.recover? setting = some next)
    (h : next.AllBuilt P) : m.AllBuilt P := by
  have hrepaired := recover?_repaired setting m
  rw [hrecover] at hrepaired
  cases hrepaired with
  | inserted => exact h.congr rfl
  | @skipped n skipped depth repairs diagnostic =>
    generalize hm₁ : { m.looked n with injected := none, repairs := repairs } = m₁ at h
    have hstack : m₁.stack = m.stack := by rw [← hm₁]; rfl
    have hskip : (m₁.skip skipped depth).AllBuilt P := h
    exact (of_skip (hstack ▸ hfaithful.formed) hskip).congr hstack

/-- What holds of everything after a step held of everything before. -/
theorem of_step (hfaithful : m.Faithful text) (hstep : m.step setting = .running next)
    (h : next.AllBuilt P) : m.AllBuilt P := by
  obtain ⟨n, fork, heffect⟩ := effect_of_step hstep
  suffices hlooked : AllBuilt P { m.looked n with forkPending := fork } from hlooked.congr rfl
  have hfaithful : Faithful text { m.looked n with forkPending := fork } :=
    (hfaithful.looked n).congr rfl rfl
  generalize { m.looked n with forkPending := fork } = m₁ at heffect hfaithful ⊢
  cases heffect with
  | split => exact h.congr rfl
  | shift => exact of_shift h
  | takeOver _ htaken =>
    obtain ⟨reuse, old, state, -, -, -, rfl⟩ := takeOver?_spec htaken
    exact h.of_push rfl
  | reduce _ hreduced => exact h.of_reduce hreduced
  | repair hrecover => exact of_recover hfaithful hrecover h

theorem of_run (hrun : Run setting m turns m') (hregular : m.Regular g text)
    (hsuits : setting.Suits g rank text) (h : m'.AllBuilt P) : m.AllBuilt P := by
  induction hrun with
  | done m => exact h
  | step hstep _ ih =>
    exact of_step hregular.faithful hstep (ih (hregular.running hsuits hstep) h)

/-- The stack ends up below the root. -/
theorem of_finish (hfaithful : m.Faithful text) (h : (m.finish text).root.AllAt P 0) :
    m.AllBuilt P := by
  obtain ⟨id, rest, errors, trivia, hroot, -⟩ := finish_spec hfaithful.source_at text
  rw [hroot] at h
  exact (allInAt_append.1 (allInAt_append.1 h.2).1).1

end AllBuilt

/-- Where one run ends because nothing is left to do, every other run from its first machine leads
there. -/
theorem Run.exists_rest {first : Machine} {turns' : List Turn} (h : Run setting first turns m)
    (h' : Run setting first turns' m') (hend : m'.step setting = .finished last) :
    ∃ rest, Run setting m rest m' := by
  rcases h.linear h' with rfl | ⟨next, rest, hnext, hrest⟩ | ⟨next, rest, hnext, -⟩
  · exact ⟨[], .done m⟩
  · exact ⟨_, .step hnext hrest⟩
  · cases hend.symm.trans hnext

/-- Whatever a machine has on its stack while it parses a text is visited in the tree of the text,
at the place where it stands on the stack. -/
theorem Run.exists_visit_at {firstId : Nat} {x : Element} {before after : List Element}
    (hrun : Run setting (Machine.start text firstId) turns m) (hsuits : setting.Suits g rank text)
    (hx : elements m.stack = before ++ x :: after) :
    ∃ v ∈ (Tree.parseWith setting text firstId).root.visits,
      v.element = x ∧ v.start = sizeAll before := by
  obtain ⟨turns', m', last, hrun', hstep, -, hparse⟩ := exists_run hsuits firstId
  have hfirst : (Machine.start text firstId).Regular g text := .start g text firstId
  obtain ⟨rest, hrest⟩ := hrun.exists_rest hrun' hstep
  obtain ⟨n, fork, rfl⟩ := eq_looked_of_finished hstep
  have hfaithful : Faithful text { m'.looked n with forkPending := fork } :=
    ((hrun'.regular hfirst hsuits).faithful.looked n).congr rfl rfl
  have hkept (P : Nat → Element → Prop)
      (hroot : (Tree.parseWith setting text firstId).root.AllAt P 0) : P (sizeAll before) x := by
    rw [hparse] at hroot
    have hlast : m'.AllBuilt P := (AllBuilt.of_finish hfaithful hroot).congr rfl
    have hbuilt := hlast.of_run hrest (hrun.regular hfirst hsuits) hsuits
    unfold AllBuilt at hbuilt
    rw [hx] at hbuilt
    simpa using (allInAt_append.1 hbuilt).2.1.self
  refine hkept (fun start y => ∃ v ∈ (Tree.parseWith setting text firstId).root.visits,
    v.element = y ∧ v.start = start) ?_
  exact Element.allAt_of_forall_preorder _ 0 0 fun v hv => ⟨v, hv, rfl, rfl⟩

/-- Whatever a machine has on its stack while it parses a text is visited in the tree. -/
theorem Run.exists_visit {firstId : Nat} (hrun : Run setting (Machine.start text firstId) turns m)
    (hsuits : setting.Suits g rank text) {x : Element} (hx : x ∈ elements m.stack) :
    ∃ v ∈ (Tree.parseWith setting text firstId).root.visits, v.element = x := by
  obtain ⟨before, after, hsplit⟩ := List.append_of_mem hx
  obtain ⟨v, hv, helement, -⟩ := hrun.exists_visit_at hsuits hsplit
  exact ⟨v, hv, helement⟩

end Machine
end SqlTree
