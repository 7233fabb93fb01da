import SqlTree.Proofs.BigQuery
import SqlTree.Proofs.Brackets
import SqlTree.Proofs.Origins
import SqlTree.Proofs.View

/-!
# Missing closing brackets

A repair that asks for a missing closing bracket points to the innermost opening one that is not
closed. Until the token is read there are only reductions, which join whole pairs and so do not
change what is found. From then on the two stand on the stack with none of their kind in between. So
they come under one node, or a repair drops the closing one into an error. All this takes that the
brackets on the stack are tokens of the text: one that a repair has put in is passed over by the
search, though it may well be the partner of another one.

- `Machine.Plain`     : what an entry holds that was reached by reading a token
- `Brackets.Faces`    : a closing bracket on a stack and the innermost opening one below it
- `Element.Unites`    : a node over both, or an error over the closing one
- `Brackets.Faces.step` : a step keeps the two in place or unites them
- `Machine.PutsIn`    : a repair asks for a missing token and the token is read
- `BigQuery.closers_united` : the missing token and the one pointed at are united
-/

namespace SqlTree

open Item (Begins Leads)
open Element (readings sizeAll)
open Machine (Run elements unclosed?)

/-! ## Entries of tokens -/

/-- An entry that was reached by reading a token, with the element that it holds. -/
structure Entry.Reads (g : Grammar) (kind : Kind) (x : Element) (e : Entry) : Prop where
  extra : e.extra = false
  accessing : g.accessing e.state = some (.terminal kind)
  elements : e.elements = [x]

/-- An entry that was reached by reading a token holds the token, or a missing one. -/
def Entry.Plain (g : Grammar) (e : Entry) : Prop :=
  e.extra = false → ∀ kind, g.accessing e.state = some (.terminal kind) →
    (∃ id content, e.elements = [.token id kind content] ∧ e.stop = e.start + Text.size content) ∨
      ∃ id children, e.elements = [.node id .missing none children]

theorem Entry.plain_of_nonterminal {g : Grammar} {e : Entry} {i : Nat}
    (h : g.accessing e.state = some (.nonterminal i)) : e.Plain g := by
  intro _ kind haccess
  cases h.symm.trans haccess

namespace Stack

variable {g : Grammar} {stack above above' below below' : Stack} {e e' : Entry} {kind : Kind}
  {x : Element}

/-- Two ways to take a stack apart agree if both are at the first entry without a property. -/
theorem append_cons_inj {P : Entry → Prop} (habove : ∀ e ∈ above, P e) (he : ¬P e)
    (habove' : ∀ e ∈ above', P e) (he' : ¬P e') (h : above ++ e :: below = above' ++ e' :: below') :
    above = above' ∧ e = e' ∧ below = below' := by
  induction above generalizing above' with
  | nil =>
    cases above' with
    | nil => exact ⟨rfl, List.cons.inj h⟩
    | cons first above' =>
      obtain ⟨rfl, -⟩ := List.cons.inj h
      exact absurd (habove' _ List.mem_cons_self) he
  | cons first above ih =>
    cases above' with
    | nil =>
      obtain ⟨rfl, -⟩ := List.cons.inj h
      exact absurd (habove _ List.mem_cons_self) he'
    | cons first' above' =>
      obtain ⟨rfl, hrest⟩ := List.cons.inj h
      obtain ⟨rfl, heq⟩ := ih (fun e he => habove e (List.mem_cons_of_mem _ he))
        (fun e he => habove' e (List.mem_cons_of_mem _ he)) hrest
      exact ⟨rfl, heq⟩

/-- The element of a token's entry is read as the token. -/
theorem Linked.reading?_eq (h : Linked g stack) (he : e ∈ stack) (hreads : e.Reads g kind x) :
    x.reading? = some kind := by
  rcases h.expands he with hextra | hnil | ⟨symbol, haccess, hexpands⟩
  · cases hreads.extra.symm.trans hextra
  · cases hreads.elements.symm.trans hnil
  · obtain rfl := Option.some.inj (haccess.symm.trans hreads.accessing)
    rw [hreads.elements] at hexpands
    generalize hkinds : readings [x] = kinds at hexpands
    cases hexpands
    cases hreading : x.reading? with
    | none => simp [readings, hreading] at hkinds
    | some kind => simpa [readings, hreading] using hkinds

/-- What was skipped is in the state of what is below it. -/
theorem Linked.topState_of_extra (h : Linked g (above ++ below)) (hbelow : below ≠ [])
    (habove : ∀ e ∈ above, e.extra = true) : topState (above ++ below) = topState below := by
  induction above with
  | nil => rfl
  | cons e above ih =>
    have hextra := habove e List.mem_cons_self
    generalize hstack : e :: above ++ below = stack at h ⊢
    cases h with
    | bottom =>
      simp only [List.cons_append, List.cons.injEq, List.append_eq_nil_iff] at hstack
      exact absurd hstack.2.2 hbelow
    | extra _ hstate h =>
      obtain ⟨rfl, rfl⟩ := List.cons.inj hstack
      exact hstate.trans (ih h fun e he => habove e (List.mem_cons_of_mem _ he))
    | symbol hnot =>
      obtain ⟨rfl, -⟩ := List.cons.inj hstack
      cases hnot.symm.trans hextra

/-- The state of a grammar symbol was reached from the one below it. -/
theorem Linked.leads (h : Linked g (e :: below)) (hbelow : below ≠ []) (hextra : e.extra = false) :
    ∃ symbol, g.accessing e.state = some symbol ∧
      Leads g (g.core (topState below)) symbol (g.core e.state) := by
  cases h with
  | bottom => exact absurd rfl hbelow
  | extra htrue => cases hextra.symm.trans htrue
  | symbol _ hleads => exact ⟨_, Grammar.accessing_of_leads hleads, hleads⟩

end Stack

namespace Machine

variable {g : Grammar} {rank : Nat → Nat} {text : List Char} {m m' next : Machine}
  {setting : Setting}

/-- Every entry that was reached by reading a token holds a token or a missing one. -/
def Plain (g : Grammar) (m : Machine) : Prop := ∀ e ∈ m.stack, e.Plain g

theorem Plain.start (g : Grammar) (text : List Char) (firstId : Nat) :
    (Machine.start text firstId).Plain g := by
  intro e he hextra kind haccess
  obtain rfl := List.mem_singleton.1 he
  cases g.accessing_zero.symm.trans haccess

theorem Plain.push {entry : Entry} (h : m.Plain g) (hstack : m'.stack = entry :: m.stack)
    (hentry : entry.Plain g) : m'.Plain g := by
  unfold Plain
  rw [hstack]
  exact List.forall_mem_cons.2 ⟨hentry, h⟩

theorem Plain.shift {kind : Kind} {state : Nat} (h : m.Plain g)
    (haccess : g.accessing state = some (.terminal kind)) : (m.shift kind state).Plain g := by
  unfold Machine.shift
  split
  · rw [shiftMissing_eq]
    exact h.push rfl fun _ _ _ => .inr ⟨_, _, rfl⟩
  · rw [shiftToken_eq]
    refine h.push rfl fun _ other hother => .inl ?_
    obtain rfl := Symbol.terminal.inj (Option.some.inj (haccess.symm.trans hother))
    exact ⟨_, _, rfl, rfl⟩

theorem Plain.takeOver (h : m.Plain g) (htable : setting.table = Table.ofGrammar g)
    (htaken : m.takeOver? setting m.topState = some m') : m'.Plain g := by
  obtain ⟨reuse, old, next, -, -, hgoto, rfl⟩ := takeOver?_spec htaken
  obtain ⟨i, -, hgoto⟩ := Option.bind_eq_some_iff.1 hgoto
  rw [htable] at hgoto
  exact h.push rfl (Entry.plain_of_nonterminal
    (Grammar.accessing_of_leads (Table.Moves.goto hgoto).leads))

theorem Plain.reduce {p : Nat} (h : m.Plain g) (hreduces : m.Reduces g p m') : m'.Plain g := by
  cases hreduces with
  | mk _ _ hstack hextras _ _ _ _ _ _ _ hleads hmakes _ =>
    intro e he
    rcases List.mem_append.1 he with he | he
    · obtain ⟨old, hold, rfl⟩ := List.mem_map.1 he
      intro hextra
      cases hextra.symm.trans (hextras old hold)
    · rcases List.mem_cons.1 he with rfl | he
      · exact Entry.plain_of_nonterminal (hmakes.accessing hleads)
      · exact h e (by simp [hstack, he])

theorem Plain.skip (h : m.Plain g) (hfaithful : m.Faithful text) (skipped depth : Nat) :
    (m.skip skipped depth).Plain g := by
  obtain ⟨d, t, hskips⟩ := skip_skips hfaithful.source_at hfaithful.formed skipped depth
  have hdrop : ∀ e ∈ m.stack.drop d, e.Plain g := fun e he => h e (List.mem_of_mem_drop he)
  have hstack := hskips.stack
  unfold Plain
  generalize (m.skip skipped depth).stack = stack at hstack
  cases hstack with
  | nothing => exact hdrop
  | error _ hextra =>
    refine List.forall_mem_cons.2 ⟨fun hnot => ?_, hdrop⟩
    cases hnot.symm.trans hextra

theorem Plain.recover (h : m.Plain g) (hfaithful : m.Faithful text)
    (hrecover : m.recover? setting = some m') : m'.Plain g := by
  have hrepaired := recover?_repaired setting m
  rw [hrecover] at hrepaired
  cases hrepaired with
  | inserted => exact h
  | @skipped n skipped depth repairs diagnostic =>
    have hbase : Plain g { m.looked n with injected := none, repairs := repairs } := h
    exact hbase.skip ((hfaithful.looked n).congr rfl rfl) skipped depth

/-- Every step keeps the entries of tokens plain. -/
theorem Plain.step (h : m.Plain g) (hregular : m.Regular g text)
    (htable : setting.table = Table.ofGrammar g) : (m.step setting).machine.Plain g := by
  refine step_keeps (J := fun m => m.Regular g text ∧ m.Plain g)
    (fun n _ => ⟨⟨(hregular.faithful.looked n).congr rfl rfl, hregular.grammatical.congr rfl⟩, h⟩)
    (fun _ h => h.2) ?_
  rintro m next ⟨hregular, h⟩ heffect
  cases heffect with
  | split => exact h
  | shift hmem =>
    have haction := (mem_candidates hmem).1
    rw [htable] at haction
    exact h.shift (Grammar.accessing_of_leads (Table.Moves.shift haction).leads)
  | takeOver _ htaken => exact h.takeOver htable htaken
  | reduce hmem hreduced =>
    exact h.reduce (hregular.grammatical.reduces hregular.faithful htable hmem hreduced)
  | repair hrecover => exact h.recover hregular.faithful hrecover

theorem Run.plain {firstId : Nat} {turns : List Turn}
    (hrun : Run setting (Machine.start text firstId) turns m) (hsuits : setting.Suits g rank text) :
    m.Plain g := by
  have hfirst : (Machine.start text firstId).Regular g text := .start g text firstId
  refine hrun.invariant (.start g text firstId) fun {_ m _} hrun hstep h => ?_
  have hnext := h.step (hrun.regular hfirst hsuits) hsuits.table_eq
  rwa [hstep] at hnext

end Machine

/-! ## Two brackets that face each other -/

/-- A node over two elements, or an error over the first of them. -/
structure Element.Unites (u x y : Element) : Prop where
  first : x ∈ u.children
  second : u.kind = .error ∨ y ∈ u.children

theorem Entry.mem_elements {e : Entry} {x : Element} {kind : Kind} (hsilent : e.Silent)
    (hx : x ∈ e.content) (hreading : x.reading? = some kind) : x ∈ e.elements := by
  rcases List.mem_append.1 hx with hx | hx
  · cases (Element.reading?_eq_none_of_readings hsilent x hx).symm.trans hreading
  · exact hx

theorem Machine.mem_elements {stack : Stack} {e : Entry} {x : Element} (he : e ∈ stack)
    (hx : e.elements = [x]) : x ∈ elements stack := by
  simp only [elements, List.mem_flatMap, List.mem_reverse]
  exact ⟨e, he, by simp [hx]⟩

/-- What is read of an entry is read of those that are joined with it. -/
theorem Entry.mem_joinedEntry {m : Machine} {next : Nat} {children : List Entry} {e : Entry}
    {x : Element} {kind : Kind} (hsilent : ∀ e ∈ children, e.Silent) (he : e ∈ children)
    (hx : e.elements = [x]) (hreading : x.reading? = some kind) :
    x ∈ (m.joinedEntry next children).elements := by
  have hcontent : (m.joinedEntry next children).content = children.flatMap Entry.content :=
    Entry.ofChildren_content next children m.position
  refine Entry.mem_elements (Entry.silent_ofChildren next m.position hsilent).1 ?_ hreading
  rw [hcontent]
  exact List.mem_flatMap.2 ⟨e, he, List.mem_append_right _ (by simp [hx])⟩

/-- What is read of an entry is still read when it is skipped. -/
theorem Machine.mem_gathered {g : Grammar} {text : List Char} {m : Machine} {d : Nat} {e : Entry}
    {x : Element} {kind : Kind} (hregular : m.Regular g text) (skipped : Nat)
    (he : e ∈ m.stack.take d) (hx : e.elements = [x]) (hreading : x.reading? = some kind) :
    x ∈ (m.gathered skipped d).1.elements := by
  obtain ⟨more, hcontent, -⟩ := m.gathered_content skipped d
  have hsilent : (m.gathered skipped d).1.Silent := by
    refine List.filterMap_eq_nil_iff.2 fun y hy => ?_
    have hat := hregular.faithful.source_at.peek 0
    rcases mem_leading_skipInto (m := ({ m with stack := m.stack.drop d }.peek 0).2) hat hy with
      hy | ⟨id, kind, text, rfl, htrivia⟩
    · obtain ⟨e, he, hy⟩ := mem_leading_poppedEntry hy
      exact Element.reading?_eq_none_of_readings (hregular.grammatical.silent e he) y hy
    · simp [Element.reading?, htrivia]
  refine Entry.mem_elements hsilent ?_ hreading
  rw [hcontent]
  exact List.mem_append_left _ (Machine.mem_elements he hx)

namespace Brackets

variable {b : Brackets} {g : Grammar} {rank : Nat → Nat} {text : List Char}
  {m m' next last : Machine} {setting : Setting} {stack below : Stack} {e : Entry} {x y : Element}

/-- A closing bracket is on top of a stack, what was skipped behind it apart, and below it there is
an opening one, with none of the two in between. -/
inductive Faces (b : Brackets) (g : Grammar) (x y : Element) : Stack → Prop where
  | mk {extras above below : Stack} {c o : Entry} (hextras : ∀ e ∈ extras, e.extra = true)
      (hcloser : c.Reads g b.closer x) (habove : ∀ e ∈ above, b.Aside g e)
      (hopener : o.Reads g b.opener y) : Faces b g x y (extras ++ c :: (above ++ o :: below))

theorem Faces.mem (h : b.Faces g x y stack) : x ∈ elements stack ∧ y ∈ elements stack := by
  cases h with
  | mk _ hcloser _ hopener =>
    exact ⟨Machine.mem_elements (by simp) hcloser.elements,
      Machine.mem_elements (by simp) hopener.elements⟩

theorem not_aside {kind : Kind} (hextra : e.extra = false)
    (haccess : g.accessing e.state = some (.terminal kind)) (hmem : b.mem (.terminal kind) = true) :
    ¬b.Aside g e := by
  intro haside
  cases hmem.symm.trans (haside hextra _ haccess)

/-- Where a closing bracket is on top, every item is complete. -/
theorem Faces.complete (h : b.Faces g x y stack) (hb : b.Suits g) (hlinked : stack.Linked g)
    {item : Item} (hbegins : Begins g (g.core stack.topState) item) :
    0 < item.mark ∧ item.rest g = [] := by
  cases h with
  | @mk extras above below c o hextras hcloser =>
    rw [hlinked.topState_of_extra (by simp) hextras] at hbegins
    obtain ⟨symbol, haccess, hleads⟩ :=
      (hlinked.of_append (by simp)).leads (by simp) hcloser.extra
    obtain rfl := Option.some.inj (haccess.symm.trans hcloser.accessing)
    exact hb.complete hleads hbegins

/-- Nothing is read right behind a closing bracket. -/
theorem Faces.not_moves (h : b.Faces g x y stack) (hb : b.Suits g) (hlinked : stack.Linked g)
    {symbol : Symbol} {next : Nat} : ¬(Table.ofGrammar g).Moves stack.topState symbol next := by
  intro hmoves
  obtain ⟨hne, hleads⟩ := hmoves.leads
  obtain ⟨item, hitem⟩ := List.exists_mem_of_ne_nil _ hne
  obtain ⟨before, -, hbegins, hsymbol⟩ := hleads item hitem
  rw [(h.complete hb hlinked hbegins).2] at hsymbol
  cases hsymbol

/-- A reduction right behind a closing bracket joins it with the opening one. -/
theorem Faces.reduce {p : Nat} (h : b.Faces g x y m.stack) (hb : b.Suits g)
    (hgrammatical : m.Grammatical g) (hreduces : m.Reduces g p m') :
    ∃ u ∈ elements m'.stack, u.Unites x y := by
  have hcomplete {item : Item} (hbegins : Begins g (g.core m.stack.topState) item) :=
    h.complete hb hgrammatical.linked hbegins
  have hreading {e : Entry} {kind : Kind} {z : Element} (he : e ∈ m.stack)
      (hreads : e.Reads g kind z) := hgrammatical.linked.reading?_eq he hreads
  generalize hfaces : m.stack = stack at h
  cases h with
  | @mk extras above below c o hextras hcloser habove hopener =>
  cases hreduces with
  | @mk production extras' below' children entry next nextId hp _ hstack hextras' _ htop _ hopening
      hends _ haccess _ hmakes _ =>
    have hsame := hfaces.symm.trans hstack
    -- The closing bracket is the last of what is joined.
    obtain rfl | ⟨init, last, rfl⟩ := List.eq_nil_or_concat' children
    · have hbelow : Stack.topState m.stack = Stack.topState below' := htop
      rw [← hbelow] at hopening
      exact absurd (hcomplete hopening).1 (Nat.lt_irrefl 0)
    · rw [List.reverse_append, List.reverse_singleton, List.singleton_append,
        List.cons_append] at hsame
      obtain ⟨rfl, rfl, hinner⟩ := Stack.append_cons_inj (P := fun e => e.extra = true) hextras
        (by simp [hcloser.extra]) hextras'
        (by simp [hends last (.inr (List.getLast?_concat (l := init)))]) hsame
      obtain ⟨hvisible, before, o', between, rfl, ho', hopener', hbetween⟩ :=
        exists_partner hb hp haccess hcloser.extra hcloser.accessing
      rw [List.reverse_append, List.reverse_cons, List.append_assoc, List.append_assoc] at hinner
      obtain ⟨-, rfl, -⟩ := Stack.append_cons_inj habove
        (not_aside hopener.extra hopener.accessing mem_opener) (by simpa using hbetween)
        (not_aside ho' hopener' mem_opener) hinner
      have hjoined {e : Entry} {kind : Kind} {z : Element} (hreads : e.Reads g kind z)
          (he : e ∈ before ++ o :: between ++ [c]) :
          z ∈ (m.joinedEntry next (before ++ o :: between ++ [c])).elements := by
        have hin {e : Entry} (he : e ∈ before ++ o :: between ++ [c]) : e ∈ m.stack :=
          hstack ▸ List.mem_append_right _ (List.mem_append_left _ (List.mem_reverse.2 he))
        exact Entry.mem_joinedEntry (fun e he => hgrammatical.silent e (hin he)) he hreads.elements
          (hreading (hin he) hreads)
      cases hmakes with
      | hidden hkind =>
        rw [hkind] at hvisible
        cases hvisible
      | visible hkind =>
        exact ⟨_, Machine.mem_elements (List.mem_append_right _ List.mem_cons_self) rfl,
          hjoined hcloser (by simp), .inr (hjoined hopener (by simp))⟩

/-- What is skipped lands in an error, the closing bracket with all that is above it. -/
theorem Faces.skip (h : b.Faces g x y m.stack) (hregular : m.Regular g text) (skipped depth : Nat) :
    b.Faces g x y (m.skip skipped depth).stack ∨
      ∃ u ∈ elements (m.skip skipped depth).stack, u.Unites x y := by
  obtain ⟨d, -, hskip⟩ := Machine.skip_eq hregular.faithful.formed skipped depth
  have hdrop : (m.gathered skipped d).2.stack = m.stack.drop d := by
    rw [Machine.gathered, Machine.skipInto_frame]
    rfl
  have hreading {e : Entry} {kind : Kind} {z : Element} (he : e ∈ m.stack)
      (hreads : e.Reads g kind z) := hregular.grammatical.linked.reading?_eq he hreads
  generalize hfaces : m.stack = stack at h
  cases h with
  | @mk extras above below c o hextras hcloser habove hopener =>
  rcases Nat.lt_or_ge extras.length d with hdeep | hshallow
  · have hc : c ∈ m.stack.take d := by
      obtain ⟨n, hn⟩ := Nat.exists_eq_add_of_lt (Nat.sub_pos_of_lt hdeep)
      rw [hfaces, List.take_append, hn, List.take_succ_cons]
      simp
    have hx := Machine.mem_gathered hregular skipped hc hcloser.elements
      (hreading (List.mem_of_mem_take hc) hcloser)
    rcases hskip with ⟨hnil, -⟩ | ⟨-, hskip⟩
    · rw [(List.append_eq_nil_iff.1 hnil).2] at hx
      cases hx
    · rw [hskip]
      exact .inr ⟨_, Machine.mem_elements List.mem_cons_self rfl, hx, .inl rfl⟩
  · rw [hfaces, List.drop_append_of_le_length hshallow] at hdrop
    have hextras' : ∀ e ∈ extras.drop d, e.extra = true :=
      fun e he => hextras e (List.mem_of_mem_drop he)
    rcases hskip with ⟨-, hskip⟩ | ⟨-, hskip⟩
    · rw [hskip, hdrop]
      exact .inl (.mk hextras' hcloser habove hopener)
    · rw [hskip, hdrop, ← List.cons_append]
      exact .inl (.mk (List.forall_mem_cons.2 ⟨rfl, hextras'⟩) hcloser habove hopener)

theorem Faces.recover (h : b.Faces g x y m.stack) (hregular : m.Regular g text)
    (hrecover : m.recover? setting = some next) :
    b.Faces g x y next.stack ∨ ∃ u ∈ elements next.stack, u.Unites x y := by
  have hrepaired := Machine.recover?_repaired setting m
  rw [hrecover] at hrepaired
  cases hrepaired with
  | inserted => exact .inl h
  | @skipped n skipped depth repairs diagnostic =>
    have hbase : b.Faces g x y
        ({ m.looked n with injected := none, repairs := repairs } : Machine).stack := h
    exact hbase.skip ⟨(hregular.faithful.looked n).congr rfl rfl, hregular.grammatical.congr rfl⟩
      skipped depth

/-- A step leaves the two brackets where they are, or unites them. -/
theorem Faces.step (h : b.Faces g x y m.stack) (hb : b.Suits g) (hregular : m.Regular g text)
    (htable : setting.table = Table.ofGrammar g) (hstep : m.step setting = .running next) :
    b.Faces g x y next.stack ∨ ∃ u ∈ elements next.stack, u.Unites x y := by
  obtain ⟨n, fork, heffect⟩ := Machine.effect_of_step hstep
  have hregular : Machine.Regular g text { m.looked n with forkPending := fork } :=
    ⟨(hregular.faithful.looked n).congr rfl rfl, hregular.grammatical.congr rfl⟩
  have h : b.Faces g x y ({ m.looked n with forkPending := fork } : Machine).stack := h
  generalize { m.looked n with forkPending := fork } = m₁ at heffect hregular h
  have hmoves {symbol : Symbol} {state : Nat} :
      ¬(Table.ofGrammar g).Moves m₁.topState symbol state :=
    h.not_moves hb hregular.grammatical.linked
  cases heffect with
  | split => exact .inl h
  | shift hmem => exact absurd (.shift (htable ▸ (Machine.mem_candidates hmem).1)) hmoves
  | takeOver _ htaken =>
    obtain ⟨reuse, old, state, -, -, hgoto, -⟩ := Machine.takeOver?_spec htaken
    obtain ⟨i, -, hgoto⟩ := Option.bind_eq_some_iff.1 hgoto
    exact absurd (.goto (htable ▸ hgoto)) hmoves
  | reduce hmem hreduced =>
    exact .inr (h.reduce hb hregular.grammatical
      (hregular.grammatical.reduces hregular.faithful htable hmem hreduced))
  | repair hrecover => exact h.recover hregular hrecover

/-- Along a run the two brackets stay where they are, or are united on the way. -/
theorem Faces.run {firstId : Nat} {turns rest : List Turn} (h : b.Faces g x y m.stack)
    (hb : b.Suits g) (hsuits : setting.Suits g rank text)
    (hrun : Run setting (Machine.start text firstId) turns m) (hrest : Run setting m rest m') :
    b.Faces g x y m'.stack ∨ ∃ turns last, Run setting (Machine.start text firstId) turns last ∧
      ∃ u ∈ elements last.stack, u.Unites x y := by
  induction hrest generalizing turns with
  | done m => exact .inl h
  | step hstep _ ih =>
    have hnext := hrun.snoc hstep
    rcases h.step hb (hrun.regular (.start g text firstId) hsuits) hsuits.table_eq hstep with
      hfaces | hunited
    · exact ih hfaces hnext
    · exact .inr ⟨_, _, hnext, hunited⟩

/-- In the tree of a text, two brackets that once faced each other are united. -/
theorem Faces.exists_visit {firstId : Nat} {turns : List Turn} (h : b.Faces g x y m.stack)
    (hb : b.Suits g) (hsuits : setting.Suits g rank text)
    (hrun : Run setting (Machine.start text firstId) turns m) :
    ∃ v ∈ (Tree.parseWith setting text firstId).root.visits, v.element.Unites x y := by
  obtain ⟨turns', m', last, hrun', hstep, -, hparse⟩ := Machine.exists_run hsuits firstId
  obtain ⟨rest, hrest⟩ := hrun.exists_rest hrun' hstep
  rcases h.run hb hsuits hrun hrest with hfaces | ⟨_, _, hlast, u, hu, hunites⟩
  · -- Nothing has united them, so both are below the root.
    obtain ⟨n, fork, rfl⟩ := Machine.eq_looked_of_finished hstep
    have hfaithful : Machine.Faithful text { m'.looked n with forkPending := fork } :=
      ((hrun'.regular (.start g text firstId) hsuits).faithful.looked n).congr rfl rfl
    obtain ⟨id, rest, errors, trivia, hroot, -⟩ := Machine.finish_spec hfaithful.source_at text
    rw [hparse, hroot]
    have hchild {z : Element} (hz : z ∈ elements m'.stack) :
        z ∈ elements ({ m'.looked n with forkPending := fork } : Machine).stack ++ errors ++
          trivia :=
      List.mem_append_left _ (List.mem_append_left _ hz)
    exact ⟨_, List.mem_cons_self, hchild hfaces.mem.1, .inr (hchild hfaces.mem.2)⟩
  · obtain ⟨v, hv, rfl⟩ := hlast.exists_visit hsuits hu
    exact ⟨v, hv, hunites⟩

end Brackets

/-! ## Missing tokens -/

namespace Machine

variable {b : Brackets} {g : Grammar} {rank : Nat → Nat} {text : List Char}
  {first m m' next last asked : Machine} {setting : Setting} {turns rest : List Turn} {kind : Kind}
  {d : Diagnostic} {x : Element} {stack : Stack}

/-- A repair asks for a missing token and reports it, reductions follow, and then the token is read:
the machine in front of the repair and the one behind it all. -/
inductive PutsIn (setting : Setting) (kind : Kind) (d : Diagnostic) (x : Element)
    (asked : Machine) : Machine → Prop where
  | mk {asking reading last : Machine} {entry : Entry} {turns : List Turn} {state : Nat}
      (hasks : asked.step setting = .running asking) (hrepair : (asked.turn setting).2 = .repair)
      (hinjected : asking.injected = some kind)
      (hreported : asking.diagnostics = asked.diagnostics ++ [d])
      (hwaits : Run setting asking turns reading)
      (hreduces : ∀ turn ∈ turns, ∃ reduced, turn = .reduce reduced)
      (hreads : reading.step setting = .running last)
      (hshift : (reading.turn setting).2 = .shift kind state)
      (hstack : last.stack = entry :: reading.stack) (helements : entry.elements = [x]) :
      PutsIn setting kind d x asked last

theorem PutsIn.exists_run (h : PutsIn setting kind d x asked last) :
    ∃ turns, Run setting asked turns last := by
  cases h with
  | mk hasks _ _ _ hwaits _ hreads => exact ⟨_, .step hasks (hwaits.snoc hreads)⟩

theorem Run.trans (h : Run setting first turns m) (hrest : Run setting m rest last) :
    Run setting first (turns ++ rest) last := by
  induction h with
  | done m => exact hrest
  | step hstep _ ih => exact .step hstep (ih hrest)

/-- What has been reported stays reported. -/
theorem diagnostics_grow_of_step (hfaithful : m.Faithful text)
    (hstep : m.step setting = .running next) : m.diagnostics <+: next.diagnostics := by
  obtain ⟨n, fork, heffect⟩ := effect_of_step hstep
  have hfaithful : Faithful text { m.looked n with forkPending := fork } :=
    (hfaithful.looked n).congr rfl rfl
  change ({ m.looked n with forkPending := fork } : Machine).diagnostics <+: _
  generalize { m.looked n with forkPending := fork } = m₁ at heffect hfaithful
  cases heffect with
  | split => exact List.prefix_rfl
  | shift =>
    unfold Machine.shift
    split <;> exact List.prefix_rfl
  | takeOver _ htaken =>
    obtain ⟨_, _, _, -, -, -, rfl⟩ := takeOver?_spec htaken
    exact List.prefix_rfl
  | reduce _ hreduced =>
    obtain ⟨_, _, _, _, _, _, _, -, -, -, -, -, -, -, -, rfl⟩ := reduce?_spec hreduced
    exact List.prefix_rfl
  | repair hrecover =>
    have hrepaired := recover?_repaired setting m₁
    rw [hrecover] at hrepaired
    cases hrepaired with
    | inserted => exact List.prefix_append _ _
    | @skipped n skipped depth repairs diagnostic =>
      have hfaithful : Faithful text { m₁.looked n with injected := none, repairs := repairs } :=
        (hfaithful.looked n).congr rfl rfl
      obtain ⟨_, _, hskips⟩ := skip_skips hfaithful.source_at hfaithful.formed skipped depth
      exact ⟨[diagnostic], congrArg (· ++ [diagnostic]) hskips.frame.2.2.symm⟩

theorem Run.diagnostics_grow (hrun : Run setting m turns m') (hregular : m.Regular g text)
    (hsuits : setting.Suits g rank text) : m.diagnostics <+: m'.diagnostics := by
  induction hrun with
  | done m => exact List.prefix_rfl
  | step hstep _ ih =>
    have hnext := ih (hregular.running hsuits hstep)
    exact (diagnostics_grow_of_step hregular.faithful hstep).trans hnext

theorem Run.diagnostics_subset {firstId : Nat}
    (hrun : Run setting (Machine.start text firstId) turns m) (hsuits : setting.Suits g rank text) :
    m.diagnostics ⊆ (Tree.parseWith setting text firstId).diagnostics := by
  obtain ⟨turns', m', last, hrun', hstep, -, hparse⟩ := exists_run hsuits firstId
  obtain ⟨rest, hrest⟩ := hrun.exists_rest hrun' hstep
  have hfirst : (Machine.start text firstId).Regular g text := .start g text firstId
  have hgrows := hrest.diagnostics_grow (hrun.regular hfirst hsuits) hsuits
  obtain ⟨n, fork, rfl⟩ := eq_looked_of_finished hstep
  have hfaithful : Faithful text { m'.looked n with forkPending := fork } :=
    ((hrun'.regular hfirst hsuits).faithful.looked n).congr rfl rfl
  obtain ⟨_, _, _, _, -, hdiagnostics, -⟩ := finish_spec hfaithful.source_at text
  rw [hparse, hdiagnostics]
  exact hgrows.subset

/-- Where every step keeps the records right, entries know where they start. -/
theorem Run.placed {firstId : Nat} (hrun : Run setting (Machine.start text firstId) turns m)
    (hsuits : setting.Suits g rank text) (hg : g.WellFormed) (hapart : g.NamesApart)
    (hsetting : setting.Recorded) : Stack.Placed 0 m.stack := by
  have hfirst : (Machine.start text firstId).Regular g text := .start g text firstId
  suffices hrecorded : m.Recorded (Table.ofGrammar g) from hrecorded.placed
  refine hrun.invariant (.start _ text firstId) fun {_ m _} hrun hstep h => ?_
  have hnext := h.step (hrun.regular hfirst hsuits) hsuits hg hapart hsetting
  rwa [hstep] at hnext

/-- An element that is alone in its entry is visited in the tree where the entry starts. -/
theorem Run.exists_visit_of_placed {firstId : Nat} {above below : Stack} {e : Entry}
    (hrun : Run setting (Machine.start text firstId) turns m) (hsuits : setting.Suits g rank text)
    (hplaced : Stack.Placed 0 m.stack) (hstack : m.stack = above ++ e :: below)
    (hx : e.elements = [x]) :
    ∃ v ∈ (Tree.parseWith setting text firstId).root.visits, v.element = x ∧ v.start = e.start := by
  rw [hstack, Stack.placed_append_iff] at hplaced
  have hstart : e.start = sizeAll (elements below ++ e.leading) := by
    rw [hplaced.2.1 (by simp [hx]), Nat.zero_add, Element.sizeAll_append]
  have hsplit : elements m.stack = (elements below ++ e.leading) ++ x :: elements above := by
    rw [hstack, elements_append, elements_cons, Entry.content, hx]
    simp
  obtain ⟨v, hv, helement, hv'⟩ := hrun.exists_visit_at hsuits hsplit
  exact ⟨v, hv, helement, hv'.trans hstart.symm⟩

/-- Asking for a missing token leaves the stack as it is. -/
theorem asks_spec (hregular : m.Regular g text) (hstep : m.step setting = .running next)
    (hrepair : (m.turn setting).2 = .repair) (hinjected : next.injected = some kind)
    (hreported : next.diagnostics = m.diagnostics ++ [d]) :
    next.stack = m.stack ∧ d.related = openedAt m.stack kind := by
  obtain ⟨n, fork, hrepaired⟩ := repaired_of_step hstep hrepair
  cases hrepaired with
  | inserted _ _ _ _ _ _ hrelated =>
    obtain rfl := Option.some.inj hinjected
    obtain rfl := List.singleton_inj.1 (List.append_cancel_left hreported)
    exact ⟨rfl, hrelated⟩
  | @skipped n' skipped depth repairs diagnostic =>
    -- After skipping nothing is asked for.
    have hlooked : Faithful text ({ m.looked n with forkPending := fork } : Machine) :=
      (hregular.faithful.looked n).congr rfl rfl
    have hfaithful : Faithful text
        { looked { m.looked n with forkPending := fork } n' with
          injected := none, repairs := repairs } := (hlooked.looked n').congr rfl rfl
    obtain ⟨_, _, hskips⟩ := skip_skips hfaithful.source_at hfaithful.formed skipped depth
    cases hskips.frame.1.symm.trans hinjected

/-- What a step does that takes the turn to reduce. -/
theorem reduces_of_step (hregular : m.Regular g text) (htable : setting.table = Table.ofGrammar g)
    (hstep : m.step setting = .running next) {reduced : Machine}
    (hturn : (m.turn setting).2 = .reduce reduced) :
    ∃ n fork p, Reduces g { m.looked n with forkPending := fork } p next := by
  obtain ⟨n, fork, htakes, hcases⟩ := step_cases setting m
  rw [hturn] at htakes hcases
  rw [hcases] at hstep
  have hregular : Machine.Regular g text { m.looked n with forkPending := fork } :=
    ⟨(hregular.faithful.looked n).congr rfl rfl, hregular.grammatical.congr rfl⟩
  cases htakes with
  | reduce hmem hreduced =>
    cases hstep
    exact ⟨n, fork, _, hregular.grammatical.reduces hregular.faithful htable hmem hreduced⟩

/-- What a step does that takes the turn to read a token, where a missing one is asked for. -/
theorem shiftMissing_of_step (hstep : m.step setting = .running next) {kind' : Kind} {state : Nat}
    (hturn : (m.turn setting).2 = .shift kind' state) (hinjected : m.injected = some kind) :
    .shift state ∈ setting.table.actions m.topState kind' ∧
      ∃ n fork, next = shiftMissing { m.looked n with forkPending := fork } kind' state := by
  obtain ⟨n, fork, htakes, hcases⟩ := step_cases setting m
  rw [hturn] at htakes hcases
  rw [hcases] at hstep
  cases htakes with
  | shift hmem =>
    cases hstep
    exact ⟨(mem_candidates hmem).1, n, fork, if_pos (by simp [looked, hinjected])⟩

end Machine

namespace Brackets

variable {b : Brackets} {g : Grammar} {rank : Nat → Nat} {text : List Char}
  {m m' asked last : Machine} {setting : Setting} {turns : List Turn} {d : Diagnostic} {x : Element}
  {stack : Stack}

theorem uncounted_of_regular (hb : b.Suits g) (hregular : m.Regular g text) :
    ∀ e ∈ m.stack, b.Aside g e → b.Uncounted e := fun e he haside =>
  hregular.grammatical.linked.uncounted hb he (hregular.faithful.formed e he) haside

/-- On a stack where every entry is plain, all brackets are tokens if none of them is missing. -/
theorem held_of_plain (hlinked : stack.Linked g) (hplain : ∀ e ∈ stack, e.Plain g)
    (hpresent : ∀ e ∈ stack, ∀ y kind, e.elements = [y] → y.kind = .missing →
      y.reading? = some kind → b.mem (.terminal kind) = false) : b.Held g stack := by
  intro e he hextra kind haccess hmem
  rcases hplain e he hextra kind haccess with ⟨id, content, helements, -⟩ | ⟨_, _, helements⟩
  · exact ⟨id, content, helements⟩
  · have hreading := hlinked.reading?_eq he ⟨hextra, haccess, helements⟩
    cases hmem.symm.trans (hpresent e he _ kind helements rfl hreading)

/-- Reductions do not change what is found. -/
theorem Held.run (h : b.Held g m.stack) (hb : b.Suits g) (hsuits : setting.Suits g rank text)
    (hregular : m.Regular g text) (hrun : Run setting m turns m')
    (hreduces : ∀ turn ∈ turns, ∃ reduced, turn = .reduce reduced) :
    b.Held g m'.stack ∧ m'.injected = m.injected ∧
      unclosed? b.opener b.closer 0 m'.stack = unclosed? b.opener b.closer 0 m.stack := by
  induction hrun with
  | done m => exact ⟨h, rfl, rfl⟩
  | @step m next last turns hstep hrest ih =>
    obtain ⟨⟨reduced, hturn⟩, hlater⟩ := List.forall_mem_cons.1 hreduces
    obtain ⟨n, fork, p, hnext⟩ := Machine.reduces_of_step hregular hsuits.table_eq hstep hturn
    have hregular' := hregular.running hsuits hstep
    have hheld : b.Held g ({ m.looked n with forkPending := fork } : Machine).stack := h
    obtain ⟨hheld', hfound⟩ := hheld.reduce (n := 0) hb hnext
      (uncounted_of_regular (m := m) hb hregular) (uncounted_of_regular hb hregular')
    obtain ⟨hlast, hinjected, hsame⟩ := ih hheld' hregular' hlater
    refine ⟨hlast, hinjected.trans ?_, hsame.trans hfound⟩
    cases hnext
    rfl

/-- Where a closing bracket is read, the search finds the opening one that it faces. -/
theorem Held.exists_opener {next : List Item} (hheld : b.Held g m.stack) (hb : b.Suits g)
    (hregular : m.Regular g text)
    (hleads : Leads g (g.core m.topState) (.terminal b.closer) next) :
    ∃ above o below id content, m.stack = above ++ o :: below ∧ (∀ e ∈ above, b.Aside g e) ∧
      o.Reads g b.opener (.token id b.opener content) ∧
      unclosed? b.opener b.closer 0 m.stack = some ⟨o.start, o.stop⟩ := by
  obtain ⟨above, o, below, hstack, ho, haccess, habove⟩ :=
    hregular.grammatical.linked.exists_opener_of_leads hb hleads
  obtain ⟨id, content, htoken⟩ := hheld o (by simp [hstack]) ho b.opener haccess mem_opener
  refine ⟨above, o, below, id, content, hstack, habove, ⟨ho, haccess, htoken⟩, ?_⟩
  rw [hstack]
  refine unclosed?_eq hb.ne (fun e he => ?_) htoken
  exact uncounted_of_regular hb hregular e (by simp [hstack, he]) (habove e he)

/-- A missing closing bracket is reported with the place of an opening one, and faces it once it has
been read. -/
theorem Held.putsIn (hheld : b.Held g asked.stack) (hb : b.Suits g)
    (hpair : Machine.openerOf? b.closer = some b.opener) (hsuits : setting.Suits g rank text)
    (hregular : asked.Regular g text) (h : Machine.PutsIn setting b.closer d x asked last) :
    ∃ turns reading above o below id content, Run setting asked turns reading ∧
      reading.stack = above ++ o :: below ∧ o.Reads g b.opener (.token id b.opener content) ∧
      d.related = [⟨Diagnostic.describe b.opener ++ " opened here", ⟨o.start, o.stop⟩⟩] ∧
      d ∈ reading.diagnostics ∧ (∃ id id', x = .node id .missing none [.token id' b.closer []]) ∧
      b.Faces g x (.token id b.opener content) last.stack := by
  cases h with
  | @mk asking reading _ entry turns state hasks hrepair hinjected hreported hwaits hreduces hreads
      hshift hstack helements =>
    obtain ⟨hsame, hrelated⟩ := Machine.asks_spec hregular hasks hrepair hinjected hreported
    have hasking := hregular.running hsuits hasks
    obtain ⟨hheld, hstill, hfound⟩ := (hsame ▸ hheld).run hb hsuits hasking hwaits hreduces
    have hreading := hwaits.regular hasking hsuits
    obtain ⟨haction, n, fork, rfl⟩ :=
      Machine.shiftMissing_of_step hreads hshift (hstill.trans hinjected)
    have hleads := (Table.Moves.shift (hsuits.table_eq ▸ haction)).leads
    obtain ⟨above, o, below, id, content, hsplit, habove, hopener, hspan⟩ :=
      hheld.exists_opener hb hreading hleads
    have hd : d ∈ asking.diagnostics :=
      hreported ▸ List.mem_append_right _ (List.mem_singleton_self d)
    obtain ⟨rfl, -⟩ := List.cons.inj hstack
    refine ⟨_, reading, above, o, below, id, content, .step hasks hwaits, hsplit, hopener, ?_,
      (hwaits.diagnostics_grow hasking hsuits).subset hd,
      ⟨_, _, (List.singleton_inj.1 helements).symm⟩, ?_⟩
    · rw [hfound, hsame] at hspan
      rw [hrelated]
      simp only [Machine.openedAt, hpair, hspan]
    · rw [hstack, hsplit]
      exact .mk (List.forall_mem_nil _) ⟨rfl, Grammar.accessing_of_leads hleads, helements⟩ habove
        hopener

/-- What a missing closing bracket comes to in the tree of a text. -/
theorem exists_united {firstId : Nat} (h : Machine.PutsIn setting b.closer d x asked last)
    (hrun : Run setting (Machine.start text firstId) turns asked) (hb : b.Suits g)
    (hpair : Machine.openerOf? b.closer = some b.opener) (hsuits : setting.Suits g rank text)
    (hg : g.WellFormed) (hapart : g.NamesApart) (hsetting : setting.Recorded)
    (hpresent : ∀ e ∈ asked.stack, ∀ y kind, e.elements = [y] → y.kind = .missing →
      y.reading? = some kind → b.mem (.terminal kind) = false) :
    let t := Tree.parseWith setting text firstId
    d ∈ t.diagnostics ∧ (∃ id id', x = .node id .missing none [.token id' b.closer []]) ∧
      ∃ v ∈ t.root.visits, ∃ w ∈ t.root.visits,
        w.element.isToken = true ∧ w.element.kind = b.opener ∧
        d.related = [⟨Diagnostic.describe b.opener ++ " opened here", ⟨w.start, w.stop⟩⟩] ∧
        v.element.Unites x w.element := by
  have hregular := hrun.regular (.start g text firstId) hsuits
  have hheld := held_of_plain hregular.grammatical.linked (hrun.plain hsuits) hpresent
  obtain ⟨rest, reading, above, o, below, id, content, hreading, hsplit, hopener, hrelated, hd, hx,
    hfaces⟩ := hheld.putsIn hb hpair hsuits hregular h
  have hreading := hrun.trans hreading
  obtain ⟨rest', hlast⟩ := h.exists_run
  obtain ⟨w, hw, helement, hstart⟩ := hreading.exists_visit_of_placed hsuits
    (hreading.placed hsuits hg hapart hsetting) hsplit hopener.elements
  obtain ⟨v, hv, hunites⟩ := hfaces.exists_visit hb hsuits (hrun.trans hlast)
  have hstop : o.stop = w.stop := by
    have hplain := hreading.plain hsuits o (by simp [hsplit]) hopener.extra _ hopener.accessing
    rcases hplain with ⟨_, _, htoken, hstop⟩ | ⟨_, _, hmissing⟩
    · have hsame := List.singleton_inj.1 (hopener.elements.symm.trans htoken)
      obtain ⟨-, -, rfl⟩ := Element.token.inj hsame
      rw [hstop, ← hstart, Visit.stop, helement, Element.size]
    · cases hopener.elements.symm.trans hmissing
  exact ⟨hreading.diagnostics_subset hsuits hd, hx, v, hv, w, hw, by rw [helement]; rfl,
    by rw [helement]; rfl, by rw [hrelated, hstart, hstop], helement ▸ hunites⟩

end Brackets

/-! ## Queries -/

namespace BigQuery

def parentheses : Brackets := ⟨.lParen, .rParen⟩

def squareBrackets : Brackets := ⟨.lBracket, .rBracket⟩

set_option maxRecDepth 100000 in
theorem brackets_test : (match BigQuery.grammar with
    | .ok g => parentheses.test g && squareBrackets.test g
    | .error _ => false) = true := by
  rw [grammar_eq]
  decide +kernel

theorem brackets_suit {g : Grammar} (hgrammar : BigQuery.grammar = .ok g) :
    parentheses.Suits g ∧ squareBrackets.Suits g := by
  have htest := brackets_test
  rw [hgrammar] at htest
  obtain ⟨hround, hsquare⟩ := Bool.and_eq_true_iff.1 htest
  exact ⟨Brackets.suits_of_test hround, Brackets.suits_of_test hsquare⟩

open Tree (Occurs)
open Machine (PutsIn)

/-- A missing `)` or `]` that a repair puts in where no bracket of the pair on the stack was itself
put in. It is reported with the place of an opening bracket, and in the tree of the text both are
children of one node, unless the missing one is in an error. -/
theorem closers_united {setting : Setting} {text : List Char}
    (h : Occurs BigQuery.table setting text) {b : Brackets}
    (hb : b = parentheses ∨ b = squareBrackets) {firstId : Nat} {turns : List Turn}
    {asked last : Machine} {d : Diagnostic} {x : Element}
    (hrun : Run setting (Machine.start text firstId) turns asked)
    (hputs : PutsIn setting b.closer d x asked last)
    (hpresent : ∀ e ∈ asked.stack, ∀ y kind, e.elements = [y] → y.kind = .missing →
      y.reading? = some kind → b.mem (.terminal kind) = false) :
    let t := Tree.parseWith setting text firstId
    d ∈ t.diagnostics ∧ (∃ id id', x = .node id .missing none [.token id' b.closer []]) ∧
      ∃ v ∈ t.root.visits, ∃ w ∈ t.root.visits,
        w.element.isToken = true ∧ w.element.kind = b.opener ∧
        d.related = [⟨Diagnostic.describe b.opener ++ " opened here", ⟨w.start, w.stop⟩⟩] ∧
        v.element.Unites x w.element := by
  obtain ⟨g, hgrammar, htable, hsafe, -⟩ := table_spec
  have hg := Grammar.wellFormed_ofRules hgrammar
  have hapart := Grammar.namesApart_of_isApart (grammar_spec hgrammar).2.1
  have hsuits {setting : Setting} {text : List Char} (h : Occurs BigQuery.table setting text) :
      setting.Suits g (g.rank 8) text := suits htable hsafe h
  have hsetting : setting.Recorded := by
    cases h with
    | scratch => simp [Setting.Recorded]
    | again options hold =>
      rw [htable] at hold ⊢
      exact (hold.recorded hg hapart fun _ _ hoccurs => hsuits (htable ▸ hoccurs)).ofRoot options
  obtain ⟨hround, hsquare⟩ := brackets_suit hgrammar
  rcases hb with rfl | rfl
  · exact Brackets.exists_united hputs hrun hround rfl (hsuits h) hg hapart hsetting hpresent
  · exact Brackets.exists_united hputs hrun hsquare rfl (hsuits h) hg hapart hsetting hpresent

end BigQuery
end SqlTree
