import SqlTree.Proofs.Incremental.Trace

/-!
# Parses without diagnostics

A parse that reports nothing has built every entry of its stack from the lexemes in front of it. So
each node it makes is built again wherever its text comes next in its state, unless the node depends on
a choice, and then it is not taken over.

- `Machine.Joins`    : a reduction where nothing has been repaired
- `Machine.Ends`     : machines from which a parse ends without diagnostics
- `Machine.Traced`   : everything a machine has built was built from the text
- `Tree.allAt_renewed_parseWith` : all nodes of a tree without diagnostics are built again
-/

namespace SqlTree

open Element (AllInAt allInAt_append sizeAll textAll)
open Grammar (quiet)
open Lexemes (Alike Move Phase Reading after ofText)
open Machine (Run candidates elements)

/-- Without the old tree, a setting still suits. -/
theorem Setting.Suits.scratch {g : Grammar} {rank : Nat → Nat} {text : List Char} {setting : Setting}
    (h : setting.Suits g rank text) :
    Setting.Suits g rank text ⟨setting.table, setting.options, none⟩ where
  table_eq := h.table_eq
  truthful reuse hreuse := by cases hreuse
  grammatical reuse hreuse := by cases hreuse
  names := h.names
  tame := h.tame

/-- What is not recorded is never taken over. -/
theorem Element.renewed_of_origin_eq_none {table : Table} {text : List Char} {start : Nat} {e : Element}
    (h : e.origin? = none) : e.Renewed table text start := by
  intro origin horigin
  rw [h] at horigin
  cases horigin

/-! ## What has been built -/

namespace Machine.AllBuilt

variable {P : Nat → Element → Prop} {g : Grammar} {m m' : Machine} {entry : Entry}

theorem push (h : m.AllBuilt P) (hstack : m'.stack = entry :: m.stack)
    (hentry : AllInAt P entry.content (sizeAll (elements m.stack))) : m'.AllBuilt P := by
  unfold AllBuilt
  rw [hstack, elements_cons]
  refine allInAt_append.2 ⟨h, ?_⟩
  rwa [Nat.zero_add]

/-- If a reduction makes a node, that is all that is new. -/
theorem join {base lhs next : Nat} {children : List Entry} {below : Stack} (h : m.AllBuilt P)
    (hstack : m.stack = children.reverse ++ below) (hstack' : m'.stack = entry :: below)
    (hmakes : m.Makes g base lhs (m.joinedEntry next children) entry)
    (hnode : ∀ kind, g.visibleKind? lhs = some kind →
      P (sizeAll (elements below) + sizeAll (m.joinedEntry next children).leading)
        (.node m.nextId kind (some (m.originOf base (m.joinedEntry next children)))
          (m.joinedEntry next children).elements)) : m'.AllBuilt P := by
  have hjoined : elements children.reverse = (m.joinedEntry next children).content :=
    (elements_reverse children).trans (Entry.ofChildren_content next children m.position).symm
  unfold AllBuilt at h ⊢
  rw [hstack, elements_append, hjoined] at h
  rw [hstack', elements_cons]
  obtain ⟨hbelow, hcontent⟩ := allInAt_append.1 h
  refine allInAt_append.2 ⟨hbelow, ?_⟩
  rw [Nat.zero_add] at hcontent ⊢
  cases hmakes with
  | hidden => exact hcontent
  | visible hkind =>
    obtain ⟨hleading, helements⟩ := allInAt_append.1 hcontent
    exact allInAt_append.2 ⟨hleading, ⟨hnode _ hkind, helements⟩, trivial⟩

end Machine.AllBuilt

/-! ## Joining entries -/

namespace Machine

variable {g : Grammar} {rank : Nat → Nat} {text : List Char} {setting : Setting} {calm : List Nat}
  {m m' next : Machine}

theorem peek_of_buffer (hbuffer : m.source.buffer ≠ []) : (m.source.peek 0).2 = m.source := by
  have hlength := List.length_pos_iff.2 hbuffer
  rw [Source.peek_snd, show 0 + 1 - m.source.buffer.length = 0 by omega]
  rfl

/-- The lexeme in front has been looked at as far as it may depend on the text. -/
theorem Faithful.reach_le (h : m.Faithful text) :
    (m.source.ahead 0).reach ≤ (m.source.peek 0).2.examined :=
  calc (m.source.ahead 0).reach ≤ (m.source.ahead 0).stop + Source.readAhead := Lexeme.reach_le _
    _ ≤ (m.source.peek 0).2.examined := h.source_at.front.2.2.2.2

/-- A reduction with no errors among the entries that it joins or on top of them. -/
structure Joins (g : Grammar) (m : Machine) (production : Nat) (rule : Production)
    (children : List Entry) (below : Stack) (state : Nat) (entry : Entry) (m' : Machine) : Prop where
  production_eq : g.productions[production]? = some rule
  stack : m.stack = children.reverse ++ below
  below_ne_nil : below ≠ []
  accessing : children.map (fun e => g.accessing e.state) = rule.rhs.map some
  leads : Item.Leads g (g.core (Stack.topState below)) (.nonterminal rule.lhs) (g.core state)
  goto : (Table.ofGrammar g).goto? (Stack.topState below) rule.lhs = some state
  /-- No node is made of nothing. -/
  ne_nil : g.visibleKind? rule.lhs ≠ none → (m.joinedEntry state children).elements ≠ []
  makes : m.Makes g (Stack.topState below) rule.lhs (m.joinedEntry state children) entry
  next : m' = { m with source := (m.source.peek 0).2, stack := entry :: below, nextId := m'.nextId }

theorem exists_joins {kind : Kind} {production : Nat} (hregular : m.Regular g text)
    (hsuits : setting.Suits g rank text) (hg : g.WellFormed) (hapart : g.NamesApart)
    (hextra : ∀ e ∈ m.stack, e.extra = false)
    (hmem : (kind, .reduce production) ∈ candidates setting.table m.topState m.lookahead)
    (hreduced : m.reduce? setting production = some m') :
    ∃ rule children below state entry, m.Joins g production rule children below state entry m' := by
  obtain ⟨hp, hne, hstack, hextras, -, -, hbelow, -, -, hexpands, haccess, hleads, hmakes, hgoto⟩ :=
    hregular.grammatical.reduces hregular.faithful hsuits.table_eq hmem hreduced
  rename_i rule extras below children entry state nextId
  obtain rfl : extras = [] := by
    refine List.eq_nil_iff_forall_not_mem.2 fun e he => ?_
    have hnot := hextra e (by simp [hstack, he])
    rw [hextras e he] at hnot
    cases hnot
  have hchildren : ∀ e ∈ children, e ∈ m.stack := fun e he => by simp [hstack, he]
  refine ⟨rule, children, below, state, entry, hp, hstack, hbelow, ?_, hleads, hgoto, ?_, hmakes, rfl⟩
  · rwa [List.filter_eq_self.2 fun e he => by simp [hextra e (hchildren e he)]] at haccess
  · exact fun hvisible => hregular.grammatical.joinedEntry_ne_nil hsuits.tame hg hapart hchildren hp
      hne hexpands hvisible state

theorem verdict_of_nil (hnil : candidates setting.table m.topState m.lookahead = [])
    (hkind : (m.source.ahead 0).kind ≠ .shr) : m.verdict setting = .repair := by
  unfold verdict
  rw [hnil]
  simp [hkind]

namespace Joins

variable {production state W : Nat} {rule : Production} {children : List Entry} {below : Stack}
  {entry : Entry} {phase : Phase} {f : Lexemes} {moves : List Move}

theorem frame (h : m.Joins g production rule children below state entry m') :
    m'.stack = entry :: below ∧ m'.source = (m.source.peek 0).2 ∧ m'.injected = m.injected := by
  rw [h.next]
  exact ⟨rfl, rfl, rfl⟩

theorem length_eq (h : m.Joins g production rule children below state entry m') :
    rule.rhs.length = children.length := by
  have hlength := congrArg List.length h.accessing
  simpa using hlength.symm

theorem state_eq (h : m.Joins g production rule children below state entry m') :
    entry.state = state := by
  rw [h.makes.frame.2]
  exact Entry.ofChildren_state _ _ _

theorem shape_eq (h : m.Joins g production rule children below state entry m')
    (hfragile : (m.joinedEntry state children).fragile = false) :
    entry.shape = Entry.wrapped g rule.lhs (Entry.ofChildren state (children.map Entry.shape) 0) := by
  have hjoined : (m.joinedEntry state children).shape =
      Entry.ofChildren state (children.map Entry.shape) 0 := by
    rw [← Entry.shape_ofChildren state children m.position]
    obtain ⟨hfragile, hfork⟩ := Bool.or_eq_false_iff.1 hfragile
    simp only [joinedEntry, Entry.shape, hfragile, hfork, Bool.or_false]
  rw [← hjoined]
  unfold Entry.wrapped
  cases h.makes with
  | hidden hkind => rw [hkind]
  | visible hkind =>
    rw [hkind]
    simp only [Entry.shape, List.map_cons, List.map_nil, Element.shape, Element.shapes_eq_map]

/-- A visible nonterminal stands for a node over what is joined. -/
theorem of_visible (h : m.Joins g production rule children below state entry m') {kind : Kind}
    (hkind : g.visibleKind? rule.lhs = some kind) :
    entry.elements = [.node m.nextId kind
      (some (m.originOf (Stack.topState below) (m.joinedEntry state children)))
      (m.joinedEntry state children).elements] ∧
      entry.fragile = (m.joinedEntry state children).fragile ∧
      entry.start = (m.joinedEntry state children).start := by
  have hmakes := h.makes
  cases hmakes with
  | hidden hnone =>
    rw [hnone] at hkind
    cases hkind
  | visible hsome =>
    obtain rfl := Option.some.inj (hsome.symm.trans hkind)
    exact ⟨rfl, rfl, rfl⟩

/-- The entry is built from what the entries that it joins were built from. -/
theorem traced (h : m.Joins g production rule children below state entry m')
    (hfaithful : m.Faithful text)
    (hchildren : Entry.TracedAll (.ofGrammar g) (m.source.peek 0).2.examined (Stack.topState below) f
      children moves)
    (hahead : m.source.ahead = after moves f)
    (hsole : m.forkPending = false → ∃ kind, candidates (.ofGrammar g) m.topState
      (m.source.ahead 0).kind = [(kind, .reduce production)]) :
    entry.Traced (.ofGrammar g) (m.source.peek 0).2.examined (Stack.topState below) f moves := by
  have hspans := hchildren.spans state m.position
  have hfragile : entry.fragile = (m.joinedEntry state children).fragile := by
    have hmakes := h.makes
    cases hmakes <;> rfl
  have hreplays (hplain : entry.fragile = false) :
      Entry.Replays (.ofGrammar g) (m.source.peek 0).2.examined (Stack.topState below) f entry.shape
        moves := by
    rw [hfragile] at hplain
    rw [h.shape_eq hplain]
    obtain ⟨hplain, hfork⟩ := Bool.or_eq_false_iff.1 hplain
    obtain ⟨kind, hsole⟩ := hsole hfork
    have htop : m.topState =
        (((children.map Entry.shape).map Entry.state).getLast?.getD (Stack.topState below)) := by
      have hstates : (children.map Entry.shape).map Entry.state = children.map Entry.state := by
        rw [List.map_map]
        rfl
      rw [hstates, ← Stack.topState_reverse_append, ← h.stack]
      rfl
    rw [htop, hahead] at hsole
    refine Entry.replays_reduce ?_ h.production_eq ?_ h.goto (fun hvisible => ?_) hsole ?_
    · exact hchildren.replays ((Entry.foldl_join_fragile children _).1 hplain).2
    · rw [List.length_map, h.length_eq]
    · by_contra hnone
      refine h.ne_nil hvisible ((Entry.ofChildren_elements_eq_nil_iff _ _ _).2 fun e he => ?_)
      by_contra hne
      exact hnone ⟨e.shape, List.mem_map_of_mem he, by simpa [Entry.shape] using hne⟩
    · rw [← hahead]
      exact hfaithful.reach_le
  have hmakes := h.makes
  cases hmakes with
  | hidden => exact ⟨⟨hspans.extra, hspans.hasError, hspans.allows, hspans.takes, hspans.idles⟩, hreplays⟩
  | visible hkind =>
    have hne := h.ne_nil (by rw [hkind]; exact Option.some_ne_none _)
    exact ⟨⟨hspans.extra, hspans.hasError, hspans.allows, fun _ => hspans.takes hne,
      fun hnil => absurd hnil (List.cons_ne_nil _ _)⟩, hreplays⟩

/-- What is joined for a nonterminal that cannot begin with `>` begins with something else. -/
theorem begins (h : m.Joins g production rule children below state entry m') (hblunt : g.Blunt calm)
    (hchildren : ∀ e ∈ children, e.Blunt g calm) (hcalm : calm.contains rule.lhs = true) :
    ∃ c, (textAll (m.joinedEntry state children).elements).head? = some c ∧ c ≠ '>' := by
  have hquiet (kind : Kind) (hkind : kind ∈ angles) : quiet kind calm rule.rhs = true :=
    (Grammar.shuns_spec (hblunt.shuns kind hkind) h.production_eq).1 hcalm
  have haccess := h.accessing
  cases hrhs : rule.rhs with
  | nil =>
    rw [hrhs] at hquiet
    cases hquiet .gt List.mem_cons_self
  | cons symbol rest =>
    rw [hrhs, List.map_cons] at haccess
    obtain ⟨first, others, rfl, hfirst, -⟩ := List.map_eq_cons_iff.1 haccess
    have hsymbol (kind : Kind) (hkind : kind ∈ angles) : quiet kind calm [symbol] = true := by
      have hone := hquiet kind hkind
      rw [hrhs] at hone
      cases symbol <;> exact hone
    obtain ⟨c, hc, hne⟩ := hchildren first List.mem_cons_self symbol hfirst hsymbol
    exact ⟨c, Entry.head?_ofChildren state m.position hc, hne⟩

theorem blunt (h : m.Joins g production rule children below state entry m') (hblunt : g.Blunt calm)
    (hchildren : ∀ e ∈ children, e.Blunt g calm) : entry.Blunt g calm := by
  intro symbol haccess hquiet
  rw [h.state_eq, Grammar.accessing_of_leads h.leads] at haccess
  obtain rfl := Option.some.inj haccess
  obtain ⟨c, hc, hne⟩ := h.begins hblunt hchildren (hquiet .gt List.mem_cons_self)
  refine ⟨c, ?_, hne⟩
  have hmakes := h.makes
  cases hmakes with
  | hidden => exact hc
  | visible =>
    rw [Element.textAll_cons, Element.textAll_nil, List.append_nil]
    exact hc

/-- A node that is made is built again wherever it may be taken over. -/
theorem renewed (h : m.Joins g production rule children below state entry m')
    (hfaithful : m.Faithful text) (hrecorded : m.Recorded (.ofGrammar g)) (hapart : g.NamesApart)
    (hblunt : g.Blunt calm) (hchildren : ∀ e ∈ children, e.Blunt g calm)
    (htraced : entry.Traced (.ofGrammar g) (m.source.peek 0).2.examined (Stack.topState below) f moves)
    (hreading : Reading text phase f)
    (hsplit : phase.after moves = .split → candidates (.ofGrammar g) state .shr = [] ∧
      (Table.ofGrammar g).hasAction state .gt = true) {kind : Kind}
    (hkind : g.visibleKind? rule.lhs = some kind) :
    Element.Renewed (.ofGrammar g) text
      (sizeAll (elements below) + sizeAll (m.joinedEntry state children).leading)
      (.node m.nextId kind
        (some (m.originOf (Stack.topState below) (m.joinedEntry state children)))
        (m.joinedEntry state children).elements) := by
  have hstack : m.stack = [] ++ (children.reverse ++ below) := h.stack
  obtain ⟨hstart, hstop⟩ := hrecorded.start_joinedEntry hfaithful hstack
    (h.ne_nil (by rw [hkind]; exact Option.some_ne_none _))
  obtain ⟨c, hc, hne⟩ := h.begins hblunt hchildren (hblunt.visible _ _ hkind)
  obtain ⟨helements, hplace⟩ := h.of_visible hkind
  generalize hjoined : m.joinedEntry state children = joined at *
  intro origin horigin hreusable hsize
  obtain rfl := Option.some.inj horigin
  simp only [originOf, Bool.and_eq_true, Bool.not_eq_true'] at hreusable
  -- In front of the node, the text goes on with what it spells, and that is not `>`.
  obtain ⟨before, rest, hcut, hfront, hphase⟩ := hreading.cut
  obtain ⟨-, -, hsame, -⟩ := htraced.takes (by rw [helements]; exact List.cons_ne_nil _ _)
  have htext : before ++ rest = (Stack.text below ++ textAll joined.leading) ++
      (textAll joined.elements ++ m.source.pending) := by
    have hentry : joined.text = Stack.text children.reverse := by
      rw [← hjoined]
      exact Entry.ofChildren_text state children m.position
    rw [← hcut, ← hfaithful.text_eq, hfaithful.source_at.text_eq, h.stack, Stack.text_append, ← hentry,
      Entry.text]
    simp only [List.append_assoc]
  -- The stack and the stream cut the text in the same place.
  obtain ⟨rfl, rfl⟩ := Text.append_inj htext (by
    rw [← hfront, ← hsame, hplace.2, Text.size_append, Stack.text, Element.size_textAll,
      Element.size_textAll]
    exact hstart)
  obtain ⟨rfl, halike⟩ := hphase.resolve_right fun hhead => by
    rw [List.head?_append, hc] at hhead
    exact hne (Option.some.inj hhead)
  refine ⟨fun hhead => hne (Option.some.inj (hc.symm.trans hhead)), state, moves, ?_, ?_, hsplit⟩
  · exact Option.bind_eq_some_iff.2 ⟨_, hapart.nonterminalOfKind? _ _ hkind, h.goto⟩
  · have hexamined := hfaithful.position_le_examined
    have hwindow : joined.start + (m.originOf (Stack.topState below) joined).lookahead =
        (m.source.peek 0).2.examined := by
      simp only [originOf]
      omega
    rw [← hstart, hwindow, ← hplace.2, hsame, hfront]
    refine ((htraced.replays (hplace.1.trans hreusable.2)).of_headed (fun leaves => ?_)
      (List.cons_ne_nil _ _)).transfer (halike.symm.agrees _) (Nat.le_refl _)
    rw [← h.state_eq]
    exact Entry.headed_ofNode helements htraced.extra htraced.hasError (hplace.1.trans hreusable.2) leaves

end Joins

/-! ## Parses that end without diagnostics -/

/-- From here, a parse comes to its end without any diagnostics. -/
def Ends (setting : Setting) (m : Machine) : Prop :=
  ∃ turns stopped last, Run setting m turns stopped ∧ stopped.step setting = .finished last ∧
    last.diagnostics = []

theorem Ends.running (h : m.Ends setting) (hstep : m.step setting = .running next) :
    next.Ends setting := by
  obtain ⟨turns, stopped, last, hrun, hend, hnone⟩ := h
  cases hrun with
  | done =>
    rw [hstep] at hend
    cases hend
  | step hstep' hrun =>
    obtain rfl := Progress.running.inj (hstep'.symm.trans hstep)
    exact ⟨_, stopped, last, hrun, hend, hnone⟩

theorem Ends.of_run {turns : List Turn} (hrun : Run setting m turns m') (h : m'.Ends setting) :
    m.Ends setting := by
  obtain ⟨more, stopped, last, hrest, hend, hnone⟩ := h
  exact ⟨_, stopped, last, hrun.trans hrest, hend, hnone⟩

theorem Ends.diagnostics_eq_nil (h : m.Ends setting) (hregular : m.Regular g text)
    (hsuits : setting.Suits g rank text) : m.diagnostics = [] := by
  obtain ⟨turns, stopped, last, hrun, hend, hnone⟩ := h
  obtain ⟨n, fork, rfl⟩ := eq_looked_of_finished hend
  have hgrow := hrun.diagnostics_grow hregular hsuits
  have hstopped : stopped.diagnostics = [] := hnone
  rw [hstopped] at hgrow
  exact List.prefix_nil.1 hgrow

/-- Nothing is repaired. -/
theorem Ends.not_repairs (h : m.Ends setting) (hregular : m.Regular g text)
    (hsuits : setting.Suits g rank text) {m' : Machine}
    (hstep : m.step setting = m'.repairOrEnd setting) : m'.recover? setting = none := by
  unfold repairOrEnd at hstep
  cases hrecover : m'.recover? setting with
  | none => rfl
  | some next =>
    rw [hrecover] at hstep
    have hnone := (h.running hstep).diagnostics_eq_nil (hregular.running hsuits hstep) hsuits
    exact absurd hnone (diagnostics_ne_nil_of_recover hrecover)

theorem Ends.verdict_ne_repair (h : m.Ends setting) (hregular : m.Regular g text)
    (hsuits : setting.Suits g rank text) (huntroubled : m.Untroubled) :
    m.verdict setting ≠ .repair := by
  intro hverdict
  obtain ⟨n, -, hstep⟩ := step_verdict setting m
  rw [hverdict] at hstep
  have hnone : (m.looked n).recover? setting = none := h.not_repairs hregular hsuits hstep
  have hend : m.step setting = .finished (m.looked n) := by
    rw [hstep, enforce, repairOrEnd, hnone]
  obtain ⟨kind, hmem⟩ := huntroubled.accepts hend
  obtain ⟨only, kind, action, hact⟩ := exists_of_candidates_ne_nil (List.ne_nil_of_mem hmem)
  rw [hverdict] at hact
  cases hact

/-! ## What a machine has built -/

/-- The entries on the stack were built from the text up to what is in front. They begin with `>` only
where their symbols can, and all nodes are built again. -/
structure Traced (g : Grammar) (calm : List Nat) (text : List Char) (m : Machine) : Prop where
  built : ∃ phase f, Stack.Traced (.ofGrammar g) m.source.examined text m.stack phase f ∧
    m.Follows (.ofGrammar g) f ∧
    (phase = .split → candidates (.ofGrammar g) m.topState .shr = [])
  blunt : ∀ e ∈ m.stack, e.Blunt g calm
  renewed : m.AllBuilt (Element.Renewed (.ofGrammar g) text)

theorem Traced.start (g : Grammar) (calm : List Nat) (text : List Char) (firstId : Nat) :
    (Machine.start text firstId).Traced g calm text where
  built := by
    have hahead : (Machine.start text firstId).source.ahead = ofText text (Text.size []) :=
      Source.ahead_ofText_eq text
    exact ⟨.whole, _, .bottom (.whole rfl), .same hahead, fun hsplit => by cases hsplit⟩
  blunt e he symbol haccess := by
    obtain rfl := List.mem_singleton.1 he
    cases g.accessing_zero.symm.trans haccess
  renewed := trivial

theorem Follows.congr {table : Table} {f : Lexemes} (h : m.Follows table f)
    (hahead : m'.source.ahead = m.source.ahead) (htop : m'.topState = m.topState) :
    m'.Follows table f := by
  cases h with
  | same h => exact .same (hahead.trans h)
  | late hhalves hkind hnil hgt =>
    rw [← hahead] at hhalves hkind
    rw [← htop] at hnil hgt
    exact .late hhalves hkind hnil hgt

theorem Traced.congr (h : m.Traced g calm text) (hstack : m'.stack = m.stack)
    (hahead : m'.source.ahead = m.source.ahead) (hexamined : m.source.examined ≤ m'.source.examined) :
    m'.Traced g calm text := by
  obtain ⟨⟨phase, f, hbuilt, hfollows, hsplit⟩, hblunt, hrenewed⟩ := h
  have htop : m'.topState = m.topState := by rw [topState, hstack, topState]
  refine ⟨⟨phase, f, ?_, hfollows.congr hahead htop, htop ▸ hsplit⟩, hstack ▸ hblunt, ?_⟩
  · rw [hstack]
    exact hbuilt.mono hexamined
  · unfold AllBuilt
    rw [hstack]
    exact hrenewed

theorem Traced.ready (h : m.Traced g calm text) (only : Bool) (n : Nat) :
    (m.ready only n).Traced g calm text :=
  h.congr rfl (ready_ahead m only n) (Source.examined_le_fetchMany m.source n)

/-- What acts on the lexeme in front has it in front as it was read. -/
theorem Traced.exists_reading (h : m.Traced g calm text)
    (hne : candidates (.ofGrammar g) m.topState (m.source.ahead 0).kind ≠ []) :
    ∃ phase, Stack.Traced (.ofGrammar g) m.source.examined text m.stack phase m.source.ahead ∧
      (phase = .split → candidates (.ofGrammar g) m.topState .shr = []) := by
  obtain ⟨phase, f, hbuilt, hfollows, hsplit⟩ := h.built
  cases hfollows with
  | same hahead => exact ⟨phase, hahead ▸ hbuilt, hsplit⟩
  | late _ hkind hnil _ =>
    rw [hkind] at hne
    exact absurd hnil hne

/-! ### Steps -/

/-- Splitting a `>>` adds to what the last entry was built from. -/
theorem Traced.split (h : m.Traced g calm text) (hfaithful : m.Faithful text)
    (htable : setting.table = .ofGrammar g) (hverdict : m.verdict setting = .split)
    (hbuffer : m.source.buffer ≠ []) :
    Machine.Traced g calm text { m with source := m.source.splitShift } := by
  obtain ⟨hnil, hinjected, hkind, hgt⟩ := of_verdict_split hverdict
  have hlookahead : m.lookahead = .shr := by
    rw [lookahead, hinjected, ← hkind]
    rfl
  rw [hlookahead, htable] at hnil
  rw [htable] at hgt
  have hahead := Source.ahead_splitShift_of_shr hbuffer hkind
  obtain ⟨phase, f, hbuilt, hfollows, hsplit⟩ := h.built
  refine ⟨?_, h.blunt, h.renewed⟩
  cases hfollows with
  | same hsame =>
    subst hsame
    have hreach := hfaithful.reach_le
    rw [peek_of_buffer hbuffer] at hreach
    have hhalves := hbuilt.split hkind (hfaithful.sound.text_of_shr hkind) hnil hgt hreach
    exact ⟨.split, _, hhalves.mono (Nat.le_of_eq (Source.examined_splitShift _).symm), .same hahead,
      fun _ => hnil⟩
  | late hhalves =>
    exact ⟨phase, f, hbuilt.mono (Nat.le_of_eq (Source.examined_splitShift _).symm),
      .same (hahead.trans hhalves), hsplit⟩

/-- A new entry on top, built from what was in front. -/
theorem Traced.push {entry : Entry} {phase : Phase} {f : Lexemes} (h : m.Traced g calm text)
    (moves : List Move)
    (hbuilt : Stack.Traced (.ofGrammar g) next.source.examined text m.stack phase f)
    (hstack : next.stack = entry :: m.stack)
    (hentry : entry.Traced (.ofGrammar g) next.source.examined m.topState f moves)
    (hfollows : next.Follows (.ofGrammar g) (after moves f))
    (hsplit : phase.after moves = .split → candidates (.ofGrammar g) entry.state .shr = [])
    (hblunt : entry.Blunt g calm)
    (hrenewed : AllInAt (Element.Renewed (.ofGrammar g) text) entry.content
      (sizeAll (elements m.stack))) : next.Traced g calm text where
  built := by
    refine ⟨_, _, hstack ▸ hbuilt.push hentry, hfollows, ?_⟩
    rw [topState, hstack]
    exact hsplit
  blunt := hstack ▸ List.forall_mem_cons.2 ⟨hblunt, h.blunt⟩
  renewed := h.renewed.push hstack hrenewed

theorem isContextual_of_mem_angles {kind : Kind} (h : kind ∈ angles) : kind.isContextual = false := by
  simp only [angles, List.mem_cons, List.not_mem_nil, or_false] at h
  rcases h with rfl | rfl | rfl <;> rfl

/-- A token that begins with `>` is read only as what it is. -/
theorem candidates_of_mem_angles {table : Table} {state : Nat} {kind : Kind} (h : kind ∈ angles) :
    candidates table state kind = (table.actions state kind).map (kind, ·) := by
  unfold candidates
  rw [isContextual_of_mem_angles h]
  exact List.append_nil _

/-- A token begins with `>` only where it is read as one that does. -/
theorem blunt_tokenEntry {kind : Kind} {state : Nat} (hsound : (m.source.ahead 0).Sound)
    (heof : (m.source.ahead 0).kind ≠ .eof) {phase : Phase} (hreading : Reading text phase m.source.ahead)
    (hkind : kind = (m.source.ahead 0).kind ∨
      (kind = .ident ∧ (m.source.ahead 0).kind.isContextual = true))
    (haccess : g.accessing state = some (.terminal kind)) : (m.tokenEntry kind state).Blunt g calm := by
  intro symbol haccess' hquiet
  obtain rfl := Option.some.inj (haccess.symm.trans haccess')
  have htext : textAll (m.tokenEntry kind state).elements = (m.source.ahead 0).text :=
    List.append_nil _
  rw [htext]
  cases hhead : (m.source.ahead 0).text.head? with
  | none => exact absurd (hsound.text_eq_nil_iff.1 (List.head?_eq_none_iff.1 hhead)) heof
  | some c =>
    refine ⟨c, rfl, ?_⟩
    rintro rfl
    have hmem := hreading.mem_angles hhead
    rcases hkind with rfl | ⟨-, hcontextual⟩
    · have hquiet := hquiet _ hmem
      simp [quiet] at hquiet
    · rw [isContextual_of_mem_angles hmem] at hcontextual
      cases hcontextual

theorem renewed_of_tokens {table : Table} {es : List Element} (h : ∀ x ∈ es, x.isToken = true)
    (start : Nat) : AllInAt (Element.Renewed table text) es start := by
  induction es generalizing start with
  | nil => trivial
  | cons x es ih =>
    obtain ⟨hx, hes⟩ := List.forall_mem_cons.1 h
    refine ⟨?_, ih hes _⟩
    cases x with
    | token => exact Element.renewed_of_origin_eq_none rfl
    | node => cases hx

theorem Traced.shiftToken {kind : Kind} {state : Nat} (h : m.Traced g calm text)
    (hfaithful : m.Faithful text) (hinjected : m.injected = none)
    (heof : (m.source.ahead 0).kind ≠ .eof)
    (hmem : (kind, .shift state) ∈ candidates (.ofGrammar g) m.topState m.lookahead)
    (hsole : m.forkPending = false →
      candidates (.ofGrammar g) m.topState m.lookahead = [(kind, .shift state)]) :
    (m.shiftToken kind state).Traced g calm text := by
  have hlookahead : m.lookahead = (m.source.ahead 0).kind := by
    rw [lookahead, hinjected]
    rfl
  rw [hlookahead] at hmem hsole
  obtain ⟨phase, hbuilt, -⟩ := h.exists_reading (List.ne_nil_of_mem hmem)
  obtain ⟨haction, hkind⟩ := mem_candidates hmem
  have haccess := Grammar.accessing_of_leads (Table.leads_of_shift haction)
  have hreach := hfaithful.reach_le
  rw [shiftToken_eq]
  refine h.push [.take] (hbuilt.mono (Source.examined_le_bump _)) rfl ?_ ?_ ?_ ?_ ?_
  · refine ⟨⟨rfl, rfl, trivial, fun _ => ?_, fun hnil => absurd hnil (List.cons_ne_nil _ _)⟩, ?_⟩
    · exact ⟨List.mem_cons_self, hreach, rfl, shapes_newTokens m _⟩
    · intro hfork
      have hfork : m.forkPending = false := hfork
      rw [shape_tokenEntry, hfork]
      exact Entry.replays_token (hsole hfork) hreach
  · exact .same (Source.ahead_bump_eq _)
  · intro hsplit
    cases phase <;> cases hsplit
  · exact blunt_tokenEntry hfaithful.sound heof hbuilt.reading hkind haccess
  · exact renewed_of_tokens (isToken_of_mem_tokenEntry m kind state) _

/-- What is taken over begins with a character, which is not `>`. -/
theorem TakesOver.begins {table : Table} {taken : Machine} {old : Element} {next : Nat}
    {moves : List Lexemes.Move} (h : m.TakesOver table text taken old next moves) :
    ∃ c, old.text.head? = some c ∧ c ≠ '>' := by
  have hpos := h.renews.size_pos
  have hblunt := h.blunt
  rw [← Element.size_text] at hpos
  cases hhead : old.text with
  | nil =>
    rw [hhead] at hpos
    exact absurd hpos (Nat.lt_irrefl 0)
  | cons c rest =>
    rw [hhead] at hblunt
    exact ⟨c, rfl, fun hc => hblunt (congrArg some hc)⟩

theorem Traced.takeOver {kind : Kind} {state : Nat} {taken : Machine} (h : m.Traced g calm text)
    (hregular : m.Regular g text) (hsuits : setting.Suits g rank text) (hrenews : setting.Renews text)
    (hinjected : m.injected = none) (hfork : m.forkPending = false) (hbuffer : m.source.buffer ≠ [])
    (hverdict : m.verdict setting = .act true kind (.shift state))
    (htaken : m.takeOver? setting m.topState = some taken) : taken.Traced g calm text := by
  have hmem := mem_of_verdict hverdict
  have hlookahead : m.lookahead = (m.source.ahead 0).kind := by
    rw [lookahead, hinjected]
    rfl
  rw [hsuits.table_eq, hlookahead] at hmem
  obtain ⟨phase, hbuilt, -⟩ := h.exists_reading (List.ne_nil_of_mem hmem)
  obtain ⟨old, next, moves, htakes⟩ := exists_takesOver ⟨phase, hbuilt.reading⟩ hregular.faithful
    hsuits.truthful hrenews htaken
  -- Without the old tree the node would be built here, which tells where reading goes on.
  have hplace : (after moves m.source.ahead 0).fullStart = (m.source.ahead 0).start + old.size := by
    have hsame : m.verdict ⟨setting.table, setting.options, none⟩ = .act true kind (.shift state) := by
      rw [← hverdict]
      exact verdict_congr ⟨rfl, rfl⟩ rfl rfl rfl
    obtain ⟨turns, p, -, hgrown, hplace⟩ := exists_rebuilt rfl hregular hsuits.scratch hinjected hfork
      ⟨kind, state, hsame⟩ htakes.replays (.refl _ 0 _)
    rwa [hgrown.ahead] at hplace
  have hallows := htakes.replays.allows
  have htake := htakes.replays.takes (List.cons_ne_nil _ _)
  have hreach := hregular.faithful.reach_le
  rw [peek_of_buffer hbuffer] at hreach
  have hreplays := htakes.replays
  have hrenewed := htakes.renews.renewed
  have hsplit := htakes.split
  rw [hsuits.table_eq] at hreplays hrenewed hsplit
  -- So the entry stands in for one that was built from the lexemes of the node.
  refine h.push moves (hbuilt.mono htakes.examined) htakes.stack ?_ ?_ (fun hphase => ?_) ?_ ?_
  · refine ⟨⟨rfl, rfl, hallows, fun _ => ?_, fun hnil => absurd hnil (List.cons_ne_nil _ _)⟩, fun _ => ?_⟩
    · exact ⟨htake, hreach.trans htakes.examined, rfl, shapes_newTokens m _⟩
    · refine hreplays.of_headed (fun leaves => ?_) (List.cons_ne_nil _ _)
      exact (Entry.headed_ofNode (e := m.oldEntry old next) rfl rfl rfl rfl leaves).symm
  · refine follows_of_reading (htakes.reading.after hallows) ?_ ?_ ?_
    · rw [hplace, htakes.ahead]
    · rw [hplace]
      exact htakes.renews.apart
    · rw [topState, htakes.stack]
      exact hsplit
  · exact (hsplit (Phase.after_eq_split (List.ne_nil_of_mem htake) hphase)).1
  · intro symbol _ _
    have htext : textAll (m.oldEntry old next).elements = old.text := List.append_nil _
    rw [htext]
    exact htakes.begins
  · refine allInAt_append.2 ⟨renewed_of_tokens (isToken_newTokens m _) _, ?_, trivial⟩
    have hstart : sizeAll (elements m.stack) + sizeAll (m.oldEntry old next).leading =
        (m.source.ahead 0).start := hregular.faithful.start_eq.symm
    rwa [hstart]

/-- Where a `>>` means nothing and a `>` completes something, the `>>` means nothing behind it. -/
theorem Joins.candidates_shr {production state : Nat} {rule : Production} {children : List Entry}
    {below : Stack} {entry : Entry} {kind : Kind}
    (h : m.Joins g production rule children below state entry next) (hangular : g.Angular)
    (hmem : (kind, .reduce production) ∈ candidates (.ofGrammar g) m.topState .gt)
    (hnil : candidates (.ofGrammar g) m.topState .shr = []) :
    candidates (.ofGrammar g) state .shr = [] := by
  have hshr (state : Nat) : candidates (.ofGrammar g) state .shr = [] ↔
      (Table.ofGrammar g).actions state .shr = [] := by
    rw [candidates_of_mem_angles (by simp [angles]), List.map_eq_nil_iff]
  rw [candidates_of_mem_angles List.mem_cons_self] at hmem
  obtain ⟨action, haction, heq⟩ := List.mem_map.1 hmem
  obtain ⟨-, rfl⟩ := Prod.mk.inj heq
  apply (hshr state).2
  exact hangular _ _ _ _ _ haction ((hshr _).1 hnil) h.production_eq h.leads

/-- A machine with a `>` in front that needs no repair reads it, since it cannot be split. -/
theorem hasAction_of_verdict (hinjected : m.injected = none) (hkind : (m.source.ahead 0).kind = .gt)
    (hgoes : m.verdict setting ≠ .repair) : setting.table.hasAction m.topState .gt = true := by
  by_contra hnot
  have hnil : setting.table.actions m.topState .gt = [] := by
    simpa [Table.hasAction] using hnot
  have hlookahead : m.lookahead = .gt := by
    rw [lookahead, hinjected]
    exact hkind
  apply hgoes
  apply verdict_of_nil
  · rw [hlookahead, candidates_of_mem_angles List.mem_cons_self, hnil]
    rfl
  · rw [hkind]
    exact fun h => by cases h

theorem Traced.reduce {kind : Kind} {production : Nat} (h : m.Traced g calm text)
    (hregular : m.Regular g text) (hsuits : setting.Suits g rank text) (hg : g.WellFormed)
    (hapart : g.NamesApart) (hangular : g.Angular) (hblunt : g.Blunt calm)
    (hrecorded : m.Recorded (.ofGrammar g)) (huntroubled : m.Untroubled)
    (hmem : (kind, .reduce production) ∈ candidates (.ofGrammar g) m.topState m.lookahead)
    (hsole : m.forkPending = false →
      candidates (.ofGrammar g) m.topState m.lookahead = [(kind, .reduce production)])
    (hreduced : m.reduce? setting production = some next) (hgoes : next.verdict setting ≠ .repair) :
    next.Traced g calm text := by
  have hmem' := hmem
  rw [← hsuits.table_eq] at hmem'
  obtain ⟨rule, children, below, state, entry, hjoins⟩ :=
    exists_joins hregular hsuits hg hapart huntroubled.extra hmem' hreduced
  have hlookahead : m.lookahead = (m.source.ahead 0).kind := by
    rw [lookahead, huntroubled.injected]
    rfl
  rw [hlookahead] at hmem hsole
  obtain ⟨phase, hbuilt, hsplit⟩ := h.exists_reading (List.ne_nil_of_mem hmem)
  have hstack := hbuilt.mono (Source.examined_le_peek m.source 0)
  rw [hjoins.stack] at hstack
  obtain ⟨before, f, moves, hbelow, hchildren, rfl, hahead⟩ := hstack.of_append hjoins.below_ne_nil
  rw [List.reverse_reverse] at hchildren
  have htraced := hjoins.traced hregular.faithful hchildren hahead fun hfork => ⟨kind, hsole hfork⟩
  obtain ⟨hstack', hsource, hinjected⟩ := hjoins.frame
  have htop : next.topState = state := by
    rw [topState, hstack', ← hjoins.state_eq]
    rfl
  have hahead' : next.source.ahead = m.source.ahead := by
    rw [hsource]
    exact funext fun i => Source.ahead_peek _ _ _
  have hafter : before.after moves = .split → candidates (.ofGrammar g) state .shr = [] ∧
      (Table.ofGrammar g).hasAction state .gt = true := by
    intro hphase
    have hhalf : (m.source.ahead 0).kind = .gt := by
      have hreading := hbuilt.reading
      rw [hphase] at hreading
      exact hreading.kind_of_split
    rw [hhalf] at hmem
    refine ⟨hjoins.candidates_shr hangular hmem (hsplit hphase), ?_⟩
    -- The parse goes on behind the reduction.
    have hgt := hasAction_of_verdict (hinjected.trans huntroubled.injected) (by rw [hahead', hhalf])
      hgoes
    rwa [hsuits.table_eq, htop] at hgt
  have hin : ∀ e ∈ children, e.Blunt g calm := fun e he => h.blunt e (by simp [hjoins.stack, he])
  refine ⟨⟨before.after moves, _, ?_, .same (hahead'.trans hahead), ?_⟩, ?_, ?_⟩
  · rw [hstack', hsource]
    exact hbelow.push htraced
  · rw [htop]
    exact fun hphase => (hafter hphase).1
  · rw [hstack']
    refine List.forall_mem_cons.2 ⟨hjoins.blunt hblunt hin, fun e he => h.blunt e ?_⟩
    rw [hjoins.stack]
    exact List.mem_append_right _ he
  · exact h.renewed.join hjoins.stack hstack' hjoins.makes fun kind hkind =>
      hjoins.renewed hregular.faithful hrecorded hapart hblunt hin htraced hbelow.reading hafter hkind

/-! ### Runs -/

variable (hsuits : setting.Suits g rank text) (hg : g.WellFormed) (hapart : g.NamesApart)
  (hangular : g.Angular) (hblunt : g.Blunt calm) (hrenews : setting.Renews text)

include hsuits hg hapart hangular hblunt hrenews

/-- As long as a parse ends without diagnostics, everything it builds is built from the text. -/
theorem Traced.step (h : m.Traced g calm text) (hregular : m.Regular g text)
    (hrecorded : m.Recorded (.ofGrammar g)) (huntroubled : m.Untroubled)
    (hstep : m.step setting = .running next) (hends : next.Ends setting) : next.Traced g calm text := by
  have hregular' := hregular.running hsuits hstep
  have hnone := hends.diagnostics_eq_nil hregular' hsuits
  have huntroubled' : next.Untroubled := Untroubled.running hstep (fun _ => huntroubled) hnone
  have hgoes := hends.verdict_ne_repair hregular' hsuits huntroubled'
  have hready (only : Bool) (n : Nat) : (m.ready only n).Regular g text :=
    ⟨(hregular.faithful.looked n).congr rfl rfl, hregular.grammatical.congr rfl⟩
  have hverdict (only : Bool) (n : Nat) : (m.ready only n).verdict setting = m.verdict setting :=
    verdict_congr (.refl setting) rfl (ready_ahead m only n) rfl
  -- An action that does not depend on a choice was the only one.
  have hsole {only : Bool} {n : Nat} {kind : Kind} {action : Action}
      (hact : m.verdict setting = .act only kind action) :
      (kind, action) ∈ candidates (.ofGrammar g) (m.ready only n).topState (m.ready only n).lookahead ∧
        ((m.ready only n).forkPending = false →
          candidates (.ofGrammar g) (m.ready only n).topState (m.ready only n).lookahead =
            [(kind, action)]) := by
    rw [← hsuits.table_eq]
    rw [← hverdict only n] at hact
    refine ⟨mem_of_verdict hact, fun hfork => ?_⟩
    have honly : only = true := by
      have hnot := (Bool.or_eq_false_iff.1 hfork).2
      simpa using hnot
    subst honly
    exact candidates_of_verdict hact
  have houtcome := step_outcome setting m huntroubled.injected
  generalize hprogress : m.step setting = progress at houtcome
  rw [hstep] at hprogress
  cases houtcome with
  | @split n hsplit hbuffer =>
    obtain rfl := Progress.running.inj hprogress
    have hlooked := h.ready true n
    have hsplit' := hverdict true n
    have hfaithful := (hready true n).faithful
    rw [ready_true] at hlooked hsplit' hfaithful
    exact hlooked.split hfaithful hsuits.table_eq (hsplit'.trans hsplit) hbuffer
  | @shift n only kind state hact hbuffer =>
    obtain rfl := Progress.running.inj hprogress
    obtain ⟨hmem, hsole⟩ := hsole (n := n) hact
    have hmem' := hmem
    rw [← hsuits.table_eq] at hmem'
    have hinjected : (m.ready only n).injected = none := huntroubled.injected
    have heof := kind_ne_eof_of_shift hsuits.table_eq hsuits.tame hinjected hmem'
    exact (h.ready only n).shiftToken (hready only n).faithful hinjected heof hmem hsole
  | @takeOver n kind state taken hact hbuffer hfork htaken =>
    obtain rfl := Progress.running.inj hprogress
    have hlooked := h.ready true n
    have hact' := hverdict true n
    have hregular := hready true n
    rw [ready_true] at hlooked hact' hregular
    exact hlooked.takeOver hregular hsuits hrenews huntroubled.injected hfork hbuffer
      (hact'.trans hact) htaken
  | @reduce n only kind production reduced hact hbuffer hreduced =>
    obtain rfl := Progress.running.inj hprogress
    obtain ⟨hmem, hsole⟩ := hsole (n := n) hact
    exact (h.ready only n).reduce (hready only n) hsuits hg hapart hangular hblunt
      (hrecorded.congr rfl (Source.examined_le_fetchMany _ _)) (huntroubled.congr rfl rfl rfl) hmem
      hsole hreduced hgoes
  | accept => cases hprogress
  | repair m' =>
    have hrepair : m.step setting = m'.repairOrEnd setting := hstep.trans hprogress
    have hquiet := (hends.of_run (.step hstep (.done _))).not_repairs hregular hsuits hrepair
    rw [hrepair, repairOrEnd, hquiet] at hstep
    cases hstep

theorem Run.traced {turns : List Turn} (hrun : Run setting m turns m') (h : m.Traced g calm text)
    (hregular : m.Regular g text) (hrecorded : m.Recorded (.ofGrammar g)) (huntroubled : m.Untroubled)
    (hsetting : setting.Recorded) (hends : m'.Ends setting) : m'.Traced g calm text := by
  induction hrun with
  | done => exact h
  | @step m next last turns hstep hrest ih =>
    have hregular' := hregular.running hsuits hstep
    have hnext := hends.of_run hrest
    have hnone := hnext.diagnostics_eq_nil hregular' hsuits
    have hrecorded' := hrecorded.step hregular hsuits hg hapart hsetting
    rw [hstep] at hrecorded'
    exact ih (h.step hsuits hg hapart hangular hblunt hrenews hregular hrecorded huntroubled hstep hnext)
      hregular' hrecorded' (Untroubled.running hstep (fun _ => huntroubled) hnone) hends

end Machine

/-! ## Trees -/

namespace Tree

variable {g : Grammar} {rank : Nat → Nat} {text : List Char} {setting : Setting} {calm : List Nat}

/-- A parse that reports nothing makes only nodes that are built again, if that holds of those that it
takes over. -/
theorem allAt_renewed_parseWith (hsuits : setting.Suits g rank text) (hg : g.WellFormed)
    (hapart : g.NamesApart) (hangular : g.Angular) (hblunt : g.Blunt calm)
    (hrenews : setting.Renews text) (hsetting : setting.Recorded) (firstId : Nat)
    (hnone : (parseWith setting text firstId).diagnostics = []) :
    (parseWith setting text firstId).root.AllAt (Element.Renewed (.ofGrammar g) text) 0 := by
  obtain ⟨turns, m, last, hrun, hstep, -, hparse⟩ := Machine.exists_run hsuits firstId
  have hregular := hrun.regular (.start g text firstId) hsuits
  obtain ⟨n, fork, hlast⟩ := Machine.eq_looked_of_finished hstep
  have hfaithful : last.Faithful text := by
    rw [hlast]
    exact (hregular.faithful.looked n).congr rfl rfl
  obtain ⟨id, rest, errors, trivia, hroot, hdiagnostics, herrors, -, -, htokens, htrivia⟩ :=
    Machine.finish_spec hfaithful.source_at text
  rw [hparse] at hnone ⊢
  have hends : m.Ends setting := ⟨[], m, last, .done m, hstep, hdiagnostics ▸ hnone⟩
  have htraced := hrun.traced hsuits hg hapart hangular hblunt hrenews (.start g calm text firstId)
    (.start g text firstId) (.start _ text firstId) (.start text firstId) hsetting hends
  have hbuilt : AllInAt (Element.Renewed (.ofGrammar g) text) (elements last.stack) 0 := by
    rw [hlast]
    exact htraced.renewed
  rw [hroot]
  refine ⟨Element.renewed_of_origin_eq_none rfl, ?_⟩
  -- Neither what is left of the text nor the trivia at its end is recorded.
  refine allInAt_append.2 ⟨allInAt_append.2 ⟨hbuilt, ?_⟩, Machine.renewed_of_tokens ?_ _⟩
  · rcases herrors with ⟨-, rfl⟩ | ⟨id, rfl⟩
    · trivial
    · refine ⟨⟨Element.renewed_of_origin_eq_none rfl, Machine.renewed_of_tokens ?_ _⟩, trivial⟩
      intro x hx
      obtain ⟨id, kind, text, rfl⟩ := htokens x hx
      rfl
  · intro x hx
    obtain ⟨id, kind, text, rfl, -⟩ := htrivia x hx
    rfl

end Tree
end SqlTree
