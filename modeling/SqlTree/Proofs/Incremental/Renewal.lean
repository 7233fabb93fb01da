import SqlTree.Proofs.Closers
import SqlTree.Proofs.Incremental.Rebuilding
import SqlTree.Proofs.Incremental.Twin

/-!
# Taking over is building again

A node can be renewed if all machines that come to its text in its state build it again, as far as its
text and what was looked at behind it are the same. Where all nodes of the old tree that may be taken
over can be renewed, a parse that takes over old nodes goes on beside one from scratch, and it is at
most one split of a `>>` behind.

- `Element.Renewed`    : nodes that are built again wherever they may be taken over
- `Machine.TakesOver`  : what a machine does that takes over such a node
- `Machine.Follows`    : machines that are in the same place, or one split apart
- `Machine.Twin.takeOver` : what one machine takes over, the other builds
- `Tree.parseWith_renewed` : both parses lead to the same tree
-/

namespace SqlTree

open Machine (candidates Run Twin)
open Lexemes (Agrees Alike Phase Reading Separate ofText)

/-! ## Texts around an edit -/

namespace Text

variable {n : Nat} {a b w : List Char}

theorem Agree.of_append (h : Agree n a (w ++ b)) (hw : size w ≤ n) :
    ∃ rest, a = w ++ rest ∧ Agree (n - size w) rest b := by
  rcases h with rfl | ⟨u, x, y, rfl, hcut, hn⟩
  · exact ⟨b, rfl, Or.inl rfl⟩
  · obtain ⟨v, rfl, rfl⟩ := exists_append_of_size_le hcut (by omega)
    rw [size_append] at hn
    exact ⟨v ++ x, List.append_assoc _ _ _, Or.inr ⟨v, x, y, rfl, rfl, by omega⟩⟩

theorem Agree.symm (h : Agree n a b) : Agree n b a := by
  rcases h with rfl | ⟨u, x, y, ha, hb, hn⟩
  · exact Or.inl rfl
  · exact Or.inr ⟨u, y, x, hb, ha, hn⟩

theorem Agree.head?_eq (h : Agree n a b) (hn : 0 < n) : a.head? = b.head? := by
  rcases h with rfl | ⟨u, x, y, rfl, rfl, hu⟩
  · rfl
  · have hne : u ≠ [] := by
      rintro rfl
      exact absurd (Nat.lt_of_lt_of_le hn hu) (Nat.lt_irrefl 0)
    rw [List.head?_append_of_ne_nil _ hne, List.head?_append_of_ne_nil _ hne]

end Text

namespace Edit

open Text (Agree)

/-- In front of the bytes that matter to a node, or behind what was replaced, both texts go on in the
same way. -/
theorem agree_of_oldOffset? {old new insert : List Char} {start stop n offset place : Nat}
    {edit : Edit} (hreplace : replace old start stop insert = .ok (edit, new)) {c d : List Char}
    (hcut : new = c ++ d) (hoffset : Text.size c = offset)
    (hplace : edit.oldOffset? offset = some place)
    (hwindow : place + n ≤ edit.start ∨ edit.oldStop ≤ place) :
    ∃ a b, old = a ++ b ∧ Text.size a = place ∧ Agree n b d := by
  obtain ⟨before, middle, after, rfl, rfl, hstart, hold, hnew⟩ := replace_spec hreplace
  rw [Text.size_append] at hold hnew
  unfold oldOffset? at hplace
  split at hplace
  · -- In front of the edit.
    rename_i hlt
    obtain rfl := Option.some.inj hplace
    obtain ⟨u, hbefore, hd⟩ : ∃ u, before = c ++ u ∧ d = u ++ (insert ++ after) := by
      rw [List.append_assoc] at hcut
      exact Text.exists_append_of_size_le hcut.symm (by omega)
    refine ⟨c, u ++ (middle ++ after), by rw [hbefore]; simp, hoffset, ?_⟩
    rw [hd]
    have hsize := congrArg Text.size hbefore
    rw [Text.size_append] at hsize
    exact Or.inr ⟨u, _, _, rfl, rfl, by omega⟩
  · split at hplace
    · rename_i hle
      obtain rfl := Option.some.inj hplace
      obtain ⟨u, hc, hafter⟩ : ∃ u, c = before ++ insert ++ u ∧ after = u ++ d :=
        Text.exists_append_of_size_le hcut (by rw [Text.size_append]; omega)
      refine ⟨before ++ middle ++ u, d, by rw [hafter]; simp, ?_, Or.inl rfl⟩
      have hsize := congrArg Text.size hc
      simp only [Text.size_append] at hsize ⊢
      omega
    · cases hplace

end Edit

/-! ## Where a stream stands -/

namespace Lexemes

variable {text : List Char} {phase : Phase} {f : Lexemes}

/-- In front of a lexeme the text reads like the stream, and in front of a half of a `>>` it goes on with
`>`. -/
theorem Reading.cut (hf : Reading text phase f) : ∃ c d, text = c ++ d ∧ (f 0).start = Text.size c ∧
    (phase = .whole ∧ Alike (ofText text (Text.size c)) f ∨ d.head? = some '>') := by
  cases hf with
  | @whole a b htext =>
    subst htext
    obtain ⟨c, d, hcut, hstart, halike⟩ := alike_ofText_start a b
    exact ⟨c, d, hcut, hstart, Or.inl ⟨rfl, halike⟩⟩
  | @split a b htext hkind =>
    subst htext
    obtain ⟨c, d, hcut, hsecond, -⟩ := half_spec hkind
    have hstart : ((ofText (a ++ b) (Text.size a)).halves.take 0).start =
        ((ofText (a ++ b) (Text.size a)).halves 0).start + 1 := rfl
    rw [hsecond, Text.size_append] at hstart
    exact ⟨c, _, hcut, (Nat.add_right_cancel hstart).symm, Or.inr rfl⟩
  | @half a b htext hkind =>
    subst htext
    obtain ⟨c, d, hcut, hsecond, -⟩ := half_spec hkind
    refine ⟨c ++ ['>'], '>' :: d, by rw [hcut]; simp, ?_, Or.inr rfl⟩
    rw [hsecond]

theorem Reading.fullStart_whole (hf : Reading text .whole f) : f = ofText text (f 0).fullStart := by
  cases hf with
  | @whole a b htext =>
    subst htext
    rw [(ofText_zero_spec a b).2.1]

/-- The halves of a `>>` stand where it stood. -/
theorem Reading.fullStart_split (hf : Reading text .split f) :
    f = (ofText text (f 0).fullStart).halves ∧ (ofText text (f 0).fullStart 0).kind = .shr := by
  cases hf with
  | @split a b htext hkind =>
    subst htext
    have hfull : ((ofText (a ++ b) (Text.size a)).halves 0).fullStart = Text.size a :=
      (ofText_zero_spec a b).2.1
    rw [hfull]
    exact ⟨rfl, hkind⟩

end Lexemes

/-! ## Nodes that are built again -/

/-- The shape of an entry that holds a node. -/
def Entry.ofNode (state : Nat) (e : Element) : Entry where
  state := state
  elements := [e.shape]
  start := 0
  stop := 0

/-- If the node at byte `start` of a text may be taken over, it is built again wherever that can happen.
Where that ends in front of the halves of a `>>`, the whole of it would be split as well. -/
def Element.Renewed (table : Table) (text : List Char) (start : Nat) (e : Element) : Prop :=
  ∀ origin ∈ e.origin?, origin.reusable = true → 0 < e.size → e.text.head? ≠ some '>' ∧
    ∃ next moves, table.gotoKind? origin.state e.kind = some next ∧
      Entry.Replays table (start + origin.lookahead) origin.state (ofText text start)
        (Entry.ofNode next e) moves ∧
      (Phase.after moves .whole = .split →
        candidates table next .shr = [] ∧ table.hasAction next .gt = true)

/-- A node that is found for byte `offset` of a text is built again there, with all nodes below it, and
whether it is taken over or built, reading goes on in the same way. -/
structure Element.Renews (table : Table) (text : List Char) (state offset : Nat) (e : Element) :
    Prop where
  isToken : e.isToken = false
  size_pos : 0 < e.size
  origin : ∃ origin ∈ e.origin?, origin.reusable = true ∧ origin.state = state
  renewed : e.AllAt (Renewed table text) offset
  apart : ∀ c d, text = c ++ '>' :: '>' :: d → Text.size (c ++ ['>']) = offset + e.size →
    ∀ x ∈ d.head?, x ≠ '>' ∧ x ≠ '='

/-- All nodes that can be found are built again. -/
def Setting.Renews (setting : Setting) (text : List Char) : Prop :=
  ∀ reuse ∈ setting.reuse, ∀ state old c d, text = c ++ d →
    reuse.find? setting.table state (Text.size c) = some old →
      old.Renews setting.table text state (Text.size c)

namespace Element

open Text (Agree)

variable {table : Table} {n : Nat} {a a' b b' rest : List Char}

/-- What is built again in a text is built again in all texts that agree with it as far as it matters. -/
theorem Renewed.transfer {e : Element} (h : e.Renewed table (a ++ b) (Text.size a))
    (hagree : Agree n b b') (hn : ∀ o ∈ e.origin?, Text.size a + o.lookahead ≤ Text.size a + n) :
    e.Renewed table (a' ++ b') (Text.size a') := by
  intro origin horigin hreusable hsize
  obtain ⟨hblunt, next, moves, hgoto, hreplays, hsplit⟩ := h origin horigin hreusable hsize
  have hagrees := (Lexemes.agrees_ofText a a' hagree).mono (hn origin horigin)
  exact ⟨hblunt, next, moves, hgoto, hreplays.transfer hagrees (by omega), hsplit⟩

mutual

/-- The same for all nodes below a node. -/
theorem allAt_renewed_transfer (e : Element) {a a' b b' rest : List Char} {n : Nat}
    (h : e.AllAt (Renewed table (a ++ b)) (Text.size a))
    (hwithin : e.LooksWithin (Text.size a + n) (Text.size a)) (hb : b = e.text ++ rest)
    (hagree : Agree n b b') (hsize : e.size ≤ n) :
    e.AllAt (Renewed table (a' ++ b')) (Text.size a') := by
  cases e with
  | token => exact h.self.transfer hagree (by simp [origin?])
  | node id kind origin children =>
    refine ⟨h.self.transfer hagree hwithin.1, ?_⟩
    exact allInAt_renewed_transfer children h.2 hwithin.2 hb hagree hsize

theorem allInAt_renewed_transfer (es : List Element) {a a' b b' rest : List Char} {n : Nat}
    (h : AllInAt (Renewed table (a ++ b)) es (Text.size a))
    (hwithin : LookWithin (Text.size a + n) es (Text.size a)) (hb : b = textAll es ++ rest)
    (hagree : Agree n b b') (hsize : sizeAll es ≤ n) :
    AllInAt (Renewed table (a' ++ b')) es (Text.size a') := by
  cases es with
  | nil => trivial
  | cons e es =>
    rw [sizeAll] at hsize
    rw [textAll_cons, List.append_assoc] at hb
    refine ⟨allAt_renewed_transfer e h.1 hwithin.1 hb hagree (by omega), ?_⟩
    -- The other elements begin behind the first one, in both texts.
    have hfirst : Text.size e.text = e.size := e.size_text
    subst hb
    obtain ⟨c, rfl, hc⟩ := hagree.symm.of_append (by omega)
    have hlater := h.2
    have hwithin := hwithin.2
    rw [← hfirst, ← Text.size_append] at hlater hwithin ⊢
    rw [← List.append_assoc] at hlater ⊢
    refine allInAt_renewed_transfer es hlater ?_ rfl hc.symm (by omega)
    rw [Text.size_append, Nat.add_assoc, Nat.add_sub_cancel' (by omega)]
    rwa [Text.size_append] at hwithin

end

mutual

theorem AllAt.of_mem_preorder {P : Nat → Element → Prop} (e : Element) {depth start : Nat}
    (h : e.AllAt P start) {v : Visit} (hv : v ∈ e.preorder depth start) :
    v.element.AllAt P v.start := by
  cases e with
  | token =>
    obtain rfl := List.mem_singleton.1 hv
    exact h
  | node id kind origin children =>
    rcases List.mem_cons.1 hv with rfl | hv
    · exact h
    · exact AllInAt.of_mem_preorderAll children h.2 hv

theorem AllInAt.of_mem_preorderAll {P : Nat → Element → Prop} (es : List Element) {depth start : Nat}
    (h : AllInAt P es start) {v : Visit} (hv : v ∈ preorderAll es depth start) :
    v.element.AllAt P v.start := by
  cases es with
  | nil => cases hv
  | cons e rest =>
    rcases List.mem_append.1 hv with hv | hv
    · exact AllAt.of_mem_preorder e h.1 hv
    · exact AllInAt.of_mem_preorderAll rest h.2 hv

end

end Element

/-- Where all nodes of the old tree can be renewed, all nodes that can be found are built again. -/
theorem Reuse.renews_ofRoot {table : Table} {old new insert : List Char} {start stop : Nat}
    {edit : Edit} {root : Element} {options : Options}
    (hreplace : Edit.replace old start stop insert = .ok (edit, new)) (htext : root.text = old)
    (hcovered : root.All Element.Covered)
    (hrecorded : Setting.Recorded ⟨table, options, some (ofRoot root edit)⟩)
    (hrenewed : root.AllAt (Element.Renewed table old) 0) (hseparate : Separate old) :
    Setting.Renews ⟨table, options, some (ofRoot root edit)⟩ new := by
  rintro _ ⟨⟩ state e c d hcut hfind
  obtain ⟨-, hspell⟩ := truthful_ofRoot hreplace htext hcovered options _ rfl _ _ e hfind
  obtain ⟨rest, rfl⟩ := hspell c d hcut rfl
  obtain ⟨hall, -⟩ := hrecorded _ rfl _ _ e hfind
  have hpos := size_pos_of_find? hfind
  have htoken := isToken_of_find? hfind
  obtain ⟨v, origin, rfl, hv, hplace, horigin, hreusable, hstate, -, -, hwindow⟩ := find?_spec hfind
  obtain ⟨a, b, rfl, ha, hagree⟩ := Edit.agree_of_oldOffset? hreplace hcut rfl hplace hwindow
  have hlookahead : v.element.size + 3 ≤ origin.lookahead := hall.self.lookahead origin horigin
  have hsize : Text.size v.element.text = v.element.size := v.element.size_text
  obtain ⟨rest', rfl, hrest⟩ := hagree.of_append (by omega)
  have hsame := Element.AllAt.of_mem_preorder root hrenewed hv
  rw [← ha] at hsame
  refine ⟨htoken, hpos, ⟨origin, horigin, hreusable, hstate⟩, ?_, fun u w hu hplace => ?_⟩
  · rw [hcut]
    exact Element.allAt_renewed_transfer v.element hsame (hall.self.looksWithin horigin _) rfl hagree
      (by omega)
  · -- What follows the node is the same in both texts for three bytes.
    have hcut' : u ++ ['>'] ++ '>' :: w = c ++ v.element.text ++ rest := by
      rw [List.append_assoc, List.append_assoc, ← hcut]
      exact hu.symm
    obtain ⟨hfront, rfl⟩ := Text.append_inj hcut' (by rw [hplace, Text.size_append, hsize])
    obtain ⟨w', rfl, hw⟩ := hrest.of_append (w := ['>']) (by
      have hone : Text.size ['>'] = 1 := rfl
      omega)
    have hone : Text.size ['>'] = 1 := rfl
    have hhead := hw.head?_eq (by omega)
    -- The node ends with the first half.
    obtain ⟨first, hfirst⟩ : ∃ first, v.element.text = first ++ ['>'] := by
      obtain h | ⟨first, last, h⟩ := List.eq_nil_or_concat v.element.text
      · rw [← hsize, h] at hpos
        exact absurd hpos (Nat.lt_irrefl 0)
      · rw [List.concat_eq_append] at h
        rw [h, ← List.append_assoc] at hfront
        obtain ⟨-, hlast⟩ := List.append_inj' hfront rfl
        exact ⟨first, by rw [h, hlast]⟩
    intro x hx
    rw [← hhead] at hx
    obtain ⟨z, hz⟩ := List.head?_eq_some_iff.1 hx
    exact hseparate (a ++ first) z x (by rw [hfirst, hz]; simp)

namespace Machine

variable {setting setting' : Setting} {g : Grammar} {rank : Nat → Nat} {text : List Char}
  {m m' next : Machine}

/-! ### From scratch, the text is read on -/

/-- What is ahead of the machine stands in the text. -/
def Reads (text : List Char) (m : Machine) : Prop := ∃ phase, Reading text phase m.source.ahead

theorem Reads.start (text : List Char) (firstId : Nat) : (Machine.start text firstId).Reads text := by
  have hahead : (Machine.start text firstId).source.ahead = ofText text (Text.size []) :=
    Source.ahead_ofText_eq text
  refine ⟨.whole, ?_⟩
  rw [hahead]
  exact .whole rfl

theorem Reads.congr (h : m.Reads text) (hahead : m'.source.ahead = m.source.ahead) : m'.Reads text := by
  obtain ⟨phase, hreading⟩ := h
  exact ⟨phase, hahead ▸ hreading⟩

theorem Reads.bump (h : m.Reads text) (hsource : m'.source = m.source.bump.2) : m'.Reads text := by
  obtain ⟨phase, hreading⟩ := h
  refine ⟨phase.move .take, ?_⟩
  rw [hsource, Source.ahead_bump_eq]
  exact hreading.take

theorem Reads.skipInto (h : m.Reads text) (n : Nat) (e : Entry) : (skipInto n e m).2.Reads text := by
  induction n generalizing e m with
  | zero => exact h
  | succ n ih => exact ih (Reads.bump h rfl) _

theorem Reads.skip (h : m.Reads text) (hformed : ∀ e ∈ m.stack, e.Formed) (skipped depth : Nat) :
    (m.skip skipped depth).Reads text := by
  obtain ⟨d, -, hskip⟩ := skip_eq hformed skipped depth
  have hgathered : (m.gathered skipped d).2.Reads text := by
    refine Reads.skipInto (Reads.congr h ?_) _ _
    rw [peek_eq]
    exact looked_ahead _ _
  rcases hskip with ⟨-, hskip⟩ | ⟨-, hskip⟩
  · rwa [hskip]
  · rw [hskip]
    exact hgathered.congr rfl

/-- Without an old tree, every step leaves what is ahead in the text. -/
theorem Reads.step (h : m.Reads text) (hreuse : setting.reuse = none) (hfaithful : m.Faithful text)
    (hstep : m.step setting = .running next) : next.Reads text := by
  obtain ⟨n, fork, heffect⟩ := effect_of_step hstep
  have hlooked : Machine.Reads text { m.looked n with forkPending := fork } :=
    h.congr (looked_ahead m n)
  generalize hready : ({ m.looked n with forkPending := fork } : Machine) = ready at heffect hlooked
  cases heffect with
  | split hinjected hkind hbuffer =>
    obtain ⟨phase, hreading⟩ := hlooked
    refine ⟨.split, ?_⟩
    rw [Source.ahead_splitShift_of_shr hbuffer hkind]
    exact hreading.halves hkind
  | @shift kind state hmem =>
    unfold Machine.shift
    split
    · refine hlooked.congr ?_
      rw [shiftMissing_eq]
      exact funext fun i => Source.ahead_peek _ _ _
    · exact hlooked.bump rfl
  | takeOver hinjected htaken =>
    obtain ⟨reuse, -, -, hsome, -⟩ := takeOver?_spec htaken
    rw [hreuse] at hsome
    cases hsome
  | reduce hmem hreduced =>
    obtain ⟨_, _, _, _, _, _, _, -, -, -, -, -, -, -, -, rfl⟩ := reduce?_spec hreduced
    exact hlooked.congr (funext fun i => Source.ahead_peek _ _ _)
  | repair hrecover =>
    have hrepaired := recover?_repaired setting ready
    rw [hrecover] at hrepaired
    cases hrepaired with
    | inserted => exact hlooked.congr (looked_ahead ready _)
    | @skipped k skipped depth repairs diagnostic =>
      have hformed : ∀ e ∈ ready.stack, e.Formed := by
        rw [← hready]
        exact hfaithful.formed
      refine Reads.congr (Reads.skip (m := { ready.looked k with injected := none, repairs := repairs })
        (hlooked.congr (looked_ahead ready k)) hformed skipped depth) rfl

theorem Run.reads {turns : List Turn} (hrun : Run setting m turns m') (h : m.Reads text)
    (hreuse : setting.reuse = none) (hregular : m.Regular g text) (hsuits : setting.Suits g rank text) :
    m'.Reads text := by
  induction hrun with
  | done => exact h
  | step hstep _ ih =>
    exact ih (h.step hreuse hregular.faithful hstep) (hregular.running hsuits hstep)

/-! ### Taking over -/

/-- What a machine does that takes over a node which is built again. -/
structure TakesOver (table : Table) (text : List Char) (m taken : Machine) (old : Element)
    (next : Nat) (moves : List Lexemes.Move) : Prop where
  renews : old.Renews table text m.topState (m.source.ahead 0).start
  stack : taken.stack = m.oldEntry old next :: m.stack
  /-- Reading goes on behind the node. -/
  ahead : taken.source.ahead = ofText text ((m.source.ahead 0).start + old.size)
  size : taken.source.size = m.source.size
  examined : m.source.examined ≤ taken.source.examined
  injected : taken.injected = m.injected
  repairs : taken.repairs = m.repairs
  forkPending : taken.forkPending = m.forkPending
  diagnostics : taken.diagnostics = m.diagnostics
  /-- The node begins with the lexeme in front. -/
  reading : Reading text .whole m.source.ahead
  blunt : old.text.head? ≠ some '>'
  replays : Entry.Replays table taken.source.examined m.topState m.source.ahead
    (Entry.ofNode next old) moves
  split : Phase.after moves .whole = .split →
    candidates table next .shr = [] ∧ table.hasAction next .gt = true

theorem exists_takesOver (hreads : m.Reads text) (hfaithful : m.Faithful text)
    (htruthful : setting.Truthful text) (hrenews : setting.Renews text) {taken : Machine}
    (htaken : m.takeOver? setting m.topState = some taken) :
    ∃ old next moves, m.TakesOver setting.table text taken old next moves := by
  obtain ⟨reuse, old, next, hsome, hfind, hgoto, htaken⟩ := takeOver?_spec htaken
  obtain ⟨phase, hreading⟩ := hreads
  obtain ⟨c, d, hcut, hstart, hphase⟩ := hreading.cut
  have hspell := (htruthful reuse hsome _ _ old hfind).2 c d hcut hstart.symm
  rw [hstart] at hfind
  have hrenew := hrenews reuse hsome _ old c d hcut hfind
  rw [← hstart] at hrenew
  obtain ⟨origin, horigin, hreusable, hstate⟩ := hrenew.origin
  obtain ⟨hblunt, next', moves, hgoto', hreplays, hsplit⟩ :=
    hrenew.renewed.self origin horigin hreusable hrenew.size_pos
  rw [hstate] at hgoto' hreplays
  obtain rfl : next' = next := Option.some.inj (hgoto'.symm.trans hgoto)
  -- The node does not begin with `>`, so reading stands in front of a lexeme.
  obtain ⟨rfl, halike⟩ := hphase.resolve_right fun hhead => by
    obtain ⟨rest, rfl⟩ := hspell
    have hne : old.text ≠ [] := by
      intro hnil
      have hpos := hrenew.size_pos
      rw [← Element.size_text, hnil] at hpos
      exact Nat.lt_irrefl 0 hpos
    rw [List.head?_append_of_ne_nil _ hne] at hhead
    exact hblunt hhead
  rw [← hstart] at halike
  have hexamined : (m.source.ahead 0).start + origin.lookahead ≤ taken.source.examined ∧
      m.source.examined ≤ taken.source.examined := by
    rw [htaken, Option.mem_def.1 horigin]
    exact ⟨Nat.le_max_right _ _, Nat.le_trans
      ((Source.examined_le_peek m.source 0).trans (Source.examined_le_bump _)) (Nat.le_max_left _ _)⟩
  have htext : (m.source.peek 0).2.bump.2.text = text := by
    rw [Source.bump_text, Source.peek_snd, Source.fetchMany_text, hfaithful.text_eq]
  have hsize : (m.source.peek 0).2.bump.2.size = m.source.size := by
    rw [Source.size_bump, Source.peek_snd, Source.fetchMany_size]
  refine ⟨old, next', moves, hrenew, by rw [htaken], ?_, by rw [htaken]; exact hsize, hexamined.2,
    by rw [htaken], by rw [htaken], by rw [htaken], by rw [htaken], hreading, hblunt, ?_, hsplit⟩
  · rw [htaken, Source.ahead_markExamined, (hfaithful.source_at.peek 0).bump.ahead_reset, htext]
  · exact (hreplays.transfer (halike.agrees _) (Nat.le_refl _)).mono hexamined.1

/-- The entry that was built is the one that was taken over. -/
theorem Grown.faces {p taken : Machine} {entries : Stack} {f : Lexemes} {old : Element} {next : Nat}
    (hgrown : m.Grown entries f p) (h : Twin m m') (hold : old.isToken = false)
    (hentries : entries = [(Entry.ofNode next old).headed (m.source.ahead 0).leading])
    (hstack : taken.stack = m'.oldEntry old next :: m'.stack) :
    p.stack.map Entry.face = taken.stack.map Entry.face := by
  subst hentries
  obtain ⟨grown, hp, hshape⟩ := hgrown.stack
  obtain ⟨e, rfl, he⟩ := List.map_eq_singleton_iff.1 hshape
  have hold' : (m'.oldEntry old next).shape =
      (Entry.ofNode next old).headed (m.source.ahead 0).leading := by
    rw [Entry.headed_of_ne_nil (List.cons_ne_nil _ _), h.ahead]
    simp only [Entry.shape, oldEntry, shapes_newTokens, Entry.ofNode, List.map_cons, List.map_nil]
  have hmark (x : Entry) (hx : x.shape = (Entry.ofNode next old).headed (m.source.ahead 0).leading) :
      x.mark = none := by
    have helements : x.elements.map Element.shape = [old.shape] := by
      rw [Entry.headed_of_ne_nil (List.cons_ne_nil _ _)] at hx
      exact congrArg Entry.elements hx
    obtain ⟨y, hy, hshape⟩ := List.map_eq_singleton_iff.1 helements
    unfold Entry.mark
    rw [hy]
    cases y with
    | node => rfl
    | token => cases old with
      | token => cases hold
      | node => cases hshape
  have hface : e.face = (m'.oldEntry old next).face :=
    Prod.ext (he.trans hold'.symm) ((hmark e he).trans (hmark _ hold').symm)
  rw [hp, hstack, List.map_append, List.map_cons, h.faces, hface]
  rfl

/-- Behind a node that was built, reading goes on where the node ends. -/
theorem Grown.fullStart_eq {p : Machine} {f : Lexemes} {old : Element} {next : Nat}
    (hgrown : m.Grown [(Entry.ofNode next old).headed (m.source.ahead 0).leading] f p)
    (hfaithful : m.Faithful text) (hfaithful' : p.Faithful text) :
    (p.source.ahead 0).fullStart = (m.source.ahead 0).start + old.size := by
  obtain ⟨grown, hp, hshape⟩ := hgrown.stack
  -- The entry spells the trivia in front and the node.
  have htext : Stack.text grown = Lexeme.spell (m.source.ahead 0).leading ++ old.text := by
    rw [Stack.text, ← Element.textAll_map_shape, Stack.map_shape_elements, hshape,
      Entry.headed_of_ne_nil (List.cons_ne_nil _ _)]
    simp [elements, Entry.ofNode, Element.textAll_bareTokens, Element.text_shape]
  have hstart : (m.source.ahead 0).start =
      Text.size (Stack.text m.stack) + Text.size (Lexeme.spell (m.source.ahead 0).leading) :=
    hfaithful.source_at.front.2.2.1
  have hposition : (p.source.ahead 0).fullStart = Text.size (Stack.text p.stack) :=
    hfaithful'.position_eq
  rw [hposition, hp, hstart, Stack.text_append, htext, Text.size_append, Text.size_append,
    Element.size_text, Nat.add_assoc]

/-- A node that can be renewed is built where its text comes next. -/
theorem exists_rebuilt {W : Nat} {f : Lexemes} {moves : List Lexemes.Move} {old : Element} {next : Nat}
    (hreuse : setting.reuse = none) (hregular : m.Regular g text) (hsuits : setting.Suits g rank text)
    (hinjected : m.injected = none) (hfork : m.forkPending = false)
    (hverdict : ∃ kind state, m.verdict setting = .act true kind (.shift state))
    (hreplays : Entry.Replays setting.table W m.topState f (Entry.ofNode next old) moves)
    (hagrees : Agrees W 0 f 0 m.source.ahead) : ∃ turns p, Run setting m turns p ∧
      m.Grown [(Entry.ofNode next old).headed (m.source.ahead 0).leading]
        (Lexemes.after moves m.source.ahead) p ∧
      (p.source.ahead 0).fullStart = (m.source.ahead 0).start + old.size := by
  obtain ⟨turns, p, hrun, hgrown⟩ := hreplays.exists_run hreuse hregular.grammatical.linked.ne_nil
    rfl hinjected hfork hverdict hagrees
  exact ⟨turns, p, hrun, hgrown,
    hgrown.fullStart_eq hregular.faithful (hrun.regular hregular hsuits).faithful⟩

/-- A machine in front of some lexemes. Where these begin with the halves of a `>>`, it may also have the
whole of it in front and be about to split it. -/
inductive Follows (table : Table) (f : Lexemes) (m : Machine) : Prop where
  | same (hahead : m.source.ahead = f)
  | late (hhalves : Lexemes.halves m.source.ahead = f) (hkind : (m.source.ahead 0).kind = .shr)
      (hnil : candidates table m.topState .shr = [])
      (hgt : table.hasAction m.topState .gt = true)

/-- Reading from where a stream stands follows the stream. -/
theorem follows_of_reading {table : Table} {phase : Phase} {f : Lexemes} (hf : Reading text phase f)
    (hahead : m.source.ahead = ofText text (f 0).fullStart)
    (hapart : ∀ c d, text = c ++ '>' :: '>' :: d → Text.size (c ++ ['>']) = (f 0).fullStart →
      ∀ x ∈ d.head?, x ≠ '>' ∧ x ≠ '=')
    (hsplit : phase = .split →
      candidates table m.topState .shr = [] ∧ table.hasAction m.topState .gt = true) :
    m.Follows table f := by
  cases phase with
  | whole => exact .same (hahead.trans hf.fullStart_whole.symm)
  | half =>
    obtain ⟨c, d, hcut, hsize, heq⟩ := hf.half_eq rfl
    exact .same (hahead.trans (heq (hapart c d hcut hsize)).symm)
  | split =>
    obtain ⟨heq, hkind⟩ := hf.fullStart_split
    rw [← hahead] at heq hkind
    exact .late heq.symm hkind (hsplit rfl).1 (hsplit rfl).2

/-- A machine with a `>>` in front that it cannot read splits it. -/
theorem step_of_late (hinjected : m.injected = none) (hkind : (m.source.ahead 0).kind = .shr)
    (hnil : candidates setting.table m.topState .shr = [])
    (hgt : setting.table.hasAction m.topState .gt = true) : ∃ n,
      m.step setting = .running { m.looked n with source := (m.looked n).source.splitShift } ∧
      (m.looked n).source.splitShift.ahead = Lexemes.halves m.source.ahead := by
  have hlookahead : m.lookahead = .shr := by rw [lookahead, hinjected, ← hkind, Option.getD_none]
  have hverdict : m.verdict setting = .split :=
    verdict_of_split (by rw [hlookahead, hnil]) hinjected hkind hgt
  obtain ⟨k, hbuffer, hstep⟩ := step_verdict setting m
  rw [hverdict] at hstep
  refine ⟨k, hstep, ?_⟩
  rw [Source.ahead_splitShift_of_shr hbuffer (by rw [looked_ahead, hkind]), looked_ahead]

/-- What follows a stream comes to it. -/
theorem Follows.exists_run {f : Lexemes} (h : m.Follows setting.table f) (hinjected : m.injected = none) :
    ∃ turns source, Run setting m turns { m with source := source } ∧ source.ahead = f ∧
      source.size = m.source.size := by
  cases h with
  | same hahead => exact ⟨[], m.source, .done m, hahead, rfl⟩
  | late hhalves hkind hnil hgt =>
    obtain ⟨n, hstep, hahead⟩ := step_of_late hinjected hkind hnil hgt
    refine ⟨_, _, .step hstep (.done _), hahead.trans hhalves, ?_⟩
    exact (Source.size_splitShift _).trans (Source.fetchMany_size n m.source)

/-- Where one machine takes a node over, the other builds it. If the node ends in front of the halves of
a `>>`, the first has to split it in addition. -/
theorem Twin.takeOver (h : Twin m m') (hlike : setting.Like setting') (hreuse : setting.reuse = none)
    (hregular : m.Regular g text) (hsuits : setting.Suits g rank text) {kind : Kind} {state next : Nat}
    {taken : Machine} {old : Element} {moves : List Lexemes.Move}
    (htakes : m'.TakesOver setting'.table text taken old next moves) (hinjected : m'.injected = none)
    (hfork : m'.forkPending = false) (hverdict : m'.verdict setting' = .act true kind (.shift state)) :
    ∃ turns turns' p p', Run setting m turns p ∧ Run setting' taken turns' p' ∧ Twin p p' := by
  have hreplays := htakes.replays
  have hreading := htakes.reading
  rw [← hlike.table, ← h.ahead, ← h.topState] at hreplays
  rw [← h.ahead] at hreading
  have hverdict' : m.verdict setting = .act true kind (.shift state) := by
    rw [verdict_congr hlike h.shape h.ahead h.injected, hverdict]
  obtain ⟨turns, p, hrun, hgrown, hplace⟩ := exists_rebuilt hreuse hregular hsuits
    (h.injected.trans hinjected) (h.forkPending.trans hfork) ⟨kind, state, hverdict'⟩ hreplays
    (.refl _ 0 _)
  have hafter := hreading.after hreplays.allows
  rw [← hgrown.ahead] at hafter
  have htop : taken.topState = next := by
    rw [Machine.topState, htakes.stack]
    rfl
  have hfollows : taken.Follows setting'.table p.source.ahead := by
    refine follows_of_reading hafter ?_ ?_ ?_
    · rw [hplace, htakes.ahead, h.ahead]
    · rw [hplace, h.ahead]
      exact htakes.renews.apart
    · rw [htop]
      exact htakes.split
  obtain ⟨turns', source, hrun', hahead, hsize⟩ :=
    hfollows.exists_run (htakes.injected.trans hinjected)
  refine ⟨turns, turns', p, _, hrun, hrun', ?_, hahead.symm, ?_, ?_, ?_, ?_, ?_⟩
  · exact hgrown.faces h htakes.renews.isToken rfl htakes.stack
  · rw [hgrown.size, hsize, htakes.size, h.size]
  · rw [hgrown.injected, htakes.injected, hinjected]
  · rw [hgrown.repairs, htakes.repairs, h.repairs]
  · rw [hgrown.forkPending, htakes.forkPending, hfork]
  · rw [hgrown.diagnostics, htakes.diagnostics, h.diagnostics]

/-! ### Two parses -/

/-- A run is followed as far as another one goes, if that one comes to an end. -/
theorem Run.exists_shorter {first last : Machine} {turns turns' : List Turn}
    (hrun : Run setting first turns m) (hrun' : Run setting first turns' m')
    (hend : m'.step setting = .finished last) :
    ∃ rest, Run setting m rest m' ∧ turns'.length = turns.length + rest.length := by
  induction hrun generalizing turns' with
  | done => exact ⟨turns', hrun', by simp⟩
  | step hstep _ ih =>
    cases hrun' with
    | done =>
      rw [hend] at hstep
      cases hstep
    | step hstep' hrun' =>
      obtain rfl := Progress.running.inj (hstep.symm.trans hstep')
      obtain ⟨rest, hrest, hlength⟩ := ih hrun'
      exact ⟨rest, hrest, by simp only [List.length_cons, hlength]; omega⟩

/-- Two machines that begin side by side end side by side. -/
theorem Twin.exists_end (h : Twin m m') (hlike : setting.Like setting') (hreuse : setting.reuse = none)
    (hregular : m.Regular g text) (hsuits : setting.Suits g rank text) (hreads : m.Reads text)
    (hregular' : m'.Regular g text) (hsuits' : setting'.Suits g rank text)
    (hrenews : setting'.Renews text) {turns' : List Turn} {stopped' last' : Machine}
    (hrun' : Run setting' m' turns' stopped') (hend' : stopped'.step setting' = .finished last') :
    ∃ turns stopped last, Run setting m turns stopped ∧ stopped.step setting = .finished last ∧
      Twin last last' := by
  induction hlength : turns'.length using Nat.strong_induction_on generalizing m m' turns' with
  | _ length ih =>
    rcases h.step hlike hreuse with
      hboth | ⟨hinjected, hfork, n, kind, state, taken, hverdict, htaken, hstep⟩
    · generalize hstep : m.step setting = progress at hboth
      cases hrun' with
      | done =>
        rw [hend'] at hboth
        cases hboth with
        | finished htwin => exact ⟨[], m, _, .done m, hstep, htwin⟩
      | step hstep' hrest =>
        rw [hstep'] at hboth
        cases hboth with
        | running htwin =>
          obtain ⟨turns, stopped, last, hrun, hend, hlast⟩ := ih _ (by simp [← hlength]) htwin
            (hregular.running hsuits hstep) (hreads.step hreuse hregular.faithful hstep)
            (hregular'.running hsuits' hstep') hrest rfl
          exact ⟨_, stopped, last, .step hstep hrun, hend, hlast⟩
    · have hlooked : Reads text (m'.looked n) := by
        refine hreads.congr ?_
        rw [looked_ahead, h.ahead]
      obtain ⟨old, next, moves, htakes⟩ := exists_takesOver hlooked (hregular'.faithful.looked n)
        hsuits'.truthful hrenews htaken
      have hsame : (m'.looked n).verdict setting' = .act true kind (.shift state) := by
        rw [← hverdict]
        exact verdict_congr (.refl setting') rfl (looked_ahead m' n) rfl
      obtain ⟨built, took, p, p', hrun, hrest, htwin⟩ := Twin.takeOver (h.looked 0 n) hlike hreuse
        hregular hsuits htakes hinjected hfork hsame
      obtain ⟨rest, hleft, hsum⟩ := Run.exists_shorter (.step hstep hrest) hrun' hend'
      obtain ⟨turns, stopped, last, hrun', hend, hlast⟩ := ih _
        (by rw [← hlength, hsum, List.length_cons]; omega) htwin (hrun.regular hregular hsuits)
        (hrun.reads hreads hreuse hregular hsuits)
        (hrest.regular (hregular'.running hsuits' hstep) hsuits') hleft rfl
      exact ⟨_, stopped, last, hrun.trans hrun', hend, hlast⟩

end Machine

namespace Tree

variable {g : Grammar} {rank : Nat → Nat} {text : List Char}

/-- A parse that takes over nodes that can be renewed leads to the tree that a parse from scratch leads
to. -/
theorem parseWith_renewed {setting setting' : Setting} (hlike : setting.Like setting')
    (hreuse : setting.reuse = none) (hsuits : setting.Suits g rank text)
    (hsuits' : setting'.Suits g rank text) (hrenews : setting'.Renews text) (firstId firstId' : Nat) :
    (parseWith setting text firstId).root.shape = (parseWith setting' text firstId').root.shape ∧
      (parseWith setting text firstId).diagnostics = (parseWith setting' text firstId').diagnostics := by
  obtain ⟨turns, m, last, hrun, hend, -, htree⟩ := Machine.exists_run hsuits firstId
  obtain ⟨turns', m', last', hrun', hend', -, htree'⟩ := Machine.exists_run hsuits' firstId'
  have hstart : Twin (Machine.start text firstId) (Machine.start text firstId') :=
    ⟨rfl, rfl, rfl, rfl, rfl, rfl, rfl⟩
  obtain ⟨turns'', stopped, last'', hrun'', hend'', htwin⟩ := hstart.exists_end hlike hreuse
    (.start g text firstId) hsuits (.start text firstId) (.start g text firstId') hsuits' hrenews
    hrun' hend'
  -- The run from scratch has only one end.
  obtain rfl : last = last'' := by
    obtain ⟨rest, hrest, -⟩ := Machine.Run.exists_shorter hrun'' hrun hend
    cases hrest with
    | done =>
      rw [hend] at hend''
      exact Machine.Progress.finished.inj hend''
    | step hstep =>
      rw [hend''] at hstep
      cases hstep
  rw [htree, htree']
  exact htwin.finish text

end Tree

end SqlTree
