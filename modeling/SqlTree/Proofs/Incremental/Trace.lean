import SqlTree.Proofs.Incremental.Angles
import SqlTree.Proofs.Incremental.Renewal

/-!
# What a stack was built from

Without errors, every entry of a stack has been built from lexemes next to each other. Those entries that
do not depend on a choice are built again from such lexemes, and what holds of several entries next to
each other holds of them as one.

- `Entry.Spans`    : an entry stands where its lexemes stood, with the trivia in front of them
- `Entry.Traced`   : the same, and the entry is built again unless it depends on a choice
- `Entry.TracedAll` : entries built one after the other
- `Entry.Blunt`    : an entry that does not begin with `>`, where its symbol cannot
- `Stack.Traced`   : all entries of a stack, built one after the other
-/

namespace SqlTree

open Element (bareTokens textAll)
open Grammar (quiet)
open Lexemes (Agrees Alike Allows Move Phase Reading after ofText)
open Machine (candidates)

/-! ## Lexemes in front -/

namespace Lexemes

variable {text : List Char} {phase : Phase} {f g : Lexemes} {W : Nat} {moves : List Move}

theorem Alike.symm (h : Alike f g) : Alike g f where
  kind := h.kind.symm
  text := h.text.symm
  start := h.start.symm
  later n := (h.later n).symm

/-- Only a split leads in front of the halves of a `>>`. -/
theorem Phase.after_eq_split {phase' : Phase} (hne : moves ≠ [])
    (h : phase.after moves = .split) : phase'.after moves = .split := by
  obtain hnil | ⟨init, last, rfl⟩ := List.eq_nil_or_concat moves
  · exact absurd hnil hne
  · rw [List.concat_eq_append, Phase.after_append] at h ⊢
    cases last with
    | take =>
      generalize phase.after init = before at h
      cases before <;> cases h
    | split =>
      generalize phase'.after init = before
      cases before <;> rfl

/-- As long as nothing is taken, the first lexeme depends on no fewer bytes. -/
theorem reach_le_after (h : Allows W moves f) (hnot : .take ∉ moves) :
    (f 0).reach ≤ (after moves f 0).reach := by
  induction moves generalizing f with
  | nil => exact Nat.le_refl _
  | cons move moves ih =>
    cases move with
    | take => exact absurd List.mem_cons_self hnot
    | split =>
      obtain ⟨hkind, htext, -, hallows⟩ := h
      have hlater := ih hallows fun hmem => hnot (List.mem_cons_of_mem _ hmem)
      have hone := reach_halves htext hkind
      calc (f 0).reach ≤ (f.halves 0).reach := by omega
        _ ≤ _ := hlater

theorem Reading.kind_of_split (hf : Reading text .split f) : (f 0).kind = .gt := by
  cases hf
  rfl

/-- A lexeme that begins with `>` is one of three tokens. -/
theorem Reading.mem_angles (hf : Reading text phase f) (hhead : (f 0).text.head? = some '>') :
    (f 0).kind ∈ angles := by
  have hread (size fullStart : Nat) (leading : List Leaf) (offset : Nat) (rest : List Char)
      (hhead : (Lexeme.read size fullStart leading offset rest).1.text.head? = some '>') :
      (Lexeme.read size fullStart leading offset rest).1.kind ∈ angles := by
    fun_induction Lexeme.read size fullStart leading offset rest with
    | case1 => cases hhead
    | case2 leading offset rest kind text rest' hsplit htrivia ih => exact ih hhead
    | case3 leading offset rest kind text rest' hsplit =>
      change text.head? = some '>' at hhead
      obtain ⟨more, rfl⟩ := List.head?_eq_some_iff.1 hhead
      have hrest : rest = '>' :: (more ++ rest') := by
        rw [← Token.append_of_split? hsplit, List.cons_append]
      rw [hrest, Token.split?_of_ne_nil (List.cons_ne_nil _ _), Scan.first_angle] at hsplit
      have hkind := (Prod.mk.inj (Option.some.inj hsplit)).1
      show kind ∈ angles
      rw [← hkind]
      split <;> simp [angles]
  cases hf with
  | @whole a b htext =>
    subst htext
    rw [Lexemes.ofText_zero] at hhead ⊢
    exact hread _ _ _ _ _ hhead
  | split => exact List.mem_cons_self
  | half => exact List.mem_cons_self

end Lexemes

namespace Entry

variable {table : Table} {W V state next offset : Nat} {f : Lexemes} {e child : Entry}
  {es front : List Entry} {moves more : List Move}

/-! ## Where entries stand -/

/-- The entry was built from the lexemes in front, by some moves. If it is not empty, it stands where they
stood and has the trivia in front of them; otherwise they are still to come. -/
structure Spans (W : Nat) (f : Lexemes) (e : Entry) (moves : List Move) : Prop where
  extra : e.extra = false
  hasError : e.hasError = false
  allows : Allows W moves f
  takes : e.elements ≠ [] → .take ∈ moves ∧ (f 0).reach ≤ W ∧ e.start = (f 0).start ∧
    e.leading.map Element.shape = bareTokens (f 0).leading
  idles : e.elements = [] → .take ∉ moves ∧ e.leading = []

theorem Spans.mono (h : e.Spans W f moves) (hV : W ≤ V) : e.Spans V f moves where
  extra := h.extra
  hasError := h.hasError
  allows := h.allows.mono hV
  takes hne := by
    obtain ⟨htake, hreach, hplace⟩ := h.takes hne
    exact ⟨htake, Nat.le_trans hreach hV, hplace⟩
  idles := h.idles

/-- Two entries next to each other stand as one where the first that is not empty stands. -/
theorem Spans.join (he : e.Spans W f moves) (hchild : child.Spans W (after moves f) more) :
    (e.join child).Spans W f (moves ++ more) where
  extra := he.extra
  hasError := by simp [Entry.join, he.hasError, hchild.hasError]
  allows := Lexemes.allows_append.2 ⟨he.allows, hchild.allows⟩
  takes hne := by
    by_cases hnil : e.elements = []
    · obtain ⟨hnot, hleading⟩ := he.idles hnil
      have hchild' : child.elements ≠ [] := fun h => hne ((join_elements_eq_nil_iff e child).2 ⟨hnil, h⟩)
      obtain ⟨htake, hreach, hstart, hshape⟩ := hchild.takes hchild'
      obtain ⟨hfront, hplace⟩ := Lexemes.after_front (f := f) hnot
      refine ⟨List.mem_append_right _ htake,
        (Lexemes.reach_le_after he.allows hnot).trans hreach, ?_, ?_⟩
      · rw [← hplace, ← hstart]
        simp [Entry.join, hnil, hchild']
      · rw [← hfront, ← hshape]
        simp [Entry.join, hnil, hleading]
    · obtain ⟨htake, hreach, hstart, hshape⟩ := he.takes hnil
      refine ⟨List.mem_append_left _ htake, hreach, ?_, ?_⟩
      · rw [← hstart]
        simp [Entry.join, hnil]
      · rw [← hshape]
        simp [Entry.join, hnil]
  idles hnil := by
    obtain ⟨hnil, hchild'⟩ := (join_elements_eq_nil_iff e child).1 hnil
    obtain ⟨hnot, hleading⟩ := he.idles hnil
    obtain ⟨hnot', hleading'⟩ := hchild.idles hchild'
    refine ⟨fun hmem => ?_, by simp [Entry.join, hnil, hleading, hleading']⟩
    rcases List.mem_append.1 hmem with hmem | hmem
    · exact hnot hmem
    · exact hnot' hmem

/-- A `>>` behind an entry may be split. -/
theorem Spans.split (h : e.Spans W f moves) (hkind : (after moves f 0).kind = .shr)
    (htext : (after moves f 0).text = ['>', '>']) (hreach : (after moves f 0).reach ≤ W) :
    e.Spans W f (moves ++ [.split]) where
  extra := h.extra
  hasError := h.hasError
  allows := Lexemes.allows_append.2 ⟨h.allows, hkind, htext, hreach, trivial⟩
  takes hne := by
    obtain ⟨htake, hplace⟩ := h.takes hne
    exact ⟨List.mem_append_left _ htake, hplace⟩
  idles hnil := by
    obtain ⟨hnot, hleading⟩ := h.idles hnil
    exact ⟨by simpa using hnot, hleading⟩

/-! ## Entries that are built again -/

/-- The entry was built from the lexemes in front, above a state, and it is built again unless it depends
on a choice. -/
structure Traced (table : Table) (W state : Nat) (f : Lexemes) (e : Entry) (moves : List Move) : Prop
    extends Spans W f e moves where
  replays : e.fragile = false → Entry.Replays table W state f e.shape moves

theorem Traced.mono (h : e.Traced table W state f moves) (hV : W ≤ V) :
    e.Traced table V state f moves where
  toSpans := h.toSpans.mono hV
  replays hfragile := (h.replays hfragile).mono hV

theorem Traced.split (h : e.Traced table W state f moves)
    (hnil : candidates table e.state .shr = []) (hkind : (after moves f 0).kind = .shr)
    (htext : (after moves f 0).text = ['>', '>'])
    (hgt : table.hasAction e.state .gt = true) (hreach : (after moves f 0).reach ≤ W) :
    e.Traced table W state f (moves ++ [.split]) where
  toSpans := h.toSpans.split hkind htext hreach
  replays hfragile := (h.replays hfragile).split (hkind ▸ hnil) hkind htext hgt hreach

/-- Entries that were built one after the other, the first of them above a state. -/
inductive TracedAll (table : Table) (W : Nat) : Nat → Lexemes → List Entry → List Move → Prop where
  | nil {state : Nat} {f : Lexemes} : TracedAll table W state f [] []
  | cons {state : Nat} {f : Lexemes} {e : Entry} {es : List Entry} {moves more : List Move}
      (h : e.Traced table W state f moves)
      (hrest : TracedAll table W e.state (after moves f) es more) :
      TracedAll table W state f (e :: es) (moves ++ more)

theorem TracedAll.mono (h : TracedAll table W state f es moves) (hV : W ≤ V) :
    TracedAll table V state f es moves := by
  induction h with
  | nil => exact .nil
  | cons h _ ih => exact .cons (h.mono hV) ih

theorem TracedAll.singleton (h : e.Traced table W state f moves) :
    TracedAll table W state f [e] moves := by
  have hone := TracedAll.cons h .nil
  rwa [List.append_nil] at hone

/-- The state behind several entries. -/
def lastState (state : Nat) (es : List Entry) : Nat := (es.map Entry.state).getLast?.getD state

theorem lastState_cons (state : Nat) (e : Entry) (es : List Entry) :
    lastState state (e :: es) = lastState e.state es := by
  cases es with
  | nil => rfl
  | cons second es => simp [lastState, List.getLast?_cons]

theorem TracedAll.append (hfront : TracedAll table W state f front moves)
    (h : TracedAll table W (lastState state front) (after moves f) es more) :
    TracedAll table W state f (front ++ es) (moves ++ more) := by
  induction hfront with
  | nil => exact h
  | @cons state f e front moves rest hfirst _ ih =>
    rw [lastState_cons, Lexemes.after_append] at h
    rw [List.cons_append, List.append_assoc]
    exact .cons hfirst (ih h)

theorem TracedAll.allows (h : TracedAll table W state f es moves) : Allows W moves f := by
  induction h with
  | nil => trivial
  | cons h _ ih => exact Lexemes.allows_append.2 ⟨h.allows, ih⟩

theorem TracedAll.foldl_join (h : TracedAll table W state (after more f) es moves)
    (he : e.Spans W f more) : (es.foldl Entry.join e).Spans W f (more ++ moves) := by
  induction es generalizing e state more moves with
  | nil =>
    cases h
    rwa [List.append_nil]
  | cons child es ih =>
    cases h with
    | cons hchild hrest =>
      rw [← Lexemes.after_append] at hrest
      have hjoined := ih hrest (he.join hchild.toSpans)
      rwa [List.append_assoc] at hjoined

/-- Several entries stand as one where the first of them that is not empty stands. -/
theorem TracedAll.spans (h : TracedAll table W state f es moves) (next offset : Nat) :
    (ofChildren next es offset).Spans W f moves := by
  have hempty : Spans W f { state := next, start := offset, stop := offset } [] :=
    ⟨rfl, rfl, trivial, fun hne => absurd rfl hne, fun _ => ⟨List.not_mem_nil, rfl⟩⟩
  exact TracedAll.foldl_join h hempty

/-- If none of them depends on a choice, they are built again one after the other. -/
theorem TracedAll.replays (h : TracedAll table W state f es moves)
    (hfragile : ∀ e ∈ es, e.fragile = false) :
    ReplaysAll table W state f (es.map Entry.shape) moves := by
  induction h with
  | nil => exact .nil
  | @cons state f e es moves more h _ ih =>
    obtain ⟨he, hes⟩ := List.forall_mem_cons.1 hfragile
    refine .cons (h.replays he) h.extra (fun hne => ?_) (ih hes)
    have hne : e.elements ≠ [] := fun hnil => hne (by simp [Entry.shape, hnil])
    obtain ⟨-, hreach, -, hleading⟩ := h.takes hne
    exact ⟨hreach, hleading⟩

theorem foldl_join_fragile (es : List Entry) (e : Entry) :
    (es.foldl Entry.join e).fragile = false ↔ e.fragile = false ∧ ∀ e ∈ es, e.fragile = false := by
  induction es generalizing e with
  | nil => simp
  | cons child es ih =>
    rw [List.foldl_cons, ih, List.forall_mem_cons, ← and_assoc]
    simp [Entry.join]

/-- A node is built with the trivia in front of it. -/
theorem headed_ofNode {x : Element} (helements : e.elements = [x]) (hextra : e.extra = false)
    (herror : e.hasError = false) (hfragile : e.fragile = false) (leaves : List Leaf) :
    (ofNode e.state x).headed leaves = e.shape.headed leaves := by
  have hshape : e.shape.elements = [x.shape] := by
    rw [shape, helements]
    rfl
  rw [headed_of_ne_nil (List.cons_ne_nil _ _), headed_of_ne_nil (by simp [hshape])]
  simp only [ofNode, shape, helements, hextra, herror, hfragile, List.map_cons, List.map_nil]

/-! ## Entries that do not begin with `>` -/

/-- If the symbol of an entry cannot begin with `>`, the entry begins with something else. -/
def Blunt (g : Grammar) (calm : List Nat) (e : Entry) : Prop :=
  ∀ symbol, g.accessing e.state = some symbol →
    (∀ kind ∈ angles, quiet kind calm [symbol] = true) →
      ∃ c, (textAll e.elements).head? = some c ∧ c ≠ '>'

theorem foldl_join_elements (es : List Entry) (hne : e.elements ≠ []) :
    ∃ more, (es.foldl Entry.join e).elements = e.elements ++ more := by
  induction es generalizing e with
  | nil => exact ⟨[], (List.append_nil _).symm⟩
  | cons child es ih =>
    have hjoin : (e.join child).elements = e.elements ++ (child.leading ++ child.elements) := by
      simp [Entry.join, hne]
    obtain ⟨more, hmore⟩ := ih (e := e.join child) (by simp [hjoin, hne])
    exact ⟨_, by rw [List.foldl_cons, hmore, hjoin, List.append_assoc]⟩

/-- Entries begin as the first of them begins, if that is not empty. -/
theorem head?_ofChildren {c : Char} (next offset : Nat)
    (h : (textAll e.elements).head? = some c) :
    (textAll (ofChildren next (e :: es) offset).elements).head? = some c := by
  have hne : e.elements ≠ [] := by
    intro hnil
    rw [hnil] at h
    cases h
  have hfirst : (Entry.join { state := next, start := offset, stop := offset } e).elements =
      e.elements := by simp [Entry.join]
  obtain ⟨more, hmore⟩ := foldl_join_elements es (hfirst.symm ▸ hne)
  have hjoined : (ofChildren next (e :: es) offset).elements = e.elements ++ more := by
    rw [← hfirst]
    exact hmore
  rw [hjoined, Element.textAll_append, List.head?_append, h]
  rfl

end Entry

/-! ## Stacks -/

/-- The entries of a stack were built from the text, one after the other, and the lexemes that are left
are in front. -/
inductive Stack.Traced (table : Table) (W : Nat) (text : List Char) : Stack → Phase → Lexemes → Prop where
  | bottom {phase : Phase} {f : Lexemes} (h : Reading text phase f) :
      Traced table W text [Entry.bottom] phase f
  | push {stack : Stack} {phase : Phase} {f : Lexemes} {e : Entry} {moves : List Move}
      (h : Traced table W text stack phase f) (he : e.Traced table W (topState stack) f moves) :
      Traced table W text (e :: stack) (phase.after moves) (after moves f)

namespace Stack.Traced

variable {table : Table} {W V : Nat} {text : List Char} {stack popped below : Stack} {phase : Phase}
  {f : Lexemes}

theorem mono (h : Traced table W text stack phase f) (hV : W ≤ V) :
    Traced table V text stack phase f := by
  induction h with
  | bottom h => exact .bottom h
  | push _ he ih => exact .push ih (he.mono hV)

theorem reading (h : Traced table W text stack phase f) : Reading text phase f := by
  induction h with
  | bottom h => exact h
  | push _ he ih => exact ih.after he.allows

/-- A `>>` in front may be split. -/
theorem split (h : Traced table W text stack phase f) (hkind : (f 0).kind = .shr)
    (htext : (f 0).text = ['>', '>']) (hnil : candidates table (topState stack) .shr = [])
    (hgt : table.hasAction (topState stack) .gt = true) (hreach : (f 0).reach ≤ W) :
    Traced table W text stack .split f.halves := by
  cases h with
  | bottom h => exact .bottom (h.halves hkind)
  | @push stack phase f e moves h he =>
    have hsplit := h.push (he.split hnil hkind htext hgt hreach)
    rw [Phase.after_append, Lexemes.after_append] at hsplit
    generalize phase.after moves = before at hsplit
    cases before <;> exact hsplit

/-- Entries on top were built from what is left above those below. -/
theorem of_append (h : Traced table W text (popped ++ below) phase f) (hbelow : below ≠ []) :
    ∃ before g moves, Traced table W text below before g ∧
      Entry.TracedAll table W (topState below) g popped.reverse moves ∧
      phase = before.after moves ∧ f = after moves g := by
  induction popped generalizing phase f with
  | nil => exact ⟨phase, f, [], h, .nil, rfl, rfl⟩
  | cons e popped ih =>
    rw [List.cons_append] at h
    generalize hstack : popped ++ below = stack at h ih
    cases h with
    | bottom => exact absurd (List.append_eq_nil_iff.1 hstack).2 hbelow
    | @push _ _ _ _ last h he =>
      obtain ⟨before, g, moves, hbefore, hpopped, rfl, rfl⟩ := ih h
      refine ⟨before, g, moves ++ last, hbefore, ?_, (Phase.after_append _ _ _).symm,
        (Lexemes.after_append _ _ _).symm⟩
      rw [List.reverse_cons]
      refine hpopped.append (.singleton ?_)
      rwa [Entry.lastState, ← topState_reverse_append, List.reverse_reverse, hstack]

end Stack.Traced
end SqlTree
