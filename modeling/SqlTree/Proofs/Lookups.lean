import SqlTree.Proofs.Session
import SqlTree.Session

/-!
# Lookups in the old tree

A machine asks for an old node at the place where the current token was before the edit. The current
token lies inside the new text, whatever was taken over and wherever reading went on after it. So its
old place lies inside the old text, if the edit is well formed, and inside the old tree, if that one
holds its whole text. It need not describe what was really changed: a session whose trees hold their
texts can go on with every edit that is accepted.

- `Source.Inside`      : the lexemes of a source and what it has not read lie inside its text
- `Machine.inside_step` : a step keeps them there, with any old tree and any edit
- `Edit.oldOffset?_le` : a place inside the new text was inside the old one
- `Tree.overruns_eq_false` : no lookup leaves an old tree that holds its text
- `Session.reparse_succeeds` : so every accepted edit leads to the next tree
-/

namespace SqlTree

/-! ## Sources -/

namespace Lexeme

/-- A lexeme ends inside the text from which it is read, and a `>>` is spelled so. -/
theorem read_inside (size fullStart : Nat) (leading : List Leaf) (offset : Nat) (rest : List Char)
    (h : offset + Text.size rest ≤ size) :
    (read size fullStart leading offset rest).1.stop ≤ size ∧
      ((read size fullStart leading offset rest).1.kind = .shr →
        (read size fullStart leading offset rest).1.text = ['>', '>']) ∧
      (read size fullStart leading offset rest).2.1 +
        Text.size (read size fullStart leading offset rest).2.2 ≤ size := by
  fun_induction read size fullStart leading offset rest with
  | case1 leading offset rest hsplit => exact ⟨by simp [stop], by simp, h⟩
  | case2 leading offset rest kind text rest' hsplit htrivia ih =>
    rw [← Token.append_of_split? hsplit, Text.size_append] at h
    exact ih (by omega)
  | case3 leading offset rest kind text rest' hsplit htrivia =>
    rw [← Token.append_of_split? hsplit, Text.size_append] at h
    refine ⟨by simp only [stop]; omega, ?_, by simp only; omega⟩
    rintro rfl
    exact Token.text_of_split?_shr hsplit

end Lexeme

namespace Source

variable {size : Nat} {s : Source}

/-- What has been looked at, and what has not been read, lies inside a text of `size` bytes. -/
structure Inside (size : Nat) (s : Source) : Prop where
  size_eq : s.size = size
  buffer : ∀ l ∈ s.buffer, l.stop ≤ size ∧ (l.kind = .shr → l.text = ['>', '>'])
  rest : s.offset + Text.size s.rest ≤ size

theorem Inside.ofText (text : List Char) : (ofText text).Inside (Text.size text) :=
  ⟨rfl, by simp [Source.ofText], by simp [Source.ofText]⟩

theorem Inside.fetch (h : s.Inside size) : s.fetch.Inside size := by
  obtain ⟨hstop, hshr, hrest⟩ := Lexeme.read_inside s.size s.offset [] s.offset s.rest
    (h.size_eq ▸ h.rest)
  rw [h.size_eq] at hstop hshr hrest
  refine ⟨h.size_eq, fun l hl => ?_, ?_⟩
  · rw [buffer_fetch, h.size_eq] at hl
    rcases List.mem_append.1 hl with hl | hl
    · exact h.buffer l hl
    · obtain rfl := List.mem_singleton.1 hl
      exact ⟨hstop, hshr⟩
  · simpa only [Source.fetch, h.size_eq] using hrest

theorem Inside.fetchMany (h : s.Inside size) (n : Nat) : (fetchMany n s).Inside size := by
  induction n generalizing s with
  | zero => exact h
  | succ n ih => exact ih h.fetch

theorem Inside.peek (h : s.Inside size) (n : Nat) : (s.peek n).2.Inside size := by
  rw [peek_snd]
  exact h.fetchMany _

/-- What comes next ends inside the text. -/
theorem Inside.stop_ahead_le (h : s.Inside size) (n : Nat) : (s.ahead n).stop ≤ size :=
  ((h.peek n).buffer _ (List.mem_of_getElem? (buffer_peek s n))).1

theorem Inside.bump (h : s.Inside size) : s.bump.2.Inside size := by
  obtain ⟨hsize, hbuffer, hrest⟩ := h.peek 0
  exact ⟨hsize, fun l hl => hbuffer l (List.mem_of_mem_tail hl), hrest⟩

theorem Inside.splitShift (h : s.Inside size) : s.splitShift.Inside size := by
  unfold Source.splitShift
  split
  · rename_i front rest hbuffer
    split
    · rename_i hkind
      -- The token has two bytes, one for each half.
      obtain ⟨hstop, htext⟩ := h.buffer front (by simp [hbuffer])
      have hsize : Text.size front.text = 2 := by
        rw [htext hkind]
        rfl
      have hhalf : Text.size ['>'] = 1 := rfl
      simp only [Lexeme.stop, hsize] at hstop
      refine ⟨h.size_eq, fun l hl => ?_, h.rest⟩
      rcases List.mem_cons.1 hl with rfl | hl
      · exact ⟨by simp only [Lexeme.stop, hhalf]; omega, by simp⟩
      · rcases List.mem_cons.1 hl with rfl | hl
        · exact ⟨by simp only [Lexeme.stop, hhalf]; omega, by simp⟩
        · exact h.buffer l (by simp [hbuffer, hl])
    · exact h
  · exact h

/-- Wherever reading goes on, it goes on inside the text. -/
theorem Inside.reset (hsize : s.size = size) (htext : Text.size s.text = size) (offset : Nat) :
    (s.reset offset).Inside size := by
  refine ⟨hsize, by simp [Source.reset], ?_⟩
  simp only [Source.reset]
  cases hdrop : Text.dropBytes? (min offset s.size) s.text with
  | none =>
    simp only [Option.getD_none, Text.size_nil, Nat.add_zero]
    omega
  | some rest =>
    obtain ⟨⟨before, after⟩, hsplit, rfl⟩ := Option.map_eq_some_iff.1 hdrop
    obtain ⟨happend, hbefore⟩ := Text.append_of_splitAt? hsplit
    rw [happend, Text.size_append, hbefore] at htext
    exact Nat.le_of_eq htext

end Source

/-! ## Machines -/

namespace Machine

variable {m m' : Machine} {setting : Setting} {text : List Char}

/-- The machine reads inside a text. -/
structure Inside (text : List Char) (m : Machine) : Prop where
  source : m.source.Inside (Text.size text)
  text_eq : m.source.text = text

theorem Inside.start (text : List Char) (firstId : Nat) :
    (Machine.start text firstId).Inside text := ⟨.ofText text, rfl⟩

theorem Inside.congr (h : m.Inside text) (hsource : m'.source = m.source) : m'.Inside text :=
  ⟨hsource ▸ h.source, hsource ▸ h.text_eq⟩

theorem Inside.looked (h : m.Inside text) (n : Nat) : (m.looked n).Inside text where
  source := h.source.fetchMany n
  text_eq := (Source.fetchMany_text n m.source).trans h.text_eq

theorem Inside.bump (h : m.Inside text) (hsource : m'.source = m.source.bump.2) :
    m'.Inside text where
  source := hsource ▸ h.source.bump
  text_eq := by rw [hsource, Source.bump_text, h.text_eq]

theorem Inside.shift (h : m.Inside text) (kind : Kind) (next : Nat) :
    (m.shift kind next).Inside text := by
  unfold Machine.shift
  split
  · exact (h.looked (0 + 1 - m.source.buffer.length)).congr (by
      rw [shiftMissing_eq]
      exact Source.peek_snd _ _)
  · exact h.bump (by rw [shiftToken_eq])

theorem Inside.takeOver {state : Nat} (h : m.Inside text)
    (htaken : m.takeOver? setting state = some m') : m'.Inside text := by
  obtain ⟨_, _, _, -, -, -, rfl⟩ := takeOver?_spec htaken
  have hnext := (h.source.peek 0).bump
  have htext : (m.source.peek 0).2.bump.2.text = text := by
    rw [Source.bump_text, Source.peek_snd, Source.fetchMany_text, h.text_eq]
  -- Reading goes on where the old node ends, which need not be between characters.
  obtain ⟨hsize, hbuffer, hrest⟩ := Source.Inside.reset hnext.size_eq (by rw [htext])
    ((m.source.ahead 0).start + _)
  exact ⟨⟨hsize, hbuffer, hrest⟩, htext⟩

theorem Inside.reduce {production : Nat} (h : m.Inside text)
    (hreduced : m.reduce? setting production = some m') : m'.Inside text := by
  obtain ⟨_, _, _, _, _, _, _, -, -, -, -, -, -, -, -, rfl⟩ := reduce?_spec hreduced
  exact (h.looked (0 + 1 - m.source.buffer.length)).congr (Source.peek_snd _ _)

theorem Inside.skipInto (h : m.Inside text) (n : Nat) (e : Entry) :
    (skipInto n e m).2.Inside text := by
  induction n generalizing e m with
  | zero => exact h
  | succ n ih => exact ih (h.bump rfl) _

theorem source_skip (m : Machine) (skipped depth : Nat) : (m.skip skipped depth).source =
    (m.gathered skipped (min depth (m.stack.length - 1))).2.source := by
  change (if (m.gathered skipped (min depth (m.stack.length - 1))).1.elements.isEmpty then
    if (m.gathered skipped (min depth (m.stack.length - 1))).1.leading.isEmpty then _ else _
    else _ : Machine).source = _
  split
  · split <;> rfl
  · rfl

theorem Inside.skip (h : m.Inside text) (skipped depth : Nat) : (m.skip skipped depth).Inside text := by
  have hpeek : ({ m with stack := m.stack.drop (min depth (m.stack.length - 1)) }.peek 0).2.Inside
      text := (h.looked (0 + 1 - m.source.buffer.length)).congr (Source.peek_snd _ _)
  exact (hpeek.skipInto skipped (m.poppedEntry _)).congr (m.source_skip skipped depth)

theorem Inside.recover (h : m.Inside text) (hrecover : m.recover? setting = some m') :
    m'.Inside text := by
  have hrepaired := recover?_repaired setting m
  rw [hrecover] at hrepaired
  cases hrepaired with
  | @inserted n => exact (h.looked n).congr rfl
  | @skipped n skipped depth repairs =>
    have hbase : Inside text { m.looked n with injected := none, repairs := repairs } :=
      (h.looked n).congr rfl
    exact (hbase.skip skipped depth).congr rfl

/-- Every step keeps the machine inside its text, whatever there is to take over. -/
theorem Inside.step (h : m.Inside text) : (m.step setting).machine.Inside text := by
  refine step_keeps (J := Inside text) (fun n _ => (h.looked n).congr rfl) (fun _ h => h) ?_
  intro m next h heffect
  cases heffect with
  | split => exact ⟨h.source.splitShift, (Source.splitShift_text _).trans h.text_eq⟩
  | shift => exact h.shift _ _
  | takeOver _ htaken => exact h.takeOver htaken
  | reduce _ hreduced => exact h.reduce hreduced
  | repair hrecover => exact h.recover hrecover

/-- What is asked for is a place inside the text. -/
theorem Inside.lookup?_le (h : m.Inside text) {position : Nat}
    (hlookup : m.lookup? setting = some position) : position ≤ Text.size text := by
  have hstop := h.source.stop_ahead_le 0
  simp only [lookup?, peek_eq] at hlookup
  split at hlookup
  · obtain ⟨-, hposition⟩ := Option.ite_none_right_eq_some.1 hlookup
    obtain rfl := Option.some.inj hposition
    exact Nat.le_trans (Nat.le_add_right _ _) hstop
  · cases hlookup

end Machine

/-! ## Edits -/

/-- An edit that fits its texts replaces bytes of the old one and accounts for the rest. -/
theorem Edit.le_of_validate {edit : Edit} {old new : List Char}
    (h : edit.validate old new = .ok ()) :
    edit.start ≤ edit.oldStop ∧ edit.oldStop ≤ Text.size old ∧
      Text.size new = Text.size old - edit.oldStop + edit.newStop := by
  obtain ⟨hold, -, hsize⟩ := validate_eq_ok_iff.1 h
  obtain ⟨hle, hstop, -⟩ := checkRange_eq_ok_iff.1 hold
  exact ⟨hle, hstop, hsize⟩

/-- A place inside the new text was inside the old one. -/
theorem Edit.oldOffset?_le {edit : Edit} {old new : List Char} {position offset : Nat}
    (h : edit.validate old new = .ok ()) (hposition : position ≤ Text.size new)
    (hoffset : edit.oldOffset? position = some offset) : offset ≤ Text.size old := by
  obtain ⟨hstart, hstop, hsize⟩ := Edit.le_of_validate h
  unfold oldOffset? at hoffset
  split at hoffset
  · obtain rfl := Option.some.inj hoffset
    omega
  · obtain ⟨hle, heq⟩ := Option.ite_none_right_eq_some.1 hoffset
    obtain rfl := Option.some.inj heq
    omega

/-! ## Trees and sessions -/

namespace Machine

/-- A run inside the new text looks only inside the old one. -/
theorem Inside.overruns_eq_false {m : Machine} {setting : Setting} {text old : List Char}
    {edit : Edit} {size : Nat} (h : m.Inside text) (hvalid : edit.validate old text = .ok ())
    (hsize : Text.size old ≤ size) (fuel : Nat) : overruns setting edit size fuel m = false := by
  induction fuel generalizing m with
  | zero => rfl
  | succ fuel ih =>
    have hlookup : ((m.lookup? setting).bind edit.oldOffset?).any (size < ·) = false := by
      rw [Option.any_eq_false]
      intro offset hoffset
      obtain ⟨position, hposition, hoffset⟩ := Option.bind_eq_some_iff.1 hoffset
      have hle := Edit.oldOffset?_le hvalid (h.lookup?_le hposition) hoffset
      simpa using Nat.le_trans hle hsize
    have hnext : (m.step setting).machine.Inside text := h.step
    rw [overruns, hlookup, Bool.false_or]
    cases hstep : m.step setting with
    | running next =>
      rw [hstep] at hnext
      exact ih hnext
    | finished last => rfl

end Machine

namespace Tree

variable {table : Table} {options : Options} {old : Tree} {edit : Edit} {text : List Char}

/-- No lookup leaves an old tree that holds its text. -/
theorem overruns_eq_false (hvalid : edit.validate old.text text = .ok ())
    (hsize : Text.size old.text ≤ old.root.size) : old.overruns table options edit text = false :=
  (Machine.Inside.start text old.nextId).overruns_eq_false hvalid hsize _

/-- The trees of a session hold their texts. -/
theorem Reached.size_root (h : Reached table text old) : old.root.size = Text.size old.text := by
  rw [← Element.size_text, h.text_eq]
  exact congrArg Text.size h.root_spec.1

end Tree

namespace Session

open Tree (Reached)

/-- A session whose last tree came about by replacements goes on with every edit that fits the texts,
whether or not it describes what was changed. -/
theorem reparse_succeeds {table : Table} {s : Session} {old : Tree} {text text' : List Char}
    {edit : Edit} (hold : Reached table text old) (hcurrent : s.current = some old)
    (hvalid : edit.validate text text' = .ok ()) : ∃ new, s.reparse edit text' = .ok new := by
  rw [← hold.text_eq] at hvalid
  have hreparse : ∃ new, Tree.reparse s.table s.options old edit text' = .ok new := by
    simp only [Tree.reparse, hvalid]
    exact ⟨_, rfl⟩
  obtain ⟨new, hnew⟩ := hreparse
  refine ⟨new, ?_⟩
  simp only [reparse, hcurrent, reparseFrom, hnew]
  rw [Tree.overruns_eq_false hvalid (Nat.le_of_eq hold.size_root.symm)]
  rfl

end Session
end SqlTree
