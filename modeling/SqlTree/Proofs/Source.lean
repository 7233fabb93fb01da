import SqlTree.Parse.Source
import SqlTree.Proofs.Lookahead

/-!
# What a source has read

A source that has handed out the text `done` holds the rest of its text: the lexemes in its buffer,
one behind the other, and then what has not been read. Looking ahead changes neither.

- `Lexeme.Sound`  : what is known of every lexeme
- `Lexeme.Tiles`  : lexemes that stand one behind the other
- `Source.pending` : the text that has not been handed out
- `Source.At`     : a source that has handed out a text
- `Source.At.peek`, `Source.At.bump`, `Source.At.splitShift`, `Source.At.reset` : the operations
  keep the account
-/

namespace SqlTree
namespace Lexeme

/-- The text of a sequence of leaves. -/
def spell (leaves : List Leaf) : List Char := leaves.flatMap Prod.snd

@[simp]
theorem spell_nil : spell [] = [] := rfl

@[simp]
theorem spell_cons (leaf : Leaf) (leaves : List Leaf) :
    spell (leaf :: leaves) = leaf.2 ++ spell leaves := rfl

@[simp]
theorem spell_append (a b : List Leaf) : spell (a ++ b) = spell a ++ spell b :=
  List.flatMap_append

/-- The text of a lexeme with the trivia in front of it. -/
def content (l : Lexeme) : List Char := spell l.leading ++ l.text

@[simp]
theorem spell_leaves (l : Lexeme) : spell l.leaves = l.content := by
  simp [leaves, content]

/-- The text of several lexemes. -/
def contents (ls : List Lexeme) : List Char := ls.flatMap content

@[simp]
theorem contents_nil : contents [] = [] := rfl

@[simp]
theorem contents_cons (l : Lexeme) (ls : List Lexeme) :
    contents (l :: ls) = l.content ++ contents ls := rfl

@[simp]
theorem contents_append (a b : List Lexeme) : contents (a ++ b) = contents a ++ contents b :=
  List.flatMap_append

/-- Only trivia stand in front of a token, which is not itself one of them; only the end of the
input is empty; and `>>` is spelled so. -/
structure Sound (l : Lexeme) : Prop where
  significant : l.kind.isTrivia = false
  trivia : ∀ leaf ∈ l.leading, leaf.1.isTrivia = true
  text_eq_nil_iff : l.text = [] ↔ l.kind = .eof
  text_of_shr : l.kind = .shr → l.text = ['>', '>']

/-- The lexemes stand one behind the other from byte `offset` on and the text `rest` follows them.
Nothing follows the end of the input. -/
def Tiles (rest : List Char) : Nat → List Lexeme → Prop
  | _, [] => True
  | offset, l :: ls =>
    l.Sound ∧ l.fullStart = offset ∧ l.start = offset + Text.size (spell l.leading) ∧
      (l.kind = .eof → contents ls ++ rest = []) ∧ Tiles rest l.stop ls

theorem stop_eq {offset : Nat} {l : Lexeme} (h : l.start = offset + Text.size (spell l.leading)) :
    l.stop = offset + Text.size l.content := by
  simp only [stop, content, Text.size_append, h]
  omega

/-- One more lexeme behind the others takes its text from what follows them. -/
theorem Tiles.concat {rest rest' : List Char} {offset : Nat} {ls : List Lexeme} {l : Lexeme}
    (h : Tiles rest offset ls) (hrest : l.content ++ rest' = rest)
    (hl : Tiles rest' (offset + Text.size (contents ls)) [l]) : Tiles rest' offset (ls ++ [l]) := by
  induction ls generalizing offset with
  | nil => simpa using hl
  | cons first ls ih =>
    obtain ⟨hsound, hfull, hstart, hend, htail⟩ := h
    refine ⟨hsound, hfull, hstart, ?_, ?_⟩
    · intro heof
      simpa [← hrest] using hend heof
    · refine ih htail ?_
      rw [stop_eq hstart]
      simpa [Nat.add_assoc] using hl

/-! ## Reading one lexeme -/

/-- The first lexeme of a text accounts for all that is read, in its place. -/
theorem read_spec (size fullStart : Nat) (leading : List Leaf) (offset : Nat) (rest : List Char)
    (hoffset : offset = fullStart + Text.size (spell leading))
    (hsize : offset + Text.size rest = size)
    (htrivia : ∀ leaf ∈ leading, leaf.1.isTrivia = true) :
    (read size fullStart leading offset rest).1.content ++
        (read size fullStart leading offset rest).2.2 = spell leading ++ rest ∧
      (read size fullStart leading offset rest).2.1 +
        Text.size (read size fullStart leading offset rest).2.2 = size ∧
      Tiles (read size fullStart leading offset rest).2.2 fullStart
        [(read size fullStart leading offset rest).1] := by
  fun_induction read size fullStart leading offset rest with
  | case1 leading offset rest hsplit =>
    obtain rfl := Token.eq_nil_of_split?_eq_none hsplit
    simp only [Text.size_nil, Nat.add_zero] at hsize
    refine ⟨by simp [content], by simpa using hsize, ?_, ?_, ?_, by simp, trivial⟩
    · exact ⟨rfl, htrivia, by simp, by simp⟩
    · cases leading with
      | nil =>
        simp only [spell_nil, Text.size_nil] at hoffset
        simp only [List.isEmpty_nil, if_true]
        omega
      | cons leaf leading => simp
    · simp only
      omega
  | case2 leading offset rest kind text rest' hsplit htriv ih =>
    have hrest := Token.append_of_split? hsplit
    have hsz : Text.size text + Text.size rest' = Text.size rest := by
      rw [← hrest, Text.size_append]
    have hread := ih (by simp only [spell_append, spell_cons, spell_nil, List.append_nil,
      Text.size_append]; omega) (by omega) (by
        intro leaf hleaf
        rcases List.mem_append.1 hleaf with hleaf | hleaf
        · exact htrivia leaf hleaf
        · obtain rfl := List.mem_singleton.1 hleaf
          exact htriv)
    refine ⟨?_, hread.2⟩
    rw [hread.1, ← hrest]
    simp
  | case3 leading offset rest kind text rest' hsplit htriv =>
    have hrest := Token.append_of_split? hsplit
    have hsz : Text.size text + Text.size rest' = Text.size rest := by
      rw [← hrest, Text.size_append]
    have hne := Token.kind_ne_eof_of_split? hsplit
    refine ⟨by simp [content, hrest], by simp only; omega, ?_, rfl, hoffset, ?_, trivial⟩
    · refine ⟨by simpa using htriv, htrivia, ?_, ?_⟩
      · simp [Token.text_ne_nil_of_split? hsplit, hne]
      · rintro rfl
        exact Token.text_of_split?_shr hsplit
    · exact fun heof => absurd heof hne

end Lexeme

namespace Source

open Lexeme (contents Tiles)

/-- The text that has not been handed out. -/
def pending (s : Source) : List Char := contents s.buffer ++ s.rest

/-- The source has handed out the text `done` and all else is right: sizes, the places of the
lexemes in the buffer, and how far bytes were looked at. -/
structure At (done : List Char) (s : Source) : Prop where
  text_eq : s.text = done ++ s.pending
  size_eq : s.size = Text.size s.text
  offset_eq : s.offset + Text.size s.rest = s.size
  tiles : Tiles s.rest (Text.size done) s.buffer
  examined : ∀ l ∈ s.buffer, l.stop + readAhead ≤ s.examined

theorem At.ofText (text : List Char) : At [] (ofText text) where
  text_eq := rfl
  size_eq := rfl
  offset_eq := by simp [Source.ofText]
  tiles := trivial
  examined := by simp [Source.ofText]

/-! ## Looking ahead -/

@[simp]
theorem fetch_text (s : Source) : s.fetch.text = s.text := rfl

@[simp]
theorem fetch_size (s : Source) : s.fetch.size = s.size := rfl

theorem buffer_fetch (s : Source) :
    s.fetch.buffer = s.buffer ++ [(Lexeme.read s.size s.offset [] s.offset s.rest).1] := rfl

theorem rest_fetch (s : Source) :
    s.fetch.rest = (Lexeme.read s.size s.offset [] s.offset s.rest).2.2 := rfl

theorem At.fetch {done : List Char} {s : Source} (h : At done s) : At done s.fetch := by
  have hread := Lexeme.read_spec s.size s.offset [] s.offset s.rest (by simp) h.offset_eq (by simp)
  simp only [Lexeme.spell_nil, List.nil_append] at hread
  obtain ⟨hcontent, hoffset, htiles⟩ := hread
  have hplace : s.offset = Text.size done + Text.size (contents s.buffer) := by
    have htext := congrArg Text.size h.text_eq
    have hsize := h.size_eq
    have hoff := h.offset_eq
    simp only [pending, Text.size_append] at htext
    omega
  refine ⟨?_, h.size_eq, hoffset, ?_, ?_⟩
  · simp only [fetch_text, h.text_eq, pending, buffer_fetch, Lexeme.contents_append,
      Lexeme.contents_cons, Lexeme.contents_nil, List.append_nil, List.append_assoc]
    rw [rest_fetch, hcontent]
  · rw [buffer_fetch]
    exact h.tiles.concat hcontent (hplace ▸ htiles)
  · intro l hl
    rw [buffer_fetch] at hl
    simp only [Source.fetch]
    rcases List.mem_append.1 hl with hl | hl
    · have := h.examined l hl
      omega
    · obtain rfl := List.mem_singleton.1 hl
      omega

@[simp]
theorem fetchMany_text (n : Nat) (s : Source) : (fetchMany n s).text = s.text := by
  induction n generalizing s with
  | zero => rfl
  | succ n ih => simp [fetchMany, ih]

@[simp]
theorem fetchMany_size (n : Nat) (s : Source) : (fetchMany n s).size = s.size := by
  induction n generalizing s with
  | zero => rfl
  | succ n ih => simp [fetchMany, ih]

theorem fetchMany_fetchMany (n k : Nat) (s : Source) :
    fetchMany n (fetchMany k s) = fetchMany (k + n) s := by
  induction k generalizing s with
  | zero => simp [fetchMany]
  | succ k ih => rw [Nat.succ_add, fetchMany, fetchMany, ih]

theorem buffer_fetchMany (n : Nat) (s : Source) :
    ∃ more, more.length = n ∧ (fetchMany n s).buffer = s.buffer ++ more := by
  induction n generalizing s with
  | zero => exact ⟨[], rfl, by simp [fetchMany]⟩
  | succ n ih =>
    obtain ⟨more, hlen, hmore⟩ := ih s.fetch
    refine ⟨(Lexeme.read s.size s.offset [] s.offset s.rest).1 :: more, by simp [hlen], ?_⟩
    rw [fetchMany, hmore, buffer_fetch]
    simp

theorem At.fetchMany {done : List Char} {s : Source} (h : At done s) (n : Nat) :
    At done (fetchMany n s) := by
  induction n generalizing s with
  | zero => exact h
  | succ n ih => exact ih h.fetch

/-- Looking `n` places ahead reads as many lexemes as are not in the buffer yet. -/
theorem peek_snd (s : Source) (n : Nat) :
    (s.peek n).2 = fetchMany (n + 1 - s.buffer.length) s := by
  unfold peek
  split
  · rename_i lexeme more hdrop
    have hlen := congrArg List.length hdrop
    simp only [List.length_drop, List.length_cons] at hlen
    have hzero : n + 1 - s.buffer.length = 0 := by omega
    rw [hzero]
    rfl
  · rfl

/-- What is seen `n` places ahead is in the buffer afterwards. -/
theorem buffer_peek (s : Source) (n : Nat) : (s.peek n).2.buffer[n]? = some (s.peek n).1 := by
  unfold peek
  split
  · rename_i lexeme more hdrop
    have hget := congrArg List.head? hdrop
    simpa using hget
  · rename_i hdrop
    have hlen := congrArg List.length hdrop
    simp only [List.length_drop, List.length_nil] at hlen
    obtain ⟨more, hmore, hbuffer⟩ := buffer_fetchMany (n + 1 - s.buffer.length) s
    have hlt : n < (Source.fetchMany (n + 1 - s.buffer.length) s).buffer.length := by
      rw [hbuffer, List.length_append]
      omega
    simp only [List.getD_eq_getElem?_getD, List.getElem?_eq_getElem hlt, Option.getD_some]

theorem buffer_peek_zero (s : Source) :
    (s.peek 0).2.buffer = (s.peek 0).1 :: (s.peek 0).2.buffer.tail := by
  have hget := buffer_peek s 0
  cases hb : (s.peek 0).2.buffer with
  | nil => simp [hb] at hget
  | cons l ls => simp_all

theorem At.peek {done : List Char} {s : Source} (h : At done s) (n : Nat) :
    At done (s.peek n).2 := by
  rw [peek_snd]
  exact h.fetchMany _

/-- The lexeme in front, once it has been looked at. -/
theorem At.front {done : List Char} {s : Source} (h : At done s) :
    (s.peek 0).1.Sound ∧ (s.peek 0).1.fullStart = Text.size done ∧
      (s.peek 0).1.start = Text.size done + Text.size (Lexeme.spell (s.peek 0).1.leading) ∧
      ((s.peek 0).1.kind = .eof → contents (s.peek 0).2.buffer.tail ++ (s.peek 0).2.rest = []) ∧
      (s.peek 0).1.stop + readAhead ≤ (s.peek 0).2.examined := by
  have hat := h.peek 0
  have hbuffer := buffer_peek_zero s
  have htiles := hat.tiles
  rw [hbuffer] at htiles
  obtain ⟨hsound, hfull, hstart, hend, -⟩ := htiles
  refine ⟨hsound, hfull, hstart, hend, hat.examined _ ?_⟩
  rw [hbuffer]
  exact List.mem_cons_self

theorem At.fullStart {done : List Char} {s : Source} (h : At done s) :
    (s.peek 0).1.fullStart = Text.size done := h.front.2.1

/-! ## Taking a lexeme -/

theorem bump_fst (s : Source) : s.bump.1 = (s.peek 0).1 := rfl

theorem bump_snd (s : Source) :
    s.bump.2 = { (s.peek 0).2 with buffer := (s.peek 0).2.buffer.tail } := rfl

@[simp]
theorem bump_text (s : Source) : s.bump.2.text = s.text := by
  rw [bump_snd, peek_snd]
  simp

theorem At.bump {done : List Char} {s : Source} (h : At done s) :
    At (done ++ s.bump.1.content) s.bump.2 := by
  have hat := h.peek 0
  have hbuffer := buffer_peek_zero s
  have htiles := hat.tiles
  have htext := hat.text_eq
  rw [hbuffer] at htiles
  obtain ⟨-, -, hstart, -, htail⟩ := htiles
  rw [pending, hbuffer, Lexeme.contents_cons] at htext
  refine ⟨?_, hat.size_eq, hat.offset_eq, ?_, ?_⟩
  · simpa [bump_fst, bump_snd, pending] using htext
  · rw [Lexeme.stop_eq hstart] at htail
    simpa [bump_fst, bump_snd] using htail
  · intro l hl
    exact hat.examined l (List.mem_of_mem_tail hl)

/-! ## Other operations -/

theorem At.splitShift {done : List Char} {s : Source} (h : At done s) : At done s.splitShift := by
  unfold Source.splitShift
  split
  · rename_i front rest hbuffer
    split
    · rename_i hshr
      have htiles := h.tiles
      have htext := h.text_eq
      have hexamined := h.examined
      rw [hbuffer] at htiles hexamined
      rw [pending, hbuffer] at htext
      obtain ⟨hsound, hfull, hstart, -, htail⟩ := htiles
      have hspell := hsound.text_of_shr hshr
      have hsize : Text.size front.text = 2 := by
        rw [hspell]
        rfl
      have hhalf : Text.size ['>'] = 1 := rfl
      have hstop : front.stop = front.start + 2 := by rw [Lexeme.stop, hsize]
      refine ⟨?_, h.size_eq, h.offset_eq, ?_, ?_⟩
      · simp only [pending, Lexeme.contents_cons, Lexeme.content, hspell] at htext ⊢
        simpa using htext
      · refine ⟨⟨rfl, hsound.trivia, by simp, by simp⟩, hfull, hstart, by simp, ?_⟩
        refine ⟨⟨rfl, by simp, by simp, by simp⟩, ?_, ?_, by simp, ?_⟩
        · simp only [Lexeme.stop, hhalf]
        · simp only [Lexeme.stop, hhalf, Lexeme.spell_nil, Text.size_nil, Nat.add_zero]
        · simp only [Lexeme.stop, hhalf]
          rw [hstop] at htail
          exact htail
      · have hfront := hexamined front List.mem_cons_self
        intro l hl
        rcases List.mem_cons.1 hl with rfl | hl
        · simp only [Lexeme.stop, hhalf] at hfront ⊢
          omega
        · rcases List.mem_cons.1 hl with rfl | hl
          · simp only [Lexeme.stop, hhalf, hsize] at hfront ⊢
            omega
          · exact hexamined l (List.mem_cons_of_mem _ hl)
    · exact h
  · exact h

@[simp]
theorem splitShift_text (s : Source) : s.splitShift.text = s.text := by
  unfold Source.splitShift
  split
  · split <;> rfl
  · rfl

/-- Reading can go on wherever the text can be cut. -/
theorem At.reset {done before after : List Char} {s : Source} (h : At done s)
    (htext : s.text = before ++ after) : At before (s.reset (Text.size before)) := by
  have hsize := h.size_eq
  rw [htext, Text.size_append] at hsize
  have hmin : min (Text.size before) s.size = Text.size before := by omega
  have hdrop : Text.dropBytes? (Text.size before) s.text = some after := by
    rw [htext, Text.dropBytes?_size_append]
  refine ⟨?_, h.size_eq, ?_, trivial, by simp [Source.reset]⟩
  · simp only [Source.reset, pending, hmin, hdrop, Option.getD_some, Lexeme.contents_nil,
      List.nil_append]
    exact htext
  · simp only [Source.reset, hmin, hdrop, Option.getD_some]
    omega

theorem At.markExamined {done : List Char} {s : Source} (h : At done s) (offset : Nat) :
    At done (s.markExamined offset) where
  text_eq := h.text_eq
  size_eq := h.size_eq
  offset_eq := h.offset_eq
  tiles := h.tiles
  examined l hl := by
    have := h.examined l hl
    simp only [Source.markExamined]
    omega

end Source
end SqlTree
