import SqlTree.Proofs.Lexemes
import SqlTree.Proofs.Lookahead

/-!
# Texts that agree are read alike

Parsing sees a text as the endless stream of the lexemes ahead. A stream changes in two ways only: its
first lexeme is taken, or a `>>` in front is split. Two texts that agree for some bytes have streams
that agree for the lexemes that depend on these bytes only, and so they do after the same moves. What
stands in front of the first lexeme is left open, since the texts may differ there.

- `Lexemes.Move`, `Lexemes.after` : what happens to a stream
- `Lexemes.ofText`      : the stream of a text from some byte on
- `Lexeme.reach`        : the byte up to which a lexeme depends on the text
- `Lexemes.Agrees`      : streams that agree as far as some byte
- `Lexemes.agrees_ofText` : streams of texts that agree
- `Lexemes.Reading`     : a stream in a text, in front of a lexeme or of one half of a `>>`
-/

namespace SqlTree

/-! ## Moves -/

namespace Lexemes

/-- What can happen to a stream. -/
inductive Move where
  | take
  | split
  deriving DecidableEq

/-- The stream without its first lexeme. -/
def take (f : Lexemes) : Lexemes := fun n => f (n + 1)

def move (f : Lexemes) : Move → Lexemes
  | .take => f.take
  | .split => f.halves

/-- The stream after some moves. -/
def after (moves : List Move) (f : Lexemes) : Lexemes := moves.foldl move f

@[simp]
theorem after_nil (f : Lexemes) : after [] f = f := rfl

theorem after_append (a b : List Move) (f : Lexemes) : after (a ++ b) f = after b (after a f) :=
  List.foldl_append

/-- The stream of a text from byte `offset` on. -/
def ofText (text : List Char) (offset : Nat) : Lexemes :=
  ofTokens (Text.size text) (Token.readFromByte text offset)

/-- The first lexeme is read from the rest of the text, and the others from what follows it. -/
theorem ofText_step (a b : List Char) : ∃ word rest, b = word ++ rest ∧
    Lexeme.read (Text.size (a ++ b)) (Text.size a) [] (Text.size a) b =
      (ofText (a ++ b) (Text.size a) 0, Text.size (a ++ word), rest) ∧
    (ofText (a ++ b) (Text.size a)).take = ofText (a ++ b) (Text.size (a ++ word)) := by
  have hplace (c : List Char) : (Token.Place.origin.advance c).offset = Text.size c :=
    Nat.zero_add _
  obtain ⟨word, tokens, rest, rfl, -, -, hread, hlater⟩ :=
    Lexeme.read_eq_ofTokens (Text.size (a ++ b)) (Token.Place.origin.advance a) b
      (List.forall_mem_nil _)
  simp only [List.head?_nil, Option.map_none, Option.getD_none, List.map_nil, List.nil_append,
    hplace] at hread
  refine ⟨word, rest, rfl, ?_, funext fun n => ?_⟩
  · rw [ofText, Token.readFromByte_append, Text.size_append a word]
    exact hread
  · rw [Token.Place.advance_append] at hlater
    rw [take, ofText, ofText, Token.readFromByte_append]
    refine (hlater n).trans ?_
    rw [← Token.readFromByte_append, List.append_assoc]

end Lexemes

/-! ## Streams of sources -/

namespace Source

variable {s : Source} {done : List Char}

theorem ahead_bump_eq (s : Source) : s.bump.2.ahead = Lexemes.take s.ahead :=
  funext (ahead_bump s)

theorem ahead_splitShift_of_shr (hbuffer : s.buffer ≠ []) (hkind : (s.ahead 0).kind = .shr) :
    s.splitShift.ahead = Lexemes.halves s.ahead := by
  obtain ⟨rest, hcons, -⟩ := splitShift_eq hbuffer hkind
  rw [ahead_splitShift_eq_halves, hcons]
  simp [hkind]

theorem size_splitShift (s : Source) : s.splitShift.size = s.size := by
  unfold splitShift
  split
  · split <;> rfl
  · rfl

theorem size_bump (s : Source) : s.bump.2.size = s.size := by
  rw [bump_snd, peek_snd]
  exact fetchMany_size _ _

theorem At.placed (h : At done s) : s.Placed where
  size_eq := h.size_eq
  rest_eq := by
    have htext : s.text = done ++ Lexeme.contents s.buffer ++ s.rest := by
      rw [h.text_eq, pending, List.append_assoc]
    have hoffset : s.offset = Text.size (done ++ Lexeme.contents s.buffer) := by
      have hsize := congrArg Text.size htext
      rw [Text.size_append _ s.rest, ← h.size_eq, ← h.offset_eq] at hsize
      exact Nat.add_right_cancel hsize
    rw [hoffset, htext, Text.dropBytes?_size_append]
    rfl

theorem At.ahead_reset (h : At done s) (offset : Nat) :
    (s.reset offset).ahead = Lexemes.ofText s.text offset :=
  h.placed.ahead_reset offset

theorem ahead_ofText_eq (text : List Char) : (ofText text).ahead = Lexemes.ofText text 0 := by
  rw [ahead_ofText, Lexemes.ofText, Token.readFromByte_zero]

theorem ahead_markExamined (s : Source) (offset : Nat) :
    (s.markExamined offset).ahead = s.ahead := by
  have hfetch (n : Nat) (s : Source) : fetchMany n (s.markExamined offset) =
      { fetchMany n s with examined := (fetchMany n (s.markExamined offset)).examined } := by
    induction n generalizing s with
    | zero => rfl
    | succ n ih =>
      have hone : (s.markExamined offset).fetch = s.fetch.markExamined offset := by
        simp only [fetch, markExamined, Nat.max_right_comm]
      rw [fetchMany, hone]
      exact ih s.fetch
  funext i
  have hpeek := buffer_peek (s.markExamined offset) i
  have hpeek' := buffer_peek s i
  rw [peek_snd] at hpeek hpeek'
  rw [hfetch] at hpeek
  exact Option.some.inj (hpeek.symm.trans hpeek')

end Source

/-! ## Lexemes of texts that agree -/

namespace Lexeme

open Text (Agree)

theorem le_start_read (size fullStart : Nat) (leading : List Leaf) (offset : Nat)
    (rest : List Char) (hsize : offset + Text.size rest = size) :
    offset ≤ (read size fullStart leading offset rest).1.start := by
  fun_induction read size fullStart leading offset rest with
  | case1 leading offset rest hsplit => exact Nat.le_of_add_right_le (Nat.le_of_eq hsize)
  | case2 leading offset rest kind text rest' hsplit htrivia ih =>
    have hrest := congrArg Text.size (Token.append_of_split? hsplit)
    rw [Text.size_append] at hrest
    exact Nat.le_trans (Nat.le_add_right _ _) (ih (by omega))
  | case3 => exact Nat.le_refl _

/-- The byte up to which a lexeme depends on the text. -/
def reach (l : Lexeme) : Nat := l.stop + Token.margin l.kind

theorem reach_le (l : Lexeme) : l.reach ≤ l.stop + Source.readAhead := by
  simp only [reach, Token.margin, Source.readAhead]
  split <;> omega

/-- A lexeme depends on three bytes behind the trivia in front of it. -/
theorem Sound.start_add_le_reach {l : Lexeme} (h : l.Sound) : l.start + 3 ≤ l.reach := by
  simp only [reach, Token.margin, stop]
  split
  · rename_i hkind
    rw [h.text_of_shr hkind]
    simp [Text.size_cons, Char.utf8Size]
  · omega

/-- Texts that agree as far as the first lexeme of one depends on them begin with the same lexeme, and
what follows it agrees as well. -/
theorem read_of_agree {size fullStart n : Nat} {leading : List Leaf} {offset : Nat}
    {a b : List Char} (size' fullStart' offset' : Nat) (h : Agree n a b)
    (hsize : offset + Text.size a = size) (hsize' : offset' + Text.size b = size')
    (hsound : (read size fullStart leading offset a).1.Sound)
    (hreach : (read size fullStart leading offset a).1.reach ≤ offset + n) :
    ((read size' fullStart' leading offset' b).1.kind = (read size fullStart leading offset a).1.kind ∧
      (read size' fullStart' leading offset' b).1.text = (read size fullStart leading offset a).1.text ∧
      (read size' fullStart' leading offset' b).1.start + offset =
        (read size fullStart leading offset a).1.start + offset' ∧
      (read size' fullStart' leading offset' b).1.leading =
        (read size fullStart leading offset a).1.leading) ∧
    ∃ d, (read size fullStart leading offset a).2.1 = offset + d ∧
      (read size' fullStart' leading offset' b).2.1 = offset' + d ∧ d ≤ n ∧
      Agree (n - d) (read size fullStart leading offset a).2.2
        (read size' fullStart' leading offset' b).2.2 := by
  fun_induction read size fullStart leading offset a generalizing b n offset' with
  | case1 leading offset a hsplit =>
    -- The end of the input is seen only by texts that agree to their ends.
    obtain rfl := Token.eq_nil_of_split?_eq_none hsplit
    have hstart := Nat.le_trans hsound.start_add_le_reach hreach
    simp only [Text.size_nil, Nat.add_zero] at hstart hsize
    obtain rfl : b = [] := by
      rcases h with rfl | ⟨w, x, y, hw, rfl, hn⟩
      · rfl
      · obtain ⟨rfl, -⟩ := List.append_eq_nil_iff.1 hw.symm
        simp only [Text.size_nil] at hn
        omega
    simp only [Text.size_nil, Nat.add_zero] at hsize'
    rw [read_nil]
    refine ⟨⟨rfl, rfl, ?_, rfl⟩, 0, rfl, rfl, Nat.zero_le _, Or.inl rfl⟩
    dsimp only
    omega
  | case2 leading offset a kind text rest hsplit htrivia ih =>
    have hrest := congrArg Text.size (Token.append_of_split? hsplit)
    rw [Text.size_append] at hrest
    have hle := le_start_read size fullStart (leading ++ [(kind, text)])
      (offset + Text.size text) rest (by omega)
    have hstart := hsound.start_add_le_reach
    obtain ⟨rest', hsplit', hagree⟩ := Token.split?_of_agree_far h hsplit (by omega)
    have hrest' := congrArg Text.size (Token.append_of_split? hsplit')
    rw [Text.size_append] at hrest'
    rw [read_of_split? hsplit', if_pos htrivia]
    obtain ⟨⟨hkind, htext, hplace, hleading⟩, d, hd, hd', hdn, hlater⟩ :=
      ih (offset' + Text.size text) hagree (by omega) (by omega) hsound (by omega)
    refine ⟨⟨hkind, htext, by omega, hleading⟩, Text.size text + d, by omega, by omega, by omega, ?_⟩
    rw [Nat.sub_add_eq]
    exact hlater
  | case3 leading offset a kind text rest hsplit htrivia =>
    simp only [reach, stop] at hreach
    obtain ⟨rest', hsplit', hagree⟩ := Token.split?_of_agree h hsplit (by omega)
    rw [read_of_split? hsplit', if_neg htrivia]
    exact ⟨⟨rfl, rfl, Nat.add_comm _ _, rfl⟩, Text.size text, rfl, rfl, by omega, hagree⟩

/-- Behind the trivia in front of a lexeme, the lexeme is read without them. -/
theorem read_restart (size fullStart : Nat) (leading : List Leaf) (offset : Nat)
    (rest : List Char) (hsize : offset + Text.size rest = size) :
    ∃ trivia rest', rest = trivia ++ rest' ∧
      (read size fullStart leading offset rest).1.start = offset + Text.size trivia ∧
      (read size (offset + Text.size trivia) [] (offset + Text.size trivia) rest').1 =
        { (read size fullStart leading offset rest).1 with
          leading := []
          fullStart := offset + Text.size trivia } ∧
      (read size (offset + Text.size trivia) [] (offset + Text.size trivia) rest').2 =
        (read size fullStart leading offset rest).2 := by
  fun_induction read size fullStart leading offset rest with
  | case1 leading offset rest hsplit =>
    obtain rfl := Token.eq_nil_of_split?_eq_none hsplit
    simp only [Text.size_nil, Nat.add_zero] at hsize
    subst hsize
    exact ⟨[], [], rfl, by simp, by simp [read_nil]⟩
  | case2 leading offset rest kind text rest' hsplit htrivia ih =>
    have hrest := Token.append_of_split? hsplit
    have hsz : Text.size text + Text.size rest' = Text.size rest := by
      rw [← hrest, Text.size_append]
    obtain ⟨trivia, rest'', hcut, hstart, hread⟩ := ih (by omega)
    rw [Nat.add_assoc, ← Text.size_append] at hstart hread
    exact ⟨text ++ trivia, rest'', by rw [← hrest, hcut, List.append_assoc], hstart, hread⟩
  | case3 leading offset rest kind text rest' hsplit htrivia =>
    refine ⟨[], rest, rfl, by simp, ?_⟩
    rw [read_of_split? hsplit, if_neg htrivia]
    simp

end Lexeme

/-! ## Streams that agree -/

namespace Lexemes

open Text (Agree)

variable {f g h : Lexemes} {W V p q : Nat} {moves more : List Move}

/-- Counted from byte `p` of one text and byte `q` of another, the streams have the same lexemes as far
as these depend on the bytes in front of `W` only, up to the trivia in front of the first. -/
structure Agrees (W p : Nat) (f : Lexemes) (q : Nat) (g : Lexemes) : Prop where
  same : ∀ i, (f i).reach ≤ W →
    (g i).kind = (f i).kind ∧ (g i).text = (f i).text ∧ (g i).start + p = (f i).start + q
  leading : ∀ i, (f (i + 1)).reach ≤ W → (g (i + 1)).leading = (f (i + 1)).leading

theorem Agrees.refl (W p : Nat) (f : Lexemes) : Agrees W p f p f where
  same _ _ := ⟨rfl, rfl, rfl⟩
  leading _ _ := rfl

theorem Agrees.mono (hfg : Agrees W p f q g) (hV : V ≤ W) : Agrees V p f q g where
  same i hi := hfg.same i (Nat.le_trans hi hV)
  leading i hi := hfg.leading i (Nat.le_trans hi hV)

theorem Agrees.reach (hfg : Agrees W p f q g) {i : Nat} (hi : (f i).reach ≤ W) :
    (g i).reach + p = (f i).reach + q := by
  obtain ⟨hkind, htext, hstart⟩ := hfg.same i hi
  simp only [Lexeme.reach, Lexeme.stop, hkind, htext]
  omega

theorem Agrees.trans {p' r : Nat} (hfg : Agrees W p f q g) (hgh : Agrees V p' g r h)
    (hV : W + q ≤ V + p) : Agrees W (p + p') f (q + r) h where
  same i hi := by
    have hreach := hfg.reach hi
    obtain ⟨hkind, htext, hstart⟩ := hfg.same i hi
    obtain ⟨hkind', htext', hstart'⟩ := hgh.same i (by omega)
    exact ⟨hkind'.trans hkind, htext'.trans htext, by omega⟩
  leading i hi := by
    have hreach := hfg.reach hi
    exact (hgh.leading i (by omega)).trans (hfg.leading i hi)

/-- Only the trivia in front of the first lexeme may differ. -/
structure Alike (f g : Lexemes) : Prop where
  kind : (g 0).kind = (f 0).kind
  text : (g 0).text = (f 0).text
  start : (g 0).start = (f 0).start
  later : ∀ n, g (n + 1) = f (n + 1)

theorem Alike.agrees (h : Alike f g) (W : Nat) : Agrees W 0 f 0 g where
  same i _ := by
    cases i with
    | zero => exact ⟨h.kind, h.text, by rw [h.start]⟩
    | succ i =>
      rw [h.later i]
      exact ⟨rfl, rfl, rfl⟩
  leading i _ := by rw [h.later i]

/-! ### After moves -/

theorem Agrees.take (hfg : Agrees W p f q g) : Agrees W p f.take q g.take where
  same i hi := hfg.same (i + 1) hi
  leading i hi := hfg.leading (i + 1) hi

theorem reach_halves (htext : (f 0).text = ['>', '>']) (hkind : (f 0).kind = .shr) :
    (f.halves 0).reach = (f 0).reach + 1 := by
  simp [Lexeme.reach, Lexeme.stop, halves, htext, hkind, Token.margin, Text.size_cons,
    Char.utf8Size]

theorem Agrees.halves (hfg : Agrees W p f q g) (hkind : (f 0).kind = .shr)
    (htext : (f 0).text = ['>', '>']) : Agrees W p f.halves q g.halves := by
  have hreach := reach_halves htext hkind
  refine ⟨fun i hi => ?_, fun i hi => ?_⟩
  · rcases i with _ | _ | i
    · obtain ⟨-, -, hstart⟩ := hfg.same 0 (by omega)
      exact ⟨rfl, rfl, hstart⟩
    · change (f.halves 1).reach ≤ W at hi
      have hlater : (f.halves 1).reach = (f.halves 0).reach + 1 := by
        simp only [Lexeme.reach, Lexeme.stop, Lexemes.halves]
        omega
      obtain ⟨-, -, hstart⟩ := hfg.same 0 (by omega)
      refine ⟨rfl, rfl, ?_⟩
      simp only [Lexemes.halves]
      omega
    · exact hfg.same (i + 1) hi
  · cases i with
    | zero => rfl
    | succ i => exact hfg.leading i hi

/-- The moves can be made, and only lexemes that depend on bytes in front of `W` are split. -/
def Allows (W : Nat) : List Move → Lexemes → Prop
  | [], _ => True
  | .take :: moves, f => Allows W moves f.take
  | .split :: moves, f =>
    (f 0).kind = .shr ∧ (f 0).text = ['>', '>'] ∧ (f 0).reach ≤ W ∧ Allows W moves f.halves

theorem Allows.mono (h : Allows W moves f) (hV : W ≤ V) : Allows V moves f := by
  induction moves generalizing f with
  | nil => trivial
  | cons move moves ih =>
    cases move with
    | take => exact ih h
    | split => exact ⟨h.1, h.2.1, Nat.le_trans h.2.2.1 hV, ih h.2.2.2⟩

theorem allows_append :
    Allows W (moves ++ more) f ↔ Allows W moves f ∧ Allows W more (after moves f) := by
  induction moves generalizing f with
  | nil => simp [Allows]
  | cons move moves ih =>
    cases move with
    | take => exact ih
    | split =>
      have hstep : after (.split :: moves) f = after moves f.halves := rfl
      simp only [List.cons_append, Allows, ih, hstep, and_assoc]

theorem Agrees.after (hfg : Agrees V p f q g) (h : Allows W moves f) :
    Agrees V p (Lexemes.after moves f) q (Lexemes.after moves g) := by
  induction moves generalizing f g with
  | nil => exact hfg
  | cons move moves ih =>
    cases move with
    | take => exact ih hfg.take h
    | split => exact ih (hfg.halves h.1 h.2.1) h.2.2.2

/-- Moves that can be made in one stream can be made in another that agrees with it. -/
theorem Agrees.allows (hfg : Agrees W p f q g) (h : Allows W moves f) (hV : W + q ≤ V + p) :
    Allows V moves g := by
  induction moves generalizing f g with
  | nil => trivial
  | cons move moves ih =>
    cases move with
    | take => exact ih hfg.take h
    | split =>
      obtain ⟨hkind, htext, hreach, hmoves⟩ := h
      obtain ⟨hkind', htext', -⟩ := hfg.same 0 hreach
      have hreach' := hfg.reach hreach
      exact ⟨hkind'.trans hkind, htext'.trans htext, by omega, ih (hfg.halves hkind htext) hmoves⟩

/-- The lexemes in front have the same trivia, as far as they were looked at. -/
def Exact (W : Nat) (f g : Lexemes) : Prop := (f 0).reach ≤ W → (g 0).leading = (f 0).leading

theorem Exact.after (h : Exact V f g) (hfg : Agrees V p f q g) (hallows : Allows W moves f) :
    Exact V (Lexemes.after moves f) (Lexemes.after moves g) := by
  induction moves generalizing f g with
  | nil => exact h
  | cons move moves ih =>
    cases move with
    | take => exact ih (fun hreach => hfg.leading 0 hreach) hfg.take hallows
    | split =>
      have hhalves : (f.move .split 0).reach = (f 0).reach + 1 :=
        reach_halves hallows.2.1 hallows.1
      exact ih (fun hreach => h (by omega)) (hfg.halves hallows.1 hallows.2.1) hallows.2.2.2

/-- Once a lexeme has been taken, the trivia in front are the same as well. -/
theorem Agrees.exact_after (hfg : Agrees V p f q g) (h : Allows W moves f)
    (htake : .take ∈ moves) : Exact V (Lexemes.after moves f) (Lexemes.after moves g) := by
  induction moves generalizing f g with
  | nil => cases htake
  | cons move moves ih =>
    cases move with
    | take =>
      have hexact : Exact V f.take g.take := fun hreach => hfg.leading 0 hreach
      exact hexact.after hfg.take h
    | split =>
      rcases List.mem_cons.1 htake with htake | htake
      · cases htake
      · exact ih (hfg.halves h.1 h.2.1) h.2.2.2 htake

/-- As long as nothing is taken, the first lexeme stands where it stood. -/
theorem after_front (h : .take ∉ moves) : (Lexemes.after moves f 0).leading = (f 0).leading ∧
    (Lexemes.after moves f 0).start = (f 0).start := by
  induction moves generalizing f with
  | nil => exact ⟨rfl, rfl⟩
  | cons move moves ih =>
    cases move with
    | take => exact absurd List.mem_cons_self h
    | split => exact ih fun hmem => h (List.mem_cons_of_mem _ hmem)

/-! ## Streams of texts that agree -/

theorem ofText_zero (a b : List Char) : ofText (a ++ b) (Text.size a) 0 =
    (Lexeme.read (Text.size (a ++ b)) (Text.size a) [] (Text.size a) b).1 := by
  obtain ⟨word, rest, -, hread, -⟩ := ofText_step a b
  rw [hread]

theorem ofText_zero_spec (a b : List Char) : (ofText (a ++ b) (Text.size a) 0).Sound ∧
    (ofText (a ++ b) (Text.size a) 0).fullStart = Text.size a ∧
    (ofText (a ++ b) (Text.size a) 0).start = Text.size a +
      Text.size (Lexeme.spell (ofText (a ++ b) (Text.size a) 0).leading) := by
  rw [ofText_zero]
  obtain ⟨-, -, hsound, hfull, hstart, -⟩ := Lexeme.read_spec (Text.size (a ++ b)) (Text.size a) []
    (Text.size a) b (by simp) (Text.size_append a b).symm (by simp)
  exact ⟨hsound, hfull, hstart⟩

/-- The text can be cut behind every lexeme, and reading goes on there. -/
theorem ofText_take (a b : List Char) : ∃ c d, a ++ b = c ++ d ∧
    (ofText (a ++ b) (Text.size a) 0).stop = Text.size c ∧
    (ofText (a ++ b) (Text.size a)).take = ofText (a ++ b) (Text.size c) := by
  obtain ⟨word, rest, rfl, hread, htake⟩ := ofText_step a b
  refine ⟨a ++ word, rest, (List.append_assoc _ _ _).symm, ?_, htake⟩
  have hstop := Lexeme.stop_read (Text.size (a ++ (word ++ rest))) (Text.size a) (word ++ rest)
    (Text.size_append _ _).symm
  rw [hread] at hstop
  exact hstop

/-- Behind the trivia in front of a lexeme, reading goes on in the same way. -/
theorem alike_ofText_start (a b : List Char) : ∃ c d, a ++ b = c ++ d ∧
    (ofText (a ++ b) (Text.size a) 0).start = Text.size c ∧
    Alike (ofText (a ++ b) (Text.size c)) (ofText (a ++ b) (Text.size a)) := by
  obtain ⟨trivia, rest, rfl, hstart, hfirst, hlater⟩ :=
    Lexeme.read_restart (Text.size (a ++ b)) (Text.size a) [] (Text.size a) b
      (Text.size_append a b).symm
  rw [← ofText_zero, ← Text.size_append] at hstart
  rw [← Text.size_append] at hfirst hlater
  obtain ⟨word, after, -, hread, htake⟩ := ofText_step a (trivia ++ rest)
  obtain ⟨word', after', -, hread', htake'⟩ := ofText_step (a ++ trivia) rest
  rw [List.append_assoc] at hread' htake'
  rw [hread] at hfirst hlater
  rw [hread'] at hfirst hlater
  dsimp only at hfirst
  have hsize : Text.size (a ++ trivia ++ word') = Text.size (a ++ word) :=
    congrArg Prod.fst hlater
  refine ⟨a ++ trivia, rest, (List.append_assoc _ _ _).symm, hstart, ?_⟩
  rw [hsize, ← htake] at htake'
  exact ⟨by rw [hfirst], by rw [hfirst], by rw [hfirst], fun n => (congrFun htake' n).symm⟩

theorem le_start_ofText (a b : List Char) (i : Nat) :
    Text.size a ≤ (ofText (a ++ b) (Text.size a) i).start := by
  induction i generalizing a b with
  | zero =>
    obtain ⟨-, -, hstart⟩ := ofText_zero_spec a b
    omega
  | succ i ih =>
    obtain ⟨word, rest, rfl, -, htake⟩ := ofText_step a b
    have hlater := ih (a ++ word) rest
    rw [List.append_assoc, ← htake] at hlater
    exact Nat.le_trans (by rw [Text.size_append]; omega) hlater

theorem ofText_sound (a b : List Char) (i : Nat) : (ofText (a ++ b) (Text.size a) i).Sound := by
  induction i generalizing a b with
  | zero => exact (ofText_zero_spec a b).1
  | succ i ih =>
    obtain ⟨word, rest, rfl, -, htake⟩ := ofText_step a b
    have hlater := ih (a ++ word) rest
    rwa [List.append_assoc, ← htake] at hlater

/-- Lexemes that depend on nothing but bytes in which two texts agree are the same in both. -/
theorem ofText_of_agree {n : Nat} (a a' : List Char) {b b' : List Char} (hab : Agree n b b') (i : Nat)
    (hi : (ofText (a ++ b) (Text.size a) i).reach ≤ Text.size a + n) :
    (ofText (a' ++ b') (Text.size a') i).kind = (ofText (a ++ b) (Text.size a) i).kind ∧
      (ofText (a' ++ b') (Text.size a') i).text = (ofText (a ++ b) (Text.size a) i).text ∧
      (ofText (a' ++ b') (Text.size a') i).start + Text.size a =
        (ofText (a ++ b) (Text.size a) i).start + Text.size a' ∧
      (ofText (a' ++ b') (Text.size a') i).leading = (ofText (a ++ b) (Text.size a) i).leading := by
  induction i generalizing n a b a' b' with
  | zero =>
    have hsound := ofText_sound a b 0
    rw [ofText_zero] at hsound hi
    rw [ofText_zero, ofText_zero]
    exact (Lexeme.read_of_agree _ _ _ hab (Text.size_append a b).symm (Text.size_append a' b').symm
      hsound hi).1
  | succ i ih =>
    obtain ⟨word, rest, hword, hread, htake⟩ := ofText_step a b
    obtain ⟨word', rest', hword', hread', htake'⟩ := ofText_step a' b'
    have hlater : ofText (a ++ b) (Text.size a) (i + 1) =
        ofText (a ++ word ++ rest) (Text.size (a ++ word)) i := by
      rw [List.append_assoc, ← hword, ← htake]
      rfl
    have hlater' : ofText (a' ++ b') (Text.size a') (i + 1) =
        ofText (a' ++ word' ++ rest') (Text.size (a' ++ word')) i := by
      rw [List.append_assoc, ← hword', ← htake']
      rfl
    -- The first lexeme ends before the later one begins, so both texts begin with it.
    have hfirst : (ofText (a ++ b) (Text.size a) 0).reach ≤ Text.size a + n := by
      have hstop := Lexeme.stop_read _ _ b (Text.size_append a b).symm
      have hreach := (ofText (a ++ b) (Text.size a) 0).reach_le
      have hstart := le_start_ofText (a ++ word) rest i
      have hsound := (ofText_sound (a ++ word) rest i).start_add_le_reach
      rw [hread] at hstop
      rw [hlater] at hi
      dsimp only at hstop
      rw [Source.readAhead] at hreach
      omega
    have hsound := ofText_sound a b 0
    rw [ofText_zero] at hfirst hsound
    obtain ⟨-, d, hd, hd', hdn, hagree⟩ := Lexeme.read_of_agree (Text.size (a' ++ b')) (Text.size a')
      (Text.size a') hab (Text.size_append a b).symm (Text.size_append a' b').symm hsound hfirst
    rw [hread] at hd hagree
    rw [hread'] at hd' hagree
    dsimp only at hd hd' hagree
    rw [hlater] at hi ⊢
    rw [hlater']
    obtain ⟨hkind, htext, hstart, hleading⟩ :=
      ih (a ++ word) (a' ++ word') hagree (by omega)
    exact ⟨hkind, htext, by omega, hleading⟩

/-- Streams of texts that agree for `n` bytes agree as far as these. -/
theorem agrees_ofText {n : Nat} (a a' : List Char) {b b' : List Char} (h : Agree n b b') :
    Agrees (Text.size a + n) (Text.size a) (ofText (a ++ b) (Text.size a))
      (Text.size a') (ofText (a' ++ b') (Text.size a')) := by
  refine ⟨fun i hi => ?_, fun i hi => (ofText_of_agree a a' h (i + 1) hi).2.2.2⟩
  obtain ⟨hkind, htext, hstart, -⟩ := ofText_of_agree a a' h i hi
  exact ⟨hkind, htext, hstart⟩

/-! ## Places in a text -/

/-- Where a stream stands: in front of a lexeme of the text, of the halves of a `>>`, or of the second
of them. -/
inductive Phase where
  | whole
  | split
  | half
  deriving DecidableEq

def Phase.move : Phase → Move → Phase
  | .split, .take => .half
  | _, .take => .whole
  | _, .split => .split

/-- Where a stream stands after some moves. -/
def Phase.after (moves : List Move) (phase : Phase) : Phase := moves.foldl Phase.move phase

theorem Phase.after_append (a b : List Move) (phase : Phase) :
    Phase.after (a ++ b) phase = Phase.after b (Phase.after a phase) :=
  List.foldl_append

/-- A stream that stands somewhere in a text. -/
inductive Reading (text : List Char) : Phase → Lexemes → Prop where
  | whole {a b : List Char} (htext : text = a ++ b) : Reading text .whole (ofText text (Text.size a))
  | split {a b : List Char} (htext : text = a ++ b)
      (hkind : (ofText text (Text.size a) 0).kind = .shr) :
      Reading text .split (ofText text (Text.size a)).halves
  | half {a b : List Char} (htext : text = a ++ b)
      (hkind : (ofText text (Text.size a) 0).kind = .shr) :
      Reading text .half (ofText text (Text.size a)).halves.take

variable {text : List Char} {phase : Phase}

theorem Reading.take (hf : Reading text phase f) : Reading text (phase.move .take) f.take := by
  cases hf with
  | @whole a b htext =>
    subst htext
    obtain ⟨c, d, hcut, -, htake⟩ := ofText_take a b
    rw [htake]
    exact .whole hcut
  | split htext hkind => exact .half htext hkind
  | @half a b htext hkind =>
    subst htext
    obtain ⟨c, d, hcut, -, htake⟩ := ofText_take a b
    -- Behind both halves comes what follows the whole.
    have hsame : (ofText (a ++ b) (Text.size a)).halves.take.take =
        (ofText (a ++ b) (Text.size a)).take := rfl
    rw [hsame, htake]
    exact .whole hcut

/-- A `>>` in front has not been split. -/
theorem Reading.whole_of_shr (hf : Reading text phase f) (hkind : (f 0).kind = .shr) :
    ∃ a b, text = a ++ b ∧ f = ofText text (Text.size a) := by
  cases hf with
  | whole htext => exact ⟨_, _, htext, rfl⟩
  | split => cases hkind
  | half => cases hkind

theorem Reading.halves (hf : Reading text phase f) (hkind : (f 0).kind = .shr) :
    Reading text .split f.halves := by
  obtain ⟨a, b, htext, rfl⟩ := hf.whole_of_shr hkind
  exact .split htext hkind

theorem Reading.after (hf : Reading text phase f) (h : Allows W moves f) :
    Reading text (phase.after moves) (Lexemes.after moves f) := by
  induction moves generalizing f phase with
  | nil => exact hf
  | cons move moves ih =>
    cases move with
    | take => exact ih hf.take h
    | split =>
      have hsplit : phase.move .split = .split := by cases phase <;> rfl
      exact ih (hsplit ▸ hf.halves h.1) h.2.2.2

/-! ### Between the halves of a `>>` -/

/-- No `>>` of the text is directly followed by `>` or `=`, so the second half of it is read as a `>`
wherever reading goes on between the halves. -/
def Separate (text : List Char) : Prop :=
  ∀ a b c, text = a ++ '>' :: '>' :: c :: b → c ≠ '>' ∧ c ≠ '='

/-- The second half of a `>>` stands behind the first, and then comes what follows the whole. -/
theorem half_spec {a b : List Char} (hkind : (ofText (a ++ b) (Text.size a) 0).kind = .shr) :
    ∃ c d, a ++ b = c ++ '>' :: '>' :: d ∧
      (ofText (a ++ b) (Text.size a)).halves.take 0 =
        ⟨.gt, ['>'], Text.size (c ++ ['>']), [], Text.size (c ++ ['>'])⟩ ∧
      (ofText (a ++ b) (Text.size a)).halves.take.take =
        ofText (a ++ b) (Text.size (c ++ ['>', '>'])) := by
  obtain ⟨hsound, -, hstart⟩ := ofText_zero_spec a b
  obtain ⟨word, rest, rfl, hread, htake⟩ := ofText_step a b
  have hsize : Text.size a + Text.size (word ++ rest) = Text.size (a ++ (word ++ rest)) :=
    (Text.size_append _ _).symm
  obtain ⟨hcontent, -⟩ := Lexeme.read_spec (Text.size (a ++ (word ++ rest))) (Text.size a) []
    (Text.size a) (word ++ rest) (by simp) hsize (by simp)
  rw [hread] at hcontent
  generalize hl : ofText (a ++ (word ++ rest)) (Text.size a) 0 = l at *
  have hword : word = Lexeme.spell l.leading ++ ['>', '>'] := by
    rw [Lexeme.spell_nil, List.nil_append] at hcontent
    rw [← List.append_cancel_right hcontent, Lexeme.content, hsound.text_of_shr hkind]
  have hplace : Text.size (a ++ Lexeme.spell l.leading ++ ['>']) = l.start + 1 := by
    rw [Text.size_append, Text.size_append, hstart]
    rfl
  refine ⟨a ++ Lexeme.spell l.leading, rest, by simp [hword], ?_, ?_⟩
  · rw [hplace, ← hl]
    rfl
  · have hsame : (ofText (a ++ (word ++ rest)) (Text.size a)).halves.take.take =
        (ofText (a ++ (word ++ rest)) (Text.size a)).take := rfl
    rw [hsame, htake, List.append_assoc, ← hword]

/-- A `>` that is not followed by `>` or `=` is a lexeme. -/
theorem ofText_angle {c d : List Char} (hnext : ∀ x ∈ d.head?, x ≠ '>' ∧ x ≠ '=') :
    ofText (c ++ '>' :: d) (Text.size c) 0 = ⟨.gt, ['>'], Text.size c, [], Text.size c⟩ ∧
      (ofText (c ++ '>' :: d) (Text.size c)).take =
        ofText (c ++ '>' :: d) (Text.size (c ++ ['>'])) := by
  have hfirst := Scan.first_angle d
  have hsplit := Token.split?_of_ne_nil (a := '>' :: d) (List.cons_ne_nil _ _)
  have hone : Scan.first ('>' :: d) = (.gt, 1) := by
    rw [hfirst]
    split
    · simp at hnext
    · simp at hnext
    · rfl
  rw [hone] at hsplit
  obtain ⟨word, rest, -, hread, htake⟩ := ofText_step c ('>' :: d)
  rw [Lexeme.read_of_split? hsplit, if_neg (by decide)] at hread
  have hplace : Text.size (c ++ ['>']) = Text.size (c ++ word) := by
    rw [Text.size_append]
    exact congrArg (fun r => r.2.1) hread
  exact ⟨(congrArg Prod.fst hread).symm, hplace ▸ htake⟩

/-- Where the text between the halves of a `>>` reads as a `>`, reading can go on there. -/
theorem Reading.half_eq {P : Nat} (hf : Reading text .half f) (hplace : (f 0).fullStart = P) :
    ∃ c d, text = c ++ '>' :: '>' :: d ∧ Text.size (c ++ ['>']) = P ∧
      ((∀ x ∈ d.head?, x ≠ '>' ∧ x ≠ '=') → f = ofText text P) := by
  cases hf with
  | @half a b htext hkind =>
    subst htext
    obtain ⟨c, d, hcut, hzero, hlater⟩ := half_spec hkind
    rw [hzero] at hplace
    dsimp only at hplace
    refine ⟨c, d, hcut, hplace, fun hnext => funext fun n => ?_⟩
    have hcut' : a ++ b = c ++ ['>'] ++ '>' :: d := by simp [hcut]
    obtain ⟨hfirst, htake⟩ := ofText_angle (c := c ++ ['>']) hnext
    rw [← hcut', hplace] at hfirst
    rw [← hcut', hplace] at htake
    cases n with
    | zero => rw [hzero, hfirst, hplace]
    | succ n =>
      have hbehind : (ofText (a ++ b) P).take = (ofText (a ++ b) (Text.size a)).halves.take.take := by
        rw [htake, hlater]
        simp
      exact (congrFun hbehind n).symm

end Lexemes
end SqlTree
