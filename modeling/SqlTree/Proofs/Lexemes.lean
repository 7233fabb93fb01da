import SqlTree.Proofs.Lines
import SqlTree.Proofs.Tiling
import SqlTree.Proofs.Turn

/-!
# Looking ahead does not change what is read

A source is asked for lexemes in any order: some are looked at, far ahead or past the end, and some are
taken. What is taken are the tokens of the text, one after the other, each with the trivia in front of
it, and at the end there is no end of them. How far one has looked shows in one place only, the mark up
to which bytes were examined.

- `Lexeme.ofTokens`, `Lexemes.ofTokens` : the lexemes that are made of tokens, and the stream of them
- `Lexeme.read_eq_ofTokens` : reading makes the first of them
- `Source.Placed`           : a source that stands somewhere in its text
- `Source.Placed.ahead_eq`  : the stream ahead of a source
- `Source.Use`, `Source.after` : everything that is done with a source
- `Source.taken_spec`       : what is taken, whatever is looked at and whatever was done before
-/

namespace SqlTree

/-! ## Lexemes made of tokens -/

/-- The tokens of a text from a byte on. There are none past the end or inside a character. -/
def Token.readFromByte (text : List Char) (offset : Nat) : List Token :=
  match Text.splitAt? offset text with
  | some (before, rest) => readFrom (Place.origin.advance before) rest
  | none => []

/-- The lexemes that are made of the tokens at the end of a text of `size` bytes. Every significant
token takes the trivia in front of it, and the end of the text those that are left over. -/
def Lexeme.ofTokens (size : Nat) (tokens : List Token) : List Lexeme :=
  let trivia := tokens.takeWhile fun token => token.kind.isTrivia
  let leading := trivia.map fun token => (token.kind, token.text)
  let fullStart := trivia.head?.map Token.offset
  match _h : tokens.dropWhile fun token => token.kind.isTrivia with
  | [] => [⟨.eof, [], size, leading, fullStart.getD size⟩]
  | token :: rest =>
    ⟨token.kind, token.text, token.offset, leading, fullStart.getD token.offset⟩ ::
      ofTokens size rest
termination_by tokens.length
decreasing_by
  have hle := (List.dropWhile_suffix (l := tokens) fun token => token.kind.isTrivia).length_le
  rw [_h, List.length_cons] at hle
  exact hle

/-- Lexemes one after the other, without an end. -/
abbrev Lexemes := Nat → Lexeme

namespace Lexemes

/-- The lexemes of the tokens, and then the end of the text again and again. -/
def ofTokens (size : Nat) (tokens : List Token) : Lexemes :=
  fun n => (Lexeme.ofTokens size tokens).getD n (.eof size)

/-- The stream in which the first lexeme, a `>>`, is two `>`; the first of them keeps the trivia. -/
def halves (f : Lexemes) : Lexemes
  | 0 => { f 0 with kind := .gt, text := ['>'] }
  | 1 => ⟨.gt, ['>'], (f 0).start + 1, [], (f 0).start + 1⟩
  | n + 2 => f (n + 1)

variable (size : Nat) {trivia : List Token} {token : Token}

/-- The trivia at the end of a text go with the end. -/
theorem ofTokens_of_trivia (h : ∀ t ∈ trivia, t.kind.isTrivia = true) :
    ofTokens size trivia 0 = ⟨.eof, [], size, trivia.map fun t => (t.kind, t.text),
        (trivia.head?.map Token.offset).getD size⟩ ∧
      ∀ n, ofTokens size trivia (n + 1) = .eof size := by
  have hall : Lexeme.ofTokens size trivia = [⟨.eof, [], size,
      trivia.map fun t => (t.kind, t.text), (trivia.head?.map Token.offset).getD size⟩] := by
    rw [Lexeme.ofTokens]
    split
    · rw [List.takeWhile_eq_self_iff.2 h]
    · rename_i hdrop
      rw [List.dropWhile_eq_nil_iff.2 h] at hdrop
      cases hdrop
  simp [ofTokens, hall]

/-- The trivia in front of a significant token go with it. -/
theorem ofTokens_append_cons (tail : List Token) (h : ∀ t ∈ trivia, t.kind.isTrivia = true)
    (htoken : token.kind.isTrivia = false) :
    ofTokens size (trivia ++ token :: tail) 0 = ⟨token.kind, token.text, token.offset,
        trivia.map fun t => (t.kind, t.text), (trivia.head?.map Token.offset).getD token.offset⟩ ∧
      ∀ n, ofTokens size (trivia ++ token :: tail) (n + 1) = ofTokens size tail n := by
  have hall : Lexeme.ofTokens size (trivia ++ token :: tail) = ⟨token.kind, token.text, token.offset,
      trivia.map fun t => (t.kind, t.text), (trivia.head?.map Token.offset).getD token.offset⟩ ::
        Lexeme.ofTokens size tail := by
    have htake : (trivia ++ token :: tail).takeWhile (fun t => t.kind.isTrivia) = trivia := by
      simp [List.takeWhile_append_of_pos h, htoken]
    have hdrop : (trivia ++ token :: tail).dropWhile (fun t => t.kind.isTrivia) = token :: tail := by
      simp [List.dropWhile_append_of_pos h, htoken]
    rw [Lexeme.ofTokens]
    split
    · rename_i hnil
      rw [hdrop] at hnil
      cases hnil
    · rename_i hcons
      rw [hdrop] at hcons
      cases hcons
      rw [htake]
  simp [ofTokens, hall]

end Lexemes

/-! ## Reading lexemes -/

namespace Token

variable {text rest : List Char} {token : Token}

theorem Place.advance_nil (place : Place) : place.advance [] = place := rfl

theorem Place.advance_append (place : Place) (a b : List Char) :
    (place.advance a).advance b = place.advance (a ++ b) := by
  simp only [advance, Text.size_append, Point.advance_append, Nat.add_assoc]

theorem le_offset_of_mem {place : Place} (h : token ∈ readFrom place rest) :
    place.offset ≤ token.offset := by
  induction rest using split_induction generalizing place with
  | nil =>
    rw [readFrom_nil] at h
    cases h
  | cons hsplit ih =>
    rw [readFrom_of_split? hsplit] at h
    rcases List.mem_cons.1 h with rfl | h
    · exact Nat.le_refl _
    · exact Nat.le_trans (Nat.le_add_right _ _) (ih h)

theorem readFromByte_zero (text : List Char) : readFromByte text 0 = readAll text := by
  have hcut : Text.splitAt? 0 text = some ([], text) := Text.splitAt?_size_append [] text
  have horigin : Place.origin.advance [] = Place.origin := rfl
  rw [readFromByte, hcut]
  simp only [horigin, readAll]

theorem readFromByte_append (a b : List Char) :
    readFromByte (a ++ b) (Text.size a) = readFrom (Place.origin.advance a) b := by
  rw [readFromByte, Text.splitAt?_size_append]

/-- Past the end there are as many tokens as at the end. -/
theorem readFromByte_min (text : List Char) (offset : Nat) :
    readFromByte text (min offset (Text.size text)) = readFromByte text offset := by
  rcases Nat.le_total offset (Text.size text) with hle | hle
  · rw [Nat.min_eq_left hle]
  · rw [Nat.min_eq_right hle]
    cases hcut : Text.splitAt? offset text with
    | none =>
      have hend := readFromByte_append text []
      rw [List.append_nil, readFrom_nil] at hend
      rw [hend, readFromByte, hcut]
    | some parts =>
      obtain ⟨htext, hsize⟩ := Text.append_of_splitAt? hcut
      have hall := congrArg Text.size htext
      rw [Text.size_append] at hall
      rw [show offset = Text.size text by omega]

/-- Tokens are read from a byte only if it is in front of them. -/
theorem le_offset_of_mem_readFromByte {offset : Nat} (h : token ∈ readFromByte text offset) :
    offset ≤ token.offset := by
  unfold readFromByte at h
  split at h
  · rename_i before rest hcut
    have hplace : (Place.origin.advance before).offset = 0 + Text.size before := rfl
    have hle := le_offset_of_mem h
    rw [hplace, (Text.append_of_splitAt? hcut).2, Nat.zero_add] at hle
    exact hle
  · cases h

end Token

namespace Lexeme

theorem read_nil (size fullStart : Nat) (leading : List Leaf) (offset : Nat) :
    read size fullStart leading offset [] =
      (⟨.eof, [], size, leading, if leading.isEmpty then size else fullStart⟩, offset, []) := by
  rw [read]
  split
  · rfl
  · rename_i hsome
    cases hsome

theorem read_of_split? {rest text rest' : List Char} {kind : Kind}
    (h : Token.split? rest = some (kind, text, rest')) (size fullStart : Nat) (leading : List Leaf)
    (offset : Nat) : read size fullStart leading offset rest =
      if kind.isTrivia then
        read size fullStart (leading ++ [(kind, text)]) (offset + Text.size text) rest'
      else (⟨kind, text, offset, leading, fullStart⟩, offset + Text.size text, rest') := by
  rw [read]
  split
  · rename_i hnone
    rw [h] at hnone
    cases hnone
  · rename_i hsome
    rw [h] at hsome
    cases hsome
    rfl

/-- A lexeme ends where reading goes on. -/
theorem stop_read (size offset : Nat) (rest : List Char) (hsize : offset + Text.size rest = size) :
    (read size offset [] offset rest).1.stop = (read size offset [] offset rest).2.1 := by
  obtain ⟨hcontent, hoffset, -, hfull, hstart, -⟩ :=
    read_spec size offset [] offset rest (by simp) hsize (by simp)
  have hall := congrArg Text.size hcontent
  rw [spell_nil, List.nil_append, Text.size_append] at hall
  rw [stop_eq hstart]
  omega

/-- Reading a lexeme makes it of the first tokens, behind trivia that have been read already, and the
lexemes that follow are made of the tokens that follow. -/
theorem read_eq_ofTokens (size : Nat) (place : Token.Place) (rest : List Char) {trivia : List Token}
    (htrivia : ∀ t ∈ trivia, t.kind.isTrivia = true) :
    ∃ word tokens after, rest = word ++ after ∧
      Token.readFrom place rest = tokens ++ Token.readFrom (place.advance word) after ∧
      (∀ t ∈ tokens, t.span.stop ≤ place.offset + Text.size word) ∧
      read size ((trivia.head?.map Token.offset).getD place.offset)
          (trivia.map fun t => (t.kind, t.text)) place.offset rest =
        (Lexemes.ofTokens size (trivia ++ Token.readFrom place rest) 0,
          place.offset + Text.size word, after) ∧
      ∀ n, Lexemes.ofTokens size (trivia ++ Token.readFrom place rest) (n + 1) =
        Lexemes.ofTokens size (Token.readFrom (place.advance word) after) n := by
  induction rest using Token.split_induction generalizing place trivia with
  | nil =>
    obtain ⟨hfirst, hlater⟩ := Lexemes.ofTokens_of_trivia size htrivia
    obtain ⟨hend, hagain⟩ := Lexemes.ofTokens_of_trivia size (List.forall_mem_nil _)
    refine ⟨[], [], [], rfl, rfl, by simp, ?_, fun n => ?_⟩
    · rw [Token.readFrom_nil, List.append_nil, hfirst, read_nil]
      cases trivia <;> rfl
    · rw [Token.readFrom_nil, Token.readFrom_nil, List.append_nil, hlater]
      cases n with
      | zero => exact hend.symm
      | succ n => exact (hagain n).symm
  | @cons kind text rest rest' hsplit ih =>
    have hword := Token.append_of_split? hsplit
    rw [Token.readFrom_of_split? hsplit, read_of_split? hsplit]
    generalize htoken : (⟨kind, text, place.offset, place.point, place.point.advance text⟩ : Token) =
      token
    have hstop : token.span.stop = place.offset + Text.size text := by rw [← htoken]; rfl
    cases htriv : kind.isTrivia with
    | false =>
      -- A significant token ends the lexeme.
      have hsignificant : token.kind.isTrivia = false := by rw [← htoken]; exact htriv
      obtain ⟨hfirst, hlater⟩ := Lexemes.ofTokens_append_cons size
        (Token.readFrom (place.advance text) rest') htrivia hsignificant
      refine ⟨text, [token], rest', hword.symm, rfl, ?_, ?_, hlater⟩
      · simp [hstop]
      · rw [hfirst, ← htoken]
        rfl
    | true =>
      -- Trivia are kept for the lexeme that is read behind them.
      have hmore : ∀ t ∈ trivia ++ [token], t.kind.isTrivia = true := by
        intro t ht
        rcases List.mem_append.1 ht with ht | ht
        · exact htrivia t ht
        · rw [List.mem_singleton.1 ht, ← htoken]
          exact htriv
      have hfull : (((trivia ++ [token]).head?.map Token.offset).getD
          (place.advance text).offset) = (trivia.head?.map Token.offset).getD place.offset := by
        cases trivia with
        | nil => rw [← htoken]; rfl
        | cons first trivia => rfl
      have hleading : (trivia ++ [token]).map (fun t => (t.kind, t.text)) =
          trivia.map (fun t => (t.kind, t.text)) ++ [(kind, text)] := by
        rw [List.map_append, ← htoken]
        rfl
      have hoffset : (place.advance text).offset = place.offset + Text.size text := rfl
      obtain ⟨word, tokens, after, hrest, htokens, hstops, hread, hlater⟩ :=
        ih (place.advance text) hmore
      rw [hfull, hleading, List.append_assoc, List.singleton_append, hoffset, Nat.add_assoc,
        ← Text.size_append] at hread
      rw [List.append_assoc, List.singleton_append, Token.Place.advance_append] at hlater
      rw [Token.Place.advance_append] at htokens
      refine ⟨text ++ word, token :: tokens, after, ?_, ?_, ?_, hread, hlater⟩
      · rw [List.append_assoc, ← hrest, hword]
      · rw [htokens, List.cons_append]
      · rw [hoffset, Nat.add_assoc, ← Text.size_append] at hstops
        refine List.forall_mem_cons.2 ⟨?_, hstops⟩
        rw [hstop, Text.size_append]
        omega

end Lexeme

/-! ## Sources -/

namespace Source

/-- A source stands somewhere in its text, with all that follows still to be read; or it has been sent
past the end or inside a character, where there is nothing. -/
structure Placed (s : Source) : Prop where
  size_eq : s.size = Text.size s.text
  rest_eq : s.rest = (Text.dropBytes? s.offset s.text).getD []

/-- The lexemes that have not been read. -/
def unread (s : Source) : Lexemes := Lexemes.ofTokens s.size (Token.readFromByte s.text s.offset)

variable {s : Source}

theorem Placed.ofText (text : List Char) : (ofText text).Placed where
  size_eq := rfl
  rest_eq := by
    have hzero : Text.dropBytes? 0 text = some text := Text.dropBytes?_size_append [] text
    rw [Source.ofText, hzero]
    rfl

/-- The tokens that have not been read are those of the rest, and so it is wherever reading goes on. -/
theorem Placed.exists_place (h : s.Placed) : ∃ place : Token.Place, place.offset = s.offset ∧
    (s.rest ≠ [] → s.offset + Text.size s.rest = s.size) ∧
    ∀ word after, s.rest = word ++ after →
      Token.readFromByte s.text (s.offset + Text.size word) =
        Token.readFrom (place.advance word) after ∧
      (Text.dropBytes? (s.offset + Text.size word) s.text).getD [] = after := by
  cases hcut : Text.splitAt? s.offset s.text with
  | none =>
    have hrest : s.rest = [] := by rw [h.rest_eq, Text.dropBytes?, hcut]; rfl
    refine ⟨⟨s.offset, Point.origin⟩, rfl, fun hne => absurd hrest hne, fun word after hword => ?_⟩
    obtain ⟨rfl, rfl⟩ := List.append_eq_nil_iff.1 (hword.symm.trans hrest)
    rw [Text.size_nil, Nat.add_zero, Token.readFromByte, Text.dropBytes?, hcut, Token.readFrom_nil]
    exact ⟨rfl, rfl⟩
  | some parts =>
    obtain ⟨before, rest⟩ := parts
    obtain ⟨htext, hbefore⟩ := Text.append_of_splitAt? hcut
    have hrest : s.rest = rest := by rw [h.rest_eq, Text.dropBytes?, hcut]; rfl
    have horigin : (Token.Place.origin.advance before).offset = 0 + Text.size before := rfl
    refine ⟨Token.Place.origin.advance before, by omega, fun _ => ?_, fun word after hword => ?_⟩
    · rw [h.size_eq, htext, Text.size_append, hrest, hbefore]
    · rw [htext, ← hrest, hword, ← List.append_assoc, ← hbefore, ← Text.size_append,
        Token.readFromByte_append, Text.dropBytes?_size_append, Token.Place.advance_append]
      exact ⟨rfl, rfl⟩

/-- Reading one more lexeme takes the first of those that have not been read. The tokens that it is
made of end where reading goes on, and the bytes that matter for them are noted. -/
theorem Placed.fetch (h : s.Placed) : s.fetch.Placed ∧
    s.fetch.buffer = s.buffer ++ [s.unread 0] ∧ (∀ n, s.fetch.unread n = s.unread (n + 1)) ∧
    ∃ tokens, Token.readFromByte s.text s.offset =
        tokens ++ Token.readFromByte s.text s.fetch.offset ∧
      ∀ t ∈ tokens, t.span.stop + readAhead ≤ s.fetch.examined := by
  obtain ⟨place, hplace, hsize, hnext⟩ := h.exists_place
  obtain ⟨word, tokens, after, hrest, htokens, hstops, hread, hlater⟩ :=
    Lexeme.read_eq_ofTokens s.size place s.rest (List.forall_mem_nil _)
  obtain ⟨hhere, -⟩ := hnext [] s.rest rfl
  obtain ⟨hthere, hafter⟩ := hnext word after hrest
  simp only [List.head?_nil, Option.map_none, Option.getD_none, List.map_nil, List.nil_append,
    hplace] at hread hlater hstops
  rw [Text.size_nil, Nat.add_zero, Token.Place.advance_nil] at hhere
  have hunread : s.unread = Lexemes.ofTokens s.size (Token.readFrom place s.rest) := by
    rw [unread, hhere]
  have hoffset : s.fetch.offset = s.offset + Text.size word := congrArg (fun r => r.2.1) hread
  have hfetch : s.fetch.rest = after := congrArg (fun r => r.2.2) hread
  refine ⟨⟨h.size_eq, ?_⟩, ?_, fun n => ?_, tokens, ?_, fun t ht => ?_⟩
  · rw [hfetch, hoffset]
    exact hafter.symm
  · rw [buffer_fetch, hread, hunread]
  · rw [hunread, hlater, unread, hoffset, ← hthere]
    rfl
  · rw [hhere, hoffset, hthere, htokens]
  · -- Where there is a token, the lexeme ends behind it.
    have hne : s.rest ≠ [] := by
      intro hnil
      rw [hnil, Token.readFrom_nil] at htokens
      rw [(List.append_eq_nil_iff.1 htokens.symm).1] at ht
      cases ht
    have hstop : t.span.stop ≤ (Lexeme.read s.size s.offset [] s.offset s.rest).1.stop := by
      rw [Lexeme.stop_read _ _ _ (hsize hne), hread]
      exact hstops t ht
    exact Nat.le_trans (Nat.add_le_add_right hstop _) (Nat.le_max_right _ _)

theorem Placed.fetchMany (h : s.Placed) (n : Nat) : (fetchMany n s).Placed := by
  induction n generalizing s with
  | zero => exact h
  | succ n ih => exact ih h.fetch.1

/-- Reading more lexemes takes the first of those that have not been read. -/
theorem Placed.buffer_fetchMany (h : s.Placed) (n : Nat) : (Source.fetchMany n s).buffer =
    s.buffer ++ (List.range n).map s.unread := by
  induction n generalizing s with
  | zero => simp [Source.fetchMany]
  | succ n ih =>
    obtain ⟨hfetch, hbuffer, hunread, -⟩ := h.fetch
    have hlater : s.fetch.unread = s.unread ∘ Nat.succ := funext hunread
    rw [Source.fetchMany, ih hfetch, hbuffer, hlater, List.range_succ_eq_map, List.map_cons,
      List.map_map, List.append_assoc]
    rfl

/-- What is ahead is what has been looked at, and then what has not been read. -/
theorem Placed.ahead_eq (h : s.Placed) (n : Nat) : s.ahead n =
    (s.buffer[n]?).getD (s.unread (n - s.buffer.length)) := by
  have hpeek := buffer_peek s n
  rw [peek_snd, h.buffer_fetchMany] at hpeek
  rcases Nat.lt_or_ge n s.buffer.length with hlt | hge
  · rw [List.getElem?_append_left hlt] at hpeek
    rw [hpeek]
    rfl
  · rw [List.getElem?_append_right hge, List.getElem?_map, List.getElem?_range (by omega)] at hpeek
    rw [List.getElem?_eq_none hge]
    exact (Option.some.inj hpeek).symm

theorem Placed.ahead_of_buffer_eq_nil (h : s.Placed) (hbuffer : s.buffer = []) :
    s.ahead = s.unread := by
  funext n
  rw [h.ahead_eq, hbuffer]
  rfl

/-! ## Operations -/

theorem Placed.peek (h : s.Placed) (n : Nat) : (s.peek n).2.Placed := by
  rw [peek_snd]
  exact h.fetchMany _

theorem Placed.bump (h : s.Placed) : s.bump.2.Placed := ⟨(h.peek 0).size_eq, (h.peek 0).rest_eq⟩

theorem Placed.splitShift (h : s.Placed) : s.splitShift.Placed := by
  unfold Source.splitShift
  split
  · split
    · exact ⟨h.size_eq, h.rest_eq⟩
    · exact h
  · exact h

/-- Splitting a `>>` that has been looked at puts its halves in its place, and nothing else is ever
split. -/
theorem ahead_splitShift_eq_halves (s : Source) : s.splitShift.ahead =
    if s.buffer.head?.any fun front => front.kind = .shr then Lexemes.halves s.ahead else s.ahead := by
  cases hbuffer : s.buffer with
  | nil =>
    have hsame : s.splitShift = s := by rw [Source.splitShift, hbuffer]
    rw [hsame]
    rfl
  | cons front rest =>
    have hfront : s.ahead 0 = front := by simp [ahead, Source.peek, hbuffer]
    by_cases hkind : front.kind = .shr
    · have hne : s.buffer ≠ [] := hbuffer ▸ List.cons_ne_nil front rest
      rw [if_pos (by simpa using hkind)]
      rw [← hfront] at hkind
      funext n
      rcases n with _ | _ | n
      · exact ahead_splitShift hne hkind
      · exact ahead_splitShift_one hne hkind
      · exact ahead_splitShift_add hne hkind n
    · have hsame : s.splitShift = s := by simp only [Source.splitShift, hbuffer, if_neg hkind]
      rw [hsame, if_neg (by simpa using hkind)]

theorem Placed.reset (h : s.Placed) (offset : Nat) : (s.reset offset).Placed := ⟨h.size_eq, rfl⟩

/-- After a reset the tokens are read from the new place on. -/
theorem Placed.ahead_reset (h : s.Placed) (offset : Nat) : (s.reset offset).ahead =
    Lexemes.ofTokens (Text.size s.text) (Token.readFromByte s.text offset) := by
  rw [(h.reset offset).ahead_of_buffer_eq_nil rfl, ← h.size_eq, ← Token.readFromByte_min,
    ← h.size_eq]
  rfl

theorem ahead_ofText (text : List Char) : (ofText text).ahead =
    Lexemes.ofTokens (Text.size text) (Token.readAll text) := by
  rw [(Placed.ofText text).ahead_of_buffer_eq_nil rfl, ← Token.readFromByte_zero]
  rfl

/-! ## Use of a source -/

/-- Looking some places ahead, and taking the first lexeme. -/
inductive Look where
  | peek (n : Nat)
  | bump
  deriving DecidableEq

/-- Everything that is done with a source. -/
inductive Use where
  | look (look : Look)
  | split
  | reset (offset : Nat)
  | mark (offset : Nat)

def use (s : Source) : Use → Source
  | .look (.peek n) => (s.peek n).2
  | .look .bump => s.bump.2
  | .split => s.splitShift
  | .reset offset => s.reset offset
  | .mark offset => s.markExamined offset

/-- The source after it has been used in several ways, one after the other. -/
def after (uses : List Use) (s : Source) : Source := uses.foldl use s

/-- The lexemes that are taken, in order, while others are looked at. -/
def taken : List Look → Source → List Lexeme
  | [], _ => []
  | .peek n :: looks, s => taken looks (s.use (.look (.peek n)))
  | .bump :: looks, s => s.bump.1 :: taken looks (s.use (.look .bump))

/-- The tokens that are read during one use, up to where reading goes on. A reset reads none. -/
def lexedBy (s : Source) : Use → List Token
  | .reset _ => []
  | use =>
    (Token.readFromByte s.text s.offset).takeWhile fun token => token.offset < (s.use use).offset

/-- The tokens that are read during several uses. -/
def lexed : List Use → Source → List Token
  | [], _ => []
  | use :: uses, s => s.lexedBy use ++ lexed uses (s.use use)

theorem Placed.use (h : s.Placed) (use : Use) : (s.use use).Placed := by
  cases use with
  | look look =>
    cases look with
    | peek n => exact h.peek n
    | bump => exact h.bump
  | split => exact h.splitShift
  | reset offset => exact h.reset offset
  | mark offset => exact ⟨h.size_eq, h.rest_eq⟩

theorem text_use (s : Source) (use : Use) : (s.use use).text = s.text := by
  cases use with
  | look look =>
    cases look with
    | peek n => simp [Source.use, peek_snd]
    | bump => exact bump_text s
  | split => exact splitShift_text s
  | reset | mark => rfl

theorem Placed.after (h : s.Placed) (uses : List Use) :
    (after uses s).Placed ∧ (after uses s).text = s.text := by
  induction uses generalizing s with
  | nil => exact ⟨h, rfl⟩
  | cons use uses ih =>
    obtain ⟨hplaced, htext⟩ := ih (h.use use)
    exact ⟨hplaced, htext.trans (text_use s use)⟩

/-- What is taken are the lexemes ahead, whatever is looked at in between. -/
theorem Placed.taken_eq (h : s.Placed) (looks : List Look) :
    taken looks s = (List.range (looks.count .bump)).map s.ahead ∧
      ∀ n, (Source.after (looks.map .look) s).ahead n = s.ahead (looks.count .bump + n) := by
  induction looks generalizing s with
  | nil => exact ⟨rfl, fun n => by simp [Source.after]⟩
  | cons look looks ih =>
    obtain ⟨htaken, hafter⟩ := ih (h.use (.look look))
    cases look with
    | peek n =>
      have hsame : (s.use (.look (.peek n))).ahead = s.ahead := funext (ahead_peek s n)
      rw [List.count_cons_of_ne (by simp), taken, htaken, hsame]
      exact ⟨rfl, fun i => (hafter i).trans (congrFun hsame _)⟩
    | bump =>
      have hlater : (s.use (.look .bump)).ahead = s.ahead ∘ Nat.succ := funext (ahead_bump s)
      rw [List.count_cons_self, taken, htaken, hlater, List.range_succ_eq_map, List.map_cons,
        List.map_map]
      refine ⟨rfl, fun i => (hafter i).trans ?_⟩
      rw [hlater, Nat.add_right_comm]
      rfl

/-! ## Bytes examined -/

theorem examined_fetchMany (n : Nat) (s : Source) : s.examined ≤ (fetchMany n s).examined := by
  induction n generalizing s with
  | zero => exact Nat.le_refl _
  | succ n ih => exact Nat.le_trans (Nat.le_max_left _ _) (ih s.fetch)

/-- A source is used by reading some lexemes ahead, apart from a reset. -/
theorem exists_fetchMany_of_use (s : Source) (use : Use) (hreset : ∀ offset, use ≠ .reset offset) :
    ∃ n, (s.use use).offset = (fetchMany n s).offset ∧
      (fetchMany n s).examined ≤ (s.use use).examined := by
  cases use with
  | look look =>
    cases look with
    | peek n => exact ⟨_, by rw [Source.use, peek_snd], by rw [Source.use, peek_snd]⟩
    | bump =>
      have hbump : s.use (.look .bump) = { fetchMany (0 + 1 - s.buffer.length) s with
          buffer := (s.peek 0).2.buffer.tail } := by
        rw [Source.use, bump_snd, peek_snd]
      exact ⟨0 + 1 - s.buffer.length, by rw [hbump], by rw [hbump]⟩
  | split =>
    refine ⟨0, ?_⟩
    rw [Source.use, Source.splitShift, Source.fetchMany]
    split
    · split <;> exact ⟨rfl, Nat.le_refl _⟩
    · exact ⟨rfl, Nat.le_refl _⟩
  | reset offset => exact absurd rfl (hreset offset)
  | mark offset => exact ⟨0, rfl, Nat.le_max_left _ _⟩

theorem examined_use (s : Source) (use : Use) : s.examined ≤ (s.use use).examined := by
  by_cases hreset : ∃ offset, use = .reset offset
  · obtain ⟨offset, rfl⟩ := hreset
    exact Nat.le_refl _
  · obtain ⟨n, -, hexamined⟩ := exists_fetchMany_of_use s use fun offset h => hreset ⟨offset, h⟩
    exact Nat.le_trans (examined_fetchMany n s) hexamined

theorem examined_after (uses : List Use) (s : Source) : s.examined ≤ (after uses s).examined := by
  induction uses generalizing s with
  | nil => exact Nat.le_refl _
  | cons use uses ih => exact Nat.le_trans (examined_use s use) (ih (s.use use))

/-- A token is read when reading goes on behind its beginning, and then the mark is three bytes behind
its end. -/
theorem Placed.examined_of_lt (h : s.Placed) (n : Nat) {token : Token}
    (htoken : token ∈ Token.readFromByte s.text s.offset)
    (hlt : token.offset < (Source.fetchMany n s).offset) :
    token.span.stop + readAhead ≤ (Source.fetchMany n s).examined := by
  induction n generalizing s with
  | zero => exact absurd hlt (Nat.not_lt.2 (Token.le_offset_of_mem_readFromByte htoken))
  | succ n ih =>
    obtain ⟨hplaced, -, -, tokens, htokens, hexamined⟩ := h.fetch
    rw [htokens] at htoken
    rcases List.mem_append.1 htoken with htoken | htoken
    · exact Nat.le_trans (hexamined token htoken) (examined_fetchMany n s.fetch)
    · exact ih hplaced htoken hlt

theorem Placed.examined_lexedBy (h : s.Placed) (use : Use) {token : Token}
    (htoken : token ∈ s.lexedBy use) : token.span.stop + readAhead ≤ (s.use use).examined := by
  unfold lexedBy at htoken
  split at htoken
  · cases htoken
  · rename_i hreset
    obtain ⟨n, hoffset, hexamined⟩ := exists_fetchMany_of_use s use fun offset h => hreset offset h
    have hmem := (List.takeWhile_sublist _).subset htoken
    have hlt : token.offset < (s.use use).offset := by simpa using List.mem_takeWhile_imp htoken
    exact Nat.le_trans (h.examined_of_lt n hmem (hoffset ▸ hlt)) hexamined

theorem Placed.examined_lexed (h : s.Placed) (uses : List Use) {token : Token}
    (htoken : token ∈ lexed uses s) : token.span.stop + readAhead ≤ (Source.after uses s).examined := by
  induction uses generalizing s with
  | nil => cases htoken
  | cons use uses ih =>
    rcases List.mem_append.1 htoken with htoken | htoken
    · exact Nat.le_trans (h.examined_lexedBy use htoken) (examined_after uses (s.use use))
    · exact ih (h.use use) htoken

/-! ## Sources of a text -/

/-- What is known of a source of `text`, however it has been used. -/
structure Faithful (text : List Char) (s : Source) : Prop where
  /-- The lexemes taken are those ahead, in order, and the others stay ahead, whatever is looked at. -/
  taken_eq : ∀ looks, taken looks s = (List.range (looks.count .bump)).map s.ahead ∧
    ∀ n, (after (looks.map .look) s).ahead n = s.ahead (looks.count .bump + n)
  /-- After a reset they are those of the text from the new place on. -/
  taken_reset : ∀ offset looks, taken looks (s.reset offset) = (List.range (looks.count .bump)).map
    (Lexemes.ofTokens (Text.size text) (Token.readFromByte text offset))
  /-- A split only replaces a `>>` in the buffer by its halves. -/
  ahead_splitShift : s.splitShift.ahead =
    if s.buffer.head?.any fun front => front.kind = .shr then Lexemes.halves s.ahead else s.ahead
  /-- The mark never goes back. -/
  examined_le : ∀ use, s.examined ≤ (s.use use).examined

/-- From a text its lexemes are taken, in order and with an end that is never used up, however far one
looks ahead in between. So it goes on after any use of the source, and the mark of what was examined is
three bytes behind all tokens that have been read. -/
theorem taken_spec (text : List Char) :
    (∀ looks, taken looks (ofText text) = (List.range (looks.count .bump)).map
      (Lexemes.ofTokens (Text.size text) (Token.readAll text))) ∧
    ∀ uses, Faithful text (after uses (ofText text)) ∧
      ∀ token ∈ lexed uses (ofText text),
        token.span.stop + 3 ≤ (after uses (ofText text)).examined := by
  have hplaced := Placed.ofText text
  refine ⟨fun looks => ?_, fun uses => ⟨?_, fun token => hplaced.examined_lexed uses⟩⟩
  · rw [(hplaced.taken_eq looks).1, ahead_ofText]
  · obtain ⟨hafter, htext⟩ := hplaced.after uses
    refine ⟨hafter.taken_eq, fun offset looks => ?_, ahead_splitShift_eq_halves _, examined_use _⟩
    rw [((hafter.reset offset).taken_eq looks).1, hafter.ahead_reset, htext]
    rfl

end Source
end SqlTree
