import SqlTree.Text.Cut
import SqlTree.Proofs.ByteScan

/-!
# Quoted tokens and their values

A quoted token is a few letters, a quote, a content that is written piece by piece, and the same
quote again. The scanner finds its end, and the value of a literal is read off its text once more;
both see the same parts.

- `Piece`         : a character of the content, as it is or behind a backslash
- `Quoted`        : the parts of a quoted token, with their text and their value
- `Quoted.Valid`  : the parts that fit together
- `Quoted.exists_of_split?` : a quoted token has such parts
- `Quoted.open?_text`, `Quoted.body_spell` : their text is opened and closed by the quotes
- `Quoted.value?_text` : the value of the text is the one that the pieces stand for
- `Token.quoted_spec` : quoted tokens are exactly the texts of valid parts
-/

namespace SqlTree

open Quote (body mark? kindOf?)
open Scan (isLetter)

/-! ## Parts of a quoted token -/

/-- A character of the content of a quoted token as it is written. -/
inductive Piece where
  | plain (c : Char)
  | escape (c : Char)

namespace Piece

def written : Piece → List Char
  | plain c => [c]
  | escape c => ['\\', c]

/-- The character that a piece stands for. -/
def meaning : Piece → Char
  | plain c => c
  | escape 'n' => '\n'
  | escape 't' => '\t'
  | escape 'r' => '\r'
  | escape '0' => '\x00'
  | escape c => c

theorem meaning_escape (c : Char) : meaning (escape c) = Literal.unescape c := by
  unfold meaning Literal.unescape
  split <;> simp_all

end Piece

/-- A quoted token in its parts: letters, quote, content and quote. -/
structure Quoted where
  kind : Kind
  letters : List Char
  mark : List Char
  content : List Piece

namespace Quoted

/-- The content as it is written. -/
def spell (content : List Piece) : List Char := content.flatMap Piece.written

def text (q : Quoted) : List Char := q.letters ++ q.mark ++ spell q.content ++ q.mark

/-- What the token stands for; with an `r` among its letters the content as it is written. -/
def value (q : Quoted) : List Char :=
  if 'r' ∈ q.letters ∨ 'R' ∈ q.letters then spell q.content else q.content.map Piece.meaning

/-- The letters that may stand in front of the quote. -/
def lettersOf : Kind → List (List Char)
  | .string => [[], ['r'], ['R']]
  | .bytes => [['b'], ['B'], ['r', 'b'], ['r', 'B'], ['R', 'b'], ['R', 'B'], ['b', 'r'], ['b', 'R'],
      ['B', 'r'], ['B', 'R']]
  | .quotedIdent => [[]]
  | _ => []

def marksOf : Kind → List (List Char)
  | .string | .bytes => [['\''], ['"'], ['\'', '\'', '\''], ['"', '"', '"']]
  | .quotedIdent => [['\x60']]
  | _ => []

/-- Content that the quote behind it closes. -/
structure Proper (mark : List Char) (content : List Piece) : Prop where
  /-- A backslash is always followed by the character that it escapes. -/
  plain_ne : ∀ c, .plain c ∈ content → c ≠ '\\'
  /-- One quote does not go over the end of a line. -/
  one_line : mark = ['\''] ∨ mark = ['"'] → .plain '\n' ∉ content
  /-- The quote does not stand at any earlier piece. -/
  not_closed : ∀ front piece back, content = front ++ piece :: back →
    ¬ mark <+: spell (piece :: back) ++ mark

/-- The parts of a quoted token that fit together. -/
structure Valid (q : Quoted) : Prop where
  letters_mem : q.letters ∈ lettersOf q.kind
  mark_mem : q.mark ∈ marksOf q.kind
  proper : Proper q.mark q.content

@[simp]
theorem spell_nil : spell [] = [] := rfl

@[simp]
theorem spell_cons (piece : Piece) (content : List Piece) :
    spell (piece :: content) = piece.written ++ spell content := rfl

namespace Proper

variable {mark : List Char} {piece : Piece} {content : List Piece}

theorem nil (mark : List Char) : Proper mark [] where
  plain_ne _ h := by cases h
  one_line _ h := by cases h
  not_closed front piece back h := by simp at h

theorem cons (h : Proper mark content) (hplain : piece ≠ .plain '\\')
    (hline : mark = ['\''] ∨ mark = ['"'] → piece ≠ .plain '\n')
    (hclosed : ¬ mark <+: spell (piece :: content) ++ mark) : Proper mark (piece :: content) where
  plain_ne c hc := by
    rcases List.mem_cons.1 hc with rfl | hc
    · rintro rfl
      exact hplain rfl
    · exact h.plain_ne c hc
  one_line hmark hmem := by
    rcases List.mem_cons.1 hmem with rfl | hmem
    · exact hline hmark rfl
    · exact h.one_line hmark hmem
  not_closed front piece' back heq := by
    cases front with
    | nil =>
      obtain ⟨rfl, rfl⟩ := List.cons.inj heq
      exact hclosed
    | cons piece'' front => exact h.not_closed front piece' back (List.cons.inj heq).2

theorem tail (h : Proper mark (piece :: content)) : Proper mark content where
  plain_ne c hc := h.plain_ne c (List.mem_cons_of_mem _ hc)
  one_line hmark hmem := h.one_line hmark (List.mem_cons_of_mem _ hmem)
  not_closed front piece' back heq := h.not_closed (piece :: front) piece' back (by rw [heq]; rfl)

end Proper

/-! ## Letters and quotes -/

section

variable {kind : Kind} {letters mark cs : List Char}

theorem mem_marks (h : mark ∈ marksOf kind) :
    mark ∈ [['\''], ['"'], ['\'', '\'', '\''], ['"', '"', '"'], ['\x60']] := by
  unfold marksOf at h
  split at h <;> grind

/-- A quote begins with a character that is no letter, no backslash and no line feed. -/
theorem exists_head (h : mark ∈ marksOf kind) : ∃ p more, mark = p :: more ∧ p ≠ '\\' ∧
    p ≠ '\n' ∧ isLetter p = false ∧ ∀ c ∈ mark, c.utf8Size = 1 := by
  have hmarks := mem_marks h
  simp only [List.mem_cons, List.not_mem_nil, or_false] at hmarks
  rcases hmarks with rfl | rfl | rfl | rfl | rfl <;>
    exact ⟨_, _, rfl, by decide, by decide, by decide, by simp [Char.utf8Size]⟩

theorem isLetter_of_mem_lettersOf (h : letters ∈ lettersOf kind) :
    ∀ c ∈ letters, isLetter c = true := by
  refine List.all_eq_true.1 ?_
  unfold lettersOf at h
  split at h <;> simp only [List.mem_cons, List.not_mem_nil, or_false] at h
  · rcases h with rfl | rfl | rfl <;> decide
  · rcases h with rfl | rfl | rfl | rfl | rfl | rfl | rfl | rfl | rfl | rfl <;> decide
  · subst h
    decide

theorem toLower_eq_iff {c : Char} : (c.toLower = 'r' ↔ c = 'r' ∨ c = 'R') ∧
    (c.toLower = 'b' ↔ c = 'b' ∨ c = 'B') := by
  delta Char.toLower
  simp only [Char.ext_iff]
  grind

theorem mem_lettersOf_of_kindOf? (h : kindOf? letters = some kind) : letters ∈ lettersOf kind := by
  unfold kindOf? at h
  split at h <;> rename_i hletters
  · cases h
    simp [List.map_eq_nil_iff.1 hletters, lettersOf]
  · cases h
    obtain ⟨c, rfl, hc⟩ := List.map_eq_singleton_iff.1 hletters
    rcases toLower_eq_iff.1.1 hc with rfl | rfl <;> decide
  · cases h
    obtain ⟨c, rfl, hc⟩ := List.map_eq_singleton_iff.1 hletters
    rcases toLower_eq_iff.2.1 hc with rfl | rfl <;> decide
  · cases h
    obtain ⟨c, more, rfl, hc, hmore⟩ := List.map_eq_cons_iff.1 hletters
    obtain ⟨d, rfl, hd⟩ := List.map_eq_singleton_iff.1 hmore
    rcases toLower_eq_iff.1.1 hc with rfl | rfl <;>
      rcases toLower_eq_iff.2.1 hd with rfl | rfl <;> decide
  · cases h
    obtain ⟨c, more, rfl, hc, hmore⟩ := List.map_eq_cons_iff.1 hletters
    obtain ⟨d, rfl, hd⟩ := List.map_eq_singleton_iff.1 hmore
    rcases toLower_eq_iff.2.1 hc with rfl | rfl <;>
      rcases toLower_eq_iff.1.1 hd with rfl | rfl <;> decide
  · cases h

/-- Letters of one kind announce it, and those of identifiers are none. -/
theorem kindOf?_of_mem_lettersOf (h : letters ∈ lettersOf kind) :
    kindOf? letters = some kind ∨ kind = .quotedIdent ∧ letters = [] := by
  unfold lettersOf at h
  split at h <;> simp only [List.mem_cons, List.not_mem_nil, or_false] at h
  · rcases h with rfl | rfl | rfl <;> exact .inl (by decide)
  · rcases h with rfl | rfl | rfl | rfl | rfl | rfl | rfl | rfl | rfl | rfl <;>
      exact .inl (by decide)
  · exact .inr ⟨rfl, h⟩

theorem kind_of_kindOf? (h : kindOf? letters = some kind) : kind = .string ∨ kind = .bytes := by
  unfold kindOf? at h
  split at h <;> cases h <;> simp

theorem mem_marksOf_of_mark? (hkind : kind = .string ∨ kind = .bytes)
    (h : mark? cs = some mark) : mark ∈ marksOf kind := by
  unfold mark? at h
  rcases hkind with rfl | rfl <;> split at h <;> cases h <;> decide

/-- Only one quote of a string keeps the content on its line. -/
theorem multiline_eq_false_iff (h : mark ∈ marksOf kind) (n : Nat) :
    (Quote.mk kind n mark).multiline = false ↔ mark = ['\''] ∨ mark = ['"'] := by
  cases kind <;> simp only [marksOf, List.mem_cons, List.not_mem_nil, or_false] at h
  · subst h
    simp [Quote.multiline]
  · rcases h with rfl | rfl | rfl | rfl <;> simp [Quote.multiline]
  · rcases h with rfl | rfl | rfl | rfl <;> simp [Quote.multiline]

theorem drop_length_takeWhile (cs : List Char) :
    cs.drop (cs.takeWhile isLetter).length = cs.dropWhile isLetter := by
  have hcut := congrArg (List.drop (cs.takeWhile isLetter).length)
    (List.takeWhile_append_dropWhile (p := isLetter) (l := cs))
  rw [List.drop_left] at hcut
  exact hcut.symm

/-- The opening of a quoted token consists of letters and a quote. -/
theorem exists_of_open? {o : Quote} (h : Quote.open? cs = some o) :
    ∃ letters, letters ∈ lettersOf o.kind ∧ o.mark ∈ marksOf o.kind ∧
      letters.length = o.letters ∧ letters ++ o.mark <+: cs := by
  unfold Quote.open? at h
  split at h
  · cases h
    exact ⟨[], by decide, by decide, rfl, by simp⟩
  · obtain ⟨kind, hkind, hmark⟩ := Option.bind_eq_some_iff.1 h
    obtain ⟨mark, hquote, rfl⟩ := Option.map_eq_some_iff.1 hmark
    refine ⟨cs.takeWhile isLetter, mem_lettersOf_of_kindOf? hkind,
      mem_marksOf_of_mark? (kind_of_kindOf? hkind) hquote, rfl, ?_⟩
    have hfront := (ByteScan.isPrefix_of_mark? hquote).1
    have hcut := List.takeWhile_append_dropWhile (p := isLetter) (l := cs)
    rw [drop_length_takeWhile] at hfront
    have hparts := (List.prefix_append_right_inj (cs.takeWhile isLetter)).2 hfront
    rwa [hcut] at hparts

end

/-! ## The content that the scanner finds -/

/-- The scan over the content of a closed token takes pieces and the quote. -/
theorem exists_content {mark cs : List Char} {multiline : Bool} {n : Nat}
    (hhead : ∃ p more, mark = p :: more ∧ p ≠ '\\')
    (hline : mark = ['\''] ∨ mark = ['"'] → multiline = false)
    (hbody : body mark multiline cs = (n, true)) :
    ∃ content, Proper mark content ∧ cs.take n = spell content ++ mark := by
  fun_induction body mark multiline cs generalizing n with
  | case1 => cases hbody
  | case2 => cases hbody
  | case3 d rest length closed hrest ih =>
    cases hbody
    obtain ⟨content, hproper, htake⟩ := ih hrest
    obtain ⟨p, more, rfl, hp⟩ := hhead
    refine ⟨.escape d :: content, hproper.cons (by simp) (by simp) fun hmark => ?_, ?_⟩
    · exact hp (List.cons_prefix_cons.1 hmark).1
    · rw [List.take_succ_cons, List.take_succ_cons, htake]
      rfl
  | case4 c rest hescape hescape' hend => cases hbody
  | case5 c rest hescape hescape' hend hclose =>
    cases hbody
    refine ⟨[], .nil mark, ?_⟩
    rw [← List.prefix_iff_eq_take.1 (List.isPrefixOf_iff_prefix.1 hclose)]
    rfl
  | case6 c rest hescape hescape' hend hclose length closed hrest ih =>
    cases hbody
    obtain ⟨content, hproper, htake⟩ := ih hrest
    have htake' : (c :: rest).take (length + 1) = spell (.plain c :: content) ++ mark := by
      rw [List.take_succ_cons, htake]
      rfl
    refine ⟨.plain c :: content, hproper.cons ?_ (fun hmark => ?_) (fun hmark => ?_), htake'⟩
    · -- A backslash would have taken the next character with it.
      intro hc
      cases hc
      cases rest with
      | nil => exact hescape rfl rfl
      | cons d rest => exact hescape' d rest rfl rfl
    · intro hc
      cases hc
      exact hend (by rw [hline hmark]; rfl)
    · rw [← htake'] at hmark
      exact hclose (List.isPrefixOf_iff_prefix.2 (hmark.trans (List.take_prefix _ _)))

/-- Content that is closed by its quote is scanned to the end. -/
theorem body_spell {mark : List Char} {multiline : Bool} {content : List Piece}
    (hhead : ∃ p more, mark = p :: more ∧ p ≠ '\\' ∧ p ≠ '\n')
    (hline : multiline = false → mark = ['\''] ∨ mark = ['"']) (h : Proper mark content) :
    body mark multiline (spell content ++ mark) =
      ((spell content).length + mark.length, true) := by
  induction content with
  | nil =>
    obtain ⟨p, more, rfl, hp, hp'⟩ := hhead
    have hself : (p :: more).isPrefixOf (p :: more) = true :=
      List.isPrefixOf_iff_prefix.2 (List.prefix_refl _)
    rw [spell_nil, List.nil_append, Scan.body_cons _ _ hp, if_neg (by simp [hp']), if_pos hself]
    simp
  | cons piece content ih =>
    have hrest := ih h.tail
    cases piece with
    | escape d =>
      rw [spell_cons, Piece.written, List.append_assoc, List.cons_append, List.cons_append,
        List.nil_append, body, hrest]
      simp only [List.length_cons, List.length_append, List.length_nil]
      exact Prod.ext (by dsimp only; omega) rfl
    | plain c =>
      have hc : c ≠ '\\' := h.plain_ne c List.mem_cons_self
      have hnot := h.not_closed [] (.plain c) content rfl
      rw [← List.isPrefixOf_iff_prefix] at hnot
      have hfeed : ¬ (c == '\n' && !multiline) = true := by
        intro hfeed
        simp only [Bool.and_eq_true, beq_iff_eq, Bool.not_eq_true'] at hfeed
        obtain ⟨rfl, hmultiline⟩ := hfeed
        exact h.one_line (hline hmultiline) List.mem_cons_self
      rw [spell_cons, Piece.written, List.append_assoc, List.cons_append, List.nil_append] at hnot ⊢
      rw [Scan.body_cons _ _ hc, if_neg hfeed, if_neg hnot, hrest]
      simp only [List.length_cons, List.length_append, List.length_nil]
      exact Prod.ext (by dsimp only; omega) rfl

/-! ## The text of valid parts -/

section

variable {q : Quoted} {mark : List Char} {content : List Piece}

theorem mark?_single {p c : Char} {rest : List Char} (hp : p = '\'' ∨ p = '"') (hc : c ≠ p) :
    mark? (p :: c :: rest) = some [p] := by
  rcases hp with rfl | rfl <;> unfold mark? <;> split <;> simp_all

/-- Content that is closed by one quote does not begin with it. -/
theorem mark?_spell_single {p : Char} (hp : p = '\'' ∨ p = '"') (h : Proper [p] content) :
    mark? ([p] ++ (spell content ++ [p])) = some [p] := by
  cases content with
  | nil => rcases hp with rfl | rfl <;> rfl
  | cons piece content =>
    have hnot := h.not_closed [] piece content rfl
    cases piece with
    | plain c =>
      refine mark?_single hp ?_
      rintro rfl
      exact hnot ⟨spell content ++ [c], rfl⟩
    | escape c =>
      refine mark?_single hp ?_
      rcases hp with rfl | rfl <;> decide

/-- The quote in front of the content is read as it was written. -/
theorem mark?_spell (hmark : mark ∈ marksOf .string) (h : Proper mark content) :
    mark? (mark ++ (spell content ++ mark)) = some mark := by
  simp only [marksOf, List.mem_cons, List.not_mem_nil, or_false] at hmark
  rcases hmark with rfl | rfl | rfl | rfl
  · exact mark?_spell_single (.inl rfl) h
  · exact mark?_spell_single (.inr rfl) h
  · rfl
  · rfl

theorem takeWhile_text (h : q.Valid) :
    q.text.takeWhile isLetter = q.letters ∧
      q.text.dropWhile isLetter = q.mark ++ (spell q.content ++ q.mark) := by
  obtain ⟨p, more, hmark, -, -, hp, -⟩ := exists_head h.mark_mem
  have hletters := isLetter_of_mem_lettersOf h.letters_mem
  have htext : q.text = q.letters ++ (q.mark ++ (spell q.content ++ q.mark)) := by
    rw [text, List.append_assoc, List.append_assoc]
  have hnot : ¬ isLetter p = true := by simp [hp]
  rw [htext, List.takeWhile_append_of_pos hletters, List.dropWhile_append_of_pos hletters, hmark,
    List.cons_append, List.takeWhile_cons, List.dropWhile_cons, if_neg hnot, if_neg hnot,
    List.append_nil]
  exact ⟨rfl, rfl⟩

/-- The text of valid parts opens a token of their kind. -/
theorem open?_text (h : q.Valid) :
    Quote.open? q.text = some ⟨q.kind, q.letters.length, q.mark⟩ := by
  obtain ⟨htake, hdrop⟩ := takeWhile_text h
  have hdrop' : q.text.drop q.letters.length = q.mark ++ (spell q.content ++ q.mark) := by
    rw [← htake, drop_length_takeWhile, hdrop]
  rcases kindOf?_of_mem_lettersOf h.letters_mem with hkind | ⟨hkind, hletters⟩
  · have hmem : q.mark ∈ marksOf .string := by
      have hmark := h.mark_mem
      rcases kind_of_kindOf? hkind with hk | hk <;> rwa [hk] at hmark
    unfold Quote.open?
    split
    · -- The quote of an identifier is not among those of strings.
      rename_i htext
      rw [htext, List.dropWhile_cons, if_neg (by decide)] at hdrop
      simp only [marksOf, List.mem_cons, List.not_mem_nil, or_false] at hmem
      rcases hmem with hmark | hmark | hmark | hmark <;> rw [hmark] at hdrop <;> cases hdrop
    · simp only [htake, hkind, hdrop', mark?_spell hmem h.proper, Option.bind_some, Option.map_some]
  · have hmark : q.mark = ['\x60'] := by
      have hmem := h.mark_mem
      rw [hkind] at hmem
      exact List.mem_singleton.1 hmem
    rw [text, hletters, hmark, hkind]
    rfl

/-- The text of valid parts is one token. -/
theorem split?_text (h : q.Valid) : Token.split? q.text = some (q.kind, q.text, []) := by
  obtain ⟨p, more, hmark, hp, hp', -, -⟩ := exists_head h.mark_mem
  have hopening : q.text.drop (q.letters.length + q.mark.length) = spell q.content ++ q.mark := by
    rw [text, List.append_assoc _ _ q.mark, ← List.length_append]
    exact List.drop_left
  have hbody := body_spell ⟨p, more, hmark, hp, hp'⟩
    (multiline_eq_false_iff h.mark_mem q.letters.length).1 h.proper
  have hfirst : Scan.first q.text = (q.kind, q.text.length) := by
    rw [ByteScan.first_of_open? (open?_text h), Quote.scan]
    simp only [hopening, hbody, if_true]
    rw [text]
    simp only [List.length_append]
    exact Prod.ext rfl (by dsimp only; omega)
  have hne : q.text ≠ [] := by
    rw [text, hmark]
    simp
  rw [Token.split?_of_ne_nil hne, hfirst]
  have hlength : max q.text.length 1 = q.text.length :=
    Nat.max_eq_left (List.length_pos_iff.2 hne)
  simp only [hlength, List.take_length, List.drop_length]

/-! ## The value of a literal -/

theorem quoteSize_of_mark? {cs : List Char} (h : mark? cs = some mark) :
    Literal.quoteSize cs = mark.length := by
  unfold mark? at h
  split at h <;> cases h
  · rfl
  · rfl
  · unfold Literal.quoteSize
    split <;> simp_all
  · unfold Literal.quoteSize
    split <;> simp_all

theorem quoteSize_spell (h : q.Valid) :
    Literal.quoteSize (q.mark ++ (spell q.content ++ q.mark)) = q.mark.length := by
  have hmem := h.mark_mem
  cases hkind : q.kind <;> rw [hkind] at hmem <;>
    simp only [marksOf, List.not_mem_nil] at hmem
  · rw [List.mem_singleton.1 hmem]
    rfl
  · exact quoteSize_of_mark? (mark?_spell hmem h.proper)
  · exact quoteSize_of_mark? (mark?_spell hmem h.proper)

theorem resolve_spell (h : ∀ c, .plain c ∈ content → c ≠ '\\') :
    Literal.resolve (spell content) = content.map Piece.meaning := by
  induction content with
  | nil => rfl
  | cons piece content ih =>
    have hrest := ih fun c hc => h c (List.mem_cons_of_mem _ hc)
    cases piece with
    | escape c =>
      rw [spell_cons, List.map_cons, ← hrest, Piece.meaning_escape]
      rfl
    | plain c =>
      have hc := h c List.mem_cons_self
      rw [spell_cons, List.map_cons, ← hrest, Piece.written, List.singleton_append,
        Literal.resolve]
      · rfl
      · exact fun d rest hd => absurd hd hc

theorem hasValue_of_mark_mem {kind : Kind} (h : mark ∈ marksOf kind) :
    Literal.hasValue kind = true := by
  unfold marksOf at h
  split at h
  · rfl
  · rfl
  · rfl
  · cases h

/-- The value of the text of valid parts is the one that they stand for. -/
theorem value?_text (h : q.Valid) : Literal.value? q.kind q.text = some q.value := by
  obtain ⟨htake, hdrop⟩ := takeWhile_text h
  obtain ⟨-, -, -, -, -, -, hnarrow⟩ := exists_head h.mark_mem
  have hmark : Text.size q.mark = q.mark.length := by
    rw [← List.take_length (l := q.mark)] at hnarrow
    have hsize := ByteScan.Narrow.size_take ⟨Nat.le_refl _, hnarrow⟩
    rwa [List.take_length] at hsize
  have hbody : Text.slice? q.mark.length
      (Text.size (q.mark ++ (spell q.content ++ q.mark)) - q.mark.length)
      (q.mark ++ (spell q.content ++ q.mark)) = some (spell q.content) := by
    have hstop : Text.size (q.mark ++ (spell q.content ++ q.mark)) - q.mark.length =
        Text.size (q.mark ++ spell q.content) := by
      simp only [Text.size_append]
      omega
    rw [hstop, ← hmark, ← List.append_assoc]
    exact Text.slice?_size_append q.mark (spell q.content) q.mark
  have hraw : (q.letters.any fun c => c == 'r' || c == 'R') = true ↔
      'r' ∈ q.letters ∨ 'R' ∈ q.letters := by
    simp only [List.any_eq_true, Bool.or_eq_true, beq_iff_eq]
    grind
  have hsize : q.mark.length ≤ Text.size (q.mark ++ (spell q.content ++ q.mark)) := by
    rw [Text.size_append, hmark]
    exact Nat.le_add_right _ _
  change q.text.takeWhile Char.isAlpha = _ at htake
  change q.text.dropWhile Char.isAlpha = _ at hdrop
  unfold Literal.value? value
  rw [if_pos (hasValue_of_mark_mem h.mark_mem)]
  simp only [htake, hdrop, quoteSize_spell h, if_pos hsize, hbody, Option.map_some, hraw,
    resolve_spell h.proper.plain_ne]

/-! ## Quoted tokens of a text -/

variable {rest text' rest' : List Char} {kind : Kind}

/-- A token that has a value is written with valid parts. -/
theorem exists_of_split? (hvalue : Literal.hasValue kind = true)
    (h : Token.split? rest = some (kind, text', rest')) :
    ∃ q : Quoted, q.Valid ∧ q.kind = kind ∧ q.text = text' := by
  obtain ⟨o, hopen, hscan⟩ := Option.map_eq_some_iff.1 (Token.quoted?_of_split? hvalue h)
  obtain ⟨hkind, htext⟩ := Token.kind_of_split? h
  obtain ⟨letters, hletters, hmark, hlength, hopening⟩ := exists_of_open? hopen
  obtain ⟨p, more, hhead, hp, -⟩ := exists_head hmark
  obtain ⟨⟨n, closed⟩, hbody⟩ : ∃ found,
      body o.mark o.multiline (rest.drop (o.letters + o.mark.length)) = found := ⟨_, rfl⟩
  have hfirst : Scan.first rest =
      (if closed then o.kind else .errorToken, o.letters + o.mark.length + n) := by
    rw [← hscan, Quote.scan]
    simp only [hbody]
  rw [hfirst] at hkind htext
  cases closed with
  | false =>
    subst hkind
    cases hvalue
  | true =>
    obtain ⟨content, hproper, htake⟩ := exists_content ⟨p, more, hhead, hp⟩
      (multiline_eq_false_iff hmark o.letters).2 hbody
    refine ⟨⟨o.kind, letters, o.mark, content⟩, ⟨hletters, hmark, hproper⟩, hkind.symm, ?_⟩
    have hfront : rest.take (o.letters + o.mark.length) = letters ++ o.mark := by
      rw [← hlength, ← List.length_append]
      exact (List.prefix_iff_eq_take.1 hopening).symm
    have hpos : 1 ≤ o.letters + o.mark.length + n := by
      rw [hhead, List.length_cons]
      omega
    calc letters ++ o.mark ++ spell content ++ o.mark
        = rest.take (o.letters + o.mark.length) ++
          (rest.drop (o.letters + o.mark.length)).take n := by
          rw [hfront, htake, List.append_assoc]
      _ = text' := by rw [← List.take_add, htext, Nat.max_eq_left hpos]

end

end Quoted

namespace Token

theorem exists_split?_of_mem_readFrom {place : Place} {rest : List Char} {token : Token}
    (h : token ∈ readFrom place rest) :
    ∃ front back, split? front = some (token.kind, token.text, back) := by
  induction rest using split_induction generalizing place with
  | nil =>
    rw [readFrom_nil] at h
    cases h
  | cons hsplit ih =>
    rw [readFrom_of_split? hsplit] at h
    rcases List.mem_cons.1 h with rfl | hmore
    · exact ⟨_, _, hsplit⟩
    · exact ih hmore

/-- The tokens that have a value are those that are written with valid parts, and their value is
the one that these parts stand for. A text that is written in this way is one such token. -/
theorem quoted_spec :
    (∀ text, ∀ token ∈ readAll text, token.kind ∈ [.string, .bytes, .quotedIdent] →
      ∃ q : Quoted, q.Valid ∧ q.kind = token.kind ∧ q.text = token.text ∧
        token.value? = some q.value) ∧
    ∀ q : Quoted, q.Valid → ∃ token, readAll q.text = [token] ∧ token.kind = q.kind ∧
      token.text = q.text ∧ token.value? = some q.value := by
  refine ⟨fun text token hmem hkind => ?_, fun q hvalid => ?_⟩
  · obtain ⟨front, back, hsplit⟩ := exists_split?_of_mem_readFrom hmem
    have hvalue : Literal.hasValue token.kind = true := by
      simp only [List.mem_cons, List.not_mem_nil, or_false] at hkind
      rcases hkind with hkind | hkind | hkind <;> rw [hkind] <;> rfl
    obtain ⟨q, hvalid, hq, htext⟩ := Quoted.exists_of_split? hvalue hsplit
    refine ⟨q, hvalid, hq, htext, ?_⟩
    rw [value?, ← hq, ← htext, Quoted.value?_text hvalid]
  · have hread := readFrom_of_split? (Quoted.split?_text hvalid) Place.origin
    rw [readFrom_nil] at hread
    exact ⟨_, hread, rfl, rfl, Quoted.value?_text hvalid⟩

end Token
end SqlTree
