import SqlTree.Proofs.Mask
import SqlTree.Proofs.Tiling
import SqlTree.Proofs.Edit

/-!
# The bytes that a token depends on

A token depends on its own bytes and on the three behind it. These may end inside of a character, of
which no more is known than that it has several bytes. For the shape of a token all such characters
are alike, so this is enough.

- `Text.agree_mask_of_take_bytes` : what the first bytes of two texts say about their characters
- `Token.split?_of_take_bytes` : texts that begin with the same bytes begin with the same token
- `Token.readAt?_of_bytes` : what can be read at an offset is the same in both texts
- `Token.readAt?_window`   : so an edit behind these bytes leaves a token as it was
-/

namespace SqlTree

/-! ## Texts with the same first bytes -/

namespace Text

theorem size_map_mask (text : List Char) : size (text.map Scan.mask) = size text := by
  induction text with
  | nil => rfl
  | cons c cs ih => rw [List.map_cons, size_cons, Scan.utf8Size_mask, ih, size_cons]

theorem Agree.zero (a b : List Char) : Agree 0 a b := Or.inr ⟨[], a, b, rfl, rfl, Nat.le_refl 0⟩

theorem Agree.cons {n : Nat} {a b : List Char} (c : Char) (h : Agree n a b) :
    Agree (c.utf8Size + n) (c :: a) (c :: b) := by
  rcases h with rfl | ⟨w, x, y, rfl, rfl, hw⟩
  · exact Or.inl rfl
  · exact Or.inr ⟨c :: w, x, y, rfl, rfl, Nat.add_le_add_left hw _⟩

/-- Texts that begin with the same bytes begin with the same characters. The bytes may end inside of
one, of which only the size is known. -/
theorem agree_mask_of_take_bytes {n : Nat} {a b : List Char}
    (h : (bytes a).take n = (bytes b).take n) : Agree n (a.map Scan.mask) (b.map Scan.mask) := by
  induction a generalizing n b with
  | nil =>
    cases b with
    | nil => exact Or.inl rfl
    | cons d b =>
      rw [bytes_nil, List.take_nil] at h
      rw [(List.take_eq_nil_iff.1 h.symm).resolve_right bytes_ne_nil]
      exact .zero _ _
  | cons c a ih =>
    rcases Nat.eq_zero_or_pos n with rfl | hn
    · exact .zero _ _
    cases b with
    | nil =>
      rw [bytes_nil, List.take_nil] at h
      exact absurd ((List.take_eq_nil_iff.1 h).resolve_right bytes_ne_nil) (Nat.ne_of_gt hn)
    | cons d b =>
      obtain ⟨hsize, hsame⟩ := take_bytes_cons hn h
      rcases Nat.lt_or_ge n c.utf8Size with hlt | hle
      · -- The bytes end inside of the character, which has more than one of them.
        have hmask : Scan.mask c = Scan.mask d := Scan.mask_eq_of_utf8Size hsize (by omega)
        have hcons := (Agree.zero (a.map Scan.mask) (b.map Scan.mask)).cons (Scan.mask c)
        rw [Scan.utf8Size_mask] at hcons
        rw [List.map_cons, List.map_cons, ← hmask]
        exact hcons.mono (Nat.le_of_lt hlt)
      · obtain ⟨rfl, hrest⟩ := hsame hle
        have hcons := (ih hrest).cons (Scan.mask c)
        rwa [Scan.utf8Size_mask, Nat.add_sub_cancel' hle] at hcons

/-- A beginning of a text is known by its bytes. -/
theorem eq_of_take_bytes {n : Nat} {a b x y : List Char} (hsize : size a = size b)
    (hn : size a ≤ n) (h : (bytes (a ++ x)).take n = (bytes (b ++ y)).take n) : a = b := by
  have hbytes := congrArg (List.take (size a)) h
  rw [List.take_take, List.take_take, Nat.min_eq_left hn, bytes_append, bytes_append,
    List.take_left' (length_bytes a), List.take_left' (by rw [length_bytes, hsize])] at hbytes
  exact bytes_injective hbytes

end Text

/-! ## The first token -/

namespace Token

open Text

variable {text text' : List Char} {place place' next : Place} {token : Token}

theorem split?_mask (rest : List Char) : split? (rest.map Scan.mask) =
    (split? rest).map fun found => (found.1, found.2.1.map Scan.mask, found.2.2.map Scan.mask) := by
  cases rest with
  | nil => rfl
  | cons c cs =>
    rw [split?_of_ne_nil (List.cons_ne_nil c cs), split?_of_ne_nil (by simp), Scan.first_mask,
      ← List.map_take, ← List.map_drop]
    rfl

/-- Texts that begin with the same bytes, three more than the first token of one has, begin with the
same token. -/
theorem split?_of_take_bytes {n : Nat} {a b word rest : List Char} {kind : Kind}
    (h : (bytes a).take n = (bytes b).take n) (hsplit : split? a = some (kind, word, rest))
    (hn : size word + 3 ≤ n) : ∃ rest', split? b = some (kind, word, rest') := by
  -- Texts that share bytes need not share the character in which these end, but they do so once all
  -- wide characters of a size are the same.
  have hmask : split? (a.map Scan.mask) =
      some (kind, word.map Scan.mask, rest.map Scan.mask) := by
    rw [split?_mask, hsplit]
    rfl
  obtain ⟨_, hmask', _⟩ := split?_of_agree_far (agree_mask_of_take_bytes h) hmask
    (by rwa [size_map_mask])
  rw [split?_mask] at hmask'
  obtain ⟨⟨kind', word', rest'⟩, hsplit', heq⟩ := Option.map_eq_some_iff.1 hmask'
  simp only [Prod.mk.injEq] at heq
  obtain ⟨rfl, hword, -⟩ := heq
  -- The token of the other text has the same size and is made of the same bytes.
  have hsize : size word = size word' := by
    rw [← size_map_mask word, ← hword, size_map_mask]
  rw [← append_of_split? hsplit, ← append_of_split? hsplit'] at h
  obtain rfl := eq_of_take_bytes hsize (by omega) h
  exact ⟨rest', hsplit'⟩

/-- What is read at a place is the first token of what follows it. -/
theorem exists_of_readAt? (h : readAt? text place = some (token, next)) :
    ∃ kind word rest rest', dropBytes? place.offset text = some rest ∧
      split? rest = some (kind, word, rest') ∧
      token = ⟨kind, word, place.offset, place.point, place.point.advance word⟩ ∧
      next = place.advance word := by
  obtain ⟨rest, hdrop, hread⟩ := Option.bind_eq_some_iff.1 h
  obtain ⟨⟨token', tail⟩, hread, heq⟩ := Option.map_eq_some_iff.1 hread
  obtain ⟨⟨kind, word, rest'⟩, hsplit, htoken⟩ := Option.map_eq_some_iff.1 hread
  simp only [Prod.mk.injEq] at heq htoken
  obtain ⟨rfl, -⟩ := htoken
  obtain ⟨rfl, rfl⟩ := heq
  exact ⟨kind, word, rest, rest', hdrop, hsplit, rfl, rfl⟩

theorem getElem?_bytes_of_dropBytes? {n : Nat} {rest : List Char}
    (h : dropBytes? n text = some rest) (i : Nat) : (bytes rest)[i]? = (bytes text)[n + i]? := by
  obtain ⟨before, rfl, rfl⟩ := exists_of_dropBytes? h
  rw [bytes_append, List.getElem?_append_right (by rw [length_bytes]; omega), length_bytes,
    Nat.add_sub_cancel_left]

/-- Texts with the same bytes from a place to three bytes past a token have the same token there. -/
theorem readAt?_of_bytes (hread : readAt? text place = some (token, next))
    (hoffset : place'.offset = place.offset) (hboundary : isBoundary place.offset text' = true)
    (hbytes : ∀ i, place.offset ≤ i → i < token.span.stop + Source.readAhead →
      (bytes text)[i]? = (bytes text')[i]?) :
    readAt? text' place' =
      some ({ token with start := place'.point, stop := place'.point.advance token.text },
        place'.advance token.text) := by
  obtain ⟨kind, word, rest, tail, hdrop, hsplit, rfl, -⟩ := exists_of_readAt? hread
  obtain ⟨cut, hcut⟩ := Option.isSome_iff_exists.1 hboundary
  have hdrop' : dropBytes? place.offset text' = some cut.2 := by rw [dropBytes?, hcut]; rfl
  have htake : (bytes rest).take (size word + 3) = (bytes cut.2).take (size word + 3) := by
    refine List.ext_getElem? fun i => ?_
    rw [List.getElem?_take, List.getElem?_take]
    split
    · rename_i hi
      rw [getElem?_bytes_of_dropBytes? hdrop, getElem?_bytes_of_dropBytes? hdrop']
      refine hbytes _ (Nat.le_add_right _ _) ?_
      simp only [span, Source.readAhead]
      omega
    · rfl
  obtain ⟨tail', hsplit'⟩ := split?_of_take_bytes htake hsplit (Nat.le_refl _)
  rw [readAt?, hoffset, hdrop', Option.bind_some, read?, hsplit']
  simp only [Option.map_some, hoffset]

/-- Bytes in front of an edit are the same in both texts, and so are the boundaries between them. -/
theorem same_of_replace {start stop : Nat} {insert : List Char} {edit : Edit}
    (h : Edit.replace text start stop insert = .ok (edit, text')) :
    (∀ i < edit.start, (bytes text)[i]? = (bytes text')[i]?) ∧
      ∀ n ≤ edit.start, isBoundary n text = true → isBoundary n text' = true := by
  obtain ⟨before, middle, after, rfl, rfl, hstart, -⟩ := Edit.replace_spec h
  rw [hstart, List.append_assoc, List.append_assoc]
  constructor
  · intro i hi
    rw [← length_bytes] at hi
    rw [bytes_append before, bytes_append before, List.getElem?_append_left hi,
      List.getElem?_append_left hi]
  · intro n hn hboundary
    obtain ⟨front, rest, hcut, rfl⟩ := exists_of_isBoundary hboundary
    obtain ⟨v, rfl, -⟩ := exists_append_of_size_le hcut.symm hn
    rw [List.append_assoc]
    exact isBoundary_size_append _ _

/-- Three bytes behind a token are all that it depends on. So a token which ends three bytes in front
of an edit or earlier is read from the new text as it was from the old one. -/
theorem readAt?_window (hread : readAt? text place = some (token, next)) :
    (∀ (text' : List Char) (place' : Place), place'.offset = place.offset →
      isBoundary place.offset text' = true →
      (∀ i, place.offset ≤ i → i < token.span.stop + Source.readAhead →
        (bytes text)[i]? = (bytes text')[i]?) →
      readAt? text' place' =
        some ({ token with start := place'.point, stop := place'.point.advance token.text },
          place'.advance token.text)) ∧
    (∀ (start stop : Nat) (insert : List Char) (edit : Edit) (text' : List Char),
      Edit.replace text start stop insert = .ok (edit, text') →
      token.span.stop + Source.readAhead ≤ edit.start →
      readAt? text' place = some (token, next)) := by
  refine ⟨fun text' place' => readAt?_of_bytes hread,
    fun start stop insert edit text' hreplace hstart => ?_⟩
  obtain ⟨kind, word, rest, tail, hdrop, -, rfl, rfl⟩ := exists_of_readAt? hread
  obtain ⟨hbytes, hboundary⟩ := same_of_replace hreplace
  simp only [span] at hstart
  refine readAt?_of_bytes hread rfl (hboundary _ (by omega) (isBoundary_of_dropBytes? hdrop))
    fun i _ hi => hbytes i (Nat.lt_of_lt_of_le hi hstart)

/-- The digit of `1e+x` does not depend on what follows the sign, and what is inserted there does not
change it. -/
theorem readAt?_window_digit :
    readAt? "1e+xyz".toList ⟨0, ⟨7, 7⟩⟩ =
        some (⟨.number, ['1'], 0, ⟨7, 7⟩, ⟨7, 8⟩⟩, ⟨1, ⟨7, 8⟩⟩) ∧
      readAt? "1e+x5".toList Place.origin =
        some (⟨.number, ['1'], 0, ⟨0, 0⟩, ⟨0, 1⟩⟩, ⟨1, ⟨0, 1⟩⟩) := by
  have hread : readAt? "1e+x".toList Place.origin =
      some (⟨.number, ['1'], 0, ⟨0, 0⟩, ⟨0, 1⟩⟩, ⟨1, ⟨0, 1⟩⟩) := by decide
  obtain ⟨hsame, hedit⟩ := readAt?_window hread
  have hreplace : Edit.replace "1e+x".toList 4 4 ['5'] =
      .ok (⟨4, 4, 5, ⟨0, 4⟩, ⟨0, 4⟩, ⟨0, 5⟩⟩, "1e+x5".toList) := rfl
  exact ⟨hsame "1e+xyz".toList ⟨0, ⟨7, 7⟩⟩ rfl (by decide) (by decide),
    hedit 4 4 ['5'] _ _ hreplace (by decide)⟩

/-- The integer of `1e+x` is a token of one byte. The exponent of `1e+5` begins with the same three
bytes, so two bytes behind a token are not enough. -/
example : (readAt? "1e+x".toList Place.origin).map (·.1.text) = some ['1'] ∧
    (readAt? "1e+5".toList Place.origin).map (·.1.text) = some ['1', 'e', '+', '5'] := by
  decide

end Token
end SqlTree
