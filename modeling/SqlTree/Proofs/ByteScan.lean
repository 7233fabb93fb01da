import Mathlib.Tactic.ByContra
import SqlTree.Token.Bytes
import SqlTree.Proofs.Lookahead

/-!
# Content scanned by bytes ends where the token ends

The bytes of a character that has more than one are all above those of any mark. So a scan over
bytes sees the same marks as one over characters, also if it goes on inside of a character, and it
takes the bytes of the characters that belong to the token.

- `comment_bytes`, `quoted_bytes`, `number?_bytes` : what each scan takes
- `ByteScan.Scans`  : the scan of a quoted token from a byte on, with a lemma for each character
- `ByteScan.Narrow` : characters that are bytes, as those of a number
- `Token.split?_of_opening?` : a token takes its opening and what the scan behind it takes
-/

namespace SqlTree
namespace ByteScan

open Text

variable {cs : List Char}

/-! ## Block comments -/

theorem find?_of_wide {p : Char} (hp : p.utf8Size = 1) {ps front : List UInt8} (rest : List UInt8)
    (hfront : ∀ b ∈ front, 128 ≤ b.toNat) : find? (p.toUInt8 :: ps) (front ++ rest) =
      (find? (p.toUInt8 :: ps) rest).map (· + front.length) := by
  induction front with
  | nil => simp
  | cons b front ih =>
    obtain ⟨hb, hfront⟩ := List.forall_mem_cons.1 hfront
    have hne : (p.toUInt8 == b) = false := beq_false_of_ne (ne_toUInt8_of_le hb hp).symm
    rw [List.cons_append, find?, List.isPrefixOf_cons_cons, hne, Bool.false_and, if_neg (by simp),
      ih hfront, Option.map_map]
    rfl

theorem find?_bytes (cs : List Char) :
    (∀ n, Scan.commentBody? cs = some n →
      ∃ stop, find? ['*'.toUInt8, '/'.toUInt8] (bytes cs) = some stop ∧
        size (cs.take n) = stop + 2) ∧
    (Scan.commentBody? cs = none → find? ['*'.toUInt8, '/'.toUInt8] (bytes cs) = none) := by
  fun_induction Scan.commentBody? cs with
  | case1 rest =>
    refine ⟨fun n hn => ?_, fun hn => by cases hn⟩
    cases hn
    refine ⟨0, ?_, by rfl⟩
    rw [bytes_cons_of_narrow rfl, bytes_cons_of_narrow rfl, find?, if_pos (by simp)]
  | case2 c rest hclose ih =>
    have hstep : find? ['*'.toUInt8, '/'.toUInt8] (bytes (c :: rest)) =
        (find? ['*'.toUInt8, '/'.toUInt8] (bytes rest)).map (· + c.utf8Size) := by
      -- Only a character of one byte can begin the closing mark, and this one does not.
      by_cases hc : c.utf8Size = 1
      · rw [bytes_cons_of_narrow hc, find?, if_neg, hc]
        rw [List.isPrefixOf_cons_cons, Bool.and_eq_true, beq_iff_eq, toUInt8_eq_iff rfl hc]
        rintro ⟨rfl, hslash⟩
        cases rest with
        | nil => cases hslash
        | cons d rest =>
          obtain ⟨b, more, hb, heq⟩ := exists_byte d rest
          rw [hb, List.isPrefixOf_cons_cons, Bool.and_eq_true, beq_iff_eq] at hslash
          exact hclose rest rfl (by rw [(heq '/' rfl).1 hslash.1.symm])
      · rw [bytes_cons, find?_of_wide rfl _ (le_toNat_of_wide hc), String.length_utf8EncodeChar]
    rw [hstep]
    constructor
    · intro n hn
      obtain ⟨k, hk, rfl⟩ := Option.map_eq_some_iff.1 hn
      obtain ⟨stop, hstop, hsize⟩ := ih.1 k hk
      refine ⟨stop + c.utf8Size, by rw [hstop]; rfl, ?_⟩
      rw [List.take_succ_cons, size_cons, hsize]
      omega
    · intro hn
      rw [ih.2 (Option.map_eq_none_iff.1 hn)]
      rfl
  | case3 => exact ⟨fun _ hn => (by cases hn), fun _ => rfl⟩

/-- The content of a block comment, by its bytes. -/
theorem comment_bytes (cs : List Char) : comment (bytes cs) =
    (size (cs.take ((Scan.commentBody? cs).getD cs.length)), (Scan.commentBody? cs).isSome) := by
  obtain ⟨hsome, hnone⟩ := find?_bytes cs
  cases hbody : Scan.commentBody? cs with
  | none => rw [comment, hnone hbody, Option.getD_none, List.take_length, length_bytes]; rfl
  | some n =>
    obtain ⟨stop, hstop, hsize⟩ := hsome n hbody
    rw [comment, hstop, Option.getD_some, hsize]
    rfl

/-! ## Quoted tokens -/

variable {closing rest : List UInt8} {multiline : Bool} {i : Nat}

theorem quoted_of_drop_nil (h : rest.drop i = []) :
    quoted closing multiline rest i = (rest.length, false) := by
  rw [quoted, dif_neg (Nat.not_lt.2 (List.drop_eq_nil_iff.1 h))]

theorem quoted_of_drop_cons {b : UInt8} {tail : List UInt8} (h : rest.drop i = b :: tail) :
    quoted closing multiline rest i =
      if b = '\\'.toUInt8 then quoted closing multiline rest (i + 2)
      else if b = '\n'.toUInt8 && !multiline then (i, false)
      else if closing.isPrefixOf (b :: tail) then (i + closing.length, true)
      else quoted closing multiline rest (i + 1) := by
  have hlt : i < rest.length := by
    have := congrArg List.length h
    simp only [List.length_drop, List.length_cons] at this
    omega
  have hget : rest[i] = b := by
    rw [List.drop_eq_getElem_cons hlt] at h
    exact (List.cons.inj h).1
  rw [quoted, dif_pos hlt, hget, h]

theorem drop_add_of_drop_append (front : List UInt8) {tail : List UInt8}
    (h : rest.drop i = front ++ tail) : rest.drop (i + front.length) = tail := by
  rw [← List.drop_drop, h, List.drop_left]

/-- The bytes of a longer character are stepped over, wherever the scan is in it. -/
theorem quoted_of_wide {p : Char} (hp : p.utf8Size = 1) {ps front tail : List UInt8}
    (h : rest.drop i = front ++ tail) (hfront : ∀ b ∈ front, 128 ≤ b.toNat) :
    quoted (p.toUInt8 :: ps) multiline rest i =
      quoted (p.toUInt8 :: ps) multiline rest (i + front.length) := by
  induction front generalizing i with
  | nil => rfl
  | cons b front ih =>
    obtain ⟨hb, hfront⟩ := List.forall_mem_cons.1 hfront
    -- The byte is no backslash, no end of a line and not the first one of the closing quote.
    have hclosing : (p.toUInt8 == b) = false := beq_false_of_ne (ne_toUInt8_of_le hb hp).symm
    have hnext : rest.drop (i + 1) = front ++ tail :=
      drop_add_of_drop_append [b] h
    rw [quoted_of_drop_cons h, if_neg (ne_toUInt8_of_le hb rfl),
      if_neg (by simp [ne_toUInt8_of_le hb (show '\n'.utf8Size = 1 from rfl)]),
      if_neg (by rw [List.isPrefixOf, hclosing]; exact Bool.false_ne_true), ih hnext hfront,
      List.length_cons, Nat.add_assoc, Nat.add_comm 1]

theorem isPrefixOf_bytes {mark : List Char} (hmark : ∀ c ∈ mark, c.utf8Size = 1)
    (cs : List Char) : (bytes mark).isPrefixOf (bytes cs) = mark.isPrefixOf cs := by
  induction mark generalizing cs with
  | nil => simp
  | cons d mark ih =>
    obtain ⟨hd, hmark⟩ := List.forall_mem_cons.1 hmark
    rw [bytes_cons_of_narrow hd]
    cases cs with
    | nil => rfl
    | cons c cs =>
      by_cases hc : c = d
      · rw [hc]
        rw [bytes_cons_of_narrow hd, List.isPrefixOf_cons_cons, List.isPrefixOf_cons_cons, ih hmark,
          beq_self_eq_true, beq_self_eq_true]
      · obtain ⟨b, more, hb, heq⟩ := exists_byte c cs
        rw [hb, List.isPrefixOf_cons_cons, List.isPrefixOf_cons_cons,
          beq_false_of_ne (Ne.symm (mt (heq d hd).1 hc)), beq_false_of_ne (Ne.symm hc),
          Bool.false_and, Bool.false_and]

theorem drop_add_utf8Size {c : Char} (h : rest.drop i = bytes (c :: cs)) :
    rest.drop (i + c.utf8Size) = bytes cs := by
  rw [← String.length_utf8EncodeChar c]
  exact drop_add_of_drop_append _ h

/-- One byte behind a backslash, the scan goes on as if it had skipped a character. -/
theorem quoted_escaped {p d : Char} (hp : p.utf8Size = 1) {ps : List UInt8}
    (h : rest.drop i = bytes (d :: cs)) : quoted (p.toUInt8 :: ps) multiline rest (i + 1) =
      quoted (p.toUInt8 :: ps) multiline rest (i + d.utf8Size) := by
  obtain ⟨b, more, hbytes, -, hmore⟩ := exists_lead d
  have hlength : d.utf8Size = more.length + 1 := by
    rw [← String.length_utf8EncodeChar, hbytes, List.length_cons]
  rw [bytes_cons, hbytes] at h
  have hnext : rest.drop (i + 1) = more ++ bytes cs := drop_add_of_drop_append [b] h
  rw [quoted_of_wide hp hnext hmore, hlength, Nat.add_assoc, Nat.add_comm 1]

/-- From byte `i` on, where `cs` begins, the scan takes the content that the characters say. -/
def Scans (mark : List Char) (multiline : Bool) (rest : List UInt8) (i : Nat) (cs : List Char) :
    Prop :=
  quoted (bytes mark) multiline rest i =
    (i + size (cs.take (Quote.body mark multiline cs).1), (Quote.body mark multiline cs).2)

section Scans

variable {mark : List Char} {c d : Char}

theorem scans_nil (hlength : rest.length = i) : Scans mark multiline rest i [] := by
  rw [Scans, quoted_of_drop_nil (List.drop_eq_nil_iff.2 (Nat.le_of_eq hlength)), hlength]
  rfl

/-- The backslash is the last byte, and the scan goes past the end. -/
theorem scans_backslash (hdrop : rest.drop i = bytes ['\\']) :
    Scans mark multiline rest i ['\\'] := by
  have hlength : rest.length = i + 1 := by
    have hsize := congrArg List.length hdrop
    rw [List.length_drop, length_bytes, size_cons, size_nil] at hsize
    have hone : '\\'.utf8Size = 1 := rfl
    omega
  rw [bytes_cons_of_narrow rfl] at hdrop
  rw [Scans, quoted_of_drop_cons hdrop, if_pos rfl,
    quoted_of_drop_nil (List.drop_eq_nil_iff.2 (by omega)), hlength]
  rfl

/-- The scan may land inside the character behind a backslash. -/
theorem scans_escape (hmark : ∀ c ∈ mark, c.utf8Size = 1) (hne : mark ≠ [])
    (hdrop : rest.drop i = bytes ('\\' :: d :: cs))
    (h : Scans mark multiline rest (i + 1 + d.utf8Size) cs) :
    Scans mark multiline rest i ('\\' :: d :: cs) := by
  obtain ⟨p, ps, rfl⟩ := List.exists_cons_of_ne_nil hne
  have hp := hmark p List.mem_cons_self
  have hone : '\\'.utf8Size = 1 := rfl
  have hnext := drop_add_utf8Size hdrop
  rw [bytes_cons_of_narrow rfl] at hdrop
  rw [Scans, bytes_cons_of_narrow hp] at h ⊢
  rw [quoted_of_drop_cons hdrop, if_pos rfl, quoted_escaped hp (hone ▸ hnext), h, Quote.body,
    List.take_succ_cons, List.take_succ_cons, size_cons, size_cons, hone, Nat.add_assoc,
    Nat.add_assoc]

theorem scans_narrow (hmark : ∀ c ∈ mark, c.utf8Size = 1) (hescape : c ≠ '\\')
    (hc : c.utf8Size = 1) (hdrop : rest.drop i = bytes (c :: cs))
    (h : Scans mark multiline rest (i + c.utf8Size) cs) :
    Scans mark multiline rest i (c :: cs) := by
  have hline : (decide (c.toUInt8 = '\n'.toUInt8) && !multiline) = (c == '\n' && !multiline) := by
    rw [Bool.eq_iff_iff]
    simp [toUInt8_eq_iff hc (show '\n'.utf8Size = 1 from rfl)]
  have hfront := isPrefixOf_bytes hmark (c :: cs)
  rw [bytes_cons_of_narrow hc] at hdrop hfront
  rw [Scans, hc] at h
  rw [Scans, Scan.body_cons mark multiline hescape cs, quoted_of_drop_cons hdrop,
    if_neg (mt (toUInt8_eq_iff hc rfl).1 hescape), hline, hfront]
  split
  · rfl
  · split
    · -- The closing quote, which belongs to the content.
      rename_i hclose
      obtain ⟨t, ht⟩ := List.isPrefixOf_iff_prefix.1 hclose
      rw [← ht, List.take_left, length_bytes]
    · rw [h, List.take_succ_cons, size_cons, hc, Nat.add_assoc]

theorem scans_wide (hmark : ∀ c ∈ mark, c.utf8Size = 1) (hne : mark ≠ [])
    (hc : c.utf8Size ≠ 1) (hdrop : rest.drop i = bytes (c :: cs))
    (h : Scans mark multiline rest (i + c.utf8Size) cs) :
    Scans mark multiline rest i (c :: cs) := by
  obtain ⟨p, ps, rfl⟩ := List.exists_cons_of_ne_nil hne
  have hp := hmark p List.mem_cons_self
  have hother {d : Char} (hd : d.utf8Size = 1) : c ≠ d := by
    rintro rfl
    exact hc hd
  have hline : (c == '\n') = false := beq_false_of_ne (hother rfl)
  have hclosing : (p == c) = false := beq_false_of_ne (hother hp).symm
  rw [Scans, bytes_cons_of_narrow hp] at h ⊢
  rw [Scan.body_cons (p :: ps) multiline (hother rfl) cs, hline, Bool.false_and,
    if_neg Bool.false_ne_true, List.isPrefixOf_cons_cons, hclosing, Bool.false_and,
    if_neg Bool.false_ne_true, List.take_succ_cons, size_cons,
    quoted_of_wide hp hdrop (le_toNat_of_wide hc), String.length_utf8EncodeChar, h, Nat.add_assoc]

theorem scans_of_drop (hmark : ∀ c ∈ mark, c.utf8Size = 1) (hne : mark ≠ [])
    (hdrop : rest.drop i = bytes cs) (hi : i ≤ rest.length) : Scans mark multiline rest i cs := by
  -- The induction is on the number of characters, of which an escape takes two.
  induction hn : cs.length using Nat.strongRecOn generalizing cs i with
  | ind n ih =>
    have hlength : rest.length = i + size cs := by
      have hsize := congrArg List.length hdrop
      rw [List.length_drop, length_bytes] at hsize
      omega
    cases cs with
    | nil => exact scans_nil hlength
    | cons c cs =>
      rw [size_cons] at hlength
      have hnext := drop_add_utf8Size hdrop
      have hrest := ih cs.length (hn ▸ Nat.lt_succ_self _) hnext (by omega) rfl
      by_cases hescape : c = '\\'
      · subst hescape
        cases cs with
        | nil => exact scans_backslash hdrop
        | cons d cs =>
          have hone : '\\'.utf8Size = 1 := rfl
          rw [size_cons] at hlength
          have htail := ih cs.length (by simp only [← hn, List.length_cons]; omega)
            (drop_add_utf8Size hnext) (by omega) rfl
          exact scans_escape hmark hne hdrop htail
      · by_cases hc : c.utf8Size = 1
        · exact scans_narrow hmark hescape hc hdrop hrest
        · exact scans_wide hmark hne hc hdrop hrest

end Scans

/-- The content of a quoted token, by its bytes. -/
theorem quoted_bytes {mark : List Char} (hmark : ∀ c ∈ mark, c.utf8Size = 1) (hne : mark ≠ [])
    (multiline : Bool) (cs : List Char) : quoted (bytes mark) multiline (bytes cs) 0 =
      (size (cs.take (Quote.body mark multiline cs).1), (Quote.body mark multiline cs).2) := by
  rw [scans_of_drop hmark hne List.drop_zero (Nat.zero_le _), Nat.zero_add]

/-! ## Numbers -/

theorem isDigit_toUInt8 {c : Char} (hc : c.utf8Size = 1) :
    isDigit c.toUInt8 = Scan.isDigit c := by
  have hnat := toNat_toUInt8_of_narrow hc
  rw [Bool.eq_iff_iff]
  simp only [isDigit, Scan.isDigit, Char.isDigit, Bool.and_eq_true, decide_eq_true_eq,
    UInt8.le_iff_toNat_le, UInt32.le_iff_toNat_le, hnat, ge_iff_le]
  rfl

theorem isDigit_of_le {b : UInt8} (hb : 128 ≤ b.toNat) : isDigit b = false := by
  have h9 : ('9'.toUInt8).toNat = 57 := rfl
  simp only [isDigit, Bool.and_eq_false_iff, decide_eq_false_iff_not, UInt8.le_iff_toNat_le, h9]
  omega

/-- Letters are those of ASCII. -/
theorem isAlpha_iff (c : Char) :
    c.isAlpha = true ↔ 65 ≤ c.val ∧ c.val ≤ 90 ∨ 97 ≤ c.val ∧ c.val ≤ 122 := by
  change (decide (65 ≤ c.val ∧ c.val ≤ 90) ||
    (decide (97 ≤ c.val) && decide (c.val ≤ 122))) = true ↔ _
  simp only [Bool.or_eq_true, Bool.and_eq_true, decide_eq_true_eq]

theorem narrow_of_isWordChar {c : Char} (h : Scan.isWordChar c = true) : c.utf8Size = 1 := by
  simp only [Scan.isWordChar, Char.isDigit, beq_iff_eq, Bool.or_eq_true, isAlpha_iff] at h
  obtain h | rfl := h
  · rw [Char.utf8Size_eq_one_iff]
    grind
  · rfl

theorem isWordChar_of_isLetter {c : Char} (h : Scan.isLetter c = true) :
    Scan.isWordChar c = true := by
  simp only [Scan.isLetter] at h
  simp [Scan.isWordChar, h]

theorem isWordChar_of_isDigit {c : Char} (h : Scan.isDigit c = true) :
    Scan.isWordChar c = true := by
  simp only [Scan.isDigit] at h
  simp [Scan.isWordChar, h]

/-- Digits are counted alike in bytes and in characters. -/
theorem takeWhile_isDigit_bytes (cs : List Char) :
    ((bytes cs).takeWhile isDigit).length = Scan.run Scan.isDigit cs := by
  induction cs with
  | nil => rfl
  | cons c cs ih =>
    by_cases hc : c.utf8Size = 1
    · simp only [Scan.run] at ih
      rw [bytes_cons_of_narrow hc, Scan.run, List.takeWhile_cons, List.takeWhile_cons,
        isDigit_toUInt8 hc]
      split
      · rw [List.length_cons, List.length_cons, ih]
      · rfl
    · -- A longer character is no digit, and neither is its first byte.
      obtain ⟨b, more, hbytes, -⟩ := exists_lead c
      have hb := le_toNat_of_wide hc b (by rw [hbytes]; exact List.mem_cons_self)
      have hdigit : Scan.isDigit c = false := Bool.eq_false_iff.2 fun hdigit =>
        hc (narrow_of_isWordChar (isWordChar_of_isDigit hdigit))
      rw [bytes_cons, hbytes, List.cons_append, Scan.run, List.takeWhile_cons,
        List.takeWhile_cons, isDigit_of_le hb, hdigit]
      rfl

/-- The first `n` characters are there, and have one byte each. -/
def Narrow (cs : List Char) (n : Nat) : Prop :=
  n ≤ cs.length ∧ ∀ c ∈ cs.take n, c.utf8Size = 1

namespace Narrow

variable {n k : Nat}

theorem zero (cs : List Char) : Narrow cs 0 := ⟨Nat.zero_le _, by simp⟩

theorem cons {c : Char} (hc : c.utf8Size = 1) (h : Narrow cs n) : Narrow (c :: cs) (n + 1) :=
  ⟨Nat.succ_le_succ h.1, List.forall_mem_cons.2 ⟨hc, h.2⟩⟩

theorem add (h : Narrow cs n) (hk : Narrow (cs.drop n) k) : Narrow cs (n + k) := by
  induction cs generalizing n with
  | nil =>
    obtain rfl := Nat.le_zero.1 h.1
    rw [Nat.zero_add]
    exact hk
  | cons c cs ih =>
    cases n with
    | zero =>
      rw [Nat.zero_add]
      exact hk
    | succ n =>
      obtain ⟨hc, hcs⟩ := List.forall_mem_cons.1 h.2
      rw [Nat.add_right_comm]
      exact cons hc (ih ⟨Nat.le_of_succ_le_succ h.1, hcs⟩ hk)

theorem of_run {p : Char → Bool} (hp : ∀ c, p c = true → c.utf8Size = 1) (cs : List Char) :
    Narrow cs (Scan.run p cs) := by
  induction cs with
  | nil => exact zero []
  | cons c cs ih =>
    rw [Scan.run, List.takeWhile_cons]
    split
    · rename_i hc
      exact cons (hp c hc) ih
    · exact zero _

theorem size_take (h : Narrow cs n) : size (cs.take n) = n := by
  induction cs generalizing n with
  | nil => rw [List.take_nil, Nat.le_zero.1 h.1, size_nil]
  | cons c cs ih =>
    cases n with
    | zero => rfl
    | succ n =>
      obtain ⟨hc, hcs⟩ := List.forall_mem_cons.1 h.2
      rw [List.take_succ_cons, size_cons, hc, ih ⟨Nat.le_of_succ_le_succ h.1, hcs⟩, Nat.add_comm]

/-- Behind such characters, bytes and characters have the same offsets. -/
theorem drop_bytes (h : Narrow cs n) : (bytes cs).drop n = bytes (cs.drop n) := by
  have happend := bytes_append (cs.take n) (cs.drop n)
  rw [List.take_append_drop] at happend
  rw [happend]
  exact List.drop_left' (by rw [length_bytes, h.size_take])

theorem le_length_bytes (h : Narrow cs n) : n ≤ (bytes cs).length := by
  have happend := size_append (cs.take n) (cs.drop n)
  rw [List.take_append_drop, h.size_take] at happend
  rw [length_bytes]
  omega

theorem getElem?_bytes {d : Char} (hd : d.utf8Size = 1) (h : Narrow cs n) :
    ((bytes cs)[n]? == some d.toUInt8) = ((cs.drop n).head? == some d) := by
  rw [← head?_bytes hd, ← h.drop_bytes, List.getElem?_drop, Nat.add_zero]

theorem digits?_bytes (h : Narrow cs n) :
    digits? (bytes cs) n = some (Scan.run Scan.isDigit (cs.drop n)) := by
  rw [digits?, if_pos h.le_length_bytes, h.drop_bytes, takeWhile_isDigit_bytes]

end Narrow

theorem narrow_digits (cs : List Char) : Narrow cs (Scan.run Scan.isDigit cs) :=
  .of_run (fun _ hc => narrow_of_isWordChar (isWordChar_of_isDigit hc)) cs

theorem narrow_fraction (cs : List Char) : Narrow cs (Scan.fraction cs) := by
  fun_cases Scan.fraction cs with
  | case1 rest =>
    rw [Nat.add_comm]
    exact .cons rfl (narrow_digits rest)
  | case2 => exact .zero _

theorem head?_ne {d : Char} (h : ∀ t, cs = d :: t → False) : (cs.head? == some d) = false := by
  cases cs with
  | nil => rfl
  | cons c cs => exact beq_false_of_ne fun hc => h cs (by rw [Option.some.inj hc])

/-- The fraction behind an integer, by its bytes. -/
theorem fraction?_bytes (pointed : Bool) (cs : List Char) :
    fraction? pointed (bytes cs) = some (if pointed then 0 else Scan.fraction cs) := by
  cases pointed with
  | true => rfl
  | false =>
    rw [fraction?, head?_bytes rfl]
    fun_cases Scan.fraction cs with
    | case1 rest =>
      have hpoint : Narrow ('.' :: rest) 1 := .cons rfl (.zero rest)
      rw [hpoint.digits?_bytes]
      rfl
    | case2 _ hpoint =>
      rw [head?_ne hpoint]
      rfl

theorem narrow_head {d : Char} {cs : List Char} (hd : d.utf8Size = 1)
    (h : (cs.head? == some d) = true) : Narrow cs 1 := by
  obtain ⟨tail, rfl⟩ := List.head?_eq_some_iff.1 (beq_iff_eq.1 h)
  exact .cons hd (.zero tail)

/-- The exponent behind a number, by its bytes. -/
theorem exponent?_bytes {n : Nat} (h : Narrow cs n) :
    exponent? (bytes cs) n = some (Scan.exponent (cs.drop n)) ∧
      Narrow (cs.drop n) (Scan.exponent (cs.drop n)) := by
  rw [exponent?, h.getElem?_bytes rfl, h.getElem?_bytes rfl]
  cases hrest : cs.drop n with
  | nil => exact ⟨rfl, .zero _⟩
  | cons mark rest =>
    rw [Scan.exponent, List.head?_cons, Option.some_beq_some, Option.some_beq_some]
    by_cases hmark : (mark == 'e' || mark == 'E') = true
    · rw [if_pos hmark, if_pos hmark]
      have hone : Narrow (mark :: rest) 1 := by
        rcases Bool.or_eq_true_iff.1 hmark with he | he
        · exact narrow_head (d := 'e') rfl he
        · exact narrow_head (d := 'E') rfl he
      have hnext : Narrow cs (n + 1) := h.add (hrest ▸ hone)
      have hdrop : cs.drop (n + 1) = rest := by rw [← List.drop_drop, hrest]; rfl
      have hsign : Narrow rest
          (if rest.head? == some '+' || rest.head? == some '-' then 1 else 0) := by
        split
        · rename_i hsign
          rcases Bool.or_eq_true_iff.1 hsign with hplus | hminus
          · exact narrow_head rfl hplus
          · exact narrow_head rfl hminus
        · exact .zero rest
      dsimp only
      rw [hnext.getElem?_bytes rfl, hnext.getElem?_bytes rfl, hdrop]
      generalize (if rest.head? == some '+' || rest.head? == some '-' then 1 else 0) = sign
        at hsign ⊢
      have hdigits := (hnext.add (hdrop.symm ▸ hsign)).digits?_bytes
      rw [← List.drop_drop, hdrop] at hdigits
      simp only [hdigits, Option.map_some]
      rcases Nat.eq_zero_or_pos (Scan.run Scan.isDigit (rest.drop sign)) with hzero | hpos
      · rw [hzero]
        exact ⟨rfl, .zero _⟩
      · rw [if_pos hpos, if_neg (Nat.ne_of_gt hpos)]
        exact ⟨rfl, (hone.add hsign).add (by
          rw [← List.drop_drop]
          exact narrow_digits _)⟩
    · rw [if_neg hmark, if_neg hmark]
      exact ⟨rfl, .zero _⟩

/-- The length of the fraction and the exponent behind an integer. -/
def tail (pointed : Bool) (cs : List Char) : Nat :=
  let fraction := if pointed then 0 else Scan.fraction cs
  fraction + Scan.exponent (cs.drop fraction)

/-- The rest of a number behind its integer, by its bytes. -/
theorem number?_bytes (pointed : Bool) (cs : List Char) :
    number? pointed (bytes cs) = some (tail pointed cs) ∧ Narrow cs (tail pointed cs) := by
  have hfraction : Narrow cs (if pointed then 0 else Scan.fraction cs) := by
    split
    · exact .zero cs
    · exact narrow_fraction cs
  obtain ⟨hexponent, hnarrow⟩ := exponent?_bytes hfraction
  refine ⟨?_, hfraction.add hnarrow⟩
  rw [number?, fraction?_bytes, Option.bind_some, hexponent, Option.map_some]
  rfl

/-! ## Openings -/

/-- A letter, a digit, a quote or a point begins no blank and no comment. -/
theorem first_of_head {c : Char} {rest : List Char}
    (h : Scan.isWordChar c = true ∨ c ∈ ['\x60', '\'', '"', '.']) :
    Scan.first (c :: rest) = ((Scan.quoted? (c :: rest)).or <| (Scan.word? (c :: rest)).or <|
      (Scan.number? (c :: rest)).or <| (Scan.parameter? (c :: rest)).or <|
        Scan.punct? (c :: rest)).getD (.errorToken, 1) := by
  have hne (d : Char) (hword : Scan.isWordChar d = false)
      (hother : d ∉ ['\x60', '\'', '"', '.']) : c ≠ d := by
    rintro rfl
    rcases h with h | h
    · rw [hword] at h
      cases h
    · exact hother h
  have hblank : Scan.isBlank c = false := by
    simp only [Scan.isBlank, Bool.or_eq_false_iff, beq_eq_false_iff_ne]
    exact ⟨⟨⟨⟨hne _ rfl (by decide), hne _ rfl (by decide)⟩, hne _ rfl (by decide)⟩,
      hne _ rfl (by decide)⟩, hne _ rfl (by decide)⟩
  have hcomment : Scan.comment? (c :: rest) = none := by
    rw [Scan.comment?]
    · exact fun _ h => hne '-' rfl (by decide) (List.cons.inj h).1
    · exact fun _ h => hne '#' rfl (by decide) (List.cons.inj h).1
    · exact fun _ h => hne '/' rfl (by decide) (List.cons.inj h).1
  rw [Scan.first, Scan.blank?, hblank, hcomment]
  rfl

theorem head_of_open? {q : Quote} (h : Quote.open? cs = some q) : ∃ c rest, cs = c :: rest ∧
    (Scan.isWordChar c = true ∨ c ∈ ['\x60', '\'', '"', '.']) := by
  cases cs with
  | nil => simp [Quote.open?, Quote.mark?] at h
  | cons c rest =>
    refine ⟨c, rest, rfl, ?_⟩
    by_contra hne
    simp only [not_or, List.mem_cons, List.not_mem_nil, or_false] at hne
    obtain ⟨hword, hback, hsingle, hdouble, -⟩ := hne
    have hletter : Scan.isLetter c = false := by simpa using mt isWordChar_of_isLetter hword
    simp [Quote.open?, hback, hletter, Quote.mark?, hsingle, hdouble] at h

theorem first_of_open? {q : Quote} (h : Quote.open? cs = some q) : Scan.first cs = q.scan cs := by
  obtain ⟨c, rest, rfl, hc⟩ := head_of_open? h
  rw [first_of_head hc, Scan.quoted?, h]
  rfl

theorem first_of_startsNumber (h : Scan.startsNumber cs = true) (hopen : Quote.open? cs = none) :
    Scan.first cs = (.number, Scan.number cs) := by
  cases cs with
  | nil => cases h
  | cons c rest =>
    have hc : Scan.isDigit c = true ∨ c = '.' := by
      by_cases hpoint : c = '.'
      · exact Or.inr hpoint
      · rw [Scan.startsNumber] at h
        · exact Or.inl h
        · exact fun _ _ hc => absurd hc hpoint
    -- No token that is asked for before a number begins with a digit or a point.
    have hword : Scan.word? (c :: rest) = none := by
      have hstart : Scan.isWordStart c = false := by
        rcases hc with hc | rfl
        · have hunder : c ≠ '_' := by
            rintro rfl
            cases hc
          simp only [Scan.isWordStart, beq_false_of_ne hunder, Bool.or_false]
          rw [Bool.eq_false_iff, ne_eq, isAlpha_iff]
          simp only [Scan.isDigit, Char.isDigit] at hc
          grind
        · rfl
      rw [Scan.word?, hstart]
      rfl
    rw [first_of_head, Scan.quoted?, hopen, hword, Scan.number?, if_pos h]
    · rfl
    · rcases hc with hc | rfl
      · exact Or.inl (isWordChar_of_isDigit hc)
      · exact Or.inr (by decide)

/-- A block comment reaches to its closing mark or to the end. -/
theorem first_of_comment (rest : List Char) : Scan.first ('/' :: '*' :: rest) =
    (if (Scan.commentBody? rest).isSome then .blockComment else .errorToken,
      2 + (Scan.commentBody? rest).getD rest.length) := by
  have hblank : Scan.blank? ('/' :: '*' :: rest) = none := rfl
  rw [Scan.first, hblank, Scan.comment?]
  cases Scan.commentBody? rest <;> rfl

theorem isPrefix_of_mark? {mark : List Char} (h : Quote.mark? cs = some mark) :
    mark <+: cs ∧ mark ≠ [] := by
  unfold Quote.mark? at h
  split at h <;> cases h <;> simp

/-- The opening of a quoted token is there, and its quote is not empty. -/
theorem length_le_of_open? {q : Quote} (h : Quote.open? cs = some q) :
    q.letters + q.mark.length ≤ cs.length ∧ q.mark ≠ [] := by
  unfold Quote.open? at h
  split at h
  · cases h
    simp
  · obtain ⟨kind, -, hmark⟩ := Option.bind_eq_some_iff.1 h
    obtain ⟨mark, hquote, rfl⟩ := Option.map_eq_some_iff.1 hmark
    obtain ⟨hfront, hne⟩ := isPrefix_of_mark? hquote
    have hletters := (List.takeWhile_prefix (l := cs) Scan.isLetter).length_le
    have hlength := hfront.length_le
    rw [List.length_drop] at hlength
    exact ⟨by dsimp only; omega, hne⟩

theorem integer_isPrefix (cs : List Char) : integer cs <+: cs := by
  fun_cases integer cs with
  | case1 rest => exact List.cons_prefix_cons.2 ⟨rfl, List.takeWhile_prefix _⟩
  | case2 => exact List.takeWhile_prefix _

theorem integer_ne_nil (h : Scan.startsNumber cs = true) : integer cs ≠ [] := by
  fun_cases integer cs with
  | case1 rest => exact List.cons_ne_nil _ _
  | case2 _ hpoint =>
    cases cs with
    | nil => cases h
    | cons c rest =>
      rw [Scan.startsNumber] at h
      · rw [List.takeWhile_cons, if_pos h]
        exact List.cons_ne_nil _ _
      · exact fun _ rest hc hrest => hpoint _ (by rw [hc])

/-- A decimal number is its integer, its fraction and its exponent. -/
theorem decimal_eq (cs : List Char) : Scan.decimal cs =
    (integer cs).length + tail (cs.head? == some '.') (cs.drop (integer cs).length) := by
  fun_cases integer cs with
  | case1 rest =>
    have hpoint : Scan.run Scan.isDigit ('.' :: rest) = 0 := rfl
    have hlength : ('.' :: rest.takeWhile Scan.isDigit).length = Scan.fraction ('.' :: rest) :=
      Nat.add_comm _ _
    simp only [Scan.decimal, tail, hpoint, hlength, List.head?_cons, beq_self_eq_true, if_true,
      List.drop_zero, Nat.zero_add]
  | case2 _ hpoint =>
    have hlength : (cs.takeWhile Scan.isDigit).length = Scan.run Scan.isDigit cs := rfl
    simp only [Scan.decimal, tail, head?_ne hpoint, hlength, Bool.false_eq_true, if_false,
      List.drop_drop, Nat.add_assoc]

end ByteScan

namespace Token

open Text ByteScan

theorem size_split?_of_first {cs : List Char} (front : List Char) {kind : Kind} {length : Nat}
    (hfront : front <+: cs) (hne : front ≠ [])
    (hfirst : Scan.first cs = (kind, front.length + length)) :
    ∃ text rest, split? cs = some (kind, text, rest) ∧
      size text = size front + size ((cs.drop front.length).take length) := by
  have hpos := List.length_pos_iff.2 hne
  have hcs : cs ≠ [] := by
    rintro rfl
    exact hne (List.prefix_nil.1 hfront)
  refine ⟨_, _, by rw [split?_of_ne_nil hcs, hfirst], ?_⟩
  rw [Nat.max_eq_left (Nat.le_add_right_of_le hpos), List.take_add, size_append,
    ← List.prefix_iff_eq_take.1 hfront]

/-- A token takes the bytes of its opening and those that the scan behind it takes. -/
theorem split?_of_opening? {cs : List Char} {o : Opening} (h : opening? cs = some o) :
    ∃ n closed text rest, o.scan? (bytes (cs.drop o.text.length)) = some (n, closed) ∧
      split? cs = some (if closed then o.kind else .errorToken, text, rest) ∧
      size text = size o.text + n := by
  unfold opening? at h
  split at h
  · -- a block comment
    rename_i rest
    cases h
    obtain ⟨text, tail, hsplit, hsize⟩ := size_split?_of_first ['/', '*']
      ⟨rest, rfl⟩ (List.cons_ne_nil _ _) (first_of_comment rest)
    exact ⟨_, _, text, tail, congrArg some (comment_bytes rest), hsplit, hsize⟩
  · split at h
    · -- a quoted token
      rename_i q hopen
      cases h
      obtain ⟨hle, hmark⟩ := length_le_of_open? hopen
      have hlength : (cs.take (q.letters + q.mark.length)).length = q.letters + q.mark.length :=
        List.length_take_of_le hle
      have hpos := List.length_pos_iff.2 hmark
      have hfirst := first_of_open? hopen
      rw [Quote.scan, ← hlength] at hfirst
      obtain ⟨text, rest, hsplit, hsize⟩ := size_split?_of_first _ (List.take_prefix _ cs)
        (List.ne_nil_of_length_pos (by omega)) hfirst
      have hscan := quoted_bytes (Scan.mark_of_open? hopen).2 hmark q.multiline
      exact ⟨_, _, text, rest, congrArg some (hscan _), hsplit, hsize⟩
    · rename_i hopen
      split at h
      · -- a decimal number, which is always complete
        rename_i hstart
        cases h
        rw [Bool.and_eq_true, beq_iff_eq] at hstart
        obtain ⟨hstart, hhex⟩ := hstart
        obtain ⟨hnumber, hnarrow⟩ :=
          number?_bytes (cs.head? == some '.') (cs.drop (integer cs).length)
        have hfirst := first_of_startsNumber hstart hopen
        rw [Scan.number, hhex, if_pos rfl, decimal_eq] at hfirst
        obtain ⟨text, rest, hsplit, hsize⟩ :=
          size_split?_of_first _ (integer_isPrefix cs) (integer_ne_nil hstart) hfirst
        rw [hnarrow.size_take] at hsize
        exact ⟨_, true, text, rest,
          congrArg (Option.map fun length => (length, true)) hnumber, hsplit, hsize⟩
      · cases h

end Token
end SqlTree
