import SqlTree.Text.Basic

/-!
# The bytes of a text

Texts are stored as UTF-8. The first byte of a character says how many bytes the character has, and
only characters of one byte have bytes below 128.

- `Text.bytes`      : the UTF-8 form of a text
- `Text.leadSize`   : the size of a character, by its first byte
- `Text.exists_byte` : what the first byte of a text says about characters of one byte
- `Text.take_bytes_cons` : what the first bytes of a text say about its first character
- `Text.bytes_injective` : a text is known by its bytes
-/

namespace SqlTree
namespace Text

/-- The UTF-8 form of a text. -/
def bytes (text : List Char) : List UInt8 := text.flatMap String.utf8EncodeChar

@[simp]
theorem bytes_nil : bytes [] = [] := rfl

@[simp]
theorem bytes_cons (c : Char) (cs : List Char) :
    bytes (c :: cs) = String.utf8EncodeChar c ++ bytes cs := rfl

@[simp]
theorem bytes_append (a b : List Char) : bytes (a ++ b) = bytes a ++ bytes b :=
  List.flatMap_append

@[simp]
theorem length_bytes (text : List Char) : (bytes text).length = size text := by
  induction text with
  | nil => rfl
  | cons c cs ih => simp [ih, String.length_utf8EncodeChar]

/-- The size of the character that begins with a byte. -/
def leadSize (b : UInt8) : Nat :=
  if b.toNat < 128 then 1 else if b.toNat < 224 then 2 else if b.toNat < 240 then 3 else 4

theorem toNat_byte {n : Nat} (h : n < 256) : (UInt8.ofNat n).toNat = n := by
  rw [UInt8.toNat_ofNat', Nat.mod_eq_of_lt h]

theorem leadSize_byte {n : Nat} (h : n < 256) : leadSize (UInt8.ofNat n) =
    if n < 128 then 1 else if n < 224 then 2 else if n < 240 then 3 else 4 := by
  rw [leadSize, toNat_byte h]

/-- The first byte of a character tells its size. The other bytes are not below 128. -/
theorem exists_lead (c : Char) :
    ∃ b more, String.utf8EncodeChar c = b :: more ∧ leadSize b = c.utf8Size ∧
      ∀ x ∈ more, 128 ≤ x.toNat := by
  have hsize : c.utf8Size = if c.val.toNat ≤ 127 then 1 else if c.val.toNat ≤ 2047 then 2 else
      if c.val.toNat ≤ 65535 then 3 else 4 := rfl
  rw [hsize, String.utf8EncodeChar.eq_1]
  generalize c.val.toNat = v
  have hmore (n : Nat) : 128 ≤ (UInt8.ofNat (n % 64 + 128)).toNat := by
    rw [toNat_byte (by omega)]
    omega
  by_cases h1 : v ≤ 127
  · rw [if_pos h1, if_pos h1]
    exact ⟨_, _, rfl, by rw [leadSize_byte (by omega), if_pos (by omega)],
      List.forall_mem_nil _⟩
  rw [if_neg h1, if_neg h1]
  by_cases h2 : v ≤ 2047
  · rw [if_pos h2, if_pos h2]
    exact ⟨_, _, rfl, by rw [leadSize_byte (by omega), if_neg (by omega), if_pos (by omega)],
      List.forall_mem_singleton.2 (hmore _)⟩
  rw [if_neg h2, if_neg h2]
  by_cases h3 : v ≤ 65535
  · rw [if_pos h3, if_pos h3]
    exact ⟨_, _, rfl, by rw [leadSize_byte (by omega), if_neg (by omega), if_neg (by omega),
      if_pos (by omega)], List.forall_mem_cons.2 ⟨hmore _, List.forall_mem_singleton.2 (hmore _)⟩⟩
  · rw [if_neg h3, if_neg h3]
    exact ⟨_, _, rfl, by rw [leadSize_byte (by omega), if_neg (by omega), if_neg (by omega),
      if_neg (by omega)], List.forall_mem_cons.2 ⟨hmore _, List.forall_mem_cons.2 ⟨hmore _,
      List.forall_mem_singleton.2 (hmore _)⟩⟩⟩

theorem utf8EncodeChar_injective {c d : Char}
    (h : String.utf8EncodeChar c = String.utf8EncodeChar d) : c = d := by
  have hc := ByteArray.utf8DecodeChar?_utf8EncodeChar_append (b := ByteArray.empty) (c := c)
  have hd := ByteArray.utf8DecodeChar?_utf8EncodeChar_append (b := ByteArray.empty) (c := d)
  rw [h] at hc
  exact Option.some.inj (hc.symm.trans hd)

theorem toNat_le_of_narrow {c : Char} (h : c.utf8Size = 1) : c.val.toNat ≤ 127 :=
  UInt32.le_iff_toNat_le.1 (Char.utf8Size_eq_one_iff.1 h)

/-- A character of one byte is its byte. -/
theorem utf8EncodeChar_of_narrow {c : Char} (h : c.utf8Size = 1) :
    String.utf8EncodeChar c = [c.toUInt8] := by
  rw [String.utf8EncodeChar.eq_1, if_pos (toNat_le_of_narrow h)]
  rfl

theorem toNat_toUInt8_of_narrow {c : Char} (h : c.utf8Size = 1) :
    c.toUInt8.toNat = c.val.toNat := by
  have hle := toNat_le_of_narrow h
  rw [Char.toUInt8, UInt32.toNat_toUInt8, Nat.mod_eq_of_lt (by omega)]

/-- Other characters have no byte below 128. -/
theorem le_toNat_of_wide {c : Char} (h : c.utf8Size ≠ 1) :
    ∀ x ∈ String.utf8EncodeChar c, 128 ≤ x.toNat := by
  obtain ⟨b, more, hbytes, hlead, hmore⟩ := exists_lead c
  rw [hbytes]
  refine List.forall_mem_cons.2 ⟨Nat.le_of_not_lt fun hlt => ?_, hmore⟩
  rw [leadSize, if_pos hlt] at hlead
  exact h hlead.symm

theorem bytes_ne_nil {c : Char} {cs : List Char} : bytes (c :: cs) ≠ [] := by
  obtain ⟨b, more, hbytes, -⟩ := exists_lead c
  rw [bytes_cons, hbytes]
  exact List.cons_ne_nil _ _

/-- Texts with the same first bytes begin with characters of the same size, and with the same
character if its bytes are among them. -/
theorem take_bytes_cons {n : Nat} {c d : Char} {a b : List Char} (hn : 0 < n)
    (h : (bytes (c :: a)).take n = (bytes (d :: b)).take n) :
    c.utf8Size = d.utf8Size ∧ (c.utf8Size ≤ n →
      c = d ∧ (bytes a).take (n - c.utf8Size) = (bytes b).take (n - c.utf8Size)) := by
  have hsize : c.utf8Size = d.utf8Size := by
    obtain ⟨x, more, hx, hlead, -⟩ := exists_lead c
    obtain ⟨y, more', hy, hlead', -⟩ := exists_lead d
    obtain ⟨k, rfl⟩ := Nat.exists_eq_add_of_lt hn
    rw [bytes_cons, bytes_cons, hx, hy] at h
    simp only [Nat.zero_add, List.cons_append, List.take_succ_cons, List.cons.injEq] at h
    rw [← hlead, ← hlead', h.1]
  refine ⟨hsize, fun hle => ?_⟩
  have htake (e : Char) (he : e.utf8Size = c.utf8Size) (cs : List Char) :
      (bytes (e :: cs)).take n = String.utf8EncodeChar e ++ (bytes cs).take (n - c.utf8Size) := by
    have hlength : (String.utf8EncodeChar e).length = c.utf8Size := by
      rw [String.length_utf8EncodeChar, he]
    rw [bytes_cons, List.take_append, hlength, List.take_of_length_le (hlength ▸ hle)]
  rw [htake c rfl, htake d hsize.symm] at h
  have happend := List.append_inj h (by
    rw [String.length_utf8EncodeChar, String.length_utf8EncodeChar, hsize])
  exact ⟨utf8EncodeChar_injective happend.1, happend.2⟩

theorem bytes_injective {a b : List Char} (h : bytes a = bytes b) : a = b := by
  induction a generalizing b with
  | nil =>
    cases b with
    | nil => rfl
    | cons d b => exact absurd h.symm bytes_ne_nil
  | cons c a ih =>
    cases b with
    | nil => exact absurd h bytes_ne_nil
    | cons d b =>
      have hpos := c.utf8Size_pos
      obtain ⟨-, hsame⟩ := take_bytes_cons (n := size (c :: a)) (by rw [size_cons]; omega)
        (congrArg (List.take _) h)
      obtain ⟨rfl, -⟩ := hsame (by rw [size_cons]; omega)
      rw [bytes_cons, bytes_cons] at h
      rw [ih (List.append_cancel_left h)]

/-! ## Characters of one byte -/

theorem toUInt8_eq_iff {c d : Char} (hc : c.utf8Size = 1) (hd : d.utf8Size = 1) :
    c.toUInt8 = d.toUInt8 ↔ c = d := by
  refine ⟨fun h => utf8EncodeChar_injective ?_, fun h => by rw [h]⟩
  rw [utf8EncodeChar_of_narrow hc, utf8EncodeChar_of_narrow hd, h]

theorem bytes_cons_of_narrow {c : Char} (hc : c.utf8Size = 1) (cs : List Char) :
    bytes (c :: cs) = c.toUInt8 :: bytes cs := by
  rw [bytes_cons, utf8EncodeChar_of_narrow hc]
  rfl

theorem ne_toUInt8_of_le {b : UInt8} {d : Char} (hb : 128 ≤ b.toNat) (hd : d.utf8Size = 1) :
    b ≠ d.toUInt8 := by
  rintro rfl
  have hle := toNat_le_of_narrow hd
  rw [toNat_toUInt8_of_narrow hd] at hb
  omega

/-- Whether a text begins with a character of one byte can be seen from its first byte. -/
theorem exists_byte (c : Char) (cs : List Char) : ∃ b more, bytes (c :: cs) = b :: more ∧
    (∀ d : Char, d.utf8Size = 1 → (b = d.toUInt8 ↔ c = d)) := by
  by_cases hc : c.utf8Size = 1
  · exact ⟨_, _, bytes_cons_of_narrow hc cs, fun d hd => toUInt8_eq_iff hc hd⟩
  · have hwide := le_toNat_of_wide hc
    obtain ⟨b, more, hb, -⟩ := exists_lead c
    rw [hb] at hwide
    refine ⟨b, more ++ bytes cs, by rw [bytes_cons, hb]; rfl, fun d hd => ?_⟩
    constructor
    · exact fun h => absurd h (ne_toUInt8_of_le (hwide b List.mem_cons_self) hd)
    · rintro rfl
      exact absurd hd hc

theorem head?_bytes {d : Char} (hd : d.utf8Size = 1) (cs : List Char) :
    ((bytes cs)[0]? == some d.toUInt8) = (cs.head? == some d) := by
  cases cs with
  | nil => rfl
  | cons c cs =>
    obtain ⟨b, more, hb, heq⟩ := exists_byte c cs
    rw [hb, List.getElem?_cons_zero, List.head?_cons, Bool.eq_iff_iff, beq_iff_eq, beq_iff_eq,
      Option.some.injEq, Option.some.injEq, heq d hd]

end Text
end SqlTree
