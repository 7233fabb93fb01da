import Mathlib.Computability.Language
import Mathlib.Data.List.TakeWhile
import SqlTree.Proofs.Tiling

/-!
# Numbers are read as far as they go

The numbers of a text are given by a regular language. Where a token begins that could be one, it is
one, and it takes the longest word of the language that stands there: a fraction or an exponent is read
if it is complete, and is left to the next token otherwise.

- `Numeral.decimal`, `Numeral.hexadecimal`, `Numeral.language` : the language of numbers
- `Numeral.IsLongest`        : the longest word at the beginning of a text
- `Numeral.isLongest_number` : how far a number is scanned
- `Token.readAll_numerals`   : so the tokens that are numbers are known
-/

namespace SqlTree

open scoped Computability

/-! ## The language of numbers -/

namespace Numeral

/-- A character of a class. -/
def one (p : Char → Prop) : Language Char := {word | ∃ c, p c ∧ word = [c]}

/-- Once or more often. -/
def many1 (l : Language Char) : Language Char := l * l∗

/-- Once or not at all. -/
def opt (l : Language Char) : Language Char := 1 + l

def digit : Language Char := one fun c => '0' ≤ c ∧ c ≤ '9'

def hexDigit : Language Char :=
  one fun c => ('0' ≤ c ∧ c ≤ '9') ∨ ('a' ≤ c ∧ c ≤ 'f') ∨ ('A' ≤ c ∧ c ≤ 'F')

def point : Language Char := one fun c => c = '.'

/-- Digits with a point among them, in front of them or behind them, or without one. -/
def mantissa : Language Char := many1 digit * opt (point * digit∗) + point * many1 digit

def exponent : Language Char :=
  one (fun c => c = 'e' ∨ c = 'E') * opt (one fun c => c = '+' ∨ c = '-') * many1 digit

def decimal : Language Char := mantissa * opt exponent

def hexadecimal : Language Char :=
  one (fun c => c = '0') * one (fun c => c = 'x' ∨ c = 'X') * many1 hexDigit

/-- All numbers. -/
def language : Language Char := decimal + hexadecimal

/-- The longest beginning of a text that is a word of a language. -/
structure IsLongest (l : Language Char) (text word : List Char) : Prop where
  mem : word ∈ l
  isPrefix : word <+: text
  longest : ∀ other ∈ l, other <+: text → other.length ≤ word.length

/-! ## Words of the language -/

section

variable {p : Char → Prop} {l : Language Char} {word : List Char}

theorem mem_one : word ∈ one p ↔ ∃ c, p c ∧ word = [c] := Iff.rfl

theorem mem_opt : word ∈ opt l ↔ word = [] ∨ word ∈ l := by
  rw [opt, Language.mem_add, Language.mem_one]

theorem mem_kstar_one : word ∈ (one p)∗ ↔ ∀ c ∈ word, p c := by
  rw [Language.mem_kstar]
  constructor
  · rintro ⟨pieces, rfl, hpieces⟩ c hc
    obtain ⟨piece, hpiece, hc⟩ := List.mem_flatten.1 hc
    obtain ⟨d, hd, rfl⟩ := hpieces piece hpiece
    rwa [List.mem_singleton.1 hc]
  · intro h
    refine ⟨word.map fun c => [c], (List.flatMap_singleton' word).symm, fun piece hpiece => ?_⟩
    obtain ⟨c, hc, rfl⟩ := List.mem_map.1 hpiece
    exact ⟨c, h c hc, rfl⟩

theorem mem_many1_one : word ∈ many1 (one p) ↔ word ≠ [] ∧ ∀ c ∈ word, p c := by
  rw [many1, Language.mem_mul]
  constructor
  · rintro ⟨_, ⟨c, hc, rfl⟩, rest, hrest, rfl⟩
    exact ⟨List.cons_ne_nil _ _, List.forall_mem_cons.2 ⟨hc, mem_kstar_one.1 hrest⟩⟩
  · rintro ⟨hne, hall⟩
    obtain ⟨c, rest, rfl⟩ := List.exists_cons_of_ne_nil hne
    obtain ⟨hc, hrest⟩ := List.forall_mem_cons.1 hall
    exact ⟨[c], ⟨c, hc, rfl⟩, rest, mem_kstar_one.2 hrest, rfl⟩

end

theorem isDigit_iff {c : Char} : Scan.isDigit c = true ↔ '0' ≤ c ∧ c ≤ '9' := by
  simp [Scan.isDigit, Char.isDigit, Char.le_def]

theorem isHexDigit_iff {c : Char} : Scan.isHexDigit c = true ↔
    ('0' ≤ c ∧ c ≤ '9') ∨ ('a' ≤ c ∧ c ≤ 'f') ∨ ('A' ≤ c ∧ c ≤ 'F') := by
  simp [Scan.isHexDigit, Char.isDigit, Char.le_def, or_assoc]

/-- All characters of a word are digits. -/
def Digits (word : List Char) : Prop := ∀ c ∈ word, Scan.isDigit c = true

theorem mem_kstar_digit {word : List Char} : word ∈ digit∗ ↔ Digits word := by
  simp only [digit, mem_kstar_one, Digits, isDigit_iff]

theorem mem_many1_digit {word : List Char} : word ∈ many1 digit ↔ word ≠ [] ∧ Digits word := by
  simp only [digit, mem_many1_one, Digits, isDigit_iff]

/-- A mantissa is made of digits, or has digits around a point. -/
theorem mem_mantissa {word : List Char} : word ∈ mantissa ↔ (word ≠ [] ∧ Digits word) ∨
    ∃ whole part, word = whole ++ '.' :: part ∧ Digits whole ∧ Digits part ∧
      (whole ≠ [] ∨ part ≠ []) := by
  simp only [mantissa, point, Language.mem_add, Language.mem_mul, mem_opt, mem_one, mem_many1_digit,
    mem_kstar_digit]
  constructor
  · rintro (⟨whole, hwhole, _, rfl | ⟨_, ⟨_, rfl, rfl⟩, part, hpart, rfl⟩, rfl⟩ |
      ⟨_, ⟨_, rfl, rfl⟩, part, hpart, rfl⟩)
    · exact Or.inl (by simpa using hwhole)
    · exact Or.inr ⟨whole, part, rfl, hwhole.2, hpart, Or.inl hwhole.1⟩
    · exact Or.inr ⟨[], part, rfl, List.forall_mem_nil _, hpart.2, Or.inr hpart.1⟩
  · rintro (hword | ⟨whole, part, rfl, hwhole, hpart, hne⟩)
    · exact Or.inl ⟨word, hword, [], Or.inl rfl, List.append_nil word⟩
    · by_cases hnil : whole = []
      · subst hnil
        exact Or.inr ⟨['.'], ⟨'.', rfl, rfl⟩, part, ⟨by simpa using hne, hpart⟩, rfl⟩
      · exact Or.inl ⟨whole, ⟨hnil, hwhole⟩, '.' :: part,
          Or.inr ⟨['.'], ⟨'.', rfl, rfl⟩, part, hpart, rfl⟩, rfl⟩

theorem mem_exponent {word : List Char} : word ∈ exponent ↔ ∃ mark sign digits,
    word = mark :: (sign ++ digits) ∧ (mark = 'e' ∨ mark = 'E') ∧
      (sign = [] ∨ sign = ['+'] ∨ sign = ['-']) ∧ digits ≠ [] ∧ Digits digits := by
  simp only [exponent, Language.mem_mul, mem_opt, mem_one, mem_many1_digit]
  constructor
  · rintro ⟨_, ⟨_, ⟨mark, hmark, rfl⟩, sign, hsign, rfl⟩, digits, hdigits, rfl⟩
    refine ⟨mark, sign, digits, rfl, hmark, ?_, hdigits⟩
    rcases hsign with rfl | ⟨_, rfl | rfl, rfl⟩
    · exact Or.inl rfl
    · exact Or.inr (Or.inl rfl)
    · exact Or.inr (Or.inr rfl)
  · rintro ⟨mark, sign, digits, rfl, hmark, hsign, hdigits⟩
    refine ⟨mark :: sign, ⟨[mark], ⟨mark, hmark, rfl⟩, sign, ?_, rfl⟩, digits, hdigits, rfl⟩
    rcases hsign with rfl | rfl | rfl
    · exact Or.inl rfl
    · exact Or.inr ⟨'+', Or.inl rfl, rfl⟩
    · exact Or.inr ⟨'-', Or.inr rfl, rfl⟩

theorem mem_hexadecimal {word : List Char} : word ∈ hexadecimal ↔ ∃ x digits,
    word = '0' :: x :: digits ∧ (x = 'x' ∨ x = 'X') ∧ digits ≠ [] ∧
      ∀ c ∈ digits, Scan.isHexDigit c = true := by
  simp only [hexadecimal, hexDigit, Language.mem_mul, mem_one, mem_many1_one, ← isHexDigit_iff]
  constructor
  · rintro ⟨_, ⟨_, ⟨_, rfl, rfl⟩, _, ⟨x, hx, rfl⟩, rfl⟩, digits, hdigits, rfl⟩
    exact ⟨x, digits, rfl, hx, hdigits⟩
  · rintro ⟨x, digits, rfl, hx, hdigits⟩
    exact ⟨['0', x], ⟨['0'], ⟨'0', rfl, rfl⟩, [x], ⟨x, hx, rfl⟩, rfl⟩, digits, hdigits, rfl⟩

/-! ## Words are scanned to their ends -/

theorem run_append_of_all {p : Char → Bool} {word : List Char} (h : ∀ c ∈ word, p c = true)
    (x : List Char) : Scan.run p (word ++ x) = word.length + Scan.run p x := by
  rw [Scan.run, List.takeWhile_append_of_pos h, List.length_append]
  rfl

/-- The length of a number in front of its exponent. -/
def scanMantissa (cs : List Char) : Nat :=
  Scan.run Scan.isDigit cs + Scan.fraction (cs.drop (Scan.run Scan.isDigit cs))

theorem decimal_eq (cs : List Char) :
    Scan.decimal cs = scanMantissa cs + Scan.exponent (cs.drop (scanMantissa cs)) := rfl

/-- A mantissa is scanned to its end, and not further in front of the mark of an exponent. -/
theorem scanMantissa_append {word : List Char} (h : word ∈ mantissa) (x : List Char) :
    ∃ more, scanMantissa (word ++ x) = word.length + more ∧
      ∀ mark rest, x = mark :: rest → (mark = 'e' ∨ mark = 'E') → more = 0 := by
  rcases mem_mantissa.1 h with ⟨-, hdigits⟩ | ⟨whole, part, rfl, hwhole, hpart, -⟩
  · -- Behind digits, more digits and a point may follow.
    refine ⟨scanMantissa x, ?_, ?_⟩
    · rw [scanMantissa, run_append_of_all hdigits, List.drop_length_add_append, scanMantissa,
        Nat.add_assoc]
    · rintro mark rest rfl (rfl | rfl) <;> rfl
  · -- Behind a point, only more digits may.
    refine ⟨Scan.run Scan.isDigit x, ?_, ?_⟩
    · have hpoint : Scan.run Scan.isDigit ('.' :: (part ++ x)) = 0 := rfl
      rw [scanMantissa, List.append_assoc, run_append_of_all hwhole, List.cons_append, hpoint,
        Nat.add_zero, List.drop_left, Scan.fraction, run_append_of_all hpart, List.length_append,
        List.length_cons]
      omega
    · rintro mark rest rfl (rfl | rfl) <;> rfl

/-- The length of a sign at the beginning. -/
def scanSign (cs : List Char) : Nat :=
  if cs.head? == some '+' || cs.head? == some '-' then 1 else 0

theorem exponent_cons (mark : Char) (rest : List Char) : Scan.exponent (mark :: rest) =
    if mark == 'e' || mark == 'E' then
      if Scan.run Scan.isDigit (rest.drop (scanSign rest)) = 0 then 0
      else 1 + scanSign rest + Scan.run Scan.isDigit (rest.drop (scanSign rest))
    else 0 := rfl

/-- A sign is seen where there is one; a digit is none. -/
theorem scanSign_append {sign digits : List Char}
    (hsign : sign = [] ∨ sign = ['+'] ∨ sign = ['-']) (hne : digits ≠ []) (hdigits : Digits digits)
    (x : List Char) : scanSign (sign ++ (digits ++ x)) = sign.length := by
  rcases hsign with rfl | rfl | rfl
  · obtain ⟨d, rest, rfl⟩ := List.exists_cons_of_ne_nil hne
    have hd := hdigits d List.mem_cons_self
    have hplus : d ≠ '+' := by rintro rfl; cases hd
    have hminus : d ≠ '-' := by rintro rfl; cases hd
    simp [scanSign, hplus, hminus]
  · rfl
  · rfl

theorem length_le_exponent {word : List Char} (h : word ∈ exponent) (x : List Char) :
    word.length ≤ Scan.exponent (word ++ x) := by
  obtain ⟨mark, sign, digits, rfl, hmark, hsign, hne, hdigits⟩ := mem_exponent.1 h
  have hmark : (mark == 'e' || mark == 'E') = true := by simpa using hmark
  have hpos := List.length_pos_iff.2 hne
  rw [List.cons_append, List.append_assoc, exponent_cons, if_pos hmark,
    scanSign_append hsign hne hdigits, List.drop_left, run_append_of_all hdigits, if_neg (by omega),
    List.length_cons, List.length_append]
  omega

theorem length_le_decimal {word : List Char} (h : word ∈ decimal) (x : List Char) :
    word.length ≤ Scan.decimal (word ++ x) := by
  obtain ⟨front, hfront, back, hback, rfl⟩ := Language.mem_mul.1 h
  obtain ⟨more, hscan, hmark⟩ := scanMantissa_append hfront (back ++ x)
  rw [List.append_assoc, decimal_eq, hscan, List.length_append]
  rcases mem_opt.1 hback with rfl | hback
  · rw [List.length_nil]
    omega
  · -- The scan of the mantissa stops at the mark, so that of the exponent begins there.
    obtain ⟨mark, sign, digits, hword, hmarks, -⟩ := mem_exponent.1 hback
    obtain rfl := hmark mark (sign ++ digits ++ x) (by rw [hword]; rfl) hmarks
    rw [Nat.add_zero, List.drop_left]
    exact Nat.add_le_add_left (length_le_exponent hback x) _

/-- Behind `0x` no more than the zero is a decimal number. -/
theorem decimal_le_number (cs : List Char) : Scan.decimal cs ≤ Scan.number cs := by
  rw [Scan.number]
  by_cases hhex : Scan.hexadecimal cs = 0
  · rw [hhex, if_pos rfl]
  · rw [if_neg hhex]
    unfold Scan.hexadecimal at hhex ⊢
    split at hhex
    · rename_i x rest
      split at hhex
      · rename_i hx
        have hone : Scan.decimal ('0' :: x :: rest) = 1 := by
          rcases (by simpa using hx : x = 'x' ∨ x = 'X') with rfl | rfl <;> rfl
        rw [if_pos hx, hone]
        exact Nat.one_le_iff_ne_zero.2 hhex
      · exact absurd rfl hhex
    · exact absurd rfl hhex

theorem length_le_number {word : List Char} (h : word ∈ language) (x : List Char) :
    word.length ≤ Scan.number (word ++ x) := by
  rcases (Language.mem_add _ _ _).1 h with h | h
  · exact Nat.le_trans (length_le_decimal h x) (decimal_le_number _)
  · -- What is hexadecimal is tried first, so no decimal number can cut it short.
    obtain ⟨mark, digits, rfl, hmark, hne, hdigits⟩ := mem_hexadecimal.1 h
    have hmark : (mark == 'x' || mark == 'X') = true := by simpa using hmark
    have hpos := List.length_pos_iff.2 hne
    have hhex : Scan.hexadecimal ('0' :: mark :: digits ++ x) =
        2 + (digits.length + Scan.run Scan.isHexDigit x) := by
      rw [List.cons_append, List.cons_append, Scan.hexadecimal, if_pos hmark,
        run_append_of_all hdigits]
      exact if_neg (by omega)
    rw [Scan.number, hhex, if_neg (by omega), List.length_cons, List.length_cons]
    omega

/-! ## What is scanned is a word -/

variable {cs : List Char}

theorem take_run (p : Char → Bool) (cs : List Char) : cs.take (Scan.run p cs) = cs.takeWhile p :=
  (List.prefix_iff_eq_take.1 (List.takeWhile_prefix p)).symm

/-- A number begins with a digit, or with a point and a digit. -/
theorem startsNumber_iff_exists : Scan.startsNumber cs = true ↔
    (∃ c rest, cs = c :: rest ∧ Scan.isDigit c = true) ∨
      ∃ c rest, cs = '.' :: c :: rest ∧ Scan.isDigit c = true := by
  constructor
  · intro h
    unfold Scan.startsNumber at h
    split at h
    · exact Or.inr ⟨_, _, rfl, h⟩
    · exact Or.inl ⟨_, _, rfl, h⟩
    · cases h
  · rintro (⟨c, rest, rfl, hc⟩ | ⟨c, rest, rfl, hc⟩)
    · rw [Scan.startsNumber]
      · exact hc
      · rintro d rest rfl
        cases hc
    · exact hc

theorem take_scanMantissa (h : Scan.startsNumber cs = true) :
    cs.take (scanMantissa cs) ∈ mantissa := by
  have hwhole : Digits (cs.takeWhile Scan.isDigit) := fun _ => List.mem_takeWhile_imp
  -- Where there is no digit in front, there is a point with one behind it.
  have hfront (hnil : cs.takeWhile Scan.isDigit = []) : ∃ c rest,
      cs.drop (Scan.run Scan.isDigit cs) = '.' :: c :: rest ∧ Scan.isDigit c = true := by
    rcases startsNumber_iff_exists.1 h with ⟨c, rest, rfl, hc⟩ | ⟨c, rest, rfl, hc⟩
    · rw [List.takeWhile_cons_of_pos hc] at hnil
      cases hnil
    · exact ⟨c, rest, rfl, hc⟩
  rw [scanMantissa, List.take_add, take_run, mem_mantissa]
  generalize cs.drop (Scan.run Scan.isDigit cs) = rest at hfront ⊢
  unfold Scan.fraction
  split
  · -- with a point
    rename_i part
    refine Or.inr ⟨_, part.takeWhile Scan.isDigit, ?_, hwhole, fun _ => List.mem_takeWhile_imp, ?_⟩
    · rw [Nat.add_comm, List.take_succ_cons, take_run]
    · by_contra hne
      obtain ⟨hnil, hpart⟩ := not_or.1 hne
      obtain ⟨c, rest, hrest, hc⟩ := hfront (not_not.1 hnil)
      obtain rfl := (List.cons.inj hrest).2
      exact hpart (by rw [List.takeWhile_cons_of_pos hc]; exact List.cons_ne_nil _ _)
  · -- without one
    rename_i hpoint
    rw [List.take_zero, List.append_nil]
    refine Or.inl ⟨fun hnil => ?_, hwhole⟩
    obtain ⟨c, rest, hrest, -⟩ := hfront hnil
    exact hpoint _ hrest

theorem take_scanSign (cs : List Char) : cs.take (scanSign cs) = [] ∨
    cs.take (scanSign cs) = ['+'] ∨ cs.take (scanSign cs) = ['-'] := by
  cases cs with
  | nil => exact Or.inl rfl
  | cons c rest =>
    by_cases hplus : c = '+'
    · subst hplus
      exact Or.inr (Or.inl rfl)
    by_cases hminus : c = '-'
    · subst hminus
      exact Or.inr (Or.inr rfl)
    · simp [scanSign, hplus, hminus]

/-- An exponent is scanned if it is complete. -/
theorem take_exponent (cs : List Char) : cs.take (Scan.exponent cs) ∈ opt exponent := by
  rw [mem_opt, mem_exponent]
  cases cs with
  | nil => exact Or.inl rfl
  | cons mark rest =>
    rw [exponent_cons]
    split
    · rename_i hmark
      split
      · exact Or.inl rfl
      · rename_i hdigits
        refine Or.inr ⟨mark, rest.take (scanSign rest),
          (rest.drop (scanSign rest)).takeWhile Scan.isDigit, ?_, by simpa using hmark,
          take_scanSign rest, ?_, fun _ => List.mem_takeWhile_imp⟩
        · rw [Nat.add_assoc, Nat.add_comm 1, List.take_succ_cons, List.take_add, take_run]
        · exact fun hnil => hdigits (congrArg List.length hnil)
    · exact Or.inl rfl

theorem take_hexadecimal (h : Scan.hexadecimal cs ≠ 0) :
    cs.take (Scan.hexadecimal cs) ∈ hexadecimal := by
  rw [mem_hexadecimal]
  unfold Scan.hexadecimal at h ⊢
  split at h
  · rename_i x rest
    split at h
    · rename_i hx
      dsimp only at h ⊢
      split at h
      · exact absurd rfl h
      · rename_i hdigits
        rw [if_pos hx, if_neg hdigits, Nat.add_comm, List.take_succ_cons, List.take_succ_cons,
          take_run]
        refine ⟨x, _, rfl, by simpa using hx, ?_, fun _ => List.mem_takeWhile_imp⟩
        exact fun hnil => hdigits (congrArg List.length hnil)
    · exact absurd rfl h
  · exact absurd rfl h

theorem take_number (h : Scan.startsNumber cs = true) : cs.take (Scan.number cs) ∈ language := by
  rw [Scan.number]
  by_cases hhex : Scan.hexadecimal cs = 0
  · rw [hhex, if_pos rfl, decimal_eq, List.take_add]
    exact Or.inl (Language.append_mem_mul (take_scanMantissa h) (take_exponent _))
  · rw [if_neg hhex]
    exact Or.inr (take_hexadecimal hhex)

theorem startsNumber_append {word : List Char} (h : word ∈ language) (x : List Char) :
    Scan.startsNumber (word ++ x) = true := by
  rw [startsNumber_iff_exists]
  have hdigits {front : List Char} (hne : front ≠ []) (hall : Digits front) (back : List Char) :
      ∃ c rest, front ++ back = c :: rest ∧ Scan.isDigit c = true := by
    obtain ⟨c, rest, rfl⟩ := List.exists_cons_of_ne_nil hne
    exact ⟨c, rest ++ back, rfl, hall c List.mem_cons_self⟩
  rcases (Language.mem_add _ _ _).1 h with h | h
  · obtain ⟨front, hfront, back, -, rfl⟩ := Language.mem_mul.1 h
    rw [List.append_assoc]
    rcases mem_mantissa.1 hfront with ⟨hne, hall⟩ | ⟨whole, part, rfl, hwhole, hpart, hne⟩
    · exact Or.inl (hdigits hne hall _)
    · rw [List.append_assoc, List.cons_append]
      by_cases hnil : whole = []
      · subst hnil
        obtain ⟨c, rest, hrest, hc⟩ := hdigits (by simpa using hne) hpart (back ++ x)
        exact Or.inr ⟨c, rest, by rw [hrest]; rfl, hc⟩
      · exact Or.inl (hdigits hnil hwhole _)
  · obtain ⟨mark, digits, rfl, -⟩ := mem_hexadecimal.1 h
    exact Or.inl ⟨'0', _, rfl, rfl⟩

/-- A number is scanned as far as it goes. -/
theorem isLongest_number (h : Scan.startsNumber cs = true) :
    IsLongest language cs (cs.take (Scan.number cs)) := by
  refine ⟨take_number h, List.take_prefix _ _, ?_⟩
  rintro other hother ⟨x, rfl⟩
  rw [List.length_take, List.length_append]
  exact Nat.le_min.2 ⟨length_le_number hother x, Nat.le_add_right _ _⟩

theorem startsNumber_iff : Scan.startsNumber cs = true ↔
    ∃ word ∈ language, word ≠ [] ∧ word <+: cs := by
  constructor
  · intro h
    refine ⟨_, take_number h, fun hnil => ?_, List.take_prefix _ _⟩
    have hempty := startsNumber_append (take_number h) []
    rw [hnil] at hempty
    cases hempty
  · rintro ⟨word, hword, -, x, rfl⟩
    exact startsNumber_append hword x

end Numeral

/-! ## Tokens -/

namespace Token

open Text ByteScan

variable {text rest word after : List Char} {kind : Kind} {token : Token}

/-- A token of a text is the first one of the text from its offset on. -/
theorem exists_split?_of_mem {place : Place} (hdrop : dropBytes? place.offset text = some rest)
    (h : token ∈ readFrom place rest) : ∃ rest after, dropBytes? token.offset text = some rest ∧
      split? rest = some (token.kind, token.text, after) := by
  induction rest using split_induction generalizing place with
  | nil =>
    rw [readFrom_nil] at h
    cases h
  | cons hsplit ih =>
    rw [readFrom_of_split? hsplit] at h
    rcases List.mem_cons.1 h with rfl | h
    · exact ⟨_, _, hdrop, hsplit⟩
    · exact ih (dropBytes?_add (append_of_split? hsplit ▸ hdrop)) h

theorem open?_of_startsNumber (h : Scan.startsNumber rest = true) : Quote.open? rest = none := by
  have hnone {c : Char} (tail : List Char) (hc : Scan.isDigit c = true ∨ c = '.') :
      Quote.open? (c :: tail) = none := by
    have hne (d : Char) (hdigit : Scan.isDigit d = false) (hpoint : d ≠ '.') : c ≠ d := by
      rintro rfl
      rcases hc with hc | hc
      · rw [hdigit] at hc
        cases hc
      · exact hpoint hc
    have hletter : Scan.isLetter c = false := by
      rcases hc with hc | rfl
      · rw [Scan.isLetter, Bool.eq_false_iff, ne_eq, isAlpha_iff]
        simp only [Scan.isDigit, Char.isDigit] at hc
        grind
      · rfl
    simp [Quote.open?, Quote.mark?, hletter, hne '\x60' rfl (by decide), hne '\'' rfl (by decide),
      hne '"' rfl (by decide)]
  rcases Numeral.startsNumber_iff_exists.1 h with ⟨c, tail, rfl, hc⟩ | ⟨c, tail, rfl, -⟩
  · exact hnone _ (Or.inl hc)
  · exact hnone _ (Or.inr rfl)

theorem kind_eq_number_iff (h : split? rest = some (kind, word, after)) :
    kind = .number ↔ Scan.startsNumber rest = true := by
  constructor
  · rintro rfl
    have hnumber := number?_of_split? h
    rw [Scan.number?, Option.ite_none_right_eq_some] at hnumber
    exact hnumber.1
  · intro hstart
    rw [(kind_of_split? h).1, first_of_startsNumber hstart (open?_of_startsNumber hstart)]

theorem text_of_startsNumber (h : split? rest = some (kind, word, after))
    (hstart : Scan.startsNumber rest = true) : word = rest.take (Scan.number rest) := by
  have hword := (kind_of_split? h).2
  obtain ⟨number, hnumber, hne, x, rfl⟩ := Numeral.startsNumber_iff.1 hstart
  have hle := Numeral.length_le_number hnumber x
  have hpos := List.length_pos_iff.2 hne
  rw [first_of_startsNumber hstart (open?_of_startsNumber hstart)] at hword
  rw [hword, Nat.max_eq_left (by dsimp only; omega)]

/-- A decimal number takes its digits and the bytes that the scan behind them finds. -/
theorem size_of_startsNumber (h : split? rest = some (kind, word, after))
    (hstart : Scan.startsNumber rest = true) (hhex : Scan.hexadecimal rest = 0) :
    ∃ n, number? (rest.head? == some '.') (bytes (rest.drop (integer rest).length)) = some n ∧
      size word = size (integer rest) + n := by
  have hopening : opening? rest = some ⟨.number, integer rest, fun bytes =>
      (number? (rest.head? == some '.') bytes).map fun length => (length, true)⟩ := by
    unfold opening?
    split
    · cases hstart
    · rw [open?_of_startsNumber hstart, hstart, hhex]
      rfl
  obtain ⟨n, closed, word', after', hscan, hsplit, hsize⟩ := split?_of_opening? hopening
  obtain ⟨-, hword⟩ := Prod.mk.inj (Option.some.inj (h.symm.trans hsplit))
  obtain ⟨length, hlength, hpair⟩ := Option.map_eq_some_iff.1 hscan
  cases hpair
  exact ⟨_, hlength, (Prod.mk.inj hword).1 ▸ hsize⟩

/-- The tokens of a text that are numbers are those that begin where a number stands, and each of them
is as long as it can be. Behind the digits of a decimal number, its fraction and its exponent are found
by a scan of the bytes that follow. -/
theorem readAll_numerals (text : List Char) : ∀ token ∈ readAll text,
    ∃ rest, dropBytes? token.offset text = some rest ∧
      (token.kind = .number ↔ ∃ word ∈ Numeral.language, word ≠ [] ∧ word <+: rest) ∧
      (token.kind = .number → Numeral.IsLongest Numeral.language rest token.text ∧
        (Scan.hexadecimal rest = 0 → ∃ n,
          number? (rest.head? == some '.') (bytes (rest.drop (integer rest).length)) = some n ∧
          size token.text = size (integer rest) + n)) := by
  intro token htoken
  obtain ⟨rest, after, hdrop, hsplit⟩ := exists_split?_of_mem (dropBytes?_size_append [] text) htoken
  have hkind := kind_eq_number_iff hsplit
  refine ⟨rest, hdrop, hkind.trans Numeral.startsNumber_iff, fun hnumber => ?_⟩
  have hstart := hkind.1 hnumber
  refine ⟨?_, size_of_startsNumber hsplit hstart⟩
  rw [text_of_startsNumber hsplit hstart]
  exact Numeral.isLongest_number hstart

/-- A mark and a sign without digits are no exponent: the number ends behind its point. -/
theorem readAll_numerals_sign : ∃ token ∈ readAll ['1', '.', 'e', '+', 'x'],
    token.kind = .number ∧ token.text = ['1', '.'] ∧
      Numeral.IsLongest Numeral.language ['1', '.', 'e', '+', 'x'] token.text := by
  have hsplit : split? ['1', '.', 'e', '+', 'x'] = some (.number, ['1', '.'], ['e', '+', 'x']) := rfl
  have hmem : ⟨.number, ['1', '.'], 0, ⟨0, 0⟩, ⟨0, 2⟩⟩ ∈ readAll ['1', '.', 'e', '+', 'x'] := by
    rw [readAll, readFrom_of_split? hsplit]
    exact List.mem_cons_self
  obtain ⟨rest, hdrop, -, hlongest⟩ := readAll_numerals ['1', '.', 'e', '+', 'x'] _ hmem
  obtain rfl : ['1', '.', 'e', '+', 'x'] = rest := Option.some.inj hdrop
  exact ⟨_, hmem, rfl, rfl, (hlongest rfl).1⟩

end Token
end SqlTree
