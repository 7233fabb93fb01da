import Mathlib.Data.List.TakeWhile
import SqlTree.Proofs.ByteScan

/-!
# Wide characters are alike

What a token is made of are characters of one byte. Where another one stands it does not matter
which, so one character stands for all those of the same size.

- `Scan.mask`  : the character that stands for those of its size
- `Scan.Plain` : a class of characters that does not tell them apart
- `Scan.first_mask` : the first token is the same for the characters that stand for those of a text
-/

namespace SqlTree
namespace Scan

open ByteScan

/-- A character in place of all those of its size. Those of one byte stand for themselves. -/
def mask (c : Char) : Char :=
  if c.utf8Size = 1 then c
  else if c.utf8Size = 2 then '\u0080'
  else if c.utf8Size = 3 then '\u0800'
  else Char.ofNat 0x10000

theorem utf8Size_mask (c : Char) : (mask c).utf8Size = c.utf8Size := by
  unfold mask
  split
  · rfl
  · split
    · rename_i h
      rw [h]
      rfl
    · split
      · rename_i h
        rw [h]
        rfl
      · have hpos := c.utf8Size_pos
        have hfour := c.utf8Size_le_four
        have h : c.utf8Size = 4 := by omega
        rw [h]
        rfl

theorem mask_of_narrow {c : Char} (h : c.utf8Size = 1) : mask c = c := if_pos h

theorem mask_eq_of_utf8Size {c d : Char} (h : c.utf8Size = d.utf8Size) (hwide : 1 < c.utf8Size) :
    mask c = mask d := by
  rw [mask, mask, ← h, if_neg (Nat.ne_of_gt hwide), if_neg (Nat.ne_of_gt hwide)]

theorem mask_eq_iff {c d : Char} (hd : d.utf8Size = 1) : mask c = d ↔ c = d := by
  constructor
  · intro h
    have hc : c.utf8Size = 1 := by rw [← utf8Size_mask, h, hd]
    rwa [mask_of_narrow hc] at h
  · rintro rfl
    exact mask_of_narrow hd

theorem exists_cons_of_map_mask {d : Char} {cs t : List Char} (hd : d.utf8Size = 1)
    (h : cs.map mask = d :: t) : ∃ t', cs = d :: t' ∧ t'.map mask = t := by
  obtain ⟨c, t', rfl, hc, ht⟩ := List.map_eq_cons_iff.1 h
  exact ⟨t', by rw [(mask_eq_iff hd).1 hc], ht⟩

/-- A text that does not begin with a mark does not do so with other wide characters either. -/
theorem not_append_mask (mark : List Char) {cs : List Char} (hmark : ∀ c ∈ mark, c.utf8Size = 1)
    (h : ∀ t, cs = mark ++ t → False) (t : List Char) : cs.map mask = mark ++ t → False := by
  induction mark generalizing cs with
  | nil => exact fun _ => h cs rfl
  | cons d mark ih =>
    obtain ⟨hd, hmark⟩ := List.forall_mem_cons.1 hmark
    intro hcs
    obtain ⟨u, rfl, hu⟩ := exists_cons_of_map_mask hd hcs
    exact ih hmark (fun t ht => h t (by rw [ht]; rfl)) hu

/-- A class that has the same answer for all characters of more than one byte. -/
def Plain (p : Char → Bool) : Prop := ∀ c, p (mask c) = p c

theorem Plain.of_wide {p : Char → Bool} {v : Bool} (hp : ∀ c, 127 < c.val → p c = v) :
    Plain p := by
  intro c
  have hval {c : Char} (hc : c.utf8Size ≠ 1) : 127 < c.val :=
    UInt32.not_le.1 (mt Char.utf8Size_eq_one_iff.2 hc)
  by_cases hc : c.utf8Size = 1
  · rw [mask_of_narrow hc]
  · rw [hp c (hval hc), hp _ (hval (by rwa [utf8Size_mask]))]

theorem plain_isLetter : Plain isLetter := .of_wide (v := false) fun c hc => by
  rw [isLetter, Bool.eq_false_iff, ne_eq, isAlpha_iff]
  grind

theorem plain_isDigit : Plain isDigit := .of_wide (v := false) fun c hc => by
  simp only [isDigit, Char.isDigit]
  grind

theorem plain_isHexDigit : Plain isHexDigit := .of_wide (v := false) fun c hc => by
  simp only [isHexDigit, Char.isDigit, Char.le_def]
  grind

theorem plain_beq {d : Char} (hd : d.utf8Size = 1) : Plain (· == d) := fun c => by
  rw [Bool.eq_iff_iff, beq_iff_eq, beq_iff_eq, mask_eq_iff hd]

theorem Plain.or {p q : Char → Bool} (hp : Plain p) (hq : Plain q) : Plain fun c => p c || q c :=
  fun c => by simp only [hp c, hq c]

theorem plain_isWordStart : Plain isWordStart := plain_isLetter.or (plain_beq rfl)

theorem plain_isWordChar : Plain isWordChar := (plain_isLetter.or plain_isDigit).or (plain_beq rfl)

theorem plain_isBlank : Plain isBlank :=
  ((((plain_beq rfl).or (plain_beq rfl)).or (plain_beq rfl)).or (plain_beq rfl)).or (plain_beq rfl)

theorem takeWhile_map_mask {p : Char → Bool} (hp : Plain p) (cs : List Char) :
    (cs.map mask).takeWhile p = (cs.takeWhile p).map mask := by
  rw [List.takeWhile_map]
  congr 2
  exact funext hp

theorem run_mask {p : Char → Bool} (hp : Plain p) (cs : List Char) :
    run p (cs.map mask) = run p cs := by
  rw [run, takeWhile_map_mask hp, List.length_map, run]

theorem head?_mask {d : Char} (hd : d.utf8Size = 1) (cs : List Char) :
    ((cs.map mask).head? == some d) = (cs.head? == some d) := by
  cases cs with
  | nil => rfl
  | cons c cs => exact plain_beq hd c

/-! ## Numbers -/

theorem exponent_mask (cs : List Char) : exponent (cs.map mask) = exponent cs := by
  cases cs with
  | nil => rfl
  | cons c cs =>
    have he : (mask c == 'e') = (c == 'e') := plain_beq rfl c
    have hE : (mask c == 'E') = (c == 'E') := plain_beq rfl c
    have hplus : ((cs.map mask).head? == some '+') = (cs.head? == some '+') := head?_mask rfl cs
    have hminus : ((cs.map mask).head? == some '-') = (cs.head? == some '-') := head?_mask rfl cs
    simp only [List.map_cons, exponent, he, hE, hplus, hminus, ← List.map_drop,
      run_mask plain_isDigit]

theorem fraction_mask (cs : List Char) : fraction (cs.map mask) = fraction cs := by
  fun_cases fraction cs with
  | case1 rest => exact congrArg (1 + ·) (run_mask plain_isDigit rest)
  | case2 _ hpoint =>
    rw [fraction]
    exact not_append_mask ['.'] (by simp [Char.utf8Size]) hpoint

theorem decimal_mask (cs : List Char) : decimal (cs.map mask) = decimal cs := by
  simp only [decimal, run_mask plain_isDigit, ← List.map_drop, fraction_mask, exponent_mask]

theorem hexadecimal_mask (cs : List Char) : hexadecimal (cs.map mask) = hexadecimal cs := by
  by_cases hzero : ∃ x rest, cs = '0' :: x :: rest
  · obtain ⟨x, rest, rfl⟩ := hzero
    have hx : (mask x == 'x') = (x == 'x') := plain_beq rfl x
    have hX : (mask x == 'X') = (x == 'X') := plain_beq rfl x
    simp only [List.map_cons, mask_of_narrow (show '0'.utf8Size = 1 from rfl), hexadecimal, hx, hX,
      run_mask plain_isHexDigit]
  · rw [hexadecimal, hexadecimal]
    · exact fun x rest hcs => hzero ⟨x, rest, hcs⟩
    · intro x rest hcs
      obtain ⟨t, rfl, ht⟩ := exists_cons_of_map_mask rfl hcs
      obtain ⟨x, t, rfl, -⟩ := List.map_eq_cons_iff.1 ht
      exact hzero ⟨x, t, rfl⟩

theorem startsNumber_mask (cs : List Char) : startsNumber (cs.map mask) = startsNumber cs := by
  fun_cases startsNumber cs with
  | case1 c rest => exact plain_isDigit c
  | case2 c rest hpoint =>
    rw [List.map_cons, startsNumber]
    · exact plain_isDigit c
    · intro d rest' hc hrest
      obtain ⟨e, t, rfl, -⟩ := List.map_eq_cons_iff.1 hrest
      exact hpoint e t ((mask_eq_iff rfl).1 hc) rfl
  | case3 => rfl

theorem number?_mask (cs : List Char) : number? (cs.map mask) = number? cs := by
  simp only [number?, number, startsNumber_mask, hexadecimal_mask, decimal_mask]

/-! ## Comments, words and marks -/

theorem commentBody?_mask (cs : List Char) : commentBody? (cs.map mask) = commentBody? cs := by
  fun_induction commentBody? cs with
  | case1 rest => rfl
  | case2 c rest hclose ih =>
    rw [List.map_cons, commentBody?, ih]
    intro rest' hc hrest
    obtain ⟨t, rfl, -⟩ := exists_cons_of_map_mask rfl hrest
    exact hclose t ((mask_eq_iff rfl).1 hc) rfl
  | case3 => rfl

theorem punct?_mask (cs : List Char) : punct? (cs.map mask) = punct? cs := by
  conv => rhs; unfold punct?
  split
  case h_27 =>
    -- A mark that fits the other text would fit this one.
    conv => lhs; unfold punct?
    split
    case h_27 => rfl
    all_goals
      rename_i hcs
      obtain ⟨t, rfl, ht⟩ := exists_cons_of_map_mask rfl hcs
      try obtain ⟨u, rfl, -⟩ := exists_cons_of_map_mask rfl ht
      exfalso
      solve_by_elim
  -- A mark of one character asks that no longer one fits.
  all_goals first | rfl | rw [List.map_cons, mask_of_narrow rfl, punct?]
  all_goals
    intro _ hcs
    obtain ⟨t, rfl, -⟩ := exists_cons_of_map_mask rfl hcs
    solve_by_elim

theorem comment?_mask (cs : List Char) : comment? (cs.map mask) = comment? cs := by
  have hline : Plain (· != '\n') := fun c => congrArg not (plain_beq rfl c)
  fun_cases comment? cs with
  | case1 rest => exact congrArg (fun n => some (Kind.lineComment, 2 + n)) (run_mask hline rest)
  | case2 rest => exact congrArg (fun n => some (Kind.lineComment, 1 + n)) (run_mask hline rest)
  | case3 rest n hbody =>
    rw [List.map_cons, List.map_cons, mask_of_narrow rfl, mask_of_narrow rfl, comment?,
      commentBody?_mask, hbody]
  | case4 rest hbody =>
    rw [List.map_cons, List.map_cons, mask_of_narrow rfl, mask_of_narrow rfl, comment?,
      commentBody?_mask, hbody, List.length_map]
  | case5 _ hdash hhash hslash =>
    rw [comment?]
    · exact not_append_mask ['-', '-'] (by simp [Char.utf8Size]) hdash
    · exact not_append_mask ['#'] (by simp [Char.utf8Size]) hhash
    · exact not_append_mask ['/', '*'] (by simp [Char.utf8Size]) hslash

theorem parameter?_mask (cs : List Char) : parameter? (cs.map mask) = parameter? cs := by
  have hdotted : Plain fun c => isWordChar c || c == '.' := plain_isWordChar.or (plain_beq rfl)
  have hat : mask '@' = '@' := mask_of_narrow rfl
  have hnext {c : Char} {rest : List Char}
      (h : ∀ d t, c = '@' → rest = d :: t → False) (d : Char) (t : List Char) :
      mask c = '@' → rest.map mask = d :: t → False := by
    intro hc ht
    obtain ⟨e, u, rfl, -⟩ := List.map_eq_cons_iff.1 ht
    exact h e u ((mask_eq_iff rfl).1 hc) rfl
  fun_cases parameter? cs with
  | case1 c rest hstart =>
    simp only [List.map_cons, hat, parameter?, plain_isWordStart c, hstart, run_mask hdotted,
      if_true]
  | case2 c rest hstart =>
    simp only [List.map_cons, hat, parameter?, plain_isWordStart c, hstart, Bool.false_eq_true,
      if_false]
  | case3 c rest hsingle hstart =>
    rw [List.map_cons, List.map_cons, hat, parameter?, plain_isWordStart c, if_pos hstart,
      run_mask plain_isWordChar]
    exact hnext hsingle
  | case4 c rest hsingle hstart =>
    rw [List.map_cons, List.map_cons, hat, parameter?, plain_isWordStart c, if_neg hstart]
    exact hnext hsingle
  | case5 _ hsystem hparameter =>
    rw [parameter?]
    · intro c rest hcs
      obtain ⟨t, rfl, ht⟩ := exists_cons_of_map_mask rfl hcs
      obtain ⟨u, rfl, hu⟩ := exists_cons_of_map_mask rfl ht
      obtain ⟨d, v, rfl, -⟩ := List.map_eq_cons_iff.1 hu
      exact hsystem d v rfl
    · intro c rest hcs
      obtain ⟨t, rfl, ht⟩ := exists_cons_of_map_mask rfl hcs
      obtain ⟨d, t, rfl, -⟩ := List.map_eq_cons_iff.1 ht
      exact hparameter d t rfl

/-- Letters and digits stand for themselves. -/
theorem takeWhile_mask {p : Char → Bool} (hp : Plain p)
    (hword : ∀ c, p c = true → isWordChar c = true) (cs : List Char) :
    (cs.map mask).takeWhile p = cs.takeWhile p := by
  rw [takeWhile_map_mask hp]
  refine (List.map_congr_left fun c hc => ?_).trans (List.map_id _)
  exact mask_of_narrow (narrow_of_isWordChar (hword c (List.mem_takeWhile_imp hc)))

theorem word?_mask (cs : List Char) : word? (cs.map mask) = word? cs := by
  cases cs with
  | nil => rfl
  | cons c rest =>
    simp only [List.map_cons, word?, plain_isWordStart c]
    split
    · rename_i hstart
      have hc : isWordChar c = true := by
        simp only [isWordStart, isWordChar] at hstart ⊢
        grind
      rw [mask_of_narrow (narrow_of_isWordChar hc), takeWhile_mask plain_isWordChar fun _ => id]
    · rfl

theorem blank?_mask (cs : List Char) : blank? (cs.map mask) = blank? cs := by
  cases cs with
  | nil => rfl
  | cons c rest => simp only [List.map_cons, blank?, plain_isBlank c, run_mask plain_isBlank]

/-! ## Quoted tokens -/

theorem isPrefixOf_mask {mark : List Char} (hmark : ∀ c ∈ mark, c.utf8Size = 1) (cs : List Char) :
    mark.isPrefixOf (cs.map mask) = mark.isPrefixOf cs := by
  induction mark generalizing cs with
  | nil => simp
  | cons d mark ih =>
    obtain ⟨hd, hmark⟩ := List.forall_mem_cons.1 hmark
    cases cs with
    | nil => rfl
    | cons c cs =>
      have hc : (d == mask c) = (d == c) := by
        rw [Bool.eq_iff_iff, beq_iff_eq, beq_iff_eq, eq_comm, mask_eq_iff hd, eq_comm]
      rw [List.map_cons, List.isPrefixOf, List.isPrefixOf, hc, ih hmark]

theorem mark?_mask (cs : List Char) : Quote.mark? (cs.map mask) = Quote.mark? cs := by
  fun_cases Quote.mark? cs with
  | case1 rest => rfl
  | case2 rest => rfl
  | case3 rest hthree =>
    rw [List.map_cons, mask_of_narrow rfl, Quote.mark?]
    exact not_append_mask ['\'', '\''] (by simp [Char.utf8Size]) hthree
  | case4 rest hthree =>
    rw [List.map_cons, mask_of_narrow rfl, Quote.mark?]
    exact not_append_mask ['"', '"'] (by simp [Char.utf8Size]) hthree
  | case5 _ h1 h2 h3 h4 =>
    rw [Quote.mark?]
    · exact not_append_mask ['\'', '\'', '\''] (by simp [Char.utf8Size]) h1
    · exact not_append_mask ['"', '"', '"'] (by simp [Char.utf8Size]) h2
    · exact not_append_mask ['\''] (by simp [Char.utf8Size]) h3
    · exact not_append_mask ['"'] (by simp [Char.utf8Size]) h4

theorem open?_mask (cs : List Char) : Quote.open? (cs.map mask) = Quote.open? cs := by
  have hletters : (cs.map mask).takeWhile isLetter = cs.takeWhile isLetter :=
    takeWhile_mask plain_isLetter (fun _ => isWordChar_of_isLetter) cs
  fun_cases Quote.open? cs with
  | case1 rest => rfl
  | case2 letters hquote =>
    rw [Quote.open?, hletters, ← List.map_drop, mark?_mask]
    exact not_append_mask ['\x60'] (by simp [Char.utf8Size]) hquote

theorem body_mask {mark : List Char} (hmark : ∀ c ∈ mark, c.utf8Size = 1) (multiline : Bool)
    (cs : List Char) : Quote.body mark multiline (cs.map mask) = Quote.body mark multiline cs := by
  induction hn : cs.length using Nat.strongRecOn generalizing cs with
  | ind n ih =>
    cases cs with
    | nil => rfl
    | cons c rest =>
      have hrest := ih rest.length (by rw [← hn]; exact Nat.lt_succ_self _) rest rfl
      by_cases hescape : c = '\\'
      · subst hescape
        cases rest with
        | nil => rfl
        | cons d rest =>
          have htail := ih rest.length (by simp only [← hn, List.length_cons]; omega) rest rfl
          rw [List.map_cons, List.map_cons, mask_of_narrow rfl, Quote.body, Quote.body, htail]
      · have hline : (mask c == '\n') = (c == '\n') := plain_beq rfl c
        rw [List.map_cons, body_cons mark multiline (mt (mask_eq_iff rfl).1 hescape),
          ← List.map_cons, isPrefixOf_mask hmark, hline, hrest, body_cons mark multiline hescape]

theorem quoted?_mask (cs : List Char) : quoted? (cs.map mask) = quoted? cs := by
  rw [quoted?, quoted?, open?_mask]
  cases hopen : Quote.open? cs with
  | none => rfl
  | some q =>
    simp only [Option.map_some, Quote.scan, ← List.map_drop, body_mask (mark_of_open? hopen).2]

/-! ## The first token -/

/-- The first token of a text does not change with the wide characters. -/
theorem first_mask (cs : List Char) : first (cs.map mask) = first cs := by
  simp only [first, blank?_mask, comment?_mask, quoted?_mask, word?_mask, number?_mask,
    parameter?_mask, punct?_mask]

end Scan
end SqlTree
