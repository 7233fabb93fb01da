import SqlTree.Text.Cut
import SqlTree.Proofs.Token

/-!
# How far a token looks

The first token of a text depends on its own characters and on at most three bytes behind them. So
two texts that agree that far begin with the same token.

- `Scan.Far`          : three bytes or more follow the first characters of a text
- `Scan.first_append` : what follows them does not matter to a token made of the first characters
- `Text.Agree`        : two texts that begin alike, or are the same
- `Token.split?_of_agree` : they begin with the same token
-/

namespace SqlTree
namespace Scan

variable {z x y : List Char}

/-- Three bytes or more follow the first `n` characters. -/
def Far (z : List Char) (n : Nat) : Prop := 3 ≤ Text.size (z.drop n)

theorem Far.lt {n : Nat} (h : Far z n) : n < z.length := by
  rcases Nat.lt_or_ge n z.length with hlt | hge
  · exact hlt
  · rw [Far, List.drop_eq_nil_of_le hge] at h
    exact absurd h (by decide)

theorem size_drop_le (z : List Char) (n : Nat) : Text.size (z.drop n) ≤ Text.size z := by
  have happend := Text.size_append (z.take n) (z.drop n)
  rw [List.take_append_drop] at happend
  omega

theorem Far.mono {n k : Nat} (h : Far z n) (hk : k ≤ n) : Far z k := by
  have hle := size_drop_le (z.drop k) (n - k)
  rw [List.drop_drop, Nat.add_sub_cancel' hk] at hle
  exact Nat.le_trans h hle

theorem Far.drop {n k : Nat} (h : Far z (n + k)) : Far (z.drop n) k := by
  rw [Far, List.drop_drop]
  exact h

theorem Far.size {n : Nat} (h : Far z n) : 3 ≤ Text.size z := h.mono (Nat.zero_le n)

theorem exists_cons_of_size_pos {z : List Char} (h : 0 < Text.size z) : ∃ c z', z = c :: z' := by
  cases z with
  | nil => cases h
  | cons c z' => exact ⟨c, z', rfl⟩

/-- A run that ends inside of `z` is not affected by what follows. -/
theorem takeWhile_append {p : Char → Bool} (h : run p (z ++ x) < z.length) :
    (z ++ y).takeWhile p = (z ++ x).takeWhile p := by
  induction z with
  | nil => cases h
  | cons c z ih =>
    simp only [run, List.cons_append, List.takeWhile_cons] at h ⊢
    split
    · rename_i hc
      rw [if_pos hc, List.length_cons, List.length_cons, Nat.add_lt_add_iff_right] at h
      rw [ih h]
    · rfl

theorem run_append {p : Char → Bool} (h : run p (z ++ x) < z.length) :
    run p (z ++ y) = run p (z ++ x) := by
  rw [run, takeWhile_append h, run]

/-! ## Numbers -/

/-- So is a run that is empty because of the next character. -/
theorem run_append_of_pos {p : Char → Bool} (hpos : 0 < Text.size z)
    (h : run p (z ++ x) ≠ 0 → run p (z ++ x) < z.length) : run p (z ++ y) = run p (z ++ x) := by
  refine run_append ?_
  by_cases hzero : run p (z ++ x) = 0
  · obtain ⟨c, z, rfl⟩ := exists_cons_of_size_pos hpos
    rw [hzero]
    exact Nat.succ_pos _
  · exact h hzero

theorem exponent_append (h : Far z (exponent (z ++ x))) : exponent (z ++ y) = exponent (z ++ x) := by
  obtain ⟨mark, z, rfl⟩ := exists_cons_of_size_pos (Nat.lt_of_lt_of_le (by decide) h.size)
  by_cases hmark : mark = 'e' ∨ mark = 'E'
  · have hwide : mark.utf8Size = 1 := by
      rcases hmark with rfl | rfl <;> rfl
    have hsize := h.size
    rw [Text.size_cons, hwide] at hsize
    obtain ⟨sign, z, rfl⟩ := exists_cons_of_size_pos (z := z) (by omega)
    simp only [exponent, List.cons_append, List.head?_cons, Bool.or_eq_true, beq_iff_eq,
      Option.some.injEq, if_pos hmark] at h ⊢
    by_cases hsign : sign = '+' ∨ sign = '-'
    · -- The digits begin behind the sign, which takes one byte.
      simp only [if_pos hsign, List.drop_succ_cons, List.drop_zero] at h ⊢
      have hwide : sign.utf8Size = 1 := by
        rcases hsign with rfl | rfl <;> rfl
      rw [Text.size_cons, hwide] at hsize
      rw [run_append_of_pos (x := x) (by omega) fun hne => ?_]
      have hlt := h.lt
      simp only [if_neg hne, List.length_cons] at hlt
      omega
    · simp only [if_neg hsign, List.drop_zero] at h ⊢
      rw [← List.cons_append] at h ⊢
      rw [← List.cons_append, run_append_of_pos (x := x) (by omega) fun hne => ?_]
      have hlt := h.lt
      simp only [if_neg hne, List.length_cons] at hlt ⊢
      omega
  · simp only [exponent, List.cons_append, Bool.or_eq_true, beq_iff_eq, if_neg hmark]

theorem fraction_append (h : Far z (fraction (z ++ x))) : fraction (z ++ y) = fraction (z ++ x) := by
  obtain ⟨c, z, rfl⟩ := exists_cons_of_size_pos (Nat.lt_of_lt_of_le (by decide) h.size)
  by_cases hc : c = '.'
  · subst hc
    simp only [List.cons_append, fraction] at h ⊢
    have hlt := h.lt
    simp only [List.length_cons] at hlt
    rw [run_append (x := x) (by omega)]
  · simp [fraction, hc]

theorem decimal_append (h : Far z (decimal (z ++ x))) : decimal (z ++ y) = decimal (z ++ x) := by
  have hdigits : run isDigit (z ++ y) = run isDigit (z ++ x) := by
    refine run_append (h.mono ?_).lt
    simp only [decimal]
    omega
  simp only [decimal, hdigits] at h ⊢
  generalize hd : run isDigit (z ++ x) = digits at h ⊢
  have hle : digits ≤ z.length := Nat.le_of_lt (h.mono (by omega)).lt
  rw [List.drop_append_of_le_length hle] at h ⊢
  rw [List.drop_append_of_le_length hle]
  have hfraction : fraction (z.drop digits ++ y) = fraction (z.drop digits ++ x) :=
    fraction_append (Far.drop (h.mono (by omega)))
  rw [hfraction]
  generalize hm : digits + fraction (z.drop digits ++ x) = mantissa at h ⊢
  have hle : mantissa ≤ z.length := Nat.le_of_lt (h.mono (by omega)).lt
  rw [List.drop_append_of_le_length hle] at h ⊢
  rw [List.drop_append_of_le_length hle, exponent_append h.drop]

theorem hexadecimal_append (hone : Far z 1) (h : Far z (hexadecimal (z ++ x))) :
    hexadecimal (z ++ y) = hexadecimal (z ++ x) := by
  obtain ⟨zero, z, rfl⟩ := exists_cons_of_size_pos (Nat.lt_of_lt_of_le (by decide) hone.size)
  obtain ⟨mark, z, rfl⟩ := exists_cons_of_size_pos (z := z)
    (Nat.lt_of_lt_of_le (by decide) hone)
  by_cases hzero : zero = '0'
  · subst hzero
    by_cases hmark : (mark == 'x' || mark == 'X') = true
    · have hwide : mark.utf8Size = 1 := by
        simp only [Bool.or_eq_true, beq_iff_eq] at hmark
        rcases hmark with rfl | rfl <;> rfl
      have hsize : 3 ≤ Text.size (mark :: z) := hone
      rw [Text.size_cons, hwide] at hsize
      simp only [List.cons_append, hexadecimal, if_pos hmark] at h ⊢
      rw [run_append_of_pos (by omega) fun hne => ?_]
      have hlt := h.lt
      simp only [if_neg hne, List.length_cons] at hlt
      omega
    · simp only [List.cons_append, hexadecimal, if_neg hmark]
  · simp [hexadecimal, hzero]

theorem number?_append (hone : Far z 1)
    (h : ∀ kind n, number? (z ++ x) = some (kind, n) → Far z n) :
    number? (z ++ y) = number? (z ++ x) := by
  have hstarts : startsNumber (z ++ y) = startsNumber (z ++ x) := by
    obtain ⟨c, z, rfl⟩ := exists_cons_of_size_pos (Nat.lt_of_lt_of_le (by decide) hone.size)
    obtain ⟨d, z, rfl⟩ := exists_cons_of_size_pos (z := z) (Nat.lt_of_lt_of_le (by decide) hone)
    by_cases hc : c = '.' <;> simp [startsNumber, hc]
  simp only [number?, hstarts] at h ⊢
  split
  · rename_i hyes
    have hfar := h .number _ (if_pos hyes)
    simp only [number] at hfar ⊢
    have hhex : hexadecimal (z ++ y) = hexadecimal (z ++ x) := by
      refine hexadecimal_append hone ?_
      split at hfar
      · rename_i hzero
        rw [hzero]
        exact hone.mono (Nat.zero_le 1)
      · exact hfar
    rw [hhex]
    split
    · rename_i hzero
      rw [if_pos hzero] at hfar
      rw [decimal_append hfar]
    · rfl
  · rfl

/-! ## Quoted tokens -/

theorem isPrefixOf_append {mark : List Char} (hmark : ∀ c ∈ mark, c.utf8Size = 1)
    (h : mark.length ≤ Text.size z) : mark.isPrefixOf (z ++ y) = mark.isPrefixOf (z ++ x) := by
  induction mark generalizing z with
  | nil => simp
  | cons q mark ih =>
    obtain ⟨c, z, rfl⟩ := exists_cons_of_size_pos (z := z) (by
      simp only [List.length_cons] at h
      omega)
    simp only [List.cons_append, List.isPrefixOf_cons_cons]
    by_cases hq : q = c
    · subst hq
      simp only [List.length_cons, Text.size_cons, hmark q List.mem_cons_self] at h
      rw [ih (fun c hc => hmark c (List.mem_cons_of_mem _ hc)) (by omega)]
    · rw [beq_false_of_ne hq, Bool.false_and, Bool.false_and]

/-- Content that does not begin with a backslash. -/
theorem body_cons (mark : List Char) (multiline : Bool) {c : Char} (hescape : c ≠ '\\')
    (rest : List Char) : Quote.body mark multiline (c :: rest) =
      if c == '\n' && !multiline then (0, false)
      else if mark.isPrefixOf (c :: rest) then (mark.length, true)
      else ((Quote.body mark multiline rest).1 + 1, (Quote.body mark multiline rest).2) := by
  rw [Quote.body]
  · exact fun hc => absurd hc hescape
  · exact fun d rest hc => absurd hc hescape

theorem body_append {mark : List Char} {multiline : Bool} (hmark : ∀ c ∈ mark, c.utf8Size = 1)
    (hlength : mark.length ≤ 3) (h : Far z (Quote.body mark multiline (z ++ x)).1) :
    Quote.body mark multiline (z ++ y) = Quote.body mark multiline (z ++ x) := by
  -- The content ends inside of `z`, so every character that is looked at is there.
  induction hn : z.length using Nat.strongRecOn generalizing z with
  | ind n ih =>
    obtain ⟨c, z, rfl⟩ := exists_cons_of_size_pos (Nat.lt_of_lt_of_le (by decide) h.size)
    have hprefix : mark.isPrefixOf (c :: (z ++ y)) = mark.isPrefixOf (c :: (z ++ x)) :=
      isPrefixOf_append (z := c :: z) hmark (Nat.le_trans hlength h.size)
    by_cases hescape : c = '\\'
    · subst hescape
      cases z with
      | nil =>
        have hlt := h.lt
        cases x with
        | nil => simp [Quote.body] at hlt
        | cons d x => simp [Quote.body] at hlt
      | cons d z =>
        simp only [List.cons_append, Quote.body] at h ⊢
        have hfar : Far z (Quote.body mark multiline (z ++ x)).1 := by
          have hdrop := h.mono (Nat.le_of_eq (Nat.add_comm 2 _))
          exact hdrop.drop
        rw [ih z.length (by simp only [List.length_cons] at hn; omega) hfar rfl]
    · have hbody (t : List Char) := body_cons mark multiline hescape (z ++ t)
      rw [List.cons_append, hbody] at h
      rw [List.cons_append, List.cons_append, hbody, hbody, hprefix]
      split
      · rfl
      · rename_i hline
        rw [if_neg hline] at h
        split
        · rfl
        · rename_i hclose
          rw [if_neg hclose] at h
          have hfar : Far z (Quote.body mark multiline (z ++ x)).1 := by
            have hdrop := h.mono (Nat.le_of_eq (Nat.add_comm 1 _))
            exact hdrop.drop
          rw [ih z.length (by simp only [List.length_cons] at hn; omega) hfar rfl]

theorem mark?_append (h : 3 ≤ Text.size z) : Quote.mark? (z ++ y) = Quote.mark? (z ++ x) := by
  obtain ⟨a, z, rfl⟩ := exists_cons_of_size_pos (Nat.lt_of_lt_of_le (by decide) h)
  rw [Text.size_cons] at h
  -- Up to three quotes of one byte each are looked at, each one only if those before it are alike.
  by_cases hquote : a = '\'' ∨ a = '"'
  · have hwide : a.utf8Size = 1 := by
      rcases hquote with rfl | rfl <;> rfl
    obtain ⟨b, z, rfl⟩ := exists_cons_of_size_pos (z := z) (by omega)
    by_cases hb : b = a
    · subst hb
      rw [Text.size_cons, hwide] at h
      obtain ⟨c, z, rfl⟩ := exists_cons_of_size_pos (z := z) (by omega)
      by_cases hc : c = b
      · subst hc
        rcases hquote with rfl | rfl <;> simp [Quote.mark?]
      · rcases hquote with rfl | rfl <;> simp [Quote.mark?, hc]
    · rcases hquote with rfl | rfl <;> simp [Quote.mark?, hb]
  · rw [not_or] at hquote
    simp [Quote.mark?, hquote]

theorem mark_of_open? {q : Quote} {cs : List Char} (h : Quote.open? cs = some q) :
    q.mark.length ≤ 3 ∧ ∀ c ∈ q.mark, c.utf8Size = 1 := by
  unfold Quote.open? at h
  split at h
  · cases h
    simp [Char.utf8Size]
  · obtain ⟨kind, -, hmark⟩ := Option.bind_eq_some_iff.1 h
    obtain ⟨mark, hmark, rfl⟩ := Option.map_eq_some_iff.1 hmark
    unfold Quote.mark? at hmark
    split at hmark <;> cases hmark <;> simp [Char.utf8Size]

theorem open?_append (h : Far z (run isLetter (z ++ x))) :
    Quote.open? (z ++ y) = Quote.open? (z ++ x) := by
  obtain ⟨c, z, rfl⟩ := exists_cons_of_size_pos (Nat.lt_of_lt_of_le (by decide) h.size)
  by_cases hc : c = '\x60'
  · subst hc
    rfl
  · have hopen (t : List Char) : Quote.open? (c :: z ++ t) =
        (Quote.kindOf? ((c :: z ++ t).takeWhile isLetter)).bind fun kind =>
          (Quote.mark? ((c :: z ++ t).drop (run isLetter (c :: z ++ t)))).map fun mark =>
            ⟨kind, run isLetter (c :: z ++ t), mark⟩ := by
      rw [List.cons_append, Quote.open?]
      · rfl
      · exact fun rest hcons => hc (List.cons.inj hcons).1
    have hle := Nat.le_of_lt h.lt
    rw [hopen, hopen, takeWhile_append h.lt, run_append h.lt, List.drop_append_of_le_length hle,
      List.drop_append_of_le_length hle, mark?_append h]

theorem quoted?_append (hletters : Far z (run isLetter (z ++ x)))
    (h : ∀ kind n, quoted? (z ++ x) = some (kind, n) → Far z n) :
    quoted? (z ++ y) = quoted? (z ++ x) := by
  rw [quoted?, quoted?, open?_append hletters]
  cases hopen : Quote.open? (z ++ x) with
  | none => rfl
  | some q =>
    obtain ⟨hlength, hmark⟩ := mark_of_open? hopen
    have hfar := h _ _ (by rw [quoted?, hopen]; rfl)
    simp only [Quote.scan, Option.map_some] at hfar ⊢
    have hle : q.letters + q.mark.length ≤ z.length :=
      Nat.le_of_lt (hfar.mono (Nat.le_add_right _ _)).lt
    rw [List.drop_append_of_le_length hle] at hfar ⊢
    rw [List.drop_append_of_le_length hle, body_append hmark hlength hfar.drop]

/-! ## Other shapes -/

theorem blank?_append (hone : Far z 1)
    (h : ∀ kind n, blank? (z ++ x) = some (kind, n) → Far z n) :
    blank? (z ++ y) = blank? (z ++ x) := by
  obtain ⟨c, z, rfl⟩ := exists_cons_of_size_pos (Nat.lt_of_lt_of_le (by decide) hone.size)
  simp only [List.cons_append, blank?] at h ⊢
  split
  · rename_i hblank
    have hlt := (h _ _ (if_pos hblank)).lt
    simp only [List.length_cons] at hlt
    rw [run_append (x := x) (by omega)]
  · rfl

theorem word?_append (hone : Far z 1)
    (h : ∀ kind n, word? (z ++ x) = some (kind, n) → Far z n) :
    word? (z ++ y) = word? (z ++ x) := by
  obtain ⟨c, z, rfl⟩ := exists_cons_of_size_pos (Nat.lt_of_lt_of_le (by decide) hone.size)
  simp only [List.cons_append, word?] at h ⊢
  split
  · rename_i hstart
    have hlt := (h _ _ (if_pos hstart)).lt
    simp only [List.length_cons] at hlt
    rw [takeWhile_append (x := x) (by rw [run]; omega)]
  · rfl

theorem parameter?_append (hone : Far z 1)
    (h : ∀ kind n, parameter? (z ++ x) = some (kind, n) → Far z n) :
    parameter? (z ++ y) = parameter? (z ++ x) := by
  obtain ⟨a, z, rfl⟩ := exists_cons_of_size_pos (Nat.lt_of_lt_of_le (by decide) hone.size)
  obtain ⟨b, z, rfl⟩ := exists_cons_of_size_pos (z := z) (Nat.lt_of_lt_of_le (by decide) hone)
  by_cases ha : a = '@'
  · subst ha
    by_cases hb : b = '@'
    · subst hb
      have hsize : 3 ≤ '@'.utf8Size + Text.size z := hone
      have hwide : '@'.utf8Size = 1 := rfl
      obtain ⟨c, z, rfl⟩ := exists_cons_of_size_pos (z := z) (by omega)
      simp only [List.cons_append, parameter?] at h ⊢
      split
      · rename_i hstart
        have hlt := (h _ _ (if_pos hstart)).lt
        simp only [List.length_cons] at hlt
        rw [run_append (x := x) (by omega)]
      · rfl
    · have hparameter (t : List Char) : parameter? ('@' :: b :: (z ++ t)) =
          if isWordStart b then some (.parameter, 2 + run isWordChar (z ++ t)) else none := by
        rw [parameter?]
        exact fun c rest hcons => absurd hcons hb
      simp only [List.cons_append, hparameter] at h ⊢
      split
      · rename_i hstart
        have hlt := (h _ _ (if_pos hstart)).lt
        simp only [List.length_cons] at hlt
        rw [run_append (x := x) (by omega)]
      · rfl
  · simp [parameter?, ha]

theorem two_le_commentBody? {cs : List Char} {n : Nat} (h : commentBody? cs = some n) : 2 ≤ n := by
  fun_induction commentBody? cs generalizing n with
  | case1 => cases h; exact Nat.le_refl 2
  | case2 c rest _ ih =>
    obtain ⟨k, hk, rfl⟩ := Option.map_eq_some_iff.1 h
    exact Nat.le_succ_of_le (ih hk)
  | case3 => cases h

theorem commentBody?_append {n : Nat} (h : commentBody? (z ++ x) = some n) (hn : n ≤ z.length) :
    commentBody? (z ++ y) = some n := by
  induction z generalizing n with
  | nil =>
    have htwo := two_le_commentBody? h
    simp only [List.length_nil] at hn
    omega
  | cons c z ih =>
    cases z with
    | nil =>
      have htwo := two_le_commentBody? h
      simp only [List.length_singleton] at hn
      omega
    | cons d z =>
      by_cases hclose : c = '*' ∧ d = '/'
      · obtain ⟨rfl, rfl⟩ := hclose
        exact h
      · have hstep (t : List Char) : commentBody? (c :: d :: (z ++ t)) =
            (commentBody? (d :: z ++ t)).map (· + 1) := by
          rw [commentBody?]
          · rfl
          · exact fun rest hc hcons => hclose ⟨hc, (List.cons.inj hcons).1⟩
        simp only [List.cons_append, hstep] at h ⊢
        obtain ⟨k, hk, rfl⟩ := Option.map_eq_some_iff.1 h
        have hrest : commentBody? (d :: (z ++ y)) = some k := ih hk (by simpa using hn)
        rw [hrest]
        rfl

theorem comment?_append (hone : Far z 1)
    (h : ∀ kind n, comment? (z ++ x) = some (kind, n) → Far z n) :
    comment? (z ++ y) = comment? (z ++ x) := by
  obtain ⟨a, z, rfl⟩ := exists_cons_of_size_pos (Nat.lt_of_lt_of_le (by decide) hone.size)
  obtain ⟨b, z, rfl⟩ := exists_cons_of_size_pos (z := z) (Nat.lt_of_lt_of_le (by decide) hone)
  by_cases hdashes : a = '-' ∧ b = '-'
  · obtain ⟨rfl, rfl⟩ := hdashes
    simp only [List.cons_append, comment?] at h ⊢
    have hlt := (h _ _ rfl).lt
    simp only [List.length_cons] at hlt
    rw [run_append (x := x) (by omega)]
  · by_cases hhash : a = '#'
    · subst hhash
      simp only [List.cons_append, comment?] at h ⊢
      have hlt := (h _ _ rfl).lt
      rw [← List.cons_append] at hlt ⊢
      rw [← List.cons_append, run_append (x := x)]
      simp only [List.length_cons] at hlt ⊢
      omega
    · by_cases hblock : a = '/' ∧ b = '*'
      · obtain ⟨rfl, rfl⟩ := hblock
        simp only [List.cons_append, comment?] at h ⊢
        cases hbody : commentBody? (z ++ x) with
        | none =>
          -- An unclosed comment reaches to the end of the text.
          rw [hbody] at h
          have hlt := (h _ _ rfl).lt
          simp only [List.length_append, List.length_cons] at hlt
          omega
        | some n =>
          rw [hbody] at h
          have hlt := (h _ _ rfl).lt
          simp only [List.length_cons] at hlt
          rw [commentBody?_append hbody (by omega)]
      · simp only [List.cons_append]
        have hnone (t : List Char) : comment? (a :: b :: t) = none := by
          unfold comment?
          split
          · rename_i heq
            cases heq
            exact absurd ⟨rfl, rfl⟩ hdashes
          · rename_i heq
            cases heq
            exact absurd rfl hhash
          · rename_i heq
            cases heq
            exact absurd ⟨rfl, rfl⟩ hblock
          · rfl
        rw [hnone, hnone]

theorem punct?_append (hone : Far z 1) : punct? (z ++ y) = punct? (z ++ x) := by
  obtain ⟨a, z, rfl⟩ := exists_cons_of_size_pos (Nat.lt_of_lt_of_le (by decide) hone.size)
  obtain ⟨b, z, rfl⟩ := exists_cons_of_size_pos (z := z) (Nat.lt_of_lt_of_le (by decide) hone)
  -- At most two characters are looked at.
  have htwo (t : List Char) : punct? (a :: b :: t) = punct? [a, b] := by
    conv => lhs; unfold punct?
    split
    case h_27 =>
      -- If nothing fits the longer text, nothing fits the two characters.
      conv => rhs; unfold punct?
      split <;> first | rfl | (rename_i heq; cases heq; exfalso; solve_by_elim)
    all_goals rename_i heq; cases heq; first | (rw [punct?]; done) | simp_all [punct?]
  simp only [List.cons_append]
  rw [htwo, htwo (z ++ x)]

/-! ## The first token -/

theorem or_congr {α : Type} {a a' b b' : Option α} (h : a' = a) (hnone : a = none → b' = b) :
    a'.or b' = a.or b := by
  subst h
  cases a' with
  | none => simpa using hnone rfl
  | some v => rfl

theorem run_isLetter_le_word? {cs : List Char} {kind : Kind} {n : Nat}
    (h : word? cs = some (kind, n)) : run isLetter cs ≤ n := by
  cases cs with
  | nil => cases h
  | cons c rest =>
    simp only [word?, Option.ite_none_right_eq_some, Option.some.injEq, Prod.mk.injEq] at h
    obtain ⟨-, -, rfl⟩ := h
    have hrun (cs : List Char) : run isLetter cs ≤ run isWordChar cs := by
      induction cs with
      | nil => exact Nat.le_refl 0
      | cons c cs ih =>
        simp only [run, List.takeWhile_cons] at ih ⊢
        by_cases hletter : isLetter c = true
        · have hword : isWordChar c = true := by
            simp only [isLetter] at hletter
            simp [isWordChar, hletter]
          simpa [hletter, hword] using ih
        · simp [hletter]
    have htail := hrun rest
    simp only [run, List.takeWhile_cons, List.length_cons] at htail ⊢
    split
    · simpa using htail
    · exact Nat.zero_le _

theorem run_isLetter_le_quoted? {cs : List Char} {kind : Kind} {n : Nat}
    (h : quoted? cs = some (kind, n)) : run isLetter cs ≤ n := by
  obtain ⟨q, hq, hscan⟩ := Option.map_eq_some_iff.1 h
  have hletters : run isLetter cs = q.letters := by
    unfold Quote.open? at hq
    split at hq
    · cases hq
      rfl
    · obtain ⟨kind, -, hmark⟩ := Option.bind_eq_some_iff.1 hq
      obtain ⟨mark, -, rfl⟩ := Option.map_eq_some_iff.1 hmark
      rfl
  rw [hletters]
  have hn := congrArg Prod.snd hscan
  simp only [Quote.scan] at hn
  omega

/-- Letters at the beginning of a text are part of its first token. -/
theorem run_isLetter_le_first {cs : List Char} (hblank : blank? cs = none)
    (hcomment : comment? cs = none) : run isLetter cs ≤ (first cs).2 := by
  cases hquoted : quoted? cs with
  | some found =>
    have hfirst : first cs = found := by simp [first, hblank, hcomment, hquoted]
    rw [hfirst]
    exact run_isLetter_le_quoted? hquoted
  | none =>
    cases hword : word? cs with
    | some found =>
      have hfirst : first cs = found := by simp [first, hblank, hcomment, hquoted, hword]
      rw [hfirst]
      exact run_isLetter_le_word? hword
    | none =>
      cases cs with
      | nil => exact Nat.zero_le _
      | cons c rest =>
        have hstart : isLetter c = false := by
          simp only [word?, ite_eq_right_iff, reduceCtorEq, imp_false, Bool.not_eq_true] at hword
          simp only [isWordStart, Bool.or_eq_false_iff] at hword
          exact hword.1
        simp [run, hstart]

/-- A token made of the first characters does not depend on what follows three bytes later. -/
theorem first_append (h : Far z (max (first (z ++ x)).2 1)) : first (z ++ y) = first (z ++ x) := by
  have hone : Far z 1 := h.mono (Nat.le_max_right _ _)
  -- Each shape is asked only if those before it do not match.
  have hshape (found : Kind × Nat) (hfound : first (z ++ x) = found) : Far z found.2 :=
    h.mono (hfound ▸ Nat.le_max_left _ _)
  unfold first
  congr 1
  have hblank := blank?_append (x := x) (y := y) hone fun kind n hsome =>
    hshape (kind, n) (by simp [first, hsome])
  refine or_congr hblank fun hblank => ?_
  have hcomment := comment?_append (x := x) (y := y) hone fun kind n hsome =>
    hshape (kind, n) (by simp [first, hblank, hsome])
  refine or_congr hcomment fun hcomment => ?_
  have hquoted := quoted?_append (x := x) (y := y) (z := z) ?_ fun kind n hsome =>
    hshape (kind, n) (by simp [first, hblank, hcomment, hsome])
  · refine or_congr hquoted fun hquoted => ?_
    have hword := word?_append (x := x) (y := y) hone fun kind n hsome =>
      hshape (kind, n) (by simp [first, hblank, hcomment, hquoted, hsome])
    refine or_congr hword fun hword => ?_
    have hnumber := number?_append (x := x) (y := y) hone fun kind n hsome =>
      hshape (kind, n) (by simp [first, hblank, hcomment, hquoted, hword, hsome])
    refine or_congr hnumber fun hnumber => ?_
    have hparameter := parameter?_append (x := x) (y := y) hone fun kind n hsome =>
      hshape (kind, n) (by
        simp [first, hblank, hcomment, hquoted, hword, hnumber, hsome])
    exact or_congr hparameter fun _ => punct?_append hone
  · exact h.mono (Nat.le_trans (run_isLetter_le_first hblank hcomment) (Nat.le_max_left _ _))

/-! ## Angle brackets -/

/-- What a `>` begins is told by the character behind it. -/
theorem first_angle (d : List Char) : first ('>' :: d) =
    match d with
    | '=' :: _ => (.gtEq, 2)
    | '>' :: _ => (.shr, 2)
    | _ => (.gt, 1) := by
  have hblank : blank? ('>' :: d) = none := rfl
  have hcomment : comment? ('>' :: d) = none := by simp [comment?]
  have hquoted : quoted? ('>' :: d) = none := by
    have hletter : isLetter '>' = false := rfl
    simp [quoted?, Quote.open?, Quote.mark?, hletter]
  have hword : word? ('>' :: d) = none := rfl
  have hnumber : number? ('>' :: d) = none := by
    have hdigit : isDigit '>' = false := rfl
    simp [number?, startsNumber, hdigit]
  have hparameter : parameter? ('>' :: d) = none := by simp [parameter?]
  simp only [first, hblank, hcomment, hquoted, hword, hnumber, hparameter, Option.none_or]
  split <;> simp_all [punct?]

end Scan

/-! ## Texts that agree -/

namespace Text

/-- The texts are the same, or have the same beginning of `n` bytes or more. -/
def Agree (n : Nat) (a b : List Char) : Prop :=
  a = b ∨ ∃ w x y, a = w ++ x ∧ b = w ++ y ∧ n ≤ size w

theorem Agree.mono {n k : Nat} {a b : List Char} (h : Agree n a b) (hk : k ≤ n) : Agree k a b := by
  rcases h with rfl | ⟨w, x, y, ha, hb, hn⟩
  · exact Or.inl rfl
  · exact Or.inr ⟨w, x, y, ha, hb, Nat.le_trans hk hn⟩

end Text

namespace Token

open Text (Agree)

theorem split?_of_ne_nil {a : List Char} (h : a ≠ []) :
    split? a = some ((Scan.first a).1, a.take (max (Scan.first a).2 1),
      a.drop (max (Scan.first a).2 1)) := by
  cases a with
  | nil => exact absurd rfl h
  | cons c cs => rfl

/-- Bytes past the end of a token on which it may depend. What follows a `>>` does not matter, but
one byte is asked for so that there are three behind the trivia in front of it. -/
def margin (kind : Kind) : Nat := if kind = .shr then 1 else 3

/-- Texts that agree three bytes further than the first token of one begin with the same token. -/
theorem split?_of_agree_far {n : Nat} {a b text rest : List Char} {kind : Kind} (h : Agree n a b)
    (hsplit : split? a = some (kind, text, rest)) (hn : Text.size text + 3 ≤ n) :
    ∃ rest', split? b = some (kind, text, rest') ∧ Agree (n - Text.size text) rest rest' := by
  rcases h with rfl | ⟨w, x, y, rfl, rfl, hw⟩
  · exact ⟨rest, hsplit, Or.inl rfl⟩
  · obtain ⟨hkind, htext⟩ := kind_of_split? hsplit
    have happend := append_of_split? hsplit
    obtain ⟨v, rfl, hrest⟩ := Text.exists_append_of_size_le happend (by omega)
    rw [Text.size_append] at hw
    -- The token has as many characters as the scanner says, and three bytes follow it.
    have hlength : max (Scan.first (text ++ v ++ x)).2 1 = text.length := by
      have hv : v ≠ [] := by
        rintro rfl
        simp only [Text.size_nil] at hw
        omega
      have hlen := congrArg List.length htext
      have hpos := List.length_pos_iff.2 hv
      simp only [List.length_take, List.length_append] at hlen
      omega
    have hfar : Scan.Far (text ++ v) (max (Scan.first (text ++ v ++ x)).2 1) := by
      rw [hlength, Scan.Far, List.drop_left]
      omega
    have hfirst := Scan.first_append (y := y) hfar
    refine ⟨v ++ y, ?_, Or.inr ⟨v, x, y, hrest, rfl, by omega⟩⟩
    rw [split?_of_ne_nil (by simp [text_ne_nil_of_split? hsplit]), hfirst, hlength, ← hkind,
      List.append_assoc, List.take_left, List.drop_left]

/-- Whatever follows a `>>`, it is one token. -/
theorem split?_of_agree_shr {n : Nat} {a b text rest : List Char} (h : Agree n a b)
    (hsplit : split? a = some (.shr, text, rest)) (hn : Text.size text ≤ n) :
    ∃ rest', split? b = some (.shr, text, rest') ∧ Agree (n - Text.size text) rest rest' := by
  rcases h with rfl | ⟨w, x, y, rfl, rfl, hw⟩
  · exact ⟨rest, hsplit, Or.inl rfl⟩
  · obtain rfl := text_of_split?_shr hsplit
    obtain ⟨v, rfl, hrest⟩ :=
      Text.exists_append_of_size_le (append_of_split? hsplit) (Nat.le_trans hn hw)
    rw [Text.size_append] at hw
    refine ⟨v ++ y, ?_, Or.inr ⟨v, x, y, hrest, rfl, by omega⟩⟩
    rw [split?_of_ne_nil (by simp)]
    simp [Scan.first_angle]

/-- Texts that agree far enough beyond the first token of one begin with the same token. -/
theorem split?_of_agree {n : Nat} {a b text rest : List Char} {kind : Kind} (h : Agree n a b)
    (hsplit : split? a = some (kind, text, rest)) (hn : Text.size text + margin kind ≤ n) :
    ∃ rest', split? b = some (kind, text, rest') ∧ Agree (n - Text.size text) rest rest' := by
  unfold margin at hn
  split at hn
  · rename_i hkind
    subst hkind
    exact split?_of_agree_shr h hsplit (by omega)
  · exact split?_of_agree_far h hsplit hn

end Token
end SqlTree
