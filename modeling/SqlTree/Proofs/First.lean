import Mathlib.Algebra.GroupWithZero.Nat
import Mathlib.Logic.Function.Iterate
import Mathlib.Logic.Relation
import SqlTree.Automaton.First
import SqlTree.Proofs.Lowering

/-!
# First terminals are exact

The rounds over all productions come to a point where nothing changes. What is known there is exactly
what derivations say: a nonterminal may be empty if it derives nothing, and may begin with a terminal
if it derives something that begins with it.

- `Grammar.Yields`        : derivations between sentential forms
- `Grammar.Vanishes`, `Grammar.BeginsWith` : what a sequence of symbols derives
- `First.measure`         : what is known, as a number that every change raises
- `First.absorb_ofGrammar` : in the end no production adds anything
- `First.all_isNullable_ofGrammar`, `First.contains_ofSequence_ofGrammar` : what is known then
- `First.Exact`           : the first terminals of a grammar, up to the last detail
- `First.ofGrammar_exact` : the rounds end, and where they end the first terminals are exact
-/

namespace SqlTree

/-! ## Derivations -/

namespace Grammar

/-- A nonterminal of a sentential form is replaced by one of its right-hand sides. -/
inductive Rewrites (g : Grammar) : List Symbol → List Symbol → Prop where
  | mk {p : Nat} {production : Production} (before after : List Symbol)
      (hp : g.productions[p]? = some production) :
      Rewrites g (before ++ .nonterminal production.lhs :: after)
        (before ++ (production.rhs ++ after))

/-- The second sentential form is derived from the first. -/
def Yields (g : Grammar) : List Symbol → List Symbol → Prop := Relation.ReflTransGen g.Rewrites

/-- The symbols derive the empty string. -/
def Vanishes (g : Grammar) (symbols : List Symbol) : Prop := g.Yields symbols []

/-- The symbols derive something that begins with a terminal. -/
def BeginsWith (g : Grammar) (symbols : List Symbol) (kind : Kind) : Prop :=
  ∃ rest, g.Yields symbols (.terminal kind :: rest)

variable {g : Grammar} {a b c : List Symbol} {p : Nat} {production : Production}

theorem Yields.trans (h : g.Yields a b) (h' : g.Yields b c) : g.Yields a c :=
  Relation.ReflTransGen.trans h h'

theorem yields_of_production (hp : g.productions[p]? = some production) :
    g.Yields [.nonterminal production.lhs] production.rhs := by
  refine .single ?_
  simpa using Rewrites.mk [] [] hp

/-- A derivation goes on in every context. -/
theorem Yields.context (h : g.Yields a b) (before after : List Symbol) :
    g.Yields (before ++ (a ++ after)) (before ++ (b ++ after)) := by
  induction h with
  | refl => exact .refl
  | tail _ hstep ih =>
    refine ih.tail ?_
    cases hstep with
    | mk front back hp =>
      simpa using Rewrites.mk (before ++ front) (back ++ after) hp

theorem Yields.append {a' b' : List Symbol} (ha : g.Yields a a') (hb : g.Yields b b') :
    g.Yields (a ++ b) (a' ++ b') := by
  have hfirst := ha.context [] b
  have hsecond := hb.context a' []
  simp only [List.nil_append, List.append_nil] at hfirst hsecond
  exact hfirst.trans hsecond

end Grammar

/-! ## Counting members -/

theorem Kind.id_lt_count (kind : Kind) : kind.id < Kind.count :=
  (List.getElem?_eq_some_iff.1 (Kind.ofId?_id kind)).1

theorem Kind.mem_all (kind : Kind) : kind ∈ Kind.all := List.mem_of_getElem? (Kind.ofId?_id kind)

theorem Kind.exists_id_eq {i : Nat} (h : i < Kind.count) : ∃ kind : Kind, kind.id = i := by
  have hids : Kind.all.map Kind.id = List.range Kind.count := by decide +kernel
  obtain ⟨kind, -, hid⟩ := List.mem_map.1 (hids ▸ List.mem_range.2 h)
  exact ⟨kind, hid⟩

/-- Where one function is above another, and by one more at the members that are counted, so are their
sums. -/
theorem sum_add_countP_le {α : Type} (list : List α) {f g : α → Nat} {q : α → Bool}
    (h : ∀ a ∈ list, f a + (if q a then 1 else 0) ≤ g a) :
    (list.map f).sum + list.countP q ≤ (list.map g).sum := by
  induction list with
  | nil => exact Nat.le_refl _
  | cons a list ih =>
    have hfirst := h a List.mem_cons_self
    have hrest := ih fun b hb => h b (List.mem_cons_of_mem _ hb)
    rw [List.map_cons, List.sum_cons, List.map_cons, List.sum_cons, List.countP_cons]
    omega

theorem sum_le_length_mul {α : Type} (list : List α) {f : α → Nat} {n : Nat}
    (h : ∀ a ∈ list, f a ≤ n) : (list.map f).sum ≤ list.length * n := by
  induction list with
  | nil => exact Nat.zero_le _
  | cons a list ih =>
    have hfirst := h a List.mem_cons_self
    have hrest := ih fun b hb => h b (List.mem_cons_of_mem _ hb)
    rw [List.map_cons, List.sum_cons, List.length_cons, Nat.add_one_mul]
    omega

namespace TerminalSet

variable {s t : TerminalSet}

/-- All members are kinds. -/
def Proper (s : TerminalSet) : Prop := s.bits < 2 ^ Kind.count

theorem proper_empty : empty.Proper := Nat.two_pow_pos _

theorem Proper.union (hs : s.Proper) (ht : t.Proper) : (s.union t).Proper :=
  Nat.or_lt_two_pow hs ht

theorem proper_singleton (kind : Kind) : (singleton kind).Proper := by
  refine Nat.or_lt_two_pow (Nat.two_pow_pos _) ?_
  rw [Nat.one_shiftLeft]
  exact Nat.pow_lt_pow_right (by decide) kind.id_lt_count

@[simp]
theorem contains_singleton (kind other : Kind) :
    (singleton kind).contains other = decide (kind = other) := by
  simp [singleton]

theorem Proper.ext (hs : s.Proper) (ht : t.Proper)
    (h : ∀ kind, s.contains kind = t.contains kind) : s = t := by
  obtain ⟨a⟩ := s
  obtain ⟨b⟩ := t
  congr 1
  refine Nat.eq_of_testBit_eq fun i => ?_
  by_cases hi : i < Kind.count
  · obtain ⟨kind, rfl⟩ := Kind.exists_id_eq hi
    exact h kind
  · have hle : 2 ^ Kind.count ≤ 2 ^ i := Nat.pow_le_pow_right (by decide) (Nat.le_of_not_lt hi)
    rw [Nat.testBit_lt_two_pow (Nat.lt_of_lt_of_le hs hle),
      Nat.testBit_lt_two_pow (Nat.lt_of_lt_of_le ht hle)]

/-- The number of members. -/
def card (s : TerminalSet) : Nat := (Kind.all.map fun kind => (s.contains kind).toNat).sum

theorem card_le (s : TerminalSet) : s.card ≤ Kind.count := by
  have hsum := sum_le_length_mul Kind.all (f := fun kind => (s.contains kind).toNat)
    (n := 1) fun kind _ => Bool.toNat_le _
  rwa [Nat.mul_one] at hsum

/-- A set that grows has more members. -/
theorem card_lt_card_union (hs : s.Proper) (ht : t.Proper) (h : s.union t ≠ s) :
    s.card < (s.union t).card := by
  have hsum := sum_add_countP_le Kind.all (f := fun kind => (s.contains kind).toNat)
    (g := fun kind => ((s.union t).contains kind).toNat)
    (q := fun kind => t.contains kind && !s.contains kind) fun kind _ => by
      rw [contains_union]
      cases s.contains kind <;> cases t.contains kind <;> simp
  have hpos : 0 < Kind.all.countP fun kind => t.contains kind && !s.contains kind := by
    rw [List.countP_pos_iff]
    -- Otherwise the union would have the same members.
    by_cases hsome : ∃ kind, t.contains kind = true ∧ s.contains kind = false
    · obtain ⟨kind, htk, hsk⟩ := hsome
      exact ⟨kind, kind.mem_all, by simp [htk, hsk]⟩
    · refine absurd ((hs.union ht).ext hs fun kind => ?_) h
      rw [contains_union]
      cases hsk : s.contains kind with
      | true => rfl
      | false =>
        cases htk : t.contains kind with
        | false => rfl
        | true => exact absurd ⟨kind, htk, hsk⟩ hsome
  unfold card
  omega

theorem card_le_card_union (hs : s.Proper) (ht : t.Proper) : s.card ≤ (s.union t).card := by
  by_cases h : s.union t = s
  · exact Nat.le_of_eq (congrArg card h.symm)
  · exact Nat.le_of_lt (card_lt_card_union hs ht h)

end TerminalSet

/-! ## Rounds -/

namespace First

variable {g : Grammar} {n : Nat} {first : First} {p : Production}

/-- Something is known about each of `n` nonterminals. -/
structure Fits (n : Nat) (first : First) : Prop where
  nullable : first.nullable.size = n
  begins : first.begins.size = n
  proper : ∀ i, (first.begins.getD i .empty).Proper

theorem Fits.unknown (n : Nat) : (unknown n).Fits n where
  nullable := Array.size_replicate
  begins := Array.size_replicate
  proper i := by
    have hempty : (First.unknown n).begins.getD i .empty = .empty := by
      simp only [First.unknown, Array.getD_eq_getD_getElem?, Array.getElem?_replicate]
      split <;> rfl
    rw [hempty]
    exact TerminalSet.proper_empty

theorem Fits.ofSequence (h : first.Fits n) {follow : TerminalSet} (hfollow : follow.Proper)
    (symbols : List Symbol) : (first.ofSequence follow symbols).Proper := by
  induction symbols with
  | nil => exact hfollow
  | cons symbol rest ih =>
    cases symbol with
    | terminal kind => exact TerminalSet.proper_singleton kind
    | nonterminal i =>
      simp only [First.ofSequence]
      split
      · exact (h.proper i).union ih
      · exact h.proper i

theorem isNullable_absorb (h : first.Fits n) (hlhs : p.lhs < n) (i : Nat) :
    (first.absorb p).nullable.getD i false =
      (first.nullable.getD i false || (decide (i = p.lhs) && p.rhs.all first.isNullable)) := by
  simp only [absorb]
  split
  · rename_i hall
    rw [hall, Array.getD_eq_getD_getElem?, Array.getElem?_setIfInBounds]
    by_cases hi : p.lhs = i
    · subst hi
      simp [h.nullable, hlhs]
    · have hne : ¬ i = p.lhs := fun heq => hi heq.symm
      simp [hi, hne]
  · rename_i hall
    simp [hall]

theorem begins_absorb (h : first.Fits n) (hlhs : p.lhs < n) (i : Nat) :
    (first.absorb p).begins.getD i .empty =
      if i = p.lhs then (first.begins.getD i .empty).union (first.ofSequence .empty p.rhs)
      else first.begins.getD i .empty := by
  simp only [absorb, Array.getD_eq_getD_getElem?, Array.getElem?_modify]
  by_cases hi : p.lhs = i
  · subst hi
    have hlt : p.lhs < first.begins.size := h.begins ▸ hlhs
    simp [hlt]
  · have hne : ¬ i = p.lhs := fun heq => hi heq.symm
    simp [hi, hne]

theorem Fits.absorb (h : first.Fits n) (hlhs : p.lhs < n) : (first.absorb p).Fits n where
  nullable := by
    simp only [First.absorb]
    split
    · rw [Array.size_setIfInBounds, h.nullable]
    · exact h.nullable
  begins := by
    simp only [First.absorb, Array.size_modify, h.begins]
  proper i := by
    rw [begins_absorb h hlhs]
    split
    · exact (h.proper i).union (h.ofSequence TerminalSet.proper_empty p.rhs)
    · exact h.proper i

/-- What is known about a nonterminal, as a number. -/
def weight (first : First) (i : Nat) : Nat :=
  (first.nullable.getD i false).toNat + (first.begins.getD i .empty).card

/-- What is known about `n` nonterminals, as a number. -/
def measure (n : Nat) (first : First) : Nat := ((List.range n).map first.weight).sum

theorem measure_le (n : Nat) (first : First) : measure n first ≤ n * (Kind.count + 1) := by
  have hsum := sum_le_length_mul (List.range n) (f := first.weight) (n := Kind.count + 1)
    fun i _ => by
      have hcard := (first.begins.getD i .empty).card_le
      have hbool := Bool.toNat_le (first.nullable.getD i false)
      simp only [weight]
      omega
  rw [measure]
  simpa using hsum

theorem Fits.ext {other : First} (h : first.Fits n) (hother : other.Fits n)
    (hnullable : ∀ i, first.nullable.getD i false = other.nullable.getD i false)
    (hbegins : ∀ i, first.begins.getD i .empty = other.begins.getD i .empty) : first = other := by
  obtain ⟨nullable, begins⟩ := first
  obtain ⟨nullable', begins'⟩ := other
  congr 1
  · refine Array.ext (h.nullable.trans hother.nullable.symm) fun i hi hi' => ?_
    simpa [Array.getD_eq_getD_getElem?, hi, hi'] using hnullable i
  · refine Array.ext (h.begins.trans hother.begins.symm) fun i hi hi' => ?_
    simpa [Array.getD_eq_getD_getElem?, hi, hi'] using hbegins i

/-- A production adds nothing, or it adds to the measure. -/
theorem absorb_cases (h : first.Fits n) (hlhs : p.lhs < n) :
    first.absorb p = first ∨ measure n first < measure n (first.absorb p) := by
  by_cases hsame : first.absorb p = first
  · exact Or.inl hsame
  refine Or.inr ?_
  have hproper := h.ofSequence TerminalSet.proper_empty p.rhs
  have hlt : first.weight p.lhs < (first.absorb p).weight p.lhs := by
    have hcard := TerminalSet.card_le_card_union (h.proper p.lhs) hproper
    simp only [weight, isNullable_absorb h hlhs, begins_absorb h hlhs, if_true, decide_true,
      Bool.true_and]
    by_cases hbegins : (first.begins.getD p.lhs .empty).union (first.ofSequence .empty p.rhs) =
        first.begins.getD p.lhs .empty
    · -- Then the nonterminal becomes nullable, or nothing changes at all.
      by_cases hnullable : first.nullable.getD p.lhs false = false ∧
          p.rhs.all first.isNullable = true
      · rw [hnullable.1, hnullable.2, hbegins]
        simp
      · refine absurd ((h.absorb hlhs).ext h (fun i => ?_) fun i => ?_) hsame
        · rw [isNullable_absorb h hlhs]
          by_cases hi : i = p.lhs
          · subst hi
            cases hold : first.nullable.getD p.lhs false <;> simp_all
          · simp [hi]
        · rw [begins_absorb h hlhs]
          split
          · rename_i hi
            rw [hi, hbegins]
          · rfl
    · have hgrows := TerminalSet.card_lt_card_union (h.proper p.lhs) hproper hbegins
      have hbool : (first.nullable.getD p.lhs false).toNat ≤
          (first.nullable.getD p.lhs false || p.rhs.all first.isNullable).toNat := by
        cases first.nullable.getD p.lhs false <;> cases p.rhs.all first.isNullable <;> decide
      omega
  have hsum := sum_add_countP_le (List.range n) (f := first.weight)
    (g := (first.absorb p).weight) (q := fun i => i == p.lhs) fun i _ => by
      by_cases hi : i = p.lhs
      · subst hi
        simpa using Nat.succ_le_of_lt hlt
      · simp [weight, isNullable_absorb h hlhs, begins_absorb h hlhs, hi]
  have hpos : 0 < (List.range n).countP fun i => i == p.lhs :=
    List.countP_pos_iff.2 ⟨p.lhs, List.mem_range.2 hlhs, by simp⟩
  unfold measure
  omega

/-- A round changes nothing because no production does, or it adds to the measure. -/
theorem foldl_absorb_cases (productions : List Production) (h : first.Fits n)
    (hlhs : ∀ p ∈ productions, p.lhs < n) :
    (productions.foldl absorb first).Fits n ∧
      ((productions.foldl absorb first = first ∧ ∀ p ∈ productions, first.absorb p = first) ∨
        measure n first < measure n (productions.foldl absorb first)) := by
  induction productions generalizing first with
  | nil => exact ⟨h, Or.inl ⟨rfl, by simp⟩⟩
  | cons p rest ih =>
    have hp := hlhs p List.mem_cons_self
    obtain ⟨hfits, hrest⟩ := ih (h.absorb hp) fun q hq => hlhs q (List.mem_cons_of_mem _ hq)
    refine ⟨hfits, ?_⟩
    rw [List.foldl_cons]
    -- The measure never goes back, so one production that adds to it is enough.
    rcases absorb_cases h hp with hsame | hmore
    · rw [hsame] at hrest ⊢
      rcases hrest with ⟨hfold, hall⟩ | hlt
      · exact Or.inl ⟨hfold, List.forall_mem_cons.2 ⟨hsame, hall⟩⟩
      · exact Or.inr hlt
    · rcases hrest with ⟨hfold, -⟩ | hlt
      · rw [hfold]
        exact Or.inr hmore
      · exact Or.inr (Nat.lt_trans hmore hlt)

theorem round_cases (h : first.Fits g.nonterminals.size) (hg : g.WellFormed) :
    (round g first).Fits g.nonterminals.size ∧
      ((round g first = first ∧ ∀ p ∈ g.productions, first.absorb p = first) ∨
        measure g.nonterminals.size first < measure g.nonterminals.size (round g first)) := by
  have hcases := foldl_absorb_cases g.productions.toList h fun p hp => by
    obtain ⟨i, hi⟩ := Array.getElem?_of_mem (Array.mem_toList_iff.1 hp)
    exact hg.lhs_lt hi
  simp only [Array.foldl_toList, Array.mem_toList_iff] at hcases
  exact hcases

/-- With enough rounds, no production adds anything in the end. -/
theorem absorb_saturate {fuel : Nat} (h : first.Fits g.nonterminals.size) (hg : g.WellFormed)
    (hfuel : g.nonterminals.size * (Kind.count + 1) <
      measure g.nonterminals.size first + fuel) :
    (saturate g fuel first).Fits g.nonterminals.size ∧
      round g (saturate g fuel first) = saturate g fuel first ∧
      ∀ p ∈ g.productions, (saturate g fuel first).absorb p = saturate g fuel first := by
  induction fuel generalizing first with
  | zero => exact absurd hfuel (Nat.not_lt.2 (measure_le _ first))
  | succ fuel ih =>
    obtain ⟨hfits, hcases⟩ := round_cases h hg
    simp only [saturate]
    rcases hcases with ⟨hround, hall⟩ | hlt
    · rw [if_pos hround]
      exact ⟨h, hround, hall⟩
    · rw [if_neg (fun heq => Nat.lt_irrefl _ (heq ▸ hlt))]
      exact ih hfits (by omega)

theorem absorb_ofGrammar (hg : g.WellFormed) : (ofGrammar g).Fits g.nonterminals.size ∧
    round g (ofGrammar g) = ofGrammar g ∧
    ∀ p ∈ g.productions, (ofGrammar g).absorb p = ofGrammar g :=
  absorb_saturate (.unknown _) hg (by omega)

/-! ## What is known is true -/

/-- What is known agrees with derivations. -/
structure Sound (g : Grammar) (first : First) : Prop where
  nullable : ∀ i, first.nullable.getD i false = true → g.Vanishes [.nonterminal i]
  begins : ∀ i kind, (first.begins.getD i .empty).contains kind = true →
    g.BeginsWith [.nonterminal i] kind

theorem Sound.unknown (n : Nat) : (unknown n).Sound g where
  nullable i hi := by
    simp only [First.unknown, Array.getD_eq_getD_getElem?, Array.getElem?_replicate] at hi
    split at hi <;> cases hi
  begins i kind hi := by
    simp only [First.unknown, Array.getD_eq_getD_getElem?, Array.getElem?_replicate] at hi
    split at hi <;> simp at hi

theorem Sound.vanishes {symbols : List Symbol} (h : first.Sound g)
    (hall : symbols.all first.isNullable = true) : g.Vanishes symbols := by
  induction symbols with
  | nil => exact .refl
  | cons symbol rest ih =>
    rw [List.all_cons, Bool.and_eq_true] at hall
    cases symbol with
    | terminal kind => cases hall.1
    | nonterminal i => exact (h.nullable i hall.1).append (ih hall.2)

theorem Sound.beginsWith {symbols : List Symbol} {kind : Kind} (h : first.Sound g)
    (hkind : (first.ofSequence .empty symbols).contains kind = true) :
    g.BeginsWith symbols kind := by
  induction symbols with
  | nil => simp [ofSequence] at hkind
  | cons symbol rest ih =>
    cases symbol with
    | terminal other =>
      simp only [ofSequence, TerminalSet.contains_singleton, decide_eq_true_eq] at hkind
      exact ⟨rest, hkind ▸ .refl⟩
    | nonterminal i =>
      have hbegins (hkind : (first.begins.getD i .empty).contains kind = true) :
          g.BeginsWith (.nonterminal i :: rest) kind := by
        obtain ⟨more, hmore⟩ := h.begins i kind hkind
        exact ⟨more ++ rest, hmore.append .refl⟩
      simp only [ofSequence] at hkind
      split at hkind
      · rename_i hnullable
        rw [TerminalSet.contains_union, Bool.or_eq_true] at hkind
        rcases hkind with hkind | hkind
        · exact hbegins hkind
        · obtain ⟨more, hmore⟩ := ih hkind
          exact ⟨more, (h.nullable i hnullable).append hmore⟩
      · exact hbegins hkind

theorem Sound.absorb {index : Nat} (h : first.Sound g) (hfits : first.Fits n)
    (hp : g.productions[index]? = some p) (hlhs : p.lhs < n) : (first.absorb p).Sound g where
  nullable i hi := by
    rw [isNullable_absorb hfits hlhs, Bool.or_eq_true, Bool.and_eq_true, decide_eq_true_eq] at hi
    rcases hi with hi | ⟨rfl, hall⟩
    · exact h.nullable i hi
    · exact (Grammar.yields_of_production hp).trans (h.vanishes hall)
  begins i kind hi := by
    rw [begins_absorb hfits hlhs] at hi
    split at hi
    · rename_i hlhs
      subst hlhs
      rw [TerminalSet.contains_union, Bool.or_eq_true] at hi
      rcases hi with hi | hi
      · exact h.begins _ kind hi
      · obtain ⟨more, hmore⟩ := h.beginsWith hi
        exact ⟨more, (Grammar.yields_of_production hp).trans hmore⟩
    · exact h.begins i kind hi

theorem Sound.round (h : first.Sound g) (hfits : first.Fits g.nonterminals.size)
    (hg : g.WellFormed) : (round g first).Sound g := by
  unfold First.round
  refine (Array.foldl_induction
    (fun _ (first : First) => first.Sound g ∧ first.Fits g.nonterminals.size)
    ⟨h, hfits⟩ fun i first ⟨h, hfits⟩ => ?_).1
  have hp := Array.getElem?_eq_getElem i.isLt
  exact ⟨h.absorb hfits hp (hg.lhs_lt hp), hfits.absorb (hg.lhs_lt hp)⟩

theorem sound_ofGrammar (hg : g.WellFormed) : (ofGrammar g).Sound g := by
  have hsaturate (fuel : Nat) {first : First} (h : first.Sound g)
      (hfits : first.Fits g.nonterminals.size) : (saturate g fuel first).Sound g := by
    induction fuel generalizing first with
    | zero => exact h
    | succ fuel ih =>
      simp only [saturate]
      split
      · exact h
      · exact ih (h.round hfits hg) (round_cases hfits hg).1
  exact hsaturate _ (.unknown _) (.unknown _)

/-! ## All is known -/

/-- The terminals in front of a sequence, and those that follow it if it may be empty. -/
theorem contains_ofSequence (first : First) (follow : TerminalSet) (symbols : List Symbol)
    (kind : Kind) : (first.ofSequence follow symbols).contains kind =
      ((first.ofSequence .empty symbols).contains kind ||
        (symbols.all first.isNullable && follow.contains kind)) := by
  induction symbols with
  | nil => simp [ofSequence]
  | cons symbol rest ih =>
    cases symbol with
    | terminal other => simp [ofSequence, isNullable]
    | nonterminal i =>
      simp only [ofSequence, List.all_cons, isNullable]
      split
      · rename_i hnullable
        rw [TerminalSet.contains_union, TerminalSet.contains_union, ih, hnullable]
        simp [Bool.or_assoc]
      · rename_i hnullable
        simp [hnullable]

theorem ofSequence_append (first : First) (follow : TerminalSet) (a b : List Symbol) :
    first.ofSequence follow (a ++ b) = first.ofSequence (first.ofSequence follow b) a := by
  induction a with
  | nil => rfl
  | cons symbol rest ih =>
    cases symbol with
    | terminal kind => rfl
    | nonterminal i => simp only [List.cons_append, ofSequence, ih]

/-- No production adds anything. -/
def Settled (g : Grammar) (first : First) : Prop :=
  ∀ (i : Nat) (p : Production), g.productions[i]? = some p →
    (p.rhs.all first.isNullable = true → first.isNullable (.nonterminal p.lhs) = true) ∧
    ∀ kind, (first.ofSequence .empty p.rhs).contains kind = true →
      (first.begins.getD p.lhs .empty).contains kind = true

theorem settled_ofGrammar (hg : g.WellFormed) : Settled g (ofGrammar g) := by
  obtain ⟨hfits, -, hall⟩ := absorb_ofGrammar hg
  intro i p hp
  have hsame := hall p (Array.mem_of_getElem? hp)
  have hlhs := hg.lhs_lt hp
  refine ⟨fun hnullable => ?_, fun kind hkind => ?_⟩
  · have habsorb := isNullable_absorb hfits hlhs p.lhs
    rw [hsame, hnullable, decide_eq_true rfl, Bool.and_self, Bool.or_true] at habsorb
    exact habsorb
  · have habsorb := begins_absorb hfits hlhs p.lhs
    rw [hsame, if_pos rfl] at habsorb
    rw [habsorb, TerminalSet.contains_union, hkind, Bool.or_true]

/-- What can be derived is known before the first step. -/
theorem Settled.rewrites {a b : List Symbol} (h : Settled g first) (hstep : g.Rewrites a b) :
    (b.all first.isNullable = true → a.all first.isNullable = true) ∧
      ∀ kind, (first.ofSequence .empty b).contains kind = true →
        (first.ofSequence .empty a).contains kind = true := by
  cases hstep with
  | @mk index p before after hp =>
    obtain ⟨hnullable, hbegins⟩ := h index p hp
    refine ⟨fun hall => ?_, fun kind hkind => ?_⟩
    · simp only [List.all_append, List.all_cons, Bool.and_eq_true] at hall ⊢
      exact ⟨hall.1, hnullable hall.2.1, hall.2.2⟩
    · -- In front of the same rest, the nonterminal begins with all that its production does.
      have hone : (first.ofSequence .empty (p.rhs ++ after)).contains kind = true →
          (first.ofSequence .empty (.nonterminal p.lhs :: after)).contains kind = true := by
        intro hkind
        rw [ofSequence_append, contains_ofSequence, Bool.or_eq_true, Bool.and_eq_true] at hkind
        simp only [ofSequence]
        rcases hkind with hkind | ⟨hall, hkind⟩
        · split
          · rw [TerminalSet.contains_union, hbegins kind hkind, Bool.true_or]
          · exact hbegins kind hkind
        · have hlhs : first.nullable.getD p.lhs false = true := hnullable hall
          rw [if_pos hlhs, TerminalSet.contains_union, hkind, Bool.or_true]
      rw [ofSequence_append, contains_ofSequence, Bool.or_eq_true, Bool.and_eq_true] at hkind ⊢
      exact hkind.imp id fun hkind => ⟨hkind.1, hone hkind.2⟩

theorem Settled.isNullable {symbols : List Symbol} (h : Settled g first)
    (hvanishes : g.Vanishes symbols) : symbols.all first.isNullable = true := by
  induction hvanishes using Relation.ReflTransGen.head_induction_on with
  | refl => rfl
  | head hstep _ ih => exact (h.rewrites hstep).1 ih

theorem Settled.contains_ofSequence {symbols : List Symbol} {kind : Kind} (h : Settled g first)
    (hbegins : g.BeginsWith symbols kind) :
    (first.ofSequence .empty symbols).contains kind = true := by
  obtain ⟨rest, hyields⟩ := hbegins
  induction hyields using Relation.ReflTransGen.head_induction_on with
  | refl => simp [ofSequence]
  | head hstep _ ih => exact (h.rewrites hstep).2 kind ih

/-! ## First terminals of a grammar -/

theorem all_isNullable_ofGrammar (hg : g.WellFormed) (symbols : List Symbol) :
    symbols.all (ofGrammar g).isNullable = true ↔ g.Vanishes symbols :=
  ⟨(sound_ofGrammar hg).vanishes, (settled_ofGrammar hg).isNullable⟩

/-- A terminal can be next if the symbols can begin with it, or if they can be empty and it can
follow. -/
theorem contains_ofSequence_ofGrammar (hg : g.WellFormed) (follow : TerminalSet)
    (symbols : List Symbol) (kind : Kind) :
    ((ofGrammar g).ofSequence follow symbols).contains kind = true ↔
      g.BeginsWith symbols kind ∨ (g.Vanishes symbols ∧ follow.contains kind = true) := by
  rw [contains_ofSequence, Bool.or_eq_true, Bool.and_eq_true, all_isNullable_ofGrammar hg]
  exact or_congr_left ⟨(sound_ofGrammar hg).beginsWith, (settled_ofGrammar hg).contains_ofSequence⟩

/-- The rounds go on until one of them changes nothing, if there may be enough of them. -/
theorem exists_iterate_saturate (g : Grammar) (fuel : Nat) (first : First) :
    ∃ rounds, (round g)^[rounds] first = saturate g fuel first ∧
      ∀ k < rounds, round g ((round g)^[k] first) ≠ (round g)^[k] first := by
  induction fuel generalizing first with
  | zero => exact ⟨0, rfl, by simp⟩
  | succ fuel ih =>
    by_cases hsame : round g first = first
    · exact ⟨0, by simp [saturate, hsame], by simp⟩
    · obtain ⟨rounds, hrounds, hbefore⟩ := ih (round g first)
      refine ⟨rounds + 1, by simp [saturate, hsame, hrounds], fun k hk => ?_⟩
      cases k with
      | zero => exact hsame
      | succ k => exact hbefore k (Nat.lt_of_succ_lt_succ hk)

/-- Another round would change nothing, and what is known is what derivations say. -/
structure Exact (g : Grammar) (first : First) : Prop where
  settled : round g first = first
  sizes : first.nullable.size = g.nonterminals.size ∧ first.begins.size = g.nonterminals.size
  nullable : ∀ i < g.nonterminals.size,
    first.nullable.getD i false = true ↔ g.Vanishes [.nonterminal i]
  begins : ∀ i < g.nonterminals.size, ∀ kind,
    (first.begins.getD i .empty).contains kind = true ↔ g.BeginsWith [.nonterminal i] kind
  /-- A terminal that follows can be next only if every one of the symbols can be empty. -/
  sequence : ∀ follow symbols kind, (first.ofSequence follow symbols).contains kind = true ↔
    g.BeginsWith symbols kind ∨
      ((∀ symbol ∈ symbols, g.Vanishes [symbol]) ∧ follow.contains kind = true)

theorem exact_ofGrammar (hg : g.WellFormed) : Exact g (ofGrammar g) := by
  obtain ⟨hfits, hsettled, -⟩ := absorb_ofGrammar hg
  refine ⟨hsettled, ⟨hfits.nullable, hfits.begins⟩, fun i _ => ?_, fun i _ kind => ?_,
    fun follow symbols kind => ?_⟩
  · rw [← all_isNullable_ofGrammar hg, List.all_cons, List.all_nil, Bool.and_true]
    rfl
  · have hone := contains_ofSequence_ofGrammar hg .empty [.nonterminal i] kind
    have hset : (ofGrammar g).ofSequence .empty [.nonterminal i] =
        (ofGrammar g).begins.getD i .empty := by
      simp [ofSequence, TerminalSet.union, TerminalSet.empty]
    simpa [hset] using hone
  · have hall : (∀ symbol ∈ symbols, g.Vanishes [symbol]) ↔ g.Vanishes symbols := by
      rw [← all_isNullable_ofGrammar hg, List.all_eq_true]
      refine forall₂_congr fun symbol _ => ?_
      rw [← all_isNullable_ofGrammar hg, List.all_cons, List.all_nil, Bool.and_true]
    rw [hall, contains_ofSequence_ofGrammar hg]

/-- For every grammar that is built from definitions, the rounds come to one that changes nothing, and
stop at the first of them. What is known by then is exact. -/
theorem ofGrammar_exact {definitions : List Definition} {root : String}
    (h : Grammar.ofRules definitions root = .ok g) :
    (∃ rounds, (round g)^[rounds] (unknown g.nonterminals.size) = ofGrammar g ∧
      ∀ k < rounds, round g ((round g)^[k] (unknown g.nonterminals.size)) ≠
        (round g)^[k] (unknown g.nonterminals.size)) ∧ Exact g (ofGrammar g) :=
  ⟨exists_iterate_saturate g _ _, exact_ofGrammar (Grammar.wellFormed_ofRules h)⟩

/-- Items that may be none, each of them a name, or items with a comma behind them: an item can begin
with the comma, but it is never empty. -/
theorem ofGrammar_exact_items : ∃ g, Grammar.ofRules
    [.hidden "items" (.alt (.seq [.hidden "items", .hidden "item"]) .empty),
      .hidden "item" (.alt (.seq [.hidden "items", .token .comma]) (.token .ident))] "items" = .ok g ∧
    g.Vanishes [.nonterminal 1] ∧ ¬g.Vanishes [.nonterminal 2] ∧
    g.BeginsWith [.nonterminal 2] .comma ∧ ¬g.BeginsWith [.nonterminal 2] .plus := by
  obtain ⟨g, h, hsize, hitems, hitem, hcomma, hplus⟩ : ∃ g, Grammar.ofRules
      [.hidden "items" (.alt (.seq [.hidden "items", .hidden "item"]) .empty),
        .hidden "item" (.alt (.seq [.hidden "items", .token .comma]) (.token .ident))] "items" = .ok g ∧
      g.nonterminals.size = 3 ∧ (ofGrammar g).nullable.getD 1 false = true ∧
      (ofGrammar g).nullable.getD 2 false = false ∧
      ((ofGrammar g).begins.getD 2 .empty).contains .comma = true ∧
      ((ofGrammar g).begins.getD 2 .empty).contains .plus = false :=
    ⟨_, rfl, rfl, by decide +kernel, by decide +kernel, by decide +kernel, by decide +kernel⟩
  obtain ⟨-, hexact⟩ := ofGrammar_exact h
  have hnullable := hexact.nullable 2 (by omega)
  have hbegins := hexact.begins 2 (by omega)
  refine ⟨g, h, (hexact.nullable 1 (by omega)).1 hitems, fun hvanishes => ?_,
    (hbegins .comma).1 hcomma, fun hplus' => ?_⟩
  · rw [hnullable.2 hvanishes] at hitem
    cases hitem
  · rw [(hbegins .plus).2 hplus'] at hplus
    cases hplus

end First
end SqlTree
