import SqlTree.Proofs.Potential

/-!
# Parsing comes to an end

Every step that goes on either brings the parser further in the text, or is one of the few repairs
that are tried at each place, or reads a missing token that a repair asked for, or lowers the
potential of the stack. A measure puts these together, and the steps that a parse is given are more
than it.

- `Machine.Run`       : the turns taken on the way from one machine to another
- `Machine.Goes`      : what a step that goes on can do to the measure
- `Machine.step_goes` : there is nothing else
- `Machine.measure`   : a bound for the number of steps that are left
- `Machine.run_finishes` : a run with as many steps comes to its end
-/

namespace SqlTree

/-- All that has to be known about the setting of a parse. -/
structure Setting.Suits (g : Grammar) (rank : Nat → Nat) (text : List Char) (setting : Setting) :
    Prop where
  table_eq : setting.table = Table.ofGrammar g
  truthful : setting.Truthful text
  grammatical : setting.Grammatical g
  names : g.NamesNodes
  tame : g.Tame rank

/-! ## Runs -/

/-- A turn that builds something out of what has been read. -/
def Turn.isQuiet : Turn → Bool
  | .reduce _ | .split => true
  | _ => false

def Turn.isRepair : Turn → Bool
  | .repair => true
  | _ => false

namespace Machine

/-- The turns taken on the way from one machine to another. -/
inductive Run (setting : Setting) : Machine → List Turn → Machine → Prop where
  | done (m : Machine) : Run setting m [] m
  | step {m next last : Machine} {turns : List Turn} (h : m.step setting = .running next)
      (hrun : Run setting next turns last) : Run setting m ((m.turn setting).2 :: turns) last

variable {g : Grammar} {rank : Nat → Nat} {text : List Char} {m m' next : Machine}
  {setting : Setting}

/-! ## What a step does to the measure -/

/-- The potential of the stack, and one more in front of a `>>`, which may be split. -/
def potential (g : Grammar) (rank : Nat → Nat) (m : Machine) : Nat :=
  Stack.potential g rank m.stack + if (m.source.ahead 0).kind = .shr then 1 else 0

/-- What a step that goes on can do. -/
inductive Goes (g : Grammar) (rank : Nat → Nat) (m : Machine) (turn : Turn) (next : Machine) :
    Prop where
  | quiet (hturn : turn.isRepair = false)
      (hposition : next.position = m.position) (hinjected : next.injected = m.injected)
      (hrepairs : next.repairs = m.repairs)
      (hpotential : next.potential g rank < m.potential g rank)
  | advances (hturn : turn.isQuiet = false) (hposition : m.position < next.position)
      (hinjected : next.injected = none)
      (hpotential : next.potential g rank ≤ m.potential g rank + (4 * g.nonterminals.size + 6))
  | inserts (hturn : turn.isQuiet = false ∧ turn.isRepair = false)
      (hposition : next.position = m.position) (hrepairs : next.repairs = m.repairs)
      (hinjected : m.injected.isSome = true ∧ next.injected = none)
      (hpotential : next.potential g rank ≤ m.potential g rank + (4 * g.nonterminals.size + 5))
  | repairs (hturn : turn = .repair) (hposition : next.position = m.position)
      (hattempts : m.attemptsHere < maxAttempts)
      (hcount : next.attemptsHere = m.attemptsHere + 1)
      (hpotential : next.potential g rank ≤ m.potential g rank + (2 * g.nonterminals.size + 3))

theorem potential_push_le {e : Entry} {stack : Stack} :
    Stack.potential g rank (e :: stack) ≤
      Stack.potential g rank stack + (4 * g.nonterminals.size + 5) := by
  have hweight : Stack.weight g rank (e :: stack) ≤ _ := Stack.weight_cons_le e stack
  unfold Stack.potential
  split <;> split <;> omega

theorem Leaves.potential_le {stack stack' : Stack} {d : Nat} {t : List Char}
    (h : Leaves stack d t stack') :
    Stack.potential g rank stack' ≤
      Stack.potential g rank stack + (2 * g.nonterminals.size + 3) := by
  have hkept : Stack.weight g rank (stack.drop d) ≤ Stack.weight g rank stack := by
    rw [← List.take_append_drop d stack, Stack.weight_append]
    simp
  have hweight : Stack.weight g rank stack' ≤ Stack.weight g rank stack := by
    cases h with
    | nothing => exact hkept
    | error _ hextra => simpa [Stack.weight, hextra] using hkept
  unfold Stack.potential
  split <;> split <;> omega

/-- The place in the text, told by what has been read. -/
theorem Faithful.position_lt {t : List Char} (h : m.Faithful text) (hnext : next.Faithful text)
    (hstack : Stack.text next.stack = Stack.text m.stack ++ t) (ht : t ≠ []) :
    m.position < next.position := by
  have hpos : 0 < Text.size t := Nat.pos_of_ne_zero fun hzero =>
    ht (Text.eq_nil_of_size_eq_zero hzero)
  rw [h.position_eq, hnext.position_eq, hstack, Text.size_append]
  omega

theorem Faithful.content_ne_nil (h : m.Faithful text) (hne : (m.source.ahead 0).kind ≠ .eof) :
    (m.source.ahead 0).content ≠ [] := by
  intro hnil
  rw [Lexeme.content, List.append_eq_nil_iff] at hnil
  exact hne (h.sound.text_eq_nil_iff.1 hnil.2)

theorem goes_split (hkind : (m.source.ahead 0).kind = .shr) (hbuffer : m.source.buffer ≠ []) :
    m.Goes g rank .split { m with source := m.source.splitShift } := by
  have hahead := Source.ahead_splitShift hbuffer hkind
  refine .quiet rfl ?_ rfl rfl ?_
  · simp only [position, hahead]
  · simp [potential, hahead, hkind]

/-- Where a token is shifted, it is not the end of the input. -/
theorem kind_ne_eof_of_shift {kind : Kind} {state : Nat} (htable : setting.table = Table.ofGrammar g)
    (htame : g.Tame rank) (hinjected : m.injected = none)
    (hmem : (kind, .shift state) ∈ candidates setting.table m.topState m.lookahead) :
    (m.source.ahead 0).kind ≠ .eof := by
  intro heof
  obtain ⟨haction, hreading⟩ := mem_candidates hmem
  have hlookahead : m.lookahead = .eof := by simp [lookahead, hinjected, heof]
  rw [hlookahead] at hreading
  rcases hreading with rfl | ⟨-, hcontextual⟩
  · exact htame.not_leads_eof (Table.leads_of_shift (htable ▸ haction))
  · cases hcontextual

theorem goes_shift {kind : Kind} {state : Nat} (h : m.Faithful text)
    (htable : setting.table = Table.ofGrammar g) (htame : g.Tame rank)
    (hmem : (kind, .shift state) ∈ candidates setting.table m.topState m.lookahead) :
    m.Goes g rank (.shift kind state) (m.shift kind state) := by
  have hfaithful := h.shift kind state
  unfold Machine.shift at hfaithful ⊢
  split
  · rename_i hsome
    rw [if_pos hsome, shiftMissing_eq] at *
    refine .inserts ⟨rfl, rfl⟩ ?_ rfl ⟨hsome, rfl⟩ ?_
    · simp only [position, Source.ahead_peek]
    · have hpush : Stack.potential g rank (m.missingEntry kind state :: m.stack) ≤ _ :=
        potential_push_le
      simp only [potential, Source.ahead_peek]
      omega
  · rename_i hnone
    have hinjected : m.injected = none := by simpa using hnone
    have hne := kind_ne_eof_of_shift htable htame hinjected hmem
    rw [if_neg hnone, shiftToken_eq] at *
    refine .advances rfl (h.position_lt hfaithful (Stack.text_cons _ _) ?_) hinjected ?_
    · rw [tokenEntry_text]
      exact h.content_ne_nil hne
    · have hpush : Stack.potential g rank (m.tokenEntry kind state :: m.stack) ≤ _ :=
        potential_push_le
      simp only [potential]
      split <;> split <;> omega

theorem goes_takeOver (h : m.Faithful text) (htruthful : setting.Truthful text)
    (hinjected : m.injected = none) (htaken : m.takeOver? setting m.topState = some next) :
    m.Goes g rank (.takeOver next) next := by
  have hfaithful := h.takeOver htruthful htaken
  obtain ⟨reuse, old, state, hreuse, hfind, -, rfl⟩ := takeOver?_spec htaken
  refine .advances rfl (h.position_lt hfaithful (Stack.text_cons _ _) ?_) hinjected ?_
  · have hsize := Reuse.size_pos_of_find? hfind
    rw [← Element.size_text] at hsize
    intro hnil
    have holdText : old.text = [] := by
      simpa [Entry.text, oldEntry] using (List.append_eq_nil_iff.1 hnil).2
    simp [holdText] at hsize
  · have hpush : Stack.potential g rank (m.oldEntry old state :: m.stack) ≤ _ :=
      potential_push_le
    simp only [potential]
    split <;> split <;> omega

theorem goes_reduce {production : Nat} (h : m.Reduces g production next) (htame : g.Tame rank) :
    m.Goes g rank (.reduce next) next := by
  have hpotential := h.potential_lt htame
  have hahead : next.source.ahead 0 = m.source.ahead 0 := by
    cases h
    exact Source.ahead_peek _ _ _
  have hframe : next.injected = m.injected ∧ next.repairs = m.repairs := by
    cases h
    exact ⟨rfl, rfl⟩
  refine .quiet rfl (by simp only [position, hahead]) hframe.1 hframe.2 ?_
  simp only [potential, hahead]
  omega

/-- Skipping tokens gets on, and not skipping any leaves the parser where it is. -/
theorem goes_skip {m₁ : Machine} {skipped depth : Nat} (h : m.Faithful text)
    (h₁ : m₁.Faithful text) (hstack : m₁.stack = m.stack)
    (hahead : m₁.source.ahead 0 = m.source.ahead 0) (hinjected : m₁.injected = none)
    (hposition : m₁.repairs.position = some m.position)
    (hcount : m₁.repairs.attempts = m.attemptsHere + 1)
    (hskipped : maxAttempts ≤ m.attemptsHere → 0 < skipped)
    (heof : ∀ i < skipped, (m.source.ahead i).kind ≠ .eof) :
    m.Goes g rank .repair (m₁.skip skipped depth) := by
  have hfaithful := h₁.skip skipped depth
  obtain ⟨d, t, hskips⟩ := skip_skips h₁.source_at h₁.formed skipped depth
  have hpotential : Stack.potential g rank (m₁.skip skipped depth).stack ≤ _ :=
    hskips.stack.potential_le
  rw [hstack] at hpotential
  rcases Nat.eq_zero_or_pos skipped with hzero | hpos
  · obtain ⟨-, n, hsource⟩ := hskips.none hzero
    have hsame : (m₁.skip skipped depth).source.ahead 0 = m.source.ahead 0 := by
      rw [hsource, Source.ahead_fetchMany, hahead]
    have hplace : (m₁.skip skipped depth).position = m.position := by
      simp only [position, hsame]
    refine .repairs rfl hplace ?_ ?_ ?_
    · exact Nat.lt_of_not_le fun hge => Nat.lt_irrefl 0 (hzero ▸ hskipped hge)
    · rw [attemptsHere, hskips.frame.2.1, hplace, if_pos hposition, hcount]
    · simp only [potential, hsame]
      omega
  · obtain ⟨more, ht⟩ := hskips.some hpos
    refine .advances rfl (h.position_lt hfaithful (hstack ▸ hskips.stack.text_eq) ?_)
      (hskips.frame.1.trans hinjected) ?_
    · rw [ht, hahead]
      exact List.append_ne_nil_of_left_ne_nil (h.content_ne_nil (heof 0 hpos)) _
    · simp only [potential]
      split <;> split <;> omega

theorem goes_recover (h : m.Faithful text) (hrecover : m.recover? setting = some next) :
    m.Goes g rank .repair next := by
  have hrepaired := recover?_repaired setting m
  rw [hrecover] at hrepaired
  have hsame (n : Nat) : (m.looked n).source.ahead 0 = m.source.ahead 0 :=
    Source.ahead_fetchMany _ _ _
  cases hrepaired with
  | inserted hattempts hposition hcount =>
    refine .repairs rfl ?_ hattempts ?_ ?_
    · simp only [position, hsame]
    · simp only [attemptsHere, position, hsame] at hposition hcount ⊢
      rw [if_pos hposition, hcount]
    · simp only [potential, hsame]
      exact Nat.le_add_right _ _
  | @skipped n skipped depth repairs diagnostic hposition hcount hskipped heof =>
    have hlooked : Faithful text { m.looked n with injected := none, repairs := repairs } :=
      (h.looked n).congr rfl rfl
    have hgoes : m.Goes g rank .repair
        (skip { m.looked n with injected := none, repairs := repairs } skipped depth) :=
      goes_skip h hlooked rfl (hsame n) rfl hposition hcount hskipped heof
    cases hgoes with
    | quiet hturn => cases hturn
    | advances hturn hposition hinjected hpotential =>
      exact .advances hturn hposition hinjected hpotential
    | inserts hturn => cases hturn.2
    | repairs hturn hposition hattempts hcount hpotential =>
      exact .repairs hturn hposition hattempts hcount hpotential

/-- What a turn does if the parse goes on. -/
theorem Takes.goes {turn : Turn} (htakes : m.Takes setting turn)
    (hperform : m.perform setting turn = .running next) (h : m.Faithful text)
    (hgrammatical : m.Grammatical g) (htable : setting.table = Table.ofGrammar g)
    (htruthful : setting.Truthful text) (htame : g.Tame rank) : m.Goes g rank turn next := by
  cases htakes with
  | accept => cases hperform
  | split _ hkind hbuffer =>
    cases hperform
    exact goes_split hkind hbuffer
  | shift hmem =>
    cases hperform
    exact goes_shift h htable htame hmem
  | takeOver hinjected htaken =>
    cases hperform
    exact goes_takeOver h htruthful hinjected htaken
  | reduce hmem hreduced =>
    cases hperform
    exact goes_reduce (hgrammatical.reduces h htable hmem hreduced) htame
  | repair =>
    simp only [perform, repairOrEnd] at hperform
    split at hperform
    · rename_i repaired hrecover
      cases hperform
      exact goes_recover h hrecover
    · cases hperform

/-- What a step does if the parse goes on. -/
theorem step_goes (hstep : m.step setting = .running next) (h : m.Faithful text)
    (hgrammatical : m.Grammatical g) (htable : setting.table = Table.ofGrammar g)
    (htruthful : setting.Truthful text) (htame : g.Tame rank) :
    m.Goes g rank (m.turn setting).2 next := by
  obtain ⟨n, fork, htakes, hcases⟩ := step_cases setting m
  have hgoes := htakes.goes (hcases ▸ hstep) ((h.looked n).congr rfl rfl)
    (hgrammatical.congr rfl) htable htruthful htame
  -- Looking ahead changes nothing of what counts.
  have hahead : (m.looked n).source.ahead 0 = m.source.ahead 0 := Source.ahead_fetchMany _ _ _
  have hposition : position { m.looked n with forkPending := fork } = m.position := by
    simp only [position, hahead]
  have hpotential : potential g rank { m.looked n with forkPending := fork } =
      m.potential g rank := by
    simp only [potential, hahead]
    rfl
  have hattempts : attemptsHere { m.looked n with forkPending := fork } = m.attemptsHere := by
    simp only [attemptsHere, hposition]
    rfl
  cases hgoes with
  | quiet h₁ h₂ h₃ h₄ h₅ => exact .quiet h₁ (hposition ▸ h₂) h₃ h₄ (hpotential ▸ h₅)
  | advances h₁ h₂ h₃ h₄ => exact .advances h₁ (hposition ▸ h₂) h₃ (hpotential ▸ h₄)
  | inserts h₁ h₂ h₃ h₄ h₅ => exact .inserts h₁ (hposition ▸ h₂) h₃ h₄ (hpotential ▸ h₅)
  | repairs h₁ h₂ h₃ h₄ h₅ =>
    exact .repairs h₁ (hposition ▸ h₂) (hattempts ▸ h₃) (hattempts ▸ h₄) (hpotential ▸ h₅)

/-! ## The measure -/

/-- More than the number of steps that are left in a text of `size` bytes. -/
def measure (g : Grammar) (rank : Nat → Nat) (size : Nat) (m : Machine) : Nat :=
  (58 * g.nonterminals.size + 97) * (size - m.position) +
    (6 * g.nonterminals.size + 10) * (maxAttempts + 1 - m.attemptsHere) +
    (if m.injected.isSome then 4 * g.nonterminals.size + 6 else 0) + m.potential g rank

theorem Goes.measure_lt {turn : Turn} {size : Nat} (h : m.Goes g rank turn next)
    (hsize : next.position ≤ size) : next.measure g rank size < m.measure g rank size := by
  have hmax : maxAttempts = 8 := rfl
  have hsame (hposition : next.position = m.position) (hrepairs : next.repairs = m.repairs) :
      next.attemptsHere = m.attemptsHere := by
    simp only [attemptsHere, hposition, hrepairs]
  unfold measure
  cases h with
  | quiet _ hposition hinjected hrepairs hpotential =>
    rw [hposition, hinjected, hsame hposition hrepairs]
    omega
  | advances _ hposition hinjected hpotential =>
    have hfar : (58 * g.nonterminals.size + 97) * (size - next.position + 1) ≤
        (58 * g.nonterminals.size + 97) * (size - m.position) :=
      Nat.mul_le_mul_left _ (by omega)
    have htries : (6 * g.nonterminals.size + 10) * (maxAttempts + 1 - next.attemptsHere) ≤
        (6 * g.nonterminals.size + 10) * 9 := Nat.mul_le_mul_left _ (by omega)
    rw [Nat.mul_succ] at hfar
    rw [hinjected]
    simp only [Option.isSome_none, Bool.false_eq_true, if_false]
    omega
  | inserts _ hposition hrepairs hinjected hpotential =>
    rw [hposition, hsame hposition hrepairs, hinjected.2, if_pos hinjected.1]
    simp only [Option.isSome_none, Bool.false_eq_true, if_false]
    omega
  | repairs _ hposition hattempts hcount hpotential =>
    have htries : (6 * g.nonterminals.size + 10) * (maxAttempts + 1 - next.attemptsHere + 1) ≤
        (6 * g.nonterminals.size + 10) * (maxAttempts + 1 - m.attemptsHere) :=
      Nat.mul_le_mul_left _ (by omega)
    rw [Nat.mul_succ] at htries
    rw [hposition]
    split <;> split <;> omega

/-! ## Whole runs -/

/-- All that has to be known about a machine. -/
structure Regular (g : Grammar) (text : List Char) (m : Machine) : Prop where
  faithful : m.Faithful text
  grammatical : m.Grammatical g

theorem Regular.start (g : Grammar) (text : List Char) (firstId : Nat) :
    (Machine.start text firstId).Regular g text :=
  ⟨.start text firstId, .start g text firstId⟩

variable {turns : List Turn}

theorem Regular.step (h : m.Regular g text) (hsuits : setting.Suits g rank text) :
    (m.step setting).machine.Regular g text where
  faithful := h.faithful.step hsuits.truthful
  grammatical := h.grammatical.step h.faithful hsuits.table_eq hsuits.names hsuits.grammatical

theorem Regular.running (h : m.Regular g text) (hsuits : setting.Suits g rank text)
    (hstep : m.step setting = .running next) : next.Regular g text := by
  have hnext := h.step hsuits
  rwa [hstep] at hnext

theorem Regular.goes (h : m.Regular g text) (hsuits : setting.Suits g rank text)
    (hstep : m.step setting = .running next) : m.Goes g rank (m.turn setting).2 next :=
  step_goes hstep h.faithful h.grammatical hsuits.table_eq hsuits.truthful hsuits.tame

theorem Regular.position_le (h : m.Regular g text) : m.position ≤ Text.size text := by
  have htext := h.faithful.source_at.text_eq
  rw [h.faithful.position_eq, ← h.faithful.text_eq, htext, Text.size_append]
  omega

/-- What the steps of a run keep is kept by the run. -/
theorem Run.invariant {first : Machine} {turns : List Turn} {I : Machine → Prop}
    (hrun : Run setting first turns m) (h : I first)
    (hstep : ∀ {turns : List Turn} {m next : Machine}, Run setting first turns m →
      m.step setting = .running next → I m → I next) : I m := by
  induction hrun with
  | done first => exact h
  | step hfirst _ ih => exact ih (hstep (.done _) hfirst h) fun hrun => hstep (.step hfirst hrun)

theorem Run.regular (hrun : Run setting m turns m') (h : m.Regular g text)
    (hsuits : setting.Suits g rank text) : m'.Regular g text := by
  induction hrun with
  | done m => exact h
  | step hstep _ ih => exact ih (h.running hsuits hstep)

/-- A run with more steps than the measure comes to its end. -/
theorem run_finishes (fuel : Nat) (h : m.Regular g text) (hsuits : setting.Suits g rank text)
    (hfuel : m.measure g rank (Text.size text) < fuel) :
    ∃ turns m' last, Run setting m turns m' ∧ m'.step setting = .finished last ∧
      turns.length < fuel ∧ m.run setting fuel = last := by
  induction fuel generalizing m with
  | zero => exact absurd hfuel (Nat.not_lt_zero _)
  | succ fuel ih =>
    cases hstep : m.step setting with
    | finished last =>
      exact ⟨[], m, last, .done m, hstep, Nat.succ_pos _, by simp only [run, hstep]⟩
    | running next =>
      have hnext := h.running hsuits hstep
      have hlt := (h.goes hsuits hstep).measure_lt hnext.position_le
      obtain ⟨turns, m', last, hrun, hlast, hlength, heq⟩ := ih hnext (by omega)
      refine ⟨_, m', last, .step hstep hrun, hlast, Nat.succ_lt_succ hlength, ?_⟩
      simp only [run, hstep]
      exact heq

theorem measure_start_lt (g : Grammar) (rank : Nat → Nat) (text : List Char) (firstId : Nat) :
    (Machine.start text firstId).measure g rank (Text.size text) <
      maxSteps (Table.ofGrammar g) (Text.size text) := by
  have hgrammar : (Table.ofGrammar g).grammar = g := rfl
  have hpotential : (Machine.start text firstId).potential g rank ≤
      2 * g.nonterminals.size + 4 := by
    have hweight : Stack.weight g rank (Machine.start text firstId).stack = 0 := by
      simp [Stack.weight, Machine.start, Entry.bottom, Grammar.weightAt, g.accessing_zero]
    rw [potential, Stack.potential, hweight]
    split <;> split <;> omega
  have hfar : (58 * g.nonterminals.size + 97) *
      (Text.size text - (Machine.start text firstId).position) ≤
      1000 * (g.nonterminals.size + 2) * Text.size text :=
    Nat.mul_le_mul (by omega) (Nat.sub_le _ _)
  have htries : (6 * g.nonterminals.size + 10) *
      (maxAttempts + 1 - (Machine.start text firstId).attemptsHere) ≤
      (6 * g.nonterminals.size + 10) * 9 :=
    Nat.mul_le_mul_left _ (Nat.sub_le _ _)
  have hsquare : 1000 * (g.nonterminals.size + 2) * (Text.size text + 2) ≤
      1000 * (g.nonterminals.size + 2) * (Text.size text + 2) * (Text.size text + 2) :=
    Nat.le_mul_of_pos_right _ (by omega)
  have hsum := Nat.mul_add (1000 * (g.nonterminals.size + 2)) (Text.size text) 2
  have hinjected : (Machine.start text firstId).injected.isSome = false := rfl
  rw [measure, maxSteps, hgrammar, hinjected, if_neg Bool.false_ne_true]
  omega

/-- A parse ends before its steps are used up. -/
theorem exists_run (hsuits : setting.Suits g rank text) (firstId : Nat) :
    ∃ turns m last, Run setting (Machine.start text firstId) turns m ∧
      m.step setting = .finished last ∧
      turns.length < maxSteps setting.table (Text.size text) ∧
      Tree.parseWith setting text firstId = last.finish text := by
  obtain ⟨turns, m, last, hrun, hstep, hlength, hlast⟩ :=
    run_finishes (maxSteps setting.table (Text.size text)) (.start g text firstId) hsuits (by
      rw [hsuits.table_eq]
      exact measure_start_lt g rank text firstId)
  refine ⟨turns, m, last, hrun, hstep, hlength, ?_⟩
  rw [← hlast]
  rfl

/-! ## Between two tokens -/

/-- The place in the text never goes back. -/
theorem Run.position_le (hrun : Run setting m turns m') (h : m.Regular g text)
    (hsuits : setting.Suits g rank text) : m.position ≤ m'.position := by
  induction hrun with
  | done m => exact Nat.le_refl _
  | step hstep _ ih =>
    have hrest := ih (h.running hsuits hstep)
    cases h.goes hsuits hstep with
    | quiet _ hposition => omega
    | advances _ hposition => omega
    | inserts _ hposition => omega
    | repairs _ hposition => omega

/-- Turns that only build something are bounded by the potential. -/
theorem Run.length_le (hrun : Run setting m turns m') (h : m.Regular g text)
    (hsuits : setting.Suits g rank text) (hquiet : ∀ turn ∈ turns, turn.isQuiet = true) :
    turns.length + m'.potential g rank ≤ m.potential g rank := by
  induction hrun with
  | done m => simp
  | @step m next last turns hstep _ ih =>
    have hrest := ih (h.running hsuits hstep) fun turn hturn =>
      hquiet turn (List.mem_cons_of_mem _ hturn)
    have hfirst := hquiet _ List.mem_cons_self
    rw [List.length_cons]
    cases h.goes hsuits hstep with
    | quiet _ _ _ _ hpotential => omega
    | advances hturn =>
      rw [hturn] at hfirst
      cases hfirst
    | inserts hturn =>
      rw [hturn.1] at hfirst
      cases hfirst
    | repairs hturn =>
      rw [hturn] at hfirst
      cases hfirst

/-- As long as the place stays the same, every repair counts. -/
theorem Run.attemptsHere_eq (hrun : Run setting m turns m') (h : m.Regular g text)
    (hsuits : setting.Suits g rank text) (hposition : m'.position = m.position) :
    m'.attemptsHere = m.attemptsHere + turns.countP Turn.isRepair ∧
      (0 < turns.countP Turn.isRepair → m'.attemptsHere ≤ maxAttempts) := by
  induction hrun with
  | done m => simp
  | @step m next last turns hstep hrun ih =>
    have hnext := h.running hsuits hstep
    have hle := hrun.position_le hnext hsuits
    have hsame (hplace : next.position = m.position) (hrepairs : next.repairs = m.repairs) :
        next.attemptsHere = m.attemptsHere := by
      simp only [attemptsHere, hplace, hrepairs]
    rw [List.countP_cons]
    cases h.goes hsuits hstep with
    | quiet hturn hplace _ hrepairs =>
      have hrest := ih hnext (hposition.trans hplace.symm)
      rw [hsame hplace hrepairs] at hrest
      simpa [hturn] using hrest
    | advances _ hplace => omega
    | inserts hturn hplace hrepairs =>
      have hrest := ih hnext (hposition.trans hplace.symm)
      rw [hsame hplace hrepairs] at hrest
      simpa [hturn.2] using hrest
    | repairs hturn hplace hattempts hcount =>
      have hrest := ih hnext (hposition.trans hplace.symm)
      rw [hturn, Turn.isRepair, if_pos rfl]
      omega

/-- At most nine repairs are begun at one place, and the ninth ends the parse or leaves the place. -/
theorem Run.countP_repair_le (hrun : Run setting m turns m') (h : m.Regular g text)
    (hsuits : setting.Suits g rank text) (hposition : m'.position = m.position) :
    (turns ++ [(m'.turn setting).2]).countP Turn.isRepair ≤ maxAttempts + 1 ∧
      ((turns ++ [(m'.turn setting).2]).countP Turn.isRepair = maxAttempts + 1 →
        (∃ last, m'.step setting = .finished last) ∨
        ∃ next, m'.step setting = .running next ∧ m'.position < next.position) := by
  obtain ⟨hcount, hle⟩ := hrun.attemptsHere_eq h hsuits hposition
  have hsum : (turns ++ [(m'.turn setting).2]).countP Turn.isRepair =
      turns.countP Turn.isRepair + if (m'.turn setting).2.isRepair then 1 else 0 := by
    rw [List.countP_append, List.countP_singleton]
  have hbefore : turns.countP Turn.isRepair ≤ maxAttempts := by
    rcases Nat.eq_zero_or_pos (turns.countP Turn.isRepair) with hzero | hpos
    · omega
    · have := hle hpos
      omega
  refine ⟨by rw [hsum]; split <;> omega, fun hnine => ?_⟩
  rw [hsum] at hnine
  -- The ninth is begun after eight that left the parser where it was.
  have hturn : (m'.turn setting).2.isRepair = true := by
    by_cases hturn : (m'.turn setting).2.isRepair = true
    · exact hturn
    · rw [if_neg hturn] at hnine
      omega
  rw [if_pos hturn] at hnine
  have hspent : maxAttempts ≤ m'.attemptsHere := by omega
  cases hstep : m'.step setting with
  | finished last => exact Or.inl ⟨last, rfl⟩
  | running next =>
    refine Or.inr ⟨next, rfl, ?_⟩
    cases (hrun.regular h hsuits).goes hsuits hstep with
    | quiet hquiet =>
      rw [hquiet] at hturn
      cases hturn
    | advances _ hadvance => exact hadvance
    | inserts hinserts =>
      rw [hinserts.2] at hturn
      cases hturn
    | repairs _ _ hattempts => omega

theorem potential_le (m : Machine) : m.potential g rank ≤
    (m.stack.length + 1) * (2 * g.nonterminals.size + 3) + 1 := by
  have hstack : Stack.potential g rank m.stack ≤ _ := Stack.potential_le m.stack
  unfold potential
  split <;> omega

end Machine
end SqlTree
