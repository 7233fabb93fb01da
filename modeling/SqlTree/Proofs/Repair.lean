import SqlTree.Proofs.Turn

/-!
# What a repair can lead to

A repair looks ahead and then either ends the parse, asks for a missing token, or skips tokens and
entries. It always counts as an attempt at the current token, and if the parse goes on it reports
something at that token. What was asked for before is not asked for again.

- `Machine.attemptsHere` : the repairs made at the current token so far
- `Machine.Repaired`     : the outcomes of a repair
- `Machine.recover?_repaired` : there are no others
-/

namespace SqlTree
namespace Machine

/-- The repairs made at the current token so far. -/
def attemptsHere (m : Machine) : Nat :=
  if m.repairs.position = some m.position then m.repairs.attempts else 0

/-- What a repair leads to. -/
inductive Repaired (setting : Setting) (m : Machine) : Option Machine → Prop where
  | ended (hattempts : maxAttempts ≤ m.attemptsHere) (heof : (m.source.ahead 0).kind = .eof) :
      Repaired setting m none
  | inserted {n : Nat} {kind : Kind} {repairs : Repairs} {diagnostic : Diagnostic}
      (hattempts : m.attemptsHere < maxAttempts)
      (hposition : repairs.position = some m.position)
      (hcount : repairs.attempts = m.attemptsHere + 1)
      (hkind : kind ∈ insertions setting.table m.topState) (hinjected : m.injected = none)
      (hspan : diagnostic.span = Span.empty m.position)
      (hrelated : diagnostic.related = openedAt m.stack kind) :
      Repaired setting m (some { m.looked n with
        injected := some kind
        repairs := repairs
        diagnostics := m.diagnostics ++ [diagnostic] })
  | skipped {n skipped depth : Nat} {repairs : Repairs} {diagnostic : Diagnostic}
      (hposition : repairs.position = some m.position)
      (hcount : repairs.attempts = m.attemptsHere + 1)
      (hskipped : maxAttempts ≤ m.attemptsHere → 0 < skipped)
      (heof : ∀ i < skipped, (m.source.ahead i).kind ≠ .eof)
      (hdepth : skipped = 0 → (0 < depth ∧ 1 < m.stack.length) ∨
        (m.stack.length ≤ 1 ∧ (m.source.ahead 0).kind = .eof))
      (hspan : diagnostic.span = (m.source.ahead 0).span) (hrelated : diagnostic.related = []) :
      Repaired setting m (some
        (({ m.looked n with injected := none, repairs := repairs }.skip skipped depth).report
          diagnostic))

/-! ## Missing tokens -/

theorem firstFitting?_spec (setting : Setting) (kinds : List Kind) (m : Machine) :
    (∀ kind ∈ (firstFitting? setting kinds m).1, kind ∈ kinds) ∧
      ∃ n, (firstFitting? setting kinds m).2 = m.looked n := by
  induction kinds generalizing m with
  | nil => exact ⟨by simp [firstFitting?], 0, rfl⟩
  | cons kind rest ih =>
    obtain ⟨n, hn⟩ := simulate_snd setting m
      { injected := some kind, limit := 2 + setting.options.recoveryValidation }
      (Overlay.ofStack m.stack)
    simp only [firstFitting?]
    split
    · exact ⟨by simp, n, hn⟩
    · obtain ⟨hmem, k, hk⟩ := ih _
      refine ⟨fun kind h => List.mem_cons_of_mem _ (hmem kind h), n + k, ?_⟩
      rw [hk, hn, looked_looked]

theorem tryInsert_spec (setting : Setting) (m : Machine) (current : Lexeme) :
    (∃ n, m.tryInsert setting current = (false, m.looked n)) ∨
      ∃ n, ∃ kind ∈ insertions setting.table m.topState, ∃ diagnostic : Diagnostic,
        diagnostic.span = Span.empty current.fullStart ∧
        diagnostic.related = openedAt m.stack kind ∧
        m.tryInsert setting current = (true, { m.looked n with
          injected := some kind
          repairs := { m.repairs with insertions := m.repairs.insertions + 1 }
          diagnostics := m.diagnostics ++ [diagnostic] }) := by
  obtain ⟨hmem, n, hn⟩ :=
    firstFitting?_spec setting (insertions setting.table m.topState) m
  unfold tryInsert
  cases hfound : firstFitting? setting (insertions setting.table m.topState) m with
  | mk found m' =>
    simp only [hfound] at hmem hn
    subst hn
    cases found with
    | none => exact Or.inl ⟨n, rfl⟩
    | some kind => exact Or.inr ⟨n, kind, hmem kind rfl, _, rfl, rfl, rfl⟩

/-! ## Resuming -/

/-- The search for a depth finds one of those given, and only looks ahead. -/
theorem resumeFrom?_spec (setting : Setting) (kind : Kind) (skipped trials : Nat)
    (depths : List Nat) (m : Machine) :
    (∀ depth ∈ (resumeFrom? setting kind skipped trials depths m).1, depth ∈ depths) ∧
      ∃ n, (resumeFrom? setting kind skipped trials depths m).2 = m.looked n := by
  induction depths generalizing trials m with
  | nil => cases trials <;> exact ⟨by simp [resumeFrom?], 0, rfl⟩
  | cons depth depths ih =>
    cases trials with
    | zero => exact ⟨by simp [resumeFrom?], 0, rfl⟩
    | succ trials =>
      obtain ⟨n, hn⟩ := simulate_snd setting m
        { skipped := skipped, limit := 1 + setting.options.recoveryValidation }
        (Overlay.popped m.stack depth)
      simp only [resumeFrom?]
      split
      · exact ⟨by simp, 0, rfl⟩
      · split
        · split
          · exact ⟨by simp, n, hn⟩
          · obtain ⟨hmem, k, hk⟩ := ih trials _
            exact ⟨fun d hd => List.mem_cons_of_mem _ (hmem d hd), n + k,
              by rw [hk, hn, looked_looked]⟩
        · obtain ⟨hmem, hlooked⟩ := ih (trials + 1) m
          exact ⟨fun d hd => List.mem_cons_of_mem _ (hmem d hd), hlooked⟩

theorem resumeDepth?_spec (setting : Setting) (m : Machine) (depths : List Nat) (skipped : Nat) :
    (∀ depth ∈ (m.resumeDepth? setting depths skipped).1, depth ∈ depths) ∧
      ∃ n, (m.resumeDepth? setting depths skipped).2 = m.looked n := by
  simp only [resumeDepth?, peek_eq]
  obtain ⟨hmem, k, hk⟩ := resumeFrom?_spec setting (m.source.ahead skipped).kind skipped
    maxResumeTrials depths (m.looked (skipped + 1 - m.source.buffer.length))
  exact ⟨hmem, _, by rw [hk, looked_looked]⟩

/-- Whatever is skipped, it is reported at the current token. -/
theorem reportSkip_eq (table : Table) (m : Machine) (first : Lexeme) :
    ∃ diagnostic : Diagnostic, diagnostic.span = first.span ∧ diagnostic.related = [] ∧
      m.reportSkip table first = m.report diagnostic := by
  unfold reportSkip
  split
  · exact ⟨_, rfl, rfl, rfl⟩
  · exact ⟨_, rfl, rfl, rfl⟩

theorem applySkip_eq (table : Table) (m : Machine) (skipped depth : Nat) (current : Lexeme) :
    ∃ (repairs : Repairs) (diagnostic : Diagnostic), repairs.position = m.repairs.position ∧
      repairs.attempts = m.repairs.attempts ∧ diagnostic.span = current.span ∧
      diagnostic.related = [] ∧
      m.applySkip table skipped depth current =
        ({ m with repairs := repairs }.skip skipped depth).report diagnostic := by
  unfold applySkip
  split
  · exact ⟨{ m.repairs with popped := true }, _, rfl, rfl, rfl, rfl, rfl⟩
  · obtain ⟨diagnostic, hspan, hrelated, heq⟩ :=
      reportSkip_eq table (m.skip skipped depth) current
    exact ⟨m.repairs, diagnostic, rfl, rfl, hspan, hrelated, heq⟩

/-- However far the search goes, it ends by skipping, and never past the end of the input. -/
theorem resynchronizeFrom_spec (setting : Setting) (context : Context) (current : Lexeme)
    (fuel skipped : Nat) (m : Machine) (heof : ∀ i < skipped, (m.source.ahead i).kind ≠ .eof)
    (hfuel : 0 < fuel + skipped) :
    ∃ n skipped' depth, (∀ i < skipped', (m.source.ahead i).kind ≠ .eof) ∧
      (skipped' = 0 → (0 < depth ∧ 1 < m.stack.length) ∨
        (m.stack.length ≤ 1 ∧ (m.source.ahead 0).kind = .eof)) ∧
      resynchronizeFrom setting context current fuel skipped m =
        (m.looked n).applySkip setting.table skipped' depth current := by
  induction fuel generalizing skipped m with
  | zero => exact ⟨0, skipped, _, heof, fun hzero => by omega, rfl⟩
  | succ fuel ih =>
    simp only [resynchronizeFrom, peek_eq]
    generalize hlook : m.looked (skipped + 1 - m.source.buffer.length) = m₁
    have hhere : ((if 0 < skipped then m₁.resumeDepth? setting [0] skipped
        else (none, m₁)).1.isSome → 0 < skipped) ∧
        ∃ n, (if 0 < skipped then m₁.resumeDepth? setting [0] skipped
          else (none, m₁)).2 = m₁.looked n := by
      split
      · rename_i hpos
        exact ⟨fun _ => hpos, (resumeDepth?_spec setting m₁ [0] skipped).2⟩
      · exact ⟨by simp, 0, rfl⟩
    generalize (if 0 < skipped then m₁.resumeDepth? setting [0] skipped else (none, m₁)) = here
      at hhere
    obtain ⟨hhere, n, hn⟩ := hhere
    have hm₂ : here.2 = m.looked (skipped + 1 - m.source.buffer.length + n) := by
      rw [hn, ← hlook, looked_looked]
    split
    · rename_i hsome
      have hpos := hhere hsome
      exact ⟨_, skipped, 0, heof, by omega, by rw [hm₂]⟩
    · generalize hdeep : (if ((boundaries.contains (m.source.ahead skipped).kind ||
          context.resumeTokens.contains (m.source.ahead skipped).kind) &&
          (decide (0 < skipped) || !here.2.repairs.popped)) = true then
          here.2.resumeDepth? setting ((List.range here.2.stack.length).drop 1) skipped
        else (none, here.2)) = deep
      have hm₃ : (∀ depth ∈ deep.1, 0 < depth ∧ 1 < m.stack.length) ∧ ∃ k, deep.2 = m.looked k := by
        rw [← hdeep]
        split
        · obtain ⟨hmem, k, hk⟩ := resumeDepth?_spec setting here.2
            ((List.range here.2.stack.length).drop 1) skipped
          refine ⟨fun depth hdepth => ?_, _, by rw [hk, hm₂, looked_looked]⟩
          -- Without its first member, a range holds no zero.
          obtain ⟨i, hi⟩ := List.mem_iff_getElem?.1 (hmem depth hdepth)
          rw [List.getElem?_drop, List.getElem?_eq_some_iff] at hi
          obtain ⟨hlt, hi⟩ := hi
          rw [List.getElem_range] at hi
          rw [List.length_range, hm₂] at hlt
          exact ⟨by omega, Nat.lt_of_le_of_lt (Nat.le_add_right 1 i) hlt⟩
        · exact ⟨by simp, _, hm₂⟩
      obtain ⟨hdepth, k, hk⟩ := hm₃
      split
      · rename_i depth hsome
        exact ⟨k, skipped, _, heof, fun _ => .inl (hdepth depth hsome), by rw [hk]⟩
      · split
        · rename_i hend
          refine ⟨k, skipped, m.stack.length - 1, heof, fun hzero => ?_, ?_⟩
          · rw [hzero] at hend
            rcases Nat.lt_or_ge 1 m.stack.length with hlt | hle
            · exact .inl ⟨by omega, hlt⟩
            · exact .inr ⟨hle, hend⟩
          · rw [hk]
            rfl
        · rename_i hne
          have hahead (i : Nat) : deep.2.source.ahead i = m.source.ahead i := by
            rw [hk]
            simp only [looked, Source.ahead_fetchMany]
          obtain ⟨n', skipped', depth, heof', hpopped, heq⟩ := ih (skipped + 1) deep.2 (by
            intro i hi
            rw [hahead]
            rcases Nat.lt_succ_iff_lt_or_eq.1 hi with hi | rfl
            · exact heof i hi
            · exact hne) (by omega)
          refine ⟨k + n', skipped', depth, fun i hi => ?_, fun hzero => ?_, ?_⟩
          · rw [← hahead]
            exact heof' i hi
          · rw [hahead, hk] at hpopped
            exact hpopped hzero
          · rw [heq, hk, looked_looked]

theorem resynchronize_spec (setting : Setting) (m : Machine) (current : Lexeme) :
    ∃ (n skipped depth : Nat) (repairs : Repairs) (diagnostic : Diagnostic),
      repairs.position = m.repairs.position ∧ repairs.attempts = m.repairs.attempts ∧
      (∀ i < skipped, (m.source.ahead i).kind ≠ .eof) ∧
      (skipped = 0 → (0 < depth ∧ 1 < m.stack.length) ∨
        (m.stack.length ≤ 1 ∧ (m.source.ahead 0).kind = .eof)) ∧
      diagnostic.span = current.span ∧ diagnostic.related = [] ∧
      m.resynchronize setting current =
        ({ m.looked n with repairs := repairs }.skip skipped depth).report diagnostic := by
  obtain ⟨n, skipped, depth, heof, hdepth, heq⟩ := resynchronizeFrom_spec setting
    (m.context setting.table) current (m.source.size + 1) 0 m (by simp) (by omega)
  obtain ⟨repairs, diagnostic, hposition, hattempts, hspan, hrelated, hskip⟩ :=
    applySkip_eq setting.table (m.looked n) skipped depth current
  exact ⟨n, skipped, depth, repairs, diagnostic, hposition, hattempts, heof, hdepth, hspan, hrelated,
    heq.trans hskip⟩

/-! ## Repairs at one place -/

theorem beginRepair_eq (m : Machine) (current : Lexeme) (hcurrent : current.fullStart = m.position) :
    ∃ repairs : Repairs, repairs.position = some m.position ∧
      repairs.attempts = m.attemptsHere + 1 ∧
      m.beginRepair current = { m with repairs := repairs } := by
  simp only [beginRepair, attemptsHere, hcurrent]
  split
  · rename_i h
    exact ⟨{ m.repairs with attempts := m.repairs.attempts + 1 }, h, rfl, rfl⟩
  · exact ⟨_, rfl, rfl, rfl⟩

theorem dropInjected_eq (options : Options) (m : Machine) :
    ∃ repairs : Repairs, repairs.position = m.repairs.position ∧
      repairs.attempts = m.repairs.attempts ∧
      (repairs.insertions < options.maxInsertions → m.injected = none) ∧
      m.dropInjected options = { m with injected := none, repairs := repairs } := by
  unfold dropInjected
  split
  · exact ⟨{ m.repairs with insertions := options.maxInsertions }, rfl, rfl,
      fun h => absurd h (Nat.lt_irrefl _), rfl⟩
  · rename_i h
    have hnone : m.injected = none := by simpa using h
    exact ⟨m.repairs, rfl, rfl, fun _ => hnone, by rw [← hnone]⟩

theorem recover?_repaired (setting : Setting) (m : Machine) :
    m.Repaired setting (m.recover? setting) := by
  unfold recover?
  simp only [peek_eq]
  generalize 0 + 1 - m.source.buffer.length = n
  have hposition : (m.looked n).position = m.position := by
    simp only [position, looked, Source.ahead_fetchMany]
  have hattempts : (m.looked n).attemptsHere = m.attemptsHere := by
    simp only [attemptsHere, hposition]
    rfl
  obtain ⟨r₁, hpos₁, hatt₁, hbegin⟩ :=
    beginRepair_eq (m.looked n) (m.source.ahead 0) hposition.symm
  rw [hbegin]
  obtain ⟨r₂, hpos₂, hatt₂, hins₂, hdrop⟩ :=
    dropInjected_eq setting.options { m.looked n with repairs := r₁ }
  rw [hdrop]
  simp only at hpos₂ hatt₂
  rw [hpos₁, hposition] at hpos₂
  rw [hatt₁, hattempts] at hatt₂
  have hresynchronize (m' : Machine) (k : Nat)
      (hm' : m' = looked { m.looked n with injected := none, repairs := r₂ } k)
      (hlow : m.attemptsHere < maxAttempts) :
      m.Repaired setting (some (m'.resynchronize setting (m.source.ahead 0))) := by
    obtain ⟨j, skipped, depth, r₃, diagnostic, hpos₃, hatt₃, heof, hdepth, hspan, hrelated, heq⟩ :=
      resynchronize_spec setting m' (m.source.ahead 0)
    have hlooked : { m'.looked j with repairs := r₃ } =
        { m.looked (n + k + j) with injected := none, repairs := r₃ } := by
      simp only [hm', looked, Source.fetchMany_fetchMany]
    rw [heq, hlooked]
    rw [hm'] at hpos₃ hatt₃ heof hdepth
    refine Repaired.skipped (hpos₃.trans hpos₂) (hatt₃.trans hatt₂) (fun h => ?_) ?_ ?_ hspan
      hrelated
    · exact absurd hlow (Nat.not_lt.2 h)
    · simpa only [looked, Source.ahead_fetchMany] using heof
    · simpa only [looked, Source.ahead_fetchMany] using hdepth
  split
  · rename_i hhigh
    split
    · rename_i heof
      exact .ended (by simp only [hatt₂] at hhigh; omega) heof
    · rename_i hne
      have hone : ∀ i < 1, (m.source.ahead i).kind ≠ .eof := by
        intro i hi
        obtain rfl : i = 0 := by omega
        exact hne
      obtain ⟨diagnostic, hspan, hrelated, hreport⟩ := reportSkip_eq setting.table
        (skip { m.looked n with injected := none, repairs := r₂ } 1 0) (m.source.ahead 0)
      rw [hreport]
      exact .skipped hpos₂ hatt₂ (fun _ => Nat.one_pos) hone (by simp) hspan hrelated
  · rename_i hlow
    have hlow : m.attemptsHere < maxAttempts := by
      simp only [hatt₂] at hlow
      omega
    split
    · rename_i hfew
      simp only [Bool.and_eq_true, decide_eq_true_eq] at hfew
      rcases tryInsert_spec setting { m.looked n with injected := none, repairs := r₂ }
        (m.source.ahead 0) with ⟨k, hk⟩ | ⟨k, kind, hkind, diagnostic, hspan, hrelated, hk⟩
      · rw [hk]
        exact hresynchronize _ k rfl hlow
      · have hlooked : looked { m.looked n with injected := none, repairs := r₂ } k =
            { m.looked (n + k) with injected := none, repairs := r₂ } := by
          simp only [looked, Source.fetchMany_fetchMany]
        rw [hk, hlooked]
        exact .inserted hlow hpos₂ hatt₂ hkind (hins₂ hfew.2) hspan hrelated
    · exact hresynchronize _ 0 rfl hlow

end Machine
end SqlTree
