import Mathlib.Data.List.Forall2
import SqlTree.Proofs.Erasure

/-!
# Diagnostics and what they are about

Every node that a repair leaves goes with a diagnostic of its own, which is reported when the repair is
made: that of a missing token says where it is missing, and that of skipped tokens points to the first
of them. A missing token that is asked for and dropped again leaves a diagnostic without a node, but
never one in a tree that has no fault at all.

- `Span.Within`, `Diagnostic.Within` : ranges inside a text, between characters
- `Machine.Located`   : all that is reported lies inside the text
- `Machine.SkipsInto` : a repair that skips tokens into an error
- `Explains`          : a diagnostic that goes with a fault
- `Machine.Explained` : the account of faults and diagnostics that a step keeps
- `BigQuery.faults_have_diagnostics` : the account for all trees of a session
-/

namespace SqlTree

open Element (faultsAllAt sizeAll)

/-! ## Ranges -/

/-- A range that lies inside a text and does not cut through a character. -/
structure Span.Within (text : List Char) (s : Span) : Prop where
  ordered : s.start ≤ s.stop
  inside : s.stop ≤ Text.size text
  start : Text.isBoundary s.start text = true
  stop : Text.isBoundary s.stop text = true

/-- The range of a diagnostic and the further ones lie inside a text. -/
def Diagnostic.Within (text : List Char) (d : Diagnostic) : Prop :=
  d.span.Within text ∧ ∀ related ∈ d.related, related.span.Within text

theorem Span.within_of_append {text before middle after : List Char}
    (h : text = before ++ (middle ++ after)) :
    Span.Within text ⟨Text.size before, Text.size before + Text.size middle⟩ := by
  refine ⟨Nat.le_add_right _ _, ?_, ?_, ?_⟩
  · rw [h, Text.size_append, Text.size_append]
    dsimp only
    omega
  · rw [h]
    exact Text.isBoundary_size_append _ _
  · rw [h, ← List.append_assoc, ← Text.size_append]
    exact Text.isBoundary_size_append _ _

namespace Entry

/-- The range of an entry that holds one token lies inside a text. -/
def Located (text : List Char) (e : Entry) : Prop :=
  ∀ id kind content, e.elements = [.token id kind content] → Span.Within text ⟨e.start, e.stop⟩

theorem Located.join {text : List Char} {e child : Entry} (he : e.Located text)
    (hchild : child.Located text) : (e.join child).Located text := by
  intro id kind content helements
  unfold Entry.join at helements ⊢
  cases hel : e.elements with
  | nil =>
    simp only [hel, List.isEmpty_nil, if_true] at helements
    simpa [helements] using hchild id kind content helements
  | cons first rest =>
    -- The token is the one that was there, and nothing has come behind it.
    simp only [hel, List.isEmpty_cons, Bool.false_eq_true, if_false, List.cons_append,
      List.cons.injEq, List.append_eq_nil_iff] at helements
    obtain ⟨rfl, ⟨rfl, -⟩, hnil⟩ := helements
    simpa [hnil] using he id kind content hel

theorem located_ofChildren {text : List Char} {children : List Entry} (state offset : Nat)
    (h : ∀ child ∈ children, child.Located text) :
    (ofChildren state children offset).Located text :=
  ofChildren_of_join state offset (by simp [Located]) fun _ child hchild he => he.join (h child hchild)

end Entry

/-- Tokens are not taken over. -/
theorem Reuse.isToken_of_find? {reuse : Reuse} {table : Table} {state offset : Nat} {old : Element}
    (h : reuse.find? table state offset = some old) : old.isToken = false := by
  obtain ⟨place, -, h⟩ := Option.bind_eq_some_iff.1 h
  obtain ⟨v, hfind, rfl⟩ := Option.map_eq_some_iff.1 h
  have hcond := List.find?_some hfind
  simp only [Bool.and_eq_true] at hcond
  have hfits := hcond.2
  unfold Reuse.fits at hfits
  cases hv : v.element with
  | token => simp [hv, Element.origin?] at hfits
  | node => rfl

namespace Machine

variable {g : Grammar} {rank : Nat → Nat} {text : List Char} {m m' next : Machine}
  {setting : Setting}

/-- All that has been reported lies inside the text, and so do the tokens to which a report may
point. -/
structure Located (text : List Char) (m : Machine) : Prop where
  diagnostics : ∀ d ∈ m.diagnostics, d.Within text
  entries : ∀ e ∈ m.stack, e.Located text

theorem Located.start (text : List Char) (firstId : Nat) :
    (Machine.start text firstId).Located text where
  diagnostics := by simp [Machine.start]
  entries e he := by
    obtain rfl := List.mem_singleton.1 he
    simp [Entry.Located, Entry.bottom]

theorem Located.push {entry : Entry} (h : m.Located text) (hstack : m'.stack = entry :: m.stack)
    (hdiagnostics : m'.diagnostics = m.diagnostics) (hentry : entry.Located text) :
    m'.Located text := by
  refine ⟨hdiagnostics ▸ h.diagnostics, ?_⟩
  rw [hstack]
  exact List.forall_mem_cons.2 ⟨hentry, h.entries⟩

theorem Located.report {d : Diagnostic} (h : m.Located text) (hstack : m'.stack = m.stack)
    (hdiagnostics : m'.diagnostics = m.diagnostics ++ [d]) (hd : d.Within text) :
    m'.Located text := by
  refine ⟨fun d' hd' => ?_, hstack ▸ h.entries⟩
  rw [hdiagnostics] at hd'
  rcases List.mem_append.1 hd' with hd' | hd'
  · exact h.diagnostics d' hd'
  · obtain rfl := List.mem_singleton.1 hd'
    exact hd

/-- The current token lies inside the text. -/
theorem Faithful.span_within (h : m.Faithful text) : (m.source.ahead 0).span.Within text := by
  have hat := (h.source_at.peek 0).text_eq
  have hstart : (m.source.ahead 0).start = _ := h.source_at.front.2.2.1
  rw [Source.pending, Source.buffer_peek_zero, Lexeme.contents_cons, Lexeme.content,
    Source.peek_snd, Source.fetchMany_text, h.text_eq] at hat
  have hbefore : (m.source.ahead 0).start =
      Text.size (Stack.text m.stack ++ Lexeme.spell (m.source.ahead 0).leading) := by
    rw [hstart, Text.size_append]
    rfl
  simp only [List.append_assoc] at hat
  rw [← List.append_assoc] at hat
  simp only [Lexeme.span, Lexeme.stop, hbefore]
  exact Span.within_of_append hat

theorem Faithful.empty_within (h : m.Faithful text) : (Span.empty m.position).Within text := by
  have hat : text = Stack.text m.stack ++ ([] ++ m.source.pending) := by
    rw [← h.text_eq]
    exact h.source_at.text_eq
  rw [h.position_eq]
  exact Span.within_of_append hat

/-- An unclosed bracket is an entry of the stack that holds one token. -/
theorem exists_of_unclosed? {opener closer : Kind} {closed : Nat} {stack : Stack} {span : Span}
    (h : unclosed? opener closer closed stack = some span) :
    ∃ e ∈ stack, (∃ id kind content, e.elements = [.token id kind content]) ∧
      span = ⟨e.start, e.stop⟩ := by
  induction stack generalizing closed with
  | nil => cases h
  | cons entry below ih =>
    have hlater {closed : Nat} (h : unclosed? opener closer closed below = some span) :
        ∃ e ∈ entry :: below, (∃ id kind content, e.elements = [.token id kind content]) ∧
          span = ⟨e.start, e.stop⟩ := by
      obtain ⟨e, he, hspec⟩ := ih h
      exact ⟨e, List.mem_cons_of_mem _ he, hspec⟩
    rw [unclosed?.eq_def] at h
    dsimp only at h
    split at h
    · rename_i id kind content helements
      split at h
      · exact hlater h
      · split at h
        · split at h
          · cases h
            exact ⟨entry, List.mem_cons_self, ⟨id, kind, content, helements⟩, rfl⟩
          · exact hlater h
        · exact hlater h
    · exact hlater h

theorem Located.openedAt (h : m.Located text) (kind : Kind) :
    ∀ related ∈ openedAt m.stack kind, related.span.Within text := by
  intro related hrelated
  unfold Machine.openedAt at hrelated
  split at hrelated
  · cases hrelated
  · split at hrelated
    · rename_i span hspan
      obtain rfl := List.mem_singleton.1 hrelated
      obtain ⟨e, he, ⟨id, kind, content, helements⟩, rfl⟩ := exists_of_unclosed? hspan
      exact h.entries e he id kind content helements
    · cases hrelated

theorem Located.shift (h : m.Located text) (hfaithful : m.Faithful text) (kind : Kind) (state : Nat) :
    (m.shift kind state).Located text := by
  unfold Machine.shift
  split
  · rw [shiftMissing_eq]
    exact h.push rfl rfl (by simp [Entry.Located, missingEntry])
  · rw [shiftToken_eq]
    exact h.push rfl rfl fun _ _ _ _ => hfaithful.span_within

theorem Located.takeOver {state : Nat} (h : m.Located text)
    (htaken : m.takeOver? setting state = some m') : m'.Located text := by
  obtain ⟨reuse, old, next, -, hfind, -, rfl⟩ := takeOver?_spec htaken
  refine h.push rfl rfl fun id kind content helements => ?_
  obtain rfl : old = .token id kind content := by simpa [oldEntry] using helements
  cases Reuse.isToken_of_find? hfind

theorem Located.reduce {production : Nat} (h : m.Located text)
    (hreduced : m.reduce? setting production = some m') : m'.Located text := by
  obtain ⟨p, extras, children, below, next, entry, nextId, -, hstack, -, -, -, -, -, hmakes, rfl⟩ :=
    reduce?_spec hreduced
  have hchildren : ∀ e ∈ children, e.Located text := fun e he => h.entries e (by simp [hstack, he])
  refine ⟨h.diagnostics, fun e he => ?_⟩
  rcases mem_reduced he with ⟨old, hold, heq⟩ | rfl
  · have hmem : old ∈ m.stack := by
      rw [hstack]
      rcases List.mem_append.1 hold with hold | hold <;> simp [hold]
    rw [heq]
    exact h.entries old hmem
  · cases hmakes with
    | hidden => exact Entry.located_ofChildren next m.position hchildren
    | visible => simp [Entry.Located]

theorem Located.skip (h : m.Located text) (hformed : ∀ e ∈ m.stack, e.Formed)
    (skipped depth : Nat) : (m.skip skipped depth).Located text := by
  obtain ⟨d, -, hskip⟩ := skip_eq hformed skipped depth
  have hframe := skipInto_frame skipped (m.poppedEntry d)
    ({ m with stack := m.stack.drop d }.peek 0).2
  have hstack : (m.gathered skipped d).2.stack = m.stack.drop d := by
    rw [gathered, hframe]
    rfl
  have hdiagnostics : (m.gathered skipped d).2.diagnostics = m.diagnostics := by
    rw [gathered, hframe]
    rfl
  have hdrop : ∀ e ∈ m.stack.drop d, e.Located text :=
    fun e he => h.entries e (List.mem_of_mem_drop he)
  rcases hskip with ⟨-, hskip⟩ | ⟨-, hskip⟩
  · rw [hskip]
    exact ⟨hdiagnostics ▸ h.diagnostics, hstack ▸ hdrop⟩
  · rw [hskip]
    refine ⟨hdiagnostics ▸ h.diagnostics, ?_⟩
    rw [hstack]
    exact List.forall_mem_cons.2 ⟨by simp [Entry.Located], hdrop⟩

theorem Located.recover (h : m.Located text) (hfaithful : m.Faithful text)
    (hrecover : m.recover? setting = some m') : m'.Located text := by
  have hrepaired := recover?_repaired setting m
  rw [hrecover] at hrepaired
  cases hrepaired with
  | @inserted n kind repairs diagnostic _ _ _ _ _ hspan hrelated =>
    refine h.report rfl rfl ⟨hspan ▸ hfaithful.empty_within, ?_⟩
    rw [hrelated]
    exact h.openedAt kind
  | @skipped n skipped depth repairs diagnostic _ _ _ _ _ hspan hrelated =>
    have hlooked : Located text { m.looked n with injected := none, repairs := repairs } :=
      ⟨h.diagnostics, h.entries⟩
    refine (hlooked.skip hfaithful.formed skipped depth).report rfl rfl
      ⟨hspan ▸ hfaithful.span_within, ?_⟩
    simp [hrelated]

/-- A step keeps all that is reported inside the text. -/
theorem Located.step (h : m.Located text) (hfaithful : m.Faithful text) :
    (m.step setting).machine.Located text := by
  refine step_keeps (J := fun m => m.Faithful text ∧ m.Located text)
    (fun n _ => ⟨(hfaithful.looked n).congr rfl rfl, ⟨h.diagnostics, h.entries⟩⟩) (fun _ h => h.2) ?_
  rintro m next ⟨hfaithful, h⟩ heffect
  cases heffect with
  | split => exact ⟨h.diagnostics, h.entries⟩
  | shift => exact h.shift hfaithful _ _
  | takeOver _ htaken => exact h.takeOver htaken
  | reduce _ hreduced => exact h.reduce hreduced
  | repair hrecover => exact h.recover hfaithful hrecover

/-! ## Numbers of elements -/

theorem nextId_le_skipInto (n : Nat) (e : Entry) (m : Machine) :
    m.nextId ≤ (skipInto n e m).2.nextId := by
  induction n generalizing e m with
  | zero => exact Nat.le_refl _
  | succ n ih =>
    simp only [skipInto]
    refine Nat.le_trans ?_ (ih _ _)
    simp only [newToken, newTokens, bump]
    omega

theorem nextId_le_gathered (m : Machine) (skipped d : Nat) :
    m.nextId ≤ (m.gathered skipped d).2.nextId :=
  nextId_le_skipInto skipped (m.poppedEntry d) ({ m with stack := m.stack.drop d }.peek 0).2

theorem nextId_le_skip (hformed : ∀ e ∈ m.stack, e.Formed) (skipped depth : Nat) :
    m.nextId ≤ (m.skip skipped depth).nextId := by
  obtain ⟨d, -, hskip⟩ := skip_eq hformed skipped depth
  have hle := m.nextId_le_gathered skipped d
  rcases hskip with ⟨-, hskip⟩ | ⟨-, hskip⟩
  · rw [hskip]
    exact hle
  · rw [hskip]
    exact Nat.le_succ_of_le hle

theorem nextId_le_reduce? {production : Nat} (h : m.reduce? setting production = some m') :
    m.nextId ≤ m'.nextId := by
  obtain ⟨p, -, h⟩ := Option.bind_eq_some_iff.1 h
  obtain ⟨⟨children, below⟩, -, h⟩ := Option.bind_eq_some_iff.1 h
  obtain ⟨next, -, rfl⟩ := Option.map_eq_some_iff.1 h
  simp only [peek, wrap]
  split
  · exact Nat.le_refl _
  · exact Nat.le_succ _

/-- Numbers are given out upwards. -/
theorem nextId_le_step (hfaithful : m.Faithful text) (hstep : m.step setting = .running next) :
    m.nextId ≤ next.nextId := by
  obtain ⟨n, fork, heffect⟩ := effect_of_step hstep
  have hid : m.nextId = nextId { m.looked n with forkPending := fork } := rfl
  have hfaithful : Faithful text { m.looked n with forkPending := fork } :=
    (hfaithful.looked n).congr rfl rfl
  rw [hid]
  generalize { m.looked n with forkPending := fork } = m₁ at hfaithful heffect
  cases heffect with
  | split => exact Nat.le_refl _
  | shift =>
    unfold Machine.shift
    split
    · exact Nat.le_add_right _ 2
    · rw [shiftToken_eq]
      simp only
      omega
  | takeOver _ htaken =>
    obtain ⟨_, _, _, -, -, -, rfl⟩ := takeOver?_spec htaken
    exact Nat.le_add_right _ _
  | reduce _ hreduced => exact nextId_le_reduce? hreduced
  | repair hrecover =>
    have hrepaired := recover?_repaired setting m₁
    rw [hrecover] at hrepaired
    cases hrepaired with
    | inserted => exact Nat.le_refl _
    | @skipped n skipped depth repairs diagnostic =>
      have hformed : ∀ e ∈ stack { m₁.looked n with injected := none, repairs := repairs },
        e.Formed := hfaithful.formed
      exact nextId_le_skip hformed skipped depth

theorem Run.nextId_le {turns : List Turn} (hrun : Run setting m turns m') (h : m.Regular g text)
    (hsuits : setting.Suits g rank text) : m.nextId ≤ m'.nextId := by
  induction hrun with
  | done m => exact Nat.le_refl _
  | step hstep _ ih =>
    exact Nat.le_trans (nextId_le_step h.faithful hstep) (ih (h.running hsuits hstep))

/-- Of two runs from one machine, one goes on where the other ends. -/
theorem Run.linear {first : Machine} {turns turns' : List Turn} (h : Run setting first turns m)
    (h' : Run setting first turns' m') :
    m = m' ∨ (∃ next rest, m.step setting = .running next ∧ Run setting next rest m') ∨
      ∃ next rest, m'.step setting = .running next ∧ Run setting next rest m := by
  induction h generalizing turns' with
  | done first =>
    cases h' with
    | done => exact Or.inl rfl
    | step hstep hrun => exact Or.inr (Or.inl ⟨_, _, hstep, hrun⟩)
  | @step first next m turns hstep hrun ih =>
    cases h' with
    | done => exact Or.inr (Or.inr ⟨_, _, hstep, hrun⟩)
    | step hstep' hrun' =>
      rw [hstep] at hstep'
      cases hstep'
      exact ih hrun'

/-! ## Errors into which tokens are skipped -/

/-- In a parse that begins with `first`, recovery skips tokens into the error with a certain number: a
repair gets further in the text and leaves that error on top of the stack. -/
def SkipsInto (setting : Setting) (first : Machine) (id : Nat) : Prop :=
  ∃ turns m next entry below children, Run setting first turns m ∧
    m.step setting = .running next ∧ (m.turn setting).2 = .repair ∧ m.position < next.position ∧
    next.stack = entry :: below ∧ entry.elements = [.node id .error none children]

/-- The outcome of a repair after which the parse goes on. -/
theorem repaired_of_step (hstep : m.step setting = .running next)
    (hturn : (m.turn setting).2 = .repair) :
    ∃ n fork, Repaired setting { m.looked n with forkPending := fork } (some next) := by
  obtain ⟨n, fork, -, hcases⟩ := step_cases setting m
  refine ⟨n, fork, ?_⟩
  rw [hcases, hturn] at hstep
  simp only [perform, repairOrEnd] at hstep
  split at hstep
  · rename_i repaired hrecover
    cases hstep
    exact hrecover ▸ recover?_repaired setting { m.looked n with forkPending := fork }
  · cases hstep

/-- Without skipping a token, the parser stays where it is. -/
theorem position_skip_zero (h : m.Faithful text) (depth : Nat) :
    (m.skip 0 depth).position = m.position := by
  obtain ⟨d, t, hskips⟩ := skip_skips h.source_at h.formed 0 depth
  obtain ⟨-, n, hsource⟩ := hskips.none rfl
  simp only [position, hsource, Source.ahead_fetchMany]

/-- A repair that gets further numbers the error that it leaves. -/
theorem id_of_repair {entry : Entry} {below : Stack} {id : Nat} {children : List Element}
    (hfaithful : m.Faithful text) (hstep : m.step setting = .running next)
    (hturn : (m.turn setting).2 = .repair) (hposition : m.position < next.position)
    (hstack : next.stack = entry :: below)
    (helements : entry.elements = [.node id .error none children]) :
    m.nextId ≤ id ∧ id < next.nextId := by
  obtain ⟨n, fork, hrepaired⟩ := repaired_of_step hstep hturn
  cases hrepaired with
  | inserted =>
    -- Asking for a missing token gets no further.
    simp only [position, looked, Source.ahead_fetchMany] at hposition
    exact absurd hposition (Nat.lt_irrefl _)
  | @skipped k skipped depth repairs diagnostic =>
    generalize hm₁ : ({ looked { m.looked n with forkPending := fork } k with
      injected := none, repairs := repairs } : Machine) = m₁ at hposition hstack
    have hfaithful₁ : m₁.Faithful text := by
      rw [← hm₁]
      exact ((((hfaithful.looked n).congr rfl rfl : Faithful text { m.looked n with
        forkPending := fork })).looked k).congr rfl rfl
    have hplace : m₁.position = m.position := by
      rw [← hm₁]
      simp only [position, looked, Source.ahead_fetchMany]
    have hid : m₁.nextId = m.nextId := by
      rw [← hm₁]
      rfl
    obtain ⟨d, -, hskip⟩ := skip_eq hfaithful₁.formed skipped depth
    have hle := m₁.nextId_le_gathered skipped d
    rcases hskip with ⟨hnil, -⟩ | ⟨-, hskip⟩
    · rcases Nat.eq_zero_or_pos skipped with rfl | hpos
      · rw [← hplace, ← position_skip_zero hfaithful₁ depth] at hposition
        exact absurd hposition (Nat.lt_irrefl _)
      · exact absurd (List.append_eq_nil_iff.1 hnil).2 (m₁.gathered_ne_nil_of_pos hpos d)
    · rw [hskip] at hstack ⊢
      obtain ⟨rfl, -⟩ := List.cons.inj hstack
      obtain rfl : (m₁.gathered skipped d).2.nextId = id := by
        simp only [List.cons.injEq, Element.node.injEq] at helements
        exact helements.1.1
      exact ⟨hid ▸ hle, Nat.lt_succ_self _⟩

/-- The step that makes an element is the only one that can skip tokens into it. -/
theorem SkipsInto.position_lt {first : Machine} {turns : List Turn} {id : Nat}
    (h : SkipsInto setting first id) (hfirst : first.Regular g text)
    (hsuits : setting.Suits g rank text) (hrun : Run setting first turns m)
    (hstep : m.step setting = .running next) (hlow : m.nextId ≤ id) (hhigh : id < next.nextId) :
    m.position < next.position := by
  obtain ⟨turns', m', next', entry, below, children, hrun', hstep', hturn, hposition, hstack,
    helements⟩ := h
  have hregular := hrun.regular hfirst hsuits
  have hregular' := hrun'.regular hfirst hsuits
  obtain ⟨hlow', hhigh'⟩ :=
    id_of_repair hregular'.faithful hstep' hturn hposition hstack helements
  rcases hrun.linear hrun' with rfl | ⟨middle, rest, hmiddle, hlater⟩ | ⟨middle, rest, hmiddle, hlater⟩
  · rw [hstep] at hstep'
    cases hstep'
    exact hposition
  · -- The other step comes later and has no number left to give.
    rw [hstep] at hmiddle
    cases hmiddle
    have hle := hlater.nextId_le (hregular.running hsuits hstep) hsuits
    omega
  · rw [hstep'] at hmiddle
    cases hmiddle
    have hle := hlater.nextId_le (hregular'.running hsuits hstep') hsuits
    omega

end Machine

/-! ## Diagnostics for faults -/

/-- A diagnostic goes with a fault at byte `start`: that of a missing token is empty and in its place,
and that of an error into which tokens were skipped has the range of a token directly below it. -/
structure Explains (skips : Nat → Prop) (start : Nat) (fault : Element) (d : Diagnostic) : Prop where
  missing : fault.kind = .missing → d.span = Span.empty start
  error : fault.kind = .error → skips fault.id → ∃ before token after,
    fault.children = before ++ token :: after ∧ token.isToken = true ∧
      d.span = ⟨start + sizeAll before, start + sizeAll before + token.size⟩

/-- One more pair somewhere inside. -/
theorem forall₂_insert {α β : Type} {R : α → β → Prop} {front back : List α} {bs : List β} {a : α}
    {b : β} (h : List.Forall₂ R (front ++ back) bs) (hab : R a b) :
    ∃ bs', List.Forall₂ R (front ++ a :: back) bs' ∧ bs'.Perm (b :: bs) := by
  induction front generalizing bs with
  | nil => exact ⟨b :: bs, .cons hab h, .refl _⟩
  | cons first front ih =>
    cases h with
    | @cons _ b₀ _ bs₀ hfirst hrest =>
      obtain ⟨bs', hbs', hperm⟩ := ih hrest
      exact ⟨b₀ :: bs', .cons hfirst hbs', (hperm.cons b₀).trans (.swap b b₀ bs₀)⟩

namespace Machine

variable {g : Grammar} {rank : Nat → Nat} {text : List Char} {m m' next : Machine}
  {setting : Setting} {skips : Nat → Prop}

/-- The account of faults and diagnostics. Every fault has a diagnostic of its own, and if a missing
token has been asked for, its diagnostic is still to spare. Before the first fault nothing has been
reported, except for a first missing token that has just been asked for. -/
structure Explained (skips : Nat → Prop) (m : Machine) : Prop where
  assigned : ∃ assigned spare, m.diagnostics.Perm (assigned ++ spare) ∧
    List.Forall₂ (fun fault d => Explains skips fault.1 fault.2 d) m.faults assigned ∧
    (m.injected.isSome = true → ∃ d ∈ spare, d.span = Span.empty m.position)
  quiet : m.faults = [] →
    (m.diagnostics = [] ∧ m.injected = none ∧ m.repairs.attempts = 0) ∨
    (m.injected.isSome = true ∧ m.repairs.attempts ≤ 1)
  injected_ne : m.injected ≠ some .eof

theorem Explained.start (skips : Nat → Prop) (text : List Char) (firstId : Nat) :
    (Machine.start text firstId).Explained skips where
  assigned := ⟨[], [], .refl _, .nil, by simp [Machine.start]⟩
  quiet _ := Or.inl ⟨rfl, rfl, rfl⟩
  injected_ne := by simp [Machine.start]

/-- The account does not change where neither faults nor reports do. -/
theorem Explained.congr (h : m.Explained skips) (hfaults : m'.faults = m.faults)
    (hdiagnostics : m'.diagnostics = m.diagnostics) (hinjected : m'.injected = m.injected)
    (hrepairs : m'.repairs = m.repairs)
    (hposition : m.injected.isSome = true → m'.position = m.position) : m'.Explained skips := by
  refine ⟨?_, ?_, ?_⟩
  · obtain ⟨assigned, spare, hperm, hall, hspare⟩ := h.assigned
    rw [hfaults, hdiagnostics, hinjected]
    refine ⟨assigned, spare, hperm, hall, fun hsome => ?_⟩
    rw [hposition hsome]
    exact hspare hsome
  · rw [hfaults, hdiagnostics, hinjected, hrepairs]
    exact h.quiet
  · rw [hinjected]
    exact h.injected_ne

/-- A missing token gets the diagnostic that was to spare. -/
theorem Explained.shiftMissing (h : m.Explained skips) (hfaithful : m.Faithful text)
    (hinjected : m.injected.isSome = true) (kind : Kind) (state : Nat) :
    (m.shiftMissing kind state).Explained skips := by
  have hfaults := faults_shiftMissing hfaithful kind state
  refine ⟨?_, fun hnil => ?_, by simp [shiftMissing_eq]⟩
  · obtain ⟨assigned, spare, hperm, hall, hspare⟩ := h.assigned
    obtain ⟨d, hd, hspan⟩ := hspare hinjected
    refine ⟨assigned ++ [d], spare.erase d, ?_, ?_, by simp [shiftMissing_eq]⟩
    · rw [shiftMissing_eq, List.append_assoc]
      exact hperm.trans ((List.perm_cons_erase hd).append_left assigned)
    · rw [hfaults]
      refine List.rel_append hall (.cons ⟨fun _ => hspan, fun herror => ?_⟩ .nil)
      cases herror
  · rw [hfaults] at hnil
    simp at hnil

/-- The first of the tokens that are skipped becomes a child of the error, at its place in the
text. -/
theorem exists_child_of_pos (h : m.Faithful text) {skipped : Nat} (hpos : 0 < skipped) (d : Nat) :
    ∃ before token after, (m.gathered skipped d).1.elements = before ++ token :: after ∧
      token.isToken = true ∧ token.size = Text.size (m.source.ahead 0).text ∧
      sizeAll (elements (m.stack.drop d)) + sizeAll (m.gathered skipped d).1.leading +
        sizeAll before = (m.source.ahead 0).start := by
  obtain ⟨n, rfl⟩ := Nat.exists_eq_succ_of_ne_zero (Nat.ne_of_gt hpos)
  generalize hm₁ : ({ m with stack := m.stack.drop d }.peek 0).2 = m₁
  have hbump : m₁.source.bump.1 = m.source.ahead 0 := by
    rw [← hm₁, Source.bump_fst]
    exact Source.ahead_peek _ _ _
  obtain ⟨before, token, after, helements, htoken, hsize, -, hbefore⟩ :=
    skipInto_succ n (m.poppedEntry d) m₁
  rw [hbump] at hsize hbefore
  have hgathered : m.gathered (n + 1) d = skipInto (n + 1) (m.poppedEntry d) m₁ := by
    rw [gathered, hm₁]
  rw [← hgathered] at helements hbefore
  refine ⟨before, token, after, helements, htoken, hsize, ?_⟩
  have hstart : (m.source.ahead 0).start = _ := h.source_at.front.2.2.1
  have hstack : sizeAll (elements (m.stack.drop d)) + sizeAll (elements (m.stack.take d)) =
      Text.size (Stack.text m.stack) := by
    rw [← Element.sizeAll_append, ← elements_append, List.take_append_drop, h.sizeAll_elements,
      h.position_eq]
  have hcontent := congrArg sizeAll hbefore
  rw [Element.sizeAll_append, Element.sizeAll_append, poppedEntry_content,
    ← Element.size_textAll (newTokens _ _).1, textAll_newTokens] at hcontent
  rw [hstart, Nat.add_assoc, hcontent, ← Nat.add_assoc, hstack]
  rfl

/-- An error goes with the diagnostic that is reported when something is skipped. -/
theorem explains_error {d : Nat} {diagnostic : Diagnostic} {skipped : Nat}
    (hfaithful : m.Faithful text) (hspan : diagnostic.span = (m.source.ahead 0).span)
    (hskips : skips (m.gathered skipped d).2.nextId → 0 < skipped) :
    Explains skips (sizeAll (elements (m.stack.drop d)) + sizeAll (m.gathered skipped d).1.leading)
      (.node (m.gathered skipped d).2.nextId .error none (m.gathered skipped d).1.elements)
      diagnostic := by
  refine ⟨fun hmissing => (by cases hmissing), fun _ hid => ?_⟩
  obtain ⟨before, token, after, helements, htoken, hsize, hplace⟩ :=
    exists_child_of_pos hfaithful (hskips hid) d
  refine ⟨before, token, after, helements, htoken, ?_⟩
  rw [hplace, hsize, hspan]
  rfl

/-- Where nothing is skipped, no tokens are skipped into the error that is left. -/
theorem pos_of_skips {skipped depth : Nat} (h : m.Faithful text)
    (hne : (m.gathered skipped (min depth (m.stack.length - 1))).1.elements ≠ [])
    (hskips : ∀ id, m.nextId ≤ id → id < (m.skip skipped depth).nextId → skips id →
      m.position < (m.skip skipped depth).position)
    (hid : skips (m.gathered skipped (min depth (m.stack.length - 1))).2.nextId) : 0 < skipped := by
  have hlow := m.nextId_le_gathered skipped (min depth (m.stack.length - 1))
  have hhigh : (m.gathered skipped (min depth (m.stack.length - 1))).2.nextId <
      (m.skip skipped depth).nextId := by
    obtain ⟨d, rfl, hskip⟩ := skip_eq h.formed skipped depth
    rcases hskip with ⟨hnil, -⟩ | ⟨-, hskip⟩
    · exact absurd (List.append_eq_nil_iff.1 hnil).2 hne
    · rw [hskip]
      exact Nat.lt_succ_self _
  have hlt := hskips _ hlow hhigh hid
  rcases Nat.eq_zero_or_pos skipped with rfl | hpos
  · rw [position_skip_zero h depth] at hlt
    exact absurd hlt (Nat.lt_irrefl _)
  · exact hpos

/-- A repair adds its diagnostic to the account, and an error if it leaves one. -/
theorem Explained.recover (h : m.Explained skips) (hregular : m.Regular g text)
    (hready : m.Ready setting.table) (htable : setting.table = Table.ofGrammar g)
    (hstart : (Table.ofGrammar g).actions 0 .eof ≠ [])
    (hempty : candidates setting.table m.topState m.lookahead = [])
    (hskips : ∀ id, m.nextId ≤ id → id < next.nextId → skips id → m.position < next.position)
    (hrecover : m.recover? setting = some next) : next.Explained skips := by
  have hrepaired := recover?_repaired setting m
  rw [hrecover] at hrepaired
  obtain ⟨assigned, spare, hperm, hall, hspare⟩ := h.assigned
  cases hrepaired with
  | @inserted n kind repairs diagnostic _ _ hcount hkind hinjected hspan =>
    refine ⟨⟨assigned, spare ++ [diagnostic], ?_, hall, fun _ => ?_⟩, fun hnil => ?_, ?_⟩
    · rw [← List.append_assoc]
      exact hperm.append_right [diagnostic]
    · refine ⟨diagnostic, by simp, ?_⟩
      simp only [position, looked, Source.ahead_fetchMany]
      exact hspan
    · refine Or.inr ⟨rfl, ?_⟩
      rcases h.quiet hnil with ⟨-, -, hattempts⟩ | ⟨hsome, -⟩
      · have hzero : m.attemptsHere = 0 := by
          unfold attemptsHere
          split
          · exact hattempts
          · rfl
        rw [hcount, hzero]
      · rw [hinjected] at hsome
        cases hsome
    · exact fun heof => (actions_of_mem_insertions hkind).2 (Option.some.inj heof)
  | @skipped n skipped depth repairs diagnostic _ _ _ _ hdepth hspan =>
    generalize hm₁ : ({ m.looked n with injected := none, repairs := repairs } : Machine) = m₁
      at hskips
    have hstack : m₁.stack = m.stack := by rw [← hm₁]; rfl
    have hahead : m₁.source.ahead 0 = m.source.ahead 0 := by
      rw [← hm₁]
      exact Source.ahead_fetchMany _ _ _
    have hfaithful : m₁.Faithful text := by
      rw [← hm₁]
      exact (hregular.faithful.looked n).congr rfl rfl
    have hne := hready.gathered_ne_nil hregular htable hstart hempty hstack hdepth
    obtain ⟨front, back, hbefore, hafter⟩ := faults_skip hfaithful.formed rfl hne
    have hid : m₁.nextId = m.nextId := by rw [← hm₁]; rfl
    have hskips : ∀ id, m₁.nextId ≤ id → id < (m₁.skip skipped depth).nextId → skips id →
        m₁.position < (m₁.skip skipped depth).position := by
      rw [hid, position, hahead]
      exact hskips
    have hsame : m₁.faults = m.faults := by rw [faults, hstack]; rfl
    rw [← hsame, hbefore] at hall
    -- The error is around the faults in what is dropped, and its diagnostic is the new one.
    obtain ⟨assigned', hall', hperm'⟩ := forall₂_insert (a := (_, _)) hall
      (explains_error hfaithful (hspan.trans (congrArg Lexeme.span hahead.symm))
        (pos_of_skips hfaithful hne hskips))
    rw [← hafter] at hall'
    obtain ⟨d, t, hframe⟩ := skip_skips hfaithful.source_at hfaithful.formed skipped depth
    obtain ⟨hinjected, -, hdiagnostics⟩ := hframe.frame
    have hnone : (m₁.skip skipped depth).injected = none := by
      rw [hinjected, ← hm₁]
    have hreported : (m₁.skip skipped depth).diagnostics = m.diagnostics := by
      rw [hdiagnostics, ← hm₁]
      rfl
    refine ⟨⟨assigned', spare, ?_, hall', fun hsome => ?_⟩, fun hnil => ?_, ?_⟩
    · change ((m₁.skip skipped depth).diagnostics ++ [diagnostic]).Perm _
      rw [hreported]
      refine (List.perm_append_singleton diagnostic m.diagnostics).trans ?_
      exact (hperm.cons diagnostic).trans (hperm'.symm.append_right spare)
    · change (m₁.skip skipped depth).injected.isSome = true at hsome
      rw [hnone] at hsome
      cases hsome
    · change (m₁.skip skipped depth).faults = [] at hnil
      rw [hafter] at hnil
      simp at hnil
    · change (m₁.skip skipped depth).injected ≠ _
      simp [hnone]

/-- A step keeps the account. -/
theorem Explained.step (h : m.Explained skips) (hg : g.WellFormed) (hregular : m.Regular g text)
    (htracked : m.Tracked setting.table) (hready : m.Ready setting.table)
    (hsuits : setting.Suits g rank text) (hcandid : setting.Candid)
    (hstart : (Table.ofGrammar g).actions 0 .eof ≠ []) (hstep : m.step setting = .running next)
    (hskips : ∀ id, m.nextId ≤ id → id < next.nextId → skips id → m.position < next.position) :
    next.Explained skips := by
  have hrepair := htracked.candidates_eq_nil hg hsuits.table_eq
  have hgrammar : setting.table.grammar = g := by
    rw [hsuits.table_eq]
    rfl
  obtain ⟨n, fork, htakes, hcases⟩ := step_cases setting m
  generalize hm₁ : ({ m.looked n with forkPending := fork } : Machine) = m₁ at htakes hcases
  have hahead : m₁.source.ahead 0 = m.source.ahead 0 := by
    rw [← hm₁]
    exact Source.ahead_fetchMany _ _ _
  have hplace : m₁.position = m.position := congrArg Lexeme.fullStart hahead
  have hlookahead : m₁.lookahead = m.lookahead := by
    rw [lookahead, lookahead, hahead, ← hm₁]
    rfl
  have hregular : m₁.Regular g text := by
    rw [← hm₁]
    exact ⟨(hregular.faithful.looked n).congr rfl rfl, hregular.grammatical.congr rfl⟩
  have hready : m₁.Ready setting.table := by
    intro e below hstack hnil
    rw [hlookahead]
    rw [← hm₁] at hstack ⊢
    exact hready e below hstack hnil
  have h : m₁.Explained skips := by
    rw [← hm₁] at hplace ⊢
    exact h.congr rfl rfl rfl rfl fun _ => hplace
  have hrepair : (m.turn setting).2 = .repair →
      candidates setting.table m₁.topState m₁.lookahead = [] := by
    rw [hlookahead, ← hm₁]
    exact hrepair
  have hskips : ∀ id, m₁.nextId ≤ id → id < next.nextId → skips id →
      m₁.position < next.position := by
    rw [hplace, ← hm₁]
    exact hskips
  rw [hcases] at hstep
  generalize (m.turn setting).2 = turn at htakes hstep hrepair
  have hvacuous {m' : Machine} (hnone : m₁.injected = none) :
      m₁.injected.isSome = true → m'.position = m₁.position := by
    simp [hnone]
  cases htakes with
  | accept => cases hstep
  | split hinjected =>
    cases hstep
    exact h.congr rfl rfl rfl rfl (hvacuous hinjected)
  | @shift kind state =>
    cases hstep
    unfold Machine.shift
    split
    · rename_i hsome
      exact h.shiftMissing hregular.faithful hsome kind state
    · rename_i hnone
      exact h.congr (m₁.faults_shiftToken kind state) rfl rfl rfl (hvacuous (by simpa using hnone))
  | takeOver hinjected htaken =>
    cases hstep
    obtain ⟨reuse, old, state, hreuse, hfind, -, rfl⟩ := takeOver?_spec htaken
    have hold := (hcandid reuse hreuse _ _ old hfind).1
    refine h.congr ?_ rfl rfl rfl (hvacuous hinjected)
    rw [faults_push rfl, faults_oldEntry m₁ hold, List.append_nil]
  | reduce _ hreduced =>
    cases hstep
    have hfaults := faults_reduce hsuits.names hgrammar hreduced
    obtain ⟨_, _, _, _, _, _, _, -, -, -, -, -, -, -, -, rfl⟩ := reduce?_spec hreduced
    refine h.congr hfaults rfl rfl rfl fun _ => ?_
    simp only [position, Source.ahead_peek]
  | repair =>
    simp only [perform, repairOrEnd] at hstep
    split at hstep
    · rename_i repaired hrecover
      cases hstep
      exact h.recover hregular hready hsuits.table_eq hstart (hrepair rfl) hskips hrecover
    · cases hstep

/-! ## Runs -/

theorem Run.located {turns : List Turn} (hrun : Run setting m turns m') (h : m.Regular g text)
    (hsuits : setting.Suits g rank text) (hlocated : m.Located text) : m'.Located text := by
  refine hrun.invariant hlocated fun {_ m _} hrun hstep hlocated => ?_
  have hnext : (m.step setting).machine.Located text :=
    hlocated.step (hrun.regular h hsuits).faithful
  rwa [hstep] at hnext

/-- A parse keeps the account of faults and diagnostics. -/
theorem Run.explained {firstId : Nat} {turns : List Turn}
    (hrun : Run setting (Machine.start text firstId) turns m) (hg : g.WellFormed)
    (hsuits : setting.Suits g rank text) (hcandid : setting.Candid)
    (hstart : (Table.ofGrammar g).actions 0 .eof ≠ []) :
    m.Explained (SkipsInto setting (Machine.start text firstId)) := by
  have hfirst : (Machine.start text firstId).Regular g text := .start g text firstId
  have htracked : (Machine.start text firstId).Tracked setting.table := .start _ text firstId
  refine hrun.invariant (.start _ text firstId) fun hrun hstep h => ?_
  refine h.step hg (hrun.regular hfirst hsuits)
    (hrun.tracked htracked hfirst.faithful hsuits.truthful)
    (hrun.ready hg hfirst htracked hsuits hstart (.start _ text firstId)) hsuits hcandid hstart hstep ?_
  exact fun id hlow hhigh hid => hid.position_lt hfirst hsuits hrun hstep hlow hhigh

/-- A parse ends at the end of the text, with no missing token asked for, unless it gives up after
many repairs. -/
theorem Explained.finished {last : Machine} (h : m.Explained skips)
    (htable : setting.table = Table.ofGrammar g) (hstep : m.step setting = .finished last) :
    (m.source.ahead 0).kind = .eof ∧ (m.injected = none ∨ 1 < m.repairs.attempts) := by
  obtain ⟨n, fork, htakes, hcases⟩ := step_cases setting m
  generalize hm₁ : ({ m.looked n with forkPending := fork } : Machine) = m₁ at htakes hcases
  have hahead : m₁.source.ahead 0 = m.source.ahead 0 := by
    rw [← hm₁]
    exact Source.ahead_fetchMany _ _ _
  have hinjected : m₁.injected = m.injected := by rw [← hm₁]; rfl
  have hrepairs : m₁.repairs = m.repairs := by rw [← hm₁]; rfl
  rw [← hahead, ← hinjected, ← hrepairs]
  rw [hcases] at hstep
  generalize (m.turn setting).2 = turn at htakes hstep
  cases htakes with
  | accept hmem =>
    obtain ⟨haction, hreading⟩ := mem_candidates hmem
    obtain ⟨rfl, -⟩ := Table.complete_of_accept (htable ▸ haction)
    have heof : m₁.lookahead = .eof := by
      rcases hreading with heof | ⟨heof, -⟩
      · exact heof.symm
      · cases heof
    have hne := h.injected_ne
    rw [← hinjected] at hne
    unfold lookahead at heof
    cases hnone : m₁.injected with
    | none =>
      rw [hnone] at heof
      exact ⟨heof, Or.inl rfl⟩
    | some kind =>
      rw [hnone] at heof hne
      exact absurd (congrArg some heof) hne
  | split => cases hstep
  | shift => cases hstep
  | takeOver => cases hstep
  | reduce => cases hstep
  | repair =>
    simp only [perform, repairOrEnd] at hstep
    split at hstep
    · cases hstep
    · rename_i hrecover
      have hrepaired := recover?_repaired setting m₁
      rw [hrecover] at hrepaired
      cases hrepaired with
      | ended hattempts heof =>
        refine ⟨heof, Or.inr ?_⟩
        unfold attemptsHere maxAttempts at hattempts
        split at hattempts
        · omega
        · omega

end Machine

/-! ## Trees -/

namespace Tree

variable {g : Grammar} {rank : Nat → Nat} {text : List Char} {setting : Setting}

/-- The faults and the diagnostics of a tree, which are those of the last machine of its parse. -/
theorem exists_explained (hg : g.WellFormed) (hsuits : setting.Suits g rank text)
    (hcandid : setting.Candid) (hstart : (Table.ofGrammar g).actions 0 .eof ≠ []) (firstId : Nat) :
    ∃ m : Machine, m.Explained (Machine.SkipsInto setting (Machine.start text firstId)) ∧
      m.Located text ∧ (m.injected = none ∨ 1 < m.repairs.attempts) ∧
      (parseWith setting text firstId).diagnostics = m.diagnostics ∧
      (parseWith setting text firstId).root.faultsAt 0 = m.faults := by
  obtain ⟨turns, m, last, hrun, hstep, -, hparse⟩ := Machine.exists_run hsuits firstId
  have hfirst : (Machine.start text firstId).Regular g text := .start g text firstId
  have hexplained := hrun.explained hg hsuits hcandid hstart
  obtain ⟨heof, hend⟩ := hexplained.finished hsuits.table_eq hstep
  refine ⟨m, hexplained, hrun.located hfirst hsuits (.start text firstId), hend, ?_⟩
  obtain ⟨n, fork, rfl⟩ := Machine.eq_looked_of_finished hstep
  have hfaithful : Machine.Faithful text { m.looked n with forkPending := fork } :=
    ((hrun.regular hfirst hsuits).faithful.looked n).congr rfl rfl
  obtain ⟨id, rest, errors, trivia, hroot, hdiagnostics, -, -, herrors, -, htrivia⟩ :=
    Machine.finish_spec hfaithful.source_at text
  have hnil : errors = [] := herrors (by
    simp only [Machine.looked, Source.ahead_fetchMany]
    exact heof)
  have htokens : ∀ x ∈ trivia, x.isToken = true := by
    intro x hx
    obtain ⟨id, kind, text, rfl, -⟩ := htrivia x hx
    rfl
  rw [hparse]
  refine ⟨hdiagnostics, ?_⟩
  rw [hroot, hnil, List.append_nil, Element.faultsAt_node rfl, Element.faultsAllAt_append,
    Element.faultsAllAt_tokens htokens, List.append_nil]
  rfl

end Tree

/-! ## Queries -/

namespace BigQuery

open Tree (Occurs)

/-- The faults of every tree of a session and its diagnostics correspond: every fault has a diagnostic
of its own that explains it, there are diagnostics exactly if there are faults, and all that is
reported lies inside the text. By `Tree.Reached.exists_setting` every tree is such a parse. -/
theorem faults_have_diagnostics {setting : Setting} {text : List Char}
    (h : Occurs BigQuery.table setting text) (firstId : Nat) :
    let t := Tree.parseWith setting text firstId
    let faults := t.root.visits.filter Visit.isFault
    (∃ assigned : List Diagnostic, assigned.Subperm t.diagnostics ∧
      List.Forall₂ (fun v d => Explains
        (Machine.SkipsInto setting (Machine.start text firstId)) v.start v.element d)
        faults assigned) ∧
    (t.diagnostics = [] ↔ faults = []) ∧ t.hasError = t.root.hasError ∧
    ∀ d ∈ t.diagnostics, d.Within text := by
  obtain ⟨g, hgrammar, htable, hsafe, -⟩ := table_spec
  have hg := Grammar.wellFormed_ofRules hgrammar
  obtain ⟨production, honce⟩ := Grammar.startsOnce_of_isSafe hsafe
  have hstart := Table.actions_start hg honce (isErasable_root hgrammar)
  have hcandid := h.candid fun _ _ => suits htable hsafe
  obtain ⟨m, hexplained, hlocated, hend, hdiagnostics, hfaults⟩ :=
    Tree.exists_explained hg (suits htable hsafe h) hcandid hstart firstId
  intro t faults
  have hvisits : faults.map (fun v => (v.start, v.element)) = m.faults := by
    rw [← hfaults]
    exact Element.map_filter_preorder t.root 0 0
  obtain ⟨assigned, spare, hperm, hall, -⟩ := hexplained.assigned
  rw [← hvisits, List.forall₂_map_left_iff] at hall
  have hnone : t.diagnostics = [] ↔ faults = [] := by
    constructor
    · intro hnil
      rw [← hdiagnostics, hnil] at hperm
      obtain ⟨rfl, -⟩ := List.append_eq_nil_iff.1 hperm.nil_eq.symm
      exact List.forall₂_nil_right_iff.1 hall
    · intro hnil
      rw [hnil] at hvisits
      rcases hexplained.quiet hvisits.symm with ⟨hquiet, -⟩ | ⟨hsome, hfew⟩
      · exact hdiagnostics.trans hquiet
      · rcases hend with hnone | hmany
        · rw [hnone] at hsome
          cases hsome
        · omega
  refine ⟨⟨assigned, ?_, hall⟩, hnone, ?_, fun d hd => hlocated.diagnostics d (hdiagnostics ▸ hd)⟩
  · rw [hdiagnostics]
    exact (List.sublist_append_left assigned spare).subperm.trans hperm.symm.subperm
  · rw [Bool.eq_iff_iff, ← not_iff_not, Bool.not_eq_true, Bool.not_eq_true,
      Element.hasError_eq_false_iff t.root 0, hfaults, ← hvisits, List.map_eq_nil_iff, ← hnone]
    simp [Tree.hasError]

/-- A query that cannot be read without repairs. -/
theorem faults_have_diagnostics_on_faults :
    let setting : Setting := ⟨BigQuery.table, {}, none⟩
    let t := Tree.parse BigQuery.table {} "SELECT (a, FROM t".toList 0
    Occurs BigQuery.table setting "SELECT (a, FROM t".toList ∧
    (∃ assigned : List Diagnostic, assigned.Subperm t.diagnostics ∧
      List.Forall₂ (fun v d => Explains
        (Machine.SkipsInto setting (Machine.start "SELECT (a, FROM t".toList 0)) v.start v.element d)
        (t.root.visits.filter Visit.isFault) assigned) ∧
    (t.diagnostics = [] ↔ t.root.visits.filter Visit.isFault = []) ∧
    t.hasError = t.root.hasError ∧ ∀ d ∈ t.diagnostics, d.Within "SELECT (a, FROM t".toList :=
  ⟨.scratch {} _, faults_have_diagnostics (.scratch {} "SELECT (a, FROM t".toList) 0⟩

end BigQuery
end SqlTree
