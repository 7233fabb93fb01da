import SqlTree.Proofs.Diagnostics
import SqlTree.Proofs.Grouping

/-!
# Trivia inside nodes

Blanks and comments belong to the innermost node that has something on both sides of them. An entry
keeps the trivia in front of its first element apart, and they move inside only where the entry is
joined behind one that is not empty. So what is made of an entry, be it a node of the grammar or an
error, begins and ends with something that matters.

The root alone holds trivia at its ends. It would hold an error as well if a parse gave up in front
of a token, but a parse only ends at the end of the text.

- `Element.Trimmed`   : elements with no trivia at either end
- `Element.Tidy`      : an element whose children are trimmed
- `Entry.Tidy.join`   : joining keeps entries tidy
- `Machine.Tidy.step` : and so does a step
- `Tree.Reached.tidy` : so everything below the root of a tree is tidy
-/

namespace SqlTree

/-! ## Elements -/

namespace Element

/-- No trivia stand at either end. -/
def Trimmed (es : List Element) : Prop :=
  ∀ x, x ∈ es.head? ∨ x ∈ es.getLast? → x.isTrivia = false

/-- The children of an element are trimmed. -/
def Tidy (x : Element) : Prop := Trimmed x.children

variable {es fs : List Element} {x : Element}

theorem trimmed_nil : Trimmed [] := by simp [Trimmed]

theorem trimmed_singleton (h : x.isTrivia = false) : Trimmed [x] := by simpa [Trimmed] using h

/-- It does not matter what stands between trimmed elements. -/
theorem Trimmed.append (hes : Trimmed es) (hfs : Trimmed fs) (hne : es ≠ []) (hne' : fs ≠ [])
    (between : List Element) : Trimmed (es ++ between ++ fs) := by
  intro x hx
  rw [List.append_assoc, List.head?_append_of_ne_nil _ hne, ← List.append_assoc,
    List.getLast?_append_of_ne_nil _ hne'] at hx
  rcases hx with hx | hx
  · exact hes x (Or.inl hx)
  · exact hfs x (Or.inr hx)

theorem isTrivia_of_isToken_eq_false (h : x.isToken = false) : x.isTrivia = false := by
  cases x with
  | token => cases h
  | node => rfl

theorem all_tidy_of_isToken (h : x.isToken = true) : x.All Tidy := by
  cases x with
  | token => exact trimmed_nil
  | node => cases h

end Element

/-! ## What rules ask for -/

/-- Trivia are not shifted. -/
theorem Grammar.isTrivia_of_shift {g : Grammar} {state next : Nat} {kind : Kind}
    (hg : g.passesTrivia = true) (h : .shift next ∈ (Table.ofGrammar g).actions state kind) :
    kind.isTrivia = false := by
  obtain ⟨hne, hleads⟩ := Table.leads_of_shift h
  obtain ⟨item, hitem⟩ := List.exists_mem_of_ne_nil _ hne
  obtain ⟨before, -, -, hrest⟩ := hleads item hitem
  unfold Item.rest at hrest
  split at hrest
  · rename_i production hp
    have hmem : Symbol.terminal kind ∈ production.rhs :=
      List.mem_of_mem_drop (List.mem_of_mem_head? hrest)
    have hproduction : production ∈ g.productions.toList :=
      Array.mem_toList_iff.2 (Array.mem_of_getElem? hp)
    have hcheck := List.all_eq_true.1 (List.all_eq_true.1 hg production hproduction) _ hmem
    simpa using hcheck
  · cases hrest

/-! ## Entries -/

namespace Entry

/-- An entry begins and ends with something that matters, and so does everything in it. -/
structure Tidy (e : Entry) : Prop where
  trimmed : Element.Trimmed e.elements
  below : ∀ x ∈ e.content, x.All Element.Tidy

theorem Tidy.join {e child : Entry} (he : e.Tidy) (hchild : child.Tidy)
    (hleading : child.elements = [] → child.leading = []) : (e.join child).Tidy where
  trimmed := by
    by_cases hnil : e.elements = []
    · -- All trivia stay outside.
      simpa [Entry.join, hnil] using hchild.trimmed
    · by_cases hempty : child.elements = []
      · -- The trivia of the child would end the entry, but it has none without elements.
        simpa [Entry.join, hnil, hempty, hleading hempty] using he.trimmed
      · simpa [Entry.join, hnil] using he.trimmed.append hchild.trimmed hnil hempty child.leading
  below x hx := by
    rw [join_content] at hx
    rcases List.mem_append.1 hx with hx | hx
    · exact he.below x hx
    · exact hchild.below x hx

/-- What an entry holds may be put under a node. -/
theorem Tidy.wrap {e entry : Entry} {id : Nat} {kind : Kind} {origin : Option Origin} (h : e.Tidy)
    (hleading : entry.leading = e.leading)
    (helements : entry.elements = [.node id kind origin e.elements]) : entry.Tidy where
  trimmed := helements ▸ Element.trimmed_singleton rfl
  below x hx := by
    rw [content, hleading, helements] at hx
    rcases List.mem_append.1 hx with hx | hx
    · exact h.below x (List.mem_append_left _ hx)
    · obtain rfl := List.mem_singleton.1 hx
      refine Element.all_node.2 ⟨h.trimmed, fun x hx => ?_⟩
      exact h.below x (List.mem_append_right _ hx)

theorem tidy_ofChildren {children : List Entry} (state offset : Nat)
    (hchildren : ∀ child ∈ children, child.Tidy ∧ child.Formed) :
    (ofChildren state children offset).Tidy := by
  refine ofChildren_of_join state offset ⟨Element.trimmed_nil, by simp [content]⟩ ?_
  intro e child hchild he
  obtain ⟨htidy, hformed⟩ := hchildren child hchild
  exact he.join htidy hformed.leading_eq_nil

end Entry

/-- Old nodes that may be taken over are tidy. -/
def Setting.Tidy (setting : Setting) : Prop :=
  ∀ reuse ∈ setting.reuse, ∀ state offset old,
    reuse.find? setting.table state offset = some old → old.All Element.Tidy

namespace Machine

variable {text : List Char} {m m' : Machine} {setting : Setting} {g : Grammar}

/-- All entries are tidy. -/
def Tidy (m : Machine) : Prop := ∀ e ∈ m.stack, e.Tidy

theorem Tidy.start (text : List Char) (firstId : Nat) : (Machine.start text firstId).Tidy := by
  intro e he
  obtain rfl := List.mem_singleton.1 he
  exact ⟨Element.trimmed_nil, by simp [Entry.content, Entry.bottom]⟩

theorem Tidy.push {entry : Entry} (h : m.Tidy) (hstack : m'.stack = entry :: m.stack)
    (hentry : entry.Tidy) : m'.Tidy := by
  unfold Tidy
  rw [hstack]
  exact List.forall_mem_cons.2 ⟨hentry, h⟩

theorem Tidy.shift {kind : Kind} (h : m.Tidy) (hkind : kind.isTrivia = false) (next : Nat) :
    (m.shift kind next).Tidy := by
  unfold Machine.shift
  split
  · -- The node of a missing token has the token as its only child.
    rw [shiftMissing_eq]
    refine h.push rfl ⟨Element.trimmed_singleton rfl, fun x hx => ?_⟩
    obtain rfl := List.mem_singleton.1 hx
    refine Element.all_node.2 ⟨Element.trimmed_singleton hkind, fun x hx => ?_⟩
    obtain rfl := List.mem_singleton.1 hx
    exact Element.all_tidy_of_isToken rfl
  · rw [shiftToken_eq]
    refine h.push rfl ⟨Element.trimmed_singleton hkind, fun x hx => ?_⟩
    exact Element.all_tidy_of_isToken (isToken_of_mem_tokenEntry m kind next x hx)

theorem Tidy.takeOver {state : Nat} (h : m.Tidy) (hsetting : setting.Tidy)
    (htaken : m.takeOver? setting state = some m') : m'.Tidy := by
  obtain ⟨reuse, old, next, hreuse, hfind, -, rfl⟩ := takeOver?_spec htaken
  have hnode := Element.isTrivia_of_isToken_eq_false (Reuse.isToken_of_find? hfind)
  refine h.push rfl ⟨Element.trimmed_singleton hnode, fun x hx => ?_⟩
  rcases List.mem_append.1 hx with hx | hx
  · exact Element.all_tidy_of_isToken (isToken_newTokens _ _ x hx)
  · obtain rfl := List.mem_singleton.1 hx
    exact hsetting reuse hreuse _ _ _ hfind

theorem Makes.tidy {base lhs : Nat} {joined entry : Entry} (h : m.Makes g base lhs joined entry)
    (hjoined : joined.Tidy) : entry.Tidy := by
  cases h with
  | hidden => exact hjoined
  | visible hkind => exact hjoined.wrap rfl rfl

theorem Tidy.reduce {production : Nat} (h : m.Tidy) (hformed : ∀ e ∈ m.stack, e.Formed)
    (hreduced : m.reduce? setting production = some m') : m'.Tidy := by
  obtain ⟨p, extras, children, below, next, entry, nextId, -, hstack, -, -, -, -, -, hmakes, rfl⟩ :=
    reduce?_spec hreduced
  have hchildren : ∀ e ∈ children, e.Tidy ∧ e.Formed := fun e he =>
    have hmem : e ∈ m.stack := by simp [hstack, he]
    ⟨h e hmem, hformed e hmem⟩
  have hjoined : (m.joinedEntry next children).Tidy := by
    obtain ⟨htrimmed, hbelow⟩ := Entry.tidy_ofChildren next m.position hchildren
    exact ⟨htrimmed, hbelow⟩
  intro e he
  rcases mem_reduced he with ⟨old, hold, heq⟩ | rfl
  · have hmem : old ∈ m.stack := by
      rw [hstack]
      rcases List.mem_append.1 hold with hold | hold <;> simp [hold]
    obtain ⟨htrimmed, hbelow⟩ := h old hmem
    rw [heq]
    exact ⟨htrimmed, hbelow⟩
  · exact hmakes.tidy hjoined

/-- A lexeme that is moved into an entry ends it, and begins it if it was empty. -/
theorem trimmed_skipInto {n : Nat} {e : Entry} {done : List Char} (hat : m.source.At done)
    (he : Element.Trimmed e.elements) : Element.Trimmed (skipInto n e m).1.elements := by
  induction n generalizing e m done with
  | zero => exact he
  | succ n ih =>
    have htoken (id : Nat) : Element.Trimmed [.token id m.bump.1.kind m.bump.1.text] :=
      Element.trimmed_singleton hat.front.1.significant
    simp only [skipInto]
    refine ih hat.bump ?_
    split
    · exact htoken _
    · rename_i hne
      exact he.append (htoken _) (by simpa using hne) (List.cons_ne_nil _ _) _

theorem tidy_skipInto {e : Entry} {done : List Char} (hat : m.source.At done) (he : e.Tidy)
    (n : Nat) : (skipInto n e m).1.Tidy := by
  refine ⟨trimmed_skipInto hat he.trimmed, fun x hx => ?_⟩
  rcases mem_skipInto hx with hx | ⟨id, kind, text, rfl⟩
  · exact he.below x hx
  · exact Element.all_tidy_of_isToken rfl

theorem tidy_gathered (h : m.Tidy) (hformed : ∀ e ∈ m.stack, e.Formed) {done : List Char}
    (hat : m.source.At done) (skipped d : Nat) : (m.gathered skipped d).1.Tidy := by
  refine tidy_skipInto (hat.peek 0) (Entry.tidy_ofChildren _ _ fun e he => ?_) _
  have hmem : e ∈ m.stack := List.mem_of_mem_take (List.mem_reverse.1 he)
  exact ⟨h e hmem, hformed e hmem⟩

/-- An error begins and ends with what was skipped or popped. -/
theorem Tidy.skip (h : m.Tidy) (hfaithful : m.Faithful text) (skipped depth : Nat) :
    (m.skip skipped depth).Tidy := by
  obtain ⟨d, -, hskip⟩ := skip_eq hfaithful.formed skipped depth
  have hstack : (m.gathered skipped d).2.stack = m.stack.drop d := by
    rw [gathered, skipInto_frame]
    rfl
  have hdrop : ∀ e ∈ m.stack.drop d, e.Tidy := fun e he => h e (List.mem_of_mem_drop he)
  rcases hskip with ⟨-, hskip⟩ | ⟨-, hskip⟩
  · rw [hskip, Tidy, hstack]
    exact hdrop
  · have hgathered := tidy_gathered h hfaithful.formed hfaithful.source_at skipped d
    rw [hskip, Tidy, hstack]
    exact List.forall_mem_cons.2 ⟨hgathered.wrap rfl rfl, hdrop⟩

/-- A step keeps the entries tidy. -/
theorem Tidy.step (h : m.Tidy) (hfaithful : m.Faithful text) (hg : g.passesTrivia = true)
    (htable : setting.table = Table.ofGrammar g) (hsetting : setting.Tidy) :
    (m.step setting).machine.Tidy := by
  refine step_keeps (J := fun m => m.Faithful text ∧ m.Tidy)
    (fun n _ => ⟨(hfaithful.looked n).congr rfl rfl, h⟩) (fun _ h => h.2) ?_
  rintro m next ⟨hfaithful, h⟩ heffect
  cases heffect with
  | split => exact h
  | shift hmem =>
    exact h.shift (Grammar.isTrivia_of_shift hg (htable ▸ (mem_candidates hmem).1)) _
  | takeOver _ htaken => exact h.takeOver hsetting htaken
  | reduce _ hreduced => exact h.reduce hfaithful.formed hreduced
  | repair hrecover =>
    have hrepaired := recover?_repaired setting m
    rw [hrecover] at hrepaired
    cases hrepaired with
    | inserted => exact h
    | @skipped n skipped depth repairs diagnostic =>
      have hlooked : Tidy { m.looked n with injected := none, repairs := repairs } := h
      exact hlooked.skip ((hfaithful.looked n).congr rfl rfl) skipped depth

theorem Tidy.run (h : m.Tidy) (hfaithful : m.Faithful text) (htruthful : setting.Truthful text)
    (hg : g.passesTrivia = true) (htable : setting.table = Table.ofGrammar g)
    (hsetting : setting.Tidy) (fuel : Nat) : (m.run setting fuel).Tidy := by
  refine (run_induction (I := fun m => m.Faithful text ∧ m.Tidy) ?_ fuel ⟨hfaithful, h⟩).2
  rintro m ⟨hfaithful, h⟩
  exact ⟨hfaithful.step htruthful, h.step hfaithful hg htable hsetting⟩

/-! ## The end of a parse -/

/-- A parse takes its last step in front of the end of the text. -/
theorem run_to_eof {rank : Nat → Nat} (hg : g.WellFormed) (hsuits : setting.Suits g rank text)
    (hcandid : setting.Candid) (hstart : (Table.ofGrammar g).actions 0 .eof ≠ []) (firstId : Nat) :
    let last := run setting (maxSteps setting.table (Text.size text)) (Machine.start text firstId)
    (∃ turns m, Run setting (Machine.start text firstId) turns m ∧
      m.step setting = .finished last) ∧ (last.source.ahead 0).kind = .eof := by
  obtain ⟨turns, m, last, hrun, hstep, -, hlast⟩ :=
    run_finishes (maxSteps setting.table (Text.size text)) (.start g text firstId) hsuits (by
      rw [hsuits.table_eq]
      exact measure_start_lt g rank text firstId)
  rw [hlast]
  refine ⟨⟨turns, m, hrun, hstep⟩, ?_⟩
  -- The last step accepts the end or gives up there, and has only looked ahead before.
  obtain ⟨heof, -⟩ := (hrun.explained hg hsuits hcandid hstart).finished hsuits.table_eq hstep
  obtain ⟨n, fork, rfl⟩ := eq_looked_of_finished hstep
  simpa only [looked, Source.ahead_fetchMany] using heof

/-- At the end of the text nothing is left over. -/
theorem leftOver_of_eof (heof : (m.source.ahead 0).kind = .eof) (fuel : Nat) :
    (leftOver fuel m).1 = [] := by
  cases fuel with
  | zero => rfl
  | succ fuel =>
    simp only [leftOver, peek_eq]
    rw [if_pos heof]

/-- Where nothing is left over, the root holds what is on the stack, and trivia behind it. -/
theorem root_of_eof {done : List Char} (hat : m.source.At done)
    (heof : (m.source.ahead 0).kind = .eof) (text : List Char) :
    ∃ id trivia, (m.finish text).root = .node id .sourceFile none (elements m.stack ++ trivia) ∧
      ∀ x ∈ trivia, x.isToken = true ∧ x.isTrivia = true := by
  obtain ⟨id, rest, errors, trivia, hroot, -, -, -, herrors, -, htrivia⟩ := finish_spec hat text
  rw [herrors heof, List.append_nil] at hroot
  refine ⟨id, trivia, hroot, fun x hx => ?_⟩
  obtain ⟨id, kind, text, rfl, hkind⟩ := htrivia x hx
  exact ⟨rfl, hkind⟩

end Machine

/-! ## Trees of a session -/

namespace Tree

variable {g : Grammar} {rank : Nat → Nat} {text : List Char} {t : Tree} {setting : Setting}
  {table : Table}

/-- Everything below the root is tidy. -/
def Tidy (t : Tree) : Prop :=
  ∃ id children, t.root = .node id .sourceFile none children ∧ ∀ x ∈ children, x.All Element.Tidy

theorem tidy_parseWith (hg : g.WellFormed) (hsuits : setting.Suits g rank text)
    (hcandid : setting.Candid) (hstart : (Table.ofGrammar g).actions 0 .eof ≠ [])
    (hpasses : g.passesTrivia = true) (hsetting : setting.Tidy) (firstId : Nat) :
    (parseWith setting text firstId).Tidy := by
  have hfirst := Machine.Faithful.start text firstId
  have hfaithful := hfirst.run hsuits.truthful (Machine.maxSteps setting.table (Text.size text))
  have htidy := (Machine.Tidy.start text firstId).run hfirst hsuits.truthful hpasses
    hsuits.table_eq hsetting (Machine.maxSteps setting.table (Text.size text))
  have heof := (Machine.run_to_eof hg hsuits hcandid hstart firstId).2
  obtain ⟨id, trivia, hroot, htrivia⟩ := Machine.root_of_eof hfaithful.source_at heof text
  refine ⟨id, _, hroot, fun x hx => ?_⟩
  rcases List.mem_append.1 hx with hx | hx
  · simp only [Machine.elements, List.mem_flatMap, List.mem_reverse] at hx
    obtain ⟨e, he, hx⟩ := hx
    exact (htidy e he).below x hx
  · exact Element.all_tidy_of_isToken (htrivia x hx).1

theorem Tidy.ofRoot {edit : Edit} (h : t.Tidy) (options : Options) :
    Setting.Tidy ⟨table, options, some (Reuse.ofRoot t.root edit)⟩ := by
  intro reuse hreuse state offset old hfind
  cases hreuse
  obtain ⟨id, children, hroot, hall⟩ := h
  rw [hroot] at hfind
  exact Reuse.all_of_find? hall hfind

/-- The trees of a session are tidy. -/
theorem Reached.tidy (hg : g.WellFormed) (hpasses : g.passesTrivia = true)
    (hstart : (Table.ofGrammar g).actions 0 .eof ≠ [])
    (hsuits : ∀ setting text, Occurs (Table.ofGrammar g) setting text → setting.Suits g rank text)
    (h : Reached (Table.ofGrammar g) text t) : t.Tidy := by
  refine reached_induction (P := fun _ t => t.Tidy) ?_ ?_ h
  · intro options text firstId
    exact tidy_parseWith hg (hsuits _ _ (.scratch options text)) (by simp [Setting.Candid]) hstart
      hpasses (by simp [Setting.Tidy]) firstId
  · intro _ _ _ old _ _ _ options hold htidy hreplace
    have hoccurs : Occurs (Table.ofGrammar g) _ _ := .again options hold hreplace
    exact tidy_parseWith hg (hsuits _ _ hoccurs) (hoccurs.candid hsuits) hstart hpasses
      (htidy.ofRoot options) old.nextId

theorem Occurs.tidy (hg : g.WellFormed) (hpasses : g.passesTrivia = true)
    (hstart : (Table.ofGrammar g).actions 0 .eof ≠ [])
    (hsuits : ∀ setting text, Occurs (Table.ofGrammar g) setting text → setting.Suits g rank text)
    (h : Occurs (Table.ofGrammar g) setting text) : setting.Tidy := by
  cases h with
  | scratch => simp [Setting.Tidy]
  | again options hold _ => exact (hold.tidy hg hpasses hstart hsuits).ofRoot options

end Tree

/-! ## Queries -/

namespace BigQuery

open Tree (Occurs Reached)
open Machine (Run)

/-- Trivia never stand at the edge of a node: no node of a tree of a session but its root has trivia
as its first or last child. And no tree ends in an error over what was left of the input: the last
step of a parse is taken in front of the end of the text, so nothing is left over. By
`Tree.Reached.exists_setting` every tree is such a parse. -/
theorem trivia_inside_nodes {setting : Setting} {text : List Char}
    (h : Occurs BigQuery.table setting text) (firstId : Nat) :
    let t := Tree.parseWith setting text firstId
    let last := Machine.run setting (Machine.maxSteps setting.table (Text.size text))
      (Machine.start text firstId)
    (∀ v ∈ t.root.visits.tail, ∀ x,
      x ∈ v.element.children.head? ∨ x ∈ v.element.children.getLast? → x.isTrivia = false) ∧
    (∃ turns m, Run setting (Machine.start text firstId) turns m ∧
      m.step setting = .finished last) ∧
    t = last.finish text ∧ (last.peek 0).1.kind = .eof ∧
    (Machine.leftOver (last.source.size + 1) last).1 = [] ∧
    ∃ trivia, t.root.children = Machine.elements last.stack ++ trivia ∧
      ∀ x ∈ trivia, x.isToken = true ∧ x.isTrivia = true := by
  obtain ⟨g, hgrammar, htable, hsafe, -⟩ := table_spec
  have hg := Grammar.wellFormed_ofRules hgrammar
  have hpasses := (grammar_spec hgrammar).2.2.1
  obtain ⟨production, honce⟩ := Grammar.startsOnce_of_isSafe hsafe
  have hstart := Table.actions_start hg honce (isErasable_root hgrammar)
  have hsuits (setting : Setting) (text : List Char)
      (hoccurs : Occurs BigQuery.table setting text) : setting.Suits g (g.rank 8) text :=
    suits htable hsafe hoccurs
  have hcandid := h.candid hsuits
  have hsuit := hsuits setting text h
  rw [htable] at h hsuits
  intro t last
  obtain ⟨hrun, heof⟩ := Machine.run_to_eof hg hsuit hcandid hstart firstId
  obtain ⟨id, children, hroot, hall⟩ := Tree.tidy_parseWith hg hsuit hcandid hstart hpasses
    (h.tidy hg hpasses hstart hsuits) firstId
  have hfaithful := (Machine.Faithful.start text firstId).run hsuit.truthful
    (Machine.maxSteps setting.table (Text.size text))
  obtain ⟨_, trivia, hfinish, htrivia⟩ := Machine.root_of_eof hfaithful.source_at heof text
  refine ⟨fun v hv => ?_, hrun, rfl, heof, Machine.leftOver_of_eof heof _, trivia, ?_, htrivia⟩
  · rw [hroot] at hv
    exact (Element.all_of_mem_preorderAll children 1 0 (Element.allIn_iff.2 hall) hv).self
  · exact congrArg Element.children hfinish

/-- An edit that breaks a query with comments in it. -/
theorem trivia_inside_nodes_after_edit :
    let text := "SELECT a /* b */ FROM t -- c".toList
    let text' := "SELECT ( a, /* b */ FROM t -- c".toList
    ∃ edit, Edit.replace text 7 8 "( a,".toList = .ok (edit, text') ∧
      let old := Tree.parse BigQuery.table {} text 0
      let setting : Setting := ⟨BigQuery.table, {}, some (Reuse.ofRoot old.root edit)⟩
      let last := Machine.run setting (Machine.maxSteps setting.table (Text.size text'))
        (Machine.start text' old.nextId)
      Occurs BigQuery.table setting text' ∧
      (∀ v ∈ (Tree.parseWith setting text' old.nextId).root.visits.tail, ∀ x,
        x ∈ v.element.children.head? ∨ x ∈ v.element.children.getLast? → x.isTrivia = false) ∧
      (last.peek 0).1.kind = .eof := by
  intro text text'
  obtain ⟨edit, hreplace⟩ : ∃ edit, Edit.replace text 7 8 "( a,".toList = .ok (edit, text') :=
    ⟨_, rfl⟩
  have hscratch : Reached BigQuery.table text _ := .parse {} text 0
  have hagain := Occurs.again {} hscratch hreplace
  obtain ⟨hvisits, -, -, heof, -⟩ := trivia_inside_nodes hagain
    (Tree.parse BigQuery.table {} text 0).nextId
  exact ⟨edit, hreplace, hagain, hvisits, heof⟩

end BigQuery
end SqlTree
