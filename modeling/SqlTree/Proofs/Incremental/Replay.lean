import SqlTree.Proofs.Incremental.Verdict

/-!
# Building the same again

Where only one thing is possible at every step, parsing depends on nothing but the lexemes that it
looks at. So what was built in this way is built again on every stack with the same state on top, in
front of all lexemes that agree with the old ones as far as they were looked at.

- `Replay.Plain`, `Replay.Plains` : steps without a choice, as far as structure goes
- `Entry.Replays`      : an entry that is built again wherever its lexemes are read
- `Entry.replays_token`, `Entry.Replays.split`, `Entry.replays_reduce` : how such entries are made
-/

namespace SqlTree

open Element (bareTokens)
open Machine (candidates)
open Lexemes (Move after Agrees Allows Exact)

/-! ## Steps without a choice -/

namespace Replay

/-- A step where only one thing is possible, from one stack and the lexemes ahead to another. -/
inductive Plain (table : Table) : Stack → Lexemes → Stack → Lexemes → Prop where
  | split {stack : Stack} {f : Lexemes}
      (hnil : candidates table (Stack.topState stack) (f 0).kind = [])
      (hkind : (f 0).kind = .shr)
      (hgt : table.hasAction (Stack.topState stack) .gt = true) : Plain table stack f stack f.halves
  | shift {stack : Stack} {f : Lexemes} {kind : Kind} {state : Nat}
      (hsole : candidates table (Stack.topState stack) (f 0).kind = [(kind, .shift state)]) :
      Plain table stack f (Entry.ofLexeme (f 0) kind state false :: stack) f.take
  | reduce {stack stack' : Stack} {f : Lexemes} {kind : Kind} {production : Nat}
      (hsole : candidates table (Stack.topState stack) (f 0).kind = [(kind, .reduce production)])
      (hreduced : Stack.reduced? table false production stack = some stack') :
      Plain table stack f stack' f

/-- Any number of such steps. -/
inductive Plains (table : Table) : Stack → Lexemes → Stack → Lexemes → Prop where
  | done {stack : Stack} {f : Lexemes} : Plains table stack f stack f
  | step {stack stack' stack'' : Stack} {f f' f'' : Lexemes} (h : Plain table stack f stack' f')
      (hrest : Plains table stack' f' stack'' f'') : Plains table stack f stack'' f''

variable {table : Table} {a b c : Stack} {f g h : Lexemes}

theorem Plain.plains (hplain : Plain table a f b g) : Plains table a f b g := .step hplain .done

theorem Plains.trans (hab : Plains table a f b g) (hbc : Plains table b g c h) :
    Plains table a f c h := by
  induction hab with
  | done => exact hbc
  | step hplain _ ih => exact .step hplain (ih hbc)

end Replay

open Replay (Plain Plains)

namespace Stack

/-- The stack has an entry, and nothing on it stands between grammar symbols. -/
def Tidy (stack : Stack) : Prop := stack ≠ [] ∧ ∀ e ∈ stack, e.extra = false

theorem Tidy.cons {stack : Stack} {e : Entry} (h : Tidy stack) (he : e.extra = false) :
    Tidy (e :: stack) :=
  ⟨List.cons_ne_nil _ _, List.forall_mem_cons.2 ⟨he, h.2⟩⟩

theorem Tidy.append {stack : Stack} (h : Tidy stack) {entries : List Entry}
    (hentries : ∀ e ∈ entries, e.extra = false) : Tidy (entries ++ stack) := by
  refine ⟨List.append_ne_nil_of_right_ne_nil _ h.1, fun e he => ?_⟩
  rcases List.mem_append.1 he with he | he
  · exact hentries e he
  · exact h.2 e he

theorem topState_reverse_append (entries : List Entry) (stack : Stack) :
    topState (entries.reverse ++ stack) =
      (entries.map Entry.state).getLast?.getD (topState stack) := by
  rcases List.eq_nil_or_concat entries with rfl | ⟨front, last, rfl⟩
  · rfl
  · simp [topState]

end Stack

/-! ## Trivia in front -/

namespace Entry

/-- The entry with other trivia in front, if there is something for them to stand in front of. -/
def headed (leaves : List Leaf) (e : Entry) : Entry :=
  if e.elements.isEmpty then e else { e with leading := bareTokens leaves }

/-- Several entries with other trivia in front of all of them. -/
def headedAll (leaves : List Leaf) : List Entry → List Entry
  | [] => []
  | e :: es => if e.elements.isEmpty then e :: headedAll leaves es else e.headed leaves :: es

variable {leaves : List Leaf} {e : Entry} {es : List Entry}

theorem forked_false (e : Entry) : e.forked false = e := by simp [forked]

theorem headed_of_ne_nil (h : e.elements ≠ []) :
    e.headed leaves = { e with leading := bareTokens leaves } := by
  simp [headed, h]

theorem headed_of_eq_nil (h : e.elements = []) : e.headed leaves = e := by
  simp [headed, h]

@[simp]
theorem headed_state : (e.headed leaves).state = e.state := by
  unfold headed
  split <;> rfl

@[simp]
theorem headed_extra : (e.headed leaves).extra = e.extra := by
  unfold headed
  split <;> rfl

@[simp]
theorem headed_elements : (e.headed leaves).elements = e.elements := by
  unfold headed
  split <;> rfl

theorem map_state_headedAll (es : List Entry) :
    (headedAll leaves es).map Entry.state = es.map Entry.state := by
  induction es with
  | nil => rfl
  | cons e es ih =>
    unfold headedAll
    split
    · rw [List.map_cons, List.map_cons, ih]
    · rw [List.map_cons, List.map_cons, headed_state]

theorem extra_headedAll (h : ∀ e ∈ es, e.extra = false) : ∀ e ∈ headedAll leaves es, e.extra = false := by
  induction es with
  | nil => exact h
  | cons e es ih =>
    obtain ⟨he, hes⟩ := List.forall_mem_cons.1 h
    unfold headedAll
    split
    · exact List.forall_mem_cons.2 ⟨he, ih hes⟩
    · exact List.forall_mem_cons.2 ⟨headed_extra.trans he, hes⟩

theorem join_elements_eq_nil_iff (e child : Entry) :
    (e.join child).elements = [] ↔ e.elements = [] ∧ child.elements = [] := by
  cases he : e.elements <;> simp [join, he]

theorem foldl_join_elements_eq_nil_iff (children : List Entry) (e : Entry) :
    (children.foldl join e).elements = [] ↔
      e.elements = [] ∧ ∀ child ∈ children, child.elements = [] := by
  induction children generalizing e with
  | nil => simp
  | cons child children ih =>
    rw [List.foldl_cons, ih, join_elements_eq_nil_iff, List.forall_mem_cons, and_assoc]

theorem ofChildren_elements_eq_nil_iff (state offset : Nat) (children : List Entry) :
    (ofChildren state children offset).elements = [] ↔
      ∀ child ∈ children, child.elements = [] := by
  rw [ofChildren, foldl_join_elements_eq_nil_iff]
  simp

theorem foldl_join_headed (children : List Entry) (h : e.elements ≠ []) :
    children.foldl join (e.headed leaves) = (children.foldl join e).headed leaves := by
  induction children generalizing e with
  | nil => rfl
  | cons child children ih =>
    have hjoin : (e.join child).elements ≠ [] := fun hnil =>
      h ((join_elements_eq_nil_iff e child).1 hnil).1
    have hfirst : (e.headed leaves).join child = (e.join child).headed leaves := by
      rw [headed_of_ne_nil h, headed_of_ne_nil hjoin]
      simp [join, h]
    rw [List.foldl_cons, hfirst, ih hjoin, List.foldl_cons]

/-- Trivia in front of several entries stand in front of what they are joined to. -/
theorem foldl_join_headedAll (hes : ∀ e ∈ es, e.elements = [] → e.leading = [])
    (hnil : e.elements = []) (hleading : e.leading = []) :
    (headedAll leaves es).foldl join e = (es.foldl join e).headed leaves := by
  induction es generalizing e with
  | nil => exact (headed_of_eq_nil hnil).symm
  | cons child es ih =>
    obtain ⟨hchild, hes⟩ := List.forall_mem_cons.1 hes
    unfold headedAll
    split
    · rename_i hempty
      have hempty := List.isEmpty_iff.1 hempty
      exact ih hes ((join_elements_eq_nil_iff e child).2 ⟨hnil, hempty⟩)
        (by simp [join, hnil, hleading, hchild hempty])
    · rename_i hne
      have hne : child.elements ≠ [] := fun h => hne (List.isEmpty_iff.2 h)
      have hjoin : (e.join child).elements ≠ [] := fun h =>
        hne ((join_elements_eq_nil_iff e child).1 h).2
      have hfirst : e.join (child.headed leaves) = (e.join child).headed leaves := by
        rw [headed_of_ne_nil hne, headed_of_ne_nil hjoin]
        simp [join, hnil, hleading]
      rw [List.foldl_cons, hfirst, foldl_join_headed es hjoin, List.foldl_cons]

theorem ofChildren_headedAll (state offset : Nat)
    (hes : ∀ e ∈ es, e.elements = [] → e.leading = []) :
    ofChildren state (headedAll leaves es) offset = (ofChildren state es offset).headed leaves :=
  foldl_join_headedAll hes rfl rfl

theorem wrapped_elements_eq_nil_iff {g : Grammar} {lhs : Nat}
    (hvisible : g.visibleKind? lhs ≠ none → e.elements ≠ []) :
    (wrapped g lhs e).elements = [] ↔ e.elements = [] := by
  unfold wrapped
  split
  · rfl
  · rename_i kind hkind
    simp [hvisible (by simp [hkind])]

theorem wrapped_extra (g : Grammar) (lhs : Nat) (e : Entry) : (wrapped g lhs e).extra = e.extra := by
  unfold wrapped
  split <;> rfl

theorem wrapped_headed (g : Grammar) (lhs : Nat)
    (hvisible : g.visibleKind? lhs ≠ none → e.elements ≠ []) :
    wrapped g lhs (e.headed leaves) = (wrapped g lhs e).headed leaves := by
  unfold wrapped
  cases hkind : g.visibleKind? lhs with
  | none => rfl
  | some kind =>
    have hne := hvisible (by simp [hkind])
    simp [headed, hne]

/-! ## Entries that are built again -/

/-- On every tidy stack with the given state on top, in front of all lexemes that agree with `f` as far
as byte `W`, the entry is built again, up to the trivia in front of it, by the given moves. -/
structure Replays (table : Table) (W state : Nat) (f : Lexemes) (e : Entry) (moves : List Move) :
    Prop where
  run : ∀ (stack : Stack) (g : Lexemes) (p q : Nat), stack.Tidy →
    Stack.topState stack = state → Agrees W p f q g →
      Plains table stack g (e.headed (g 0).leading :: stack) (after moves g)
  allows : Allows W moves f
  takes : e.elements ≠ [] → .take ∈ moves
  idles : e.elements = [] → e.leading = [] ∧ .take ∉ moves

variable {table : Table} {V W p q state : Nat} {f g : Lexemes} {moves more : List Move}

theorem Replays.mono (h : Replays table W state f e moves) (hV : W ≤ V) :
    Replays table V state f e moves where
  run stack g p q htidy htop hfg := h.run stack g p q htidy htop (hfg.mono hV)
  allows := h.allows.mono hV
  takes := h.takes
  idles := h.idles

/-- An entry that is built again in front of some lexemes is built again in front of all lexemes that
agree with them. -/
theorem Replays.transfer (h : Replays table W state f e moves) (hfg : Agrees W p f q g)
    (hV : W + q ≤ V + p) : Replays table V state g e moves where
  run stack k _ _ htidy htop hgk := h.run stack k _ _ htidy htop (hfg.trans hgk hV)
  allows := hfg.allows h.allows hV
  takes := h.takes
  idles := h.idles

/-- The trivia in front do not matter. -/
theorem Replays.of_headed {e' : Entry} (h : Replays table W state f e moves)
    (hheaded : ∀ leaves, e'.headed leaves = e.headed leaves) (hne : e'.elements ≠ []) :
    Replays table W state f e' moves where
  run stack g p q htidy htop hfg := hheaded _ ▸ h.run stack g p q htidy htop hfg
  allows := h.allows
  takes _ := by
    refine h.takes fun hnil => hne ?_
    have helements : (e'.headed []).elements = e.elements := by rw [hheaded, headed_elements]
    rw [← hnil, ← helements, headed_elements]
  idles hnil := absurd hnil hne

/-- A token that was read without a choice is read again. -/
theorem replays_token {kind : Kind} {next : Nat}
    (hsole : candidates table state (f 0).kind = [(kind, .shift next)]) (hreach : (f 0).reach ≤ W) :
    Replays table W state f (ofLexeme (f 0) kind next false) [.take] where
  run stack g p q htidy htop hfg := by
    obtain ⟨hkind, htext, -⟩ := hfg.same 0 hreach
    have hheaded : (ofLexeme (f 0) kind next false).headed (g 0).leading =
        ofLexeme (g 0) kind next false := by
      simp [headed, ofLexeme, htext]
    rw [hheaded]
    refine Plain.plains (.shift ?_)
    rw [htop, hkind]
    exact hsole
  allows := trivial
  takes _ := List.mem_singleton_self _
  idles h := by cases h

/-- A `>>` that was split without a choice is split again. -/
theorem Replays.split (h : Replays table W state f e moves)
    (hnil : candidates table e.state (after moves f 0).kind = [])
    (hkind : (after moves f 0).kind = .shr) (htext : (after moves f 0).text = ['>', '>'])
    (hgt : table.hasAction e.state .gt = true) (hreach : (after moves f 0).reach ≤ W) :
    Replays table W state f e (moves ++ [.split]) where
  run stack g p q htidy htop hfg := by
    obtain ⟨hkind', -, -⟩ := (hfg.after h.allows).same 0 hreach
    refine (h.run stack g p q htidy htop hfg).trans ?_
    rw [Lexemes.after_append]
    refine Plain.plains (.split ?_ ?_ ?_)
    · rw [Stack.topState, headed_state, hkind']
      exact hnil
    · rw [hkind', hkind]
    · rw [Stack.topState, headed_state]
      exact hgt
  allows := Lexemes.allows_append.2 ⟨h.allows, hkind, htext, hreach, trivial⟩
  takes hne := List.mem_append_left _ (h.takes hne)
  idles hnil := ⟨(h.idles hnil).1, by simpa using (h.idles hnil).2⟩

/-! ## Several entries -/

/-- The entries are built again one after the other. -/
inductive ReplaysAll (table : Table) (W : Nat) : Nat → Lexemes → List Entry → List Move → Prop where
  | nil {state : Nat} {f : Lexemes} : ReplaysAll table W state f [] []
  | cons {state : Nat} {f : Lexemes} {e : Entry} {es : List Entry} {moves more : List Move}
      (h : Replays table W state f e moves) (hextra : e.extra = false)
      (hplace : e.elements ≠ [] → (f 0).reach ≤ W ∧ e.leading = bareTokens (f 0).leading)
      (hrest : ReplaysAll table W e.state (after moves f) es more) :
      ReplaysAll table W state f (e :: es) (moves ++ more)

theorem ReplaysAll.mono (h : ReplaysAll table W state f es moves) (hV : W ≤ V) :
    ReplaysAll table V state f es moves := by
  induction h with
  | nil => exact .nil
  | cons h hextra hplace _ ih =>
    exact .cons (h.mono hV) hextra
      (fun hne => ⟨Nat.le_trans (hplace hne).1 hV, (hplace hne).2⟩) ih

theorem ReplaysAll.append {others : List Entry} (h : ReplaysAll table W state f es moves)
    (hmore : ReplaysAll table W ((es.map Entry.state).getLast?.getD state) (after moves f) others
      more) : ReplaysAll table W state f (es ++ others) (moves ++ more) := by
  induction h with
  | nil => exact hmore
  | @cons state f e es moves rest h hextra hplace _ ih =>
    rw [List.cons_append, List.append_assoc]
    refine .cons h hextra hplace (ih ?_)
    rw [Lexemes.after_append] at hmore
    cases es with
    | nil => exact hmore
    | cons second es => simpa [List.getLast?_cons] using hmore

theorem ReplaysAll.allows (h : ReplaysAll table W state f es moves) : Allows W moves f := by
  induction h with
  | nil => trivial
  | cons h _ _ _ ih => exact Lexemes.allows_append.2 ⟨h.allows, ih⟩

theorem ReplaysAll.extra (h : ReplaysAll table W state f es moves) :
    ∀ e ∈ es, e.extra = false := by
  induction h with
  | nil => exact List.forall_mem_nil _
  | cons _ hextra _ _ ih => exact List.forall_mem_cons.2 ⟨hextra, ih⟩

theorem ReplaysAll.bare (h : ReplaysAll table W state f es moves) :
    ∀ e ∈ es, e.elements = [] → e.leading = [] := by
  induction h with
  | nil => exact List.forall_mem_nil _
  | cons h _ _ _ ih => exact List.forall_mem_cons.2 ⟨fun hnil => (h.idles hnil).1, ih⟩

/-- Lexemes are taken just for entries that are not empty. -/
theorem ReplaysAll.take_mem_iff (h : ReplaysAll table W state f es moves) :
    .take ∉ moves ↔ ∀ e ∈ es, e.elements = [] := by
  induction h with
  | nil => simp
  | @cons state f e es moves rest h _ _ _ ih =>
    rw [List.mem_append, not_or, ih, List.forall_mem_cons]
    refine and_congr_left fun _ => ⟨fun hnot => ?_, fun hnil => (h.idles hnil).2⟩
    by_contra hne
    exact hnot (h.takes hne)

/-- In front of lexemes with the same trivia, the entries are built exactly as they were. -/
theorem ReplaysAll.run_exact (h : ReplaysAll table W state f es moves) {stack : Stack}
    (htidy : stack.Tidy) (htop : Stack.topState stack = state) (hfg : Agrees W p f q g)
    (hexact : Exact W f g) : Plains table stack g (es.reverse ++ stack) (after moves g) := by
  induction h generalizing stack g with
  | nil => exact .done
  | @cons state f e es moves more h hextra hplace hrest ih =>
    have hheaded : e.headed (g 0).leading = e := by
      by_cases hne : e.elements = []
      · exact headed_of_eq_nil hne
      · obtain ⟨hreach, hleading⟩ := hplace hne
        rw [headed_of_ne_nil hne, hexact hreach, ← hleading]
    have hfirst := h.run stack g p q htidy htop hfg
    rw [hheaded] at hfirst
    rw [Lexemes.after_append, List.reverse_cons, List.append_assoc]
    exact hfirst.trans (ih (htidy.cons hextra) rfl (hfg.after h.allows)
      (hexact.after hfg h.allows))

/-- In front of lexemes with other trivia, only the trivia in front of all of them differ. -/
theorem ReplaysAll.run (h : ReplaysAll table W state f es moves) {stack : Stack}
    (htidy : stack.Tidy) (htop : Stack.topState stack = state) (hfg : Agrees W p f q g) :
    Plains table stack g ((headedAll (g 0).leading es).reverse ++ stack) (after moves g) := by
  induction h generalizing stack g with
  | nil => exact .done
  | @cons state f e es moves more h hextra hplace hrest ih =>
    have hfirst := h.run stack g p q htidy htop hfg
    have hlater := hfg.after h.allows
    rw [Lexemes.after_append]
    unfold headedAll
    split
    · -- An empty entry takes no lexeme, so the trivia are still to come.
      rename_i hnil
      have hnil := List.isEmpty_iff.1 hnil
      rw [headed_of_eq_nil hnil] at hfirst
      have hrest := ih (htidy.cons hextra) rfl hlater
      rw [(Lexemes.after_front (h.idles hnil).2).1] at hrest
      rw [List.reverse_cons, List.append_assoc]
      exact hfirst.trans hrest
    · rename_i hne
      have hne : e.elements ≠ [] := fun hnil => hne (List.isEmpty_iff.2 hnil)
      rw [List.reverse_cons, List.append_assoc]
      refine hfirst.trans (hrest.run_exact (htidy.cons ?_) ?_ hlater ?_)
      · rw [headed_extra, hextra]
      · rw [Stack.topState, headed_state]
      · exact hfg.exact_after h.allows (h.takes hne)

/-! ## Reductions -/

theorem popSymbols?_append {entries : List Entry} (taken : List Entry) {stack : Stack}
    (hentries : ∀ e ∈ entries, e.extra = false) (hstack : stack ≠ []) :
    Stack.popSymbols? entries.length (entries ++ stack) taken =
      some (entries.reverse ++ taken, stack) := by
  induction entries generalizing taken with
  | nil => simp [Stack.popSymbols?]
  | cons e entries ih =>
    obtain ⟨he, hentries⟩ := List.forall_mem_cons.1 hentries
    obtain ⟨below, rest, hcons⟩ : ∃ below rest, entries ++ stack = below :: rest :=
      List.exists_cons_of_ne_nil (List.append_ne_nil_of_right_ne_nil _ hstack)
    rw [List.length_cons, List.cons_append, hcons, Stack.popSymbols?, if_neg (by simp [he]),
      ← hcons, ih (e :: taken) hentries, List.reverse_cons, List.append_assoc]
    rfl

/-- A reduction on a tidy stack. -/
theorem reduced?_of_tidy {entries : List Entry} {stack : Stack} {production next : Nat}
    {rule : Production} (fork : Bool) (hentries : ∀ e ∈ entries, e.extra = false)
    (htidy : stack.Tidy) (hrule : table.grammar.productions[production]? = some rule)
    (hlength : rule.rhs.length = entries.length)
    (hgoto : table.goto? (Stack.topState stack) rule.lhs = some next) :
    Stack.reduced? table fork production (entries.reverse ++ stack) =
      some (wrapped table.grammar rule.lhs ((ofChildren next entries 0).forked fork) :: stack) := by
  have hreverse : ∀ e ∈ entries.reverse, e.extra = false := fun e he =>
    hentries e (List.mem_reverse.1 he)
  have hall : Stack.Tidy (entries.reverse ++ stack) := htidy.append hreverse
  have hdrop : (entries.reverse ++ stack).dropWhile Entry.extra = entries.reverse ++ stack :=
    List.dropWhile_eq_self_iff.2 fun hlt => by simp [hall.2 _ (List.getElem_mem hlt)]
  have htake : (entries.reverse ++ stack).takeWhile Entry.extra = [] :=
    List.takeWhile_eq_nil_iff.2 fun hlt => by simp [hall.2 _ (List.getElem_mem hlt)]
  have hpop := popSymbols?_append [] hreverse htidy.1
  rw [List.length_reverse, List.reverse_reverse, List.append_nil] at hpop
  simp only [Stack.reduced?, hrule, Option.bind_some, hdrop, htake, hlength, hpop, hgoto,
    Option.map_some, List.map_nil, List.nil_append]

/-- What was reduced without a choice is reduced again. -/
theorem replays_reduce {production next : Nat} {rule : Production} {kind : Kind}
    (h : ReplaysAll table W state f es moves)
    (hrule : table.grammar.productions[production]? = some rule)
    (hlength : rule.rhs.length = es.length) (hgoto : table.goto? state rule.lhs = some next)
    (hvisible : table.grammar.visibleKind? rule.lhs ≠ none → ∃ e ∈ es, e.elements ≠ [])
    (hsole : candidates table ((es.map Entry.state).getLast?.getD state) (after moves f 0).kind =
      [(kind, .reduce production)])
    (hreach : (after moves f 0).reach ≤ W) :
    Replays table W state f (wrapped table.grammar rule.lhs (ofChildren next es 0)) moves := by
  have hvisible : table.grammar.visibleKind? rule.lhs ≠ none →
      (ofChildren next es 0).elements ≠ [] := by
    intro hkind hnil
    obtain ⟨e, he, hne⟩ := hvisible hkind
    exact hne ((ofChildren_elements_eq_nil_iff _ _ _).1 hnil e he)
  have hempty : (wrapped table.grammar rule.lhs (ofChildren next es 0)).elements = [] ↔
      .take ∉ moves := by
    rw [wrapped_elements_eq_nil_iff hvisible, ofChildren_elements_eq_nil_iff, h.take_mem_iff]
  refine ⟨fun stack g p q htidy htop hfg => ?_, h.allows, fun hne => ?_, fun hnil => ⟨?_, ?_⟩⟩
  · obtain ⟨hkind, -, -⟩ := (hfg.after h.allows).same 0 hreach
    have hlength : rule.rhs.length = (headedAll (g 0).leading es).length := by
      rw [hlength, ← List.length_map (f := Entry.state), ← map_state_headedAll, List.length_map]
    have hreduced := reduced?_of_tidy false (extra_headedAll h.extra) htidy hrule hlength
      (htop ▸ hgoto)
    rw [forked_false, ofChildren_headedAll _ _ h.bare, wrapped_headed _ _ hvisible] at hreduced
    have hsole : candidates table (Stack.topState ((headedAll (g 0).leading es).reverse ++ stack))
        (after moves g 0).kind = [(kind, .reduce production)] := by
      rw [Stack.topState_reverse_append, map_state_headedAll, htop, hkind, hsole]
    exact (h.run htidy htop hfg).trans (Plain.plains (.reduce hsole hreduced))
  · by_contra hnot
    exact hne (hempty.2 hnot)
  · have hhidden : table.grammar.visibleKind? rule.lhs = none := by
      by_contra hkind
      exact hvisible hkind ((wrapped_elements_eq_nil_iff hvisible).1 hnil)
    rw [wrapped, hhidden] at hnil ⊢
    refine ofChildren_of_join (P := fun e => e.elements = [] → e.leading = []) next 0
      (fun _ => rfl) (fun e child hchild he => ?_) hnil
    exact join_leading_eq_nil he (h.bare child hchild)
  · exact hempty.1 hnil

end Entry
end SqlTree
