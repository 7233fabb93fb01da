import SqlTree.Proofs.Incremental.Verdict

/-!
# Machines that run alike

Two machines may differ in the numbers of their elements, in what is recorded about their nodes and in
how far they have read the text, and the trees from which they may take nodes may differ as well. As
long as neither takes a node over, all that they do is the same, repairs and diagnostics included.

- `Entry.face`, `Machine.Twin` : entries and machines that differ in nothing else
- `Machine.Twin.recover?`      : repairs are the same
- `Machine.Twin.step`          : so are steps, unless the second machine takes a node over
- `Machine.Twin.finish`        : so are the trees
-/

namespace SqlTree

/-! ## Entries -/

namespace Entry

/-- The place of an entry that is empty or a single token. -/
def mark (e : Entry) : Option Span :=
  match e.elements with
  | [] => some ⟨e.start, e.stop⟩
  | [.token ..] => some ⟨e.start, e.stop⟩
  | _ => none

/-- The shape of an entry, and its place as far as a diagnostic may name it. -/
def face (e : Entry) : Entry × Option Span := (e.shape, e.mark)

variable {e e' child child' : Entry}

theorem shape_of_face (h : e.face = e'.face) : e.shape = e'.shape := congrArg Prod.fst h

theorem mark_of_face (h : e.face = e'.face) : e.mark = e'.mark := congrArg Prod.snd h

theorem isEmpty_of_shape (h : e.shape = e'.shape) :
    e.leading.isEmpty = e'.leading.isEmpty ∧ e.elements.isEmpty = e'.elements.isEmpty := by
  have hleading := congrArg (fun x => x.leading.isEmpty) h
  have helements := congrArg (fun x => x.elements.isEmpty) h
  simp only [shape, List.isEmpty_map] at hleading helements
  exact ⟨hleading, helements⟩

theorem mark_join (e child : Entry) : (e.join child).mark =
    if child.elements.isEmpty then
      if e.elements.isEmpty || child.leading.isEmpty then e.mark else none
    else if e.elements.isEmpty then child.mark else none := by
  unfold mark join
  cases he : e.elements with
  | nil => cases hchild : child.elements <;> simp
  | cons x xs =>
    cases hchild : child.elements with
    | nil => cases hleading : child.leading <;> simp
    | cons y ys => cases hleading : child.leading <;> simp

theorem face_join (he : e.face = e'.face) (hchild : child.face = child'.face) :
    (e.join child).face = (e'.join child').face := by
  obtain ⟨-, hempty⟩ := isEmpty_of_shape (shape_of_face he)
  obtain ⟨hleading, helements⟩ := isEmpty_of_shape (shape_of_face hchild)
  have hshape : (e.join child).shape = (e'.join child').shape := by
    rw [shape_join, shape_join, shape_of_face he, shape_of_face hchild]
  have hmark : (e.join child).mark = (e'.join child').mark := by
    rw [mark_join, mark_join, hempty, hleading, helements, mark_of_face he, mark_of_face hchild]
  exact Prod.ext hshape hmark

theorem face_foldl_join {children children' : List Entry}
    (h : children.map face = children'.map face) (he : e.face = e'.face) :
    (children.foldl join e).face = (children'.foldl join e').face := by
  induction children generalizing e e' children' with
  | nil =>
    obtain rfl := List.map_eq_nil_iff.1 h.symm
    exact he
  | cons child children ih =>
    obtain ⟨child', children', rfl, hchild, hchildren⟩ := List.map_eq_cons_iff.1 h.symm
    rw [List.foldl_cons, List.foldl_cons]
    exact ih hchildren.symm (face_join he hchild.symm)

theorem face_ofChildren {children children' : List Entry}
    (h : children.map face = children'.map face) (state offset : Nat) :
    (ofChildren state children offset).face = (ofChildren state children' offset).face :=
  face_foldl_join h rfl

/-- A lexeme put behind the elements of an entry. -/
theorem face_append (he : e.face = e'.face) {leading leading' : List Element}
    (hleading : leading.map Element.shape = leading'.map Element.shape) (id id' : Nat) (kind : Kind)
    (text : List Char) (start stop : Nat) :
    (if e.elements.isEmpty then
      { e with
        leading := e.leading ++ leading
        elements := [.token id kind text]
        start := start
        stop := stop }
      else { e with elements := e.elements ++ leading ++ [Element.token id kind text], stop := stop }).face =
    (if e'.elements.isEmpty then
      { e' with
        leading := e'.leading ++ leading'
        elements := [.token id' kind text]
        start := start
        stop := stop }
      else { e' with
        elements := e'.elements ++ leading' ++ [Element.token id' kind text], stop := stop }).face := by
  have hshape := shape_of_face he
  obtain ⟨-, hempty⟩ := isEmpty_of_shape hshape
  simp only [shape, Entry.mk.injEq] at hshape
  rw [← hempty]
  split
  · simp [face, shape, mark, hshape, hleading, Element.shape]
  · rename_i hne
    have hne' : ¬ e'.elements.isEmpty := hempty ▸ hne
    obtain ⟨x, xs, hcons⟩ := List.exists_cons_of_ne_nil fun hnil => hne (List.isEmpty_iff.2 hnil)
    obtain ⟨x', xs', hcons'⟩ := List.exists_cons_of_ne_nil fun hnil => hne' (List.isEmpty_iff.2 hnil)
    refine Prod.ext ?_ ?_
    · simp [face, shape, hshape, hleading, Element.shape]
    · cases leading <;> cases leading' <;> cases xs <;> cases xs' <;> simp [face, mark, hcons, hcons']

/-- The elements of an entry under one node. -/
theorem face_node (he : e.face = e'.face) {node node' : Element} (hnode : node.isToken = false)
    (hnode' : node'.isToken = false) (hshape : node.shape = node'.shape) :
    ({ e with elements := [node] } : Entry).face = ({ e' with elements := [node'] } : Entry).face := by
  have hsame := shape_of_face he
  simp only [Entry.shape, Entry.mk.injEq] at hsame
  refine Prod.ext ?_ ?_
  · simp [face, Entry.shape, hsame, hshape]
  · cases node with
    | token => cases hnode
    | node => cases node' with
      | token => cases hnode'
      | node => rfl

theorem face_extra (he : e.face = e'.face) (hasError extra : Bool) :
    ({ e with hasError := hasError, extra := extra } : Entry).face =
      ({ e' with hasError := hasError, extra := extra } : Entry).face := by
  have hsame := congrArg (fun x => (({ x.1 with hasError := hasError, extra := extra } : Entry), x.2)) he
  exact hsame

theorem face_forked (he : e.face = e'.face) (fork : Bool) :
    (e.forked fork).face = (e'.forked fork).face := by
  have hsame := congrArg (fun x => (x.1.forked fork, x.2)) he
  exact hsame

theorem face_state (es : List Entry) (state : Nat) :
    (es.map fun e => ({ e with state := state } : Entry)).map face =
      (es.map face).map fun x => ({ x.1 with state := state }, x.2) := by
  rw [List.map_map, List.map_map]
  rfl

/-- Whether the place of an entry may be named can be told from its shape. -/
theorem mark_of_shape (hplace : (⟨e.start, e.stop⟩ : Span) = ⟨e'.start, e'.stop⟩)
    (h : e.elements.map Element.shape = e'.elements.map Element.shape) : e.mark = e'.mark := by
  unfold mark
  rw [hplace]
  generalize e.elements = es, e'.elements = es' at h ⊢
  rcases es with _ | ⟨x, _ | ⟨y, es⟩⟩
  · obtain rfl := List.map_eq_nil_iff.1 h.symm
    rfl
  · obtain ⟨x', rfl, hx⟩ := List.map_eq_singleton_iff.1 h.symm
    cases x <;> cases x' <;> first | rfl | cases hx
  · obtain ⟨x', rest, rfl, -, hrest⟩ := List.map_eq_cons_iff.1 h.symm
    obtain ⟨y', rest, rfl, -, -⟩ := List.map_eq_cons_iff.1 hrest
    simp

/-- Trivia that were skipped. -/
theorem face_leading (he : e.face = e'.face) (hempty : e.elements = []) (extra : Bool) :
    ({ e with leading := [], elements := e.leading, extra := extra } : Entry).face =
      ({ e' with leading := [], elements := e'.leading, extra := extra } : Entry).face := by
  have hsame := shape_of_face he
  simp only [Entry.shape, Entry.mk.injEq] at hsame
  have hempty' : e'.elements = [] := by
    rw [← List.map_eq_nil_iff (f := Element.shape), ← hsame.2.2.1, hempty, List.map_nil]
  have hplace : some (⟨e.start, e.stop⟩ : Span) = some ⟨e'.start, e'.stop⟩ := by
    have hmark := mark_of_face he
    simpa [mark, hempty, hempty'] using hmark
  refine Prod.ext ?_ ?_
  · simp [face, Entry.shape, hsame]
  · exact mark_of_shape (Option.some.inj hplace) hsame.2.1

end Entry

/-! ## Stacks -/

namespace Stack

open Entry (face)

variable {stack stack' : Stack}

theorem shape_of_faces (h : stack.map face = stack'.map face) : shape stack = shape stack' := by
  have hshape := congrArg (List.map Prod.fst) h
  rwa [List.map_map, List.map_map] at hshape

theorem length_of_faces (h : stack.map face = stack'.map face) : stack.length = stack'.length := by
  rw [← List.length_map (f := face), h, List.length_map]

theorem map_state_of_faces (h : stack.map face = stack'.map face) :
    stack.map Entry.state = stack'.map Entry.state := by
  have hstates := congrArg (List.map fun x => x.1.state) h
  rwa [List.map_map, List.map_map] at hstates

theorem takeWhile_extra_of_faces (h : stack.map face = stack'.map face) :
    (stack.takeWhile Entry.extra).map face = (stack'.takeWhile Entry.extra).map face := by
  have htake := congrArg (List.takeWhile fun x => x.1.extra) h
  rwa [List.takeWhile_map, List.takeWhile_map] at htake

theorem dropWhile_extra_of_faces (h : stack.map face = stack'.map face) :
    (stack.dropWhile Entry.extra).map face = (stack'.dropWhile Entry.extra).map face := by
  have hdrop := congrArg (List.dropWhile fun x => x.1.extra) h
  rwa [List.dropWhile_map, List.dropWhile_map] at hdrop

/-- The entries of the last grammar symbols have the same faces. -/
theorem popSymbols?_of_faces (n : Nat) {taken taken' : List Entry}
    (h : stack.map face = stack'.map face) (htaken : taken.map face = taken'.map face) :
    (popSymbols? n stack taken = none ∧ popSymbols? n stack' taken' = none) ∨
      ∃ children below children' below', popSymbols? n stack taken = some (children, below) ∧
        popSymbols? n stack' taken' = some (children', below') ∧
        children.map face = children'.map face ∧ below.map face = below'.map face := by
  fun_induction popSymbols? n stack taken generalizing stack' taken' with
  | case1 stack taken => exact Or.inr ⟨_, _, _, _, rfl, by rw [popSymbols?], htaken, h⟩
  | case2 n e next rest taken hextra ih =>
    obtain ⟨e', stack', rfl, he, hstack⟩ := List.map_eq_cons_iff.1 h.symm
    obtain ⟨next', rest', rfl, -, -⟩ := List.map_eq_cons_iff.1 hstack
    have hextra' : e'.extra = true := (congrArg (fun x => x.1.extra) he).trans hextra
    rw [popSymbols?, if_pos hextra']
    exact ih hstack.symm (by rw [List.map_cons, List.map_cons, he, htaken])
  | case3 n e next rest taken hextra ih =>
    obtain ⟨e', stack', rfl, he, hstack⟩ := List.map_eq_cons_iff.1 h.symm
    obtain ⟨next', rest', rfl, -, -⟩ := List.map_eq_cons_iff.1 hstack
    have hextra' : ¬ e'.extra = true := by
      rwa [show e'.extra = e.extra from congrArg (fun x => x.1.extra) he]
    rw [popSymbols?, if_neg hextra']
    exact ih hstack.symm (by rw [List.map_cons, List.map_cons, he, htaken])
  | case4 stack n taken hshort =>
    refine Or.inl ⟨rfl, ?_⟩
    rcases stack' with _ | ⟨e', _ | ⟨next', rest'⟩⟩
    · rfl
    · rfl
    · obtain ⟨e, stack, rfl, -, hstack⟩ := List.map_eq_cons_iff.1 h
      obtain ⟨next, rest, rfl, -, -⟩ := List.map_eq_cons_iff.1 hstack
      exact absurd rfl (hshort e next rest)

end Stack

/-! ## Machines -/

namespace Machine

open Entry (face)

variable {setting setting' : Setting} {m m' : Machine}

/-- The machines differ in numbers, records and the extent of what was read only. -/
structure Twin (m m' : Machine) : Prop where
  faces : m.stack.map face = m'.stack.map face
  ahead : m.source.ahead = m'.source.ahead
  size : m.source.size = m'.source.size
  injected : m.injected = m'.injected
  repairs : m.repairs = m'.repairs
  forkPending : m.forkPending = m'.forkPending
  diagnostics : m.diagnostics = m'.diagnostics

namespace Twin

theorem shape (h : Twin m m') : Stack.shape m.stack = Stack.shape m'.stack :=
  Stack.shape_of_faces h.faces

theorem topState (h : Twin m m') : m.topState = m'.topState := Stack.topState_of_shape_eq h.shape

theorem length (h : Twin m m') : m.stack.length = m'.stack.length := Stack.length_of_faces h.faces

/-- Looking ahead changes nothing. -/
theorem looked (h : Twin m m') (n k : Nat) : Twin (m.looked n) (m'.looked k) where
  faces := h.faces
  ahead := by rw [looked_ahead, looked_ahead, h.ahead]
  size := by
    have hsize := Source.fetchMany_size n m.source
    exact hsize.trans (h.size.trans (Source.fetchMany_size k m'.source).symm)
  injected := h.injected
  repairs := h.repairs
  forkPending := h.forkPending
  diagnostics := h.diagnostics

theorem peek (h : Twin m m') (n : Nat) :
    (m.peek n).1 = (m'.peek n).1 ∧ Twin (m.peek n).2 (m'.peek n).2 := by
  rw [peek_eq, peek_eq]
  exact ⟨congrFun h.ahead n, h.looked _ _⟩

theorem simulate (h : Twin m m') (hlike : setting.Like setting') (trial : Trial) {o o' : Overlay}
    (hstack : o.shape = o'.shape) :
    (m.simulate setting trial o).1 = (m'.simulate setting' trial o').1 ∧
      Twin (m.simulate setting trial o).2 (m'.simulate setting' trial o').2 := by
  obtain ⟨n, hn⟩ := simulate_snd setting m trial o
  obtain ⟨k, hk⟩ := simulate_snd setting' m' trial o'
  rw [hn, hk]
  exact ⟨simulate_congr hlike hstack h.ahead trial, h.looked n k⟩

theorem bump (h : Twin m m') : m.bump.1 = m'.bump.1 ∧ Twin m.bump.2 m'.bump.2 := by
  refine ⟨congrFun h.ahead 0, h.faces, ?_, ?_, h.injected, h.repairs, h.forkPending, h.diagnostics⟩
  · have hahead := Source.ahead_bump_eq m.source
    rw [h.ahead] at hahead
    exact hahead.trans (Source.ahead_bump_eq m'.source).symm
  · exact ((h.peek 0).2).size

theorem newTokens (h : Twin m m') (leaves : List Leaf) :
    (m.newTokens leaves).1.map Element.shape = (m'.newTokens leaves).1.map Element.shape ∧
      Twin (m.newTokens leaves).2 (m'.newTokens leaves).2 := by
  rw [shapes_newTokens, shapes_newTokens]
  exact ⟨rfl, h.faces, h.ahead, h.size, h.injected, h.repairs, h.forkPending, h.diagnostics⟩

theorem newNode (h : Twin m m') (kind : Kind) (origin origin' : Option Origin)
    {children children' : List Element}
    (hchildren : children.map Element.shape = children'.map Element.shape) :
    (m.newNode kind origin children).1.shape = (m'.newNode kind origin' children').1.shape ∧
      Twin (m.newNode kind origin children).2 (m'.newNode kind origin' children').2 := by
  refine ⟨?_, h.faces, h.ahead, h.size, h.injected, h.repairs, h.forkPending, h.diagnostics⟩
  simp only [Machine.newNode, Element.shape, Element.shapes_eq_map, hchildren]

theorem push (h : Twin m m') {e e' : Entry} (he : e.face = e'.face) :
    Twin (m.push e) (m'.push e') where
  faces := by
    have hcons := congrArg₂ List.cons he h.faces
    rwa [← List.map_cons, ← List.map_cons] at hcons
  ahead := h.ahead
  size := h.size
  injected := h.injected
  repairs := h.repairs
  forkPending := h.forkPending
  diagnostics := h.diagnostics

theorem report (h : Twin m m') (d : Diagnostic) : Twin (m.report d) (m'.report d) where
  faces := h.faces
  ahead := h.ahead
  size := h.size
  injected := h.injected
  repairs := h.repairs
  forkPending := h.forkPending
  diagnostics := congrArg (· ++ [d]) h.diagnostics

theorem amend (h : Twin m m') (injected : Option Kind) (repairs : Repairs) :
    Twin { m with injected := injected, repairs := repairs }
      { m' with injected := injected, repairs := repairs } where
  faces := h.faces
  ahead := h.ahead
  size := h.size
  injected := rfl
  repairs := rfl
  forkPending := h.forkPending
  diagnostics := h.diagnostics

/-! ### What diagnostics are about -/

theorem context (h : Twin m m') (table : Table) : m.context table = m'.context table := by
  have hstates (m : Machine) : (m.stack.findSome? fun entry => table.context? entry.state) =
      (m.stack.map Entry.state).findSome? table.context? := by
    rw [List.findSome?_map]
    rfl
  simp only [Machine.context, hstates, Stack.map_state_of_faces h.faces]

theorem reportSkip (h : Twin m m') (table : Table) (first : Lexeme) :
    Twin (m.reportSkip table first) (m'.reportSkip table first) := by
  unfold Machine.reportSkip
  rw [h.context]
  split
  · exact h.report _
  · exact h.report _

end Twin

/-- Whether an entry is a single token shows in its face, and so does the place of it. -/
theorem unclosed?_of_faces (opener closer : Kind) (closed : Nat) {stack stack' : Stack}
    (h : stack.map face = stack'.map face) :
    unclosed? opener closer closed stack = unclosed? opener closer closed stack' := by
  induction stack generalizing closed stack' with
  | nil =>
    obtain rfl := List.map_eq_nil_iff.1 h.symm
    rfl
  | cons e stack ih =>
    obtain ⟨e', stack', rfl, he, hstack⟩ := List.map_eq_cons_iff.1 h.symm
    have hrest (closed : Nat) := ih closed hstack.symm
    have helements : e.elements.map Element.shape = e'.elements.map Element.shape :=
      congrArg (fun x => x.1.elements) he.symm
    have hmark : e.mark = e'.mark := congrArg Prod.snd he.symm
    unfold unclosed?
    unfold Entry.mark at hmark
    match hes : e.elements, hes' : e'.elements with
    | [], [] => simp only [hrest]
    | [.token id kind text], [.token id' kind' text'] =>
      simp only [hes, hes', List.map_cons, List.map_nil, Element.shape, List.cons.injEq,
        Element.token.injEq, true_and, and_true, Option.some.injEq] at helements hmark
      simp only [helements.1, hmark, hrest]
    | [.node ..], [.node ..] => simp only [hrest]
    | _ :: _ :: _, _ :: _ :: _ => simp only [hrest]
    | [], _ :: _ | _ :: _, [] => simp [hes, hes'] at helements
    | [.token ..], [.node ..] | [.node ..], [.token ..] =>
      simp [hes, hes', Element.shape] at helements
    | [_], _ :: _ :: _ | _ :: _ :: _, [_] => simp [hes, hes'] at helements

/-- Both go on, or both come to an end. -/
inductive Progress.Twin : Progress → Progress → Prop where
  | running {m m' : Machine} (h : m.Twin m') : Twin (.running m) (.running m')
  | finished {m m' : Machine} (h : m.Twin m') : Twin (.finished m) (.finished m')

namespace Twin

theorem openedAt (h : Twin m m') (kind : Kind) :
    openedAt m.stack kind = openedAt m'.stack kind := by
  unfold Machine.openedAt
  split
  · rfl
  · rw [unclosed?_of_faces _ _ _ h.faces]

/-! ### Repairs -/

theorem firstFitting? (h : Twin m m') (hlike : setting.Like setting') (kinds : List Kind) :
    (firstFitting? setting kinds m).1 = (firstFitting? setting' kinds m').1 ∧
      Twin (firstFitting? setting kinds m).2 (firstFitting? setting' kinds m').2 := by
  induction kinds generalizing m m' with
  | nil => exact ⟨rfl, h⟩
  | cons kind kinds ih =>
    obtain ⟨hreach, hnext⟩ := h.simulate hlike
      { injected := some kind, limit := 2 + setting'.options.recoveryValidation }
      (shape_ofStack h.shape)
    simp only [Machine.firstFitting?, hlike.options, hreach]
    split
    · exact ⟨rfl, hnext⟩
    · exact ih hnext

theorem tryInsert (h : Twin m m') (hlike : setting.Like setting') (current : Lexeme) :
    (m.tryInsert setting current).1 = (m'.tryInsert setting' current).1 ∧
      Twin (m.tryInsert setting current).2 (m'.tryInsert setting' current).2 := by
  obtain ⟨hkind, hnext⟩ := h.firstFitting? hlike (insertions setting'.table m'.topState)
  unfold Machine.tryInsert
  rw [hlike.table, h.topState]
  generalize Machine.firstFitting? setting (insertions setting'.table m'.topState) m = found at *
  generalize Machine.firstFitting? setting' (insertions setting'.table m'.topState) m' = found' at *
  obtain ⟨kind, n⟩ := found
  obtain ⟨kind', n'⟩ := found'
  obtain rfl : kind = kind' := hkind
  cases kind with
  | none => exact ⟨rfl, hnext⟩
  | some kind =>
    have hnext : Twin n n' := hnext
    dsimp only
    rw [hnext.context, hnext.openedAt, hnext.repairs]
    exact ⟨rfl, (hnext.amend _ _).report _⟩

theorem skipInto (h : Twin m m') (n : Nat) {e e' : Entry} (he : e.face = e'.face) :
    (skipInto n e m).1.face = (skipInto n e' m').1.face ∧
      Twin (skipInto n e m).2 (skipInto n e' m').2 := by
  induction n generalizing e e' m m' with
  | zero => exact ⟨he, h⟩
  | succ n ih =>
    obtain ⟨hlexeme, hbump⟩ := h.bump
    obtain ⟨hleading, htokens⟩ := hbump.newTokens m'.bump.1.leading
    have hnext : Twin ((m.bump.2.newTokens m'.bump.1.leading).2.newToken m'.bump.1.kind m'.bump.1.text).2
        ((m'.bump.2.newTokens m'.bump.1.leading).2.newToken m'.bump.1.kind m'.bump.1.text).2 :=
      ⟨htokens.faces, htokens.ahead, htokens.size, htokens.injected, htokens.repairs,
        htokens.forkPending, htokens.diagnostics⟩
    unfold Machine.skipInto
    rw [← hlexeme] at hleading hnext
    dsimp only
    rw [← hlexeme]
    exact ih hnext (Entry.face_append he hleading _ _ _ _ _ _)

theorem skip (h : Twin m m') (skipped depth : Nat) :
    Twin (m.skip skipped depth) (m'.skip skipped depth) := by
  unfold Machine.skip
  simp only [h.length]
  generalize min depth (m'.stack.length - 1) = d
  have hbelow : Twin { m with stack := m.stack.drop d } { m' with stack := m'.stack.drop d } := by
    refine ⟨?_, h.ahead, h.size, h.injected, h.repairs, h.forkPending, h.diagnostics⟩
    simp only [List.map_drop, h.faces]
  obtain ⟨hlexeme, hlooked⟩ := hbelow.peek 0
  have hpopped : (m.stack.take d).reverse.map face = (m'.stack.take d).reverse.map face := by
    rw [List.map_reverse, List.map_reverse, List.map_take, List.map_take, h.faces]
  generalize Machine.peek { m with stack := m.stack.drop d } 0 = looked at *
  generalize Machine.peek { m' with stack := m'.stack.drop d } 0 = looked' at *
  obtain ⟨lexeme, k⟩ := looked
  obtain ⟨lexeme', k'⟩ := looked'
  obtain rfl : lexeme = lexeme' := hlexeme
  obtain ⟨hentry, hnext⟩ := hlooked.skipInto skipped
    (Entry.face_ofChildren hpopped k'.topState lexeme.fullStart)
  dsimp only
  rw [hlooked.topState]
  generalize Machine.skipInto skipped _ k = gathered at *
  generalize Machine.skipInto skipped _ k' = gathered' at *
  obtain ⟨e, n⟩ := gathered
  obtain ⟨e', n'⟩ := gathered'
  have hentry : e.face = e'.face := hentry
  have hnext : Twin n n' := hnext
  obtain ⟨hleading, helements⟩ := Entry.isEmpty_of_shape (Entry.shape_of_face hentry)
  dsimp only
  rw [hleading, helements]
  split
  · rename_i hempty
    split
    · exact hnext
    · exact hnext.push (Entry.face_leading hentry (List.isEmpty_iff.1 (helements ▸ hempty)) true)
  · have hshapes : e.elements.map Element.shape = e'.elements.map Element.shape :=
      congrArg (fun x => x.1.elements) hentry
    obtain ⟨hnode, hmade⟩ := hnext.newNode .error none none hshapes
    exact hmade.push (Entry.face_extra (Entry.face_node hentry rfl rfl hnode) true true)

theorem applySkip (h : Twin m m') (table : Table) (skipped depth : Nat) (current : Lexeme) :
    Twin (m.applySkip table skipped depth current) (m'.applySkip table skipped depth current) := by
  unfold Machine.applySkip
  split
  · have hskip := (h.amend m'.injected { m'.repairs with popped := true }).skip skipped depth
    have hpopped : { m with repairs := { m.repairs with popped := true } } =
        { m with injected := m'.injected, repairs := { m'.repairs with popped := true } } := by
      rw [← h.injected, h.repairs]
    simp only [hpopped]
    rw [hskip.context]
    exact hskip.report _
  · exact (h.skip skipped depth).reportSkip table current

/-! ### Resuming -/

theorem resumeFrom? (h : Twin m m') (hlike : setting.Like setting') (kind : Kind)
    (skipped trials : Nat) (depths : List Nat) :
    (m.resumeFrom? setting kind skipped trials depths).1 =
        (m'.resumeFrom? setting' kind skipped trials depths).1 ∧
      Twin (m.resumeFrom? setting kind skipped trials depths).2
        (m'.resumeFrom? setting' kind skipped trials depths).2 := by
  induction depths generalizing trials m m' with
  | nil => cases trials <;> exact ⟨rfl, h⟩
  | cons depth depths ih =>
    cases trials with
    | zero => exact ⟨rfl, h⟩
    | succ trials =>
      have hstack := shape_popped h.shape depth
      have htop : (Overlay.popped m.stack depth).top? = (Overlay.popped m'.stack depth).top? := by
        rw [← Overlay.top?_shape, hstack, Overlay.top?_shape]
      obtain ⟨hreach, hnext⟩ := h.simulate hlike
        { skipped := skipped, limit := 1 + setting'.options.recoveryValidation } hstack
      simp only [Machine.resumeFrom?, htop, hlike.table, hlike.options, hreach]
      split
      · exact ⟨rfl, h⟩
      · split
        · split
          · exact ⟨rfl, hnext⟩
          · exact ih hnext trials
        · exact ih h (trials + 1)

theorem resumeDepth? (h : Twin m m') (hlike : setting.Like setting') (depths : List Nat)
    (skipped : Nat) :
    (m.resumeDepth? setting depths skipped).1 = (m'.resumeDepth? setting' depths skipped).1 ∧
      Twin (m.resumeDepth? setting depths skipped).2
        (m'.resumeDepth? setting' depths skipped).2 := by
  obtain ⟨hlexeme, hlooked⟩ := h.peek skipped
  unfold Machine.resumeDepth?
  dsimp only
  rw [hlexeme]
  exact hlooked.resumeFrom? hlike _ _ _ _

theorem resynchronizeFrom (h : Twin m m') (hlike : setting.Like setting') (context : Context)
    (current : Lexeme) (fuel skipped : Nat) :
    Twin (m.resynchronizeFrom setting context current fuel skipped)
      (m'.resynchronizeFrom setting' context current fuel skipped) := by
  induction fuel generalizing skipped m m' with
  | zero =>
    unfold Machine.resynchronizeFrom
    rw [hlike.table, h.length]
    exact h.applySkip _ _ _ _
  | succ fuel ih =>
    obtain ⟨hlexeme, hlooked⟩ := h.peek skipped
    unfold Machine.resynchronizeFrom
    generalize m.peek skipped = looked at *
    generalize m'.peek skipped = looked' at *
    obtain ⟨lexeme, k⟩ := looked
    obtain ⟨lexeme', k'⟩ := looked'
    obtain rfl : lexeme = lexeme' := hlexeme
    have hlooked : Twin k k' := hlooked
    dsimp only
    -- First the entries are kept, and then some of them are dropped.
    generalize hhere : (if 0 < skipped then k.resumeDepth? setting [0] skipped else (none, k)) = here
    generalize hhere' : (if 0 < skipped then k'.resumeDepth? setting' [0] skipped else (none, k')) =
      here'
    have hsame : here.1 = here'.1 ∧ Twin here.2 here'.2 := by
      rw [← hhere, ← hhere']
      split
      · exact hlooked.resumeDepth? hlike [0] skipped
      · exact ⟨rfl, hlooked⟩
    obtain ⟨hdepth, hkept⟩ := hsame
    rw [hdepth, hlike.table, hkept.repairs, hkept.length]
    split
    · exact hkept.applySkip _ _ _ _
    · generalize hdeep : (if ((boundaries.contains lexeme.kind ||
          context.resumeTokens.contains lexeme.kind) &&
          (decide (0 < skipped) || !here'.2.repairs.popped)) = true then
          here.2.resumeDepth? setting ((List.range here'.2.stack.length).drop 1) skipped
        else (none, here.2)) = deep
      generalize hdeep' : (if ((boundaries.contains lexeme.kind ||
          context.resumeTokens.contains lexeme.kind) &&
          (decide (0 < skipped) || !here'.2.repairs.popped)) = true then
          here'.2.resumeDepth? setting' ((List.range here'.2.stack.length).drop 1) skipped
        else (none, here'.2)) = deep'
      have hsame : deep.1 = deep'.1 ∧ Twin deep.2 deep'.2 := by
        rw [← hdeep, ← hdeep']
        split
        · exact hkept.resumeDepth? hlike _ _
        · exact ⟨rfl, hkept⟩
      obtain ⟨hdepth, hdropped⟩ := hsame
      rw [hdepth, hdropped.length]
      split
      · exact hdropped.applySkip _ _ _ _
      · split
        · exact hdropped.applySkip _ _ _ _
        · exact ih hdropped _

theorem resynchronize (h : Twin m m') (hlike : setting.Like setting') (current : Lexeme) :
    Twin (m.resynchronize setting current) (m'.resynchronize setting' current) := by
  unfold Machine.resynchronize
  rw [hlike.table, h.context, h.size]
  exact h.resynchronizeFrom hlike _ _ _ _

theorem beginRepair (h : Twin m m') (current : Lexeme) :
    Twin (m.beginRepair current) (m'.beginRepair current) := by
  unfold Machine.beginRepair
  rw [h.repairs]
  exact ⟨h.faces, h.ahead, h.size, h.injected, rfl, h.forkPending, h.diagnostics⟩

theorem dropInjected (h : Twin m m') (options : Options) :
    Twin (m.dropInjected options) (m'.dropInjected options) := by
  unfold Machine.dropInjected
  rw [h.injected, h.repairs]
  split
  · exact h.amend _ _
  · exact h

/-- Repairs are the same. -/
theorem recover? (h : Twin m m') (hlike : setting.Like setting') :
    (m.recover? setting = none ∧ m'.recover? setting' = none) ∨
      ∃ n n', m.recover? setting = some n ∧ m'.recover? setting' = some n' ∧ Twin n n' := by
  obtain ⟨hlexeme, hlooked⟩ := h.peek 0
  unfold Machine.recover?
  generalize m.peek 0 = looked at *
  generalize m'.peek 0 = looked' at *
  obtain ⟨current, k⟩ := looked
  obtain ⟨current', k'⟩ := looked'
  obtain rfl : current = current' := hlexeme
  have hbegun := (Twin.beginRepair hlooked current).dropInjected setting'.options
  dsimp only at hbegun ⊢
  rw [hlike.options, hbegun.repairs]
  generalize (k.beginRepair current).dropInjected setting'.options = n at *
  generalize (k'.beginRepair current).dropInjected setting'.options = n' at *
  split
  · split
    · exact Or.inl ⟨rfl, rfl⟩
    · refine Or.inr ⟨_, _, rfl, rfl, ?_⟩
      rw [hlike.table]
      exact (hbegun.skip 1 0).reportSkip _ _
  · split
    · obtain ⟨hfound, htried⟩ := hbegun.tryInsert hlike current
      generalize n.tryInsert setting current = tried at *
      generalize n'.tryInsert setting' current = tried' at *
      obtain ⟨found, p⟩ := tried
      obtain ⟨found', p'⟩ := tried'
      obtain rfl : found = found' := hfound
      cases found with
      | true => exact Or.inr ⟨_, _, rfl, rfl, htried⟩
      | false => exact Or.inr ⟨_, _, rfl, rfl, Twin.resynchronize htried hlike current⟩
    · exact Or.inr ⟨_, _, rfl, rfl, hbegun.resynchronize hlike current⟩

/-! ### Steps -/

theorem repairOrEnd (h : Twin m m') (hlike : setting.Like setting') :
    (m.repairOrEnd setting).Twin (m'.repairOrEnd setting') := by
  unfold Machine.repairOrEnd
  rcases h.recover? hlike with ⟨hnone, hnone'⟩ | ⟨n, n', hsome, hsome', hnext⟩
  · rw [hnone, hnone']
    exact .finished h
  · rw [hsome, hsome']
    exact .running hnext

theorem ready (h : Twin m m') (only : Bool) (n k : Nat) : Twin (m.ready only n) (m'.ready only k) where
  faces := h.faces
  ahead := (h.looked n k).ahead
  size := (h.looked n k).size
  injected := h.injected
  repairs := h.repairs
  forkPending := congrArg (· || !only) h.forkPending
  diagnostics := h.diagnostics

theorem shiftToken (h : Twin m m') (kind : Kind) (state : Nat) :
    Twin (m.shiftToken kind state) (m'.shiftToken kind state) := by
  obtain ⟨-, hbump⟩ := h.bump
  have hentry : (m.tokenEntry kind state).face = (m'.tokenEntry kind state).face := by
    refine Prod.ext ?_ ?_
    · simp only [Entry.face, shape_tokenEntry, h.ahead, h.forkPending]
    · simp only [Entry.face, Entry.mark, tokenEntry, h.ahead]
  have hpush := hbump.push hentry
  rw [shiftToken_eq, shiftToken_eq]
  exact ⟨hpush.faces, hpush.ahead, hpush.size, h.injected, h.repairs, rfl, h.diagnostics⟩

theorem shiftMissing (h : Twin m m') (kind : Kind) (state : Nat) :
    Twin (m.shiftMissing kind state) (m'.shiftMissing kind state) := by
  obtain ⟨-, hlooked⟩ := h.peek 0
  have hentry : (m.missingEntry kind state).face = (m'.missingEntry kind state).face := by
    refine Prod.ext ?_ rfl
    simp only [Entry.face, Entry.shape, missingEntry, h.forkPending, List.map_nil, List.map_cons,
      Element.shape, Element.shapes]
  have hpush := hlooked.push hentry
  rw [shiftMissing_eq, shiftMissing_eq]
  exact ⟨hpush.faces, hpush.ahead, hpush.size, rfl, h.repairs, rfl, h.diagnostics⟩

theorem shift (h : Twin m m') (kind : Kind) (state : Nat) :
    Twin (m.shift kind state) (m'.shift kind state) := by
  unfold Machine.shift
  rw [h.injected]
  split
  · exact h.shiftMissing kind state
  · exact h.shiftToken kind state

theorem wrap (h : Twin m m') (g : Grammar) (base lhs : Nat) {e e' : Entry} (he : e.face = e'.face) :
    (m.wrap g base lhs e).1.face = (m'.wrap g base lhs e').1.face ∧
      Twin (m.wrap g base lhs e).2 (m'.wrap g base lhs e').2 := by
  unfold Machine.wrap
  cases g.visibleKind? lhs with
  | none => exact ⟨he, h⟩
  | some kind =>
    have hshapes : e.elements.map Element.shape = e'.elements.map Element.shape :=
      congrArg (fun x => x.1.elements) he
    obtain ⟨hnode, hmade⟩ := h.newNode kind
      (some ⟨base, m.source.examined - e.start, !e.hasError && !e.fragile⟩)
      (some ⟨base, m'.source.examined - e'.start, !e'.hasError && !e'.fragile⟩) hshapes
    exact ⟨Entry.face_node he rfl rfl hnode, hmade⟩

theorem reduce? (h : Twin m m') (htable : setting.table = setting'.table) (production : Nat) :
    (m.reduce? setting production = none ∧ m'.reduce? setting' production = none) ∨
      ∃ n n', m.reduce? setting production = some n ∧ m'.reduce? setting' production = some n' ∧
        Twin n n' := by
  unfold Machine.reduce?
  rw [htable]
  cases setting'.table.grammar.productions[production]? with
  | none => exact Or.inl ⟨rfl, rfl⟩
  | some p =>
    simp only [Option.bind_some]
    have hnothing : ([] : List Entry).map Entry.face = ([] : List Entry).map Entry.face := rfl
    rcases Stack.popSymbols?_of_faces p.rhs.length (Stack.dropWhile_extra_of_faces h.faces) hnothing with
      ⟨hnone, hnone'⟩ | ⟨children, below, children', below', hsome, hsome', hchildren, hbelow⟩
    · rw [hnone, hnone']
      exact Or.inl ⟨rfl, rfl⟩
    · have htop : Stack.topState below = Stack.topState below' :=
        Stack.topState_of_shape_eq (Stack.shape_of_faces hbelow)
      rw [hsome, hsome']
      simp only [Option.bind_some, htop]
      cases setting'.table.goto? (Stack.topState below') p.lhs with
      | none => exact Or.inl ⟨rfl, rfl⟩
      | some next =>
        refine Or.inr ⟨_, _, rfl, rfl, ?_⟩
        obtain ⟨hlexeme, hlooked⟩ := h.peek 0
        generalize m.peek 0 = looked at *
        generalize m'.peek 0 = looked' at *
        obtain ⟨lexeme, k⟩ := looked
        obtain ⟨lexeme', k'⟩ := looked'
        obtain rfl : lexeme = lexeme' := hlexeme
        have hlooked : Twin k k' := hlooked
        have hjoined := Entry.face_forked
          (Entry.face_ofChildren hchildren next lexeme.fullStart) k'.forkPending
        obtain ⟨hentry, hmade⟩ := hlooked.wrap setting'.table.grammar (Stack.topState below') p.lhs hjoined
        have hextras := congrArg (List.map fun x => (({ x.1 with state := next } : Entry), x.2))
          (Stack.takeWhile_extra_of_faces h.faces)
        rw [← Entry.face_state, ← Entry.face_state] at hextras
        dsimp only
        rw [hlooked.forkPending]
        refine ⟨?_, hmade.ahead, hmade.size, hmade.injected, hmade.repairs, hmade.forkPending,
          hmade.diagnostics⟩
        dsimp only
        rw [List.map_append, List.map_append, List.map_cons, List.map_cons, hextras, hbelow]
        exact congrArg _ (congrArg (· :: _) hentry)

/-- A step does the same, unless the second machine takes a node over. -/
theorem step (h : Twin m m') (hlike : setting.Like setting') (hreuse : setting.reuse = none) :
    (m.step setting).Twin (m'.step setting') ∨
      m'.injected = none ∧ m'.forkPending = false ∧ ∃ n kind state taken,
        m'.verdict setting' = .act true kind (.shift state) ∧
        (m'.looked n).takeOver? setting' m'.topState = some taken ∧
        m'.step setting' = .running taken := by
  obtain ⟨n, hbuffer, hstep⟩ := step_verdict setting m
  obtain ⟨k, hbuffer', hstep'⟩ := step_verdict setting' m'
  rw [hstep, hstep', verdict_congr hlike h.shape h.ahead h.injected]
  cases hverdict : m'.verdict setting' with
  | split =>
    obtain ⟨-, -, hkind, -⟩ := of_verdict_split hverdict
    have hlooked := h.looked n k
    have hahead := looked_ahead m' k
    have hkind' : ((m'.looked k).source.ahead 0).kind = .shr := by rw [hahead, hkind]
    refine Or.inl (.running ⟨h.faces, ?_, ?_, h.injected, h.repairs, h.forkPending, h.diagnostics⟩)
    · have hsplit := Source.ahead_splitShift_of_shr hbuffer' hkind'
      have hsplit' := Source.ahead_splitShift_of_shr hbuffer (by rw [hlooked.ahead, hkind'])
      rw [hlooked.ahead] at hsplit'
      exact hsplit'.trans hsplit.symm
    · have hsize := (Source.size_splitShift (m.looked n).source).trans hlooked.size
      exact hsize.trans (Source.size_splitShift (m'.looked k).source).symm
  | repair => exact Or.inl ((h.looked n k).repairOrEnd hlike)
  | act only kind action =>
    have hready := h.ready only n k
    cases action with
    | accept => exact Or.inl (.finished hready)
    | reduce production =>
      refine Or.inl ?_
      simp only [enforce, act]
      rcases hready.reduce? hlike.table production with ⟨hnone, hnone'⟩ | ⟨p, p', hsome, hsome', hnext⟩
      · rw [hnone, hnone']
        exact hready.repairOrEnd hlike
      · rw [hsome, hsome']
        exact .running hnext
    | shift state =>
      have hnone : m.enforce setting n (.act only kind (.shift state)) =
          .running ((m.ready only n).shift kind state) := by
        simp only [enforce, act, takeOver?, hreuse, Option.bind_none, ite_self]
      rw [hnone]
      simp only [enforce, act]
      split
      · rename_i taken htaken
        obtain ⟨hcond, htaken⟩ := Option.ite_none_right_eq_some.1 htaken
        simp only [Bool.and_eq_true, Option.isNone_iff_eq_none, Bool.not_eq_true', Machine.ready] at hcond
        obtain ⟨⟨rfl, hinjected⟩, hfork⟩ := hcond
        rw [ready_true] at htaken
        exact Or.inr ⟨hinjected, by simpa using hfork, k, kind, state, taken, rfl, htaken, rfl⟩
      · exact Or.inl (.running (hready.shift kind state))

/-! ### Trees -/

theorem leftOver (h : Twin m m') (fuel : Nat) :
    (leftOver fuel m).1.map Element.shape = (leftOver fuel m').1.map Element.shape ∧
      Twin (leftOver fuel m).2 (leftOver fuel m').2 := by
  induction fuel generalizing m m' with
  | zero => exact ⟨rfl, h⟩
  | succ fuel ih =>
    obtain ⟨hlexeme, hlooked⟩ := h.peek 0
    unfold Machine.leftOver
    generalize m.peek 0 = looked at *
    generalize m'.peek 0 = looked' at *
    obtain ⟨lexeme, k⟩ := looked
    obtain ⟨lexeme', k'⟩ := looked'
    obtain rfl : lexeme = lexeme' := hlexeme
    have hlooked : Twin k k' := hlooked
    dsimp only
    split
    · exact ⟨rfl, hlooked⟩
    · obtain ⟨hlexeme, hbump⟩ := hlooked.bump
      rw [hlexeme]
      obtain ⟨hleaves, htokens⟩ := hbump.newTokens k'.bump.1.leaves
      obtain ⟨hrest, hnext⟩ := ih htokens
      exact ⟨by rw [List.map_append, List.map_append, hleaves, hrest], hnext⟩

theorem elements (h : Twin m m') :
    (elements m.stack).map Element.shape = (elements m'.stack).map Element.shape := by
  rw [Stack.map_shape_elements, Stack.map_shape_elements, h.shape]

/-- The trees have the same shape and the same diagnostics. -/
theorem finish (h : Twin m m') (text : List Char) :
    (m.finish text).root.shape = (m'.finish text).root.shape ∧
      (m.finish text).diagnostics = (m'.finish text).diagnostics := by
  have hchildren := h.elements
  obtain ⟨hleft, hrest⟩ := h.leftOver (m'.source.size + 1)
  unfold Machine.finish
  rw [h.size]
  generalize Machine.leftOver (m'.source.size + 1) m = found at *
  generalize Machine.leftOver (m'.source.size + 1) m' = found' at *
  obtain ⟨rest, k⟩ := found
  obtain ⟨rest', k'⟩ := found'
  have hleft : rest.map Element.shape = rest'.map Element.shape := hleft
  have hrest : Twin k k' := hrest
  have hempty : rest.isEmpty = rest'.isEmpty := by
    rw [← List.isEmpty_map (f := Element.shape), hleft, List.isEmpty_map]
  dsimp only
  rw [hempty]
  generalize hwrapped : (if rest'.isEmpty then (([] : List Element), k) else
    ([(k.newNode .error none rest).1], (k.newNode .error none rest).2)) = wrapped
  generalize hwrapped' : (if rest'.isEmpty then (([] : List Element), k') else
    ([(k'.newNode .error none rest').1], (k'.newNode .error none rest').2)) = wrapped'
  have hsame : wrapped.1.map Element.shape = wrapped'.1.map Element.shape ∧
      Twin wrapped.2 wrapped'.2 := by
    rw [← hwrapped, ← hwrapped']
    split
    · exact ⟨rfl, hrest⟩
    · obtain ⟨hnode, hmade⟩ := hrest.newNode .error none none hleft
      exact ⟨congrArg (fun x => [x]) hnode, hmade⟩
  obtain ⟨herrors, hmade⟩ := hsame
  obtain ⟨heof, hbump⟩ := hmade.bump
  obtain ⟨htrivia, htokens⟩ := hbump.newTokens wrapped'.2.bump.1.leading
  rw [heof]
  refine ⟨(htokens.newNode .sourceFile none none ?_).1, htokens.diagnostics⟩
  simp only [List.map_append, hchildren, herrors, htrivia]

end Twin

end Machine
end SqlTree
