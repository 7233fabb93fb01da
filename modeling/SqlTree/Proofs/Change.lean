import SqlTree.Proofs.Leaves

/-!
# What a changed range leaves out

The changed range of a tree ends where the leaves in front of it and behind it are again those of
the old tree. The search for it takes away what is the same at both ends of two lists of children,
and goes on inside the only pair that is left; so at every level both lists of leaves have a common
beginning and a common end, and the range covers what the new one has in between.

- `Element.shape`       : an element as far as its structure goes
- `Element.same_iff`    : elements are the same if their shapes are
- `Element.differing_spec` : what two lists of children have in common
- `Leaf.DiffersIn`      : two lists of leaves that are alike outside of a range
- `Element.change?_eq_none_iff`, `Element.differsIn_of_change?` : what the search finds
- `Tree.changedSince_spec` : what the changed range of a tree says about the old one
-/

namespace SqlTree
namespace Element

/-! ## Structure -/

mutual

/-- The element without its numbers and without what is recorded about nodes. -/
def shape : Element → Element
  | token _ kind text => token 0 kind text
  | node _ kind _ children => node 0 kind none (shapes children)

def shapes : List Element → List Element
  | [] => []
  | e :: rest => e.shape :: shapes rest

end

theorem shapes_eq_map (es : List Element) : shapes es = es.map shape := by
  induction es with
  | nil => rfl
  | cons e es ih => rw [shapes, ih, List.map_cons]

mutual

/-- Elements are the same if they have the same structure. -/
theorem same_iff : (a b : Element) → (a.same b = true ↔ a.shape = b.shape)
  | token .., token .. => by simp [same, shape]
  | token .., node .. => by simp [same, shape]
  | node .., token .. => by simp [same, shape]
  | node _ _ _ children, node _ _ _ children' => by
    simp [same, shape, sameAll_iff children children']

theorem sameAll_iff : (as bs : List Element) → (sameAll as bs = true ↔ shapes as = shapes bs)
  | [], [] => by simp [sameAll, shapes]
  | [], _ :: _ => by simp [sameAll, shapes]
  | _ :: _, [] => by simp [sameAll, shapes]
  | a :: as, b :: bs => by simp [sameAll, shapes, same_iff a b, sameAll_iff as bs]

end

mutual

theorem tokens_shape : (e : Element) → e.shape.tokens = e.tokens
  | token .. => rfl
  | node _ _ _ children => tokensAll_shapes children

theorem tokensAll_shapes : (es : List Element) → tokensAll (shapes es) = tokensAll es
  | [] => rfl
  | e :: rest => by rw [shapes, tokensAll, tokensAll, tokens_shape e, tokensAll_shapes rest]

end

/-- The leaves are part of the structure. -/
theorem tokensAll_of_map_shape {as bs : List Element} (h : as.map shape = bs.map shape) :
    tokensAll as = tokensAll bs := by
  rw [← tokensAll_shapes as, ← tokensAll_shapes bs, shapes_eq_map, shapes_eq_map, h]

theorem tokensAll_append (as bs : List Element) :
    tokensAll (as ++ bs) = tokensAll as ++ tokensAll bs := by
  induction as with
  | nil => rfl
  | cons a as ih => rw [List.cons_append, tokensAll, tokensAll, ih, List.append_assoc]

theorem spell_tokens (e : Element) : Lexeme.spell e.tokens = e.text := by
  rw [Lexeme.spell, flatMap_tokens]

theorem size_spell_tokens (e : Element) : Text.size (Lexeme.spell e.tokens) = e.size := by
  rw [spell_tokens, size_text]

theorem size_spell_tokensAll (es : List Element) :
    Text.size (Lexeme.spell (tokensAll es)) = sizeAll es := by
  rw [Lexeme.spell, flatMap_tokensAll, size_textAll]

/-! ## Common ends of two lists -/

/-- As many leading elements are counted as are the same, and no more. -/
theorem commonFront_spec (old new : List Element) :
    commonFront old new ≤ old.length ∧
      (old.take (commonFront old new)).map shape = (new.take (commonFront old new)).map shape ∧
      ∀ a ∈ (old.drop (commonFront old new)).head?, ∀ b ∈ (new.drop (commonFront old new)).head?,
        a.shape ≠ b.shape := by
  induction old generalizing new with
  | nil => simp [commonFront]
  | cons a old ih =>
    cases new with
    | nil => simp [commonFront]
    | cons b new =>
      simp only [commonFront]
      split
      · rename_i hsame
        obtain ⟨hle, htake, hdrop⟩ := ih new
        refine ⟨Nat.succ_le_succ hle, ?_, hdrop⟩
        rw [List.take_succ_cons, List.take_succ_cons, List.map_cons, List.map_cons, htake,
          (same_iff a b).1 hsame]
      · rename_i hsame
        refine ⟨Nat.zero_le _, rfl, ?_⟩
        simpa [same_iff] using hsame

/-- What is left of two lists stands between elements that are the same in both, and begins with
different ones. -/
theorem differing_spec (old new : List Element) :
    ∃ back back',
      old = old.take (differing old new).1 ++ ((differing old new).2.1 ++ back) ∧
      new = new.take (differing old new).1 ++ ((differing old new).2.2 ++ back') ∧
      (old.take (differing old new).1).map shape = (new.take (differing old new).1).map shape ∧
      back.map shape = back'.map shape ∧
      ∀ a ∈ ((differing old new).2.1 ++ back).head?,
        ∀ b ∈ ((differing old new).2.2 ++ back').head?, a.shape ≠ b.shape := by
  obtain ⟨-, hfront, hheads⟩ := commonFront_spec old new
  generalize hn : commonFront old new = n at hfront hheads
  obtain ⟨hle, hback, -⟩ := commonFront_spec (old.drop n).reverse (new.drop n).reverse
  generalize hk : commonFront (old.drop n).reverse (new.drop n).reverse = k at hle hback
  have hdiffering : differing old new = (n, (old.drop n).take ((old.drop n).length - k),
      (new.drop n).take ((new.drop n).length - k)) := by
    simp only [differing, hn, hk]
  rw [hdiffering]
  refine ⟨(old.drop n).drop ((old.drop n).length - k), (new.drop n).drop ((new.drop n).length - k),
    ?_, ?_, hfront, ?_, ?_⟩
  · rw [List.take_append_drop, List.take_append_drop]
  · rw [List.take_append_drop, List.take_append_drop]
  · -- The last elements are the first ones of the reversed lists.
    rw [List.take_reverse, List.take_reverse, List.map_reverse, List.map_reverse] at hback
    exact List.reverse_injective hback
  · rw [List.take_append_drop, List.take_append_drop]
    exact hheads

/-- Nothing is left of two lists if and only if they are the same. -/
theorem differing_eq_nil_iff (old new : List Element) :
    ((differing old new).2.1 = [] ∧ (differing old new).2.2 = []) ↔
      old.map shape = new.map shape := by
  obtain ⟨back, back', hold, hnew, hfront, hback, hheads⟩ := differing_spec old new
  generalize (differing old new).2.1 = changed at hold hheads ⊢
  generalize (differing old new).2.2 = changed' at hnew hheads ⊢
  generalize (differing old new).1 = n at hold hnew hfront
  constructor
  · rintro ⟨rfl, rfl⟩
    rw [hold, hnew]
    simp only [List.nil_append, List.map_append, hfront, hback]
  · intro h
    -- What follows the common beginning begins alike, so nothing follows.
    have hrest : (changed ++ back).map shape = (changed' ++ back').map shape := by
      rw [hold, hnew] at h
      simp only [List.map_append, hfront] at h ⊢
      exact List.append_cancel_left h
    cases hcons : changed ++ back with
    | nil =>
      rw [hcons, List.map_nil, eq_comm, List.map_eq_nil_iff, List.append_eq_nil_iff] at hrest
      exact ⟨(List.append_eq_nil_iff.1 hcons).1, hrest.1⟩
    | cons a rest =>
      cases hcons' : changed' ++ back' with
      | nil => simp [hcons, hcons'] at hrest
      | cons b rest' =>
        rw [hcons, hcons', List.map_cons, List.map_cons, List.cons.injEq] at hrest
        exact absurd hrest.1 (hheads a (by simp [hcons]) b (by simp [hcons']))

end Element

/-! ## Leaves outside of a range -/

namespace Leaf

/-- The second list of leaves, which begins at byte `start`, is like the first one in front of
`span` and behind it. -/
def DiffersIn (old new : List Leaf) (start : Nat) (span : Span) : Prop :=
  ∃ before changed changed' after, old = before ++ (changed ++ after) ∧
    new = before ++ (changed' ++ after) ∧
    span = ⟨start + Text.size (Lexeme.spell before),
      start + Text.size (Lexeme.spell before) + Text.size (Lexeme.spell changed')⟩

variable {old new before : List Leaf} {start : Nat} {span : Span}

theorem differsIn_all (old new : List Leaf) (start : Nat) :
    DiffersIn old new start ⟨start, start + Text.size (Lexeme.spell new)⟩ :=
  ⟨[], old, new, [], by simp, by simp, by simp⟩

/-- Further leaves may stand in front and behind. -/
theorem DiffersIn.between (h : DiffersIn old new (start + Text.size (Lexeme.spell before)) span)
    (after : List Leaf) :
    DiffersIn (before ++ (old ++ after)) (before ++ (new ++ after)) start span := by
  obtain ⟨front, changed, changed', back, rfl, rfl, rfl⟩ := h
  refine ⟨before ++ front, changed, changed', back ++ after, by simp, by simp, ?_⟩
  simp only [Lexeme.spell_append, Text.size_append, Nat.add_assoc]

/-- What is in front of the range and what is behind it do not overlap in the old text. -/
theorem DiffersIn.bounds (h : DiffersIn old new 0 span) :
    span.start ≤ span.stop ∧ span.stop ≤ Text.size (Lexeme.spell new) ∧
      span.start + (Text.size (Lexeme.spell new) - span.stop) ≤ Text.size (Lexeme.spell old) := by
  obtain ⟨before, changed, changed', after, rfl, rfl, rfl⟩ := h
  simp only [Lexeme.spell_append, Text.size_append]
  omega

/-- The texts are the same in front of the range and behind it. -/
theorem DiffersIn.texts (h : DiffersIn old new 0 span) :
    (∃ before rest rest', Lexeme.spell old = before ++ rest ∧ Lexeme.spell new = before ++ rest' ∧
        Text.size before = span.start) ∧
      ∃ rest rest' after, Lexeme.spell old = rest ++ after ∧ Lexeme.spell new = rest' ++ after ∧
        Text.size rest' = span.stop := by
  obtain ⟨before, changed, changed', after, rfl, rfl, rfl⟩ := h
  constructor
  · exact ⟨Lexeme.spell before, Lexeme.spell (changed ++ after), Lexeme.spell (changed' ++ after),
      Lexeme.spell_append _ _, Lexeme.spell_append _ _, (Nat.zero_add _).symm⟩
  · refine ⟨Lexeme.spell (before ++ changed), Lexeme.spell (before ++ changed'), Lexeme.spell after,
      by simp, by simp, ?_⟩
    rw [Lexeme.spell_append, Text.size_append, Nat.zero_add]

theorem le_of_mem_place {leaves : List Leaf} {placed : Nat × Leaf}
    (h : placed ∈ place start leaves) :
    start ≤ placed.1 ∧
      placed.1 + Text.size placed.2.2 ≤ start + Text.size (Lexeme.spell leaves) := by
  induction leaves generalizing start with
  | nil => cases h
  | cons leaf leaves ih =>
    rw [Lexeme.spell_cons, Text.size_append]
    rcases List.mem_cons.1 h with rfl | h
    · exact ⟨Nat.le_refl _, by simp only; omega⟩
    · have := ih h
      omega

/-- Leaves that begin elsewhere stand as much further on. -/
theorem mem_place_add {leaves : List Leaf} {offset : Nat} {leaf : Leaf}
    (h : (offset, leaf) ∈ place start leaves) (start' : Nat) :
    ∃ offset', (offset', leaf) ∈ place start' leaves ∧ offset' + start = offset + start' := by
  induction leaves generalizing start start' with
  | nil => cases h
  | cons first leaves ih =>
    rcases List.mem_cons.1 h with heq | h
    · obtain ⟨rfl, rfl⟩ := Prod.mk.inj heq
      exact ⟨start', List.mem_cons_self, Nat.add_comm _ _⟩
    · obtain ⟨offset', hmem, hoffset⟩ := ih h (start' + Text.size first.2)
      exact ⟨offset', List.mem_cons_of_mem _ hmem, by omega⟩

/-- A leaf in front of the range stands in the old list at the same place. -/
theorem DiffersIn.mem_of_stop_le {offset : Nat} {leaf : Leaf} (h : DiffersIn old new start span)
    (hleaf : (offset, leaf) ∈ place start new) (hne : leaf.2 ≠ [])
    (hstop : offset + Text.size leaf.2 ≤ span.start) : (offset, leaf) ∈ place start old := by
  obtain ⟨before, changed, changed', after, rfl, rfl, rfl⟩ := h
  rw [place_append] at hleaf ⊢
  rcases List.mem_append.1 hleaf with hleaf | hleaf
  · exact List.mem_append_left _ hleaf
  · -- It is not empty, so it would end inside of the range or behind it.
    have hle := (le_of_mem_place hleaf).1
    have hpos : 0 < Text.size leaf.2 :=
      Nat.pos_of_ne_zero fun hzero => hne (Text.eq_nil_of_size_eq_zero hzero)
    simp only at hle hstop
    omega

/-- A leaf behind the range stands in the old list as far from the end. -/
theorem DiffersIn.mem_of_le_start {offset : Nat} {leaf : Leaf} (h : DiffersIn old new start span)
    (hleaf : (offset, leaf) ∈ place start new) (hne : leaf.2 ≠ []) (hstart : span.stop ≤ offset) :
    ∃ offset', (offset', leaf) ∈ place start old ∧
      offset' + Text.size (Lexeme.spell new) = offset + Text.size (Lexeme.spell old) := by
  obtain ⟨before, changed, changed', after, rfl, rfl, rfl⟩ := h
  have hpos : 0 < Text.size leaf.2 :=
    Nat.pos_of_ne_zero fun hzero => hne (Text.eq_nil_of_size_eq_zero hzero)
  rw [place_append, place_append] at hleaf
  simp only [place_append, Lexeme.spell_append, Text.size_append] at hstart ⊢
  rcases List.mem_append.1 hleaf with hleaf | hleaf
  · have hle := (le_of_mem_place hleaf).2
    simp only at hle
    omega
  · rcases List.mem_append.1 hleaf with hleaf | hleaf
    · have hle := (le_of_mem_place hleaf).2
      simp only at hle
      omega
    · obtain ⟨offset', hmem, hoffset⟩ := mem_place_add hleaf
        (start + Text.size (Lexeme.spell before) + Text.size (Lexeme.spell changed))
      refine ⟨offset', ?_, by omega⟩
      exact List.mem_append_right _ (List.mem_append_right _ hmem)

end Leaf

/-! ## The search -/

namespace Element

theorem node_shape_eq_iff {old new : Element} (hold : old.isToken = false)
    (hnew : new.isToken = false) :
    old.shape = new.shape ↔
      old.kind = new.kind ∧ old.children.map shape = new.children.map shape := by
  cases old with
  | token => cases hold
  | node id kind origin children =>
    cases new with
    | token => cases hnew
    | node id' kind' origin' children' =>
      simp [shape, shapes_eq_map, Element.kind, Element.children]

theorem tokens_eq_tokensAll {e : Element} (h : e.isToken = false) :
    e.tokens = tokensAll e.children := by
  cases e with
  | token => cases h
  | node => rfl

/-- If one element is left of each of two lists, the two are not the same. -/
theorem shape_ne_of_differing {old new : List Element} {a b : Element}
    (ha : (differing old new).2.1 = [a]) (hb : (differing old new).2.2 = [b]) :
    a.shape ≠ b.shape := by
  obtain ⟨back, back', -, -, -, -, hheads⟩ := differing_spec old new
  exact hheads a (by simp [ha]) b (by simp [hb])

/-- No range is found if and only if the elements have the same structure. -/
theorem change?_eq_none_iff {old new : Element} (hold : old.isToken = false)
    (hnew : new.isToken = false) (start : Nat) :
    change? old new start = none ↔ old.shape = new.shape := by
  rw [node_shape_eq_iff hold hnew, ← differing_eq_nil_iff]
  fun_induction change? old new start with
  | case1 old new start hkind => simp [hkind]
  | case2 old new start hkind parts hnil' hnil =>
    simp only [ne_eq, not_not] at hkind
    simp [hkind, show (differing old.children new.children).2.1 = [] from hnil,
      show (differing old.children new.children).2.2 = [] from hnil']
  | case3 old new start hkind parts offset a b hb ha hnodes ih =>
    -- The pair that is left is not the same, so something is found inside of it.
    have hne := shape_ne_of_differing ha hb
    simp only [Bool.and_eq_true, Bool.not_eq_true'] at hnodes
    rw [ih hnodes.1.1 hnodes.1.2, differing_eq_nil_iff, ← node_shape_eq_iff hnodes.1.1 hnodes.1.2]
    simp [hne, show (differing old.children new.children).2.1 = [a] from ha]
  | case4 old new start hkind parts offset a b hb ha hnodes =>
    simp [show (differing old.children new.children).2.1 = [a] from ha]
  | case5 old new start hkind parts offset hnil hsingle =>
    simpa using fun _ => hnil

/-- If the leaves of what is left of two lists of children differ in a range, those of the whole
lists do. -/
theorem differsIn_of_differing {old new : List Element} {start : Nat} {span : Span}
    (h : Leaf.DiffersIn (tokensAll (differing old new).2.1) (tokensAll (differing old new).2.2)
      (start + sizeAll (new.take (differing old new).1)) span) :
    Leaf.DiffersIn (tokensAll old) (tokensAll new) start span := by
  obtain ⟨back, back', hold, hnew, hfront, hback, -⟩ := differing_spec old new
  have hfront := tokensAll_of_map_shape hfront
  have hback := tokensAll_of_map_shape hback
  rw [← size_spell_tokensAll] at h
  have hbetween := h.between (tokensAll back')
  rwa [← hback, ← tokensAll_append, ← hfront, ← tokensAll_append, ← hold, hfront, hback,
    ← tokensAll_append, ← tokensAll_append, ← hnew] at hbetween

/-- The range that is found is the only place in which the leaves differ. -/
theorem differsIn_of_change? {old new : Element} {start : Nat} {span : Span}
    (h : change? old new start = some span) (hold : old.isToken = false)
    (hnew : new.isToken = false) : Leaf.DiffersIn old.tokens new.tokens start span := by
  fun_induction change? old new start with
  | case1 old new start hkind =>
    cases h
    rw [← size_spell_tokens]
    exact Leaf.differsIn_all _ _ _
  | case2 => cases h
  | case3 old new start hkind parts offset a b hb ha hnodes ih =>
    simp only [Bool.and_eq_true, Bool.not_eq_true'] at hnodes
    have hinner := ih h hnodes.1.1 hnodes.1.2
    rw [tokens_eq_tokensAll hold, tokens_eq_tokensAll hnew]
    refine differsIn_of_differing ?_
    rw [show (differing old.children new.children).2.1 = [a] from ha,
      show (differing old.children new.children).2.2 = [b] from hb]
    simpa only [tokensAll, List.append_nil] using hinner
  | case4 old new start hkind parts offset a b hb ha hnodes =>
    cases h
    rw [tokens_eq_tokensAll hold, tokens_eq_tokensAll hnew]
    refine differsIn_of_differing ?_
    rw [show (differing old.children new.children).2.2 = [b] from hb, ← size_spell_tokens]
    simpa only [tokensAll, List.append_nil] using Leaf.differsIn_all _ b.tokens offset
  | case5 old new start hkind parts offset hnil hsingle =>
    cases h
    rw [tokens_eq_tokensAll hold, tokens_eq_tokensAll hnew, ← size_spell_tokensAll]
    exact differsIn_of_differing (Leaf.differsIn_all _ _ _)

end Element

/-! ## Changed ranges of trees -/

namespace Tree

open Leaf (place)

/-- There is no changed range if and only if the trees have the same structure. A changed range lies
inside of the new tree. The texts of both trees are the same in front of it and behind it, without
sharing a byte of the old text; and every leaf that is not empty and stands wholly in front of it or
wholly behind it is found in the old tree, as far from the beginning or as far from the end. -/
theorem changedSince_spec (old new : Tree) (hold : old.root.isToken = false)
    (hnew : new.root.isToken = false) :
    (new.changedSince old = none ↔ old.root.shape = new.root.shape) ∧
    ∀ span ∈ new.changedSince old,
      span.start ≤ span.stop ∧ span.stop ≤ new.root.size ∧
      (∃ before rest rest', old.root.text = before ++ rest ∧ new.root.text = before ++ rest' ∧
        Text.size before = span.start) ∧
      (∃ rest rest' after, old.root.text = rest ++ after ∧ new.root.text = rest' ++ after ∧
        Text.size rest' = span.stop) ∧
      span.start + (new.root.size - span.stop) ≤ old.root.size ∧
      (∀ offset leaf, (offset, leaf) ∈ place 0 new.root.tokens → leaf.2 ≠ [] →
        offset + Text.size leaf.2 ≤ span.start → (offset, leaf) ∈ place 0 old.root.tokens) ∧
      ∀ offset leaf, (offset, leaf) ∈ place 0 new.root.tokens → leaf.2 ≠ [] →
        span.stop ≤ offset → ∃ offset', (offset', leaf) ∈ place 0 old.root.tokens ∧
          offset' + new.root.size = offset + old.root.size := by
  refine ⟨Element.change?_eq_none_iff hold hnew 0, fun span hspan => ?_⟩
  have hdiffers := Element.differsIn_of_change? hspan hold hnew
  have hbounds := hdiffers.bounds
  have htexts := hdiffers.texts
  rw [Element.size_spell_tokens, Element.size_spell_tokens] at hbounds
  rw [Element.spell_tokens, Element.spell_tokens] at htexts
  refine ⟨hbounds.1, hbounds.2.1, htexts.1, htexts.2, hbounds.2.2, ?_, ?_⟩
  · exact fun offset leaf hleaf hne hstop => hdiffers.mem_of_stop_le hleaf hne hstop
  · intro offset leaf hleaf hne hstart
    obtain ⟨offset', hmem, hoffset⟩ := hdiffers.mem_of_le_start hleaf hne hstart
    rw [Element.size_spell_tokens, Element.size_spell_tokens] at hoffset
    exact ⟨offset', hmem, hoffset⟩

/-- A column gets another name: the comma behind it stands as far from the end as before. -/
theorem changedSince_spec_column :
    let tree (name : List Char) : Tree := {
      text := name ++ [' ', ',']
      root := .node 0 .sourceFile none [.node 1 .column none [.token 2 .ident name],
        .token 3 .whitespace [' '], .token 4 .comma [',']]
      diagnostics := []
      reused := 0
      nextId := 5 }
    (tree ['b', 'c']).changedSince (tree ['a']) = some ⟨0, 2⟩ ∧
      ∃ offset', (offset', (.comma, [','])) ∈ place 0 (tree ['a']).root.tokens ∧
        offset' + 4 = 3 + 3 := by
  intro tree
  have hchanged : (tree ['b', 'c']).changedSince (tree ['a']) = some ⟨0, 2⟩ := by
    decide +kernel
  obtain ⟨-, -, -, -, -, -, hbehind⟩ := (changedSince_spec _ _ rfl rfl).2 _ hchanged
  exact ⟨hchanged, hbehind 3 (.comma, [',']) (by decide) (by decide) (by decide)⟩

end Tree
end SqlTree
