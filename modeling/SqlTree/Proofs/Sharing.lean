import SqlTree.Proofs.Numbering

/-!
# What two trees share

After an edit, a tree shares with the one before it what was taken over and nothing else. No element
is taken over twice: those taken over stand one behind the other in the new text, so they did in the
old one, and two elements of one tree that have something in common lie one inside the other. So the
numbers of every tree are different again.

- `Element.mem_inside_or_mem_inside` : elements that have something in common
- `Edit.Carries`          : where an edit puts what it leaves alone
- `Element.TakenFrom`     : what is known about an element that was taken over
- `Tree.Reached.numbered` : the numbers of a tree are different
- `Element.maximalShared` : the shared nodes that lie in no other shared node
- `BigQuery.shared_nodes` : what two trees share
-/

namespace SqlTree
namespace Element

/-! ## Elements inside others -/

mutual

theorem map_preorder_id (e : Element) (depth start : Nat) :
    (e.preorder depth start).map (fun v => v.element.id) = e.ids := by
  cases e with
  | token => rfl
  | node id kind origin children =>
    rw [preorder, List.map_cons, map_preorderAll_id children (depth + 1) start]
    rfl

theorem map_preorderAll_id (es : List Element) (depth start : Nat) :
    (preorderAll es depth start).map (fun v => v.element.id) = idsAll es := by
  cases es with
  | nil => rfl
  | cons e rest =>
    rw [preorderAll, List.map_append, map_preorder_id e, map_preorderAll_id rest]
    rfl

end

theorem id_mem_of_mem_preorder {e : Element} {depth start : Nat} {v : Visit}
    (hv : v ∈ e.preorder depth start) : v.element.id ∈ e.ids := by
  rw [← map_preorder_id e depth start]
  exact List.mem_map_of_mem hv

theorem id_mem_of_mem_preorderAll {es : List Element} {depth start : Nat} {v : Visit}
    (hv : v ∈ preorderAll es depth start) : v.element.id ∈ idsAll es := by
  rw [← map_preorderAll_id es depth start]
  exact List.mem_map_of_mem hv

mutual

theorem ids_sublist_of_mem_preorder (e : Element) {depth start : Nat} {v : Visit}
    (hv : v ∈ e.preorder depth start) : v.element.ids.Sublist e.ids := by
  cases e with
  | token id kind text =>
    obtain rfl := List.mem_singleton.1 hv
    exact .refl _
  | node id kind origin children =>
    rcases List.mem_cons.1 hv with rfl | hv
    · exact .refl _
    · exact .cons _ (ids_sublist_of_mem_preorderAll children hv)

theorem ids_sublist_of_mem_preorderAll (es : List Element) {depth start : Nat} {v : Visit}
    (hv : v ∈ preorderAll es depth start) : v.element.ids.Sublist (idsAll es) := by
  cases es with
  | nil => cases hv
  | cons e rest =>
    rcases List.mem_append.1 hv with hv | hv
    · exact (ids_sublist_of_mem_preorder e hv).trans (List.sublist_append_left _ _)
    · exact (ids_sublist_of_mem_preorderAll rest hv).trans (List.sublist_append_right _ _)

end

/-- Where numbers are different, they tell the elements apart. -/
theorem eq_of_id_eq {e : Element} {depth start : Nat} (hnodup : e.ids.Nodup) {v w : Visit}
    (hv : v ∈ e.preorder depth start) (hw : w ∈ e.preorder depth start)
    (hid : v.element.id = w.element.id) : v = w := by
  rw [← map_preorder_id e depth start] at hnodup
  exact List.inj_on_of_nodup_map hnodup hv hw hid

mutual

/-- Elements that have something in common lie one inside the other. -/
theorem mem_inside_or_mem_inside (e : Element) {depth start : Nat} (hnodup : e.ids.Nodup)
    {v w u : Visit} (hv : v ∈ e.preorder depth start) (hw : w ∈ e.preorder depth start)
    (huv : u ∈ v.inside) (huw : u ∈ w.inside) : v ∈ w.inside ∨ w ∈ v.inside := by
  cases e with
  | token id kind text =>
    obtain rfl := List.mem_singleton.1 hv
    exact Or.inr hw
  | node id kind origin children =>
    rcases List.mem_cons.1 hv with rfl | hv
    · exact Or.inr hw
    · rcases List.mem_cons.1 hw with rfl | hw
      · exact Or.inl (List.mem_cons_of_mem _ hv)
      · exact mem_inside_or_mem_inside_all children (List.nodup_cons.1 hnodup).2 hv hw huv huw

theorem mem_inside_or_mem_inside_all (es : List Element) {depth start : Nat}
    (hnodup : (idsAll es).Nodup) {v w u : Visit} (hv : v ∈ preorderAll es depth start)
    (hw : w ∈ preorderAll es depth start) (huv : u ∈ v.inside) (huw : u ∈ w.inside) :
    v ∈ w.inside ∨ w ∈ v.inside := by
  cases es with
  | nil => cases hv
  | cons e rest =>
    obtain ⟨hfirst, hrest, hdisjoint⟩ := List.nodup_append'.1 hnodup
    -- What both have in common has one number, so they are below the same element of the list.
    have hnot {x y : Visit} (hx : x ∈ e.preorder depth start)
        (hy : y ∈ preorderAll rest depth (start + e.size)) (hux : u ∈ x.inside)
        (huy : u ∈ y.inside) : False :=
      hdisjoint (id_mem_of_mem_preorder (mem_preorder_of_mem_inside e hx hux))
        (id_mem_of_mem_preorderAll (mem_preorderAll_of_mem_inside rest hy huy))
    rcases List.mem_append.1 hv with hv | hv <;> rcases List.mem_append.1 hw with hw | hw
    · exact mem_inside_or_mem_inside e hfirst hv hw huv huw
    · exact (hnot hv hw huv huw).elim
    · exact (hnot hw hv huw huv).elim
    · exact mem_inside_or_mem_inside_all rest hrest hv hw huv huw

end

/-- An element stands inside those around it. -/
theorem bounds_of_mem_preorder {e : Element} {depth start : Nat} {v : Visit}
    (hv : v ∈ e.preorder depth start) : start ≤ v.start ∧ v.stop ≤ start + e.size := by
  obtain ⟨before, after, htext, hstart⟩ := text_of_mem_preorder e depth start hv
  have hsize := congrArg Text.size htext
  simp only [Text.size_append, size_text] at hsize
  rw [Visit.stop]
  omega

mutual

theorem depth_le_of_mem_preorder (e : Element) {depth start : Nat} {v : Visit}
    (hv : v ∈ e.preorder depth start) : depth ≤ v.depth := by
  cases e with
  | token id kind text =>
    obtain rfl := List.mem_singleton.1 hv
    exact Nat.le_refl _
  | node id kind origin children =>
    rcases List.mem_cons.1 hv with rfl | hv
    · exact Nat.le_refl _
    · exact Nat.le_of_succ_le (depth_le_of_mem_preorderAll children hv)

theorem depth_le_of_mem_preorderAll (es : List Element) {depth start : Nat} {v : Visit}
    (hv : v ∈ preorderAll es depth start) : depth ≤ v.depth := by
  cases es with
  | nil => cases hv
  | cons e rest =>
    rcases List.mem_append.1 hv with hv | hv
    · exact depth_le_of_mem_preorder e hv
    · exact depth_le_of_mem_preorderAll rest hv

end

theorem preorder_eq_cons (e : Element) (depth start : Nat) :
    e.preorder depth start = ⟨depth, start, e⟩ :: (e.preorder depth start).tail := by
  cases e <;> rfl

/-- What is below an element is deeper than it. -/
theorem depth_lt_of_mem_tail {v w : Visit} (hw : w ∈ v.inside.tail) : v.depth < w.depth := by
  obtain ⟨depth, start, e⟩ := v
  cases e with
  | token => cases hw
  | node id kind origin children => exact depth_le_of_mem_preorderAll children hw

mutual

/-- An element has the same parts wherever it stands. -/
theorem exists_mem_preorder (e : Element) {depth start : Nat} {v : Visit}
    (hv : v ∈ e.preorder depth start) (depth' start' : Nat) :
    ∃ w ∈ e.preorder depth' start', w.element = v.element ∧ w.start + start = v.start + start' := by
  cases e with
  | token id kind text =>
    obtain rfl := List.mem_singleton.1 hv
    exact ⟨_, List.mem_cons_self, rfl, Nat.add_comm _ _⟩
  | node id kind origin children =>
    rcases List.mem_cons.1 hv with rfl | hv
    · exact ⟨_, List.mem_cons_self, rfl, Nat.add_comm _ _⟩
    · obtain ⟨w, hw, hplace⟩ := exists_mem_preorderAll children hv (depth' + 1) start'
      exact ⟨w, List.mem_cons_of_mem _ hw, hplace⟩

theorem exists_mem_preorderAll (es : List Element) {depth start : Nat} {v : Visit}
    (hv : v ∈ preorderAll es depth start) (depth' start' : Nat) :
    ∃ w ∈ preorderAll es depth' start', w.element = v.element ∧
      w.start + start = v.start + start' := by
  cases es with
  | nil => cases hv
  | cons e rest =>
    rcases List.mem_append.1 hv with hv | hv
    · obtain ⟨w, hw, hplace⟩ := exists_mem_preorder e hv depth' start'
      exact ⟨w, List.mem_append_left _ hw, hplace⟩
    · obtain ⟨w, hw, helement, hstart⟩ := exists_mem_preorderAll rest hv depth' (start' + e.size)
      exact ⟨w, List.mem_append_right _ hw, helement, by omega⟩

end

/-! ## Old elements in an element -/

section Kept

variable {bound : Nat}

mutual

/-- The elements that are kept stand in the tree. -/
theorem exists_of_mem_keptAt (e : Element) (depth : Nat) {start : Nat} {p : Nat × Element}
    (hp : p ∈ e.keptAt bound start) : ∃ depth', ⟨depth', p.1, p.2⟩ ∈ e.preorder depth start := by
  cases e with
  | token id kind text =>
    obtain ⟨-, hp⟩ := List.mem_ite_nil_right.1 hp
    obtain rfl := List.mem_singleton.1 hp
    exact ⟨depth, List.mem_cons_self⟩
  | node id kind origin children =>
    rw [keptAt] at hp
    split at hp
    · obtain rfl := List.mem_singleton.1 hp
      exact ⟨depth, List.mem_cons_self⟩
    · obtain ⟨depth', hmem⟩ := exists_of_mem_keptAllAt children (depth + 1) hp
      exact ⟨depth', List.mem_cons_of_mem _ hmem⟩

theorem exists_of_mem_keptAllAt (es : List Element) (depth : Nat) {start : Nat} {p : Nat × Element}
    (hp : p ∈ keptAllAt bound es start) :
    ∃ depth', ⟨depth', p.1, p.2⟩ ∈ preorderAll es depth start := by
  cases es with
  | nil => cases hp
  | cons e rest =>
    rcases List.mem_append.1 hp with hp | hp
    · obtain ⟨depth', hmem⟩ := exists_of_mem_keptAt e depth hp
      exact ⟨depth', List.mem_append_left _ hmem⟩
    · obtain ⟨depth', hmem⟩ := exists_of_mem_keptAllAt rest depth hp
      exact ⟨depth', List.mem_append_right _ hmem⟩

end

mutual

/-- An old element is kept, or part of one that is. -/
theorem exists_mem_keptAt (e : Element) {depth start : Nat} {v : Visit}
    (hv : v ∈ e.preorder depth start) (hold : v.element.id < bound) :
    ∃ k ∈ e.preorder depth start, (k.start, k.element) ∈ e.keptAt bound start ∧ v ∈ k.inside := by
  by_cases hlt : e.id < bound
  · refine ⟨⟨depth, start, e⟩, ?_, ?_, hv⟩
    · rw [preorder_eq_cons]
      exact List.mem_cons_self
    · rw [keptAt_of_lt hlt]
      exact List.mem_singleton_self _
  · cases e with
    | token id kind text =>
      obtain rfl := List.mem_singleton.1 hv
      exact absurd hold hlt
    | node id kind origin children =>
      have hid : ¬ id < bound := hlt
      rcases List.mem_cons.1 hv with rfl | hv
      · exact absurd hold hlt
      · obtain ⟨k, hk, hkept, hinside⟩ := exists_mem_keptAllAt children hv hold
        refine ⟨k, List.mem_cons_of_mem _ hk, ?_, hinside⟩
        rwa [keptAt, if_neg hid]

theorem exists_mem_keptAllAt (es : List Element) {depth start : Nat} {v : Visit}
    (hv : v ∈ preorderAll es depth start) (hold : v.element.id < bound) :
    ∃ k ∈ preorderAll es depth start, (k.start, k.element) ∈ keptAllAt bound es start ∧
      v ∈ k.inside := by
  cases es with
  | nil => cases hv
  | cons e rest =>
    rcases List.mem_append.1 hv with hv | hv
    · obtain ⟨k, hk, hkept, hinside⟩ := exists_mem_keptAt e hv hold
      exact ⟨k, List.mem_append_left _ hk, List.mem_append_left _ hkept, hinside⟩
    · obtain ⟨k, hk, hkept, hinside⟩ := exists_mem_keptAllAt rest hv hold
      exact ⟨k, List.mem_append_right _ hk, List.mem_append_right _ hkept, hinside⟩

end

theorem bounds_of_mem_keptAt {e : Element} {start : Nat} {p : Nat × Element}
    (hp : p ∈ e.keptAt bound start) : start ≤ p.1 ∧ p.1 + p.2.size ≤ start + e.size := by
  obtain ⟨depth, hmem⟩ := exists_of_mem_keptAt e 0 hp
  exact bounds_of_mem_preorder hmem

mutual

/-- The elements that are kept stand one behind the other. -/
theorem pairwise_keptAt (e : Element) (start : Nat) :
    (e.keptAt bound start).Pairwise fun p q => p.1 + p.2.size ≤ q.1 := by
  by_cases hlt : e.id < bound
  · rw [keptAt_of_lt hlt]
    exact List.pairwise_singleton _ _
  · cases e with
    | token id kind text =>
      have hid : ¬ id < bound := hlt
      rw [keptAt, if_neg hid]
      exact .nil
    | node id kind origin children =>
      have hid : ¬ id < bound := hlt
      rw [keptAt, if_neg hid]
      exact (pairwise_keptAllAt children start).1

theorem pairwise_keptAllAt (es : List Element) (start : Nat) :
    ((keptAllAt bound es start).Pairwise fun p q => p.1 + p.2.size ≤ q.1) ∧
      ∀ p ∈ keptAllAt bound es start, start ≤ p.1 := by
  cases es with
  | nil => exact ⟨.nil, by simp [keptAllAt]⟩
  | cons e rest =>
    obtain ⟨hrest, hle⟩ := pairwise_keptAllAt rest (start + e.size)
    refine ⟨List.pairwise_append.2 ⟨pairwise_keptAt e start, hrest, fun p hp q hq => ?_⟩,
      fun p hp => ?_⟩
    · exact Nat.le_trans (bounds_of_mem_keptAt hp).2 (hle q hq)
    · rcases List.mem_append.1 hp with hp | hp
      · exact (bounds_of_mem_keptAt hp).1
      · exact Nat.le_of_add_right_le (hle p hp)

end

end Kept

end Element

/-! ## Places before and after an edit -/

/-- What covers `size` bytes and stands clear of an edit is moved by it from `old` to `new`. -/
def Edit.Carries (edit : Edit) (old new size : Nat) : Prop :=
  (new + size ≤ edit.start ∧ old = new) ∨
    (edit.newStop ≤ new ∧ edit.oldStop ≤ old ∧ old + edit.newStop = new + edit.oldStop)

namespace Edit

variable {edit : Edit} {old new size old' new' size' : Nat}

/-- A part moves along with the whole. -/
theorem Carries.part (h : edit.Carries old new size) (hle : new ≤ new')
    (hstop : new' + size' ≤ new + size) (hplace : old' + new = new' + old) :
    edit.Carries old' new' size' := by
  rcases h with ⟨hbefore, rfl⟩ | ⟨hnew, hold, heq⟩
  · exact Or.inl ⟨by omega, by omega⟩
  · exact Or.inr ⟨by omega, by omega, by omega⟩

/-- What stands one behind the other has stood so before. -/
theorem Carries.le (h : edit.Carries old new size) (h' : edit.Carries old' new' size')
    (hold : edit.start ≤ edit.oldStop) (hnew : edit.start ≤ edit.newStop) (hpos : 0 < size')
    (hle : new + size ≤ new') : old + size ≤ old' := by
  rcases h with ⟨hbefore, rfl⟩ | ⟨hafter, -, heq⟩ <;> rcases h' with ⟨hbefore', rfl⟩ | ⟨-, hafter', heq'⟩
  · exact hle
  · omega
  · omega
  · omega

end Edit

/-! ## Elements that were taken over -/

namespace Element

/-- The element stood in an old tree as a node without faults, and an edit has moved it to `start`. -/
structure TakenFrom (root : Element) (edit : Edit) (start : Nat) (e : Element) : Prop where
  isToken : e.isToken = false
  hasError : e.hasError = false
  size_pos : 0 < e.size
  exists_visit : ∃ w ∈ root.visits, w.element = e ∧ edit.Carries w.start start e.size

variable {root e : Element} {edit : Edit} {bound next count : Nat}

/-- Two elements that were taken over and stand one behind the other have nothing in common. -/
theorem TakenFrom.disjoint {start start' : Nat} {e' : Element} (h : TakenFrom root edit start e)
    (h' : TakenFrom root edit start' e') (hroot : root.ids.Nodup)
    (hold : edit.start ≤ edit.oldStop) (hnew : edit.start ≤ edit.newStop)
    (hle : start + e.size ≤ start') : e.ids.Disjoint e'.ids := by
  obtain ⟨-, -, hpos, w, hw, rfl, hcarries⟩ := h
  obtain ⟨-, -, hpos', w', hw', rfl, hcarries'⟩ := h'
  have hstop : w.stop ≤ w'.start := hcarries.le hcarries' hold hnew hpos' hle
  intro id hid hid'
  rw [← map_preorder_id w.element w.depth w.start] at hid
  rw [← map_preorder_id w'.element w'.depth w'.start] at hid'
  obtain ⟨u, hu, rfl⟩ := List.mem_map.1 hid
  obtain ⟨u', hu', heq⟩ := List.mem_map.1 hid'
  obtain rfl : u' = u := eq_of_id_eq hroot (mem_preorder_of_mem_inside root hw' hu')
    (mem_preorder_of_mem_inside root hw hu) heq
  -- One would have to lie inside the other, but it is not empty and the other ends where it starts.
  rcases mem_inside_or_mem_inside root hroot hw hw' hu hu' with hinside | hinside
  · have hbounds := bounds_of_mem_preorder hinside
    simp only [Visit.stop] at hstop hbounds
    omega
  · have hbounds := bounds_of_mem_preorder hinside
    simp only [Visit.stop] at hstop hbounds
    omega

theorem TakenFrom.ids_sublist {start : Nat} (h : TakenFrom root edit start e) :
    e.ids.Sublist root.ids := by
  obtain ⟨-, -, -, w, hw, rfl, -⟩ := h
  exact ids_sublist_of_mem_preorder root hw

theorem keptAllAt_singleton (bound : Nat) (e : Element) (start : Nat) :
    keptAllAt bound [e] start = e.keptAt bound start := by
  simp [keptAllAt]

mutual

theorem le_of_mem_newIds {id : Nat} (e : Element) (h : id ∈ e.newIds bound) : bound ≤ id := by
  cases e with
  | token =>
    obtain ⟨hnot, h⟩ := List.mem_ite_nil_left.1 h
    obtain rfl := List.mem_singleton.1 h
    exact Nat.not_lt.1 hnot
  | node _ _ _ children =>
    rw [newIds] at h
    obtain ⟨hnot, h⟩ := List.mem_ite_nil_left.1 h
    rcases List.mem_cons.1 h with rfl | h
    · exact Nat.not_lt.1 hnot
    · exact le_of_mem_newIdsAll children h

theorem le_of_mem_newIdsAll {id : Nat} (es : List Element) (h : id ∈ newIdsAll bound es) :
    bound ≤ id := by
  cases es with
  | nil => cases h
  | cons e rest =>
    rcases List.mem_append.1 h with h | h
    · exact le_of_mem_newIds e h
    · exact le_of_mem_newIdsAll rest h

end

/-- The numbers in an element are different if those in the old elements that it holds are. -/
theorem Mixed.nodup_of_kept {Known : Nat → Element → Prop} (h : Mixed bound Known [e] next count)
    (hnodup : ((keptAllAt bound [e] 0).flatMap fun p => p.2.ids).Nodup)
    (hlt : ∀ p ∈ keptAllAt bound [e] 0, ∀ id ∈ p.2.ids, id < bound) :
    e.ids.Nodup ∧ ∀ id ∈ e.ids, id < next := by
  have hperm := idsAll_perm [e] bound 0
  have hids : idsAll [e] = e.ids := by simp [idsAll]
  rw [hids] at hperm
  have hkept : ∀ id ∈ (keptAllAt bound [e] 0).flatMap (fun p => p.2.ids), id < bound := by
    intro id hid
    obtain ⟨p, hp, hid⟩ := List.mem_flatMap.1 hid
    exact hlt p hp id hid
  refine ⟨hperm.nodup_iff.2 (List.Nodup.append h.nodup hnodup fun id hleft hright => ?_),
    fun id hid => ?_⟩
  · exact Nat.not_lt.2 (le_of_mem_newIdsAll [e] hleft) (hkept id hright)
  · rcases List.mem_append.1 (hperm.mem_iff.1 hid) with hid | hid
    · exact h.lt_next id hid
    · exact Nat.lt_of_lt_of_le (hkept id hid) h.le_next

/-- No part of an old tree is taken over twice. -/
theorem Mixed.nodup_ids (h : Mixed bound (TakenFrom root edit) [e] next count)
    (hroot : root.ids.Nodup) (hlt : ∀ id ∈ root.ids, id < bound)
    (hold : edit.start ≤ edit.oldStop) (hnew : edit.start ≤ edit.newStop) :
    e.ids.Nodup ∧ ∀ id ∈ e.ids, id < next := by
  refine h.nodup_of_kept ?_ fun p hp id hid => hlt id ((h.known p hp).ids_sublist.subset hid)
  refine List.nodup_flatMap.2 ⟨fun p hp => (h.known p hp).ids_sublist.nodup hroot, ?_⟩
  refine (pairwise_keptAllAt [e] 0).1.imp_of_mem fun hp hq hle => ?_
  exact (h.known _ hp).disjoint (h.known _ hq) hroot hold hnew hle

mutual

theorem hasError_of_mem_preorder (e : Element) {depth start : Nat} {v : Visit}
    (hv : v ∈ e.preorder depth start) (h : e.hasError = false) : v.element.hasError = false := by
  cases e with
  | token id kind text =>
    obtain rfl := List.mem_singleton.1 hv
    exact h
  | node id kind origin children =>
    rcases List.mem_cons.1 hv with rfl | hv
    · exact h
    · exact hasError_of_mem_preorderAll children hv (Bool.or_eq_false_iff.1 h).2

theorem hasError_of_mem_preorderAll (es : List Element) {depth start : Nat} {v : Visit}
    (hv : v ∈ preorderAll es depth start) (h : hasErrorAny es = false) :
    v.element.hasError = false := by
  cases es with
  | nil => cases hv
  | cons e rest =>
    obtain ⟨hfirst, hrest⟩ := Bool.or_eq_false_iff.1 h
    rcases List.mem_append.1 hv with hv | hv
    · exact hasError_of_mem_preorder e hv hfirst
    · exact hasError_of_mem_preorderAll rest hv hrest

end

/-- The parts of what was taken over stood in the old tree as well, and moved along. -/
theorem TakenFrom.part {k v : Visit} (h : TakenFrom root edit k.start k.element)
    (hv : v ∈ k.inside) : v.element.hasError = false ∧ ∃ w ∈ root.visits, w.element = v.element ∧
      edit.Carries w.start v.start v.element.size := by
  obtain ⟨-, herror, -, w, hw, helement, hcarries⟩ := h
  refine ⟨hasError_of_mem_preorder k.element hv herror, ?_⟩
  obtain ⟨u, hu, hpart, hstart⟩ := exists_mem_preorder k.element hv w.depth w.start
  have hinside : u ∈ w.inside := by rwa [Visit.inside, helement]
  obtain ⟨hle, hstop⟩ := bounds_of_mem_preorder hv
  exact ⟨u, mem_preorder_of_mem_inside root hw hinside, hpart,
    hcarries.part hle hstop (by omega)⟩

/-! ## Shared nodes -/

theorem mem_sharedNodes {other : Element} {v : Visit} : v ∈ e.sharedNodes other ↔
    v ∈ e.visits ∧ v.element.id ∈ other.ids ∧ v.element.isToken = false := by
  rw [← map_preorder_id other 0 0]
  simp only [sharedNodes, sharedWith, visits, List.mem_filter, Std.HashSet.contains_ofList,
    List.contains_iff_mem, Bool.not_eq_true', and_assoc]

/-- The nodes that `e` shares with `other` and that do not lie in another such node. -/
def maximalShared (e other : Element) : List Visit :=
  (e.sharedNodes other).filter fun v => !(e.sharedNodes other).any fun u =>
    u.inside.tail.any fun w => w.element.id == v.element.id

theorem mem_maximalShared {other : Element} {v : Visit} : v ∈ e.maximalShared other ↔
    v ∈ e.sharedNodes other ∧ ∀ u ∈ e.sharedNodes other, ∀ w ∈ u.inside.tail,
      w.element.id ≠ v.element.id := by
  simp [maximalShared]

/-- Two elements that are kept and lie one inside the other are the same. -/
theorem eq_of_mem_keptAt {k k' : Visit} {start : Nat}
    (hk : (k.start, k.element) ∈ e.keptAt bound start)
    (hk' : (k'.start, k'.element) ∈ e.keptAt bound start) (hpos : 0 < k.element.size)
    (hinside : k ∈ k'.inside) : (k.start, k.element) = (k'.start, k'.element) := by
  by_contra hne
  have horder : (e.keptAt bound start).Pairwise fun p q =>
      p.1 + p.2.size ≤ q.1 ∨ q.1 + q.2.size ≤ p.1 := (pairwise_keptAt e start).imp Or.inl
  have hsymm : Std.Symm fun p q : Nat × Element =>
      p.1 + p.2.size ≤ q.1 ∨ q.1 + q.2.size ≤ p.1 := ⟨fun _ _ h => h.symm⟩
  have hapart : k.start + k.element.size ≤ k'.start ∨ k'.start + k'.element.size ≤ k.start :=
    horder.forall hk hk' hne
  have hbounds := bounds_of_mem_preorder hinside
  simp only [Visit.stop] at hbounds
  omega

/-- The maximal shared nodes are those that were taken over. -/
theorem Mixed.mem_map_maximalShared (h : Mixed bound (TakenFrom root edit) [e] next count)
    (hlt : ∀ id ∈ root.ids, id < bound) (hnodup : e.ids.Nodup) (p : Nat × Element) :
    p ∈ (e.maximalShared root).map (fun v => (v.start, v.element)) ↔ p ∈ e.keptAt bound 0 := by
  have hknown : ∀ p ∈ e.keptAt bound 0, TakenFrom root edit p.1 p.2 :=
    keptAllAt_singleton bound e 0 ▸ h.known
  have hshared {k : Visit} (hk : k ∈ e.visits) (hkept : (k.start, k.element) ∈ e.keptAt bound 0) :
      k ∈ e.sharedNodes root := by
    have htaken := hknown _ hkept
    exact mem_sharedNodes.2 ⟨hk, htaken.ids_sublist.subset k.element.id_mem_ids, htaken.isToken⟩
  constructor
  · intro hp
    obtain ⟨v, hv, rfl⟩ := List.mem_map.1 hp
    obtain ⟨hvisit, hmax⟩ := mem_maximalShared.1 hv
    obtain ⟨hvisit, hid, -⟩ := mem_sharedNodes.1 hvisit
    obtain ⟨k, hk, hkept, hinside⟩ := exists_mem_keptAt e hvisit (hlt _ hid)
    -- It lies in a node that was taken over, and not deep inside, being maximal.
    rw [Visit.inside, preorder_eq_cons] at hinside
    rcases List.mem_cons.1 hinside with rfl | htail
    · exact hkept
    · exact absurd rfl (hmax k (hshared hk hkept) v htail)
  · intro hp
    obtain ⟨depth, hvisit⟩ := exists_of_mem_keptAt e 0 hp
    refine List.mem_map.2 ⟨_, mem_maximalShared.2 ⟨hshared hvisit hp, fun u hu w hw heq => ?_⟩, rfl⟩
    obtain ⟨huvisit, huid, -⟩ := mem_sharedNodes.1 hu
    obtain ⟨k, hk, hkept, huinside⟩ := exists_mem_keptAt e huvisit (hlt _ huid)
    have hwinside : w ∈ u.inside := List.mem_of_mem_tail hw
    obtain rfl := eq_of_id_eq hnodup (mem_preorder_of_mem_inside e huvisit hwinside) hvisit heq
    have hsame := eq_of_mem_keptAt hp hkept (hknown _ hp).size_pos
      (mem_preorder_of_mem_inside k.element huinside hwinside)
    have hk' := eq_of_id_eq hnodup hvisit hk (congrArg (fun p => Element.id p.2) hsame)
    rw [← hk'] at huinside
    have hdeep := depth_lt_of_mem_tail hw
    have hshallow := depth_le_of_mem_preorder _ huinside
    omega

/-- There are as many maximal shared nodes as were taken over. -/
theorem Mixed.length_maximalShared (h : Mixed bound (TakenFrom root edit) [e] next count)
    (hlt : ∀ id ∈ root.ids, id < bound) (hnodup : e.ids.Nodup) :
    (e.maximalShared root).length = count := by
  have hvisits : e.visits.Nodup := by
    rw [← map_preorder_id e 0 0] at hnodup
    exact hnodup.of_map
  have hsub : (e.maximalShared root).Sublist e.visits :=
    List.filter_sublist.trans (List.filter_sublist.trans List.filter_sublist)
  have hmap : ((e.maximalShared root).map fun v => (v.start, v.element)).Nodup := by
    refine List.Nodup.map_on (fun v hv w hw heq => ?_) (hsub.nodup hvisits)
    exact eq_of_id_eq hnodup (hsub.subset hv) (hsub.subset hw)
      (congrArg (fun p => Element.id p.2) heq)
  have hkept : (e.keptAt bound 0).Nodup := by
    refine (pairwise_keptAt e 0).imp_of_mem fun hp _ hle heq => ?_
    have hpos := (h.known _ (keptAllAt_singleton bound e 0 ▸ hp)).size_pos
    rw [heq] at hle hpos
    omega
  have hperm := (List.perm_ext_iff_of_nodup hmap hkept).2 (h.mem_map_maximalShared hlt hnodup)
  rw [← h.length_kept, keptAllAt_singleton, ← hperm.length_eq, List.length_map]

end Element

open Element (TakenFrom Mixed)

/-! ## Trees of a session -/

/-- The ranges of a replacement are not inverted. -/
theorem Edit.start_le_of_replace {text new insert : List Char} {start stop : Nat} {edit : Edit}
    (h : Edit.replace text start stop insert = .ok (edit, new)) :
    edit.start ≤ edit.oldStop ∧ edit.start ≤ edit.newStop := by
  obtain ⟨before, middle, after, -, -, hstart, hold, hnew⟩ := Edit.replace_spec h
  simp only [hstart, hold, hnew, Text.size_append]
  omega

/-- What may be taken over from a tree stands clear of the edit. -/
theorem Reuse.offers_ofRoot {table : Table} {root : Element} {edit : Edit} {bound : Nat}
    (hcovered : root.All Element.Covered) (htrusted : root.All Element.Trusted)
    (hlt : ∀ id ∈ root.ids, id < bound) (hold : edit.start ≤ edit.oldStop) (options : Options) :
    Setting.Offers ⟨table, options, some (ofRoot root edit)⟩ bound (TakenFrom root edit) := by
  intro reuse hreuse state offset old hfind
  cases hreuse
  have htoken := Reuse.isToken_of_find? hfind
  obtain ⟨v, origin, rfl, hvisit, hplace, horigin, hreusable, -, -, hpos, hfits⟩ := find?_spec hfind
  have hlookahead := (Element.all_of_mem_preorder root 0 0 hcovered hvisit).self origin horigin hreusable
  have herror := (Element.all_of_mem_preorder root 0 0 htrusted hvisit).self origin horigin hreusable
  refine ⟨hlt _ (Element.id_mem_of_mem_preorder hvisit), htoken, herror, hpos, v, hvisit, rfl, ?_⟩
  rw [Edit.oldOffset?] at hplace
  split at hplace
  · obtain rfl := Option.some.inj hplace
    exact Or.inl ⟨by omega, rfl⟩
  · split at hplace
    · have hplace := Option.some.inj hplace
      exact Or.inr ⟨by omega, by omega, by omega⟩
    · cases hplace

namespace Tree

variable {g : Grammar} {rank : Nat → Nat} {table : Table} {text text' insert : List Char}
  {t old : Tree} {start stop : Nat} {edit : Edit}

/-- The elements of a tree have different numbers, all of them given out. -/
structure Numbered (t : Tree) : Prop where
  nodup : t.root.ids.Nodup
  lt_nextId : ∀ id ∈ t.root.ids, id < t.nextId

/-- The tree after an edit is put together from new elements and from parts of the old tree. -/
theorem mixed_again (htrusted : old.root.All Element.Trusted) (hold : Reached table text old)
    (hnumbered : old.Numbered) (hreplace : Edit.replace text start stop insert = .ok (edit, text'))
    (options : Options) (heq : t = parseWith
      ⟨table, options, some (Reuse.ofRoot old.root edit)⟩ text' old.nextId) :
    Mixed old.nextId (TakenFrom old.root edit) [t.root] t.nextId t.reused := by
  rw [heq]
  exact mixed_parseWith (Occurs.again options hold hreplace).truthful
    (Reuse.offers_ofRoot hold.root_spec.2 htrusted hnumbered.lt_nextId
      (Edit.start_le_of_replace hreplace).1 options)

/-- The numbers of every tree are different. -/
theorem Reached.numbered
    (hsuits : ∀ setting text, Occurs table setting text → setting.Suits g rank text)
    (h : Reached table text t) : t.Numbered := by
  refine reached_induction (P := fun _ t => t.Numbered) ?_ ?_ h
  · intro options text firstId
    -- There is nothing to take over.
    have hoccurs : Occurs table ⟨table, options, none⟩ text := .scratch options text
    have hoffers : Setting.Offers ⟨table, options, none⟩ firstId fun _ _ => False :=
      fun reuse hreuse => by cases hreuse
    have hmixed := mixed_parseWith hoccurs.truthful hoffers
    have hnone : Element.keptAllAt firstId [(parseWith ⟨table, options, none⟩ text firstId).root] 0 =
        [] := List.eq_nil_iff_forall_not_mem.2 hmixed.known
    obtain ⟨hnodup, hlt⟩ := hmixed.nodup_of_kept (by simp [hnone]) (by simp [hnone])
    exact ⟨hnodup, hlt⟩
  · intro _ _ _ old _ _ _ options hold hnumbered hreplace
    obtain ⟨hle, hle'⟩ := Edit.start_le_of_replace hreplace
    have hmixed := mixed_again (hold.all_trusted hsuits) hold hnumbered hreplace options rfl
    obtain ⟨hnodup, hlt⟩ := hmixed.nodup_ids hnumbered.nodup hnumbered.lt_nextId hle hle'
    exact ⟨hnodup, hlt⟩

end Tree

/-! ## Queries -/

namespace BigQuery

open Tree (Reached)

/-- What the trees before and after an edit of a query share. A node of the new tree that the old one
has as well stands in the new tree once and is the same as it was, free of faults; it ends in front of
the edit and has not moved, or starts behind the edit and has moved along with the text there. The
shared nodes that lie in no other shared node are as many as were taken over, so that something is
shared just if anything was. -/
theorem shared_nodes {text text' insert : List Char} {old new : Tree} {start stop : Nat} {edit : Edit}
    {options : Options} (hold : Reached BigQuery.table text old)
    (hreplace : Edit.replace text start stop insert = .ok (edit, text'))
    (hreparse : old.reparse BigQuery.table options edit text' = .ok new) :
    (∀ v ∈ new.root.visits, v.element.isToken = false →
      ∀ w ∈ old.root.visits, w.element.id = v.element.id →
        (new.root.visits.countP fun u => u.element.id == v.element.id) = 1 ∧
        w.element = v.element ∧ v.element.hasError = false ∧
        ((v.stop ≤ edit.start ∧ v.start = w.start ∧ v.stop = w.stop) ∨
          (edit.newStop ≤ v.start ∧ edit.oldStop ≤ w.start ∧
            (v.start : Int) = w.start + edit.delta ∧ (v.stop : Int) = w.stop + edit.delta))) ∧
    (new.root.maximalShared old.root).length = new.reused ∧
    (new.root.sharedNodes old.root ≠ [] ↔ 0 < new.reused) := by
  obtain ⟨g, -, htable, hsafe, -⟩ := table_spec
  have hsuits (setting : Setting) (text : List Char)
      (hoccurs : Tree.Occurs BigQuery.table setting text) : setting.Suits g (g.rank 8) text :=
    suits htable hsafe hoccurs
  have hnumbered := hold.numbered hsuits
  have hnodup := ((Reached.edit options hold hreplace hreparse).numbered hsuits).nodup
  rw [Tree.reparse_of_replace options hold.text_eq hreplace] at hreparse
  have hmixed := Tree.mixed_again (hold.all_trusted hsuits) hold hnumbered hreplace options
    (Except.ok.inj hreparse).symm
  have hlength := hmixed.length_maximalShared hnumbered.lt_nextId hnodup
  have htaken {v : Visit} (hv : v ∈ new.root.visits) (hid : v.element.id ∈ old.root.ids) :
      ∃ k : Visit, TakenFrom old.root edit k.start k.element ∧ v ∈ k.inside := by
    obtain ⟨k, -, hkept, hinside⟩ :=
      Element.exists_mem_keptAt new.root hv (hnumbered.lt_nextId _ hid)
    rw [← Element.keptAllAt_singleton] at hkept
    exact ⟨k, hmixed.known _ hkept, hinside⟩
  refine ⟨fun v hv htoken w hw hid => ?_, hlength, ?_⟩
  · have hmem : v.element.id ∈ old.root.ids := hid ▸ Element.id_mem_of_mem_preorder hw
    obtain ⟨k, hk, hinside⟩ := htaken hv hmem
    obtain ⟨herror, u, hu, helement, hcarries⟩ := hk.part hinside
    obtain rfl := Element.eq_of_id_eq hnumbered.nodup hu hw (by rw [helement, hid])
    refine ⟨?_, helement, herror, ?_⟩
    · have hcount := List.count_eq_one_of_mem hnodup (Element.id_mem_of_mem_preorder hv)
      rw [← Element.map_preorder_id new.root 0 0, List.count, List.countP_map] at hcount
      exact hcount
    · simp only [Visit.stop, helement, Edit.delta]
      rcases hcarries with ⟨hbefore, heq⟩ | ⟨hnew, hafter, heq⟩
      · exact Or.inl ⟨hbefore, by omega, by omega⟩
      · exact Or.inr ⟨hnew, hafter, by omega, by omega⟩
  · rw [← hlength, List.length_pos_iff]
    constructor
    · intro hne
      obtain ⟨v, hv⟩ := List.exists_mem_of_ne_nil _ hne
      obtain ⟨hvisit, hid, -⟩ := Element.mem_sharedNodes.1 hv
      obtain ⟨k, -, hkept, -⟩ :=
        Element.exists_mem_keptAt new.root hvisit (hnumbered.lt_nextId _ hid)
      have hmem := (hmixed.mem_map_maximalShared hnumbered.lt_nextId hnodup _).2 hkept
      intro hnil
      rw [hnil] at hmem
      cases hmem
    · intro hne hnil
      obtain ⟨v, hv⟩ := List.exists_mem_of_ne_nil _ hne
      rw [Element.maximalShared, hnil] at hv
      cases hv

/-- A session in which a name is replaced between two others. -/
theorem shared_nodes_after_edit :
    ∃ edit old new, Edit.replace "SELECT a, b, c".toList 10 11 "(x)".toList =
        .ok (edit, "SELECT a, (x), c".toList) ∧
      Reached BigQuery.table "SELECT a, b, c".toList old ∧
      old.reparse BigQuery.table {} edit "SELECT a, (x), c".toList = .ok new ∧
      (new.root.maximalShared old.root).length = new.reused := by
  obtain ⟨edit, hreplace⟩ : ∃ edit, Edit.replace "SELECT a, b, c".toList 10 11 "(x)".toList =
      .ok (edit, "SELECT a, (x), c".toList) := ⟨_, rfl⟩
  have hscratch : Reached BigQuery.table "SELECT a, b, c".toList _ := .parse {} _ 0
  have hreparse := hscratch.reparse_of_replace {} hreplace
  exact ⟨edit, _, _, hreplace, hscratch, hreparse, (shared_nodes hscratch hreplace hreparse).2.1⟩

end BigQuery
end SqlTree
