import SqlTree.Proofs.Source
import SqlTree.Tree.Preorder

/-!
# Elements and what is below them

- `Element.All`      : a property of an element and of everything below it
- `Element.all_of_mem_preorder` : such a property goes down to every element that is visited
- `Element.text_of_mem_preorder` : an element that is visited spells the part of the text at its
  offset
-/

namespace SqlTree
namespace Element

/-! ## Properties of whole trees -/

mutual

/-- `P` holds of the element and of everything below it. -/
def All (P : Element → Prop) : Element → Prop
  | token id kind text => P (token id kind text)
  | node id kind origin children => P (node id kind origin children) ∧ AllIn P children

def AllIn (P : Element → Prop) : List Element → Prop
  | [] => True
  | e :: rest => e.All P ∧ AllIn P rest

end

variable {P Q : Element → Prop}

theorem allIn_iff {es : List Element} : AllIn P es ↔ ∀ e ∈ es, e.All P := by
  induction es with
  | nil => simp [AllIn]
  | cons e rest ih => simp [AllIn, ih]

theorem all_node {id : Nat} {kind : Kind} {origin : Option Origin} {children : List Element} :
    (node id kind origin children).All P ↔
      P (node id kind origin children) ∧ ∀ e ∈ children, e.All P := by
  rw [All, allIn_iff]

theorem All.self {e : Element} (h : e.All P) : P e := by
  cases e with
  | token id kind text => exact h
  | node id kind origin children => exact (all_node.1 h).1

mutual

theorem all_of_mem_preorder (e : Element) (depth start : Nat) (h : e.All P) {v : Visit}
    (hv : v ∈ e.preorder depth start) : v.element.All P := by
  cases e with
  | token id kind text =>
    obtain rfl := List.mem_singleton.1 hv
    exact h
  | node id kind origin children =>
    rcases List.mem_cons.1 hv with rfl | hv
    · exact h
    · exact all_of_mem_preorderAll children (depth + 1) start h.2 hv

theorem all_of_mem_preorderAll (es : List Element) (depth start : Nat) (h : AllIn P es)
    {v : Visit} (hv : v ∈ preorderAll es depth start) : v.element.All P := by
  cases es with
  | nil => cases hv
  | cons e rest =>
    rcases List.mem_append.1 hv with hv | hv
    · exact all_of_mem_preorder e depth start h.1 hv
    · exact all_of_mem_preorderAll rest depth (start + e.size) h.2 hv

end

mutual

theorem all_of_forall_preorder (e : Element) (depth start : Nat)
    (h : ∀ v ∈ e.preorder depth start, P v.element) : e.All P := by
  cases e with
  | token id kind text => exact h _ List.mem_cons_self
  | node id kind origin children =>
    exact ⟨h _ List.mem_cons_self,
      allIn_of_forall_preorderAll children (depth + 1) start fun v hv => h v (List.mem_cons_of_mem _ hv)⟩

theorem allIn_of_forall_preorderAll (es : List Element) (depth start : Nat)
    (h : ∀ v ∈ preorderAll es depth start, P v.element) : AllIn P es := by
  cases es with
  | nil => trivial
  | cons e rest =>
    exact ⟨all_of_forall_preorder e depth start fun v hv => h v (List.mem_append_left _ hv),
      allIn_of_forall_preorderAll rest depth (start + e.size) fun v hv =>
        h v (List.mem_append_right _ hv)⟩

end

/-- What holds of an element and of everything below it holds of all that is visited. -/
theorem all_iff_forall_visits {e : Element} : e.All P ↔ ∀ v ∈ e.visits, P v.element :=
  ⟨fun h _ hv => (all_of_mem_preorder e 0 0 h hv).self, all_of_forall_preorder e 0 0⟩

theorem All.imp₂ {R : Element → Prop} {e : Element} (hP : e.All P) (hQ : e.All Q)
    (h : ∀ x, P x → Q x → R x) : e.All R :=
  all_iff_forall_visits.2 fun v hv =>
    h v.element (all_iff_forall_visits.1 hP v hv) (all_iff_forall_visits.1 hQ v hv)

/-! ## Texts -/

mutual

/-- An element that is visited spells the part of the text at its offset. -/
theorem text_of_mem_preorder (e : Element) (depth start : Nat) {v : Visit}
    (hv : v ∈ e.preorder depth start) :
    ∃ before after, e.text = before ++ v.element.text ++ after ∧
      v.start = start + Text.size before := by
  cases e with
  | token id kind text =>
    obtain rfl := List.mem_singleton.1 hv
    exact ⟨[], [], by simp, by simp⟩
  | node id kind origin children =>
    rcases List.mem_cons.1 hv with rfl | hv
    · exact ⟨[], [], by simp, by simp⟩
    · exact text_of_mem_preorderAll children (depth + 1) start hv

theorem text_of_mem_preorderAll (es : List Element) (depth start : Nat) {v : Visit}
    (hv : v ∈ preorderAll es depth start) :
    ∃ before after, textAll es = before ++ v.element.text ++ after ∧
      v.start = start + Text.size before := by
  cases es with
  | nil => cases hv
  | cons e rest =>
    rcases List.mem_append.1 hv with hv | hv
    · obtain ⟨before, after, htext, hstart⟩ := text_of_mem_preorder e depth start hv
      exact ⟨before, after ++ textAll rest, by simp [textAll, htext], hstart⟩
    · obtain ⟨before, after, htext, hstart⟩ :=
        text_of_mem_preorderAll rest depth (start + e.size) hv
      refine ⟨e.text ++ before, after, by simp [textAll, htext], ?_⟩
      rw [Text.size_append, size_text, hstart]
      omega

end

@[simp]
theorem textAll_nil : textAll [] = [] := rfl

@[simp]
theorem textAll_cons (e : Element) (es : List Element) : textAll (e :: es) = e.text ++ textAll es :=
  rfl

@[simp]
theorem text_token (id : Nat) (kind : Kind) (text : List Char) : (token id kind text).text = text :=
  rfl

@[simp]
theorem text_node (id : Nat) (kind : Kind) (origin : Option Origin) (children : List Element) :
    (node id kind origin children).text = textAll children := rfl

/-- New tokens spell the leaves that they are made from. -/
theorem textAll_mapIdx_token (leaves : List Leaf) (id : Nat → Nat) :
    textAll (leaves.mapIdx fun i leaf => token (id i) leaf.1 leaf.2) = Lexeme.spell leaves := by
  induction leaves generalizing id with
  | nil => rfl
  | cons leaf leaves ih =>
    rw [List.mapIdx_cons, textAll_cons, text_token, Lexeme.spell_cons]
    exact congrArg _ (ih fun i => id (i + 1))

end Element
end SqlTree
