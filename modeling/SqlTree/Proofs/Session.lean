import SqlTree.Proofs.Edit
import SqlTree.Session

/-!
# Trees of a session

A session begins with a text that is parsed from scratch and goes on with replacements, each made in
the text of the tree before. The options may differ from one parse to the next.

- `Tree.Reached`  : the texts and trees of a session
- `Tree.Occurs`   : the settings in which a session parses a text
- `Tree.reparse_of_replace` : a session can go on with every replacement
- `Tree.reached_induction` : how to prove something about all trees of a session
- `Tree.leaves_spell_text` : the leaves of a tree spell its text
-/

namespace SqlTree
namespace Element

mutual

/-- The leaves spell the text. -/
theorem flatMap_tokens : (e : Element) → e.tokens.flatMap Prod.snd = e.text
  | token .. => by simp [tokens, text]
  | node _ _ _ children => flatMap_tokensAll children

theorem flatMap_tokensAll : (es : List Element) → (tokensAll es).flatMap Prod.snd = textAll es
  | [] => rfl
  | e :: rest => by
    rw [tokensAll, List.flatMap_append, flatMap_tokens e, flatMap_tokensAll rest, textAll]

end

end Element

namespace Tree

/-- The tree of `text` is the last one of a session. -/
inductive Reached (table : Table) : List Char → Tree → Prop where
  | parse (options : Options) (text : List Char) (firstId : Nat) :
      Reached table text (Tree.parse table options text firstId)
  | edit {text text' insert : List Char} {old new : Tree} {start stop : Nat} {edit : Edit}
      (options : Options) (hold : Reached table text old)
      (hreplace : Edit.replace text start stop insert = .ok (edit, text'))
      (hreparse : old.reparse table options edit text' = .ok new) :
      Reached table text' new

/-- The settings in which a session parses a text: from scratch, or after a replacement in the text
of an old tree. -/
inductive Occurs (table : Table) : Setting → List Char → Prop where
  | scratch (options : Options) (text : List Char) : Occurs table ⟨table, options, none⟩ text
  | again {text text' insert : List Char} {old : Tree} {start stop : Nat} {edit : Edit}
      (options : Options) (hold : Reached table text old)
      (hreplace : Edit.replace text start stop insert = .ok (edit, text')) :
      Occurs table ⟨table, options, some (Reuse.ofRoot old.root edit)⟩ text'

variable {table : Table} {text text' insert : List Char} {old t : Tree} {start stop : Nat}
  {edit : Edit} {setting : Setting}

/-- A replacement can always be parsed. -/
theorem reparse_of_replace (options : Options) (htext : old.text = text)
    (hreplace : Edit.replace text start stop insert = .ok (edit, text')) :
    old.reparse table options edit text' =
      .ok (parseWith ⟨table, options, some (Reuse.ofRoot old.root edit)⟩ text' old.nextId) := by
  simp only [reparse, htext, Edit.validate_of_replace hreplace]
  rfl

theorem Reached.text_eq (h : Reached table text t) : t.text = text := by
  induction h with
  | parse => rfl
  | edit options _ hreplace hreparse ih =>
    rw [reparse_of_replace options ih hreplace] at hreparse
    cases hreparse
    rfl

theorem Reached.reparse_of_replace (h : Reached table text old) (options : Options)
    (hreplace : Edit.replace text start stop insert = .ok (edit, text')) :
    old.reparse table options edit text' =
      .ok (parseWith ⟨table, options, some (Reuse.ofRoot old.root edit)⟩ text' old.nextId) :=
  Tree.reparse_of_replace options h.text_eq hreplace

/-- What holds of a tree from scratch and is handed on by an old tree holds of all trees of a
session. -/
theorem reached_induction {P : List Char → Tree → Prop}
    (scratch : ∀ options text firstId, P text (parseWith ⟨table, options, none⟩ text firstId))
    (again : ∀ {text text' insert old start stop edit} options, Reached table text old →
      P text old → Edit.replace text start stop insert = .ok (edit, text') →
      P text' (parseWith ⟨table, options, some (Reuse.ofRoot old.root edit)⟩ text' old.nextId))
    (h : Reached table text t) : P text t := by
  induction h with
  | parse options text firstId => exact scratch options text firstId
  | edit options hold hreplace hreparse ih =>
    rw [reparse_of_replace options hold.text_eq hreplace] at hreparse
    cases hreparse
    exact again options hold ih hreplace

theorem parseWith_spec (hsetting : setting.Truthful text) (firstId : Nat) :
    (parseWith setting text firstId).root.text = text ∧
      (parseWith setting text firstId).root.All Element.Covered :=
  ((Machine.Faithful.start text firstId).run hsetting _).finish

/-- The root of a tree spells its text, and can be relied upon later. -/
theorem Reached.root_spec (h : Reached table text t) :
    t.root.text = text ∧ t.root.All Element.Covered := by
  refine reached_induction (P := fun text t => t.root.text = text ∧ t.root.All Element.Covered)
    ?_ ?_ h
  · exact fun options text firstId => parseWith_spec (by simp [Setting.Truthful]) firstId
  · intro _ _ _ old _ _ _ options _ hold hreplace
    exact parseWith_spec (Reuse.truthful_ofRoot hreplace hold.1 hold.2 options) old.nextId

theorem Occurs.truthful (h : Occurs table setting text) : setting.Truthful text := by
  cases h with
  | scratch => simp [Setting.Truthful]
  | again options hold hreplace =>
    exact Reuse.truthful_ofRoot hreplace hold.root_spec.1 hold.root_spec.2 options

theorem Occurs.table_eq (h : Occurs table setting text) : setting.table = table := by
  cases h <;> rfl

/-- The leaves of every tree of a session spell the text that was parsed, the root covers all of it,
and the session can go on with every replacement in that text. -/
theorem leaves_spell_text (h : Reached table text t) :
    t.root.tokens.flatMap Prod.snd = text ∧ t.rootNode.span = ⟨0, Text.size text⟩ ∧
      ∀ options start stop insert edit text',
        Edit.replace text start stop insert = .ok (edit, text') →
          ∃ new, t.reparse table options edit text' = .ok new ∧ Reached table text' new := by
  obtain ⟨hroot, -⟩ := h.root_spec
  refine ⟨by rw [Element.flatMap_tokens, hroot], ?_, ?_⟩
  · simp only [rootNode, Node.span, Node.stop, Node.root, ← Element.size_text, hroot, Nat.zero_add]
  · intro options start stop insert edit text' hreplace
    have hreparse : t.reparse table options edit text' = .ok _ :=
      h.reparse_of_replace options hreplace
    exact ⟨_, hreparse, .edit options h hreplace hreparse⟩

/-- A session that breaks a query and goes on. -/
theorem leaves_spell_text_after_edit :
    ∃ edit new, Edit.replace "SELECT a".toList 7 8 "(b, 1".toList =
        .ok (edit, "SELECT (b, 1".toList) ∧
      Reached BigQuery.table "SELECT (b, 1".toList new ∧
      new.root.tokens.flatMap Prod.snd = "SELECT (b, 1".toList ∧
      new.rootNode.span = ⟨0, 12⟩ := by
  obtain ⟨edit, hreplace⟩ : ∃ edit, Edit.replace "SELECT a".toList 7 8 "(b, 1".toList =
      .ok (edit, "SELECT (b, 1".toList) := ⟨_, rfl⟩
  have hscratch : Reached BigQuery.table "SELECT a".toList _ := .parse {} _ 0
  obtain ⟨new, -, hnew⟩ := (leaves_spell_text hscratch).2.2 {} 7 8 _ edit _ hreplace
  exact ⟨edit, new, hreplace, hnew, (leaves_spell_text hnew).1, (leaves_spell_text hnew).2.1⟩

end Tree
end SqlTree
