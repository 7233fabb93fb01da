import SqlTree.Proofs.Incremental.Faultless

/-!
# Parsing again after an edit

In a session in which nothing has been reported so far, parsing again leads to the tree that a parse
from scratch leads to, whatever the new text is. Two things can go wrong in other sessions. A node that a
repair has completed was decided on by a token that does not follow it in the text. And where a node ends
between the halves of a `>>` that has `>` or `=` behind it, reading on from there finds another token
than the second half.

- `Tree.Faultless`   : sessions without either of these
- `Tree.Faultless.allAt_renewed` : all nodes of their trees are built again
- `Tree.Faultless.reparse_same` : parsing again against parsing from scratch
- `BigQuery.reparse_same_parse` : the same for queries
-/

namespace SqlTree

open Lexemes (Separate)

namespace Tree

/-- The text and the tree of a session in which no parse has reported anything and no text has `>` or `=`
behind a `>>`. The options may differ from one parse to the next. -/
inductive Faultless (table : Table) : List Char → Tree → Prop where
  | parse {text : List Char} (options : Options) (firstId : Nat) (hseparate : Separate text)
      (hnone : (Tree.parse table options text firstId).diagnostics = []) :
      Faultless table text (Tree.parse table options text firstId)
  | edit {text text' insert : List Char} {old new : Tree} {start stop : Nat} {edit : Edit}
      (options : Options) (hold : Faultless table text old)
      (hreplace : Edit.replace text start stop insert = .ok (edit, text'))
      (hreparse : old.reparse table options edit text' = .ok new) (hseparate : Separate text')
      (hnone : new.diagnostics = []) : Faultless table text' new

namespace Faultless

variable {table : Table} {g : Grammar} {rank : Nat → Nat} {calm : List Nat}
  {text text' insert : List Char} {old t : Tree} {start stop : Nat} {edit : Edit}

theorem reached (h : Faultless table text t) : Reached table text t := by
  induction h with
  | parse options firstId => exact .parse options _ firstId
  | edit options _ hreplace hreparse _ _ ih => exact .edit options ih hreplace hreparse

theorem separate (h : Faultless table text t) : Separate text := by
  cases h with
  | parse _ _ hseparate => exact hseparate
  | edit _ _ _ _ hseparate => exact hseparate

variable (hg : g.WellFormed) (hapart : g.NamesApart) (hangular : g.Angular) (hblunt : g.Blunt calm)
  (hsuits : ∀ setting text, Occurs (Table.ofGrammar g) setting text → setting.Suits g rank text)

include hg hapart hsuits

/-- What the next parse takes over is built again if all nodes of the old tree are. -/
theorem renews (h : Faultless (Table.ofGrammar g) text old)
    (hrenewed : old.root.AllAt (Element.Renewed (Table.ofGrammar g) text) 0)
    (hreplace : Edit.replace text start stop insert = .ok (edit, text')) (options : Options) :
    Setting.Renews ⟨Table.ofGrammar g, options, some (Reuse.ofRoot old.root edit)⟩ text' := by
  obtain ⟨htext, hcovered⟩ := h.reached.root_spec
  have hrecorded := h.reached.recorded hg hapart hsuits
  exact Reuse.renews_ofRoot hreplace htext hcovered (hrecorded.ofRoot options) hrenewed h.separate

include hangular hblunt

theorem allAt_renewed (h : Faultless (Table.ofGrammar g) text t) :
    t.root.AllAt (Element.Renewed (Table.ofGrammar g) text) 0 := by
  induction h with
  | @parse text options firstId _ hnone =>
    refine allAt_renewed_parseWith (hsuits _ _ (.scratch options text)) hg hapart hangular hblunt ?_ ?_
      firstId hnone
    · intro reuse hreuse
      cases hreuse
    · intro reuse hreuse
      cases hreuse
  | @edit text text' insert old new start stop edit options hold hreplace hreparse _ hnone ih =>
    rw [hold.reached.reparse_of_replace options hreplace] at hreparse
    obtain rfl := Except.ok.inj hreparse
    have hrecorded := hold.reached.recorded hg hapart hsuits
    exact allAt_renewed_parseWith (hsuits _ _ (.again options hold.reached hreplace)) hg hapart hangular
      hblunt (hold.renews hg hapart hsuits ih hreplace options) (hrecorded.ofRoot options) old.nextId
      hnone

/-- After any edit, parsing again leads to the tree of a parse from scratch and reports the same. -/
theorem reparse_same (h : Faultless (Table.ofGrammar g) text old)
    (hreplace : Edit.replace text start stop insert = .ok (edit, text')) (options : Options)
    (firstId : Nat) : ∃ new, old.reparse (Table.ofGrammar g) options edit text' = .ok new ∧
      new.root.same (Tree.parse (Table.ofGrammar g) options text' firstId).root = true ∧
      new.diagnostics = (Tree.parse (Table.ofGrammar g) options text' firstId).diagnostics := by
  refine ⟨_, h.reached.reparse_of_replace options hreplace, ?_⟩
  have hrenewed := h.allAt_renewed hg hapart hangular hblunt hsuits
  have hrenews := h.renews hg hapart hsuits hrenewed hreplace options
  have hlike : Setting.Like ⟨Table.ofGrammar g, options, none⟩
      ⟨Table.ofGrammar g, options, some (Reuse.ofRoot old.root edit)⟩ := ⟨rfl, rfl⟩
  have hscratch := hsuits _ _ (.scratch options text')
  have hagain := hsuits _ _ (.again options h.reached hreplace)
  obtain ⟨hshape, hdiagnostics⟩ :=
    parseWith_renewed hlike rfl hscratch hagain hrenews firstId old.nextId
  exact ⟨(Element.same_iff _ _).2 hshape.symm, hdiagnostics.symm⟩

end Faultless
end Tree

namespace BigQuery

/-- In a session of queries in which nothing has been reported so far and no text had `>` or `=` behind a
`>>`, parsing again after any edit leads to the tree that a parse from scratch leads to, and to the same
diagnostics. The new text may have errors. -/
theorem reparse_same_parse {text text' insert : List Char} {old : Tree} {start stop : Nat} {edit : Edit}
    (h : Tree.Faultless BigQuery.table text old)
    (hreplace : Edit.replace text start stop insert = .ok (edit, text')) (options : Options)
    (firstId : Nat) : ∃ new, old.reparse BigQuery.table options edit text' = .ok new ∧
      new.root.same (Tree.parse BigQuery.table options text' firstId).root = true ∧
      new.diagnostics = (Tree.parse BigQuery.table options text' firstId).diagnostics := by
  obtain ⟨g, hgrammar, htable, hangular, hblunt⟩ := exists_angular
  obtain ⟨hsafe, hapart, -⟩ := grammar_spec hgrammar
  have hsuits (setting : Setting) (text : List Char)
      (hoccurs : Tree.Occurs BigQuery.table setting text) : setting.Suits g (g.rank 8) text :=
    suits htable hsafe hoccurs
  rw [htable] at h hsuits ⊢
  exact h.reparse_same (Grammar.wellFormed_ofRules hgrammar) (Grammar.namesApart_of_isApart hapart)
    hangular hblunt hsuits hreplace options firstId

end BigQuery
end SqlTree
