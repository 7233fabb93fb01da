import SqlTree.Grammar.BigQuery
import SqlTree.Parse.Basic

/-!
# Sessions

A session parses one text after the other with the same options and remembers the last tree. Each
tree gets elements with new numbers, except for those it takes over from the tree before.

- `BigQuery.table` : the table of BigQuery queries
- `Session.Failure` : why there is no next tree
- `Session.parse`, `Session.edit`, `Session.reparse` : the ways to the next tree
-/

namespace SqlTree

/-- The table of BigQuery queries. The rules are well formed, so they do have a grammar. -/
def BigQuery.table : Table :=
  match BigQuery.grammar with
  | .ok grammar => Table.ofGrammar grammar
  | .error _ => Table.empty

structure Session where
  table : Table
  options : Options
  current : Option Tree

namespace Session

def start (table : Table) (options : Options) : Session := ⟨table, options, none⟩

/-- Parses a text from scratch. -/
def parse (s : Session) (text : List Char) : Tree :=
  Tree.parse s.table s.options text ((s.current.map Tree.nextId).getD 0)

/-- Why there is no next tree. -/
inductive Failure where
  /-- The edit does not fit the texts. -/
  | malformed (error : EditError)
  /-- The parse asked for a node behind the end of the old tree. -/
  | overrun
  deriving DecidableEq, Repr

/-- Parses the text that an edit of an old tree's text led to. -/
def reparseFrom (s : Session) (old : Tree) (edit : Edit) (text : List Char) : Except Failure Tree :=
  match Tree.reparse s.table s.options old edit text with
  | .error e => .error (.malformed e)
  | .ok new => if old.overruns s.table s.options edit text then .error .overrun else .ok new

/-- Parses the text that an edit led to; from scratch if there is no tree before it. -/
def reparse (s : Session) (edit : Edit) (text : List Char) : Except Failure Tree :=
  match s.current with
  | some old => s.reparseFrom old edit text
  | none => .ok (s.parse text)

/-- Replaces a range of the old tree's text and parses the result. -/
def edit (s : Session) (old : Tree) (start stop : Nat) (insert : List Char) :
    Except Failure (Edit × Tree) :=
  match Edit.replace old.text start stop insert with
  | .error e => .error (.malformed e)
  | .ok (edit, text) => (s.reparseFrom old edit text).map (edit, ·)

/-- Makes a tree the current one. -/
def remember (s : Session) (tree : Tree) : Session := { s with current := some tree }

end Session
end SqlTree
