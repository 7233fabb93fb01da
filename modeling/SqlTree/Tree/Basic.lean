import SqlTree.Diagnostic.Basic
import SqlTree.Text.Lines
import SqlTree.Tree.Change
import SqlTree.Tree.Node

/-!
# Trees

The result of parsing one text: the root with everything below it, and the diagnostics in the order
in which they were found.
-/

namespace SqlTree

structure Tree where
  /-- The text that was parsed. -/
  text : List Char
  root : Element
  diagnostics : List Diagnostic
  /-- The number of nodes taken over from the previous tree. -/
  reused : Nat
  /-- A number that no element of the tree or of the trees before it has, nor any greater one. -/
  nextId : Nat

namespace Tree

def lines (t : Tree) : Lines := Lines.ofText t.text

def rootNode (t : Tree) : Node := Node.root t.root

/-- Whether any fault was reported. -/
def hasError (t : Tree) : Bool := !t.diagnostics.isEmpty

/-- Whether the leaves spell the text that was parsed. -/
def isLossless (t : Tree) : Bool := t.root.text == t.text

/-- The bracketed form of the named structure. -/
def outline (t : Tree) : String := t.root.outline

/-- The range of the tree that differs from an old one, if there is any difference. -/
def changedSince (t old : Tree) : Option Span := Element.change? old.root t.root 0

end Tree
end SqlTree
