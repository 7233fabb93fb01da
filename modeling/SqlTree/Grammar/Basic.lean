import SqlTree.Kind.Basic
import SqlTree.Grammar.Rule

/-!
# Grammars

A context-free grammar over token kinds. Symbols and productions are known by their numbers:
nonterminal 0 is the start symbol, and production 0 is its only production.
-/

namespace SqlTree

inductive Symbol where
  | terminal (kind : Kind)
  | nonterminal (index : Nat)
  deriving DecidableEq, Repr

structure Production where
  lhs : Nat
  rhs : List Symbol
  /-- The binding strength, zero where no rule says otherwise. -/
  prec : Int
  assoc : Assoc
  deriving DecidableEq, Repr

structure Nonterminal where
  name : String
  /-- The kind of node that a visible rule makes. -/
  kind : Option Kind
  deriving DecidableEq, Repr

structure Grammar where
  nonterminals : Array Nonterminal
  productions : Array Production
  deriving DecidableEq, Repr

namespace Grammar

def start : Nat := 0

/-- The production of the start symbol. -/
def acceptProduction : Nat := 0

/-- The grammar without rules. -/
def empty : Grammar := ⟨#[], #[]⟩

/-- The kind of node made by a nonterminal, if it is visible. -/
def visibleKind? (g : Grammar) (nonterminal : Nat) : Option Kind :=
  (g.nonterminals[nonterminal]?).bind Nonterminal.kind

/-- The nonterminal that makes nodes of a kind. -/
def nonterminalOfKind? (g : Grammar) (kind : Kind) : Option Nat :=
  g.nonterminals.findIdx? fun info => info.kind == some kind

/-- The numbers of the productions of a nonterminal, ascending. -/
def productionsOf (g : Grammar) (nonterminal : Nat) : List Nat :=
  (List.range g.productions.size).filter fun i =>
    (g.productions[i]?).any fun production => production.lhs == nonterminal

end Grammar
end SqlTree
