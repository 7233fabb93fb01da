import SqlTree.Automaton.TerminalSet
import SqlTree.Grammar.Basic

/-!
# First terminals

For every nonterminal, whether it derives the empty string and with which terminals its strings
begin. Both grow together, production by production, until a round over all productions changes
nothing.
-/

namespace SqlTree

structure First where
  nullable : Array Bool
  begins : Array TerminalSet
  deriving DecidableEq

namespace First

/-- Nothing known about `n` nonterminals. -/
def unknown (n : Nat) : First := ⟨Array.replicate n false, Array.replicate n .empty⟩

def isNullable (first : First) : Symbol → Bool
  | .terminal _ => false
  | .nonterminal i => first.nullable.getD i false

/-- The terminals with which a sequence can begin, with those of `follow` if the sequence can be
empty. -/
def ofSequence (first : First) (follow : TerminalSet) : List Symbol → TerminalSet
  | [] => follow
  | .terminal kind :: _ => .singleton kind
  | .nonterminal i :: rest =>
    let begins := first.begins.getD i .empty
    if first.nullable.getD i false then begins.union (first.ofSequence follow rest) else begins

/-- What one production adds. -/
def absorb (first : First) (p : Production) : First where
  nullable := if p.rhs.all first.isNullable then first.nullable.setIfInBounds p.lhs true
    else first.nullable
  begins := first.begins.modify p.lhs (·.union (first.ofSequence .empty p.rhs))

/-- One round over all productions. -/
def round (g : Grammar) (first : First) : First := g.productions.foldl absorb first

/-- Rounds until nothing changes, at most `fuel` of them. -/
def saturate (g : Grammar) : Nat → First → First
  | 0, first => first
  | fuel + 1, first =>
    let next := round g first
    if next = first then first else saturate g fuel next

/-- The first terminals of a grammar. A round that changes something makes a nonterminal nullable or
adds a terminal to one, which bounds the number of rounds. -/
def ofGrammar (g : Grammar) : First :=
  let n := g.nonterminals.size
  saturate g (n * (Kind.count + 1) + 1) (unknown n)

end First
end SqlTree
