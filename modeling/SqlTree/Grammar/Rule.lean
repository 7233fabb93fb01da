import SqlTree.Kind.Name

/-!
# Rules

A grammar is written as rules over token kinds and rule names. A visible rule is named by a node
kind and makes a node of that kind; a hidden rule only groups alternatives, and what it matches
becomes part of the node around it.

- `Rule`       : rule expressions
- `seq`, `choice`, `opt`, `many`, `commaSep1` : the forms in which rules are written
- `RuleName`   : the two ways to name a rule
- `Definition` : a named rule
-/

namespace SqlTree

/-- How operators of one strength group. -/
inductive Assoc where
  | none | left | right
  deriving DecidableEq, Repr, Inhabited

inductive Rule where
  /-- A terminal. -/
  | token (kind : Kind)
  /-- A visible rule. -/
  | node (kind : Kind)
  /-- A hidden rule. -/
  | hidden (name : String)
  /-- Nothing at all. -/
  | empty
  /-- No match. -/
  | never
  /-- One after the other. -/
  | cat (first second : Rule)
  /-- One or the other. -/
  | alt (first second : Rule)
  /-- Once or more often. -/
  | many1 (rule : Rule)
  /-- A binding strength for the alternatives that have none yet. -/
  | prec (level : Int) (assoc : Assoc) (rule : Rule)
  deriving DecidableEq, Repr, Inhabited

namespace Rule

/-- The rule that matches one symbol: a token, or a node of its kind. -/
def ofKind (kind : Kind) : Rule := if kind.isToken then token kind else node kind

instance : Coe Kind Rule := ⟨ofKind⟩

instance : Coe String Rule := ⟨hidden⟩

/-- All rules in turn. -/
def seq (rules : List Rule) : Rule := rules.foldr cat empty

/-- Any of the rules. -/
def choice (rules : List Rule) : Rule := rules.foldr alt never

/-- The rule or nothing. -/
def opt (rule : Rule) : Rule := alt rule empty

/-- Any number of times. -/
def many (rule : Rule) : Rule := opt (many1 rule)

/-- Once or more often, with commas between. -/
def commaSep1 (rule : Rule) : Rule := seq [rule, many (seq [token .comma, rule])]

def leftAssoc (level : Int) (rule : Rule) : Rule := prec level .left rule

def rightAssoc (level : Int) (rule : Rule) : Rule := prec level .right rule

end Rule

inductive RuleName where
  | node (kind : Kind)
  | hidden (name : String)
  deriving DecidableEq, Repr

/-- The name as it is shown. -/
def RuleName.display : RuleName → String
  | node kind => kind.name
  | hidden name => name

structure Definition where
  name : RuleName
  rule : Rule
  deriving DecidableEq, Repr

namespace Definition

/-- The visible rule that makes nodes of a kind. -/
def node (kind : Kind) (rule : Rule) : Definition := ⟨.node kind, rule⟩

def hidden (name : String) (rule : Rule) : Definition := ⟨.hidden name, rule⟩

end Definition
end SqlTree
