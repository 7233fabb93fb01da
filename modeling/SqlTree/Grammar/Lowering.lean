import SqlTree.Grammar.Basic

/-!
# From rules to productions

Sequences are multiplied out over the alternatives of their parts. A repetition becomes a hidden
left-recursive nonterminal of its own, numbered after those inside it. A binding strength applies to
the alternatives inside it that have none.

- `GrammarError`    : why definitions make no grammar
- `Alternative`     : a right-hand side under construction
- `Draft`           : nonterminals and productions so far
- `Draft.lower`     : the alternatives of a rule
- `Grammar.ofRules` : the grammar of a list of definitions
-/

namespace SqlTree

inductive GrammarError where
  | undefinedRule (name : String)
  | duplicateRule (name : String)
  | notAToken (kind : Kind)
  | notANode (kind : Kind)
  deriving DecidableEq, Repr

namespace GrammarError

def quoted (name : String) : String := "`" ++ name ++ "`"

def message : GrammarError → String
  | undefinedRule name => "rule " ++ quoted name ++ " is referenced but never defined"
  | duplicateRule name => "rule " ++ quoted name ++ " is defined twice"
  | notAToken kind => quoted kind.capitalName ++ " is not a token kind"
  | notANode kind => quoted kind.capitalName ++ " is not a node kind"

end GrammarError

/-! ## Alternatives -/

structure Alternative where
  symbols : List Symbol
  prec : Option (Int × Assoc)
  deriving DecidableEq, Repr

namespace Alternative

def empty : Alternative := ⟨[], none⟩

def ofSymbol (symbol : Symbol) : Alternative := ⟨[symbol], none⟩

/-- One after the other; the first binding strength counts. -/
def append (a b : Alternative) : Alternative := ⟨a.symbols ++ b.symbols, a.prec.or b.prec⟩

/-- Every alternative of the first list, followed by every alternative of the second. -/
def product (firsts seconds : List Alternative) : List Alternative :=
  firsts.flatMap fun a => seconds.map a.append

/-- Gives the alternative a binding strength unless it has one. -/
def withPrec (level : Int) (assoc : Assoc) (a : Alternative) : Alternative :=
  { a with prec := a.prec.or (some (level, assoc)) }

def toProduction (lhs : Nat) (a : Alternative) : Production :=
  let (level, assoc) := a.prec.getD (0, .none)
  ⟨lhs, a.symbols, level, assoc⟩

end Alternative

/-! ## Drafts -/

/-- What has been lowered so far. -/
structure Draft where
  nonterminals : List Nonterminal
  productions : List Production

namespace Draft

/-- Whether `lhs` has a production with the symbols of an alternative. -/
def hasAlternative (draft : Draft) (lhs : Nat) (a : Alternative) : Bool :=
  draft.productions.any fun p => p.lhs == lhs && p.rhs == a.symbols

/-- Adds the productions of `lhs`, leaving out right-hand sides that it has already. -/
def addAlternatives (lhs : Nat) : List Alternative → Draft → Draft
  | [], draft => draft
  | a :: rest, draft =>
    addAlternatives lhs rest <|
      if draft.hasAlternative lhs a then draft
      else { draft with productions := draft.productions ++ [a.toProduction lhs] }

/-- Adds the nonterminal that stands for one or more of `items`. -/
def addRepetition (draft : Draft) (owner : String) (items : List Alternative) : Nat × Draft :=
  let index := draft.nonterminals.length
  let name := owner ++ "_repeat" ++ toString index
  let draft := { draft with nonterminals := draft.nonterminals ++ [⟨name, none⟩] }
  let longer := items.map fun a => { a with symbols := .nonterminal index :: a.symbols }
  (index, addAlternatives index longer (addAlternatives index items draft))

/-- The number of a defined rule; the start symbol has number 0 and the rules follow in order. -/
def resolve (names : List RuleName) (name : RuleName) : Except GrammarError Nat :=
  match names.findIdx? (· = name) with
  | some i => .ok (i + 1)
  | none => .error (.undefinedRule name.display)

/-- The alternatives of a rule that belongs to the definition of `owner`. -/
def lower (names : List RuleName) (owner : String) :
    Rule → Draft → Except GrammarError (List Alternative × Draft)
  | .token kind, draft =>
    if kind.isToken then .ok ([.ofSymbol (.terminal kind)], draft) else .error (.notAToken kind)
  | .node kind, draft => do
    let index ← resolve names (.node kind)
    return ([.ofSymbol (.nonterminal index)], draft)
  | .hidden name, draft => do
    let index ← resolve names (.hidden name)
    return ([.ofSymbol (.nonterminal index)], draft)
  | .empty, draft => .ok ([.empty], draft)
  | .never, draft => .ok ([], draft)
  | .cat first second, draft => do
    let (firsts, draft) ← lower names owner first draft
    let (seconds, draft) ← lower names owner second draft
    return (Alternative.product firsts seconds, draft)
  | .alt first second, draft => do
    let (firsts, draft) ← lower names owner first draft
    let (seconds, draft) ← lower names owner second draft
    return (firsts ++ seconds, draft)
  | .many1 rule, draft => do
    let (items, draft) ← lower names owner rule draft
    let (index, draft) := draft.addRepetition owner items
    return ([.ofSymbol (.nonterminal index)], draft)
  | .prec level assoc rule, draft => do
    let (items, draft) ← lower names owner rule draft
    return (items.map (Alternative.withPrec level assoc), draft)

/-- Lowers the definitions in order; the first of them has number `lhs`. -/
def lowerAll (names : List RuleName) :
    List Definition → Nat → Draft → Except GrammarError Draft
  | [], _, draft => .ok draft
  | definition :: rest, lhs, draft => do
    let (items, draft) ← lower names definition.name.display definition.rule draft
    lowerAll names rest (lhs + 1) (addAlternatives lhs items draft)

end Draft

/-! ## Definitions -/

namespace Definition

/-- The first name that was given to an earlier rule already. -/
def duplicate? : List RuleName → List RuleName → Option RuleName
  | _, [] => none
  | earlier, name :: rest =>
    if name ∈ earlier then some name else duplicate? (name :: earlier) rest

/-- The first visible rule that is not named by a node kind. -/
def notANode? (names : List RuleName) : Option Kind :=
  names.findSome? fun
    | .node kind => if kind.isNode then none else some kind
    | .hidden _ => none

/-- The nonterminal of a rule. -/
def nonterminal : RuleName → Nonterminal
  | .node kind => ⟨kind.name, some kind⟩
  | .hidden name => ⟨name, none⟩

end Definition

namespace Grammar

/-- What stands before anything is lowered: the start symbol with its production, and a nonterminal
for every definition. -/
def opening (names : List RuleName) (root : Nat) : Draft where
  nonterminals := ⟨"$start", none⟩ :: names.map Definition.nonterminal
  productions := [⟨start, [.nonterminal root], 0, .none⟩]

/-- The grammar of the definitions with the hidden rule `root` as the start rule. -/
def ofRules (definitions : List Definition) (root : String) : Except GrammarError Grammar :=
  let names := definitions.map Definition.name
  match Definition.duplicate? [] names, Definition.notANode? names with
  | some name, _ => .error (.duplicateRule name.display)
  | none, some kind => .error (.notANode kind)
  | none, none => do
    let root ← Draft.resolve names (.hidden root)
    let draft ← Draft.lowerAll names definitions 1 (opening names root)
    return ⟨draft.nonterminals.toArray, draft.productions.toArray⟩

end Grammar
end SqlTree
