/-!
# Kinds

Every element of a tree has a kind. The token kinds come first and are also the terminal symbols of
a grammar; the kinds of composite nodes follow, and name the visible rules.

- `Kind`     : the kinds, in the order of their numbers
- `Kind.id`  : the number of a kind
- `Kind.all` : all kinds in this order
-/

namespace SqlTree

inductive Kind where
  -- Trivia: blanks and comments
  | whitespace | lineComment | blockComment
  -- Identifiers and literals
  | ident | quotedIdent | number | string | bytes | parameter | systemVariable
  -- Punctuation
  | lParen | rParen | lBracket | rBracket | comma | dot | semicolon | star | eq | neq | lt | gt
  | ltEq | gtEq | shl | shr | plus | minus | slash | pipePipe | pipe | amp | caret | tilde
  | question
  -- Reserved keywords
  | allKw | andKw | arrayKw | asKw | ascKw | betweenKw | byKw | caseKw | castKw | crossKw
  | currentKw | descKw | distinctKw | elseKw | endKw | exceptKw | existsKw | extractKw | falseKw
  | followingKw | fromKw | fullKw | groupKw | havingKw | ignoreKw | inKw | innerKw | intersectKw
  | intervalKw | isKw | joinKw | leftKw | likeKw | limitKw | notKw | nullKw | nullsKw | onKw
  | orKw | orderKw | outerKw | overKw | partitionKw | precedingKw | qualifyKw | rangeKw
  | recursiveKw | respectKw | rightKw | rowsKw | selectKw | structKw | thenKw | toKw | trueKw
  | unboundedKw | unionKw | unnestKw | usingKw | whenKw | whereKw | windowKw | withKw
  -- Keywords that are identifiers elsewhere
  | bignumericKw | dateKw | datetimeKw | firstKw | jsonKw | lastKw | numericKw | offsetKw
  | replaceKw | rowKw | safeCastKw | timeKw | timestampKw | valueKw
  -- Unreadable input and the end of the text
  | errorToken | eof
  -- Statements and queries
  | sourceFile | statement | query | select | setOperation | subquery | withClause | cte
  -- Clauses
  | selectClause | column | aliasName | starExpression | qualifiedStar | starExcept | starReplace
  | replaceItem | fromClause | tableName | joinExpression | onClause | usingClause
  | unnestExpression | withOffset | whereClause | groupByClause | havingClause | qualifyClause
  | windowClause | namedWindow | orderByClause | orderItem | limitClause
  -- Expressions
  | binaryExpression | unaryExpression | parenthesizedExpression | inExpression
  | betweenExpression | isExpression | existsExpression | caseExpression | whenClause
  | elseClause | castExpression | extractExpression | type | structTypeField | functionCall
  | windowFunction | overClause | partitionByClause | frameClause | frameBound | fieldAccess
  | subscriptExpression | arrayLiteral | arraySubquery | structLiteral | typedLiteral
  | intervalLiteral | booleanLiteral
  -- Repairs
  | error | missing
  deriving DecidableEq, Repr, Inhabited

namespace Kind

/-- The number of a kind, its place in the declaration. -/
def id (kind : Kind) : Nat := kind.ctorIdx

/-- All kinds, in the order of their numbers. -/
def all : List Kind := [
  .whitespace, .lineComment, .blockComment, .ident, .quotedIdent, .number, .string, .bytes,
  .parameter, .systemVariable, .lParen, .rParen, .lBracket, .rBracket, .comma, .dot, .semicolon,
  .star, .eq, .neq, .lt, .gt, .ltEq, .gtEq, .shl, .shr, .plus, .minus, .slash, .pipePipe, .pipe,
  .amp, .caret, .tilde, .question, .allKw, .andKw, .arrayKw, .asKw, .ascKw, .betweenKw, .byKw,
  .caseKw, .castKw, .crossKw, .currentKw, .descKw, .distinctKw, .elseKw, .endKw, .exceptKw,
  .existsKw, .extractKw, .falseKw, .followingKw, .fromKw, .fullKw, .groupKw, .havingKw, .ignoreKw,
  .inKw, .innerKw, .intersectKw, .intervalKw, .isKw, .joinKw, .leftKw, .likeKw, .limitKw, .notKw,
  .nullKw, .nullsKw, .onKw, .orKw, .orderKw, .outerKw, .overKw, .partitionKw, .precedingKw,
  .qualifyKw, .rangeKw, .recursiveKw, .respectKw, .rightKw, .rowsKw, .selectKw, .structKw,
  .thenKw, .toKw, .trueKw, .unboundedKw, .unionKw, .unnestKw, .usingKw, .whenKw, .whereKw,
  .windowKw, .withKw, .bignumericKw, .dateKw, .datetimeKw, .firstKw, .jsonKw, .lastKw, .numericKw,
  .offsetKw, .replaceKw, .rowKw, .safeCastKw, .timeKw, .timestampKw, .valueKw, .errorToken, .eof,
  .sourceFile, .statement, .query, .select, .setOperation, .subquery, .withClause, .cte,
  .selectClause, .column, .aliasName, .starExpression, .qualifiedStar, .starExcept, .starReplace,
  .replaceItem, .fromClause, .tableName, .joinExpression, .onClause, .usingClause,
  .unnestExpression, .withOffset, .whereClause, .groupByClause, .havingClause, .qualifyClause,
  .windowClause, .namedWindow, .orderByClause, .orderItem, .limitClause, .binaryExpression,
  .unaryExpression, .parenthesizedExpression, .inExpression, .betweenExpression, .isExpression,
  .existsExpression, .caseExpression, .whenClause, .elseClause, .castExpression,
  .extractExpression, .type, .structTypeField, .functionCall, .windowFunction, .overClause,
  .partitionByClause, .frameClause, .frameBound, .fieldAccess, .subscriptExpression,
  .arrayLiteral, .arraySubquery, .structLiteral, .typedLiteral, .intervalLiteral, .booleanLiteral,
  .error, .missing]

/-- The kind with a given number. -/
def ofId? (n : Nat) : Option Kind := all[n]?

theorem ofId?_id (kind : Kind) : ofId? kind.id = some kind := by
  cases kind <;> rfl

theorem id_injective {a b : Kind} (h : a.id = b.id) : a = b := by
  have ha := ofId?_id a
  rw [h, ofId?_id b] at ha
  exact (Option.some.inj ha).symm

/-- The number of kinds. -/
def count : Nat := all.length

/-- The number of token kinds, which is also the number of terminals. -/
def terminalCount : Nat := eof.id + 1

/-! ## Classes of kinds -/

/-- Blanks and comments. -/
def isTrivia : Kind → Bool
  | whitespace | lineComment | blockComment => true
  | _ => false

/-- Identifiers, literals, parameters and variables. -/
def isLiteral (kind : Kind) : Bool := ident.id ≤ kind.id && kind.id ≤ systemVariable.id

def isPunct (kind : Kind) : Bool := lParen.id ≤ kind.id && kind.id ≤ question.id

def isKeyword (kind : Kind) : Bool := allKw.id ≤ kind.id && kind.id ≤ valueKw.id

/-- Keywords that may also be read as identifiers. -/
def isContextual (kind : Kind) : Bool := bignumericKw.id ≤ kind.id && kind.id ≤ valueKw.id

def isToken (kind : Kind) : Bool := kind.id < terminalCount

def isNode (kind : Kind) : Bool := !kind.isToken

/-- The two kinds of node that a repair leaves in a tree. -/
def isErrorOrMissing : Kind → Bool
  | error | missing => true
  | _ => false

/-- Nodes and literals are the named elements of a tree. -/
def isNamed (kind : Kind) : Bool := kind.isNode || kind.isLiteral

/-- The terminals, in the order of their numbers. -/
def terminals : List Kind := all.take terminalCount

end Kind
end SqlTree
