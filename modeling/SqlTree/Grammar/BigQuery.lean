import SqlTree.Grammar.Lowering

/-!
# The rules of BigQuery queries

Visible rules are named after the node they make; hidden rules begin with an underscore and only
group alternatives.

- `Strength` : how strongly operators bind
- `rules`    : all definitions, in the order of their numbers
- `grammar`  : the grammar they make
-/

namespace SqlTree
namespace BigQuery

open Kind
open Rule (seq choice opt many many1 commaSep1 leftAssoc rightAssoc)
open Definition (node hidden)

/-! ## Binding strengths, from the loosest on -/

namespace Strength

def setOperation : Int := 1
def or : Int := 1
def and : Int := 2
def not : Int := 3
def comparison : Int := 4
def bitOr : Int := 5
def bitXor : Int := 6
def bitAnd : Int := 7
def shift : Int := 8
def additive : Int := 9
def multiplicative : Int := 10
def unary : Int := 11
def access : Int := 13

end Strength

/-- The name of the start rule. -/
def root : String := "source_file"

/-! ## Statements and queries -/

def statements : List Definition := [
  hidden root (seq [opt statement, many (seq [semicolon, opt statement])]),
  node statement "_query",
  node query "_query",
  hidden "_query" (seq [opt withClause, "_query_body", opt orderByClause, opt limitClause]),
  hidden "_query_body" (choice ["_select", setOperation, subquery]),
  hidden "_select" (seq [selectClause, opt fromClause, opt whereClause, opt groupByClause,
    opt havingClause, opt qualifyClause, opt windowClause]),
  node select "_select",
  node setOperation (leftAssoc Strength.setOperation (seq [
    "_set_operand",
    choice [
      seq [unionKw, choice [allKw, distinctKw]],
      seq [intersectKw, distinctKw],
      seq [exceptKw, distinctKw]],
    "_set_operand"])),
  hidden "_set_operand" (choice [select, setOperation, subquery]),
  node subquery (seq [lParen, query, rParen]),
  node withClause (seq [withKw, opt recursiveKw, commaSep1 cte]),
  node cte (seq ["_identifier", asKw, lParen, query, rParen])]

/-! ## The select list -/

def selectList : List Definition := [
  node selectClause (seq [
    selectKw,
    opt (seq [asKw, choice [structKw, valueKw]]),
    opt (choice [distinctKw, allKw]),
    commaSep1 column]),
  node column (choice [seq ["_expression", opt aliasName], starExpression, qualifiedStar]),
  node aliasName (seq [opt asKw, "_identifier"]),
  node starExpression (seq [star, opt starExcept, opt starReplace]),
  node qualifiedStar (seq ["_expression", dot, star, opt starExcept, opt starReplace]),
  node starExcept (seq [exceptKw, lParen, commaSep1 "_identifier", rParen]),
  node starReplace (seq [replaceKw, lParen, commaSep1 replaceItem, rParen]),
  node replaceItem (seq ["_expression", asKw, "_identifier"])]

/-! ## Tables and joins -/

def tables : List Definition := [
  node fromClause (seq [fromKw, commaSep1 "_from_item"]),
  hidden "_from_item" (choice [joinExpression, "_table_primary"]),
  hidden "_table_primary" (choice [
    seq [tableName, opt aliasName],
    seq [subquery, opt aliasName],
    seq [unnestExpression, opt aliasName, opt withOffset]]),
  node tableName (seq [
    "_identifier",
    opt (seq [dot, "_identifier", opt (seq [dot, "_identifier"])])]),
  node joinExpression (seq [
    "_from_item",
    "_join_operator",
    "_table_primary",
    opt (choice [onClause, usingClause])]),
  hidden "_join_operator" (seq [
    opt (choice [
      innerKw,
      crossKw,
      seq [choice [leftKw, rightKw, fullKw], opt outerKw]]),
    joinKw]),
  node onClause (seq [onKw, "_expression"]),
  node usingClause (seq [usingKw, lParen, commaSep1 "_identifier", rParen]),
  node unnestExpression (seq [unnestKw, lParen, "_expression", rParen]),
  node withOffset (seq [withKw, offsetKw, opt aliasName])]

/-! ## Other clauses -/

def clauses : List Definition := [
  node whereClause (seq [whereKw, "_expression"]),
  node groupByClause (seq [groupKw, byKw, commaSep1 "_expression"]),
  node havingClause (seq [havingKw, "_expression"]),
  node qualifyClause (seq [qualifyKw, "_expression"]),
  node orderByClause (seq [orderKw, byKw, commaSep1 orderItem]),
  node orderItem (seq [
    "_expression",
    opt (choice [ascKw, descKw]),
    opt (seq [nullsKw, choice [firstKw, lastKw]])]),
  node limitClause (seq [limitKw, "_limit_value", opt (seq [offsetKw, "_limit_value"])]),
  hidden "_limit_value" (choice [number, parameter, question])]

/-! ## Windows -/

def windows : List Definition := [
  node windowClause (seq [windowKw, commaSep1 namedWindow]),
  node namedWindow (seq [
    "_identifier",
    asKw,
    choice ["_identifier", seq [lParen, "_window_specification", rParen]]]),
  node overClause (seq [
    overKw,
    choice ["_identifier", seq [lParen, "_window_specification", rParen]]]),
  hidden "_window_specification" (seq [
    opt "_identifier",
    opt partitionByClause,
    opt orderByClause,
    opt frameClause]),
  node partitionByClause (seq [partitionKw, byKw, commaSep1 "_expression"]),
  node frameClause (seq [
    choice [rowsKw, rangeKw],
    choice [seq [betweenKw, frameBound, andKw, frameBound], frameBound]]),
  node frameBound (choice [
    seq [unboundedKw, choice [precedingKw, followingKw]],
    seq [currentKw, rowKw],
    seq ["_expression", choice [precedingKw, followingKw]]])]

/-! ## Expressions -/

/-- The operators of two operands, each with the strength of its level. -/
def binaryOperators : List Rule := [
  leftAssoc Strength.or (seq ["_expression", orKw, "_expression"]),
  leftAssoc Strength.and (seq ["_expression", andKw, "_expression"]),
  leftAssoc Strength.comparison (seq [
    "_expression",
    choice [eq, neq, lt, gt, ltEq, gtEq, likeKw, seq [notKw, likeKw]],
    "_expression"]),
  leftAssoc Strength.bitOr (seq ["_expression", pipe, "_expression"]),
  leftAssoc Strength.bitXor (seq ["_expression", caret, "_expression"]),
  leftAssoc Strength.bitAnd (seq ["_expression", amp, "_expression"]),
  leftAssoc Strength.shift (seq ["_expression", choice [shl, shr], "_expression"]),
  leftAssoc Strength.additive (seq ["_expression", choice [plus, minus], "_expression"]),
  leftAssoc Strength.multiplicative (seq [
    "_expression",
    choice [star, slash, pipePipe],
    "_expression"])]

def operators : List Definition := [
  hidden "_expression" (choice [
    binaryExpression, unaryExpression, parenthesizedExpression, inExpression, betweenExpression,
    isExpression, existsExpression, caseExpression, castExpression, extractExpression,
    functionCall, windowFunction, fieldAccess, subscriptExpression, subquery, arrayLiteral,
    arraySubquery, structLiteral, typedLiteral, intervalLiteral, booleanLiteral, "_identifier",
    number, string, bytes, nullKw, parameter, systemVariable, question]),
  hidden "_identifier" (choice [ident, quotedIdent]),
  node binaryExpression (choice binaryOperators),
  node unaryExpression (choice [
    rightAssoc Strength.not (seq [notKw, "_expression"]),
    rightAssoc Strength.unary (seq [choice [minus, plus, tilde], "_expression"])]),
  node parenthesizedExpression (seq [lParen, "_expression", rParen]),
  node inExpression (leftAssoc Strength.comparison (seq [
    "_expression",
    opt notKw,
    inKw,
    choice [
      seq [lParen, commaSep1 "_expression", rParen],
      subquery,
      unnestExpression]])),
  node betweenExpression (leftAssoc Strength.comparison (seq [
    "_expression", opt notKw, betweenKw, "_expression", andKw, "_expression"])),
  node isExpression (leftAssoc Strength.comparison (seq [
    "_expression", isKw, opt notKw, choice [nullKw, trueKw, falseKw]])),
  node existsExpression (seq [existsKw, subquery]),
  node caseExpression (seq [
    caseKw, opt "_expression", many1 whenClause, opt elseClause, endKw]),
  node whenClause (seq [whenKw, "_expression", thenKw, "_expression"]),
  node elseClause (seq [elseKw, "_expression"]),
  node castExpression (seq [
    choice [castKw, safeCastKw], lParen, "_expression", asKw, type, rParen]),
  node extractExpression (seq [
    extractKw, lParen, "_identifier", fromKw, "_expression", rParen])]

/-! ## Calls, accesses and literals -/

def primaries : List Definition := [
  node functionCall (seq [
    choice ["_identifier", fieldAccess], lParen, opt "_arguments", rParen]),
  hidden "_arguments" (choice [
    star,
    seq [
      opt distinctKw,
      commaSep1 "_expression",
      opt (seq [choice [ignoreKw, respectKw], nullsKw]),
      opt orderByClause,
      opt limitClause]]),
  node windowFunction (seq [functionCall, overClause]),
  node fieldAccess (leftAssoc Strength.access (seq ["_expression", dot, "_identifier"])),
  node subscriptExpression (leftAssoc Strength.access (seq [
    "_expression", lBracket, "_expression", rBracket])),
  node arrayLiteral (seq [
    opt (seq [arrayKw, opt (seq [lt, type, gt])]),
    lBracket,
    opt (commaSep1 "_expression"),
    rBracket]),
  node arraySubquery (seq [arrayKw, subquery]),
  node structLiteral (choice [
    seq [
      structKw,
      opt (seq [lt, commaSep1 structTypeField, gt]),
      lParen,
      opt (commaSep1 "_struct_field"),
      rParen],
    seq [lParen, "_expression", comma, commaSep1 "_expression", rParen]]),
  hidden "_struct_field" (seq ["_expression", opt aliasName]),
  node typedLiteral (seq [
    choice [dateKw, datetimeKw, timeKw, timestampKw, numericKw, bignumericKw, jsonKw],
    string]),
  node intervalLiteral (seq [
    intervalKw, "_expression", "_identifier", opt (seq [toKw, "_identifier"])]),
  node booleanLiteral (choice [trueKw, falseKw])]

/-! ## Types -/

def types : List Definition := [
  node type (choice [
    seq ["_identifier", opt (seq [lParen, commaSep1 number, rParen])],
    seq [arrayKw, lt, type, gt],
    seq [structKw, lt, commaSep1 structTypeField, gt]]),
  node structTypeField (seq [opt "_identifier", type])]

/-- All definitions, in the order of their numbers. -/
def rules : List Definition :=
  statements ++ selectList ++ tables ++ clauses ++ windows ++ operators ++ primaries ++ types

/-- The grammar of BigQuery queries. -/
def grammar : Except GrammarError Grammar := Grammar.ofRules rules root

end BigQuery
end SqlTree
