import SqlTree.Kind.Basic

/-!
# Contexts

The construct in which a fault is found. It words the message, says what would be expected there,
and adds tokens at which reading may resume.
-/

namespace SqlTree

inductive Context where
  /-- Between statements. -/
  | topLevel
  | withClause
  | selectList
  /-- Inside FROM, a join or UNNEST. -/
  | fromClause
  /-- Inside WHERE, HAVING or QUALIFY. -/
  | filter
  | groupBy
  | orderBy
  | limit
  /-- Inside a window specification. -/
  | window
  | expression
  /-- Between the arguments of a call. -/
  | argumentList
  /-- Inside a type. -/
  | typeName
  /-- Inside a parenthesized query. -/
  | subquery
  deriving DecidableEq, Repr

namespace Context

/-- The context inside a node of the given kind. -/
def ofKind : Kind → Context
  | .withClause | .cte => .withClause
  | .selectClause | .column | .aliasName | .starExpression | .qualifiedStar | .starExcept
  | .starReplace | .replaceItem => .selectList
  | .fromClause | .tableName | .joinExpression | .onClause | .usingClause | .unnestExpression
  | .withOffset => .fromClause
  | .whereClause | .havingClause | .qualifyClause => .filter
  | .groupByClause => .groupBy
  | .orderByClause | .orderItem => .orderBy
  | .limitClause => .limit
  | .windowClause | .namedWindow | .overClause | .partitionByClause | .frameClause
  | .frameBound => .window
  | .functionCall | .windowFunction | .structLiteral | .arrayLiteral => .argumentList
  | .type | .structTypeField => .typeName
  | .query | .subquery | .select | .setOperation | .arraySubquery | .existsExpression => .subquery
  | .statement | .sourceFile => .topLevel
  | _ => .expression

def description : Context → String
  | topLevel => "at top level"
  | withClause => "in WITH clause"
  | selectList => "in select list"
  | fromClause => "in FROM clause"
  | filter => "in filter condition"
  | groupBy => "in GROUP BY clause"
  | orderBy => "in ORDER BY clause"
  | limit => "in LIMIT clause"
  | window => "in window specification"
  | expression => "in expression"
  | argumentList => "in argument list"
  | typeName => "in type"
  | subquery => "in subquery"

/-- What would be expected in the context. -/
def expectation : Context → String
  | topLevel => "a query or ';'"
  | withClause => "a named subquery (name AS (query))"
  | selectList => "a column, '*' or an aliased expression"
  | fromClause => "a table name, subquery, UNNEST or join"
  | filter => "a boolean condition"
  | groupBy => "a grouping expression"
  | orderBy => "an ordering expression with optional ASC/DESC"
  | limit => "a row count"
  | window => "PARTITION BY, ORDER BY or a window frame"
  | expression => "an expression (literal, column, or operator)"
  | argumentList => "an argument"
  | typeName => "a type name"
  | subquery => "a query"

/-- The tokens at which reading may resume in the context. -/
def resumeTokens : Context → List Kind
  | topLevel | withClause | limit => [.semicolon]
  | selectList | groupBy | orderBy => [.comma, .semicolon]
  | fromClause => [.comma, .joinKw, .onKw, .semicolon]
  | filter => [.andKw, .orKw, .semicolon]
  | window | expression | argumentList | subquery => [.rParen, .semicolon]
  | typeName => [.gt, .shr, .rParen]

end Context
end SqlTree
