import SqlTree.Kind.Basic

/-!
# Names of kinds

Each kind is written as one lower-case word; names are looked up without regard to the case of
their ASCII letters.
-/

namespace SqlTree
namespace Kind

/-- The lower-case name of a kind. -/
def name : Kind → String
  | whitespace => "whitespace"
  | lineComment => "line_comment"
  | blockComment => "block_comment"
  | ident => "ident"
  | quotedIdent => "quoted_ident"
  | number => "number"
  | string => "string"
  | bytes => "bytes"
  | parameter => "parameter"
  | systemVariable => "system_variable"
  | lParen => "l_paren"
  | rParen => "r_paren"
  | lBracket => "l_bracket"
  | rBracket => "r_bracket"
  | comma => "comma"
  | dot => "dot"
  | semicolon => "semicolon"
  | star => "star"
  | eq => "eq"
  | neq => "neq"
  | lt => "lt"
  | gt => "gt"
  | ltEq => "lt_eq"
  | gtEq => "gt_eq"
  | shl => "shl"
  | shr => "shr"
  | plus => "plus"
  | minus => "minus"
  | slash => "slash"
  | pipePipe => "pipe_pipe"
  | pipe => "pipe"
  | amp => "amp"
  | caret => "caret"
  | tilde => "tilde"
  | question => "question"
  | allKw => "all_kw"
  | andKw => "and_kw"
  | arrayKw => "array_kw"
  | asKw => "as_kw"
  | ascKw => "asc_kw"
  | betweenKw => "between_kw"
  | byKw => "by_kw"
  | caseKw => "case_kw"
  | castKw => "cast_kw"
  | crossKw => "cross_kw"
  | currentKw => "current_kw"
  | descKw => "desc_kw"
  | distinctKw => "distinct_kw"
  | elseKw => "else_kw"
  | endKw => "end_kw"
  | exceptKw => "except_kw"
  | existsKw => "exists_kw"
  | extractKw => "extract_kw"
  | falseKw => "false_kw"
  | followingKw => "following_kw"
  | fromKw => "from_kw"
  | fullKw => "full_kw"
  | groupKw => "group_kw"
  | havingKw => "having_kw"
  | ignoreKw => "ignore_kw"
  | inKw => "in_kw"
  | innerKw => "inner_kw"
  | intersectKw => "intersect_kw"
  | intervalKw => "interval_kw"
  | isKw => "is_kw"
  | joinKw => "join_kw"
  | leftKw => "left_kw"
  | likeKw => "like_kw"
  | limitKw => "limit_kw"
  | notKw => "not_kw"
  | nullKw => "null_kw"
  | nullsKw => "nulls_kw"
  | onKw => "on_kw"
  | orKw => "or_kw"
  | orderKw => "order_kw"
  | outerKw => "outer_kw"
  | overKw => "over_kw"
  | partitionKw => "partition_kw"
  | precedingKw => "preceding_kw"
  | qualifyKw => "qualify_kw"
  | rangeKw => "range_kw"
  | recursiveKw => "recursive_kw"
  | respectKw => "respect_kw"
  | rightKw => "right_kw"
  | rowsKw => "rows_kw"
  | selectKw => "select_kw"
  | structKw => "struct_kw"
  | thenKw => "then_kw"
  | toKw => "to_kw"
  | trueKw => "true_kw"
  | unboundedKw => "unbounded_kw"
  | unionKw => "union_kw"
  | unnestKw => "unnest_kw"
  | usingKw => "using_kw"
  | whenKw => "when_kw"
  | whereKw => "where_kw"
  | windowKw => "window_kw"
  | withKw => "with_kw"
  | bignumericKw => "bignumeric_kw"
  | dateKw => "date_kw"
  | datetimeKw => "datetime_kw"
  | firstKw => "first_kw"
  | jsonKw => "json_kw"
  | lastKw => "last_kw"
  | numericKw => "numeric_kw"
  | offsetKw => "offset_kw"
  | replaceKw => "replace_kw"
  | rowKw => "row_kw"
  | safeCastKw => "safe_cast_kw"
  | timeKw => "time_kw"
  | timestampKw => "timestamp_kw"
  | valueKw => "value_kw"
  | errorToken => "error_token"
  | eof => "eof"
  | sourceFile => "source_file"
  | statement => "statement"
  | query => "query"
  | select => "select"
  | setOperation => "set_operation"
  | subquery => "subquery"
  | withClause => "with_clause"
  | cte => "cte"
  | selectClause => "select_clause"
  | column => "column"
  | aliasName => "alias"
  | starExpression => "star_expression"
  | qualifiedStar => "qualified_star"
  | starExcept => "star_except"
  | starReplace => "star_replace"
  | replaceItem => "replace_item"
  | fromClause => "from_clause"
  | tableName => "table_name"
  | joinExpression => "join_expression"
  | onClause => "on_clause"
  | usingClause => "using_clause"
  | unnestExpression => "unnest_expression"
  | withOffset => "with_offset"
  | whereClause => "where_clause"
  | groupByClause => "group_by_clause"
  | havingClause => "having_clause"
  | qualifyClause => "qualify_clause"
  | windowClause => "window_clause"
  | namedWindow => "named_window"
  | orderByClause => "order_by_clause"
  | orderItem => "order_item"
  | limitClause => "limit_clause"
  | binaryExpression => "binary_expression"
  | unaryExpression => "unary_expression"
  | parenthesizedExpression => "parenthesized_expression"
  | inExpression => "in_expression"
  | betweenExpression => "between_expression"
  | isExpression => "is_expression"
  | existsExpression => "exists_expression"
  | caseExpression => "case_expression"
  | whenClause => "when_clause"
  | elseClause => "else_clause"
  | castExpression => "cast_expression"
  | extractExpression => "extract_expression"
  | type => "type"
  | structTypeField => "struct_type_field"
  | functionCall => "function_call"
  | windowFunction => "window_function"
  | overClause => "over_clause"
  | partitionByClause => "partition_by_clause"
  | frameClause => "frame_clause"
  | frameBound => "frame_bound"
  | fieldAccess => "field_access"
  | subscriptExpression => "subscript_expression"
  | arrayLiteral => "array_literal"
  | arraySubquery => "array_subquery"
  | structLiteral => "struct_literal"
  | typedLiteral => "typed_literal"
  | intervalLiteral => "interval_literal"
  | booleanLiteral => "boolean_literal"
  | error => "error"
  | missing => "missing"

/-- The name in capitals, as it stands in messages about rule definitions. -/
def capitalName (kind : Kind) : String := String.ofList (kind.name.toList.map Char.toUpper)

/-- The kind of a name, whatever the case of its ASCII letters. -/
def ofName? (name : String) : Option Kind :=
  let lower := name.toList.map Char.toLower
  all.find? fun kind => kind.name.toList == lower

end Kind
end SqlTree
