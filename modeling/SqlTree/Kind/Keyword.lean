import SqlTree.Kind.Basic

/-!
# Keywords

The spelling of every keyword, and the keyword of an identifier. Keywords are recognised without
regard to case. A reserved keyword is never an identifier; the others are identifiers wherever the
keyword has no meaning.
-/

namespace SqlTree
namespace Kind

/-- The keywords with their spellings, the reserved ones first. -/
def keywords : List (String × Kind) := [
  ("ALL", .allKw), ("AND", .andKw), ("ARRAY", .arrayKw), ("AS", .asKw), ("ASC", .ascKw),
  ("BETWEEN", .betweenKw), ("BY", .byKw), ("CASE", .caseKw), ("CAST", .castKw),
  ("CROSS", .crossKw), ("CURRENT", .currentKw), ("DESC", .descKw), ("DISTINCT", .distinctKw),
  ("ELSE", .elseKw), ("END", .endKw), ("EXCEPT", .exceptKw), ("EXISTS", .existsKw),
  ("EXTRACT", .extractKw), ("FALSE", .falseKw), ("FOLLOWING", .followingKw), ("FROM", .fromKw),
  ("FULL", .fullKw), ("GROUP", .groupKw), ("HAVING", .havingKw), ("IGNORE", .ignoreKw),
  ("IN", .inKw), ("INNER", .innerKw), ("INTERSECT", .intersectKw), ("INTERVAL", .intervalKw),
  ("IS", .isKw), ("JOIN", .joinKw), ("LEFT", .leftKw), ("LIKE", .likeKw), ("LIMIT", .limitKw),
  ("NOT", .notKw), ("NULL", .nullKw), ("NULLS", .nullsKw), ("ON", .onKw), ("OR", .orKw),
  ("ORDER", .orderKw), ("OUTER", .outerKw), ("OVER", .overKw), ("PARTITION", .partitionKw),
  ("PRECEDING", .precedingKw), ("QUALIFY", .qualifyKw), ("RANGE", .rangeKw),
  ("RECURSIVE", .recursiveKw), ("RESPECT", .respectKw), ("RIGHT", .rightKw), ("ROWS", .rowsKw),
  ("SELECT", .selectKw), ("STRUCT", .structKw), ("THEN", .thenKw), ("TO", .toKw),
  ("TRUE", .trueKw), ("UNBOUNDED", .unboundedKw), ("UNION", .unionKw), ("UNNEST", .unnestKw),
  ("USING", .usingKw), ("WHEN", .whenKw), ("WHERE", .whereKw), ("WINDOW", .windowKw),
  ("WITH", .withKw), ("BIGNUMERIC", .bignumericKw), ("DATE", .dateKw), ("DATETIME", .datetimeKw),
  ("FIRST", .firstKw), ("JSON", .jsonKw), ("LAST", .lastKw), ("NUMERIC", .numericKw),
  ("OFFSET", .offsetKw), ("REPLACE", .replaceKw), ("ROW", .rowKw), ("SAFE_CAST", .safeCastKw),
  ("TIME", .timeKw), ("TIMESTAMP", .timestampKw), ("VALUE", .valueKw)]

/-- The spelling of a keyword, in capitals. -/
def keywordText? (kind : Kind) : Option String :=
  (keywords.find? fun entry => entry.2 = kind).map Prod.fst

/-- The longest identifier that is looked up, in bytes. -/
def maxKeywordSize : Nat := 16

/-- The keyword that an identifier spells. -/
def keyword? (ident : List Char) : Option Kind :=
  if ident.length ≤ maxKeywordSize && ident.all (·.toNat < 128) then
    let upper := ident.map Char.toUpper
    (keywords.find? fun entry => entry.1.toList = upper).map Prod.snd
  else none

end Kind
end SqlTree
