import SqlTree.Kind.Basic

/-!
# Codes of diagnostics

Every diagnostic has a code `Eccnn`: two digits for the category and two for the fault.

- `E01` lexical, `E02` structural, `E03` clause, `E04` expression, `E09` any other fault
-/

namespace SqlTree

inductive Code where
  | invalidCharacter
  | unterminatedString
  | unterminatedComment
  | unterminatedIdentifier
  | missingSemicolon
  | unclosedParen
  | unclosedBracket
  | unexpectedCloser
  | missingComma
  | missingIdentifier
  | missingKeyword
  | unexpectedInClause
  | invalidExpression
  | missingOperand
  | unclosedCall
  | unexpectedToken
  | expectedToken
  | internal
  deriving DecidableEq, Repr

namespace Code

/-- All codes, in ascending order. -/
def all : List Code := [
  .invalidCharacter, .unterminatedString, .unterminatedComment, .unterminatedIdentifier,
  .missingSemicolon, .unclosedParen, .unclosedBracket, .unexpectedCloser, .missingComma,
  .missingIdentifier, .missingKeyword, .unexpectedInClause, .invalidExpression, .missingOperand,
  .unclosedCall, .unexpectedToken, .expectedToken, .internal]

/-- The code as it is shown. -/
def text : Code → String
  | invalidCharacter => "E0101"
  | unterminatedString => "E0102"
  | unterminatedComment => "E0103"
  | unterminatedIdentifier => "E0104"
  | missingSemicolon => "E0201"
  | unclosedParen => "E0202"
  | unclosedBracket => "E0203"
  | unexpectedCloser => "E0204"
  | missingComma => "E0205"
  | missingIdentifier => "E0301"
  | missingKeyword => "E0302"
  | unexpectedInClause => "E0303"
  | invalidExpression => "E0401"
  | missingOperand => "E0402"
  | unclosedCall => "E0403"
  | unexpectedToken => "E0901"
  | expectedToken => "E0902"
  | internal => "E0999"

/-- The code that is shown as `text`. -/
def ofText? (text : String) : Option Code := all.find? (·.text == text)

inductive Category where
  | lexical | structural | clause | expression | other
  deriving DecidableEq, Repr

def category : Code → Category
  | invalidCharacter | unterminatedString | unterminatedComment | unterminatedIdentifier => .lexical
  | missingSemicolon | unclosedParen | unclosedBracket | unexpectedCloser | missingComma =>
    .structural
  | missingIdentifier | missingKeyword | unexpectedInClause => .clause
  | invalidExpression | missingOperand | unclosedCall => .expression
  | unexpectedToken | expectedToken | internal => .other

def Category.description : Category → String
  | .lexical => "lexical error"
  | .structural => "structural error"
  | .clause => "clause error"
  | .expression => "expression error"
  | .other => "syntax error"

/-- The message of a diagnostic that has none of its own. -/
def defaultMessage : Code → String
  | invalidCharacter => "invalid character"
  | unterminatedString => "unterminated string literal"
  | unterminatedComment => "unterminated block comment"
  | unterminatedIdentifier => "unterminated quoted identifier"
  | missingSemicolon => "missing semicolon"
  | unclosedParen => "unclosed parenthesis"
  | unclosedBracket => "unclosed bracket"
  | unexpectedCloser => "unexpected closing delimiter"
  | missingComma => "missing comma"
  | missingIdentifier => "missing identifier"
  | missingKeyword => "missing keyword"
  | unexpectedInClause => "unexpected token in clause"
  | invalidExpression => "invalid expression"
  | missingOperand => "missing operand"
  | unclosedCall => "unclosed function call"
  | unexpectedToken => "unexpected token"
  | expectedToken => "expected token"
  | internal => "internal parser error"

def isStructural (code : Code) : Bool := code.category == .structural

/-- Whether reading can go on after the fault. -/
def isRecoverable (code : Code) : Bool := code != .internal

/-- The code of an unreadable token, by the way it begins. -/
def ofUnreadable (text : List Char) : Code :=
  if ['/', '*'].isPrefixOf text then .unterminatedComment
  else if ['\x60'].isPrefixOf text then .unterminatedIdentifier
  else match text.dropWhile Char.isAlpha with
    | '\'' :: _ | '"' :: _ => .unterminatedString
    | _ => .invalidCharacter

/-- The code of a token that has to be put in. -/
def ofMissing (kind : Kind) : Code :=
  match kind with
  | .semicolon => .missingSemicolon
  | .rParen => .unclosedParen
  | .rBracket | .gt => .unclosedBracket
  | .comma => .missingComma
  | .ident | .quotedIdent => .missingIdentifier
  | .number | .string => .missingOperand
  | _ => if kind.isKeyword then .missingKeyword else .expectedToken

end Code
end SqlTree
