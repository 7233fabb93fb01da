import SqlTree.Text.Basic
import SqlTree.Kind.Keyword
import SqlTree.Diagnostic.Code
import SqlTree.Diagnostic.Context

/-!
# Diagnostics

A diagnostic is a coded message about a range of the text. It may carry a hint, and further ranges
such as the bracket that a missing one would have closed.
-/

namespace SqlTree

/-- A further range with its own message. -/
structure Related where
  message : String
  span : Span
  deriving DecidableEq, Repr

structure Diagnostic where
  code : Code
  message : String := code.defaultMessage
  /-- The bytes at fault; empty for a missing token. -/
  span : Span := Span.empty 0
  hint : Option String := none
  related : List Related := []
  deriving DecidableEq, Repr

namespace Diagnostic

/-- The line shown to people. -/
def display (d : Diagnostic) : String := "error " ++ d.code.text ++ ": " ++ d.message

/-- The token `found` does not fit into the context; the hint says what would. -/
def unexpected (found : String) (span : Span) (context : Context) (code : Code) : Diagnostic where
  code := code
  message := "unexpected " ++ found ++ " " ++ context.description
  span := span
  hint := some ("expected " ++ context.expectation)

/-- What a token kind is called in messages. -/
def describe (kind : Kind) : String :=
  match kind.keywordText? with
  | some text => text
  | none =>
    match kind with
    | .ident | .quotedIdent => "identifier"
    | .number => "number"
    | .string => "string"
    | .bytes => "bytes literal"
    | .parameter => "query parameter"
    | .systemVariable => "system variable"
    | .lParen => "'('"
    | .rParen => "')'"
    | .lBracket => "'['"
    | .rBracket => "']'"
    | .comma => "','"
    | .dot => "'.'"
    | .semicolon => "';'"
    | .star => "'*'"
    | .eq => "'='"
    | .neq => "'!='"
    | .lt => "'<'"
    | .gt => "'>'"
    | .ltEq => "'<='"
    | .gtEq => "'>='"
    | .shl => "'<<'"
    | .shr => "'>>'"
    | .plus => "'+'"
    | .minus => "'-'"
    | .slash => "'/'"
    | .pipePipe => "'||'"
    | .pipe => "'|'"
    | .amp => "'&'"
    | .caret => "'^'"
    | .tilde => "'~'"
    | .question => "'?'"
    | .eof => "end of input"
    | _ => "token"

/-- The token `kind` is missing in front of a token of kind `found` at byte `offset`. -/
def missing (kind found : Kind) (offset : Nat) (context : Context)
    (related : List Related) : Diagnostic where
  code := Code.ofMissing kind
  message := "missing " ++ describe kind ++ " " ++ context.description
  span := Span.empty offset
  hint := some ("found " ++ describe found)
  related := related

end Diagnostic
end SqlTree
