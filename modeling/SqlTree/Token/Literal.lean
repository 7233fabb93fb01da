import SqlTree.Text.Basic
import SqlTree.Kind.Basic

/-!
# Values of literals

The content of a string, a bytes literal or a quoted identifier: letters and quotes are taken off,
and escapes are resolved unless the letters say that the literal is raw.
-/

namespace SqlTree
namespace Literal

/-- The character that stands for an escaped one. -/
def unescape : Char → Char
  | 'n' => '\n'
  | 't' => '\t'
  | 'r' => '\r'
  | '0' => '\x00'
  | c => c

/-- Resolves every escape, from left to right; a backslash at the very end stays. -/
def resolve : List Char → List Char
  | '\\' :: c :: rest => unescape c :: resolve rest
  | c :: rest => c :: resolve rest
  | [] => []

/-- The number of quotes that begin a text: three if they are alike, otherwise one is assumed. -/
def quoteSize : List Char → Nat
  | '\'' :: '\'' :: '\'' :: _ => 3
  | '"' :: '"' :: '"' :: _ => 3
  | _ => 1

/-- The kinds of token that have a value. -/
def hasValue : Kind → Bool
  | .string | .bytes | .quotedIdent => true
  | _ => false

/-- The value of a literal. There is none if the text is too short for its quotes or the place of
the closing quote is inside a character. -/
def value? (kind : Kind) (text : List Char) : Option (List Char) :=
  if hasValue kind then
    let letters := text.takeWhile Char.isAlpha
    let quoted := text.dropWhile Char.isAlpha
    let n := quoteSize quoted
    if n ≤ Text.size quoted then
      (Text.slice? n (Text.size quoted - n) quoted).map fun body =>
        if letters.any (fun c => c == 'r' || c == 'R') then body else resolve body
    else none
  else none

end Literal
end SqlTree
