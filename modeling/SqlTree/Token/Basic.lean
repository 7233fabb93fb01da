import SqlTree.Token.Scan
import SqlTree.Token.Literal
import SqlTree.Text.Point

/-!
# Tokens

A text is read as a sequence of tokens that tile it. Reading can begin at any place of the text:

- `Token`         : kind, text and place of a token
- `Token.Place`   : a byte offset with the point at that offset
- `Token.split?`  : kind and text of the first token of a text
- `Token.read?`   : the token at the beginning of the rest of a text
- `Token.readAt?` : the token at a place of a text
- `Token.readAll` : all tokens of a text
-/

namespace SqlTree

structure Token where
  kind : Kind
  text : List Char
  /-- Offset of the first byte. -/
  offset : Nat
  /-- Point of the first byte. -/
  start : Point
  /-- Point after the last byte. -/
  stop : Point
  deriving DecidableEq, Repr

namespace Token

def span (token : Token) : Span := ⟨token.offset, token.offset + Text.size token.text⟩

/-- The content of a quoted token. -/
def value? (token : Token) : Option (List Char) := Literal.value? token.kind token.text

/-- Where reading goes on. -/
structure Place where
  offset : Nat
  point : Point
  deriving DecidableEq, Repr

namespace Place

/-- The beginning of a text. -/
def origin : Place := ⟨0, Point.origin⟩

/-- The place after `text`. -/
def advance (place : Place) (text : List Char) : Place :=
  ⟨place.offset + Text.size text, place.point.advance text⟩

end Place

/-- Kind and text of the first token, and what follows it. -/
def split? (rest : List Char) : Option (Kind × List Char × List Char) :=
  match rest with
  | [] => none
  | _ :: _ =>
    let (kind, length) := Scan.first rest
    some (kind, rest.take (max length 1), rest.drop (max length 1))

theorem length_of_split? {rest text rest' : List Char} {kind : Kind}
    (h : split? rest = some (kind, text, rest')) : rest'.length < rest.length := by
  cases rest with
  | nil => simp [split?] at h
  | cons c cs =>
    simp only [split?, Option.some.injEq, Prod.mk.injEq] at h
    obtain ⟨_, _, rfl⟩ := h
    simp only [List.length_drop, List.length_cons]
    omega

theorem append_of_split? {rest text rest' : List Char} {kind : Kind}
    (h : split? rest = some (kind, text, rest')) : text ++ rest' = rest := by
  cases rest with
  | nil => simp [split?] at h
  | cons c cs =>
    simp only [split?, Option.some.injEq, Prod.mk.injEq] at h
    obtain ⟨_, rfl, rfl⟩ := h
    exact List.take_append_drop _ _

/-- The first token of `rest`, which stands at `place`, with what follows it. -/
def read? (place : Place) (rest : List Char) : Option (Token × List Char) :=
  (split? rest).map fun (kind, text, rest) =>
    (⟨kind, text, place.offset, place.point, place.point.advance text⟩, rest)

theorem length_of_read? {place : Place} {rest rest' : List Char} {token : Token}
    (h : read? place rest = some (token, rest')) : rest'.length < rest.length := by
  obtain ⟨⟨kind, text, rest''⟩, hs, heq⟩ := Option.map_eq_some_iff.1 h
  simp only [Prod.mk.injEq] at heq
  exact heq.2 ▸ length_of_split? hs

/-- All tokens of `rest`, which stands at `place`. -/
def readFrom (place : Place) (rest : List Char) : List Token :=
  match _h : read? place rest with
  | none => []
  | some (token, rest') => token :: readFrom (place.advance token.text) rest'
termination_by rest.length
decreasing_by exact length_of_read? _h

/-- All tokens of a text. -/
def readAll (text : List Char) : List Token := readFrom Place.origin text

/-- The token at a place of a text, with the place after it. Nothing is read at the end, past it,
or inside a character. -/
def readAt? (text : List Char) (place : Place) : Option (Token × Place) :=
  (Text.dropBytes? place.offset text).bind fun rest =>
    (read? place rest).map fun (token, _) => (token, place.advance token.text)

/-- At most `steps` tokens from a place on, one after the other, with the place after the last. -/
def readSome (text : List Char) : Nat → Place → List Token × Place
  | 0, place => ([], place)
  | steps + 1, place =>
    match readAt? text place with
    | none => ([], place)
    | some (token, next) =>
      let (tokens, last) := readSome text steps next
      (token :: tokens, last)

end Token
end SqlTree
