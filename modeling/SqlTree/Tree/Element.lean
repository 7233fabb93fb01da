import SqlTree.Text.Basic
import SqlTree.Kind.Name

/-!
# Elements of a tree

An element is a token, or a composite node over further elements; trivia are tokens like any other,
so the leaves of a tree spell the text that it covers. Elements do not know their offset: one that
is taken over into a new tree may stand at a different place there.

- `Origin`  : how a composite node was made, which decides whether it can be taken over
- `Element` : tokens and composite nodes, each with a number of its own
- `Element.text`, `Element.size`, `Element.tokens` : views of an element
- `Element.same` : equality of kinds, shape and texts
- `Element.outline` : the bracketed form of the named structure
-/

namespace SqlTree

/-- How a composite node was made. -/
structure Origin where
  /-- The state below the node when its first token was read. -/
  state : Nat
  /-- Bytes from the start of the node to the last one that was looked at in making it. -/
  lookahead : Nat
  /-- Free of errors, and of choices between several actions. -/
  reusable : Bool
  deriving DecidableEq, Repr

inductive Element where
  | token (id : Nat) (kind : Kind) (text : List Char)
  | node (id : Nat) (kind : Kind) (origin : Option Origin) (children : List Element)

namespace Element

/-- The number that tells the element from all others, kept when it is taken over. -/
def id : Element → Nat
  | token id _ _ => id
  | node id _ _ _ => id

def kind : Element → Kind
  | token _ kind _ => kind
  | node _ kind _ _ => kind

def isToken : Element → Bool
  | token .. => true
  | node .. => false

def origin? : Element → Option Origin
  | token .. => none
  | node _ _ origin _ => origin

/-- The elements directly below. -/
def children : Element → List Element
  | token .. => []
  | node _ _ _ children => children

theorem sizeOf_lt_of_mem_children {e c : Element} (h : c ∈ e.children) : sizeOf c < sizeOf e := by
  cases e with
  | token => simp [children] at h
  | node id kind origin cs =>
    have := List.sizeOf_lt_of_mem h
    simp only [children] at this
    simp only [node.sizeOf_spec]
    omega

/-! ## Text and size -/

mutual

/-- The text that the leaves spell. -/
def text : Element → List Char
  | token _ _ text => text
  | node _ _ _ children => textAll children

def textAll : List Element → List Char
  | [] => []
  | e :: rest => e.text ++ textAll rest

end

mutual

/-- The number of bytes covered. -/
def size : Element → Nat
  | token _ _ text => Text.size text
  | node _ _ _ children => sizeAll children

def sizeAll : List Element → Nat
  | [] => 0
  | e :: rest => e.size + sizeAll rest

end

mutual

theorem size_text : (e : Element) → Text.size e.text = e.size
  | token .. => by simp [text, size]
  | node _ _ _ children => by simpa [text, size] using size_textAll children

theorem size_textAll : (es : List Element) → Text.size (textAll es) = sizeAll es
  | [] => by simp [textAll, sizeAll]
  | e :: rest => by simp [textAll, sizeAll, size_text e, size_textAll rest]

end

@[simp]
theorem textAll_append (a b : List Element) : textAll (a ++ b) = textAll a ++ textAll b := by
  induction a with
  | nil => simp [textAll]
  | cons e a ih => simp [textAll, ih]

@[simp]
theorem sizeAll_append (a b : List Element) : sizeAll (a ++ b) = sizeAll a + sizeAll b := by
  rw [← size_textAll, textAll_append, Text.size_append, size_textAll, size_textAll]

theorem sizeAll_singleton (e : Element) : sizeAll [e] = e.size := by
  simp [sizeAll]

mutual

/-- The tokens below, from left to right. -/
def tokens : Element → List (Kind × List Char)
  | token _ kind text => [(kind, text)]
  | node _ _ _ children => tokensAll children

def tokensAll : List Element → List (Kind × List Char)
  | [] => []
  | e :: rest => e.tokens ++ tokensAll rest

end

/-! ## Properties -/

mutual

/-- Whether the element is, or contains, a node that a repair left. -/
def hasError : Element → Bool
  | token .. => false
  | node _ kind _ children => kind.isErrorOrMissing || hasErrorAny children

def hasErrorAny : List Element → Bool
  | [] => false
  | e :: rest => e.hasError || hasErrorAny rest

end

mutual

/-- Equal kinds, shape and texts. -/
def same : Element → Element → Bool
  | token _ kind text, token _ kind' text' => kind == kind' && text == text'
  | node _ kind _ children, node _ kind' _ children' => kind == kind' && sameAll children children'
  | _, _ => false

def sameAll : List Element → List Element → Bool
  | [], [] => true
  | e :: rest, e' :: rest' => e.same e' && sameAll rest rest'
  | _, _ => false

end

/-! ## Outline -/

/-- Whether a child of a node of kind `parent` is shown: the named ones, and in what was skipped
everything but trivia. -/
def isShownIn (parent : Kind) (e : Element) : Bool :=
  e.kind.isNamed || (parent == .error && !e.kind.isTrivia)

/-- The name under which a missing token is shown. -/
def missingName (children : List Element) : String :=
  match children with
  | e :: _ => e.kind.name
  | [] => ""

mutual

/-- The bracketed form of the named structure. -/
def outline : Element → String
  | token _ kind _ => "(" ++ kind.name ++ ")"
  | node _ kind _ children =>
    if kind == .missing then "(MISSING " ++ missingName children ++ ")"
    else "(" ++ (if kind == .error then "ERROR" else kind.name) ++ outlineAll kind children ++ ")"

def outlineAll (parent : Kind) : List Element → String
  | [] => ""
  | e :: rest =>
    if e.isShownIn parent then " " ++ e.outline ++ outlineAll parent rest
    else outlineAll parent rest

end

end Element
end SqlTree
