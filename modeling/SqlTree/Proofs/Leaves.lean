import Mathlib.Data.List.Forall2
import SqlTree.Proofs.BigQuery

/-!
# The leaves of a tree are the tokens of its text

Tokens come into a tree in several ways: they are shifted, perhaps as something else, they are skipped
into an error, or they are trivia in front of either. All the time, what stands on the stack and what
is still to come are together the tokens of the text, each of them stored in one of three ways.

- `Leaf.Stored`, `Token.StoredAs` : how a token may be stored in a tree
- `Element.leavesAt`  : the leaves of a tree with their offsets, without what is missing
- `Source.upcoming`   : the tokens that a source has not handed out
- `Machine.leaves`    : what stands on the stack and what is still to come
- `Machine.storedAll_step` : a step keeps that these are the tokens of the text
- `BigQuery.leaves_are_tokens` : so the leaves of every tree are
-/

namespace SqlTree

/-! ## How tokens are stored -/

namespace Leaf

/-- A token is stored as it is, or as an identifier if it is a keyword that may be one, or, if it is
`>>`, as two tokens `>`. -/
inductive Stored : Leaf → List Leaf → Prop where
  | same (leaf : Leaf) : Stored leaf [leaf]
  | ident {kind : Kind} {text : List Char} (h : kind.isContextual = true) :
      Stored (kind, text) [(.ident, text)]
  | halves : Stored (.shr, ['>', '>']) [(.gt, ['>']), (.gt, ['>'])]

/-- Leaves one behind the other from byte `start` on. -/
def place : Nat → List Leaf → List (Nat × Leaf)
  | _, [] => []
  | start, leaf :: rest => (start, leaf) :: place (start + Text.size leaf.2) rest

/-- The leaves are made of the tokens, each of which is stored in its place. -/
def StoredAll (tokens leaves : List Leaf) : Prop :=
  ∃ pieces, List.Forall₂ Stored tokens pieces ∧ leaves = pieces.flatten

variable {leaf token : Leaf} {piece leaves tokens before after : List Leaf}

/-- A stored leaf may be stored in another way instead: only a token that was stored as it is can
be. -/
theorem Stored.replace (h : Stored token (before ++ leaf :: after)) {stored : List Leaf}
    (hstored : Stored leaf stored) : Stored token (before ++ (stored ++ after)) := by
  generalize hpiece : before ++ leaf :: after = piece at h
  have hmem : leaf ∈ piece := by simp [← hpiece]
  have hsame (heq : stored = [leaf]) : before ++ (stored ++ after) = piece := by
    rw [heq, ← hpiece]
    rfl
  cases h with
  | same =>
    obtain ⟨rfl, rfl, rfl⟩ : before = [] ∧ leaf = token ∧ after = [] := by
      simpa [List.append_eq_singleton_iff] using hpiece
    simpa using hstored
  | ident hkind =>
    -- An identifier is no keyword, so it cannot be stored as anything else; nor can `>`.
    obtain rfl := List.mem_singleton.1 hmem
    cases hstored with
    | same =>
      rw [hsame rfl]
      exact .ident hkind
    | ident h => cases h
  | halves =>
    obtain rfl : leaf = (.gt, ['>']) := by simpa using hmem
    cases hstored with
    | same =>
      rw [hsame rfl]
      exact .halves
    | ident h => cases h

theorem Stored.text_eq (h : Stored token piece) : Lexeme.spell piece = token.2 := by
  cases h <;> simp

theorem Stored.text_ne_nil (h : Stored token piece) (htoken : token.2 ≠ []) :
    ∀ leaf ∈ piece, leaf.2 ≠ [] := by
  cases h <;> simp_all

theorem storedAll_self (leaves : List Leaf) : StoredAll leaves leaves := by
  induction leaves with
  | nil => exact ⟨[], .nil, rfl⟩
  | cons leaf leaves ih =>
    obtain ⟨pieces, hall, hflat⟩ := ih
    exact ⟨[leaf] :: pieces, .cons (.same leaf) hall, by rw [List.flatten_cons, ← hflat]; rfl⟩

theorem StoredAll.cons (hpiece : Stored token piece) (h : StoredAll tokens leaves) :
    StoredAll (token :: tokens) (piece ++ leaves) := by
  obtain ⟨pieces, hall, rfl⟩ := h
  exact ⟨piece :: pieces, .cons hpiece hall, rfl⟩

/-- A leaf may be stored in another way at any time. -/
theorem StoredAll.replace (h : StoredAll tokens (before ++ leaf :: after)) {stored : List Leaf}
    (hstored : Stored leaf stored) : StoredAll tokens (before ++ (stored ++ after)) := by
  obtain ⟨pieces, hall, hflat⟩ := h
  induction hall generalizing before with
  | nil => simp at hflat
  | @cons token piece tokens pieces hpiece hall ih =>
    -- The leaf is in the first piece or behind it.
    have hbehind (rest : List Leaf) (hbefore : before = piece ++ rest)
        (hrest : pieces.flatten = rest ++ leaf :: after) :
        StoredAll (token :: tokens) (before ++ (stored ++ after)) := by
      rw [hbefore, List.append_assoc]
      exact (ih hrest.symm).cons hpiece
    rw [List.flatten_cons] at hflat
    rcases List.append_eq_append_iff.1 hflat with ⟨rest, hpiece', hrest⟩ | ⟨rest, hbefore, hrest⟩
    · cases rest with
      | nil => exact hbehind [] (by simpa using hpiece'.symm) (by simpa using hrest.symm)
      | cons first rest =>
        obtain ⟨rfl, hafter⟩ : leaf = first ∧ after = rest ++ pieces.flatten := List.cons.inj hrest
        rw [hpiece'] at hpiece
        have hnew := StoredAll.cons (hpiece.replace hstored) ⟨pieces, hall, rfl⟩
        rwa [List.append_assoc, List.append_assoc, ← hafter] at hnew
    · exact hbehind rest hbefore hrest

theorem StoredAll.text_ne_nil (h : StoredAll tokens leaves) (htokens : ∀ t ∈ tokens, t.2 ≠ []) :
    ∀ leaf ∈ leaves, leaf.2 ≠ [] := by
  obtain ⟨pieces, hall, rfl⟩ := h
  induction hall with
  | nil => simp
  | cons hpiece _ ih =>
    intro leaf hleaf
    rcases List.mem_append.1 hleaf with hleaf | hleaf
    · exact hpiece.text_ne_nil (htokens _ List.mem_cons_self) leaf hleaf
    · exact ih (fun t ht => htokens t (List.mem_cons_of_mem _ ht)) leaf hleaf

/-! ## Places -/

theorem place_append (start : Nat) (a b : List Leaf) :
    place start (a ++ b) = place start a ++ place (start + Text.size (Lexeme.spell a)) b := by
  induction a generalizing start with
  | nil => rfl
  | cons leaf a ih =>
    simp only [List.cons_append, place, ih, Lexeme.spell_cons, Text.size_append, Nat.add_assoc]

/-- Leaves without text take no place. -/
theorem place_filter (start : Nat) (leaves : List Leaf) :
    place start (leaves.filter fun leaf => !leaf.2.isEmpty) =
      (place start leaves).filter fun placed => !placed.2.2.isEmpty := by
  induction leaves generalizing start with
  | nil => rfl
  | cons leaf leaves ih =>
    obtain ⟨kind, text⟩ := leaf
    cases text with
    | nil => simpa [place] using ih start
    | cons c cs => simp [place, ih]

theorem spell_filter (leaves : List Leaf) :
    Lexeme.spell (leaves.filter fun leaf => !leaf.2.isEmpty) = Lexeme.spell leaves := by
  induction leaves with
  | nil => rfl
  | cons leaf leaves ih =>
    obtain ⟨kind, text⟩ := leaf
    cases text with
    | nil => simpa using ih
    | cons c cs => simp [ih]

theorem eq_nil_of_spell_eq_nil (h : Lexeme.spell leaves = [])
    (hleaves : ∀ leaf ∈ leaves, leaf.2 ≠ []) : leaves = [] := by
  cases leaves with
  | nil => rfl
  | cons leaf leaves =>
    rw [Lexeme.spell_cons, List.append_eq_nil_iff] at h
    exact absurd h.1 (hleaves leaf List.mem_cons_self)

end Leaf

/-! ## Tokens of a text -/

namespace Token

/-- A token of a text is stored in its place. -/
def StoredAs (token : Token) (piece : List (Nat × Leaf)) : Prop :=
  ∃ leaves, Leaf.Stored (token.kind, token.text) leaves ∧ piece = Leaf.place token.offset leaves

/-- The token as far as its place does not matter. -/
def leaf (token : Token) : Leaf := (token.kind, token.text)

/-- The tokens of a text without their places. -/
def leaves (text : List Char) : List Leaf := (readAll text).map leaf

variable {rest text rest' : List Char} {kind : Kind}

/-- The tokens do not depend on where reading begins. -/
theorem map_leaf_readFrom (place place' : Place) (rest : List Char) :
    (readFrom place rest).map leaf = (readFrom place' rest).map leaf := by
  induction rest using split_induction generalizing place place' with
  | nil => rw [readFrom_nil, readFrom_nil]
  | @cons kind text rest rest' hsplit ih =>
    rw [readFrom_of_split? hsplit, readFrom_of_split? hsplit, List.map_cons, List.map_cons,
      ih _ (place'.advance text)]
    rfl

theorem leaves_nil : leaves [] = [] := by
  rw [leaves, readAll, readFrom_nil]
  rfl

theorem leaves_of_split? (h : split? rest = some (kind, text, rest')) :
    leaves rest = (kind, text) :: leaves rest' := by
  rw [leaves, readAll, readFrom_of_split? h, List.map_cons, map_leaf_readFrom _ Place.origin]
  rfl

/-- The tokens spell the text, and none of them is empty. -/
theorem leaves_spec (text : List Char) :
    Lexeme.spell (leaves text) = text ∧ ∀ leaf ∈ leaves text, leaf.2 ≠ [] := by
  induction text using split_induction with
  | nil => simp [leaves_nil]
  | cons hsplit ih =>
    obtain ⟨hspell, hne⟩ := ih
    rw [leaves_of_split? hsplit, List.forall_mem_cons, Lexeme.spell_cons, hspell]
    exact ⟨append_of_split? hsplit, text_ne_nil_of_split? hsplit, hne⟩

/-- Stored tokens stand where the tokens stand. -/
theorem exists_storedAs (place : Place) (rest : List Char) {leaves : List Leaf}
    (h : Leaf.StoredAll ((readFrom place rest).map leaf) leaves) :
    ∃ pieces, List.Forall₂ StoredAs (readFrom place rest) pieces ∧
      Leaf.place place.offset leaves = pieces.flatten := by
  induction rest using split_induction generalizing place leaves with
  | nil =>
    obtain ⟨pieces, hall, rfl⟩ := h
    rw [readFrom_nil] at hall ⊢
    cases hall
    exact ⟨[], .nil, rfl⟩
  | @cons kind text rest rest' hsplit ih =>
    obtain ⟨pieces, hall, rfl⟩ := h
    rw [readFrom_of_split? hsplit] at hall ⊢
    cases hall with
    | @cons _ piece _ pieces hpiece hall =>
      obtain ⟨placed, hplaced, hflat⟩ := ih (place.advance text) ⟨pieces, hall, rfl⟩
      refine ⟨Leaf.place place.offset piece :: placed, .cons ⟨piece, hpiece, rfl⟩ hplaced, ?_⟩
      -- However it is stored, a token takes as many bytes as its text.
      have hsize : Text.size (Lexeme.spell piece) = Text.size text := by
        rw [hpiece.text_eq]
        rfl
      rw [List.flatten_cons, List.flatten_cons, Leaf.place_append, hsize, ← hflat]
      rfl

/-- A token that can be stored in one way only is found at its place. -/
theorem StoredAs.mem {token : Token} {piece : List (Nat × Leaf)} (h : token.StoredAs piece)
    (hcontextual : token.kind.isContextual = false) (hshr : token.kind ≠ .shr) :
    (token.offset, token.kind, token.text) ∈ piece := by
  obtain ⟨leaves, hstored, rfl⟩ := h
  generalize hleaf : (token.kind, token.text) = leaf at hstored
  cases hstored with
  | same =>
    rw [← hleaf]
    exact List.mem_cons_self
  | ident h =>
    obtain ⟨rfl, -⟩ := Prod.mk.inj hleaf
    rw [hcontextual] at h
    cases h
  | halves => exact absurd (Prod.mk.inj hleaf).1 hshr

/-- What is stored as an identifier was one, or is a contextual keyword. -/
theorem StoredAs.of_ident {token : Token} {piece : List (Nat × Leaf)} (h : token.StoredAs piece)
    {start : Nat} {content : List Char} (hmem : (start, .ident, content) ∈ piece) :
    token.offset = start ∧ token.text = content ∧
      (token.kind = .ident ∨ token.kind.isContextual = true) := by
  obtain ⟨leaves, hstored, rfl⟩ := h
  generalize hleaf : (token.kind, token.text) = leaf at hstored
  cases hstored with
  | same =>
    rw [← hleaf] at hmem
    obtain ⟨rfl, hkind, rfl⟩ := by simpa [Leaf.place] using hmem
    exact ⟨rfl, rfl, Or.inl hkind.symm⟩
  | ident h =>
    obtain ⟨rfl, rfl⟩ := Prod.mk.inj hleaf
    obtain ⟨rfl, rfl⟩ := by simpa [Leaf.place] using hmem
    exact ⟨rfl, rfl, Or.inr h⟩
  | halves => simp [Leaf.place] at hmem

theorem mem_flatten_of_storedAs {tokens : List Token} {pieces : List (List (Nat × Leaf))}
    (h : List.Forall₂ StoredAs tokens pieces) {token : Token} (htoken : token ∈ tokens)
    (hcontextual : token.kind.isContextual = false) (hshr : token.kind ≠ .shr) :
    (token.offset, token.kind, token.text) ∈ pieces.flatten := by
  induction h with
  | nil => cases htoken
  | cons hpiece _ ih =>
    rcases List.mem_cons.1 htoken with rfl | htoken
    · exact List.mem_append_left _ (hpiece.mem hcontextual hshr)
    · exact List.mem_append_right _ (ih htoken)

theorem exists_of_ident_mem_flatten {tokens : List Token} {pieces : List (List (Nat × Leaf))}
    (h : List.Forall₂ StoredAs tokens pieces) {start : Nat} {content : List Char}
    (hmem : (start, .ident, content) ∈ pieces.flatten) :
    ∃ token ∈ tokens, token.offset = start ∧ token.text = content ∧
      (token.kind = .ident ∨ token.kind.isContextual = true) := by
  induction h with
  | nil => cases hmem
  | cons hpiece _ ih =>
    rcases List.mem_append.1 hmem with hmem | hmem
    · exact ⟨_, List.mem_cons_self, hpiece.of_ident hmem⟩
    · obtain ⟨token, htoken, hspec⟩ := ih hmem
      exact ⟨token, List.mem_cons_of_mem _ htoken, hspec⟩

end Token

/-! ## Leaves of elements -/

namespace Element

mutual

/-- The tokens below an element at byte `start`, with their offsets, without the empty tokens in a
node for something missing. -/
def leavesAt : Element → Nat → List (Nat × Leaf)
  | token _ kind text, start => [(start, kind, text)]
  | node _ kind _ children, start =>
    if kind = .missing then
      (leavesAllAt children start).filter fun placed => !placed.2.2.isEmpty
    else leavesAllAt children start

def leavesAllAt : List Element → Nat → List (Nat × Leaf)
  | [], _ => []
  | e :: rest, start => e.leavesAt start ++ leavesAllAt rest (start + e.size)

end

mutual

/-- The same without their offsets. -/
def leaves : Element → List Leaf
  | token _ kind text => [(kind, text)]
  | node _ kind _ children =>
    if kind = .missing then (leavesAll children).filter fun leaf => !leaf.2.isEmpty
    else leavesAll children

def leavesAll : List Element → List Leaf
  | [] => []
  | e :: rest => e.leaves ++ leavesAll rest

end

theorem leaves_node {kind : Kind} (hkind : kind ≠ .missing) (id : Nat) (origin : Option Origin)
    (children : List Element) : (node id kind origin children).leaves = leavesAll children := by
  rw [leaves, if_neg hkind]

@[simp]
theorem leavesAll_nil : leavesAll [] = [] := rfl

@[simp]
theorem leavesAll_cons (e : Element) (es : List Element) :
    leavesAll (e :: es) = e.leaves ++ leavesAll es := rfl

@[simp]
theorem leavesAll_append (a b : List Element) : leavesAll (a ++ b) = leavesAll a ++ leavesAll b := by
  induction a with
  | nil => rfl
  | cons e a ih => simp [ih]

theorem leavesAll_mapIdx_token (leaves : List Leaf) (id : Nat → Nat) :
    leavesAll (leaves.mapIdx fun i leaf => token (id i) leaf.1 leaf.2) = leaves := by
  induction leaves generalizing id with
  | nil => rfl
  | cons leaf leaves ih =>
    rw [List.mapIdx_cons, leavesAll_cons]
    exact congrArg _ (ih fun i => id (i + 1))

mutual

/-- Only empty tokens are left out. -/
theorem spell_leaves : (e : Element) → Lexeme.spell e.leaves = e.text
  | token .. => by simp [leaves]
  | node _ kind _ children => by
    have hall := spell_leavesAll children
    rw [leaves, text_node]
    split
    · rw [Leaf.spell_filter, hall]
    · exact hall

theorem spell_leavesAll : (es : List Element) → Lexeme.spell (leavesAll es) = textAll es
  | [] => rfl
  | e :: rest => by
    rw [leavesAll_cons, Lexeme.spell_append, spell_leaves e, spell_leavesAll rest, textAll_cons]

end

mutual

/-- The leaves stand one behind the other. -/
theorem leavesAt_eq : (e : Element) → (start : Nat) → e.leavesAt start = Leaf.place start e.leaves
  | token .., start => rfl
  | node _ kind _ children, start => by
    have hall := leavesAllAt_eq children start
    rw [leavesAt, leaves]
    split
    · rw [hall, Leaf.place_filter]
    · exact hall

theorem leavesAllAt_eq : (es : List Element) → (start : Nat) →
    leavesAllAt es start = Leaf.place start (leavesAll es)
  | [], _ => rfl
  | e :: rest, start => by
    have hsize : Text.size (Lexeme.spell e.leaves) = e.size := by rw [spell_leaves, size_text]
    rw [leavesAllAt, leavesAll_cons, Leaf.place_append, hsize, leavesAt_eq e start,
      leavesAllAt_eq rest]

end

end Element

/-! ## Leaves on the stack -/

open Element (leavesAll)

/-- The leaves that have been read into an entry. -/
def Entry.leaves (e : Entry) : List Leaf := leavesAll (e.leading ++ e.elements)

/-- The leaves that have been read into a stack. -/
def Stack.leaves (stack : Stack) : List Leaf := leavesAll (Machine.elements stack)

namespace Stack

@[simp]
theorem leaves_nil : leaves [] = [] := rfl

@[simp]
theorem leaves_cons (e : Entry) (stack : Stack) : leaves (e :: stack) = leaves stack ++ e.leaves := by
  simp [leaves, Machine.elements, Entry.leaves]

@[simp]
theorem leaves_append (a b : Stack) : leaves (a ++ b) = leaves b ++ leaves a := by
  induction a with
  | nil => simp
  | cons e a ih => simp [ih]

/-- In another state, entries hold the same leaves. -/
theorem leaves_map_state (stack : Stack) (next : Nat) :
    leaves (stack.map fun e => { e with state := next }) = leaves stack := by
  induction stack with
  | nil => rfl
  | cons e stack ih => simp [ih, Entry.leaves]

end Stack

namespace Entry

theorem leaves_join (e child : Entry) : (e.join child).leaves = e.leaves ++ child.leaves := by
  unfold join leaves
  cases he : e.elements with
  | nil => simp
  | cons x xs => simp

theorem leaves_ofChildren (state : Nat) (children : List Entry) (offset : Nat) :
    (ofChildren state children offset).leaves = Stack.leaves children.reverse := by
  have hfold (e : Entry) :
      (children.foldl join e).leaves = e.leaves ++ Stack.leaves children.reverse := by
    induction children generalizing e with
    | nil => simp
    | cons child children ih => simp [ih, leaves_join]
  exact hfold _

end Entry

/-! ## Tokens to come -/

namespace Lexeme

/-- The tokens of a lexeme. The end of the input is none. -/
def tokens (l : Lexeme) : List Leaf := if l.kind = .eof then l.leading else l.leaves

theorem tokens_of_ne_eof {l : Lexeme} (h : l.kind ≠ .eof) :
    l.tokens = l.leading ++ [(l.kind, l.text)] := by
  rw [tokens, if_neg h]
  rfl

theorem Sound.spell_tokens {l : Lexeme} (h : l.Sound) : spell l.tokens = l.content := by
  unfold tokens
  split
  · rename_i heof
    rw [content, h.text_eq_nil_iff.2 heof, List.append_nil]
  · exact spell_leaves l

theorem Tiles.sound {rest : List Char} {offset : Nat} {ls : List Lexeme} (h : Tiles rest offset ls) :
    ∀ l ∈ ls, l.Sound := by
  induction ls generalizing offset with
  | nil => simp
  | cons first ls ih =>
    obtain ⟨hsound, -, -, -, htail⟩ := h
    exact List.forall_mem_cons.2 ⟨hsound, ih htail⟩

/-- Reading a lexeme takes its tokens from the text. -/
theorem tokens_read (size fullStart : Nat) (leading : List Leaf) (offset : Nat) (rest : List Char) :
    (read size fullStart leading offset rest).1.tokens ++
        Token.leaves (read size fullStart leading offset rest).2.2 =
      leading ++ Token.leaves rest := by
  fun_induction read size fullStart leading offset rest with
  | case1 leading offset rest hsplit => rfl
  | case2 leading offset rest kind text rest' hsplit htrivia ih =>
    rw [ih, Token.leaves_of_split? hsplit, List.append_assoc]
    rfl
  | case3 leading offset rest kind text rest' hsplit htrivia =>
    rw [tokens_of_ne_eof (Token.kind_ne_eof_of_split? hsplit), Token.leaves_of_split? hsplit,
      List.append_assoc]
    rfl

end Lexeme

namespace Source

/-- The tokens that have not been handed out. -/
def upcoming (s : Source) : List Leaf := s.buffer.flatMap Lexeme.tokens ++ Token.leaves s.rest

theorem upcoming_fetch (s : Source) : s.fetch.upcoming = s.upcoming := by
  have hread := Lexeme.tokens_read s.size s.offset [] s.offset s.rest
  rw [upcoming, buffer_fetch, rest_fetch, List.flatMap_append, List.append_assoc]
  simpa [upcoming] using hread

/-- Looking ahead takes nothing away. -/
theorem upcoming_fetchMany (n : Nat) (s : Source) : (fetchMany n s).upcoming = s.upcoming := by
  induction n generalizing s with
  | zero => rfl
  | succ n ih => rw [fetchMany, ih, upcoming_fetch]

theorem upcoming_peek (s : Source) (n : Nat) : (s.peek n).2.upcoming = s.upcoming := by
  rw [peek_snd, upcoming_fetchMany]

/-- The tokens to come are those of the lexeme in front and what comes after it. -/
theorem upcoming_eq (s : Source) : s.upcoming = (s.ahead 0).tokens ++ s.bump.2.upcoming := by
  rw [← upcoming_peek s 0, upcoming, buffer_peek_zero, List.flatMap_cons, List.append_assoc]
  rfl

theorem spell_upcoming {done : List Char} {s : Source} (h : s.At done) :
    Lexeme.spell s.upcoming = s.pending := by
  have hsound := h.tiles.sound
  rw [upcoming, pending, Lexeme.spell_append, (Token.leaves_spec s.rest).1]
  generalize s.buffer = buffer at hsound
  induction buffer with
  | nil => rfl
  | cons l ls ih =>
    obtain ⟨hl, hls⟩ := List.forall_mem_cons.1 hsound
    rw [List.flatMap_cons, Lexeme.spell_append, hl.spell_tokens, Lexeme.contents_cons,
      List.append_assoc, List.append_assoc, ih hls]

theorem upcoming_splitShift {done : List Char} {s : Source} (h : s.At done) (hbuffer : s.buffer ≠ [])
    (hkind : (s.ahead 0).kind = .shr) :
    ∃ after, s.upcoming = (s.ahead 0).leading ++ (.shr, ['>', '>']) :: after ∧
      s.splitShift.upcoming = (s.ahead 0).leading ++ ([(.gt, ['>']), (.gt, ['>'])] ++ after) := by
  obtain ⟨front, rest, hcons⟩ := List.exists_cons_of_ne_nil hbuffer
  have hfront : s.ahead 0 = front := by simp [ahead, peek, hcons]
  rw [hfront] at hkind ⊢
  have hsound : front.Sound := h.tiles.sound front (by simp [hcons])
  have htext := hsound.text_of_shr hkind
  refine ⟨rest.flatMap Lexeme.tokens ++ Token.leaves s.rest, ?_, ?_⟩
  · have htokens := Lexeme.tokens_of_ne_eof (l := front) (by rw [hkind]; decide)
    rw [upcoming, hcons, List.flatMap_cons, htokens, hkind, htext]
    simp
  · simp [upcoming, splitShift, hcons, hkind, Lexeme.tokens, Lexeme.leaves]

end Source

/-! ## Leaves of a machine -/

namespace Machine

open Leaf (StoredAll Stored)

variable {m m' : Machine} {setting : Setting} {g : Grammar} {text : List Char} {tokens : List Leaf}

/-- What has been read and what is still to come. -/
def leaves (m : Machine) : List Leaf := Stack.leaves m.stack ++ m.source.upcoming

theorem leaves_looked (m : Machine) (n : Nat) : (m.looked n).leaves = m.leaves := by
  simp only [leaves, looked, Source.upcoming_fetchMany]

theorem leavesAll_newTokens (m : Machine) (leaves : List Leaf) :
    leavesAll (m.newTokens leaves).1 = leaves :=
  Element.leavesAll_mapIdx_token leaves fun i => m.nextId + i

/-- A missing token is no leaf. -/
theorem leaves_shiftMissing (m : Machine) (kind : Kind) (next : Nat) :
    (m.shiftMissing kind next).leaves = m.leaves := by
  have hentry : (m.missingEntry kind next).leaves = [] := by
    simp [Entry.leaves, missingEntry, Element.leaves]
  rw [shiftMissing_eq, leaves, leaves, Stack.leaves_cons, hentry, List.append_nil,
    Source.upcoming_peek]

/-- The token that is shifted is stored as it is, or as an identifier. -/
theorem storedAll_shiftToken {kind : Kind} {next : Nat} (h : StoredAll tokens m.leaves)
    (hne : (m.source.ahead 0).kind ≠ .eof)
    (hkind : kind = (m.source.ahead 0).kind ∨
      kind = .ident ∧ (m.source.ahead 0).kind.isContextual = true) :
    StoredAll tokens (m.shiftToken kind next).leaves := by
  have hstored : Stored ((m.source.ahead 0).kind, (m.source.ahead 0).text)
      [(kind, (m.source.ahead 0).text)] := by
    rcases hkind with rfl | ⟨rfl, hcontextual⟩
    · exact .same _
    · exact .ident hcontextual
  have hentry : (m.tokenEntry kind next).leaves =
      (m.source.ahead 0).leading ++ [(kind, (m.source.ahead 0).text)] := by
    simp [Entry.leaves, tokenEntry, leavesAll_newTokens, Element.leaves]
  have hbefore : m.leaves = (Stack.leaves m.stack ++ (m.source.ahead 0).leading) ++
      ((m.source.ahead 0).kind, (m.source.ahead 0).text) :: m.source.bump.2.upcoming := by
    rw [leaves, Source.upcoming_eq, Lexeme.tokens_of_ne_eof hne]
    simp
  rw [hbefore] at h
  have hafter : (m.shiftToken kind next).leaves =
      (Stack.leaves m.stack ++ (m.source.ahead 0).leading) ++
        ([(kind, (m.source.ahead 0).text)] ++ m.source.bump.2.upcoming) := by
    rw [shiftToken_eq, leaves, Stack.leaves_cons, hentry]
    simp
  rw [hafter]
  exact h.replace hstored

theorem storedAll_shift {rank : Nat → Nat} {kind : Kind} {next : Nat}
    (h : StoredAll tokens m.leaves) (htable : setting.table = Table.ofGrammar g)
    (htame : g.Tame rank)
    (hmem : (kind, .shift next) ∈ candidates setting.table m.topState m.lookahead) :
    StoredAll tokens (m.shift kind next).leaves := by
  unfold shift
  split
  · rw [leaves_shiftMissing]
    exact h
  · rename_i hinjected
    have hnone : m.injected = none := by simpa using hinjected
    have hlookahead : m.lookahead = (m.source.ahead 0).kind := by simp [lookahead, hnone]
    exact storedAll_shiftToken h (kind_ne_eof_of_shift htable htame hnone hmem)
      (hlookahead ▸ (mem_candidates hmem).2)

/-- A `>>` that is split is stored as two halves. -/
theorem storedAll_splitShift {done : List Char} (h : StoredAll tokens m.leaves)
    (hat : m.source.At done) (hbuffer : m.source.buffer ≠ [])
    (hkind : (m.source.ahead 0).kind = .shr) :
    StoredAll tokens (leaves { m with source := m.source.splitShift }) := by
  obtain ⟨after, hbefore, hafter⟩ := Source.upcoming_splitShift hat hbuffer hkind
  rw [leaves, hbefore, ← List.append_assoc] at h
  rw [leaves, hafter, ← List.append_assoc]
  exact h.replace .halves

/-- A reduction moves no leaf. -/
theorem leaves_reduce {production : Nat} (hnames : setting.table.grammar.NamesNodes)
    (hreduced : m.reduce? setting production = some m') : m'.leaves = m.leaves := by
  obtain ⟨p, extras, children, below, next, entry, nextId, -, hstack, -, -, -, -, -, hmakes, rfl⟩ :=
    reduce?_spec hreduced
  have hjoined : (m.joinedEntry next children).leaves = Stack.leaves children.reverse :=
    Entry.leaves_ofChildren next children m.position
  have hentry : entry.leaves = Stack.leaves children.reverse := by
    rw [← hjoined]
    cases hmakes with
    | hidden => rfl
    | visible hkind =>
      -- No rule is named for what is missing, so a new node hides nothing.
      have hnode := hnames _ _ hkind
      rename_i kind
      have hne : kind ≠ .missing := by
        rintro rfl
        cases hnode
      simp [Entry.leaves, Element.leaves_node hne]
  simp only [leaves, hstack, Stack.leaves_append, Stack.leaves_cons, Stack.leaves_map_state, hentry,
    Source.upcoming_peek, List.append_assoc]

/-- Moving lexemes into an entry moves their tokens there. -/
theorem leaves_skipInto (n : Nat) (e : Entry) (m : Machine)
    (heof : ∀ i < n, (m.source.ahead i).kind ≠ .eof) :
    (skipInto n e m).1.leaves ++ (skipInto n e m).2.source.upcoming =
      e.leaves ++ m.source.upcoming := by
  induction n generalizing e m with
  | zero => rfl
  | succ n ih =>
    have hlater : ∀ i < n, (m.source.bump.2.ahead i).kind ≠ .eof := by
      intro i hi
      rw [Source.ahead_bump]
      exact heof (i + 1) (Nat.succ_lt_succ hi)
    simp only [skipInto]
    generalize he' : (if e.elements.isEmpty = true then _ else _ : Entry) = e'
    have hentry : e'.leaves = e.leaves ++ (m.source.ahead 0).tokens := by
      have hbump : m.bump.1 = m.source.ahead 0 := rfl
      rw [Lexeme.tokens_of_ne_eof (heof 0 (Nat.succ_pos n)), ← he', hbump]
      cases hel : e.elements with
      | nil => simp [Entry.leaves, hel, leavesAll_newTokens, newToken, Element.leaves]
      | cons x xs => simp [Entry.leaves, hel, leavesAll_newTokens, newToken, Element.leaves]
    rw [ih e' _ hlater, hentry, List.append_assoc, Source.upcoming_eq m.source]
    rfl

/-- Skipping moves leaves from the stack and from the source into an error. -/
theorem leaves_skip (hformed : ∀ e ∈ m.stack, e.Formed) {skipped : Nat} (depth : Nat)
    (heof : ∀ i < skipped, (m.source.ahead i).kind ≠ .eof) :
    (m.skip skipped depth).leaves = m.leaves := by
  obtain ⟨d, -, hskip⟩ := skip_eq hformed skipped depth
  -- What is popped comes before what is skipped, as it does in the text.
  have hgathered : (m.gathered skipped d).2.stack = m.stack.drop d ∧
      (m.gathered skipped d).1.leaves ++ (m.gathered skipped d).2.source.upcoming =
        Stack.leaves (m.stack.take d) ++ m.source.upcoming := by
    refine ⟨by rw [gathered, skipInto_frame]; rfl, ?_⟩
    have hpopped : (m.poppedEntry d).leaves = Stack.leaves (m.stack.take d) := by
      rw [poppedEntry, Entry.leaves_ofChildren, List.reverse_reverse]
    rw [gathered, leaves_skipInto, hpopped]
    · exact congrArg _ (Source.upcoming_peek m.source 0)
    · intro i hi
      have hahead : (m.source.peek 0).2.ahead i = m.source.ahead i := Source.ahead_peek _ _ _
      exact hahead ▸ heof i hi
  have hsplit : Stack.leaves m.stack = Stack.leaves (m.stack.drop d) ++
      Stack.leaves (m.stack.take d) := by
    rw [← Stack.leaves_append, List.take_append_drop]
  rw [leaves, leaves, hsplit, List.append_assoc, ← hgathered.2]
  rcases hskip with ⟨hnil, hskip⟩ | ⟨-, hskip⟩
  · have hentry : (m.gathered skipped d).1.leaves = [] := by
      rw [Entry.leaves, hnil]
      rfl
    rw [hskip, hgathered.1, hentry, List.nil_append]
  · rw [hskip]
    simp [hgathered.1, Entry.leaves, Element.leaves]

theorem leaves_recover (hfaithful : m.Faithful text) (hrecover : m.recover? setting = some m') :
    m'.leaves = m.leaves := by
  have hrepaired := recover?_repaired setting m
  rw [hrecover] at hrepaired
  cases hrepaired with
  | inserted => exact leaves_looked m _
  | @skipped n skipped depth repairs diagnostic _ _ _ heof =>
    have hsame : leaves { m.looked n with injected := none, repairs := repairs } = m.leaves :=
      leaves_looked m n
    have hformed : ∀ e ∈ ({ m.looked n with injected := none, repairs := repairs } : Machine).stack,
        e.Formed := hfaithful.formed
    refine Eq.trans (leaves_skip hformed depth fun i hi => ?_) hsame
    have hahead : (m.source.fetchMany n).ahead i = m.source.ahead i := Source.ahead_fetchMany _ _ _
    exact hahead ▸ heof i hi

/-! ## Whole runs -/

/-- Every step keeps that what has been read and what is to come are the stored tokens. -/
theorem storedAll_step {rank : Nat → Nat} (h : StoredAll tokens m.leaves)
    (hfaithful : m.Faithful text) (hsuits : setting.Suits g rank text)
    (hreuse : setting.reuse = none) : StoredAll tokens (m.step setting).machine.leaves := by
  have hlooked (n : Nat) (fork : Bool) : leaves { m.looked n with forkPending := fork } = m.leaves :=
    leaves_looked m n
  refine step_keeps (J := fun m => m.Faithful text ∧ StoredAll tokens m.leaves)
    (I := fun m => StoredAll tokens m.leaves)
    (fun n fork => ⟨(hfaithful.looked n).congr rfl rfl, (hlooked n fork).symm ▸ h⟩)
    (fun _ h => h.2) ?_
  rintro m next ⟨hfaithful, h⟩ heffect
  cases heffect with
  | split _ hkind hbuffer => exact storedAll_splitShift h hfaithful.source_at hbuffer hkind
  | shift hmem => exact storedAll_shift h hsuits.table_eq hsuits.tame hmem
  | takeOver _ htaken =>
    -- From scratch there is no old tree to take anything from.
    obtain ⟨reuse, -, -, hsome, -⟩ := takeOver?_spec htaken
    rw [hreuse] at hsome
    cases hsome
  | reduce _ hreduced =>
    have hnames : setting.table.grammar.NamesNodes := by
      rw [hsuits.table_eq]
      exact hsuits.names
    exact (leaves_reduce hnames hreduced).symm ▸ h
  | repair hrecover => exact (leaves_recover hfaithful hrecover).symm ▸ h

/-! ## The root -/

theorem leaves_leftOver (fuel : Nat) (m : Machine) :
    leavesAll (leftOver fuel m).1 ++ (leftOver fuel m).2.source.upcoming = m.source.upcoming := by
  induction fuel generalizing m with
  | zero => rfl
  | succ fuel ih =>
    simp only [leftOver, peek_eq]
    generalize 0 + 1 - m.source.buffer.length = n
    split
    · exact Source.upcoming_fetchMany n m.source
    · rename_i hne
      have hbump : (m.looked n).bump.1 = m.source.ahead 0 := Source.ahead_fetchMany _ _ _
      have hupcoming : (m.source.ahead 0).tokens ++ (m.source.fetchMany n).bump.2.upcoming =
          m.source.upcoming := by
        rw [← Source.upcoming_fetchMany n m.source, Source.upcoming_eq (m.source.fetchMany n),
          Source.ahead_fetchMany]
      have hrest := ih ((m.looked n).bump.2.newTokens (m.looked n).bump.1.leaves).2
      have hleaves : leavesAll ((m.looked n).bump.2.newTokens (m.looked n).bump.1.leaves).1 =
          (m.source.ahead 0).tokens := by
        rw [leavesAll_newTokens, hbump, Lexeme.tokens, if_neg hne]
      rw [Element.leavesAll_append, List.append_assoc, hrest, hleaves]
      exact hupcoming

/-- At the end of the input nothing but trivia is to come. -/
theorem upcoming_of_eof {done : List Char} {s : Source} (hat : s.At done)
    (hkind : (s.ahead 0).kind = .eof) (hne : ∀ leaf ∈ s.upcoming, leaf.2 ≠ []) :
    s.upcoming = (s.ahead 0).leading := by
  have hpending : s.bump.2.pending = [] := hat.front.2.2.2.1 hkind
  have hspell : Lexeme.spell s.bump.2.upcoming = [] := by
    rw [Source.spell_upcoming hat.bump, hpending]
  rw [Source.upcoming_eq] at hne ⊢
  rw [Leaf.eq_nil_of_spell_eq_nil hspell fun leaf hleaf => hne leaf (List.mem_append_right _ hleaf),
    List.append_nil, Lexeme.tokens, if_pos hkind]

theorem leaves_root (m : Machine) (text : List Char) :
    (m.finish text).root.leaves = Stack.leaves m.stack ++
      (leavesAll (leftOver (m.source.size + 1) m).1 ++
        ((leftOver (m.source.size + 1) m).2.source.ahead 0).leading) := by
  simp only [finish]
  generalize leftOver (m.source.size + 1) m = left
  obtain ⟨rest, m'⟩ := left
  have herror (id : Nat) : (Element.node id .error none rest).leaves = leavesAll rest :=
    Element.leaves_node (by decide) id none rest
  rw [newNode, Element.leaves_node (by decide), Element.leavesAll_append, Element.leavesAll_append,
    List.append_assoc, leavesAll_newTokens]
  split
  · rename_i hrest
    rw [List.isEmpty_iff.1 hrest]
    rfl
  · simp only [newNode, Element.leavesAll_cons, Element.leavesAll_nil, List.append_nil, herror]
    rfl

/-- The root holds the leaves that have been read and those that were to come. -/
theorem leaves_finish (hfaithful : m.Faithful text) (h : StoredAll (Token.leaves text) m.leaves) :
    (m.finish text).root.leaves = m.leaves := by
  have hleft := leaves_leftOver (m.source.size + 1) m
  obtain ⟨hat, -, heof, -⟩ := leftOver_spec (m.source.size + 1) m hfaithful.source_at (by
    rw [hfaithful.source_at.size_eq]
    omega)
  have hne := h.text_ne_nil (Token.leaves_spec text).2
  rw [leaves_root, leaves, ← hleft, upcoming_of_eof hat heof]
  intro leaf hleaf
  refine hne leaf (List.mem_append_right _ ?_)
  rw [← hleft]
  exact List.mem_append_right _ hleaf

end Machine

/-! ## Trees -/

/-- At the end of a parse from scratch the root holds all tokens of the text. -/
theorem Tree.storedAll_parseWith {g : Grammar} {rank : Nat → Nat} {setting : Setting}
    {text : List Char} (hsuits : setting.Suits g rank text) (hreuse : setting.reuse = none)
    (firstId : Nat) :
    Leaf.StoredAll (Token.leaves text) (parseWith setting text firstId).root.leaves := by
  obtain ⟨hfaithful, hstored⟩ := Machine.run_induction
    (I := fun m => m.Faithful text ∧ Leaf.StoredAll (Token.leaves text) m.leaves)
    (fun m h => ⟨h.1.step hsuits.truthful, Machine.storedAll_step h.2 h.1 hsuits hreuse⟩)
    (Machine.maxSteps setting.table (Text.size text))
    (m := Machine.start text firstId) ⟨.start text firstId, Leaf.storedAll_self _⟩
  rw [parseWith, Machine.leaves_finish hfaithful hstored]
  exact hstored

namespace BigQuery

/-- The leaves of the tree of every text, parsed from scratch with whatever errors, are the tokens of
the text in their order and at their places, apart from the empty ones in nodes for something missing.
Each token is stored as it is, or as an identifier if it is a contextual keyword, or, if it is `>>`, as
two adjacent tokens `>`. So reserved keywords, trivia and unreadable characters keep their kind, and
what is stored as an identifier was one or is a contextual keyword. -/
theorem leaves_are_tokens (options : Options) (text : List Char) (firstId : Nat) :
    (∃ pieces, List.Forall₂ Token.StoredAs (Token.readAll text) pieces ∧
      (Tree.parse BigQuery.table options text firstId).root.leavesAt 0 = pieces.flatten) ∧
    (∀ token ∈ Token.readAll text, token.kind.isContextual = false → token.kind ≠ .shr →
      (token.offset, token.kind, token.text) ∈
        (Tree.parse BigQuery.table options text firstId).root.leavesAt 0) ∧
    ∀ start content, (start, .ident, content) ∈
        (Tree.parse BigQuery.table options text firstId).root.leavesAt 0 →
      ∃ token ∈ Token.readAll text, token.offset = start ∧ token.text = content ∧
        (token.kind = .ident ∨ token.kind.isContextual = true) := by
  obtain ⟨g, -, htable, hsafe, -⟩ := table_spec
  have hsuits := suits htable hsafe (.scratch options text)
  have hstored := Tree.storedAll_parseWith hsuits rfl firstId
  obtain ⟨pieces, hall, hpieces⟩ := Token.exists_storedAs .origin text hstored
  have hroot : (Tree.parse BigQuery.table options text firstId).root.leavesAt 0 = pieces.flatten := by
    rw [Element.leavesAt_eq]
    exact hpieces
  rw [hroot]
  refine ⟨⟨pieces, hall, rfl⟩, ?_, ?_⟩
  · intro token htoken hcontextual hshr
    exact Token.mem_flatten_of_storedAs hall htoken hcontextual hshr
  · intro start content hmem
    exact Token.exists_of_ident_mem_flatten hall hmem

end BigQuery
end SqlTree
