import SqlTree.Token.Basic

/-!
# What a token can be

Facts about the first token of a text that hold whatever its shape:

- `Token.text_ne_nil_of_split?` : a token is never empty
- `Token.kind_ne_eof_of_split?` : the end of the input is not a token of the text
- `Token.text_of_split?_shr`    : a token of kind `>>` is spelled `>>`
- `Token.quoted?_of_split?`     : a token that has a value is a quoted one
- `Token.number?_of_split?`     : a token of the kind of numbers is one
-/

namespace SqlTree
namespace Scan

/-- What is known of a kind and a length found at the beginning of `cs`. -/
structure Readable (cs : List Char) (found : Kind × Nat) : Prop where
  kind_ne_eof : found.1 ≠ .eof
  shr : found.1 = .shr → found.2 = 2 ∧ ∃ rest, cs = '>' :: '>' :: rest
  quoted : Literal.hasValue found.1 = true → quoted? cs = some found
  number : found.1 = .number → number? cs = some found

theorem readable_of_ne {cs : List Char} {kind : Kind} {n : Nat} (heof : kind ≠ .eof)
    (hshr : kind ≠ .shr) (hvalue : Literal.hasValue kind = false) (hnumber : kind ≠ .number) :
    Readable cs (kind, n) :=
  ⟨heof, fun h => absurd h hshr, fun h => absurd (hvalue.symm.trans h) Bool.false_ne_true,
    fun h => absurd h hnumber⟩

theorem readable_blank? {cs : List Char} {found : Kind × Nat} (h : blank? cs = some found) :
    Readable cs found := by
  cases cs with
  | nil => simp [blank?] at h
  | cons c rest =>
    simp only [blank?, Option.ite_none_right_eq_some, Option.some.injEq] at h
    obtain ⟨_, rfl⟩ := h
    exact readable_of_ne (by decide) (by decide) (by decide) (by decide)

theorem readable_comment? {cs : List Char} {found : Kind × Nat} (h : comment? cs = some found) :
    Readable cs found := by
  unfold comment? at h
  split at h
  · cases h
    exact readable_of_ne (by decide) (by decide) (by decide) (by decide)
  · cases h
    exact readable_of_ne (by decide) (by decide) (by decide) (by decide)
  · split at h
    · cases h
      exact readable_of_ne (by decide) (by decide) (by decide) (by decide)
    · cases h
      exact readable_of_ne (by decide) (by decide) (by decide) (by decide)
  · cases h

theorem kind_of_open? {cs : List Char} {q : Quote} (h : Quote.open? cs = some q) :
    q.kind = .quotedIdent ∨ q.kind = .string ∨ q.kind = .bytes := by
  unfold Quote.open? at h
  split at h
  · cases h
    exact Or.inl rfl
  · obtain ⟨kind, hkind, hmark⟩ := Option.bind_eq_some_iff.1 h
    obtain ⟨mark, _, rfl⟩ := Option.map_eq_some_iff.1 hmark
    unfold Quote.kindOf? at hkind
    split at hkind <;> simp_all

theorem readable_quoted? {cs : List Char} {found : Kind × Nat} (h : quoted? cs = some found) :
    Readable cs found := by
  obtain ⟨q, hq, rfl⟩ := Option.map_eq_some_iff.1 h
  have hkind := kind_of_open? hq
  refine ⟨?_, ?_, fun _ => h, ?_⟩ <;> simp only [Quote.scan] <;> split <;>
    rcases hkind with h | h | h <;> simp [h]

theorem keyword?_isKeyword {ident : List Char} {kind : Kind} (h : Kind.keyword? ident = some kind) :
    kind.isKeyword = true := by
  have hall : Kind.keywords.all (fun entry => entry.2.isKeyword) = true := by decide
  unfold Kind.keyword? at h
  split at h
  · obtain ⟨entry, hfind, rfl⟩ := Option.map_eq_some_iff.1 h
    exact List.all_eq_true.1 hall entry (List.mem_of_find?_eq_some hfind)
  · cases h

theorem readable_word? {cs : List Char} {found : Kind × Nat} (h : word? cs = some found) :
    Readable cs found := by
  cases cs with
  | nil => simp [word?] at h
  | cons c rest =>
    simp only [word?, Option.ite_none_right_eq_some, Option.some.injEq] at h
    obtain ⟨_, rfl⟩ := h
    cases hk : Kind.keyword? (c :: rest.takeWhile isWordChar) with
    | none => exact readable_of_ne (by decide) (by decide) (by decide) (by decide)
    | some kind =>
      have hkeyword := keyword?_isKeyword hk
      refine readable_of_ne ?_ ?_ ?_ ?_
      · rintro rfl
        exact absurd hkeyword (by decide)
      · rintro rfl
        exact absurd hkeyword (by decide)
      · cases kind <;> first | rfl | exact absurd hkeyword (by decide)
      · rintro rfl
        exact absurd hkeyword (by decide)

theorem readable_number? {cs : List Char} {found : Kind × Nat} (h : number? cs = some found) :
    Readable cs found := by
  have hnumber := h
  simp only [number?, Option.ite_none_right_eq_some, Option.some.injEq] at h
  obtain ⟨_, rfl⟩ := h
  exact ⟨by simp, by simp, fun h => absurd h Bool.false_ne_true, fun _ => hnumber⟩

theorem readable_parameter? {cs : List Char} {found : Kind × Nat}
    (h : parameter? cs = some found) : Readable cs found := by
  unfold parameter? at h
  split at h
  · simp only [Option.ite_none_right_eq_some, Option.some.injEq] at h
    obtain ⟨_, rfl⟩ := h
    exact readable_of_ne (by decide) (by decide) (by decide) (by decide)
  · simp only [Option.ite_none_right_eq_some, Option.some.injEq] at h
    obtain ⟨_, rfl⟩ := h
    exact readable_of_ne (by decide) (by decide) (by decide) (by decide)
  · cases h

theorem readable_punct? {cs : List Char} {found : Kind × Nat} (h : punct? cs = some found) :
    Readable cs found := by
  unfold punct? at h
  split at h <;> cases h <;>
    first
    | exact readable_of_ne (by decide) (by decide) (by decide) (by decide)
    | exact ⟨by decide, fun _ => ⟨rfl, _, rfl⟩, fun h => absurd h (by decide),
        fun h => absurd h (by decide)⟩

theorem readable_first (cs : List Char) : Readable cs (first cs) := by
  unfold first
  cases h : (blank? cs).or <| (comment? cs).or <| (quoted? cs).or <| (word? cs).or <|
      (number? cs).or <| (parameter? cs).or <| punct? cs with
  | none => exact readable_of_ne (by decide) (by decide) (by decide) (by decide)
  | some found =>
    simp only [Option.or_eq_some_iff] at h
    rcases h with h | ⟨-, h | ⟨-, h | ⟨-, h | ⟨-, h | ⟨-, h | ⟨-, h⟩⟩⟩⟩⟩⟩
    · exact readable_blank? h
    · exact readable_comment? h
    · exact readable_quoted? h
    · exact readable_word? h
    · exact readable_number? h
    · exact readable_parameter? h
    · exact readable_punct? h

end Scan

namespace Token

variable {rest text rest' : List Char} {kind : Kind}

theorem text_ne_nil_of_split? (h : split? rest = some (kind, text, rest')) : text ≠ [] := by
  cases rest with
  | nil => simp [split?] at h
  | cons c cs =>
    simp only [split?, Option.some.injEq, Prod.mk.injEq] at h
    obtain ⟨-, rfl, -⟩ := h
    have hpos : 0 < max (Scan.first (c :: cs)).2 1 := by omega
    intro hnil
    have hlen := congrArg List.length hnil
    simp only [List.length_take, List.length_cons, List.length_nil] at hlen
    omega

theorem eq_nil_of_split?_eq_none (h : split? rest = none) : rest = [] := by
  cases rest with
  | nil => rfl
  | cons c cs => simp [split?] at h

theorem kind_of_split? (h : split? rest = some (kind, text, rest')) :
    kind = (Scan.first rest).1 ∧ text = rest.take (max (Scan.first rest).2 1) := by
  cases rest with
  | nil => simp [split?] at h
  | cons c cs =>
    simp only [split?, Option.some.injEq, Prod.mk.injEq] at h
    exact ⟨h.1.symm, h.2.1.symm⟩

theorem kind_ne_eof_of_split? (h : split? rest = some (kind, text, rest')) : kind ≠ .eof := by
  rw [(kind_of_split? h).1]
  exact (Scan.readable_first rest).kind_ne_eof

theorem text_of_split?_shr (h : split? rest = some (.shr, text, rest')) : text = ['>', '>'] := by
  obtain ⟨hkind, htext⟩ := kind_of_split? h
  obtain ⟨hlen, tail, rfl⟩ := (Scan.readable_first rest).shr hkind.symm
  rw [htext, hlen]
  rfl

theorem quoted?_of_split? (hvalue : Literal.hasValue kind = true)
    (h : split? rest = some (kind, text, rest')) :
    Scan.quoted? rest = some (Scan.first rest) := by
  rw [(kind_of_split? h).1] at hvalue
  exact (Scan.readable_first rest).quoted hvalue

theorem number?_of_split? (h : split? rest = some (.number, text, rest')) :
    Scan.number? rest = some (Scan.first rest) :=
  (Scan.readable_first rest).number (kind_of_split? h).1.symm

theorem readFrom_of_split? (h : split? rest = some (kind, text, rest')) (place : Place) :
    readFrom place rest =
      ⟨kind, text, place.offset, place.point, place.point.advance text⟩ ::
        readFrom (place.advance text) rest' := by
  have hread : read? place rest =
      some (⟨kind, text, place.offset, place.point, place.point.advance text⟩, rest') := by
    simp [read?, h]
  rw [readFrom]
  split
  · rename_i hnone
    rw [hread] at hnone
    cases hnone
  · rename_i token rest'' hsome
    rw [hread] at hsome
    cases hsome
    rfl

theorem readFrom_nil (place : Place) : readFrom place [] = [] := by
  rw [readFrom]
  split
  · rfl
  · rename_i hsome
    cases hsome

/-- Induction on a text, token by token. -/
@[elab_as_elim]
theorem split_induction {motive : List Char → Prop} (nil : motive [])
    (cons : ∀ {kind : Kind} {text rest rest' : List Char},
      split? rest = some (kind, text, rest') → motive rest' → motive rest)
    (rest : List Char) : motive rest := by
  induction hn : rest.length using Nat.strongRecOn generalizing rest with
  | ind n ih =>
    cases hsplit : split? rest with
    | none =>
      obtain rfl := eq_nil_of_split?_eq_none hsplit
      exact nil
    | some found =>
      obtain ⟨kind, text, rest'⟩ := found
      exact cons hsplit (ih rest'.length (hn ▸ length_of_split? hsplit) rest' rfl)

end Token
end SqlTree
