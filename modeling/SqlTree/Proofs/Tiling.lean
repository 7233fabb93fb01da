import SqlTree.Proofs.ByteScan

/-!
# Tokens tile a text

The tokens of a text follow one another without gap or overlap, whatever the text is. Reading can
stop behind any of them and go on later from the place where it stopped.

- `Token.Fits`     : a token that stands at a place of a text
- `Token.Covers`   : tokens one after the other from a place to the end of a text
- `Token.readSome_spec` : where reading leaves off, the tokens that follow can be read
- `Token.readAll_spec`  : the tokens of a text cover it, and can be read in any two parts
-/

namespace SqlTree
namespace Token

open Text ByteScan

/-- A token that stands at a place of a text. -/
structure Fits (text : List Char) (place : Place) (token : Token) : Prop where
  text_ne_nil : token.text ≠ []
  offset_eq : token.offset = place.offset
  start_eq : token.start = place.point
  stop_eq : token.stop = place.point.advance token.text
  isBoundary_start : isBoundary token.span.start text = true
  isBoundary_stop : isBoundary token.span.stop text = true
  slice_eq : slice? token.span.start token.span.stop text = some token.text
  scan_eq : ∀ rest o, dropBytes? place.offset text = some rest → opening? rest = some o →
    ∃ n closed, o.scan? (bytes (rest.drop o.text.length)) = some (n, closed) ∧
      token.kind = (if closed then o.kind else .errorToken) ∧ size token.text = size o.text + n

/-- Tokens that stand one after the other from a place to the end of a text. -/
inductive Covers (text : List Char) : Place → List Token → Prop where
  | done {place : Place} (h : place.offset = size text) : Covers text place []
  | token {place : Place} {token : Token} {tokens : List Token} (h : Fits text place token)
      (more : Covers text (place.advance token.text) tokens) : Covers text place (token :: tokens)

variable {text rest word rest' : List Char} {place : Place} {kind : Kind}

theorem fits_of_split? (hdrop : dropBytes? place.offset text = some rest)
    (hsplit : split? rest = some (kind, word, rest')) :
    Fits text place ⟨kind, word, place.offset, place.point, place.point.advance word⟩ := by
  have happend := append_of_split? hsplit
  have hnext : dropBytes? (place.offset + size word) text = some rest' :=
    dropBytes?_add (happend ▸ hdrop)
  have hslice : slice? place.offset (place.offset + size word) text = some word := by
    rw [slice?, if_pos (Nat.le_add_right _ _), hdrop, Option.bind_some, Nat.add_sub_cancel_left,
      ← happend, splitAt?_size_append]
    rfl
  refine ⟨text_ne_nil_of_split? hsplit, rfl, rfl, rfl, isBoundary_of_dropBytes? hdrop,
    isBoundary_of_dropBytes? hnext, hslice, fun rest₁ o hdrop₁ hopen => ?_⟩
  -- What is scanned by bytes ends where the token does.
  obtain rfl := Option.some.inj (hdrop.symm.trans hdrop₁)
  obtain ⟨n, closed, word', rest₂, hscan, hsplit', hsize⟩ := split?_of_opening? hopen
  rw [hsplit] at hsplit'
  cases hsplit'
  exact ⟨n, closed, hscan, rfl, hsize⟩

theorem covers_readFrom (hdrop : dropBytes? place.offset text = some rest) :
    Covers text place (readFrom place rest) := by
  induction rest using split_induction generalizing place with
  | nil =>
    obtain ⟨before, rfl, hsize⟩ := exists_of_dropBytes? hdrop
    rw [readFrom_nil]
    exact .done (by rw [← hsize, List.append_nil])
  | cons hsplit ih =>
    rw [readFrom_of_split? hsplit]
    exact .token (fits_of_split? hdrop hsplit)
      (ih (dropBytes?_add (append_of_split? hsplit ▸ hdrop)))

theorem eq_nil_of_readFrom_eq_nil (h : readFrom place rest = []) : rest = [] := by
  cases hsplit : split? rest with
  | none => exact eq_nil_of_split?_eq_none hsplit
  | some found =>
    rw [readFrom_of_split? hsplit] at h
    exact absurd h (List.cons_ne_nil _ _)

/-- Reading some tokens leaves off where those that follow can be read. -/
theorem readSome_spec (n : Nat) (hdrop : dropBytes? place.offset text = some rest) :
    (readSome text n place).1 = (readFrom place rest).take n ∧
      ∃ rest', dropBytes? (readSome text n place).2.offset text = some rest' ∧
        readFrom (readSome text n place).2 rest' = (readFrom place rest).drop n := by
  induction n generalizing place rest with
  | zero => exact ⟨rfl, rest, hdrop, rfl⟩
  | succ n ih =>
    have hread : readAt? text place = (read? place rest).map fun found =>
        (found.1, place.advance found.1.text) := by rw [readAt?, hdrop, Option.bind_some]
    cases hsplit : split? rest with
    | none =>
      -- Only at the end of the text there is nothing to be read.
      obtain rfl := eq_nil_of_split?_eq_none hsplit
      have hend : readSome text (n + 1) place = ([], place) := by rw [readSome, hread]; rfl
      rw [hend, readFrom_nil]
      exact ⟨rfl, [], hdrop, readFrom_nil place⟩
    | some found =>
      obtain ⟨kind, word, rest'⟩ := found
      have hnext : dropBytes? (place.advance word).offset text = some rest' :=
        dropBytes?_add (append_of_split? hsplit ▸ hdrop)
      obtain ⟨htake, rest'', hstop, hrest⟩ := ih hnext
      have hstep : readSome text (n + 1) place =
          (⟨kind, word, place.offset, place.point, place.point.advance word⟩ ::
            (readSome text n (place.advance word)).1,
          (readSome text n (place.advance word)).2) := by
        rw [readSome, hread, read?, hsplit]
        rfl
      rw [hstep, readFrom_of_split? hsplit, List.take_succ_cons, List.drop_succ_cons]
      exact ⟨by rw [htake], rest'', hstop, hrest⟩

/-- The tokens of a text cover it, and reading can stop and go on behind any of them. -/
theorem readAll_spec (text : List Char) :
    Covers text Place.origin (readAll text) ∧ ∀ k n : Nat,
      (readSome text k Place.origin).1 = (readAll text).take k ∧
      (readSome text n (readSome text k Place.origin).2).1 = ((readAll text).drop k).take n ∧
      ((readAll text).length ≤ k + n →
        (readSome text n (readSome text k Place.origin).2).2.offset = size text ∧
        readAt? text (readSome text n (readSome text k Place.origin).2).2 = none) := by
  have hdrop : dropBytes? Place.origin.offset text = some text := dropBytes?_size_append [] text
  refine ⟨covers_readFrom hdrop, fun k n => ?_⟩
  obtain ⟨hfront, rest, hrest, hmore⟩ := readSome_spec k hdrop
  obtain ⟨htake, rest', hrest', hlast⟩ := readSome_spec n hrest
  refine ⟨hfront, by rw [htake, hmore]; rfl, fun hlength => ?_⟩
  rw [hmore, List.drop_drop] at hlast
  obtain rfl := eq_nil_of_readFrom_eq_nil (hlast.trans (List.drop_eq_nil_of_le hlength))
  obtain ⟨before, hbefore, hsize⟩ := exists_of_dropBytes? hrest'
  rw [List.append_nil] at hbefore
  exact ⟨by rw [← hsize, hbefore], by rw [readAt?, hrest']; rfl⟩

end Token
end SqlTree
