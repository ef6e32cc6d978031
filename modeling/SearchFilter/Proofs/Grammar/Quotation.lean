/-
# Texts for any string

Two texts are read behind a field as the string that they are made of, whatever characters it
has:

| text | is read as | shielded by a backslash |
| --- | --- | --- |
| `quotation s` | a phrase | quotes and backslashes |
| `pairs s` | a term | every character |

Neither is taken for a pattern or for a text of another kind, and no point in it is one of a
field.
-/

import SearchFilter.Proofs.Grammar.Atom
import SearchFilter.Proofs.Grammar.Points

namespace SearchFilter
namespace Grammar

open Query (AtBoundary Place IsFinished)

/-! ### Quotations -/

/-- The string with a backslash in front of each quote and backslash. -/
def shield (s : List Char) : List Char :=
  s.flatMap fun c => if c = '"' ∨ c = '\\' then ['\\', c] else [c]

/-- The string between quotes. -/
def quotation (s : List Char) : List Char := '"' :: (shield s ++ ['"'])

/-- A shielded string has no quote that closes it, and says itself. -/
theorem spanQuoted_shield (s : List Char) : spanQuoted (shield s) = (s, []) := by
  induction s with
  | nil => rfl
  | cons c s ih =>
    rw [shield, List.flatMap_cons, ← shield]
    split
    · rw [List.cons_append, List.singleton_append, spanQuoted, ih]
    · rename_i hc
      rw [List.singleton_append, spanQuoted, if_neg hc, ih]
      exact fun d r hd => absurd (.inr hd) hc

/-- A quotation is a phrase that says its string. -/
theorem phraseText_quotation (s : List Char) : PhraseText s (quotation s) :=
  .mk (spanQuoted_shield s)

/-! ### Pairs -/

/-- The string with a backslash in front of each character. -/
def pairs (s : List Char) : List Char := s.flatMap fun c => ['\\', c]

/-- An empty string has no pairs. -/
@[simp] theorem pairs_nil : pairs [] = [] := rfl

/-- Each character of a string is one pair. -/
@[simp] theorem pairs_cons (c : Char) (s : List Char) : pairs (c :: s) = '\\' :: c :: pairs s := rfl

/-- Pairs are a term. -/
theorem isTerm_pairs {s : List Char} (h : s ≠ []) : IsTerm (pairs s) where
  ne_nil := by
    obtain ⟨c, s, rfl⟩ := List.exists_cons_of_ne_nil h
    simp
  span := by
    clear h
    induction s with
    | nil => rfl
    | cons c s ih => rw [pairs_cons, spanTerm, ih]

/-- Every glyph of pairs is escaped. -/
theorem glyphs_pairs (s : List Char) : Text.glyphs (pairs s) = s.map .escaped := by
  induction s with
  | nil => rfl
  | cons c s ih => rw [pairs_cons, Text.glyphs_escaped, ih, List.map_cons]

/-- Pairs say the string that they are made of. -/
theorem unescape_pairs (s : List Char) : Text.unescape (pairs s) = s := by
  rw [Text.unescape, glyphs_pairs, List.filterMap_map]
  exact List.filterMap_some

/-- Nothing in pairs is an operator. -/
theorem hasBare_pairs (target : Char) (s : List Char) : Text.hasBare target (pairs s) = false := by
  simp [Text.hasBare, glyphs_pairs]

/-- Pairs are shown as blanks. -/
theorem shown_pairs (s : List Char) :
    Place.bare.shown (pairs s) = List.replicate (pairs s).length ' ' := by
  induction s with
  | nil => rfl
  | cons c s ih =>
    have hshown := Place.shown_pair .bare c (pairs s)
    rw [pairs_cons, Place.bare, hshown, ← Place.bare, ih]
    rfl

/-! ### Strings behind a field -/

/-- The text stands behind a field for the string. -/
inductive StringText (s : List Char) : List Char → Prop
  | quotation : StringText s (quotation s)
  | pairs : s ≠ [] → StringText s (pairs s)

/-- **A string that is written behind a field is tested for as it is.** -/
theorem StringText.exists_atom {s u : List Char} (h : StringText s u) :
    ∃ a, WritesAtom a u ∧ ∀ c, a.filter c = .equals c (textValue s) := by
  cases h with
  | quotation => exact ⟨_, .phrase (phraseText_quotation s), fun _ => rfl⟩
  | pairs hne =>
    refine ⟨.term (Grammar.pairs s), .term (isTerm_pairs hne) ?_, fun c => ?_⟩
    · obtain ⟨c, s, rfl⟩ := List.exists_cons_of_ne_nil hne
      rintro _ ⟨⟩
      decide
    · rw [Atom.filter, hasBare_pairs, hasBare_pairs, unescape_pairs]
      rfl

/-- It shows no point. -/
theorem StringText.shows {s u : List Char} (h : StringText s u) : Shows 0 u := by
  cases h with
  | quotation => exact (phraseText_quotation s).shows
  | pairs hne =>
    refine ⟨((isTerm_pairs hne).passes .bare).after, ?_⟩
    rw [shown_pairs, List.count_replicate]
    rfl

/-- Operators, wildcards and blanks are characters like all others. -/
example : clause? "f:\"a \\\" OR *\"".toList =
      .ok (.leaf (some ['f']) (.phrase "a \" OR *".toList)) ∧
    clause? "f:\\*\\ \\)".toList = .ok (.leaf (some ['f']) (.term "\\*\\ \\)".toList)) := by
  decide +kernel

end Grammar
end SearchFilter
