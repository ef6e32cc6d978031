/-
# What patterns match

A raw pattern and a `LIKE` pattern stand for texts, each in its own alphabet:

| raw pattern | `LIKE` pattern | stands for |
| --- | --- | --- |
| `*` | `%` | any text |
| `?` | `_` | any character |
| a backslash and `c` | a backslash and `c` | `c` |
| any other `c` | any other `c` | `c` |
| a backslash at the end | no pattern | nothing |

Main statement: the `LIKE` pattern of a raw pattern stands for the same texts, and every
backslash in it has its character (`likes_toLike_iff`).
-/

import SearchFilter.Pattern.Like

namespace SearchFilter
namespace Pattern

open Text (Glyph glyphs glyphs_bare)

/-- The raw pattern stands for the text. -/
inductive Matches : List Char → List Char → Prop
  | nil : Matches [] []
  | cut : Matches ['\\'] []
  | escaped {c : Char} {p s : List Char} : Matches p s → Matches ('\\' :: c :: p) (c :: s)
  | star {t p s : List Char} : Matches p s → Matches ('*' :: p) (t ++ s)
  | question {c : Char} {p s : List Char} : Matches p s → Matches ('?' :: p) (c :: s)
  | bare {c : Char} {p s : List Char} : c ≠ '\\' → c ≠ '*' → c ≠ '?' → Matches p s →
    Matches (c :: p) (c :: s)

/-- The `LIKE` pattern stands for the text. -/
inductive Likes : List Char → List Char → Prop
  | nil : Likes [] []
  | escaped {c : Char} {p s : List Char} : Likes p s → Likes ('\\' :: c :: p) (c :: s)
  | percent {t p s : List Char} : Likes p s → Likes ('%' :: p) (t ++ s)
  | underscore {c : Char} {p s : List Char} : Likes p s → Likes ('_' :: p) (c :: s)
  | bare {c : Char} {p s : List Char} : c ≠ '\\' → c ≠ '%' → c ≠ '_' → Likes p s →
    Likes (c :: p) (c :: s)

/-- Every backslash of the pattern has its character, read from the left. -/
inductive IsPaired : List Char → Prop
  | nil : IsPaired []
  | pair {c : Char} {p : List Char} : IsPaired p → IsPaired ('\\' :: c :: p)
  | bare {c : Char} {p : List Char} : c ≠ '\\' → IsPaired p → IsPaired (c :: p)

/-- A word is made of backslash pairs and of characters without one, with perhaps a backslash
at its end. -/
@[elab_as_elim] theorem glyph_induction {P : List Char → Prop} (nil : P []) (cut : P ['\\'])
    (escaped : ∀ c p, P p → P ('\\' :: c :: p)) (bare : ∀ c p, c ≠ '\\' → P p → P (c :: p))
    (p : List Char) : P p := by
  fun_induction glyphs p with
  | case1 => exact nil
  | case2 => exact cut
  | case3 c r ih => exact escaped c r ih
  | case4 c r hcut hpair ih =>
    refine bare c r ?_ ih
    rintro rfl
    cases r with
    | nil => exact hcut rfl rfl
    | cons d r => exact hpair d r rfl rfl

variable {c : Char} {p s : List Char}

/-! ### The texts of a raw pattern -/

/-- The empty pattern stands for the empty text. -/
@[simp] theorem matches_nil : Matches [] s ↔ s = [] :=
  ⟨fun h => by cases h; rfl, by rintro rfl; exact .nil⟩

/-- A backslash at the end stands for nothing. -/
@[simp] theorem matches_cut : Matches ['\\'] s ↔ s = [] := by
  refine ⟨fun h => ?_, by rintro rfl; exact .cut⟩
  cases h with
  | cut => rfl
  | bare hne => exact absurd rfl hne

/-- An escaped character stands for itself. -/
@[simp] theorem matches_escaped :
    Matches ('\\' :: c :: p) s ↔ ∃ r, s = c :: r ∧ Matches p r := by
  refine ⟨fun h => ?_, by rintro ⟨r, rfl, h⟩; exact .escaped h⟩
  cases h with
  | escaped h => exact ⟨_, rfl, h⟩
  | bare hne => exact absurd rfl hne

/-- A star stands for any text. -/
@[simp] theorem matches_star : Matches ('*' :: p) s ↔ ∃ t r, s = t ++ r ∧ Matches p r := by
  refine ⟨fun h => ?_, by rintro ⟨t, r, rfl, h⟩; exact .star h⟩
  cases h with
  | star h => exact ⟨_, _, rfl, h⟩
  | bare _ hne => exact absurd rfl hne

/-- A question mark stands for any character. -/
@[simp] theorem matches_question : Matches ('?' :: p) s ↔ ∃ d r, s = d :: r ∧ Matches p r := by
  refine ⟨fun h => ?_, by rintro ⟨d, r, rfl, h⟩; exact .question h⟩
  cases h with
  | question h => exact ⟨_, _, rfl, h⟩
  | bare _ _ hne => exact absurd rfl hne

/-- Any other character stands for itself. -/
theorem matches_bare (hback : c ≠ '\\') (hstar : c ≠ '*') (hquestion : c ≠ '?') :
    Matches (c :: p) s ↔ ∃ r, s = c :: r ∧ Matches p r := by
  refine ⟨fun h => ?_, by rintro ⟨r, rfl, h⟩; exact .bare hback hstar hquestion h⟩
  cases h with
  | cut | escaped => exact absurd rfl hback
  | star => exact absurd rfl hstar
  | question => exact absurd rfl hquestion
  | bare _ _ _ h => exact ⟨_, rfl, h⟩

/-! ### The texts of a `LIKE` pattern -/

/-- The empty pattern stands for the empty text. -/
@[simp] theorem likes_nil : Likes [] s ↔ s = [] :=
  ⟨fun h => by cases h; rfl, by rintro rfl; exact .nil⟩

/-- A percent sign stands for any text. -/
@[simp] theorem likes_percent : Likes ('%' :: p) s ↔ ∃ t r, s = t ++ r ∧ Likes p r := by
  refine ⟨fun h => ?_, by rintro ⟨t, r, rfl, h⟩; exact .percent h⟩
  cases h with
  | percent h => exact ⟨_, _, rfl, h⟩
  | bare _ hne => exact absurd rfl hne

/-- An underscore stands for any character. -/
@[simp] theorem likes_underscore : Likes ('_' :: p) s ↔ ∃ d r, s = d :: r ∧ Likes p r := by
  refine ⟨fun h => ?_, by rintro ⟨d, r, rfl, h⟩; exact .underscore h⟩
  cases h with
  | underscore h => exact ⟨_, _, rfl, h⟩
  | bare _ _ hne => exact absurd rfl hne

/-- A literal character stands for itself, whether it has to be escaped or not. -/
@[simp] theorem likes_likeChar : Likes (likeChar c ++ p) s ↔ ∃ r, s = c :: r ∧ Likes p r := by
  rw [likeChar]
  split
  · refine ⟨fun h => ?_, by rintro ⟨r, rfl, h⟩; exact .escaped h⟩
    cases h with
    | escaped h => exact ⟨_, rfl, h⟩
    | bare hne => exact absurd rfl hne
  · rename_i hspecial
    simp only [not_or] at hspecial
    obtain ⟨hpercent, hunderscore, hback⟩ := hspecial
    refine ⟨fun h => ?_, by rintro ⟨r, rfl, h⟩; exact .bare hback hpercent hunderscore h⟩
    cases h with
    | escaped => exact absurd rfl hback
    | percent => exact absurd rfl hpercent
    | underscore => exact absurd rfl hunderscore
    | bare _ _ _ h => exact ⟨_, rfl, h⟩

/-! ### From the one to the other -/

/-- A backslash at the end is left out. -/
theorem like_cut : like ['\\'] = [] := rfl

/-- A character other than a backslash is written glyph by glyph. -/
theorem like_bare (h : c ≠ '\\') : like (c :: p) = likeGlyph (.bare c) ++ like p := by
  rw [like, glyphs_bare h, List.flatMap_cons, ← like]

/-- A literal character adds no backslash without its character. -/
theorem IsPaired.likeChar (h : IsPaired p) (c : Char) : IsPaired (likeChar c ++ p) := by
  rw [Pattern.likeChar]
  split
  · exact .pair h
  · rename_i hspecial
    exact .bare (fun hback => hspecial (.inr (.inr hback))) h

/-- Every backslash of a `LIKE` pattern has its character. -/
theorem isPaired_like (p : List Char) : IsPaired (like p) := by
  induction p using glyph_induction with
  | nil | cut => exact .nil
  | escaped c p ih =>
    rw [like_escaped]
    exact ih.likeChar c
  | bare c p hback ih =>
    rw [like_bare hback, likeGlyph]
    split
    · exact .bare (by decide) ih
    · split
      · exact .bare (by decide) ih
      · exact ih.likeChar c

/-- Glyph by glyph, both patterns ask the same of a text. -/
theorem likes_like_iff (p s : List Char) : Likes (like p) s ↔ Matches p s := by
  induction p using glyph_induction generalizing s with
  | nil => rw [like_nil, likes_nil, matches_nil]
  | cut => rw [like_cut, likes_nil, matches_cut]
  | escaped c p ih => simp only [like_escaped, likes_likeChar, matches_escaped, ih]
  | bare c p hback ih =>
    rw [like_bare hback, likeGlyph]
    split
    · rename_i hstar
      rw [hstar, List.singleton_append]
      simp only [likes_percent, matches_star, ih]
    · rename_i hstar
      split
      · rename_i hquestion
        rw [hquestion, List.singleton_append]
        simp only [likes_underscore, matches_question, ih]
      · rename_i hquestion
        simp only [likes_likeChar, matches_bare hback hstar hquestion, ih]

/-- **The `LIKE` pattern of a raw pattern stands for the same texts,** and no backslash in it
lacks its character. -/
theorem likes_toLike_iff (raw : String) : IsPaired (toLike raw).toList ∧
    ∀ text : String, Likes (toLike raw).toList text.toList ↔ Matches raw.toList text.toList := by
  rw [toLike, String.toList_ofList]
  exact ⟨isPaired_like _, fun text => likes_like_iff _ _⟩

end Pattern
end SearchFilter
