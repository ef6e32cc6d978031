/-
# What shapes stand for

A raw pattern is cut into the stars in front of it, a core, and the stars behind it. It has a
shape if its core has no wildcard, and its texts are those that the shape admits:

| stars | shape | texts |
| --- | --- | --- |
| in front, and behind | `contains t` | those with `t` in them |
| in front only | `contains t` | some of these: those that end with `t` |
| behind only | `beginsWith t` | those that begin with `t` |
| none | `exact t` | `t` |
| and the core is empty | `any` | all |

The shape is cut at the characters of a pattern, and its texts are told by its glyphs; both give
the same shape (`shape?_eq`).

Main statement: `shape?_faithful`.
-/

import SearchFilter.Proofs.Pattern.Core

namespace SearchFilter
namespace Pattern

open Text (Glyph glyphs glyphs_bare glyphs_escaped)

/-- What a shape admits. -/
def Shape.Admits : Shape → List Char → Prop
  | .contains t, s => t.toList <:+: s
  | .beginsWith t, s => t.toList <+: s
  | .exact t, s => s = t.toList
  | .any, _ => True

/-- A `?` that no backslash escapes. -/
def HasQuestion (raw : List Char) : Prop :=
  ∃ p q, raw = p ++ '?' :: q ∧ IsPaired p

/-- A star that no backslash escapes, with something else than such stars on both sides. -/
def HasInnerStar (raw : List Char) : Prop :=
  ∃ p q, raw = p ++ '*' :: q ∧ IsPaired p ∧ (∃ c ∈ p, c ≠ '*') ∧ ∃ c ∈ q, c ≠ '*'

/-- A star at the end that no backslash escapes. -/
def EndsInStar (raw : List Char) : Prop :=
  ∃ p, raw = p ++ ['*'] ∧ IsPaired p

variable {c : Char} {p q s : List Char} {gs : List Glyph}

/-! ### Wildcards of a pattern -/

/-- A glyph other than a star is written with another character. -/
theorem exists_ne_star_iff (h : IsSpellable gs) :
    (∃ c ∈ gs.flatMap Glyph.spell, c ≠ '*') ↔ ∃ g ∈ gs, isStar g = false := by
  constructor
  · rintro ⟨c, hc, hne⟩
    obtain ⟨g, hg, hc⟩ := List.mem_flatMap.1 hc
    refine ⟨g, hg, Bool.eq_false_iff.2 fun hstar => hne ?_⟩
    obtain rfl : g = .bare '*' := by simpa [isStar] using hstar
    simpa [Glyph.spell] using hc
  · rintro ⟨g, hg, hstar⟩
    cases g with
    | bare c =>
      have hne : c ≠ '*' := by simpa [isStar] using hstar
      exact ⟨c, List.mem_flatMap.2 ⟨_, hg, by simp [Glyph.spell]⟩, hne⟩
    | escaped c => exact ⟨'\\', List.mem_flatMap.2 ⟨_, hg, by simp [Glyph.spell]⟩, by decide⟩
    | cut => exact absurd rfl (h _ hg).1

/-- A character other than a backslash stands by itself where it is a glyph. -/
theorem IsPaired.bare_mem_iff (h : IsPaired p) (hne : c ≠ '\\') :
    .bare c ∈ glyphs p ↔ ∃ a b, p = a ++ c :: b ∧ IsPaired a := by
  constructor
  · intro hmem
    obtain ⟨a, b, hglyphs⟩ := List.append_of_mem hmem
    obtain ⟨hsplit, ha, -⟩ := h.exists_split hglyphs
    exact ⟨_, b.flatMap Glyph.spell, hsplit, ha.glyphs_spell.2⟩
  · rintro ⟨a, b, rfl, ha⟩
    rw [ha.glyphs_append, glyphs_bare hne]
    simp

/-- A question mark is a wildcard where it is a bare glyph. -/
theorem IsPaired.hasQuestion_iff (h : IsPaired p) : HasQuestion p ↔ .bare '?' ∈ glyphs p :=
  (h.bare_mem_iff (by decide)).symm

/-- A star between other things is a star of the core. -/
theorem IsPaired.hasInnerStar_iff (h : IsPaired p) :
    HasInnerStar p ↔ .bare '*' ∈ core (glyphs p) := by
  rw [mem_core_iff]
  constructor
  · rintro ⟨a, b, rfl, ha, hleft, hright⟩
    have hb : IsPaired b := (isPaired_bare (by decide)).1 (ha.of_append h)
    refine ⟨glyphs a, glyphs b, ?_, ?_, ?_⟩
    · rw [ha.glyphs_append, glyphs_bare (by decide)]
    · rwa [← exists_ne_star_iff ha.isSpellable, Text.spell_glyphs]
    · rwa [← exists_ne_star_iff hb.isSpellable, Text.spell_glyphs]
  · rintro ⟨a, b, hglyphs, hleft, hright⟩
    obtain ⟨hsplit, ha, hrest⟩ := h.exists_split hglyphs
    have hb : IsSpellable b := (List.forall_mem_cons.1 hrest).2
    exact ⟨_, _, hsplit, ha.glyphs_spell.2, (exists_ne_star_iff ha).2 hleft,
      (exists_ne_star_iff hb).2 hright⟩

/-- A star at the end that is a wildcard is the last glyph. -/
theorem glyphs_of_endsInStar (h : EndsInStar p) : (glyphs p).getLast? = some (.bare '*') := by
  obtain ⟨q, rfl, hq⟩ := h
  rw [hq.glyphs_append, glyphs_bare (by decide), Text.glyphs_nil, List.getLast?_concat]

/-! ### Texts of a pattern -/

/-- A text of two patterns is cut between them. -/
theorem matches_append (h : IsPaired p) :
    Matches (p ++ q) s ↔ ∃ t u, s = t ++ u ∧ Matches p t ∧ Matches q u := by
  induction h generalizing s with
  | nil => simp
  | @pair c p _ ih =>
    simp only [List.cons_append, matches_escaped, ih]
    grind
  | @bare c p hne _ ih =>
    rw [List.cons_append]
    by_cases hstar : c = '*'
    · subst hstar
      simp only [matches_star, ih]
      constructor
      · rintro ⟨t, _, rfl, u, v, rfl, hu, hv⟩
        exact ⟨t ++ u, v, by simp, ⟨t, u, rfl, hu⟩, hv⟩
      · rintro ⟨_, v, rfl, ⟨t, u, rfl, hu⟩, hv⟩
        exact ⟨t, u ++ v, by simp, u, v, rfl, hu, hv⟩
    · by_cases hquestion : c = '?'
      · subst hquestion
        simp only [matches_question, ih]
        grind
      · simp only [matches_bare hne hstar hquestion, ih]
        grind

/-- A pattern without wildcards stands for one text. -/
theorem matches_literal (h : IsPaired p) (hstar : .bare '*' ∉ glyphs p)
    (hquestion : .bare '?' ∉ glyphs p) : Matches p s ↔ s = Text.unescape p := by
  induction h generalizing s with
  | nil => simp
  | @pair c p _ ih =>
    simp only [glyphs_escaped, List.mem_cons, reduceCtorEq, false_or] at hstar hquestion
    simp only [matches_escaped, ih hstar hquestion, Text.unescape_escaped, exists_eq_right]
  | @bare c p hne _ ih =>
    simp only [glyphs_bare hne, List.mem_cons, Glyph.bare.injEq, not_or] at hstar hquestion
    simp only [matches_bare hne (Ne.symm hstar.1) (Ne.symm hquestion.1), ih hstar.2 hquestion.2,
      Text.unescape_bare hne, exists_eq_right]

/-- Among stars there is no backslash. -/
theorem isPaired_stars (n : Nat) : IsPaired (List.replicate n '*') := by
  induction n with
  | zero => exact .nil
  | succ n ih => exact .bare (by decide) ih

/-- Stars stand for any text, if there is one at least. -/
theorem matches_stars {n : Nat} : Matches (List.replicate n '*') s ↔ 0 < n ∨ s = [] := by
  induction n generalizing s with
  | zero => simp
  | succ n ih =>
    simp only [List.replicate_succ, matches_star, Nat.succ_pos, true_or, iff_true]
    exact ⟨s, [], by simp, ih.2 (.inr rfl)⟩

/-- Stars are written as they are. -/
theorem spell_stars (n : Nat) :
    (List.replicate n (Glyph.bare '*')).flatMap Glyph.spell = List.replicate n '*' := by
  induction n with
  | zero => rfl
  | succ n ih => rw [List.replicate_succ, List.flatMap_cons, ih]; rfl

/-- The literal text of a pattern. -/
def coreText (gs : List Glyph) : List Char := (core gs).filterMap Glyph.char?

/-- A core that stands for no characters is empty, if no backslash is cut off. -/
theorem core_eq_nil (hcut : .cut ∉ gs) (h : coreText gs = []) : core gs = [] := by
  obtain ⟨m, n, hgs, -, -⟩ := exists_core gs
  cases hcore : core gs with
  | nil => rfl
  | cons g rest =>
    have hne : g ≠ .cut := by
      rintro rfl
      exact hcut (by rw [hgs, hcore]; simp)
    rw [coreText, hcore] at h
    cases g with
    | bare c => cases h
    | escaped c => cases h
    | cut => exact absurd rfl hne

/-- A pattern whose core has no wildcards stands for the texts with the core in them, which have
more in front and behind only where the pattern has stars. -/
theorem matches_iff_of_core (h : IsPaired p) (hquestion : .bare '?' ∉ glyphs p)
    (hstar : .bare '*' ∉ core (glyphs p)) :
    Matches p s ↔ ∃ t u, s = t ++ (coreText (glyphs p) ++ u) ∧
      ((dropLeading (glyphs p)).length < (glyphs p).length ∨ t = []) ∧
      ((core (glyphs p)).length < (dropLeading (glyphs p)).length ∨ u = []) := by
  obtain ⟨m, n, hglyphs, hm, hn⟩ := exists_core (glyphs p)
  obtain ⟨hsplit, -, hrest⟩ := h.exists_split hglyphs
  obtain ⟨hcore, hpaired⟩ := (isSpellable_append.1 hrest).1.glyphs_spell
  have hquestion' : .bare '?' ∉ core (glyphs p) := fun hmem =>
    hquestion (by rw [hglyphs]; simp [hmem])
  rw [List.flatMap_append, spell_stars, spell_stars] at hsplit
  have hliteral (u : List Char) : Matches ((core (glyphs p)).flatMap Glyph.spell) u ↔
      u = coreText (glyphs p) := by
    rw [matches_literal hpaired (by rwa [hcore]) (by rwa [hcore]), Text.unescape, hcore, coreText]
  rw [hm, hn]
  conv_lhs => rw [hsplit]
  simp only [matches_append (isPaired_stars m), matches_append hpaired, matches_stars, hliteral]
  constructor
  · rintro ⟨t, _, rfl, ht, _, u, rfl, rfl, hu⟩
    exact ⟨t, u, rfl, ht, hu⟩
  · rintro ⟨t, u, rfl, ht, hu⟩
    exact ⟨t, _, rfl, ht, _, u, rfl, rfl, hu⟩

/-! ### Shapes of a pattern -/

/-- The shape of a list of glyphs, where it has one. -/
def shapeOf? (gs : List Glyph) : Option Shape :=
  if .bare '?' ∈ gs ∨ .bare '*' ∈ core gs then none
  else if coreText gs = [] ∧ ((dropLeading gs).length < gs.length ∨
    (core gs).length < (dropLeading gs).length) then some .any
  else if (dropLeading gs).length < gs.length then some (.contains (String.ofList (coreText gs)))
  else if (core gs).length < (dropLeading gs).length then
    some (.beginsWith (String.ofList (coreText gs)))
  else some (.exact (String.ofList (coreText gs)))

/-- **The shape of a pattern can be read off its glyphs:** the stars are the same ones, and so are
the wildcards and the text between them. -/
theorem shape?_eq (raw : String) : shape? raw = shapeOf? (glyphs raw.toList) := by
  have hcore : glyphs (cutStars (raw.toList.dropWhile (· == '*'))) = core (glyphs raw.toList) := by
    rw [glyphs_cutStars, glyphs_dropWhile, core]
  have htext : Text.unescape (cutStars (raw.toList.dropWhile (· == '*'))) =
      coreText (glyphs raw.toList) := by rw [Text.unescape, hcore, coreText]
  have hempty : (String.ofList (coreText (glyphs raw.toList))).isEmpty = true ↔
      coreText (glyphs raw.toList) = [] := by simp
  simp only [shape?, shapeOf?, Text.hasBare_iff, hcore, htext, hempty, head?_eq_star_iff,
    length_cutStars_lt_iff, glyphs_dropWhile, ite_or]
  rfl

/-- The wildcards that no shape has. -/
theorem shapeOf?_eq_none_iff :
    shapeOf? gs = none ↔ .bare '?' ∈ gs ∨ .bare '*' ∈ core gs := by
  refine ⟨fun h => ?_, fun h => if_pos h⟩
  by_contra hnone
  rw [shapeOf?, if_neg hnone] at h
  split_ifs at h

/-- What is read off the stars at the two ends. -/
theorem shape_of_ends {shape : Shape} (h : shapeOf? gs = some shape) :
    (shape = .any ∧ coreText gs = [] ∧
      ((dropLeading gs).length < gs.length ∨ (core gs).length < (dropLeading gs).length)) ∨
    (shape = .contains (String.ofList (coreText gs)) ∧ coreText gs ≠ [] ∧
      (dropLeading gs).length < gs.length) ∨
    (shape = .beginsWith (String.ofList (coreText gs)) ∧
      ¬ (dropLeading gs).length < gs.length ∧ (core gs).length < (dropLeading gs).length) ∨
    (shape = .exact (String.ofList (coreText gs)) ∧
      ¬ (dropLeading gs).length < gs.length ∧ ¬ (core gs).length < (dropLeading gs).length) := by
  rw [shapeOf?, Option.ite_none_left_eq_some] at h
  obtain ⟨-, h⟩ := h
  split_ifs at h with hany hleading htrailing <;> cases h
  · exact .inl ⟨rfl, hany⟩
  · exact .inr (.inl ⟨rfl, fun hnil => hany ⟨hnil, .inl hleading⟩, hleading⟩)
  · exact .inr (.inr (.inl ⟨rfl, hleading, htrailing⟩))
  · exact .inr (.inr (.inr ⟨rfl, hleading, htrailing⟩))

/-- A star at the end is a star behind the core. -/
theorem trailing_of_endsInStar (h : EndsInStar p) (hcore : core (glyphs p) ≠ []) :
    (core (glyphs p)).length < (dropLeading (glyphs p)).length := by
  obtain ⟨m, n, hglyphs, -, hn⟩ := exists_core (glyphs p)
  rw [hn]
  by_contra hzero
  obtain rfl : n = 0 := by omega
  have hlast := glyphs_of_endsInStar h
  rw [hglyphs, List.replicate_zero, List.append_nil, List.getLast?_append_of_ne_nil _ hcore]
    at hlast
  exact absurd ((core_ends _).2 _ hlast) (by decide)

/-- **A shape stands for the texts of its pattern,** and a pattern has one unless it has a question
mark, or a star between other things. With a star in front and none behind, it is only that the
texts of the pattern have the shape. -/
theorem shape?_faithful (raw : String) (h : IsPaired raw.toList) :
    (shape? raw = none ↔ HasQuestion raw.toList ∨ HasInnerStar raw.toList) ∧
      ∀ shape, shape? raw = some shape → ∀ text : String,
        (Matches raw.toList text.toList → shape.Admits text.toList) ∧
          ((∀ t, shape = .contains t → EndsInStar raw.toList) → shape.Admits text.toList →
            Matches raw.toList text.toList) := by
  rw [shape?_eq, h.hasQuestion_iff, h.hasInnerStar_iff]
  refine ⟨shapeOf?_eq_none_iff, fun shape hshape text => ?_⟩
  have hnone : ¬ (.bare '?' ∈ glyphs raw.toList ∨ .bare '*' ∈ core (glyphs raw.toList)) := by
    rw [← shapeOf?_eq_none_iff, hshape]
    exact Option.some_ne_none shape
  rw [matches_iff_of_core h (fun hq => hnone (.inl hq)) (fun hs => hnone (.inr hs))]
  rcases shape_of_ends hshape with ⟨rfl, hcore, hends⟩ | ⟨rfl, hcore, hleading⟩ |
    ⟨rfl, hleading, htrailing⟩ | ⟨rfl, hleading, htrailing⟩
  · -- any text: some star takes all of it
    refine ⟨fun _ => trivial, fun _ _ => ?_⟩
    rw [hcore]
    rcases hends with hleading | htrailing
    · exact ⟨text.toList, [], by simp, .inl hleading, .inr rfl⟩
    · exact ⟨[], text.toList, rfl, .inr rfl, .inl htrailing⟩
  · -- `contains`: what is behind the core is taken by a star at the end
    simp only [Shape.Admits, String.toList_ofList]
    constructor
    · rintro ⟨t, u, htext, -, -⟩
      exact ⟨t, u, by simp [htext]⟩
    · rintro hends ⟨t, u, htext⟩
      have hne : core (glyphs raw.toList) ≠ [] := by
        rintro hnil
        rw [coreText, hnil] at hcore
        exact hcore rfl
      exact ⟨t, u, by simp [← htext], .inl hleading,
        .inl (trailing_of_endsInStar (hends _ rfl) hne)⟩
  · -- `beginsWith`: nothing is in front of the core
    simp only [Shape.Admits, String.toList_ofList, hleading, htrailing, false_or, true_or, and_true]
    constructor
    · rintro ⟨_, u, htext, rfl⟩
      exact ⟨u, htext.symm⟩
    · rintro - ⟨u, htext⟩
      exact ⟨[], u, htext.symm, rfl⟩
  · -- `exact`: nothing is on either side of it
    simp only [Shape.Admits, String.toList_ofList, hleading, htrailing, false_or]
    constructor
    · rintro ⟨_, _, htext, rfl, rfl⟩
      simpa using htext
    · intro _ htext
      exact ⟨[], [], by simpa using htext, rfl, rfl⟩

/-- Of three stars the middle one is escaped, and so is part of the text that is looked for. -/
theorem matches_of_escaped_star : IsPaired "*jo\\**".toList ∧
    shape? "*jo\\**" = some (.contains "jo*") ∧ EndsInStar "*jo\\**".toList ∧
      Matches "*jo\\**".toList "a jo*b".toList := by
  have hpaired : IsPaired "*jo\\*".toList :=
    .bare (by decide) (.bare (by decide) (.bare (by decide) (.pair .nil)))
  have hraw : IsPaired "*jo\\**".toList :=
    .bare (by decide) (.bare (by decide) (.bare (by decide) (.pair (.bare (by decide) .nil))))
  have hshape : shape? "*jo\\**" = some (.contains "jo*") := by decide +kernel
  have hends : EndsInStar "*jo\\**".toList := ⟨"*jo\\*".toList, by decide, hpaired⟩
  refine ⟨hraw, hshape, hends, ?_⟩
  exact ((shape?_faithful "*jo\\**" hraw).2 _ hshape "a jo*b").2 (fun _ _ => hends)
    ⟨"a ".toList, "b".toList, by decide⟩

end Pattern
end SearchFilter
