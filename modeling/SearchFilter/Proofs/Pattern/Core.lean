/-
# The core of a pattern

A pattern is cut into the stars in front of it, its core, and the stars behind it. The cuts can be
made at the characters, where a star counts unless an odd run of backslashes stands in front of it,
or at the glyphs, where a star counts if it is bare:

| characters | glyphs |
| --- | --- |
| an odd run of backslashes at the end | a cut at the end (`endsEscaped_eq_false_iff`) |
| a star in front | a bare star in front (`glyphs_dropWhile`) |
| a star behind, not escaped | a bare star behind (`glyphs_cutStars`) |

Both cuts leave the same core, of which its ends and its stars are known (`core_ends`,
`mem_core_iff`).
-/

import Mathlib.Data.List.DropRight
import SearchFilter.Pattern.Shape
import SearchFilter.Proofs.Pattern.Matching

namespace SearchFilter
namespace Pattern

open Text (Glyph glyphs glyphs_bare glyphs_escaped)

variable {c : Char} {p q s : List Char} {gs : List Glyph}

/-! ### Patterns and their glyphs -/

/-- A character other than a backslash changes nothing in front of a pattern. -/
theorem isPaired_bare (hne : c ≠ '\\') : IsPaired (c :: p) ↔ IsPaired p := by
  refine ⟨fun h => ?_, .bare hne⟩
  cases h with
  | pair => exact absurd rfl hne
  | bare _ h => exact h

/-- A backslash with its character changes nothing in front of a pattern. -/
theorem isPaired_pair : IsPaired ('\\' :: c :: p) ↔ IsPaired p := by
  refine ⟨fun h => ?_, .pair⟩
  cases h with
  | pair h => exact h
  | bare hne => exact absurd rfl hne

/-- Behind complete pairs only what follows decides whether the pairs are complete. -/
theorem IsPaired.of_append (h : IsPaired p) (hpq : IsPaired (p ++ q)) : IsPaired q := by
  induction h with
  | nil => exact hpq
  | pair _ ih => exact ih (isPaired_pair.1 hpq)
  | bare hne _ ih => exact ih ((isPaired_bare hne).1 hpq)

/-- A pattern whose pairs are not complete ends in a backslash behind complete pairs. -/
theorem isPaired_or_exists (s : List Char) :
    IsPaired s ∨ ∃ p, IsPaired p ∧ s = p ++ ['\\'] := by
  induction s using glyph_induction with
  | nil => exact .inl .nil
  | cut => exact .inr ⟨[], .nil, rfl⟩
  | escaped c p ih =>
    obtain h | ⟨q, hq, rfl⟩ := ih
    · exact .inl (.pair h)
    · exact .inr ⟨_, .pair hq, rfl⟩
  | bare c p hne ih =>
    obtain h | ⟨q, hq, rfl⟩ := ih
    · exact .inl (.bare hne h)
    · exact .inr ⟨_, .bare hne hq, rfl⟩

/-- Behind complete pairs the glyphs start anew. -/
theorem IsPaired.glyphs_append (h : IsPaired p) (q : List Char) :
    glyphs (p ++ q) = glyphs p ++ glyphs q := by
  induction h with
  | nil => rfl
  | pair _ ih => simp [ih]
  | bare hne _ ih => simp [glyphs_bare hne, ih]

/-- Complete pairs have no cut among their glyphs. -/
theorem IsPaired.cut_not_mem (h : IsPaired p) : Glyph.cut ∉ glyphs p := by
  induction h with
  | nil => simp
  | pair _ ih => simpa using ih
  | bare hne _ ih => simpa [glyphs_bare hne] using ih

/-- Glyphs that can be written one after the other. -/
def IsSpellable (gs : List Glyph) : Prop := ∀ g ∈ gs, g ≠ .cut ∧ g ≠ .bare '\\'

/-- The glyphs of complete pairs can be written one after the other. -/
theorem IsPaired.isSpellable (h : IsPaired p) : IsSpellable (glyphs p) := by
  intro g hg
  constructor
  · rintro rfl
    exact h.cut_not_mem hg
  · rintro rfl
    exact Text.bare_backslash_not_mem p hg

/-- Two lists of glyphs can be written exactly when each of them can. -/
theorem isSpellable_append {a b : List Glyph} :
    IsSpellable (a ++ b) ↔ IsSpellable a ∧ IsSpellable b := List.forall_mem_append

/-- Written glyphs are read back. -/
theorem IsSpellable.glyphs_spell (h : IsSpellable gs) :
    glyphs (gs.flatMap Glyph.spell) = gs ∧ IsPaired (gs.flatMap Glyph.spell) := by
  induction gs with
  | nil => exact ⟨rfl, .nil⟩
  | cons g gs ih =>
    obtain ⟨hg, hgs⟩ := List.forall_mem_cons.1 h
    obtain ⟨hglyphs, hpaired⟩ := ih hgs
    cases g with
    | bare c =>
      have hne : c ≠ '\\' := fun hc => hg.2 (hc ▸ rfl)
      exact ⟨by simp [Glyph.spell, glyphs_bare hne, hglyphs], .bare hne hpaired⟩
    | escaped c => exact ⟨by simp [Glyph.spell, hglyphs], .pair hpaired⟩
    | cut => exact absurd rfl hg.1

/-- What stands between the glyphs of a pattern stands between its characters. -/
theorem IsPaired.exists_split {a b : List Glyph} (h : IsPaired p) (hglyphs : glyphs p = a ++ b) :
    p = a.flatMap Glyph.spell ++ b.flatMap Glyph.spell ∧ IsSpellable a ∧ IsSpellable b := by
  have hspell := Text.spell_glyphs p
  rw [hglyphs, List.flatMap_append] at hspell
  exact ⟨hspell.symm, isSpellable_append.1 (hglyphs ▸ h.isSpellable)⟩

/-- A bare glyph at the end is the last character, behind complete pairs. -/
theorem exists_of_getLast?_glyphs (h : (glyphs s).getLast? = some (.bare c)) :
    ∃ p, s = p ++ [c] ∧ IsPaired p := by
  obtain hs | ⟨p, hp, rfl⟩ := isPaired_or_exists s
  · obtain ⟨gs, hgs⟩ := List.getLast?_eq_some_iff.1 h
    obtain ⟨hsplit, hspellable, -⟩ := hs.exists_split hgs
    exact ⟨_, hsplit, hspellable.glyphs_spell.2⟩
  · rw [hp.glyphs_append, show glyphs ['\\'] = [.cut] from rfl, List.getLast?_concat] at h
    cases h

/-- Different texts have different glyphs. -/
theorem glyphs_injective : Function.Injective glyphs := fun s t h => by
  rw [← Text.spell_glyphs s, h, Text.spell_glyphs]

/-! ### The stars at the ends -/

/-- Whether a glyph is a star that is a wildcard. -/
def isStar (g : Glyph) : Bool := g == .bare '*'

/-- The glyphs without the stars in front. -/
def dropLeading (gs : List Glyph) : List Glyph := gs.dropWhile isStar

/-- The glyphs without the stars behind. -/
def dropTrailing (gs : List Glyph) : List Glyph := (gs.reverse.dropWhile isStar).reverse

/-- A run of backslashes goes on in front only where nothing else stands, and an even run there
does not change whether it is odd. -/
theorem endsEscaped_append (hp : endsEscaped p = false) (s : List Char) :
    endsEscaped (p ++ s) = endsEscaped s := by
  rw [endsEscaped, beq_eq_false_iff_ne] at hp
  rw [endsEscaped, endsEscaped, List.reverse_append, List.takeWhile_append]
  split
  · next hall =>
    rw [List.length_append, ← hall, Bool.eq_iff_iff, beq_iff_eq, beq_iff_eq]
    omega
  · rfl

/-- **An odd run of backslashes at the end** is a backslash whose character is missing. -/
theorem endsEscaped_eq_false_iff : endsEscaped s = false ↔ IsPaired s := by
  induction s using glyph_induction with
  | nil => exact iff_of_true rfl .nil
  | cut =>
    refine iff_of_false (by decide) fun h => ?_
    cases h with
    | bare hne => exact hne rfl
  | escaped c p ih =>
    have hpair : endsEscaped ['\\', c] = false := by
      by_cases hc : c = '\\' <;> simp [endsEscaped, List.takeWhile, hc]
    rw [isPaired_pair, ← ih, ← List.singleton_append, ← List.singleton_append (x := c),
      ← List.append_assoc]
    rw [List.singleton_append, endsEscaped_append hpair]
  | bare c p hne ih =>
    have hsingle : endsEscaped [c] = false := by simp [endsEscaped, hne]
    rw [isPaired_bare hne, ← ih, ← List.singleton_append, endsEscaped_append hsingle]

/-- The last character is cut off if it is a star behind complete pairs. -/
theorem cutStars_concat (s : List Char) (c : Char) :
    cutStars (s ++ [c]) = if c = '*' ∧ endsEscaped s = false then cutStars s else s ++ [c] := by
  rw [cutStars, List.reverse_concat, cutReversed, List.reverse_reverse]
  split
  · rfl
  · rw [List.reverse_cons, List.reverse_reverse]

/-- Stars are cut off at the end only. -/
theorem cutStars_isPrefix (s : List Char) : cutStars s <+: s := by
  induction s using List.reverseRecOn with
  | nil => exact List.prefix_rfl
  | append_singleton s c ih =>
    rw [cutStars_concat]
    split
    · exact ih.trans (List.prefix_append ..)
    · exact List.prefix_rfl

/-- Glyphs are cut off at the end only. -/
theorem dropTrailing_isPrefix (gs : List Glyph) : dropTrailing gs <+: gs :=
  List.rdropWhile_prefix isStar gs

/-- Nothing is cut off a list of glyphs whose last one is no star. -/
theorem dropTrailing_eq_self (h : ∀ g ∈ gs.getLast?, isStar g = false) : dropTrailing gs = gs :=
  List.rdropWhile_eq_self_iff.2 fun hne => by
    simp [h _ (List.getLast?_eq_some_getLast hne)]

/-- A last star is cut off. -/
theorem dropTrailing_concat (gs : List Glyph) :
    dropTrailing (gs ++ [.bare '*']) = dropTrailing gs := by
  simp [dropTrailing, isStar]

/-- **The stars behind are the same ones** at the characters and at the glyphs. -/
theorem glyphs_cutStars (s : List Char) : glyphs (cutStars s) = dropTrailing (glyphs s) := by
  induction s using List.reverseRecOn with
  | nil => rfl
  | append_singleton s c ih =>
    rw [cutStars_concat]
    split
    · next h =>
      obtain ⟨rfl, hs⟩ := h
      rw [ih, (endsEscaped_eq_false_iff.1 hs).glyphs_append, glyphs_bare (by decide),
        Text.glyphs_nil, dropTrailing_concat]
    · next h =>
      refine (dropTrailing_eq_self fun g hg => Bool.eq_false_iff.2 fun hstar => h ?_).symm
      obtain rfl : g = .bare '*' := by simpa [isStar] using hstar
      obtain ⟨p, hp, hpaired⟩ := exists_of_getLast?_glyphs hg
      obtain ⟨rfl, rfl⟩ := List.append_inj' hp rfl |>.imp_right List.singleton_inj.1
      exact ⟨rfl, endsEscaped_eq_false_iff.2 hpaired⟩

/-- A prefix is shorter unless it is the whole. -/
theorem length_lt_iff_of_isPrefix {α : Type} {a b : List α} (h : a <+: b) :
    a.length < b.length ↔ a ≠ b := by
  rw [Nat.lt_iff_le_and_ne, and_iff_right h.length_le, not_iff_not]
  exact ⟨h.eq_of_length, congrArg List.length⟩

/-- A star is cut off behind exactly when a glyph is. -/
theorem length_cutStars_lt_iff :
    (cutStars s).length < s.length ↔ (dropTrailing (glyphs s)).length < (glyphs s).length := by
  rw [length_lt_iff_of_isPrefix (cutStars_isPrefix s),
    length_lt_iff_of_isPrefix (dropTrailing_isPrefix _), ← glyphs_cutStars, glyphs_injective.ne_iff]

/-- A star in front is a glyph of its own. -/
theorem dropLeading_glyphs_of_ne (hne : c ≠ '*') (p : List Char) :
    dropLeading (glyphs (c :: p)) = glyphs (c :: p) := by
  by_cases hback : c = '\\'
  · subst hback
    cases p with
    | nil => rfl
    | cons d p => rw [glyphs_escaped]; rfl
  · rw [glyphs_bare hback]
    exact List.dropWhile_cons_of_neg (by simpa [isStar] using hne)

/-- **The stars in front are the same ones** at the characters and at the glyphs. -/
theorem glyphs_dropWhile (s : List Char) :
    glyphs (s.dropWhile (· == '*')) = dropLeading (glyphs s) := by
  induction s with
  | nil => rfl
  | cons c s ih =>
    by_cases hc : c = '*'
    · subst hc
      rw [List.dropWhile_cons_of_pos rfl, ih, glyphs_bare (by decide)]
      rfl
    · rw [List.dropWhile_cons_of_neg (by simpa using hc), dropLeading_glyphs_of_ne hc]

/-- A star stands in front exactly when a glyph is cut off there. -/
theorem head?_eq_star_iff :
    s.head? = some '*' ↔ (dropLeading (glyphs s)).length < (glyphs s).length := by
  cases s with
  | nil => exact iff_of_false nofun (Nat.lt_irrefl _)
  | cons c s =>
    rw [List.head?_cons, Option.some_inj]
    by_cases hc : c = '*'
    · subst hc
      refine iff_of_true rfl ?_
      rw [← glyphs_dropWhile, List.dropWhile_cons_of_pos rfl, glyphs_dropWhile,
        glyphs_bare (by decide), List.length_cons, Nat.lt_succ_iff]
      exact (List.dropWhile_sublist isStar).length_le
    · refine iff_of_false hc ?_
      rw [dropLeading_glyphs_of_ne hc]
      exact Nat.lt_irrefl _

/-! ### The core -/

/-- The glyphs between the stars in front and the stars behind. -/
def core (gs : List Glyph) : List Glyph := dropTrailing (dropLeading gs)

/-- The stars in front and behind are cut off the core. -/
theorem exists_core (gs : List Glyph) : ∃ m n,
    gs = List.replicate m (.bare '*') ++ (core gs ++ List.replicate n (.bare '*')) ∧
      ((dropLeading gs).length < gs.length ↔ 0 < m) ∧
      ((core gs).length < (dropLeading gs).length ↔ 0 < n) := by
  have stars {hs : List Glyph} (h : ∀ g ∈ hs, isStar g = true) :
      hs = List.replicate hs.length (.bare '*') :=
    List.eq_replicate_iff.2 ⟨rfl, fun g hg => by simpa [isStar] using h g hg⟩
  have hleading := stars fun g hg => List.mem_takeWhile_imp (l := gs) hg
  have htrailing := stars fun g hg => List.mem_rtakeWhile_imp (l := dropLeading gs) hg
  have hbody : core gs ++ (dropLeading gs).rtakeWhile isStar = dropLeading gs :=
    List.rdropWhile_append_rtakeWhile
  have hgs : gs.takeWhile isStar ++ dropLeading gs = gs := List.takeWhile_append_dropWhile
  refine ⟨(gs.takeWhile isStar).length, ((dropLeading gs).rtakeWhile isStar).length, ?_, ?_, ?_⟩
  · rw [← hleading, ← htrailing, hbody, hgs]
  · have := congrArg List.length hgs
    rw [List.length_append] at this
    omega
  · have := congrArg List.length hbody
    rw [List.length_append] at this
    omega

/-- The core starts with no star, and ends with none. -/
theorem core_ends (gs : List Glyph) : (∀ g ∈ (core gs).head?, isStar g = false) ∧
    ∀ g ∈ (core gs).getLast?, isStar g = false := by
  constructor
  · intro g hg
    obtain ⟨rest, hrest⟩ : core gs <+: dropLeading gs := dropTrailing_isPrefix _
    have hhead := List.head?_dropWhile_not isStar gs
    rw [← dropLeading, ← hrest, List.head?_append, hg] at hhead
    exact hhead
  · intro g hg
    have hne : core gs ≠ [] := by
      intro hnil
      simp [hnil] at hg
    have hlast := List.rdropWhile_last_not isStar (dropLeading gs) hne
    rw [List.getLast?_eq_some_getLast hne, Option.mem_some_iff] at hg
    exact Bool.eq_false_iff.2 (hg ▸ hlast)

/-- What lies between two glyphs that are no stars belongs to the core. -/
theorem mem_core_iff : Glyph.bare '*' ∈ core gs ↔ ∃ a b, gs = a ++ .bare '*' :: b ∧
    (∃ g ∈ a, isStar g = false) ∧ ∃ g ∈ b, isStar g = false := by
  constructor
  · intro hmem
    obtain ⟨m, n, hgs, -, -⟩ := exists_core gs
    obtain ⟨hhead, hlast⟩ := core_ends gs
    obtain ⟨a, b, hcore⟩ := List.append_of_mem hmem
    rw [hcore] at hgs hhead hlast
    refine ⟨List.replicate m (.bare '*') ++ a, b ++ List.replicate n (.bare '*'), ?_, ?_, ?_⟩
    · rw [hgs]
      simp
    · cases a with
      | nil => exact absurd (hhead _ rfl) (by decide)
      | cons g a => exact ⟨g, by simp, hhead g rfl⟩
    · rcases List.eq_nil_or_concat b with rfl | ⟨b, g, rfl⟩
      · exact absurd (hlast (.bare '*') (by simp)) (by decide)
      · refine ⟨g, by simp, hlast g ?_⟩
        rw [List.concat_eq_append, ← List.cons_append, ← List.append_assoc, List.getLast?_concat]
        exact rfl
  · rintro ⟨a, b, rfl, ⟨g, hg, hstar⟩, ⟨h, hh, hstar'⟩⟩
    have hleading : dropLeading (a ++ .bare '*' :: b) = dropLeading a ++ .bare '*' :: b := by
      have hne : a.dropWhile isStar ≠ [] := fun hnil =>
        absurd (List.dropWhile_eq_nil_iff.1 hnil g hg) (by simp [hstar])
      rw [dropLeading, List.dropWhile_append, if_neg (by simpa using hne), ← dropLeading]
    have htrailing : core (a ++ .bare '*' :: b) = dropLeading a ++ .bare '*' :: dropTrailing b := by
      have hne : b.reverse.dropWhile isStar ≠ [] := fun hnil =>
        absurd (List.dropWhile_eq_nil_iff.1 hnil h (List.mem_reverse.2 hh)) (by simp [hstar'])
      rw [core, hleading, dropTrailing, List.reverse_append, List.reverse_cons, List.append_assoc,
        List.dropWhile_append, if_neg (by simpa using hne)]
      simp [dropTrailing]
    rw [htrailing]
    simp

end Pattern
end SearchFilter
