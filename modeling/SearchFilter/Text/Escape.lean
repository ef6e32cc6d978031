/-
# Backslash pairs

In a raw word a backslash takes the meaning from the character after it. A raw
word is therefore read as a list of *glyphs*:

| glyph | written | stands for |
| --- | --- | --- |
| `bare c` | `c` | itself, or an operator such as `*` |
| `escaped c` | `\c` | the character `c` and never an operator |
| `cut` | `\` at the end | nothing: the word ends before the escaped character |

Main statements: writing the glyphs of a word gives the word back
(`spell_glyphs`), and a backslash is never a bare glyph
(`bare_backslash_not_mem`).
-/

namespace SearchFilter
namespace Text

/-- One unit of a raw word. -/
inductive Glyph where
  | bare (c : Char)
  | escaped (c : Char)
  | cut
deriving DecidableEq, Repr

/-- The units of a raw word, from the left. -/
def glyphs : List Char → List Glyph
  | [] => []
  | '\\' :: [] => [.cut]
  | '\\' :: c :: r => .escaped c :: glyphs r
  | c :: r => .bare c :: glyphs r

/-- The character a glyph stands for, where it stands for one. -/
def Glyph.char? : Glyph → Option Char
  | .bare c => some c
  | .escaped c => some c
  | .cut => none

/-- How a glyph is written. -/
def Glyph.spell : Glyph → List Char
  | .bare c => [c]
  | .escaped c => ['\\', c]
  | .cut => ['\\']

/-- A raw word without its backslashes: each pair becomes its second character. -/
def unescape (s : List Char) : List Char := (glyphs s).filterMap Glyph.char?

/-- Whether a character occurs in a raw word outside every backslash pair. -/
def hasBare (target : Char) (s : List Char) : Bool := (glyphs s).contains (.bare target)

/-- An empty word has no glyphs. -/
@[simp] theorem glyphs_nil : glyphs [] = [] := by rw [glyphs]

/-- A backslash and the character after it are one glyph. -/
@[simp] theorem glyphs_escaped (c : Char) (r : List Char) :
    glyphs ('\\' :: c :: r) = .escaped c :: glyphs r := by rw [glyphs]

/-- Any other character is a glyph by itself. -/
theorem glyphs_bare {c : Char} (h : c ≠ '\\') (r : List Char) :
    glyphs (c :: r) = .bare c :: glyphs r := by
  rw [glyphs] <;> simp_all

/-- **Nothing is lost:** the glyphs of a word, written one after the other, are the word. -/
theorem spell_glyphs (s : List Char) : (glyphs s).flatMap Glyph.spell = s := by
  fun_induction glyphs s <;> simp_all [Glyph.spell]

/-- A bare backslash is no glyph of any word. -/
theorem bare_backslash_not_mem (s : List Char) : Glyph.bare '\\' ∉ glyphs s := by
  fun_induction glyphs s with
  | case1 => simp
  | case2 => simp
  | case3 c r ih => simp [ih]
  | case4 c r h1 h2 ih =>
    simp only [List.mem_cons, Glyph.bare.injEq, not_or]
    refine ⟨fun hc => ?_, ih⟩
    cases r with
    | nil => exact h1 hc.symm rfl
    | cons d r => exact h2 d r hc.symm rfl

/-- Nothing is left of an empty word. -/
@[simp] theorem unescape_nil : unescape [] = [] := by simp [unescape]

/-- Of a pair its second character is left. -/
@[simp] theorem unescape_escaped (c : Char) (r : List Char) :
    unescape ('\\' :: c :: r) = c :: unescape r := by simp [unescape, Glyph.char?]

/-- A character without a backslash stays. -/
theorem unescape_bare {c : Char} (h : c ≠ '\\') (r : List Char) :
    unescape (c :: r) = c :: unescape r := by
  simp [unescape, glyphs_bare h, Glyph.char?]

/-- A character occurs outside all pairs where it is a bare glyph. -/
theorem hasBare_iff {target : Char} {s : List Char} :
    hasBare target s = true ↔ Glyph.bare target ∈ glyphs s := by
  simp [hasBare]

end Text
end SearchFilter
