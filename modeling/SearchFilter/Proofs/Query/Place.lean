/-
# Places in a query

Reading a query from the left, one always stands at some spot of it (bare, in a
phrase, in a range, in a phrase inside a range), perhaps right behind a backslash.
Spot and backslash together are a *place*; one character leads from place to place.

Main statements:

* a query is *finished* when its last character leads back to the bare place: no
  phrase, range or backslash is left open (`IsFinished`);
* the first word of a text is cut off by what stands at its places (`Cuts.spanWord_eq`),
  and only the last word of a text can be unfinished;
* a text is made of blanks, parentheses and words (`word_induction`).
-/

import SearchFilter.Query.Token

namespace SearchFilter
namespace Query

/-- A place in a query: the spot, and whether a backslash has just been read that
takes the next character as it is. -/
structure Place where
  spot : Spot
  escaped : Bool
deriving DecidableEq, Repr

namespace Place

/-- Outside of everything. -/
def bare : Place := ⟨.bare, false⟩

/-- The place behind one more character. -/
def next (p : Place) (c : Char) : Place :=
  if p.escaped then ⟨p.spot, false⟩
  else if c = '\\' then ⟨p.spot, true⟩
  else ⟨p.spot.next c, false⟩

/-- The place behind a text. -/
def after (p : Place) (s : List Char) : Place := s.foldl next p

/-- Nothing leads nowhere. -/
@[simp] theorem after_nil (p : Place) : p.after [] = p := rfl

/-- A text leads on from the place behind its first character. -/
@[simp] theorem after_cons (p : Place) (c : Char) (s : List Char) :
    p.after (c :: s) = (p.next c).after s := rfl

/-- Two texts lead on from the place behind the first one. -/
@[simp] theorem after_append (p : Place) (s t : List Char) :
    p.after (s ++ t) = (p.after s).after t := List.foldl_append

/-- A pair leads nowhere. -/
@[simp] theorem next_next_backslash (spot : Spot) (c : Char) :
    ((⟨spot, false⟩ : Place).next '\\').next c = ⟨spot, false⟩ := rfl

/-- Without a backslash a character leads where its spot does. -/
theorem next_of_ne {c : Char} (h : c ≠ '\\') (spot : Spot) :
    (⟨spot, false⟩ : Place).next c = ⟨spot.next c, false⟩ := by
  simp [next, h]

/-- The number of characters of a text that are marked, each at its own place. -/
def marks (f : Place → Char → Bool) : Place → List Char → Nat
  | _, [] => 0
  | p, c :: r => (if f p c then 1 else 0) + marks f (p.next c) r

/-- An empty text has no marks. -/
@[simp] theorem marks_nil (f : Place → Char → Bool) (p : Place) : marks f p [] = 0 := rfl

/-- The marks of a text are those of its first character and of the rest. -/
theorem marks_cons (f : Place → Char → Bool) (p : Place) (c : Char) (r : List Char) :
    marks f p (c :: r) = (if f p c then 1 else 0) + marks f (p.next c) r := rfl

/-- The marks of two texts add up, those of the second one taken behind the first. -/
theorem marks_append (f : Place → Char → Bool) (p : Place) (s t : List Char) :
    marks f p (s ++ t) = marks f p s + marks f (p.after s) t := by
  induction s generalizing p with
  | nil => simp
  | cons c r ih => simp only [List.cons_append, marks_cons, after_cons, ih]; omega

/-- The characters that end words. -/
def ends (p : Place) (c : Char) : Bool := p == bare && endsWord c

/-- At the bare place words end where they end in the text. -/
@[simp] theorem ends_bare (c : Char) : bare.ends c = endsWord c := rfl

/-- At no other place does a word end. -/
theorem ends_of_ne {p : Place} (h : p ≠ bare) (c : Char) : p.ends c = false := by simp [ends, h]

end Place

/-- Whether no phrase, range or backslash is open at the end of a text. -/
def IsFinished (s : List Char) : Prop := Place.bare.after s = Place.bare

instance (s : List Char) : Decidable (IsFinished s) := inferInstanceAs (Decidable (_ = _))

/-- Behind a finished text only what follows decides whether anything is left open. -/
theorem isFinished_append {u : List Char} (hu : IsFinished u) (s : List Char) :
    IsFinished (u ++ s) ↔ IsFinished s := by
  rw [IsFinished, IsFinished, Place.after_append, hu]

/-- A character that leads nowhere leaves nothing open. -/
theorem isFinished_cons {c : Char} (hc : Place.bare.next c = .bare) (s : List Char) :
    IsFinished (c :: s) ↔ IsFinished s := by
  rw [IsFinished, IsFinished, Place.after_cons, hc]

/-- A blank is a special character nowhere. -/
theorem ne_of_isBlank {c d : Char} (hc : Text.isBlank c = true) (hd : Text.isBlank d = false) :
    c ≠ d := by
  rintro rfl
  rw [hc] at hd
  cases hd

/-- A blank outside of everything leads nowhere. -/
theorem next_of_isBlank {b : Char} (h : Text.isBlank b = true) : Place.bare.next b = .bare := by
  have ne {d : Char} (hd : Text.isBlank d = false) : b ≠ d := ne_of_isBlank h hd
  rw [Place.bare, Place.next_of_ne (ne (by decide))]
  simp [Spot.next, ne (d := '"') (by decide), ne (d := '[') (by decide),
    ne (d := '\x7b') (by decide)]

/-- Nothing in the text ends a word that it is the beginning of. -/
def IsUnbroken (p : Place) (s : List Char) : Prop := Place.marks Place.ends p s = 0

instance (p : Place) (s : List Char) : Decidable (IsUnbroken p s) :=
  inferInstanceAs (Decidable (_ = _))

/-- Two texts are unbroken if each of them is at its own place. -/
theorem isUnbroken_append {p : Place} {s t : List Char} :
    IsUnbroken p (s ++ t) ↔ IsUnbroken p s ∧ IsUnbroken (p.after s) t := by
  simp [IsUnbroken, Place.marks_append]

/-- A text is unbroken if its first character ends no word and the rest is unbroken. -/
theorem isUnbroken_cons {p : Place} {c : Char} {r : List Char} :
    IsUnbroken p (c :: r) ↔ p.ends c = false ∧ IsUnbroken (p.next c) r := by
  cases h : p.ends c <;> simp [IsUnbroken, Place.marks_cons, h]

/-- An empty text ends no word. -/
@[simp] theorem isUnbroken_nil (p : Place) : IsUnbroken p [] := rfl

/-- A text that goes on with the end of a word, or with nothing. -/
def AtBoundary (s : List Char) : Prop := ∀ c ∈ s.head?, endsWord c = true

/-- The end of a text is the end of a word. -/
@[simp] theorem atBoundary_nil : AtBoundary [] := by simp [AtBoundary]

/-- A text goes on with the end of a word if its first character ends words. -/
@[simp] theorem atBoundary_cons {c : Char} {r : List Char} :
    AtBoundary (c :: r) ↔ endsWord c = true := by simp [AtBoundary]

/-- A text that is one whole word: none of it ends the word, and nothing is left open. -/
structure IsWord (w : List Char) : Prop where
  ne_nil : w ≠ []
  unbroken : IsUnbroken .bare w
  finished : IsFinished w

/-- `w` is the first word of `w ++ r`. Only the last word of a text can be unfinished. -/
structure Cuts (w r : List Char) : Prop where
  ne_nil : w ≠ []
  unbroken : IsUnbroken .bare w
  boundary : AtBoundary r
  finished : r ≠ [] → IsFinished w

/-- The first word of a finished text is finished, and so is the rest. -/
theorem Cuts.isFinished {w r : List Char} (h : Cuts w r) (hs : IsFinished (w ++ r)) :
    IsFinished w ∧ IsFinished r := by
  have hw : IsFinished w := by
    by_cases hr : r = []
    · simpa [hr] using hs
    · exact h.finished hr
  exact ⟨hw, (isFinished_append hw r).1 hs⟩

/-! ### Cutting words -/

/-- No word is cut off where the text goes on with the end of one. -/
theorem spanWord_of_atBoundary {r : List Char} (h : AtBoundary r) :
    spanWord .bare r = ([], r) := by
  cases r with
  | nil => rfl
  | cons c r =>
    rw [atBoundary_cons] at h
    rw [spanWord, if_pos ⟨rfl, h⟩]
    rintro d _ rfl
    exact absurd h (by decide)

/-- A word goes on behind an unbroken text that leaves no backslash open. -/
theorem spanWord_append_of_unbroken {spot spot' : Spot} {u : List Char}
    (hu : IsUnbroken ⟨spot, false⟩ u) (ha : Place.after ⟨spot, false⟩ u = ⟨spot', false⟩)
    (v : List Char) :
    spanWord spot (u ++ v) = (u ++ (spanWord spot' v).1, (spanWord spot' v).2) := by
  fun_induction spanWord spot u with
  | case1 =>
    obtain rfl : _ = spot' := by simpa using ha
    rfl
  | case2 spot c r word rest hcut ih =>
    rw [isUnbroken_cons, isUnbroken_cons] at hu
    rw [List.cons_append, List.cons_append, spanWord, ih hu.2.2 (by simpa using ha)]
    rfl
  | case3 spot c r hne h =>
    rw [isUnbroken_cons] at hu
    simp [Place.ends, Place.bare, h.1, h.2] at hu
  | case4 spot c r hne h word rest hcut ih =>
    have hc : c ≠ '\\' := by
      rintro rfl
      cases r with
      | nil => simp [Place.next] at ha
      | cons d r => exact hne d r rfl rfl
    rw [isUnbroken_cons, Place.next_of_ne hc] at hu
    rw [Place.after_cons, Place.next_of_ne hc] at ha
    rw [List.cons_append, spanWord, if_neg h, ih hu.2 ha]
    · rfl
    · simp [hc]

/-- An unbroken text at the end of a query is one word, finished or not. -/
theorem spanWord_of_unbroken {spot : Spot} {u : List Char} (hu : IsUnbroken ⟨spot, false⟩ u) :
    spanWord spot u = (u, []) := by
  fun_induction spanWord spot u with
  | case1 => rfl
  | case2 spot c r word rest hcut ih =>
    rw [isUnbroken_cons, isUnbroken_cons] at hu
    obtain ⟨rfl, rfl⟩ : word = r ∧ rest = [] := by simpa [hcut] using ih hu.2.2
    rfl
  | case3 spot c r hne h =>
    rw [isUnbroken_cons] at hu
    simp [Place.ends, Place.bare, h.1, h.2] at hu
  | case4 spot c r hne h word rest hcut ih =>
    rw [isUnbroken_cons] at hu
    by_cases hc : c = '\\'
    · subst hc
      cases r with
      | nil => simpa [spanWord] using hcut.symm
      | cons d r => exact absurd rfl (hne d r rfl)
    · rw [Place.next_of_ne hc] at hu
      obtain ⟨rfl, rfl⟩ : word = r ∧ rest = [] := by simpa [hcut] using ih hu.2
      rfl

/-- What is cut off is unbroken. Something is left only behind a finished word, and it
goes on with the end of that word. -/
theorem spanWord_spec (spot : Spot) (s : List Char) :
    IsUnbroken ⟨spot, false⟩ (spanWord spot s).1 ∧ AtBoundary (spanWord spot s).2 ∧
      ((spanWord spot s).2 ≠ [] → Place.after ⟨spot, false⟩ (spanWord spot s).1 = .bare) := by
  fun_induction spanWord spot s with
  | case1 => simp
  | case2 spot c r word rest hcut ih =>
    rw [hcut] at ih
    refine ⟨?_, ih.2.1, by simpa using ih.2.2⟩
    rw [isUnbroken_cons, isUnbroken_cons]
    exact ⟨by cases spot <;> rfl, Place.ends_of_ne (by simp [Place.next, Place.bare]) _, ih.1⟩
  | case3 spot c r hne h =>
    exact ⟨isUnbroken_nil _, by simpa using h.2, fun _ => by simp [h.1, Place.bare]⟩
  | case4 spot c r hne h word rest hcut ih =>
    rw [hcut] at ih
    by_cases hc : c = '\\'
    · -- a backslash at the end of the text
      subst hc
      cases r with
      | cons d r => exact absurd rfl (hne d r rfl)
      | nil =>
        obtain ⟨rfl, rfl⟩ : word = [] ∧ rest = [] := by simpa [spanWord] using hcut.symm
        refine ⟨?_, by simp⟩
        rw [isUnbroken_cons]
        exact ⟨by cases spot <;> rfl, rfl⟩
    · rw [isUnbroken_cons, Place.after_cons, Place.next_of_ne hc]
      refine ⟨⟨?_, ih.1⟩, ih.2⟩
      by_cases hs : spot = .bare
      · simp_all [Place.ends]
      · exact Place.ends_of_ne (by simp [Place.bare, hs]) c

/-- **The first word is what is cut off,** and the rest is what is left. -/
theorem Cuts.spanWord_eq {w r : List Char} (h : Cuts w r) : spanWord .bare (w ++ r) = (w, r) := by
  by_cases hr : r = []
  · rw [hr, List.append_nil]
    exact spanWord_of_unbroken h.unbroken
  · rw [spanWord_append_of_unbroken h.unbroken (h.finished hr), spanWord_of_atBoundary h.boundary]
    simp

/-- A text that does not start with the end of a word starts with a word. -/
theorem cuts_spanWord {c : Char} {r : List Char} (h : endsWord c = false) :
    Cuts (spanWord .bare (c :: r)).1 (spanWord .bare (c :: r)).2 := by
  obtain ⟨hu, hb, hc⟩ := spanWord_spec .bare (c :: r)
  refine ⟨fun hn => ?_, hu, hb, hc⟩
  have hl := spanWord_length_lt (r := r) h
  have he := congrArg List.length (spanWord_append .bare (c :: r))
  simp only [hn, List.nil_append] at he
  omega

/-! ### The tokens of a text -/

/-- An empty text has no tokens. -/
@[simp] theorem tokens_nil : tokens [] = [] := by rw [tokens]

/-- A blank is part of no token in front of a text. -/
theorem tokens_blank {c : Char} (h : Text.isBlank c = true) (r : List Char) :
    tokens (c :: r) = tokens r := by
  rw [tokens, if_pos h]

/-- Blanks in front of a text are part of no token. -/
theorem tokens_of_allBlank {w : List Char} (h : Text.allBlank w = true) (r : List Char) :
    tokens (w ++ r) = tokens r := by
  induction w with
  | nil => rfl
  | cons c w ih =>
    simp only [Text.allBlank, List.all_cons, Bool.and_eq_true] at h
    rw [List.cons_append, tokens_blank h.1, ih h.2]

/-- An opening parenthesis is a token of its own. -/
@[simp] theorem tokens_opening (r : List Char) :
    tokens ('(' :: r) = ⟨.opening, ['(']⟩ :: tokens r := by
  rw [tokens, if_neg (by decide), if_pos rfl]

/-- A closing parenthesis is a token of its own. -/
@[simp] theorem tokens_closing (r : List Char) :
    tokens (')' :: r) = ⟨.closing, [')']⟩ :: tokens r := by
  rw [tokens, if_neg (by decide), if_neg (by decide), if_pos rfl]

/-- The first word of a text is its first token. -/
theorem Cuts.tokens_eq {w r : List Char} (h : Cuts w r) :
    tokens (w ++ r) = ⟨classify w r, w⟩ :: tokens r := by
  obtain ⟨c, w, rfl⟩ := List.exists_cons_of_ne_nil h.ne_nil
  have hc : endsWord c = false := (isUnbroken_cons.1 h.unbroken).1
  simp only [endsWord, Bool.or_eq_false_iff, beq_eq_false_iff_ne] at hc
  have hs := h.spanWord_eq
  rw [List.cons_append] at hs ⊢
  rw [tokens, if_neg (by simp [hc]), if_neg hc.1.2, if_neg hc.2, hs]

/-- **A text is made of blanks, parentheses and words.** What holds of the empty text,
and of a text with one of these in front if it holds of the rest, holds of every text. -/
@[elab_as_elim] theorem word_induction {P : List Char → Prop} (nil : P [])
    (blank : ∀ c r, Text.isBlank c = true → P r → P (c :: r))
    (opening : ∀ r, P r → P ('(' :: r)) (closing : ∀ r, P r → P (')' :: r))
    (word : ∀ w r, Cuts w r → P r → P (w ++ r)) (s : List Char) : P s := by
  fun_induction tokens s with
  | case1 => exact nil
  | case2 c r h ih => exact blank c r h ih
  | case3 r _ ih => exact opening r ih
  | case4 r _ _ ih => exact closing r ih
  | case5 c r h1 h2 h3 cut ih =>
    rw [← spanWord_append .bare (c :: r)]
    exact word _ _ (cuts_spanWord (by simp_all [endsWord])) ih

end Query
end SearchFilter
