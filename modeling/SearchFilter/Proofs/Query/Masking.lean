/-
# Masking agrees with cutting into tokens

A query is masked with two flags, one for phrases and one for ranges, in a single run over its
characters (`sift`). Its tokens are cut off word by word, and in a word literal by literal
(`Layout`). Both come by the same places, so that they agree on each character:

| character | masked | cut |
| --- | --- | --- |
| quotes and brackets | kept, or blanked behind a backslash and in a phrase | start and end literals |
| any other, outside of literals | kept | a character of a word, a parenthesis, a blank |
| any other, in a literal | blanked | part of the literal |

In particular the colons that are left are the ones outside of literals (`sift_agrees`).
-/

import SearchFilter.Proofs.Query.Citation
import SearchFilter.Proofs.Query.Layout

namespace SearchFilter
namespace Query

/-- What masking keeps of each character: the character or nothing. A backslash at the end of the
text counts as two. -/
def sift : (quoted ranged : Bool) → List Char → List (Option Char)
  | _, _, [] => []
  | _, _, ['\\'] => [none, none]
  | quoted, ranged, '\\' :: _ :: r => none :: none :: sift quoted ranged r
  | quoted, ranged, c :: r =>
    if c = '"' then some c :: sift (!quoted) ranged r
    else if quoted then none :: sift quoted ranged r
    else if c = '[' ∨ c = '\x7b' then some c :: sift quoted true r
    else if c = ']' ∨ c = '\x7d' then some c :: sift quoted false r
    else (if ranged then none else some c) :: sift quoted ranged r

/-- A masked text has a blank for each character that is not kept. -/
theorem mask_eq_sift (quoted ranged : Bool) (s : List Char) :
    mask quoted ranged s = (sift quoted ranged s).map (·.getD ' ') := by
  fun_induction sift quoted ranged s <;> grind [mask]

/-- A character that masking keeps although it is part of a literal. -/
def isEnclosing (c : Char) : Bool := ['"', '[', '\x7b', ']', '\x7d'].contains c

/-! ### Texts place by place -/

namespace Place

variable {α : Type}

/-- Something of each character at its place. -/
def each (f : Place → Char → α) : Place → List Char → List α
  | _, [] => []
  | p, c :: r => f p c :: each f (p.next c) r

/-- The first character is taken where it stands, and the others behind it. -/
theorem each_cons (f : Place → Char → α) (p : Place) (c : Char) (r : List Char) :
    each f p (c :: r) = f p c :: each f (p.next c) r := rfl

/-- Two texts are taken one after the other, the second one at the place behind the first. -/
theorem each_append (f : Place → Char → α) (p : Place) (s t : List Char) :
    each f p (s ++ t) = each f p s ++ each f (p.after s) t := by
  induction s generalizing p with
  | nil => rfl
  | cons c s ih => rw [List.cons_append, each_cons, each_cons, after_cons, ih, List.cons_append]

/-- Something is taken of each character, and nothing more. -/
theorem length_each (f : Place → Char → α) (p : Place) (s : List Char) :
    (each f p s).length = s.length := by
  induction s generalizing p with
  | nil => rfl
  | cons c s ih => rw [each_cons, List.length_cons, List.length_cons, ih]

/-- A character is taken at the place behind those in front of it. -/
theorem getElem?_each (f : Place → Char → α) (p : Place) (s : List Char) (i : Nat) :
    (each f p s)[i]? = s[i]?.map (f (p.after (s.take i))) := by
  induction s generalizing p i with
  | nil => simp [each]
  | cons c s ih => cases i <;> simp [each_cons, ih]

/-- A character outside of all literals. -/
def outside (p : Place) (c : Char) : Bool := p == bare && !opensLiteral c

/-- A character that masking keeps. -/
def keeps (p : Place) (c : Char) : Bool :=
  !p.escaped && c != '\\' &&
    (c == '"' || !p.spot.isQuoted && (isEnclosing c || !p.spot.isRanged))

/-- What masking keeps of a character. -/
def kept (p : Place) (c : Char) : Option Char := if p.keeps c then some c else none

/-- What stands outside of literals is kept. -/
theorem keeps_of_outside {p : Place} {c : Char} (h : p.outside c = true) : p.keeps c = true := by
  simp only [outside, Bool.and_eq_true, beq_iff_eq, Bool.not_eq_true'] at h
  obtain ⟨rfl, hopens⟩ := h
  have hc : c ≠ '\\' := by
    rintro rfl
    exact absurd hopens (by decide)
  simp [keeps, bare, Spot.isQuoted, Spot.isRanged, hc]

/-- What is kept stands outside of literals, unless it encloses one. -/
theorem outside_of_keeps {p : Place} {c : Char} (hc : isEnclosing c = false)
    (h : p.keeps c = true) : p.outside c = true := by
  obtain ⟨spot, escaped⟩ := p
  simp only [isEnclosing, List.contains_eq_mem, decide_eq_false_iff_not, List.mem_cons,
    List.not_mem_nil, or_false, not_or] at hc
  cases spot <;> cases escaped <;>
    simp_all [keeps, outside, bare, opensLiteral, isEnclosing, Spot.isQuoted, Spot.isRanged]

end Place

/-! ### Masking -/

/-- A character other than a backslash is kept as its place says, and the rest is sifted from the
place behind it. -/
theorem sift_cons {c : Char} (hc : c ≠ '\\') (spot : Spot) (r : List Char) :
    sift spot.isQuoted spot.isRanged (c :: r) = Place.kept ⟨spot, false⟩ c ::
      sift (spot.next c).isQuoted (spot.next c).isRanged r := by
  rw [sift]
  · cases spot <;>
      simp only [Place.kept, Place.keeps, isEnclosing, Spot.next, Spot.isQuoted, Spot.isRanged] <;>
      grind
  · exact fun h _ => hc h
  · exact fun _ _ h _ => hc h

/-- **A text is masked character by character, each at its place.** -/
theorem exists_sift_eq (spot : Spot) (s : List Char) : ∃ t,
    sift spot.isQuoted spot.isRanged s = Place.each Place.kept ⟨spot, false⟩ s ++ t ∧
      (t = [] ∨ t = [none]) := by
  induction s using pair_induction generalizing spot with
  | nil => exact ⟨[], rfl, .inl rfl⟩
  | cut => exact ⟨[none], rfl, .inr rfl⟩
  | pair c r ih =>
    obtain ⟨t, hr, ht⟩ := ih spot
    refine ⟨t, ?_, ht⟩
    rw [sift, hr]
    rfl
  | char c r hc ih =>
    obtain ⟨t, hr, ht⟩ := ih (spot.next c)
    refine ⟨t, ?_, ht⟩
    rw [sift_cons hc, hr, Place.each_cons, Place.next_of_ne hc, List.cons_append]

/-! ### Literals -/

/-- No character of the text is outside of literals. -/
def IsHidden (p : Place) (s : List Char) : Prop := ∀ b ∈ Place.each Place.outside p s, b = false

/-- No character of a hidden text is outside of literals. -/
theorem IsHidden.each_eq {p : Place} {s : List Char} (h : IsHidden p s) :
    Place.each Place.outside p s = s.map fun _ => false := by
  rw [List.map_const', List.eq_replicate_iff]
  exact ⟨Place.length_each .., h⟩

/-- Two texts are hidden if each of them is at its own place. -/
theorem isHidden_append {p : Place} {s t : List Char} :
    IsHidden p (s ++ t) ↔ IsHidden p s ∧ IsHidden (p.after s) t := by
  rw [IsHidden, Place.each_append, List.forall_mem_append]
  rfl

/-- A text is hidden if its first character is, and the rest behind it. -/
theorem isHidden_cons {p : Place} {c : Char} {s : List Char} :
    IsHidden p (c :: s) ↔ p.outside c = false ∧ IsHidden (p.next c) s := by
  rw [IsHidden, Place.each_cons, List.forall_mem_cons]
  rfl

/-- An empty text is hidden everywhere. -/
theorem isHidden_nil (p : Place) : IsHidden p [] := nofun

/-- Only at the bare place does a character stand outside of literals. -/
theorem outside_of_ne {p : Place} (hp : p ≠ .bare) (c : Char) : p.outside c = false := by
  simp [Place.outside, hp]

/-- A pair of a backslash and a character is hidden in front of a hidden text. -/
theorem isHidden_pair {spot : Spot} {c : Char} {u : List Char} (hu : IsHidden ⟨spot, false⟩ u) :
    IsHidden ⟨spot, false⟩ ('\\' :: c :: u) := by
  refine isHidden_cons.2 ⟨by simp [Place.outside, opensLiteral], isHidden_cons.2 ⟨?_, hu⟩⟩
  exact outside_of_ne (by simp [Place.bare, Place.next]) c

/-- What is hidden between two characters is so with both of them. -/
theorem isHidden_enclose {p : Place} {inner : Spot} (hinner : inner ≠ .bare)
    {opening closing : Char} {u r : List Char} (hopening : p.outside opening = false)
    (hin : p.next opening = ⟨inner, false⟩) (hu : IsHidden ⟨inner, false⟩ u)
    (hafter : Place.after ⟨inner, false⟩ u = ⟨inner, false⟩)
    (hr : IsHidden (Place.next ⟨inner, false⟩ closing) r) :
    IsHidden p (opening :: (u ++ closing :: r)) := by
  rw [isHidden_cons, hin, isHidden_append, hafter, isHidden_cons]
  exact ⟨hopening, hu, outside_of_ne (by simp [Place.bare, hinner]) closing, hr⟩

/-- The inside of a phrase is hidden in it. -/
theorem InPhrase.isHidden {u : List Char} (hu : InPhrase u) {spot : Spot}
    (hspot : spot = .phrase ∨ spot = .phraseInRange) : IsHidden ⟨spot, false⟩ u := by
  have hbare : (⟨spot, false⟩ : Place) ≠ .bare := by rcases hspot with rfl | rfl <;> decide
  induction hu with
  | nil => exact isHidden_nil _
  | @char c u hc hu ih =>
    have hnext : Place.next ⟨spot, false⟩ c = ⟨spot, false⟩ := by
      rw [Place.next_of_ne hc.2]
      rcases hspot with rfl | rfl <;> simp [Spot.next, hc.1]
    exact isHidden_cons.2 ⟨outside_of_ne hbare c, by rwa [hnext]⟩
  | pair _ ih => exact isHidden_pair ih

/-- The inside of a range is hidden in it. -/
theorem InRange.isHidden {u : List Char} (hu : InRange u) : IsHidden ⟨.range, false⟩ u := by
  induction hu with
  | nil => exact isHidden_nil _
  | @char c u hc hu ih =>
    have hnext : Place.next ⟨.range, false⟩ c = ⟨.range, false⟩ := by
      rw [Place.next_of_ne hc.2.1]
      simp [Spot.next, hc]
    exact isHidden_cons.2 ⟨outside_of_ne (by decide) c, by rwa [hnext]⟩
  | pair _ ih => exact isHidden_pair ih
  | phrase hp _ ih =>
    exact isHidden_enclose (by decide) rfl rfl (hp.isHidden (.inr rfl)) (hp.passes (.inr rfl)).after ih

/-- **A literal is hidden in full.** -/
theorem IsLiteral.isHidden {l : List Char} (hl : IsLiteral l) : IsHidden .bare l := by
  cases hl with
  | pair c => exact isHidden_pair (isHidden_nil _)
  | phrase hu =>
    exact isHidden_enclose (by decide) rfl rfl (hu.isHidden (.inl rfl)) (hu.passes (.inl rfl)).after
      (isHidden_nil _)
  | range hopening hu hclosing =>
    refine isHidden_enclose (by decide) ?_ ?_ hu.isHidden hu.passes.after (isHidden_nil _)
    · rcases hopening with rfl | rfl <;> rfl
    · rcases hopening with rfl | rfl <;> rfl

/-- A literal that the end of the text cuts off is hidden as well. -/
theorem IsCutOff.isHidden {u : List Char} (hu : IsCutOff u) : IsHidden .bare u := by
  obtain ⟨-, v, -, hl⟩ := hu
  exact (isHidden_append.1 hl.isHidden).1

/-! ### Tokens -/

/-- A character that opens no literal stands outside of literals at the bare place. -/
theorem outside_of_not_opensLiteral {c : Char} (h : opensLiteral c = false) :
    Place.bare.outside c = true := by simp [Place.outside, h]

/-- Blanks between tokens stand outside of literals. -/
theorem each_outside_of_allBlank {b : List Char} (hb : Text.allBlank b = true) :
    Place.bare.each Place.outside b = b.map fun _ => true := by
  induction b with
  | nil => rfl
  | cons c b ih =>
    simp only [Text.allBlank, List.all_cons, Bool.and_eq_true] at hb
    have hc : opensLiteral c = false := by
      simp only [opensLiteral, List.contains_eq_mem, decide_eq_false_iff_not, List.mem_cons,
        List.not_mem_nil, or_false, not_or]
      exact ⟨ne_of_isBlank hb.1 (by decide), ne_of_isBlank hb.1 (by decide),
        ne_of_isBlank hb.1 (by decide), ne_of_isBlank hb.1 (by decide)⟩
    rw [Place.each_cons, outside_of_not_opensLiteral hc, next_of_isBlank hb.1, ih hb.2,
      List.map_cons]

/-- Blanks between tokens lead nowhere. -/
theorem after_of_allBlank {b : List Char} (hb : Text.allBlank b = true) :
    Place.bare.after b = .bare := by
  induction b with
  | nil => rfl
  | cons c b ih =>
    simp only [Text.allBlank, List.all_cons, Bool.and_eq_true] at hb
    rw [Place.after_cons, next_of_isBlank hb.1, ih hb.2]

/-- The marks of a word say which of its characters stand outside of literals. -/
theorem WordText.each_eq {r w : List Char} {marks : List Bool} (h : WordText r w marks) :
    Place.bare.each Place.outside w = marks := by
  induction h with
  | nil => rfl
  | char _ hopens _ ih =>
    rw [Place.each_cons, outside_of_not_opensLiteral hopens, next_of_not_opensLiteral hopens, ih]
  | literal hl _ ih =>
    obtain ⟨n, hpasses⟩ := hl.passes
    rw [Place.each_append, hl.isHidden.each_eq, show Place.bare.after _ = _ from hpasses.after]
    exact congrArg _ ih
  | cutOff _ hu => exact hu.isHidden.each_eq

/-- The marks of a token say which of its characters stand outside of literals. -/
theorem Token.Stands.each_eq {r : List Char} {t : Token} {marks : List Bool}
    (h : t.Stands r marks) : Place.bare.each Place.outside t.text = marks := by
  cases h with
  | opening => rfl
  | closing => rfl
  | word _ _ hw => exact hw.each_eq

/-- A token that something follows leaves nothing open. -/
theorem Token.Stands.isFinished {r : List Char} {t : Token} {marks : List Bool}
    (h : t.Stands r marks) (hr : r ≠ []) : IsFinished t.text := by
  cases h with
  | opening => rfl
  | closing => rfl
  | word _ _ hw => exact hw.isFinished hr

/-- **What lies outside of literals in a layout** does so in one run over the text. -/
theorem Layout.each_eq {s : List Char} {ts : List Token} {marks : List Bool}
    (h : Layout s ts marks) : Place.bare.each Place.outside s = marks := by
  induction h with
  | blanks hb => exact each_outside_of_allBlank hb
  | @token b r t ts marks rest hb ht _ ih =>
    rw [Place.each_append, each_outside_of_allBlank hb, after_of_allBlank hb, Place.each_append,
      ht.each_eq]
    by_cases hr : r = []
    · rw [← ih, hr]
      rfl
    · rw [show Place.bare.after t.text = _ from ht.isFinished hr, ih]

/-! ### Agreement -/

/-- A character is kept if it stands in the text at a place that keeps it. -/
theorem getElem?_sift {s : List Char} {i : Nat} {c : Char} :
    (sift false false s)[i]? = some (some c) ↔
      s[i]? = some c ∧ (Place.bare.after (s.take i)).keeps c = true := by
  obtain ⟨t, hsift, ht⟩ := exists_sift_eq .bare s
  rw [show sift false false s = _ from hsift]
  by_cases hi : i < s.length
  · rw [List.getElem?_append_left (by rwa [Place.length_each]), Place.getElem?_each,
      List.getElem?_eq_getElem hi, Option.map_some, Option.some.injEq, Option.some.injEq,
      ← Place.bare, Place.kept]
    grind
  · -- behind the text there is at most one more character, which is not kept
    have hs : s[i]? = none := List.getElem?_eq_none (Nat.le_of_not_lt hi)
    rw [List.getElem?_append_right (by rw [Place.length_each]; omega), hs]
    rcases ht with rfl | rfl
    · simp
    · rw [List.getElem?_singleton]
      split <;> simp

/-- A masked text has a colon where a colon is kept. -/
theorem getElem?_mask_colon {s : List Char} {i : Nat} :
    (mask false false s)[i]? = some ':' ↔ (sift false false s)[i]? = some (some ':') := by
  rw [mask_eq_sift, List.getElem?_map, Option.map_eq_some_iff]
  constructor
  · rintro ⟨kept, hkept, hcolon⟩
    cases kept with
    | none => exact absurd hcolon (by decide)
    | some c => rw [hkept, ← hcolon]; rfl
  · exact fun h => ⟨_, h, rfl⟩

/-- The marks of a layout say of each character whether it stands outside of literals. -/
theorem Layout.getElem?_marks {s : List Char} {ts : List Token} {marks : List Bool}
    (h : Layout s ts marks) {i : Nat} {c : Char} (hc : s[i]? = some c) :
    marks[i]? = some ((Place.bare.after (s.take i)).outside c) := by
  rw [← h.each_eq, Place.getElem?_each, hc, Option.map_some]

/-- **Masking and cutting into tokens agree on literals.** There is one way in which the tokens lie
in a text. A character that is no quote and no bracket is kept by masking just where it stands
outside of literals there; a quote or a bracket that stands outside of literals is kept as well; and
the colons of the masked text are the colons that stand outside of literals. -/
theorem sift_agrees (s : List Char) : ∃ marks : List Bool, Layout s (tokens s) marks ∧
    (∀ ts marks', Layout s ts marks' → marks' = marks) ∧
    mask false false s = (sift false false s).map (·.getD ' ') ∧
    (∀ (i : Nat) (c : Char), s[i]? = some c →
      (isEnclosing c = false →
        ((sift false false s)[i]? = some (some c) ↔ marks[i]? = some true)) ∧
      (marks[i]? = some true → (sift false false s)[i]? = some (some c))) ∧
    ∀ i : Nat, (mask false false s)[i]? = some ':' ↔ s[i]? = some ':' ∧ marks[i]? = some true := by
  obtain ⟨⟨marks, hlayout⟩, -, -⟩ := exists_layout s
  have hkept {i : Nat} {c : Char} (hc : s[i]? = some c) (hplain : isEnclosing c = false) :
      (sift false false s)[i]? = some (some c) ↔ marks[i]? = some true := by
    rw [getElem?_sift, hlayout.getElem?_marks hc, Option.some.injEq]
    exact ⟨fun h => Place.outside_of_keeps hplain h.2, fun h => ⟨hc, Place.keeps_of_outside h⟩⟩
  refine ⟨marks, hlayout, fun ts marks' h => h.each_eq.symm.trans hlayout.each_eq,
    mask_eq_sift .., fun i c hc => ⟨hkept hc, fun h => ?_⟩, fun i => ?_⟩
  · rw [hlayout.getElem?_marks hc, Option.some.injEq] at h
    exact getElem?_sift.2 ⟨hc, Place.keeps_of_outside h⟩
  · rw [getElem?_mask_colon]
    constructor
    · intro h
      have hc := (getElem?_sift.1 h).1
      exact ⟨hc, (hkept hc (by decide)).1 h⟩
    · exact fun ⟨hc, h⟩ => (hkept hc (by decide)).2 h

/-- Of two colons the one in a phrase is blanked, and a stray bracket stays. -/
theorem sift_of_two_colons :
    Layout ['a', ':', '"', ':', '"', ']'] (tokens ['a', ':', '"', ':', '"', ']'])
      [true, true, false, false, false, true] ∧
    (sift false false ['a', ':', '"', ':', '"', ']'])[1]? = some (some ':') ∧
    (sift false false ['a', ':', '"', ':', '"', ']'])[5]? = some (some ']') ∧
    (mask false false ['a', ':', '"', ':', '"', ']'])[3]? ≠ some ':' := by
  have hword : WordText [] ['a', ':', '"', ':', '"', ']'] [true, true, false, false, false, true] :=
    .char (by decide) (by decide) (.char (by decide) (by decide)
      (.literal (.phrase (.char (by decide) .nil)) (.char (by decide) (by decide) .nil)))
  have hstands : Token.Stands [] ⟨.fielded, ['a', ':', '"', ':', '"', ']']⟩ _ :=
    .word (by decide) (by simp) hword atBoundary_nil
  have hlaid := (Layout.blanks (b := []) rfl).stands hstands
  obtain ⟨marks, hlayout, hunique, -, hkept, hcolon⟩ := sift_agrees ['a', ':', '"', ':', '"', ']']
  obtain rfl := hunique _ _ hlaid
  exact ⟨hlayout, ((hkept 1 ':' rfl).1 (by decide)).2 rfl, (hkept 5 ']' rfl).2 rfl,
    fun h => absurd ((hcolon 3).1 h).2 (by decide)⟩

end Query
end SearchFilter
