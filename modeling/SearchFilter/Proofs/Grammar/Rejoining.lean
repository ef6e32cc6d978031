/-
# Tokens that are joined again

Where no word of a query is spread over the implicit fields, all that the expansion does is
to join its tokens again, with its own blanks between them. The grammar reads the same from
both texts, if the query is *parted* (`isParted`): no text stands right behind a closing
parenthesis. In general the expansion parts the query (`parted`), since it puts a blank
behind every such parenthesis:

    f:(v)f:w             read as   f:(v) f:w
    f:((v)^2 OR w)       read as   f:((v) ^2 OR w)
-/

import SearchFilter.Proofs.Grammar.Pattern
import SearchFilter.Proofs.Grammar.Respacing

namespace SearchFilter
namespace Query

/-- The tokens of a query that stand in no group of a field. -/
def ungrouped : (left : Option Token.Kind) → (groups : List Bool) → List Token → List Token
  | _, _, [] => []
  | left, groups, t :: rest =>
    (if groups.contains true then [] else [t]) ++
      ungrouped (some t.kind) (groupsAfter left groups t.kind) rest

/-- Whether every closing parenthesis outside of words stands at the end of a text, in front
of a blank or in front of a parenthesis. -/
def isParted : Place → List Char → Bool
  | _, [] => true
  | p, c :: r => (p != .bare || c != ')' || r.head?.all endsWord) && isParted (p.next c) r

/-- The text with a blank behind each closing parenthesis at which it is not parted. -/
def parted : Place → List Char → List Char
  | _, [] => []
  | p, c :: r =>
    if p = .bare ∧ c = ')' ∧ r.head?.all endsWord = false then c :: ' ' :: parted (p.next c) r
    else c :: parted (p.next c) r

end Query

namespace Grammar

open Query

/-! ### Parted texts -/

/-- A text is at the end of a word if its first character ends words, where it has one. -/
theorem atBoundary_iff {s : List Char} : AtBoundary s ↔ s.head?.all endsWord = true := by
  cases s <;> simp

/-- Parting a text does not change its first character. -/
theorem head?_parted (p : Place) (s : List Char) : (parted p s).head? = s.head? := by
  cases s with
  | nil => rfl
  | cons c s => rw [parted]; split <;> rfl

/-- Where a text is parted already, nothing is changed. -/
theorem parted_eq_self {p : Place} {s : List Char} (h : isParted p s = true) : parted p s = s := by
  induction s generalizing p with
  | nil => rfl
  | cons c s ih =>
    rw [isParted, Bool.and_eq_true] at h
    rw [parted, if_neg, ih h.2]
    rintro ⟨rfl, rfl, hs⟩
    simp [hs] at h

/-- A text is parted once blanks have been put in. -/
theorem isParted_parted (p : Place) (s : List Char) : isParted p (parted p s) = true := by
  induction s generalizing p with
  | nil => rfl
  | cons c s ih =>
    rw [parted]
    split
    · rename_i h
      obtain ⟨rfl, rfl, -⟩ := h
      exact ih _
    · rename_i h
      rw [isParted, head?_parted, ih, Bool.and_true]
      by_contra hnot
      simp_all

/-- In an unbroken text no blanks are put in. -/
theorem parted_append {p : Place} {u : List Char} (hu : IsUnbroken p u) (s : List Char) :
    parted p (u ++ s) = u ++ parted (p.after u) s := by
  induction u generalizing p with
  | nil => rfl
  | cons c u ih =>
    obtain ⟨hends, hu⟩ := isUnbroken_cons.1 hu
    rw [List.cons_append, parted, if_neg, ih hu]
    · rfl
    · rintro ⟨rfl, rfl, -⟩
      exact absurd hends (by decide)

/-- A part of a parted text is parted at its place. -/
theorem isParted_append {p : Place} {u s : List Char} (h : isParted p (u ++ s) = true) :
    isParted (p.after u) s = true := by
  induction u generalizing p with
  | nil => exact h
  | cons c u ih =>
    rw [List.cons_append, isParted, Bool.and_eq_true] at h
    exact ih h.2

/-- The kind of a word depends on the first character behind it alone. -/
theorem classify_congr {r r' : List Char} (h : r.head? = r'.head?) (w : List Char) :
    classify w r = classify w r' := by
  rw [classify, classify, h]

/-- A query has the same tokens when it is parted. -/
theorem tokens_parted (s : List Char) : tokens (parted .bare s) = tokens s := by
  induction s using word_induction with
  | nil => rfl
  | blank c r hc ih =>
    rw [parted, if_neg, next_of_isBlank hc, tokens_blank hc, tokens_blank hc, ih]
    rintro ⟨-, rfl, -⟩
    exact absurd hc (by decide)
  | opening r ih =>
    rw [parted, if_neg (by simp), tokens_opening, tokens_opening]
    exact congrArg _ ih
  | closing r ih =>
    rw [parted]
    split
    · rw [tokens_closing, tokens_closing, tokens_blank (by decide)]
      exact congrArg _ ih
    · rw [tokens_closing, tokens_closing]
      exact congrArg _ ih
  | word w r hcut ih =>
    have hkind := classify_congr (head?_parted (Place.bare.after w) r) w
    have hcut' : Cuts w (parted (Place.bare.after w) r) :=
      ⟨hcut.ne_nil, hcut.unbroken, by
        rw [atBoundary_iff, head?_parted, ← atBoundary_iff]; exact hcut.boundary,
        fun h => hcut.finished (by rintro rfl; exact h rfl)⟩
    rw [parted_append hcut.unbroken, hcut'.tokens_eq, hcut.tokens_eq, hkind]
    by_cases hr : r = []
    · rw [hr]
      rfl
    · rw [hcut.finished hr, ih]

/-! ### Words in front of other texts -/

/-- Signs can be put in front of respaced texts. -/
theorem loose_signs {g u : List Char} (hg : ∀ x ∈ g, isSign x = true) {s t : List Char}
    (h : Loose (u ++ s) (u ++ t)) : Loose (g ++ u ++ s) (g ++ u ++ t) := by
  induction g with
  | nil => exact h
  | cons x g ih =>
    obtain ⟨hx, hg⟩ := List.forall_mem_cons.1 hg
    exact Respaced.loose (.sign hx (ih hg))

/-- **A finished word stands in front of what follows it,** whatever blanks are put there. -/
theorem loose_word {w r e : List Char} (hw : IsWord w) (hr : AtBoundary r)
    (he : Follows (classify w r) e) (h : Loose r e) : Loose (w ++ r) (w ++ e) := by
  -- signs can be respaced one by one, and the word behind them at once
  obtain ⟨g, u, hg, hu, rfl⟩ : ∃ g u, (∀ x ∈ g, isSign x = true) ∧
      (∀ c ∈ u.head?, isSign c = false) ∧ w = g ++ u := by
    refine ⟨w.takeWhile isSign, w.dropWhile isSign, List.all_eq_true.1 List.all_takeWhile, ?_,
      List.takeWhile_append_dropWhile.symm⟩
    intro c hc
    have hnot := List.head?_dropWhile_not isSign w
    rw [hc] at hnot
    simpa using hnot
  refine loose_signs hg ?_
  by_cases hne : u = []
  · rw [hne]
    exact h
  · have hstrip : stripSigns (g ++ u) = u :=
      (stripSigns_signs hg u).trans (stripSigns_of_not_sign hu)
    have hsign : classify (g ++ u) r ≠ .sign := fun hs => by
      rcases eq_of_classify_sign hs with h | h <;> rw [h] at hstrip <;> exact hne hstrip.symm
    have hafter : Place.bare.after g = .bare := (passes_signs hg).after
    have hword : IsWord u := by
      have hunbroken := (isUnbroken_append.1 hw.unbroken).2
      have hfinished := hw.finished
      rw [IsFinished, Place.after_append] at hfinished
      rw [hafter] at hunbroken hfinished
      exact ⟨hne, hunbroken, hfinished⟩
    have hend : AtBoundary e := by
      intro c hc
      by_cases hname : classify (g ++ u) r = .fieldPrefix
      · rw [he.prefixed hname] at hc
        obtain rfl : '(' = c := by simpa using hc
        decide
      · exact (he.ended hname hsign c hc).1
    refine Respaced.loose (.word hword hu hr hend (fun field hf hfield => ?_) h)
    have hname : classify (g ++ u) r = .fieldPrefix ↔ r.head? = some '(' := by
      have hcolon := (hf.isPlayed []).head_ne
      rw [classify_eq_fieldPrefix_iff, hfield, afterColon?_signs hg hcolon, hf.afterColon?]
      simp
    rw [← hname]
    refine ⟨he.prefixed, fun hopening => ?_⟩
    by_contra hnot
    exact (he.ended hnot hsign '(' hopening).2 rfl

/-! ### The text of the tokens -/

/-- A blank that is put in front leaves a text respaced. -/
theorem loose_gap {left : Option Token.Kind} {s t : List Char} (h : Loose s t) :
    Loose s (gap left ++ t) := by
  rw [gap]
  split <;> exact h

/-- **A query whose words are not spread is respaced by its expansion,** if it is parted. -/
theorem loose_expandFrom {fields : List (List Char)} {s : List Char} {left : Option Token.Kind}
    {groups : List Bool} (hs : isParted .bare s = true)
    (h : ∀ t ∈ ungrouped left groups (tokens s), t.kind ≠ .term ∧ t.kind ≠ .phrase) :
    Loose s (expandFrom fields left groups (tokens s)) := by
  induction s using word_induction generalizing left groups with
  | nil => rw [tokens_nil]; exact .refl []
  | blank c r hc ih =>
    rw [tokens_blank hc] at h ⊢
    have hskip : Text.skipBlank (c :: r) = Text.skipBlank r := List.dropWhile_cons_of_pos hc
    have hr := isParted_append (u := [c]) hs
    rw [Place.after_cons, next_of_isBlank hc] at hr
    rw [Loose, hskip]
    exact ih hr h
  | opening r ih =>
    rw [tokens_opening, ungrouped] at h
    rw [tokens_opening, expandFrom_opening]
    exact loose_gap (Respaced.loose (.opening
      (ih (isParted_append (u := ['(']) hs) fun t ht => h t (List.mem_append_right _ ht))))
  | closing r ih =>
    rw [tokens_closing, ungrouped] at h
    have hr : AtBoundary r := by
      rw [isParted, Bool.and_eq_true] at hs
      rw [atBoundary_iff]
      simpa using hs.1
    have hend : AtBoundary (expandFrom fields (some .closing) groups.tail (tokens r)) :=
      fun c hc => (head_expandFrom fields (by decide) (by decide) (by decide) _ r c hc).1
    have hclosing : isSpaced left .closing = false := by cases left <;> rfl
    rw [tokens_closing, expandFrom, hclosing]
    exact Respaced.loose (.closing hr hend
      (ih (isParted_append (u := [')']) hs) fun t ht => h t (List.mem_append_right _ ht)))
  | word w r hcut ih =>
    have hkind := classify_ne_paren w r
    have hgroups : groupsAfter left groups (classify w r) = groups := by
      rw [groupsAfter]
      · exact hkind.1
      · exact hkind.2
    rw [hcut.tokens_eq, ungrouped, hgroups] at h
    have hspread : Token.isSpread (groups.contains true) ⟨classify w r, w⟩ = false := by
      cases hgroup : groups.contains true with
      | true => simp [Token.isSpread]
      | false =>
        have hfield := h ⟨classify w r, w⟩ (by rw [hgroup]; simp)
        simp [Token.isSpread, hfield]
    rw [hcut.tokens_eq, expandFrom_word hkind, expandToken_of_not_isSpread hspread]
    refine loose_gap ?_
    -- the last word may be left open, but any other one is finished
    by_cases hr : r = []
    · rw [hr, tokens_nil]
      exact .refl _
    · have hfinished := hcut.finished hr
      have hrest := isParted_append hs
      rw [hfinished] at hrest
      exact loose_word ⟨hcut.ne_nil, hcut.unbroken, hfinished⟩ hcut.boundary
        (follows_expandFrom fields groups) (ih hrest fun t ht => h t (List.mem_append_right _ ht))

end Grammar
end SearchFilter
