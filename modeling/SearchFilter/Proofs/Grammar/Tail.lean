/-
# Reading inside of a word

What the grammar reads of a word does not depend on what follows the word. Two texts *go on
alike* from a spot when they start with the same rest of a word and both stand at the end of
this word behind it (`SameTail`). Every reader that stays inside of words carries this
relation along, from the spot where it starts to the one where it ends:

| reader | from | to |
| --- | --- | --- |
| `term`, `keyword`, `bound` | any spot, a range | the same |
| `phrase` | the bare spot, a range | the same |
| `comparison`, `range`, suffixes | the bare spot | the bare spot |
| a bracket that opens, one that closes | the bare spot, a range | a range, the bare spot |
-/

import SearchFilter.Proofs.Grammar.Atom
import SearchFilter.Proofs.Grammar.Carrying

namespace SearchFilter
namespace Grammar

open Query
open Reader

/-! ### The rest of a word -/

/-- The rest of a word from a spot in it: nothing ends the word before, and nothing is left
open. -/
structure IsTail (spot : Spot) (v : List Char) : Prop where
  unbroken : IsUnbroken ⟨spot, false⟩ v
  finished : Place.after ⟨spot, false⟩ v = .bare

/-- At its end nothing is left of a word. -/
theorem isTail_nil : IsTail .bare [] := ⟨isUnbroken_nil _, rfl⟩

/-- What does not end a word can be taken off its rest, whatever follows the word. -/
theorem IsTail.cut {spot inner : Spot} {v x u m : List Char} (hv : IsTail spot v)
    (hx : AtBoundary x) (hu : IsUnbroken ⟨spot, false⟩ u)
    (hafter : Place.after ⟨spot, false⟩ u = ⟨inner, false⟩) (h : v ++ x = u ++ m) :
    ∃ w, v = u ++ w ∧ m = w ++ x ∧ IsTail inner w := by
  rcases List.append_eq_append_iff.1 h with ⟨w, rfl, rfl⟩ | ⟨w, rfl, rfl⟩
  · -- more was taken than the word has
    rcases w with _ | ⟨c, w⟩
    · rw [List.append_nil, hv.finished] at hafter
      exact ⟨[], by simp, by simp, isUnbroken_nil _, hafter.symm⟩
    · rw [isUnbroken_append, hv.finished, isUnbroken_cons, Place.ends_bare] at hu
      exact absurd (atBoundary_cons.1 hx) (by simp [hu.2.1])
  · have hunbroken := (isUnbroken_append.1 hv.unbroken).2
    have hfinished := hv.finished
    rw [Place.after_append] at hfinished
    rw [hafter] at hunbroken hfinished
    exact ⟨w, rfl, rfl, hunbroken, hfinished⟩

/-- Two texts with the same rest of a word in front of related texts, which stand at the end
of this word. -/
inductive SameTail (L : List Char → List Char → Prop) (spot : Spot) :
    List Char → List Char → Prop
  | mk {v x y : List Char} : IsTail spot v → AtBoundary x → AtBoundary y → L x y →
    SameTail L spot (v ++ x) (v ++ y)

variable {L : List Char → List Char → Prop} {spot inner : Spot} {s t m m' : List Char}

instance [Std.Symm L] : Std.Symm (SameTail L spot) where
  symm := by
    rintro _ _ ⟨hv, hx, hy, hL⟩
    exact ⟨hv, hy, hx, Std.Symm.symm _ _ hL⟩

/-- What holds of the first character of one text, and of all that end words, holds of the
first character of the other text. -/
theorem SameTail.head {P : Char → Prop} (h : SameTail L spot s t)
    (hends : ∀ c, endsWord c = true → P c) (hs : ∀ c ∈ s.head?, P c) : ∀ c ∈ t.head?, P c := by
  obtain @⟨v, x, y, -, -, hy, -⟩ := h
  cases v with
  | nil => exact fun c hc => hends c (hy c hc)
  | cons d v => exact hs

/-- A reader carries along that two texts go on alike, if what it takes stays inside of a
word and can be read again wherever the text goes on alike. -/
theorem carries_of_cut {α : Type} {p : Reader α}
    (h : ∀ s a m, p.Takes s a m → ∃ u, s = u ++ m ∧ IsUnbroken ⟨spot, false⟩ u ∧
      Place.after ⟨spot, false⟩ u = ⟨inner, false⟩ ∧
      ∀ m', SameTail L inner m m' → p.Takes (u ++ m') a m') :
    p.Carries (SameTail L spot) (SameTail L inner) := by
  rintro _ _ a m ⟨hv, hx, hy, hL⟩ hp
  obtain ⟨u, hs, hu, hafter, hagain⟩ := h _ a m hp
  obtain ⟨w, rfl, rfl, hw⟩ := hv.cut hx hu hafter hs
  have htail := SameTail.mk hw hx hy hL
  exact ⟨_, by rw [List.append_assoc]; exact hagain _ htail, htail⟩

/-! ### Characters -/

/-- A character of a class is read alike, from the spot in front of it to the one behind it. -/
theorem carries_char {f : Char → Bool} (h : ∀ c, f c = true →
    Place.ends ⟨spot, false⟩ c = false ∧ Place.next ⟨spot, false⟩ c = ⟨inner, false⟩) :
    (char f).Carries (SameTail L spot) (SameTail L inner) := carries_of_cut fun s c m hc => by
  obtain ⟨rfl, hf⟩ := takes_char.1 hc
  obtain ⟨hends, hnext⟩ := h c hf
  exact ⟨[c], rfl, isUnbroken_cons.2 ⟨hends, isUnbroken_nil _⟩, hnext,
    fun m' _ => takes_char.2 ⟨rfl, hf⟩⟩

/-- A certain character is read alike, from the spot in front of it to the one behind it. -/
theorem carries_just {c : Char} (hends : Place.ends ⟨spot, false⟩ c = false)
    (hnext : Place.next ⟨spot, false⟩ c = ⟨inner, false⟩) :
    (just c).Carries (SameTail L spot) (SameTail L inner) := carries_char fun d hd => by
  obtain rfl : d = c := by simpa using hd
  exact ⟨hends, hnext⟩

/-- A certain text of plain characters is read alike at any spot. -/
theorem carries_literal {cs : List Char} (h : cs.all isPlain = true) :
    (literal cs).Carries (SameTail L spot) (SameTail L spot) := carries_of_cut fun s _ m hs => by
  have hpass := passes_of_all_plain (List.all_eq_true.1 h) spot
  exact ⟨cs, takes_literal.1 hs, hpass.unbroken, hpass.after, fun m' _ => takes_literal.2 rfl⟩

/-! ### Terms and phrases -/

/-- Behind the rest of a word no backslash is left open, so that a term that ends in one text
ends in the other. -/
theorem SameTail.endsTerm (h : SameTail L spot m m')
    (hhead : ∀ c ∈ m.head?, Text.isBlank c = true ∨ isDelimiter c = true)
    (hpair : ∀ c t, m ≠ '\\' :: c :: t) : EndsTerm m' := by
  obtain @⟨v, x, y, hv, hx, hy, -⟩ := h
  rcases v with _ | ⟨c, v⟩
  · exact endsTerm_of_atBoundary hy
  · rintro _ ⟨⟩
    refine ⟨by simpa using hhead c rfl, ?_⟩
    rintro rfl
    rcases v with _ | ⟨d, v⟩
    · have hopen := congrArg Place.escaped hv.finished
      simp [Place.next, Place.bare] at hopen
    · exact hpair d (v ++ x) rfl

/-- A term is read alike at any spot. -/
theorem carries_term : term.Carries (SameTail L spot) (SameTail L spot) :=
  carries_of_cut fun s u m hu => by
    obtain ⟨hne, hspan⟩ := takes_term.1 hu
    obtain ⟨hs, hcut, hhead, hpair⟩ := spanTerm_spec hspan
    have hterm : IsTerm u := ⟨hne, hcut⟩
    have hpass := hterm.passes spot
    exact ⟨u, hs, hpass.unbroken, hpass.after, fun m' hm => hterm.takes (hm.endsTerm hhead hpair)⟩

/-- A keyword is read alike at any spot. -/
theorem carries_keyword (word symbol : String) :
    (keyword word symbol).Carries (SameTail L spot) (SameTail L spot) :=
  (carries_term.accept _).labelled

/-- A term that is no operator is read alike at any spot. -/
theorem carries_bareTerm : bareTerm.Carries (SameTail L spot) (SameTail L spot) :=
  carries_term.accept _

/-- A phrase is read alike outside of everything and in a range. -/
theorem carries_phrase (h : spot = .bare ∨ spot = .range) :
    phrase.Carries (SameTail L spot) (SameTail L spot) := carries_of_cut fun s p m hp => by
  obtain ⟨u, hu, hs⟩ := takes_phrase hp
  obtain ⟨n, hpass⟩ : ∃ n, Passes spot n u := by
    rcases h with rfl | rfl
    · exact ⟨1, hu.passes⟩
    · exact ⟨0, hu.passes_range⟩
  exact ⟨u, hs, hpass.unbroken, hpass.after, fun m' _ => hu.takes m'⟩

/-! ### Blanks in a range -/

/-- Inside of a range blanks are a part of the word. -/
theorem SameTail.skipBlank (h : SameTail L .range s t) :
    SameTail L .range (Text.skipBlank s) (Text.skipBlank t) := by
  obtain @⟨v, x, y, hv, hx, hy, hL⟩ := h
  obtain ⟨b, hb, hs⟩ := exists_blank_append (v ++ x)
  have hpass := passes_range_of_allBlank hb
  obtain ⟨w, rfl, hw, htail⟩ := hv.cut hx hpass.unbroken hpass.after hs
  have hsame := SameTail.mk htail hx hy hL
  have hskip : Text.skipBlank (b ++ (w ++ y)) = w ++ y := by
    obtain ⟨c, w, rfl⟩ : ∃ c r, w = c :: r :=
      List.exists_cons_of_ne_nil (by rintro rfl; exact absurd htail.finished (by decide))
    have hc := List.head?_dropWhile_not Text.isBlank (b ++ c :: w ++ x)
    rw [← Text.skipBlank, hw] at hc
    rw [Text.skipBlank, List.dropWhile_append_of_pos (Text.allBlank_iff.1 hb)]
    exact List.dropWhile_cons_of_neg (by simpa using hc)
  rw [hw, List.append_assoc, hskip]
  exact hsame

/-- Blanks around a reader inside of a range. -/
theorem Reader.Carries.padded_range {α : Type} {p : Reader α}
    (h : p.Carries (SameTail L .range) (SameTail L .range)) :
    (Reader.padded p).Carries (SameTail L .range) (SameTail L .range) :=
  (h.padded fun _ _ => SameTail.skipBlank).mono (fun _ _ => SameTail.skipBlank) fun _ _ => id

/-! ### Suffixes -/

/-- No digit ends a word. -/
theorem isDigit_eq_false_of_endsWord {c : Char} (h : endsWord c = true) : c.isDigit = false := by
  cases hd : c.isDigit with
  | false => rfl
  | true =>
    have hname : Text.isNamePart c = true := by simp [Text.isNamePart, Char.isAlphanum, hd]
    have hplain := isPlain_of_not_delimiter (not_delimiter_of_isNamePart hname)
    simp [isPlain, h] at hplain

/-- Digits are passed through. -/
theorem passes_of_isDigit {ds : List Char} (h : ds.all Char.isDigit = true) (spot : Spot) :
    Passes spot 0 ds := passes_of_all_plain (fun c hc => by
  have hname : Text.isNamePart c = true := by
    simp [Text.isNamePart, Char.isAlphanum, List.all_eq_true.1 h c hc]
  exact isPlain_of_not_delimiter (not_delimiter_of_isNamePart hname)) spot

/-- Texts that go on alike start with the same digits. -/
theorem SameTail.spanDigits (h : SameTail L spot s t) : ∃ ds m m',
    Decimal.spanDigits s = (ds, m) ∧ Decimal.spanDigits t = (ds, m') ∧ SameTail L spot m m' := by
  obtain @⟨v, x, y, hv, hx, hy, hL⟩ := h
  obtain ⟨ds, m, hspan⟩ : ∃ ds m, Decimal.spanDigits (v ++ x) = (ds, m) := ⟨_, _, rfl⟩
  obtain ⟨hds, hs⟩ := spanDigits_spec hspan
  have hpass := passes_of_isDigit hds spot
  obtain ⟨w, rfl, rfl, hw⟩ := hv.cut hx hpass.unbroken hpass.after hs
  have hsame := SameTail.mk hw hx hy hL
  have hhead : ∀ c ∈ (w ++ x).head?, c.isDigit = false := fun c hc => by
    have hnot := List.head?_dropWhile_not Char.isDigit (ds ++ w ++ x)
    rw [show List.dropWhile Char.isDigit (ds ++ w ++ x) = w ++ x from congrArg Prod.snd hspan,
      hc] at hnot
    exact hnot
  refine ⟨ds, w ++ x, w ++ y, hspan, ?_, hsame⟩
  rw [List.append_assoc]
  exact Decimal.spanDigits_append hds
    (hsame.head (fun _ => isDigit_eq_false_of_endsWord) hhead)

/-- A number is read alike at any spot. -/
theorem carries_integer : integer.Carries (SameTail L spot) (SameTail L spot) := by
  intro s t n m h hn
  obtain ⟨ds, r, r', hs, ht, hr⟩ := h.spanDigits
  simp only [Takes, integer, hs, ht] at hn ⊢
  split at hn
  · cases hn
  · rename_i hds
    split at hn
    · rename_i hlt
      obtain ⟨rfl, rfl⟩ := Prod.mk.inj (Option.some.inj hn)
      exact ⟨r', by rw [if_neg hds, if_pos hlt], hr⟩
    · cases hn

variable [Std.Symm L]

/-- A decimal numeral is read alike at any spot. -/
theorem carries_decimal : decimal.Carries (SameTail L spot) (SameTail L spot) := by
  intro s t z m h hz
  have hpoint : (just '.').Carries (SameTail L spot) (SameTail L spot) :=
    carries_just (by cases spot <;> decide) (by cases spot <;> rfl)
  obtain ⟨ds, r, r', hs, ht, hr⟩ := h.spanDigits
  simp only [Takes, decimal, hs, ht] at hz ⊢
  split at hz
  · cases hz
  · rename_i hds
    rw [if_neg hds]
    split at hz
    · rename_i more
      obtain ⟨more', hmore', hmore⟩ := hpoint hr (takes_just.2 ⟨rfl, rfl⟩)
      obtain ⟨rfl, -⟩ := takes_just.1 hmore'
      obtain ⟨places, u, u', hu, hu', htail⟩ := hmore.spanDigits
      simp only [hu, hu'] at hz ⊢
      split at hz
      · rename_i hplaces
        obtain ⟨rfl, rfl⟩ := Prod.mk.inj (Option.some.inj hz)
        exact ⟨_, by rw [if_pos hplaces], hr⟩
      · rename_i hplaces
        obtain ⟨rfl, rfl⟩ := Prod.mk.inj (Option.some.inj hz)
        exact ⟨_, by rw [if_neg hplaces], htail⟩
    · rename_i hne
      obtain ⟨rfl, rfl⟩ := Prod.mk.inj (Option.some.inj hz)
      refine ⟨r', ?_, hr⟩
      split
      · obtain ⟨more, hmore, -⟩ := hpoint (Std.Symm.symm _ _ hr) (takes_just.2 ⟨rfl, rfl⟩)
        exact absurd (takes_just.1 hmore).1 (hne more)
      · rfl

/-- A fuzzy suffix is read alike. -/
theorem carries_fuzzySuffix :
    fuzzySuffix.Carries (SameTail L .bare) (SameTail L .bare) :=
  (Carries.bind (carries_just rfl rfl) fun _ => carries_integer.opt fun _ _ => id).labelled

/-- A boost is read alike. -/
theorem carries_boostSuffix : boostSuffix.Carries (SameTail L .bare) (SameTail L .bare) :=
  (Carries.bind (carries_just rfl rfl) fun _ => carries_decimal).labelled

/-! ### Ranges and comparisons -/

/-- A bound is read alike in its range. -/
theorem carries_bound : bound.Carries (SameTail L .range) (SameTail L .range) :=
  .orElse ((carries_phrase (.inr rfl)).map _) (carries_term.map _)

/-- A range between brackets is read alike, if they lead into it and out again. -/
theorem carries_between {opening closing : Char} (inclusive : Bool)
    (hopening : Place.bare.ends opening = false ∧ Place.bare.next opening = ⟨.range, false⟩)
    (hclosing : Place.next ⟨.range, false⟩ closing = .bare) :
    (between opening closing inclusive).Carries (SameTail L .bare) (SameTail L .bare) :=
  .bind (carries_just hopening.1 hopening.2) fun _ =>
  .bind carries_bound.padded_range fun _ =>
  .bind (carries_keyword _ _) fun _ =>
  .bind carries_bound.padded_range fun _ =>
  .bind (carries_just rfl hclosing) fun _ => .pure _

/-- A range is read alike. -/
theorem carries_range : range.Carries (SameTail L .bare) (SameTail L .bare) :=
  Carries.labelled (.orElse (carries_between true (by decide) rfl)
    (carries_between false (by decide) rfl))

/-- A comparison is read alike. -/
theorem carries_comparison : comparison.Carries (SameTail L .bare) (SameTail L .bare) := by
  have hsign : comparisonSign.Carries (SameTail L .bare) (SameTail L .bare) := by
    refine .choice ?_
    simp only [List.forall_mem_cons]
    exact ⟨(carries_literal (by decide)).map _, (carries_literal (by decide)).map _,
      (carries_just rfl rfl).map _, (carries_just rfl rfl).map _, by simp⟩
  exact Carries.labelled (.bind hsign fun _ =>
    .bind (.orElse ((carries_phrase (.inl rfl)).map _) (carries_term.map _)) fun _ => .pure _)

end Grammar
end SearchFilter
