/-
# What words are searched for as

A word without a field is cut behind its first sign. What is left of it is searched for as it
stands, if it has a wildcard, and between stars otherwise. So the copies of this value stand for
the word (`emits_term`). Characters that neither end a term nor are wildcards are those of a
*body*, which gets stars whatever signs and points are in it:

| word | sign | value |
| --- | --- | --- |
| `abc` | | `*abc*` |
| `-abc` | `-` | `*abc*` |
| `-+a.b` | `-` | `*+a.b*` |
| `-a?c` | `-` | `a?c` |
-/

import SearchFilter.Proofs.Grammar.Operand

namespace SearchFilter

open Grammar
open Query (AtBoundary Emits Passes Token afterColon? classify copies expandToken isOperator isSign
  isSign_iff searched spanCore splitSign splitSuffix stripSigns)

/-! ### Signs in front of a word -/

namespace Query

variable {g u : List Char}

/-- A run of signs in front is stripped. -/
theorem stripSigns_signs (hg : ∀ x ∈ g, isSign x = true) (u : List Char) :
    stripSigns (g ++ u) = stripSigns u := by
  induction g with
  | nil => rfl
  | cons x g ih =>
    obtain ⟨hx, hg⟩ := List.forall_mem_cons.1 hg
    rw [List.cons_append, stripSigns_sign hx, ih hg]

/-- A run of signs in front brings no colon to the start. -/
theorem head_signs (hg : ∀ x ∈ g, isSign x = true) (hu : u.head? ≠ some ':') :
    (g ++ u).head? ≠ some ':' := by
  cases g with
  | nil => exact hu
  | cons x g =>
    rintro ⟨⟩
    exact absurd (hg ':' (by simp)) (by decide)

/-- A run of signs in front changes nothing behind the colon of a word. -/
theorem afterColon?_signs (hg : ∀ x ∈ g, isSign x = true) (hu : u.head? ≠ some ':') :
    afterColon? true (g ++ u) = afterColon? true u := by
  induction g with
  | nil => rfl
  | cons x g ih =>
    obtain ⟨hx, hg⟩ := List.forall_mem_cons.1 hg
    rw [List.cons_append, afterColon?_sign hx (head_signs hg hu), ih hg]

/-- A run of signs makes no operator and no lone sign of a word. -/
theorem isPlayed_signs (hg : ∀ x ∈ g, isSign x = true) (hu : IsPlayed u) :
    isOperator (g ++ u) = false ∧ ¬ (g ++ u = ['+'] ∨ g ++ u = ['-']) := by
  have hstrip : stripSigns (g ++ u) = u := (stripSigns_signs hg u).trans hu.unsigned
  constructor
  · refine Bool.eq_false_iff.2 fun hop => ?_
    rcases stripSigns_of_isOperator hop with h | h
    · exact hu.ne_nil (hstrip.symm.trans h)
    · rw [← h, hstrip, hu.not_operator] at hop
      cases hop
  · rintro (h | h) <;> rw [h] at hstrip <;> exact hu.ne_nil hstrip.symm

/-- A run of signs is passed through. -/
theorem passes_signs (hg : ∀ x ∈ g, isSign x = true) : Passes .bare 0 g :=
  passes_of_all_plain (fun x hx => isPlain_of_isSign (hg x hx)) .bare

/-- One sign is split off, and no more. -/
theorem splitSign_sign {x : Char} (hx : isSign x = true) (t : List Char) :
    splitSign (x :: t) = ([x], t) := by
  rw [splitSign, if_pos (by simpa [isSign, or_assoc] using hx)]

/-- No sign is split off a word that plays a role without one. -/
theorem splitSign_of_isPlayed (hu : IsPlayed u) : splitSign u = ([], u) :=
  IsSigns.splitSign_append (.inl rfl) hu

/-- Behind signs a word is a term, where its body does not start as a phrase or a range. -/
theorem classify_signs (hg : ∀ x ∈ g, isSign x = true) (hu : IsPlayed u)
    (hcolon : afterColon? true u = none)
    (hhead : ∀ c ∈ (splitSign (g ++ u)).2.head?, c ≠ '"' ∧ c ≠ '[' ∧ c ≠ '\x7b') (r : List Char) :
    classify (g ++ u) r = .term := by
  obtain ⟨hop, hlone⟩ := isPlayed_signs hg hu
  rw [classify, hop, if_neg (by decide), if_neg hlone, afterColon?_signs hg hu.head_ne, hcolon]
  simp only
  split
  · exact absurd rfl (hhead _ ‹_›).1
  · exact absurd rfl (hhead _ ‹_›).2.1
  · exact absurd rfl (hhead _ ‹_›).2.2
  · rfl

/-- A token that is spread, with its first sign in front. -/
theorem emits_copies {fields : List (List Char)} {n : Nat} {w value : List Char} {kind : Token.Kind}
    (hw : Passes .bare n w) (hne : w ≠ []) (hkind : ∀ r, classify w r = kind)
    (hspread : Token.isSpread false ⟨kind, w⟩ = true) (hvalue : Token.value ⟨kind, w⟩ = value) :
    Emits fields false w ((splitSign w).1 ++ copies fields value) := by
  have hclosed : kind.IsClosed := by
    simp only [Token.isSpread, Bool.not_false, Bool.and_true, Bool.or_eq_true, beq_iff_eq] at hspread
    rcases hspread with rfl | rfl <;> rfl
  have hemit : Emits fields false w (expandToken fields false ⟨kind, w⟩) :=
    emits_word hw hne hkind hclosed
  rwa [expandToken_of_isSpread hspread, hvalue] at hemit

end Query

/-! ### Bodies -/

/-- A character of a term that is no wildcard. -/
def isBody (c : Char) : Bool := !(Text.isBlank c || isDelimiter c || c == '*' || c == '?')

/-- No character of a body ends a term. -/
theorem not_delimiter_of_isBody {c : Char} (h : isBody c = true) :
    ¬ (Text.isBlank c || isDelimiter c) = true := by
  simp only [isBody, Bool.not_eq_true', Bool.or_eq_false_iff] at h
  simp [h]

/-- A character of a body is none that is not. -/
theorem ne_of_isBody {c d : Char} (h : isBody c = true) (hd : isBody d = false) : c ≠ d := by
  rintro rfl
  exact absurd h (by simp [hd])

/-- A sign can stand in a body. -/
theorem isBody_of_isSign {c : Char} (h : isSign c = true) : isBody c = true := by
  rcases isSign_iff.1 h with rfl | rfl | rfl <;> decide

/-- A simple character can stand in a body. -/
theorem isBody_of_isSimple {c : Char} (h : isSimple c = true) : isBody c = true := by
  have hstar : c ≠ '*' := ne_of_isSimple h (by decide)
  have hquestion : c ≠ '?' := ne_of_isSimple h (by decide)
  have hnot := not_delimiter_of_isSimple h
  rw [isBody, Bool.eq_false_iff.2 hnot]
  simp [hstar, hquestion]

section
variable {b w : List Char}

/-- A term behind signs is a term. -/
theorem isTerm_signs {g u : List Char} (hg : ∀ x ∈ g, isSign x = true) (hu : IsTerm u) :
    IsTerm (g ++ u) := by
  induction g with
  | nil => exact hu
  | cons x g ih =>
    obtain ⟨hx, hg⟩ := List.forall_mem_cons.1 hg
    exact (ih hg).cons (not_delimiter_of_isBody (isBody_of_isSign hx))

/-- A body is a term. -/
theorem isTerm_of_body (hne : b ≠ []) (hb : ∀ c ∈ b, isBody c = true) : IsTerm b :=
  isTerm_of_forall hne fun c hc => not_delimiter_of_isBody (hb c hc)

/-- A term has no suffix. -/
theorem spanCore_of_spanTerm (h : spanTerm b = (b, [])) (atStart : Bool) :
    spanCore atStart b = (b, []) := by
  refine spanTerm_induction (P := fun b => ∀ atStart, spanCore atStart b = (b, []))
    ?_ ?_ ?_ h atStart
  · exact fun atStart => by cases atStart <;> rfl
  · intro c r _ ih atStart
    rw [spanCore, ih]
  · intro c r hc _ ih atStart
    rw [spanCore, if_neg, ih]
    · rintro ⟨-, rfl | rfl⟩ <;> exact hc (by decide)
    · rintro _ _ rfl
      exact absurd (by decide) hc

/-- The value of a term is what it is searched for as. -/
theorem value_of_spanTerm (hb : (splitSign w).2 = b) (h : spanTerm b = (b, [])) :
    Token.value ⟨.term, w⟩ = searched false b [] := by
  have hcut : splitSuffix false b = (b, []) := spanCore_of_spanTerm h true
  have hkind : (Token.Kind.term == .phrase) = false := rfl
  rw [Token.value]
  simp only [hb, hkind, hcut, List.append_nil]

/-- A word with a wildcard is searched for as it stands. -/
theorem searched_of_hasWildcard (h : Pattern.hasWildcard b = true) : searched false b [] = b := by
  simp [searched, h]

/-- Every other word is searched for between stars. -/
theorem searched_of_not_hasWildcard (h : Pattern.hasWildcard b = false) :
    searched false b [] = '*' :: (b ++ ['*']) := by
  simp [searched, h]

/-- So is a body. -/
theorem searched_of_body (hall : ∀ c ∈ b, isBody c = true) :
    searched false b [] = '*' :: (b ++ ['*']) := by
  have hmem {d : Char} (hd : isBody d = false) : d ∉ b :=
    fun hmem => ne_of_isBody (hall d hmem) hd rfl
  have hbare {d : Char} (hd : isBody d = false) : Text.hasBare d b = false := by
    rw [Bool.eq_false_iff, ne_eq, Text.hasBare_iff, glyphs_of_not_mem (hmem (by decide)),
      List.mem_map]
    rintro ⟨e, he, ⟨⟩⟩
    exact hmem hd he
  refine searched_of_not_hasWildcard ?_
  rw [Pattern.hasWildcard, hbare (by decide), hbare (by decide)]
  rfl

/-- Between stars a body is a term that no comparison starts. -/
theorem writesAtom_starred (hb : ∀ c ∈ b, isBody c = true) :
    WritesAtom (.term ('*' :: (b ++ ['*']))) ('*' :: (b ++ ['*'])) := by
  refine .term (isTerm_of_forall (by simp) fun c hc => ?_) (by rintro _ ⟨⟩; decide)
  simp only [List.mem_cons, List.mem_append, List.not_mem_nil, or_false] at hc
  rcases hc with rfl | hc | rfl
  · decide
  · exact not_delimiter_of_isBody (hb c hc)
  · decide

/-- Between stars a body without points shows none. -/
theorem shows_starred (hb : ∀ c ∈ b, isBody c = true) (hpoint : '.' ∉ b) :
    Shows 0 ('*' :: (b ++ ['*'])) := by
  cases writesAtom_starred hb with
  | term hterm => exact shows_of_not_mem (hterm.passes .bare).after (by simpa using hpoint)

/-- **A word is emitted as the copies of what is searched for,** with its first sign in front
of them. -/
theorem emits_term {g u : List Char} (hg : ∀ x ∈ g, isSign x = true) (hu : IsPlayed u)
    (hterm : IsTerm u) (fields : List (List Char)) :
    Emits fields false (g ++ u) ((splitSign (g ++ u)).1 ++
      copies fields (searched false (splitSign (g ++ u)).2 [])) := by
  have hbody : IsTerm (splitSign (g ++ u)).2 := by
    cases g with
    | nil => rwa [List.nil_append, Query.splitSign_of_isPlayed hu]
    | cons x g =>
      obtain ⟨hx, hg⟩ := List.forall_mem_cons.1 hg
      rw [List.cons_append, Query.splitSign_sign hx]
      exact isTerm_signs hg hterm
  obtain ⟨c, v, hcons, hne⟩ := hbody.exists_cons
  have hhead : ∀ c ∈ (splitSign (g ++ u)).2.head?, c ≠ '"' ∧ c ≠ '[' ∧ c ≠ '\x7b' := by
    rw [hcons]
    rintro _ ⟨⟩
    exact ⟨hne _ (by decide) (by decide), hne _ (by decide) (by decide),
      hne _ (by decide) (by decide)⟩
  have hpass := (Query.passes_signs hg).append (hterm.passes .bare)
  exact Query.emits_copies hpass (by simp [hu.ne_nil])
    (Query.classify_signs hg hu hterm.afterColon?_eq hhead) rfl (value_of_spanTerm rfl hbody.span)

/-- So a word of body characters is searched for between stars. -/
theorem emits_body {g u : List Char} (hg : ∀ x ∈ g, isSign x = true) (hu : IsPlayed u)
    (hall : ∀ c ∈ u, isBody c = true) (fields : List (List Char)) :
    Emits fields false (g ++ u) ((splitSign (g ++ u)).1 ++
      copies fields ('*' :: ((splitSign (g ++ u)).2 ++ ['*']))) := by
  have hemits := emits_term hg hu (isTerm_of_body hu.ne_nil hall) fields
  rwa [searched_of_body] at hemits
  intro c hc
  have hmem : c ∈ g ++ u := by
    rw [← Query.splitSign_append (g ++ u)]
    exact List.mem_append_right _ hc
  exact (List.mem_append.1 hmem).elim (fun h => isBody_of_isSign (hg c h)) (hall c)

end

end SearchFilter
