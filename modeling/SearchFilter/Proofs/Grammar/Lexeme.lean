/-
# How the grammar's texts lie among the tokens

The texts of the grammar, seen as the query is cut into words. All of them are passed
through (`Passes`):

| text | from the bare spot |
| --- | --- |
| terms, field names, signs of comparisons, suffixes | no opening |
| phrases, ranges | one opening, at their start |

From this come the roles that each text adds in front of what follows: one leaf for
an atom with its field and suffixes, a name and an opening for a field with a group,
nothing for a keyword.
-/

import SearchFilter.Proofs.Grammar.Derivation
import SearchFilter.Proofs.Query.Passage

namespace SearchFilter
namespace Grammar

open Query

/-! ### Terms -/

/-- A character that ends no term is plain. -/
theorem isPlain_of_not_delimiter {c : Char} (h : ¬ (Text.isBlank c || isDelimiter c) = true) :
    isPlain c = true := by
  simp only [isDelimiter, Bool.or_eq_true, List.contains_eq_mem, decide_eq_true_eq, List.mem_cons,
    List.not_mem_nil, or_false, not_or] at h
  simp [isPlain, endsWord, h]

/-- A text that is cut off in full is made of pairs and of characters that end no term. -/
theorem spanTerm_induction {P : List Char → Prop} (nil : P [])
    (pair : ∀ c r, spanTerm r = (r, []) → P r → P ('\\' :: c :: r))
    (char : ∀ c r, ¬ (Text.isBlank c || isDelimiter c) = true → spanTerm r = (r, []) → P r →
      P (c :: r)) {u : List Char} (hspan : spanTerm u = (u, [])) : P u := by
  fun_induction spanTerm u with
  | case1 => exact nil
  | case2 c r word rest hcut ih =>
    obtain ⟨hw, rfl⟩ := Prod.mk.inj hspan
    obtain rfl : word = r := by simpa using hw
    exact pair c word hcut (ih hcut)
  | case3 c r hne hb => cases hspan
  | case4 c r hne hb word rest hcut ih =>
    obtain ⟨hw, rfl⟩ := Prod.mk.inj hspan
    obtain rfl : word = r := by simpa using hw
    exact char c word hb hcut (ih hcut)

/-- A character that ends no term belongs to the term. -/
theorem spanTerm_char {c : Char} (hc : ¬ (Text.isBlank c || isDelimiter c) = true)
    (r : List Char) : spanTerm (c :: r) = (c :: (spanTerm r).1, (spanTerm r).2) := by
  rw [spanTerm, if_neg hc]
  rintro d _ rfl
  exact absurd hc (by decide)

/-- **A term is passed through** everywhere, and opens nothing. -/
theorem IsTerm.passes {u : List Char} (h : IsTerm u) (spot : Spot) : Passes spot 0 u := by
  refine spanTerm_induction (P := fun u => Passes spot 0 u) (.nil spot) ?_ ?_ h.span
  · exact fun c _ _ ih => (passes_pair spot c).append ih
  · exact fun c _ hc _ ih => (passes_plain (isPlain_of_not_delimiter hc) spot).append ih

/-- A term is cut off in full in front of anything that ends it. -/
theorem IsTerm.spanTerm_append {u r : List Char} (h : IsTerm u)
    (hr : ∀ c ∈ r.head?, (Text.isBlank c || isDelimiter c) = true ∧ c ≠ '\\') :
    spanTerm (u ++ r) = (u, r) := by
  refine spanTerm_induction (P := fun u => spanTerm (u ++ r) = (u, r)) ?_ ?_ ?_ h.span
  · cases r with
    | nil => rfl
    | cons c r =>
      obtain ⟨hc, hne⟩ := hr c rfl
      rw [List.nil_append, spanTerm, if_pos hc]
      exact fun _ _ h _ => hne h
  · intro c u _ ih
    rw [List.cons_append, List.cons_append, spanTerm, ih]
  · intro c u hc _ ih
    rw [List.cons_append, spanTerm_char hc, ih]

/-- No colon is found in a term, and the search goes on behind it. -/
theorem IsTerm.afterColon?_append {u : List Char} (h : IsTerm u) (atStart : Bool) (z : List Char) :
    afterColon? atStart (u ++ z) = afterColon? false z := by
  -- behind the first character nothing is at the start any more
  have rest {word : List Char} (ih : word ≠ [] → ∀ atStart, afterColon? atStart (word ++ z) =
      afterColon? false z) : afterColon? false (word ++ z) = afterColon? false z := by
    by_cases hw : word = []
    · rw [hw, List.nil_append]
    · exact ih hw false
  refine spanTerm_induction (P := fun u => u ≠ [] → ∀ atStart, afterColon? atStart (u ++ z) =
    afterColon? false z) ?_ ?_ ?_ h.span h.ne_nil atStart
  · exact fun hne => absurd rfl hne
  · intro c u _ ih _ atStart
    rw [List.cons_append, List.cons_append, afterColon?]
    exact rest ih
  · intro c u hc _ ih _ atStart
    simp only [isDelimiter, Bool.or_eq_true, List.contains_eq_mem, decide_eq_true_eq,
      List.mem_cons, List.not_mem_nil, or_false, not_or] at hc
    rw [List.cons_append, afterColon?, if_neg (by simp [hc]), if_neg (by simp [hc])]
    · exact rest ih
    · simp [hc]

/-- No colon is found in a term alone. -/
theorem IsTerm.afterColon?_eq {u : List Char} (h : IsTerm u) : afterColon? true u = none := by
  have hnone := h.afterColon?_append true []
  rwa [List.append_nil] at hnone

/-- A text with a character that no operator has. -/
theorem isOperator_eq_false_of_mem {w : List Char} {c : Char} (hc : c ∈ w)
    (h : c.toLower ∉ operatorChars) : isOperator w = false := by
  cases hw : isOperator w with
  | false => rfl
  | true => exact absurd (toLower_mem_of_isOperator hw hc) h

/-- Characters that end no term are a term. -/
theorem isTerm_of_forall {u : List Char} (hne : u ≠ [])
    (h : ∀ c ∈ u, ¬ (Text.isBlank c || isDelimiter c) = true) : IsTerm u := by
  refine ⟨hne, ?_⟩
  clear hne
  induction u with
  | nil => rfl
  | cons c u ih =>
    have hc := h c (List.mem_cons_self ..)
    rw [spanTerm, if_neg hc, ih fun d hd => h d (List.mem_cons_of_mem _ hd)]
    rintro d _ rfl
    exact absurd hc (by decide)

/-- A term behind a term is one term. -/
theorem IsTerm.append {u v : List Char} (hu : IsTerm u) (hv : IsTerm v) : IsTerm (u ++ v) where
  ne_nil := by simp [hu.ne_nil]
  span := by
    refine spanTerm_induction (P := fun u => spanTerm (u ++ v) = (u ++ v, [])) hv.span ?_ ?_ hu.span
    · intro c r _ ih
      rw [List.cons_append, List.cons_append, spanTerm, ih]
    · intro c r hc _ ih
      rw [List.cons_append, spanTerm_char hc, ih]

/-- A character that ends no term makes one term with the term behind it. -/
theorem IsTerm.cons {c : Char} (hc : ¬ (Text.isBlank c || isDelimiter c) = true) {u : List Char}
    (hu : IsTerm u) : IsTerm (c :: u) :=
  IsTerm.append (isTerm_of_forall (by simp) (List.forall_mem_singleton.2 hc)) hu

/-- Behind a character other than a backslash the rest of a term is one. -/
theorem IsTerm.tail {c : Char} (hc : c ≠ '\\') {u : List Char} (h : IsTerm (c :: u))
    (hne : u ≠ []) : IsTerm u := by
  have hspan := h.span
  have hchar : ¬ (Text.isBlank c || isDelimiter c) = true := fun hends => by
    rw [spanTerm, if_pos hends] at hspan
    · cases hspan
    · exact fun _ _ h _ => hc h
  rw [spanTerm_char hchar] at hspan
  exact ⟨hne, Prod.ext (List.cons.inj (Prod.mk.inj hspan).1).2 (Prod.mk.inj hspan).2⟩

/-- No name character is a delimiter. -/
theorem isDelimiter_of_isNamePart {c : Char} (h : Text.isNamePart c = true) :
    isDelimiter c = false := isDelimiter_eq_false_of (by decide) h

/-- No blank is a delimiter. -/
theorem isDelimiter_of_isBlank {c : Char} (h : Text.isBlank c = true) : isDelimiter c = false :=
  isDelimiter_eq_false_of (by decide) h

/-- No name character ends a term. -/
theorem not_delimiter_of_isNamePart {c : Char} (h : Text.isNamePart c = true) :
    ¬ (Text.isBlank c || isDelimiter c) = true := by
  simp [Text.isBlank_eq_false_of_isNamePart h, isDelimiter_of_isNamePart h]

/-- A field name is a term. -/
theorem FieldText.isTerm {field : List Char} (h : FieldText field) : IsTerm field := by
  cases h with
  | plain hid =>
    refine isTerm_of_forall (Text.isIdentifier_ne_nil hid) fun c hc => ?_
    exact not_delimiter_of_isNamePart (Text.isNamePart_of_mem hid hc)
  | @dotted name part hid hne hpart =>
    refine isTerm_of_forall (by simp) fun c hc => ?_
    simp only [List.mem_append, List.mem_cons] at hc
    rcases hc with hc | rfl | hc
    · exact not_delimiter_of_isNamePart (Text.isNamePart_of_mem hid hc)
    · decide
    · exact not_delimiter_of_isNamePart (List.all_eq_true.1 hpart c hc)

/-- A field name starts with a letter or an underscore. -/
theorem FieldText.isNameStart {field : List Char} (h : FieldText field) :
    ∀ c ∈ field.head?, Text.isNameStart c = true := by
  have start {name : List Char} (hid : Text.isIdentifier name = true) :
      ∀ c ∈ name.head?, Text.isNameStart c = true := by
    intro c hc
    cases name with
    | nil => simp at hc
    | cons d r =>
      obtain rfl : d = c := by simpa using hc
      simp only [Text.isIdentifier, Bool.and_eq_true] at hid
      exact hid.1
  cases h with
  | plain hid => exact start hid
  | @dotted name part hid hne hpart =>
    have hstart := start hid
    obtain ⟨c, r, rfl⟩ := List.exists_cons_of_ne_nil (Text.isIdentifier_ne_nil hid)
    exact hstart

/-! ### Phrases, ranges and suffixes -/

/-- The inside of a phrase. -/
theorem passes_quoted {raw inside : List Char} (h : spanQuoted raw = (inside, [])) {spot : Spot}
    (hspot : spot = .phrase ∨ spot = .phraseInRange) : Passes spot 0 raw := by
  fun_induction spanQuoted raw generalizing inside with
  | case1 => exact .nil spot
  | case2 c r inner rest hcut ih =>
    obtain ⟨-, rfl⟩ := Prod.mk.inj h
    exact (passes_pair spot c).append (ih hcut)
  | case3 c r hne hb => cases h
  | case4 c r hne hb inner rest hcut ih =>
    obtain ⟨-, rfl⟩ := Prod.mk.inj h
    have hquote : c ≠ '"' := fun hc => hb (.inl hc)
    refine (passes_inside ?_ (fun hc => hb (.inr hc)) ?_).append (ih hcut)
    · rcases hspot with rfl | rfl <;> decide
    · rcases hspot with rfl | rfl <;> simp [Spot.next, hquote]

/-- A phrase is passed through, with one opening. -/
theorem PhraseText.passes {p u : List Char} (h : PhraseText p u) : Passes .bare 1 u := by
  obtain ⟨h⟩ := h
  have h := passes_quoted h (.inl rfl)
  exact h.enclose rfl rfl (by decide) rfl rfl rfl

/-- In a range a phrase is passed through, and opens nothing. -/
theorem PhraseText.passes_range {p u : List Char} (h : PhraseText p u) : Passes .range 0 u := by
  obtain ⟨h⟩ := h
  have h := passes_quoted h (.inr rfl)
  exact h.enclose rfl rfl (by decide) rfl rfl rfl

/-- A bound is passed through in its range. -/
theorem BoundText.passes_range {b : Option (List Char)} {u : List Char} (h : BoundText b u) :
    Passes .range 0 u := by
  cases h with
  | phrase h => exact h.passes_range
  | unlimited => exact passes_plain (by decide) _
  | term h => exact h.passes _

/-- Blanks are passed through in a range. -/
theorem passes_range_of_allBlank {b : List Char} (h : Text.allBlank b = true) :
    Passes .range 0 b := by
  induction b with
  | nil => exact .nil _
  | cons c b ih =>
    simp only [Text.allBlank, List.all_cons, Bool.and_eq_true] at h
    have ne {d : Char} (hd : Text.isBlank d = false) : c ≠ d := ne_of_isBlank h.1 hd
    have hnext : Spot.range.next c = .range := by
      simp [Spot.next, ne (d := '"') (by decide), ne (d := ']') (by decide),
        ne (d := '\x7d') (by decide)]
    exact (passes_inside (by decide) (ne (by decide)) hnext).append (ih h.2)

/-- A suffix has plain characters alone, and no colon. -/
theorem SuffixText.isPlain {fuzzy : Option (Option Nat)} {boost : Option Double} {z : List Char}
    (h : SuffixText fuzzy boost z) :
    ∀ c ∈ z, Query.isPlain c = true ∧ c ≠ ':' := by
  have digit {c : Char} (hc : c.isDigit = true) : Query.isPlain c = true ∧ c ≠ ':' := by
    have hn : Text.isNamePart c = true := by simp [Text.isNamePart, Char.isAlphanum, hc]
    refine ⟨isPlain_of_not_delimiter (not_delimiter_of_isNamePart hn), ?_⟩
    rintro rfl
    exact absurd hc (by decide)
  obtain ⟨hu, hv⟩ := h
  intro c hc
  rcases List.mem_append.1 hc with hc | hc
  · cases hu with
    | none => simp at hc
    | anyDistance =>
      obtain rfl : c = '~' := by simpa using hc
      decide
    | within hds =>
      rcases List.mem_cons.1 hc with rfl | hc
      · decide
      · exact digit (List.all_eq_true.1 hds c hc)
  · cases hv with
    | none => simp at hc
    | power hds =>
      rcases List.mem_cons.1 hc with rfl | hc
      · decide
      · have := List.all_eq_true.1 hds c hc
        simp only [Bool.or_eq_true, beq_iff_eq] at this
        rcases this with hc | rfl
        · exact digit hc
        · decide

/-! ### Atoms -/

/-- The sign of a comparison is passed through, and opens nothing. -/
theorem passes_sign (op : Comparison) : Passes .bare 0 op.sign.toList :=
  passes_of_all_plain (List.all_eq_true.1 (by cases op <;> decide)) _

/-- What an atom opens, it opens at its start, or behind the sign of a comparison. -/
inductive StartsOpen : Nat → List Char → Prop
  | none {u : List Char} : StartsOpen 0 u
  | here {c : Char} {u : List Char} : opensHere .bare c = true → StartsOpen 1 (c :: u)
  | compared {op : Comparison} {u : List Char} : StartsOpen 1 (op.sign.toList ++ '"' :: u)

/-- **An atom is passed through,** and what it opens it opens at its start. -/
theorem AtomText.passes {a : Atom} {u : List Char} (h : AtomText a u) :
    ∃ n, Passes .bare n u ∧ StartsOpen n u := by
  cases h with
  | term h => exact ⟨0, h.passes _, .none⟩
  | phrase h =>
    refine ⟨1, h.passes, ?_⟩
    cases h
    exact .here rfl
  | range hmem hb₁ hx hb₂ hto hb₃ hy hb₄ =>
    have inner := (passes_range_of_allBlank hb₁).append <| hx.passes_range.append <|
      (passes_range_of_allBlank hb₂).append <| (hto.term.passes .range).append <|
      (passes_range_of_allBlank hb₃).append <| hy.passes_range.append <|
      passes_range_of_allBlank hb₄
    simp only [List.mem_cons, List.not_mem_nil, or_false, Prod.mk.injEq] at hmem
    rcases hmem with ⟨rfl, rfl, -⟩ | ⟨rfl, rfl, -⟩
    · have h : Passes .bare 1 ('[' :: (_ ++ [']'])) := inner.enclose rfl rfl (by decide) rfl rfl rfl
      exact ⟨1, by simpa using h, .here rfl⟩
    · have h : Passes .bare 1 ('\x7b' :: (_ ++ ['\x7d'])) :=
        inner.enclose rfl rfl (by decide) rfl rfl rfl
      exact ⟨1, by simpa using h, .here rfl⟩
  | @compare op operand u h =>
    cases h with
    | quoted h =>
      refine ⟨1, by simpa using (passes_sign op).append h.passes, ?_⟩
      cases h
      exact .compared
    | raw h => exact ⟨0, (passes_sign op).append (h.passes _), .none⟩

/-- No atom is empty. -/
theorem AtomText.ne_nil {a : Atom} {u : List Char} (h : AtomText a u) : u ≠ [] := by
  cases h with
  | term h => exact h.ne_nil
  | phrase h => cases h; simp
  | range => simp
  | @compare op operand u h => cases op <;> simp [Comparison.sign]

/-- An atom with suffixes is proper behind a colon. -/
theorem isProper_of_startsOpen {n : Nat} {u z : List Char} (hu : Passes .bare n u)
    (hs : StartsOpen n u) (hz : Passes .bare 0 z) : isProper (u ++ z) = true := by
  have hopen : openings (u ++ z) = n := (hu.append hz).openings
  rw [isProper, hopen]
  cases hs with
  | none => rfl
  | here hc => simp [hc]
  | @compared op u => cases op <;> simp [Comparison.sign, dropComparison]

/-! ### Roles -/

section
variable {field : Option (List Char)} {a : Atom} {fuzzy : Option (Option Nat)}
  {boost : Option Double} {u z : List Char}

/-- Suffixes are passed through everywhere, and open nothing. -/
theorem SuffixText.passes (h : SuffixText fuzzy boost z) (spot : Spot) : Passes spot 0 z :=
  passes_of_all_plain (fun c hc => (h.isPlain c hc).1) spot

/-- No colon is found in suffixes. -/
theorem SuffixText.afterColon? (h : SuffixText fuzzy boost z) (atStart : Bool) :
    afterColon? atStart z = none := by
  cases hy : Query.afterColon? atStart z with
  | none => rfl
  | some y => exact absurd rfl (h.isPlain ':' (colon_mem_of_afterColon? hy)).2

/-- Suffixes start with a character that no operator has. -/
theorem SuffixText.eq_nil_or_cons (h : SuffixText fuzzy boost z) :
    z = [] ∨ ∃ c v, z = c :: v ∧ (c = '~' ∨ c = '^') := by
  obtain ⟨hu, hv⟩ := h
  cases hu with
  | none => cases hv <;> simp
  | anyDistance => simp
  | within => simp

/-- No atom is empty, with a field or without one. -/
theorem LeafText.ne_nil (h : LeafText field a u) : u ≠ [] := by
  cases h with
  | fielded => simp
  | term h => exact h.ne_nil
  | phrase h => exact h.ne_nil
  | range h => exact h.ne_nil

/-- An atom is passed through with its field. -/
theorem LeafText.passes (h : LeafText field a u) : ∃ n, Passes .bare n u := by
  cases h with
  | @fielded field u a hf ha =>
    obtain ⟨n, hn, -⟩ := ha.passes
    refine ⟨n, ?_⟩
    have h := (hf.isTerm.passes .bare).append ((passes_plain (c := ':') (by decide) .bare).append hn)
    simpa using h
  | term h => exact ⟨0, h.passes _⟩
  | phrase h => exact ⟨_, h.passes.choose_spec.1⟩
  | range h => exact ⟨_, h.passes.choose_spec.1⟩

/-- An opening at the start of a text hides every colon from it. -/
theorem afterColon?_of_opens {c : Char} (h : opensHere .bare c = true) (atStart : Bool)
    (s : List Char) : afterColon? atStart (c :: s) = none := by
  rcases opensHere_bare_iff.1 h with rfl | rfl | rfl <;> rw [Query.afterColon?] <;> simp

/-- Phrases and ranges start with an opening. -/
theorem AtomText.opens {a : Atom} (h : AtomText a u)
    (ha : (∃ p, a = .phrase p) ∨ ∃ min max inclusive, a = .range min max inclusive) :
    ∃ c v, u = c :: v ∧ opensHere .bare c = true := by
  cases h with
  | term => simp at ha
  | phrase h => cases h; exact ⟨_, _, rfl, rfl⟩
  | range hmem =>
    refine ⟨_, _, rfl, ?_⟩
    simp only [List.mem_cons, List.not_mem_nil, or_false, Prod.mk.injEq] at hmem
    rcases hmem with ⟨rfl, -, -⟩ | ⟨rfl, -, -⟩ <;> rfl
  | compare => simp at ha

/-- No name character is a sign. -/
theorem isSign_of_isNamePart {c : Char} (h : Text.isNamePart c = true) : isSign c = false :=
  isSign_eq_false_of (by decide) h

/-- No name starts with a sign. -/
theorem isSign_of_isNameStart {c : Char} (h : Text.isNameStart c = true) : isSign c = false :=
  isSign_of_isNamePart (Text.isNamePart_of_isNameStart h)

/-- No delimiter is a sign. -/
theorem isSign_of_isDelimiter {c : Char} (h : isDelimiter c = true) : isSign c = false :=
  isSign_eq_false_of (by decide) h

/-- A word without signs in front that is no operator and does not start with a colon. -/
structure IsPlayed (w : List Char) : Prop where
  unsigned : stripSigns w = w
  ne_nil : w ≠ []
  head_ne : w.head? ≠ some ':'
  not_operator : isOperator w = false

/-- Such a word is a name in front of a group, and a leaf elsewhere. -/
theorem IsPlayed.wordRole? {w : List Char} (h : IsPlayed w) (isName : Bool) :
    wordRole? isName w = some (if isName then .name else .leaf) := by
  rw [Query.wordRole?, h.unsigned, if_neg]
  · cases isName <;> rfl
  · rintro (hn | hn | hn)
    · exact h.ne_nil hn
    · exact h.head_ne hn
    · rw [h.not_operator] at hn
      cases hn

/-- A word that starts with an opening plays a role. -/
theorem isPlayed_of_opens {c : Char} (hc : opensHere .bare c = true) (v : List Char) :
    IsPlayed (c :: v) := by
  rw [opensHere_bare_iff] at hc
  refine ⟨stripSigns_of_not_sign ?_, by simp, ?_, ?_⟩
  · rcases hc with rfl | rfl | rfl <;> simp [isSign]
  · rcases hc with rfl | rfl | rfl <;> simp
  · refine isOperator_eq_false_of_mem (List.mem_cons_self ..) ?_
    rcases hc with rfl | rfl | rfl <;> decide

/-- A field name with a colon, and any more of the word. -/
theorem FieldText.isPlayed {field : List Char} (h : FieldText field) (y : List Char) :
    IsPlayed (field ++ ':' :: y) := by
  obtain ⟨c, v, rfl⟩ := List.exists_cons_of_ne_nil h.isTerm.ne_nil
  have hc : Text.isNameStart c = true := h.isNameStart c rfl
  refine ⟨stripSigns_of_not_sign ?_, by simp, ?_,
    isOperator_eq_false_of_mem (c := ':') (by simp) (by decide)⟩
  · rintro d hd
    obtain rfl : c = d := by simpa using hd
    exact isSign_of_isNameStart hc
  · rintro he
    obtain rfl : c = ':' := by simpa using he
    exact absurd hc (by decide)

/-- Behind a field and its colon stands all that follows. -/
theorem FieldText.afterColon? {field : List Char} (h : FieldText field) (y : List Char) :
    afterColon? true (field ++ ':' :: y) = some y := by
  rw [h.isTerm.afterColon?_append, Query.afterColon?]
  · simp
  · simp

/-- A field is passed through with its colon. -/
theorem FieldText.passes_colon {field : List Char} (h : FieldText field) :
    Passes .bare 0 (field ++ [':']) :=
  (h.isTerm.passes .bare).append (passes_plain (by decide) .bare)

/-- A term that may stand without a field. -/
theorem isPlayed_term (hu : IsTerm u) (hres : isReserved u = false)
    (hsign : ∀ c ∈ u.head?, isSign c = false) (hz : SuffixText fuzzy boost z) :
    IsPlayed (u ++ z) := by
  obtain ⟨c, v, rfl⟩ := List.exists_cons_of_ne_nil hu.ne_nil
  refine ⟨stripSigns_of_not_sign hsign, by simp, ?_, ?_⟩
  · rintro he
    obtain rfl : c = ':' := by simpa using he
    have hspan := hu.span
    rw [spanTerm] at hspan
    · simp [isDelimiter] at hspan
    · simp
  · rcases hz.eq_nil_or_cons with rfl | ⟨d, z, rfl, hd⟩
    · have hne : (c :: v == ['!']) = false := by
        rw [beq_eq_false_iff_ne]
        rintro he
        obtain ⟨rfl, -⟩ := List.cons.inj he
        exact absurd (hsign '!' rfl) (by decide)
      rw [List.append_nil, isOperator, hne, Bool.or_false]
      exact hres
    · refine isOperator_eq_false_of_mem (c := d) (by simp) ?_
      rcases hd with rfl | rfl <;> decide

/-- A term that is no operator and starts with no sign plays a role. -/
theorem isPlayed_word (hu : IsTerm u) (hres : isReserved u = false)
    (hsign : ∀ c ∈ u.head?, isSign c = false) : IsPlayed u := by
  have hplayed := isPlayed_term hu hres hsign (.mk .none .none)
  rwa [List.append_nil, List.append_nil] at hplayed

/-- An atom with its field and suffixes is played, and proper behind its colon. -/
theorem LeafText.isPlayed (hu : LeafText field a u) (hz : SuffixText fuzzy boost z) :
    IsPlayed (u ++ z) ∧ ∀ y ∈ Query.afterColon? true (u ++ z), y ≠ [] ∧ isProper y = true := by
  cases hu with
  | @fielded field u a hf ha =>
    rw [List.append_assoc, List.cons_append]
    refine ⟨hf.isPlayed _, ?_⟩
    obtain ⟨n, hn, hs⟩ := ha.passes
    rw [hf.afterColon?]
    rintro y ⟨⟩
    exact ⟨by simp [ha.ne_nil], isProper_of_startsOpen hn hs (hz.passes _)⟩
  | term hu hres hsign =>
    refine ⟨isPlayed_term hu hres hsign hz, ?_⟩
    rw [hu.afterColon?_append, hz.afterColon?]
    simp
  | phrase ha =>
    obtain ⟨c, v, rfl, hc⟩ := ha.opens (.inl ⟨_, rfl⟩)
    exact ⟨isPlayed_of_opens hc _, by simp [afterColon?_of_opens hc]⟩
  | range ha =>
    obtain ⟨c, v, rfl, hc⟩ := ha.opens (.inr ⟨_, _, _, rfl⟩)
    exact ⟨isPlayed_of_opens hc _, by simp [afterColon?_of_opens hc]⟩

/-- **An atom is one leaf,** with its field, its suffixes and whatever follows it. -/
theorem roles_leaf (hu : LeafText field a u) (hz : SuffixText fuzzy boost z) {r : List Char}
    (hr : AtBoundary r) : roles (u ++ (z ++ r)) = .leaf :: roles r := by
  obtain ⟨n, hn⟩ := hu.passes
  have hpass := hn.append (hz.passes .bare)
  obtain ⟨hplayed, hcolon⟩ := hu.isPlayed hz
  have hcut := hpass.cuts hplayed.ne_nil hr
  have hname : (classify (u ++ z) r == .fieldPrefix) = false :=
    classify_beq_fieldPrefix (fun h => absurd rfl (hcolon [] h).1) r
  have hfault : isFaulty (u ++ z) = false :=
    isFaulty_eq_false hpass.strays fun y hy => (hcolon y (hplayed.unsigned ▸ hy)).2
  rw [← List.append_assoc, hcut.roles_eq, hname, wordRoles, hfault, hplayed.wordRole?]
  rfl

end

/-- A field in front of a group is a name. -/
theorem roles_fieldGroup {field : List Char} (h : FieldText field) (s : List Char) :
    roles (field ++ ':' :: '(' :: s) = .name :: .opening :: roles s := by
  have hpass := h.passes_colon
  have hplayed := h.isPlayed []
  have hcut := hpass.cuts hplayed.ne_nil (show AtBoundary ('(' :: s) by simp [endsWord])
  have hname : (classify (field ++ [':']) ('(' :: s) == .fieldPrefix) = true := by
    rw [beq_iff_eq, classify_eq_fieldPrefix_iff]
    exact ⟨h.afterColon? [], rfl⟩
  have hfault : isFaulty (field ++ [':']) = false := by
    refine isFaulty_eq_false hpass.strays ?_
    rw [hplayed.unsigned, h.afterColon?]
    rintro y ⟨⟩
    rfl
  have hsplit : field ++ ':' :: '(' :: s = field ++ [':'] ++ '(' :: s := by simp
  rw [hsplit, hcut.roles_eq, hname, wordRoles, hfault, hplayed.wordRole?, roles_opening]
  rfl

/-- Suffixes behind a group are one leaf at most, and no fault. -/
theorem roles_suffix {fuzzy : Option (Option Nat)} {boost : Option Double} {z r : List Char}
    (hz : SuffixText fuzzy boost z) (hr : AtBoundary r) :
    roles (z ++ r) = roles r ∨ roles (z ++ r) = .leaf :: roles r := by
  rcases hz.eq_nil_or_cons with rfl | ⟨c, v, rfl, hc⟩
  · exact .inl rfl
  · have hpass := hz.passes .bare
    have hcut := hpass.cuts (by simp) hr
    have hplayed : IsPlayed (c :: v) := by
      refine ⟨stripSigns_of_not_sign ?_, by simp, ?_,
        isOperator_eq_false_of_mem (List.mem_cons_self ..) ?_⟩
      · rcases hc with rfl | rfl <;> simp [isSign]
      · rcases hc with rfl | rfl <;> simp
      · rcases hc with rfl | rfl <;> decide
    have hnone := hz.afterColon? true
    have hfault : isFaulty (c :: v) = false :=
      isFaulty_eq_false hpass.strays (by simp [hplayed.unsigned, hnone])
    rw [hcut.roles_eq, classify_beq_fieldPrefix (by simp [hnone]), wordRoles, hfault,
      hplayed.wordRole?]
    exact .inr rfl

/-- A text in front of which a keyword can stand. -/
def Starts (s : List Char) : Prop :=
  ∃ c t, s = c :: t ∧ (c = '\\' → t ≠ []) ∧
    (isDelimiter c = true → c = '\\' ∨ c = '(' ∨ opensHere .bare c = true)

/-- A keyword in front of a phrase or a range makes one word with it, which has the
same roles. -/
theorem wordRoles_keyword {k w : List Char} (hop : isOperator k = true) (hk : IsTerm k) {c : Char}
    (hc : opensHere .bare c = true) : wordRoles false (k ++ c :: w) = wordRoles false (c :: w) := by
  have hplayed := isPlayed_of_opens hc w
  have hnone : afterColon? true (k ++ c :: w) = none := by
    rw [hk.afterColon?_append, afterColon?_of_opens hc]
  have hstrays : strays (k ++ c :: w) = strays (c :: w) := by
    have hpass := hk.passes .bare
    have h0 : strays k = 0 := hpass.strays
    have hafter : Place.bare.after k = .bare := hpass.after
    rw [strays, Place.marks_append, hafter, ← strays, ← strays, h0, Nat.zero_add]
  rcases stripSigns_of_isOperator hop with hs | hs
  · -- the keyword is a sign
    have hstrip : stripSigns (k ++ c :: w) = stripSigns (c :: w) := by
      rw [stripSigns, List.dropWhile_append, ← stripSigns, hs]
      rfl
    rw [wordRoles, wordRoles, isFaulty, isFaulty, wordRole?, wordRole?, hstrays, hstrip]
  · -- the keyword is a word, and no operator any more with what is opened behind it
    have hstrip : stripSigns (k ++ c :: w) = k ++ c :: w := by
      obtain ⟨d, v, rfl⟩ := List.exists_cons_of_ne_nil hk.ne_nil
      refine stripSigns_of_not_sign fun e he => ?_
      obtain rfl : d = e := by simpa using he
      cases hd : isSign d with
      | false => rfl
      | true =>
        rw [stripSigns_sign hd] at hs
        have := (List.dropWhile_suffix isSign (l := v)).length_le
        rw [← stripSigns, hs, List.length_cons] at this
        omega
    have hplayed' : IsPlayed (k ++ c :: w) := by
      refine ⟨hstrip, by simp, fun he => ?_, ?_⟩
      · obtain ⟨d, v, rfl⟩ := List.exists_cons_of_ne_nil hk.ne_nil
        obtain rfl : d = ':' := by simpa using he
        exact absurd (toLower_mem_of_isOperator hop (List.mem_cons_self ..)) (by decide)
      · refine isOperator_eq_false_of_mem (c := c) (by simp) ?_
        rcases opensHere_bare_iff.1 hc with rfl | rfl | rfl <;> decide
    rw [wordRoles, wordRoles, isFaulty, isFaulty, hstrays, hstrip, hplayed.unsigned, hnone,
      afterColon?_of_opens hc, hplayed.wordRole?, hplayed'.wordRole?]

/-- **A keyword has no role.** -/
theorem roles_keyword {k s : List Char} (hop : isOperator k = true) (hk : IsTerm k)
    (hspan : spanTerm (k ++ s) = (k, s)) (hs : Starts s) : roles (k ++ s) = roles s := by
  obtain ⟨-, -, hhead, hpair⟩ := spanTerm_spec hspan
  obtain ⟨c, t, rfl, hne, hdelim⟩ := hs
  have hpass := hk.passes .bare
  by_cases hb : AtBoundary (c :: t)
  · -- the keyword is a word by itself
    have hfault : isFaulty k = false := by
      refine isFaulty_eq_false hpass.strays ?_
      rcases stripSigns_of_isOperator hop with hs | hs
      · simp [hs, Query.afterColon?]
      · simp [hs, afterColon?_of_isOperator hop]
    rw [(hpass.cuts hk.ne_nil hb).roles_eq, wordRoles, hfault, wordRole?_of_isOperator hop]
    rfl
  · -- a phrase or a range is opened right behind it, and is a part of the word
    have hends : endsWord c = false := by simpa using hb
    have hc : opensHere .bare c = true := by
      rcases hhead c rfl with hblank | hd
      · simp [endsWord, hblank] at hends
      · rcases hdelim hd with rfl | rfl | hc
        · obtain ⟨d, t, rfl⟩ := List.exists_cons_of_ne_nil (hne rfl)
          exact absurd rfl (hpair d t)
        · cases hends
        · exact hc
    have hcut := cuts_spanWord (r := t) hends
    obtain ⟨w, hw⟩ : ∃ w, (spanWord .bare (c :: t)).1 = c :: w := by
      have happ := spanWord_append .bare (c :: t)
      obtain ⟨d, w, hw⟩ := List.exists_cons_of_ne_nil hcut.ne_nil
      rw [hw] at happ
      exact ⟨w, by rw [hw, (List.cons.inj happ).1]⟩
    rw [← spanWord_append .bare (c :: t)]
    generalize (spanWord .bare (c :: t)).2 = r at hcut ⊢
    rw [hw] at hcut ⊢
    have hcut' : Cuts (k ++ c :: w) r := by
      have hafter : Place.bare.after k = .bare := hpass.after
      refine ⟨by simp, isUnbroken_append.2 ⟨hpass.unbroken, ?_⟩, hcut.boundary, fun hr => ?_⟩
      · rw [hafter]
        exact hcut.unbroken
      · rw [IsFinished, Place.after_append, hafter]
        exact hcut.finished hr
    have hnone := afterColon?_of_opens hc true w
    have hnone' : Query.afterColon? true (k ++ c :: w) = none := by
      rw [hk.afterColon?_append, afterColon?_of_opens hc]
    rw [← List.append_assoc, hcut'.roles_eq, hcut.roles_eq,
      classify_beq_fieldPrefix (by simp [hnone']), classify_beq_fieldPrefix (by simp [hnone]),
      wordRoles_keyword hop hk hc]

end Grammar
end SearchFilter
