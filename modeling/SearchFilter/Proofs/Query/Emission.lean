/-
# How an expanded query is put together

The expanded text is put together token by token, with a blank in front of a token where one
belongs. A text is *emitted* as another one (`Emits`) when its tokens come out as that text,
whatever tokens stand before and behind them. Emitted texts are put together as the texts
are:

| text | emitted as |
| --- | --- |
| a word | the expanded word (`emits_word`) |
| texts with a blank between them | the same (`Emits.beside`) |
| a text between parentheses | the same (`Emits.group`, `Emits.fieldGroup`) |
| a sign apart from a text | the sign, with a blank behind it if it is `!` (`Emits.sign`) |
-/

import SearchFilter.Proofs.Query.Copies

namespace SearchFilter
namespace Query

variable {fields : List (List Char)}

/-! ### Tokens -/

/-- What is put between a token and one behind it that closes no group. -/
def gap (left : Option Token.Kind) : List Char := if isSpaced left .term then [' '] else []

/-- In front of a token that closes no group the blank depends on what stands before it alone. -/
theorem gap_eq {kind : Token.Kind} (h : kind ≠ .closing) (left : Option Token.Kind) :
    (if isSpaced left kind then [' '] else []) = gap left := by
  cases left with
  | none => rfl
  | some k => cases k <;> cases kind <;> first | rfl | exact absurd rfl h

/-- A word comes out expanded, behind the blank that belongs in front of it. -/
theorem expandFrom_word {t : Token} (h : t.kind ≠ .opening ∧ t.kind ≠ .closing)
    (left : Option Token.Kind) (groups : List Bool) (ts : List Token) :
    expandFrom fields left groups (t :: ts) = gap left ++
      (expandToken fields (groups.contains true) t ++ expandFrom fields (some t.kind) groups ts) := by
  have hgroups : groupsAfter left groups t.kind = groups := by
    rw [groupsAfter]
    · exact h.1
    · exact h.2
  rw [expandFrom, gap_eq h.2, hgroups]

/-- An opening parenthesis comes out as it is, and opens a group that is grouped if a field stands
before it. -/
theorem expandFrom_opening (left : Option Token.Kind) (groups : List Bool) (ts : List Token) :
    expandFrom fields left groups (⟨.opening, ['(']⟩ :: ts) = gap left ++
      '(' :: expandFrom fields (some .opening) ((left == some .fieldPrefix) :: groups) ts := by
  rw [expandFrom, gap_eq (by decide)]
  rfl

/-- A closing parenthesis comes out as it is, with no blank in front, and closes the last group. -/
theorem expandFrom_closing (kind : Token.Kind) (g : Bool) (groups : List Bool) (ts : List Token) :
    expandFrom fields (some kind) (g :: groups) (⟨.closing, [')']⟩ :: ts) =
      ')' :: expandFrom fields (some .closing) groups ts := rfl

/-- A token behind which a blank belongs. -/
def Token.Kind.IsClosed (kind : Token.Kind) : Prop := isSpaced (some kind) .term = true

/-- Behind a closed token there is a blank. -/
theorem Token.Kind.IsClosed.gap_eq {kind : Token.Kind} (h : kind.IsClosed) :
    gap (some kind) = [' '] := if_pos h

/-- The name of a group is not closed. -/
theorem Token.Kind.IsClosed.ne_fieldPrefix {kind : Token.Kind} (h : kind.IsClosed) :
    some kind ≠ some .fieldPrefix := by
  rintro ⟨⟩
  cases h

/-! ### Texts -/

/-- The tokens of the text come out as `e`, whatever stands around them; `grouped` says that
they stand in the group of a field. -/
def Emits (fields : List (List Char)) (grouped : Bool) (s e : List Char) : Prop :=
  ∀ left groups r, left ≠ some .fieldPrefix → groups.contains true = grouped → AtBoundary r →
    ∃ kind : Token.Kind, kind.IsClosed ∧ expandFrom fields left groups (tokens (s ++ r)) =
      gap left ++ (e ++ expandFrom fields (some kind) groups (tokens r))

/-- Alone, an emitted text is what the whole query becomes. -/
theorem expandFrom_of_emits {s e : List Char} (h : Emits fields false s e) :
    expandFrom fields none [] (tokens s) = e := by
  obtain ⟨kind, -, htext⟩ := h none [] [] (by decide) rfl atBoundary_nil
  rw [List.append_nil] at htext
  simpa [gap, isSpaced, expandFrom] using htext

variable {grouped : Bool}

/-- **A word is emitted as the expanded word,** if its kind does not depend on what follows. -/
theorem emits_word {n : Nat} {w : List Char} (hw : Passes .bare n w) (hne : w ≠ [])
    {kind : Token.Kind} (hkind : ∀ r, classify w r = kind) (hclosed : kind.IsClosed) :
    Emits fields grouped w (expandToken fields grouped ⟨kind, w⟩) := by
  rintro left groups r - rfl hr
  have hparen := classify_ne_paren w r
  rw [hkind] at hparen
  exact ⟨kind, hclosed, by rw [(hw.cuts hne hr).tokens_eq, hkind, expandFrom_word hparen]⟩

/-- Of any blanks between two texts one is left. -/
theorem Emits.apart {s t e f w : List Char} (hw : Text.allBlank w = true) (hne : w ≠ [])
    (hs : Emits fields grouped s e) (ht : Emits fields grouped t f) :
    Emits fields grouped (s ++ (w ++ t)) (e ++ ' ' :: f) := by
  intro left groups r hleft hgroups hr
  have hboundary : AtBoundary (w ++ (t ++ r)) := by
    obtain ⟨c, w, rfl⟩ := List.exists_cons_of_ne_nil hne
    simp [endsWord, Text.allBlank_iff.1 hw c (by simp)]
  obtain ⟨kind, hclosed, hfirst⟩ := hs left groups (w ++ (t ++ r)) hleft hgroups hboundary
  obtain ⟨last, hlast, hrest⟩ := ht (some kind) groups r hclosed.ne_fieldPrefix hgroups hr
  refine ⟨last, hlast, ?_⟩
  rw [tokens_of_allBlank hw, hrest, hclosed.gap_eq] at hfirst
  rw [List.append_assoc, List.append_assoc, hfirst]
  simp

/-- Texts with a blank between them are emitted one beside the other. -/
theorem Emits.beside {s t e f : List Char} (hs : Emits fields grouped s e)
    (ht : Emits fields grouped t f) : Emits fields grouped (s ++ ' ' :: t) (e ++ ' ' :: f) :=
  hs.apart (w := [' ']) (by decide) (by simp) ht

/-- A text between parentheses is emitted between parentheses. -/
theorem Emits.group {s e : List Char} (h : Emits fields grouped s e) :
    Emits fields grouped ('(' :: (s ++ [')'])) ('(' :: (e ++ [')'])) := by
  intro left groups r hleft hgroups hr
  have hopen : (left == some .fieldPrefix) = false := beq_eq_false_iff_ne.2 hleft
  obtain ⟨kind, -, hinner⟩ := h (some .opening) (false :: groups) (')' :: r) (by decide)
    (by simpa using hgroups) (by simp [endsWord])
  refine ⟨.closing, rfl, ?_⟩
  rw [List.cons_append, List.append_assoc, List.singleton_append, tokens_opening,
    expandFrom_opening, hopen, hinner, tokens_closing, expandFrom_closing]
  simp [gap, isSpaced]

/-- In the group of a field everything is grouped. -/
theorem Emits.fieldGroup {n : Nat} {w s e : List Char} (hw : Passes .bare n w) (hne : w ≠ [])
    (hkind : ∀ r, classify w ('(' :: r) = .fieldPrefix) (h : Emits fields true s e) :
    Emits fields grouped (w ++ '(' :: (s ++ [')'])) (w ++ '(' :: (e ++ [')'])) := by
  intro left groups r hleft hgroups hr
  obtain ⟨kind, -, hinner⟩ := h (some .opening) (true :: groups) (')' :: r) (by decide)
    (by simp) (by simp [endsWord])
  have hcut : Cuts w ('(' :: (s ++ ')' :: r)) := hw.cuts hne (by simp [endsWord])
  have hparen : Token.Kind.fieldPrefix ≠ .opening ∧ Token.Kind.fieldPrefix ≠ .closing := by decide
  have hword : expandToken fields (groups.contains true) ⟨.fieldPrefix, w⟩ = w :=
    expandToken_of_not_isSpread rfl fields
  refine ⟨.closing, rfl, ?_⟩
  rw [List.append_assoc, List.cons_append, List.append_assoc, List.singleton_append,
    hcut.tokens_eq, hkind, expandFrom_word hparen, hword, tokens_opening, expandFrom_opening,
    beq_self_eq_true, hinner, tokens_closing, expandFrom_closing]
  simp [gap, isSpaced]

/-! ### Signs -/

/-- The kind of a sign that stands alone. -/
def signKind (x : Char) : Token.Kind := if x = '!' then .operator else .sign

/-- A sign that stands alone is an operator if it is `!`, and a lone sign otherwise. -/
theorem classify_sign_alone {x : Char} (hx : isSign x = true) (r : List Char) :
    classify [x] r = signKind x := by
  rcases isSign_iff.1 hx with rfl | rfl | rfl <;> rfl

/-- Behind a sign there is a blank, or nothing. -/
theorem gap_signKind (x : Char) : gap (some (signKind x)) = [] ∨ gap (some (signKind x)) = [' '] := by
  rw [signKind]
  split
  · exact .inr rfl
  · exact .inl rfl

/-- A sign in front of a blank or a parenthesis. -/
theorem Emits.sign {x : Char} (hx : isSign x = true) {b s e : List Char}
    (hb : b = [' '] ∨ b = [] ∧ s.head? = some '(') (h : Emits fields grouped s e) :
    Emits fields grouped (x :: (b ++ s)) (x :: (gap (some (signKind x)) ++ e)) := by
  intro left groups r hleft hgroups hr
  have hne : some (signKind x) ≠ some .fieldPrefix := by
    rw [signKind]
    split <;> decide
  have hparen : signKind x ≠ .opening ∧ signKind x ≠ .closing := by
    rw [signKind]
    split <;> decide
  have hword : expandToken fields (groups.contains true) ⟨signKind x, [x]⟩ = [x] := by
    refine expandToken_of_not_isSpread ?_ fields
    rw [signKind]
    split <;> rfl
  have hrest : AtBoundary (b ++ s ++ r) ∧ tokens (b ++ s ++ r) = tokens (s ++ r) := by
    rcases hb with rfl | ⟨rfl, hs⟩
    · exact ⟨by simp [endsWord]; decide, tokens_blank (by decide) _⟩
    · obtain ⟨c, s, rfl⟩ := List.exists_cons_of_ne_nil (show s ≠ [] by rintro rfl; cases hs)
      obtain rfl : c = '(' := Option.some.inj hs
      exact ⟨by simp [endsWord], rfl⟩
  have hpass : Passes .bare 0 [x] := passes_plain (isPlain_of_isSign hx) .bare
  have hcut := hpass.cuts (by simp) hrest.1
  obtain ⟨kind, hclosed, hemit⟩ := h (some (signKind x)) groups r hne hgroups hr
  refine ⟨kind, hclosed, ?_⟩
  rw [List.cons_append, ← List.singleton_append, hcut.tokens_eq, classify_sign_alone hx,
    expandFrom_word hparen, hword, hrest.2, hemit]
  simp

end Query
end SearchFilter
