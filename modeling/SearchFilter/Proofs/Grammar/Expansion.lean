/-
# The expansion of a written text

The expanded text of what is written is written too, and what it writes is the clause with
its words and phrases spread over the fields (`Writes.exists_emits`). The expansion works on
tokens and the clause is a tree, so each way of writing is followed through the tokens:

| text | tokens |
| --- | --- |
| `word`, `"phrase"` | one that is spread, outside the groups of fields |
| `name:word`, `name:"phrase"` | one that stays |
| `(...)` | a parenthesis, those of the inside, a parenthesis |
| `name:(...)` | the same, with the field prefix in front |
| a sign and one of these | the sign belongs to the first token, or is one if that is `(` |
| two of these side by side | those of the one and of the other |
-/

import SearchFilter.Proofs.Grammar.Alternatives
import SearchFilter.Proofs.Grammar.Outline
import SearchFilter.Proofs.Query.Emission

namespace SearchFilter
namespace Grammar

open Query

variable {name : List Char} {names : List (List Char)}

/-! ### Words and phrases -/

/-- Letters and digits alone have no other characters. -/
theorem not_mem_of_isAlnum {w : List Char} (h : IsAlnum w) {c : Char} (hc : c.isAlphanum = false) :
    c ∉ w := fun hmem => absurd (h.all c hmem) (by simp [hc])

/-- Without a backslash every character is a glyph by itself. -/
theorem glyphs_of_not_mem {w : List Char} (h : '\\' ∉ w) : Text.glyphs w = w.map .bare := by
  induction w with
  | nil => exact Text.glyphs_nil
  | cons c w ih =>
    rw [List.mem_cons, not_or] at h
    rw [Text.glyphs_bare (Ne.symm h.1), ih h.2, List.map_cons]

/-- Without a backslash nothing is escaped. -/
theorem unescape_of_not_mem {w : List Char} (h : '\\' ∉ w) : Text.unescape w = w := by
  rw [Text.unescape, glyphs_of_not_mem h, List.filterMap_map]
  exact List.filterMap_some

/-- A word of letters and digits is searched for between stars. -/
theorem splitSuffix_of_isAlnum {w : List Char} (h : IsAlnum w) : splitSuffix false w = (w, []) := by
  have key {w : List Char} (h : ∀ c ∈ w, c.isAlphanum = true) (atStart : Bool) :
      spanCore atStart w = (w, []) := by
    induction w generalizing atStart with
    | nil => cases atStart <;> rfl
    | cons c w ih =>
      have hc := h c (List.mem_cons_self ..)
      have hne {d : Char} (hd : d.isAlphanum = false) : c ≠ d := by
        rintro rfl
        exact absurd hc (by simp [hd])
      rw [spanCore, if_neg, ih fun d hd => h d (List.mem_cons_of_mem c hd)]
      · rintro ⟨-, rfl | rfl⟩
        · exact hne (by decide) rfl
        · exact hne (by decide) rfl
      · rintro _ _ rfl
        exact absurd rfl (hne (by decide))
  exact key h.all true

/-- Nothing in a word of letters and digits is an operator. -/
theorem hasBare_of_isAlnum {w : List Char} (h : IsAlnum w) {c : Char} (hc : c.isAlphanum = false) :
    Text.hasBare c w = false := by
  rw [Bool.eq_false_iff, ne_eq, Text.hasBare_iff,
    glyphs_of_not_mem (not_mem_of_isAlnum h (by decide)), List.mem_map]
  rintro ⟨d, hd, ⟨⟩⟩
  exact not_mem_of_isAlnum h hc hd

/-- A word of letters and digits is put between stars. -/
theorem searched_of_isAlnum {w : List Char} (h : IsAlnum w) :
    searched false w [] = '*' :: (w ++ ['*']) := by
  have hwild : Pattern.hasWildcard w = false := by
    rw [Pattern.hasWildcard, hasBare_of_isAlnum h (by decide), hasBare_of_isAlnum h (by decide)]
    rfl
  simp [searched, hwild]

/-! ### Words with a sign -/

/-- A sign, or nothing. -/
def IsSigns (g : List Char) : Prop := g = [] ∨ ∃ x, isSign x = true ∧ g = [x]

section
variable {g u : List Char}

/-- A word that plays a role is no lone sign. -/
theorem IsPlayed.ne_sign (h : IsPlayed u) : ¬ (u = ['+'] ∨ u = ['-']) := by
  rintro (rfl | rfl) <;> exact absurd h.unsigned (by decide)

/-- A sign, or nothing, is passed through. -/
theorem IsSigns.passes (h : IsSigns g) : Passes .bare 0 g := by
  rcases h with rfl | ⟨x, hx, rfl⟩
  · exact .nil .bare
  · exact passes_plain (isPlain_of_isSign hx) .bare

/-- A sign in front of a word that plays a role is split off it. -/
theorem IsSigns.splitSign_append (h : IsSigns g) (hu : IsPlayed u) :
    splitSign (g ++ u) = (g, u) := by
  rcases h with rfl | ⟨x, hx, rfl⟩
  · obtain ⟨c, u, rfl⟩ := List.exists_cons_of_ne_nil hu.ne_nil
    rw [List.nil_append, splitSign, if_neg]
    intro hc
    have hstrip := hu.unsigned
    rw [stripSigns_sign (by simpa [isSign, or_assoc] using hc)] at hstrip
    have hlength := (List.dropWhile_suffix isSign (l := u)).length_le
    rw [← stripSigns, hstrip, List.length_cons] at hlength
    omega
  · rw [List.singleton_append, splitSign, if_pos (by simpa [isSign, or_assoc] using hx)]

/-- A sign does not change what a word is. -/
theorem IsSigns.classify_append (h : IsSigns g) (hu : IsPlayed u) (r : List Char) :
    classify (g ++ u) r = classify u r := by
  rcases h with rfl | ⟨x, hx, rfl⟩
  · rfl
  · have hsplit := IsSigns.splitSign_append (.inr ⟨x, hx, rfl⟩) hu
    have hsplit' : splitSign u = ([], u) := IsSigns.splitSign_append (.inl rfl) hu
    have hop : isOperator ([x] ++ u) = false := Bool.eq_false_iff.2 fun hop => by
      have hstrip : stripSigns ([x] ++ u) = u := by
        rw [List.singleton_append, stripSigns_sign hx, hu.unsigned]
      rcases stripSigns_of_isOperator hop with h | h <;> rw [hstrip] at h
      · exact hu.ne_nil h
      · simp at h
    have hlone : ¬ ([x] ++ u = ['+'] ∨ [x] ++ u = ['-']) := by simp [hu.ne_nil]
    rw [classify, classify, hop, hu.not_operator, if_neg hu.ne_sign, if_neg hlone, hsplit, hsplit',
      List.singleton_append, afterColon?_sign hx hu.head_ne]

end

/-! ### Leaves -/

/-- A written leaf is an atom with its field. -/
theorem WritesLeaf.leafText {field : Option (List Char)} {a : Atom} {u : List Char}
    (h : WritesLeaf field a u) : LeafText field a u := by
  cases h with
  | word hw hfree => exact .term hw.isTerm hfree hw.isSign_head
  | phrase hu => exact .phrase (.phrase hu)
  | fieldWord hf hw => exact .fielded hf.text (.term hw.isTerm)
  | fieldPhrase hf hu => exact .fielded hf.text (.phrase hu)

/-- A written leaf plays a role. -/
theorem WritesLeaf.isPlayed {field : Option (List Char)} {a : Atom} {u : List Char}
    (h : WritesLeaf field a u) : IsPlayed u := by
  have hplayed := (h.leafText.isPlayed (.mk .none .none)).1
  rwa [List.append_nil, List.append_nil] at hplayed

/-- A field with its colon and more is a token of its own kind. -/
theorem FieldText.classify_eq {field y : List Char} (h : FieldText field) (hy : y ≠ [])
    (r : List Char) : classify (field ++ ':' :: y) r = .fielded := by
  have hplayed := h.isPlayed y
  have hnot : ¬ (y = [] ∧ r.head? = some '(') := fun hempty => hy hempty.1
  rw [classify, hplayed.not_operator, if_neg (by decide), if_neg hplayed.ne_sign, h.afterColon?]
  simp only [if_neg hnot]

/-- Which stays as it is. -/
theorem AtomText.emits {field u : List Char} {a : Atom} (h : AtomText a u) (hf : FieldText field)
    (fields : List (List Char)) (grouped : Bool) :
    Emits fields grouped (field ++ ':' :: u) (field ++ ':' :: u) := by
  obtain ⟨n, hpass⟩ := (LeafText.fielded hf h).passes
  have hemit : Emits fields grouped (field ++ ':' :: u) (expandToken fields grouped _) :=
    emits_word hpass (by simp) (fun r => hf.classify_eq h.ne_nil r) rfl
  rwa [expandToken_of_not_isSpread rfl] at hemit

/-- The kind of the token that a leaf is. -/
def leafKind : Option (List Char) → Atom → Token.Kind
  | none, .term _ => .term
  | none, .phrase _ => .phrase
  | none, .range .. => .range
  | _, _ => .fielded

/-- A written leaf is a token of its kind, whatever follows it. -/
theorem WritesLeaf.classify_eq {field : Option (List Char)} {a : Atom} {u : List Char}
    (h : WritesLeaf field a u) (r : List Char) : classify u r = leafKind field a := by
  have hplayed := h.isPlayed
  have hsplit : splitSign u = ([], u) := IsSigns.splitSign_append (.inl rfl) hplayed
  cases h with
  | word hw =>
    rw [classify, hplayed.not_operator, if_neg (by decide), if_neg hplayed.ne_sign, hsplit]
    rw [hw.isTerm.afterColon?_eq]
    obtain ⟨c, w, rfl⟩ := List.exists_cons_of_ne_nil hw.ne_nil
    have hne {d : Char} (hd : d.isAlphanum = false) : (c :: w).head? ≠ some d := by
      rintro ⟨⟩
      exact not_mem_of_isAlnum hw hd (List.mem_cons_self ..)
    simp only
    split
    · exact absurd ‹_› (hne (by decide))
    · exact absurd ‹_› (hne (by decide))
    · exact absurd ‹_› (hne (by decide))
    · rfl
  | phrase hu =>
    rw [classify, hplayed.not_operator, if_neg (by decide), if_neg hplayed.ne_sign, hsplit]
    cases hu
    rw [afterColon?_of_opens (by decide)]
    rfl
  | fieldWord hf hw => exact hf.text.classify_eq hw.ne_nil r
  | fieldPhrase hf hu =>
    cases hu
    exact hf.text.classify_eq (by simp) r

/-- What is put behind each field. -/
theorem value_of_isAlnum {g w : List Char} (hg : IsSigns g) (hw : IsAlnum w)
    (hplayed : IsPlayed w) : Token.value ⟨.term, g ++ w⟩ = '*' :: (w ++ ['*']) := by
  have hkind : (Token.Kind.term == .phrase) = false := rfl
  rw [Token.value]
  simp only [hg.splitSign_append hplayed]
  rw [hkind, splitSuffix_of_isAlnum hw, searched_of_isAlnum hw, List.append_nil]

/-- The value of a phrase is the phrase, without its sign. -/
theorem value_of_phrase {g u : List Char} (hg : IsSigns g) (hplayed : IsPlayed u) :
    Token.value ⟨.phrase, g ++ u⟩ = u := by
  rw [Token.value]
  simp only [hg.splitSign_append hplayed]
  exact splitSuffix_append true u

section
variable {field : Option (List Char)} {a : Atom} {g u : List Char} {fields : List (List Char)}
  {grouped : Bool}

/-- A leaf with a sign is one token. -/
theorem WritesLeaf.emits_expandToken (h : WritesLeaf field a u) (hg : IsSigns g) :
    Emits fields grouped (g ++ u) (expandToken fields grouped ⟨leafKind field a, g ++ u⟩) := by
  obtain ⟨n, hpass⟩ := h.leafText.passes
  have hclosed : (leafKind field a).IsClosed := by cases h <;> rfl
  exact emits_word (hg.passes.append hpass) (by simp [h.isPlayed.ne_nil])
    (fun r => (hg.classify_append h.isPlayed r).trans (h.classify_eq r)) hclosed

/-- A written leaf that is not spread is emitted as it is. -/
theorem WritesLeaf.emits_self (h : WritesLeaf field a u) (hg : IsSigns g)
    (hspread : Token.isSpread grouped ⟨leafKind field a, g ++ u⟩ = false) :
    Emits fields grouped (g ++ u) (g ++ u) := by
  have hemit : Emits fields grouped (g ++ u) _ := h.emits_expandToken hg
  rwa [expandToken_of_not_isSpread hspread] at hemit

/-- A written leaf that is spread is emitted as its copies, with its sign in front. -/
theorem WritesLeaf.emits_copies {value : List Char} (h : WritesLeaf field a u) (hg : IsSigns g)
    (hspread : Token.isSpread grouped ⟨leafKind field a, g ++ u⟩ = true)
    (hvalue : Token.value ⟨leafKind field a, g ++ u⟩ = value) :
    Emits fields grouped (g ++ u) (g ++ copies fields value) := by
  have hemit : Emits fields grouped (g ++ u) _ := h.emits_expandToken hg
  rwa [expandToken_of_isSpread hspread, hvalue, hg.splitSign_append h.isPlayed] at hemit

end

/-- A leaf is emitted as its alternatives, or as it is, with its sign in front. -/
theorem WritesLeaf.exists_emits {field : Option (List Char)} {a : Atom} {u : List Char}
    (h : WritesLeaf field a u) (hnames : ∀ f ∈ name :: names, IsFree f) (grouped : Bool) :
    ∃ e, Writes .operand ((Clause.leaf field a).spreadOver name names grouped) e ∧
      ∀ g, IsSigns g → Emits (name :: names) grouped (g ++ u) (g ++ e) := by
  have hplayed := h.isPlayed
  cases grouped with
  | true =>
    rw [spreadOver_true]
    exact ⟨u, .leaf h, fun g hg => h.emits_self hg (by simp [Token.isSpread])⟩
  | false =>
    cases h with
    | word hw hfree =>
      exact ⟨_, writes_copies fun f hf => .fieldWord (hnames f hf) hw.isStarred, fun g hg =>
        (WritesLeaf.word hw hfree).emits_copies hg rfl (value_of_isAlnum hg hw hplayed)⟩
    | phrase hu =>
      exact ⟨_, writes_copies fun f hf => .fieldPhrase (hnames f hf) hu, fun g hg =>
        (WritesLeaf.phrase hu).emits_copies hg rfl (value_of_phrase hg hplayed)⟩
    | fieldWord hf hw =>
      exact ⟨_, .leaf (.fieldWord hf hw), fun g hg =>
        (WritesLeaf.fieldWord hf hw).emits_self hg rfl⟩
    | fieldPhrase hf hu =>
      exact ⟨_, .leaf (.fieldPhrase hf hu), fun g hg =>
        (WritesLeaf.fieldPhrase hf hu).emits_self hg rfl⟩

/-! ### Clauses -/

/-- A keyword is emitted as it is. -/
theorem IsKeyword.emits {word symbol : String} {k : List Char}
    (hmem : (word, symbol) ∈ [("AND", "&&"), ("OR", "||"), ("NOT", "!")])
    (h : IsKeyword word symbol k) (fields : List (List Char)) (grouped : Bool) :
    Emits fields grouped k k := by
  have hkind (r : List Char) : classify k r = .operator := by
    rw [classify, h.isOperator hmem]
    rfl
  have hemit : Emits fields grouped k (expandToken fields grouped ⟨.operator, k⟩) :=
    emits_word (h.term.passes .bare) h.term.ne_nil hkind rfl
  rwa [expandToken_of_not_isSpread rfl] at hemit

/-- The group of a field, with a sign in front. -/
theorem FieldText.emits_group {field g s e : List Char} (h : FieldText field) (hg : IsSigns g)
    {fields : List (List Char)} (hs : Emits fields true s e) (grouped : Bool) :
    Emits fields grouped (g ++ (field ++ ':' :: '(' :: (s ++ [')'])))
      (g ++ (field ++ ':' :: '(' :: (e ++ [')']))) := by
  have hplayed := h.isPlayed []
  have hkind (r : List Char) : classify (g ++ (field ++ [':'])) ('(' :: r) = .fieldPrefix := by
    rw [hg.classify_append hplayed, classify_eq_fieldPrefix_iff]
    exact ⟨h.afterColon? [], rfl⟩
  have hemit : Emits fields grouped (g ++ (field ++ [':']) ++ '(' :: (s ++ [')'])) _ :=
    hs.fieldGroup (hg.passes.append h.passes_colon) (by simp) hkind
  simpa using hemit

/-- **What is written is emitted as something that is written,** with its words and phrases
spread over the fields, and so it is behind a sign. -/
theorem Writes.exists_emits {rank : Rank} {c : Clause} {s : List Char} (h : Writes rank c s)
    (hnames : ∀ f ∈ name :: names, IsFree f) (grouped : Bool) :
    ∃ e, Writes rank (c.spreadOver name names grouped) e ∧
      Emits (name :: names) grouped s e ∧
      (rank = .operand → ∀ x, isSign x = true → ∃ b, (b = [] ∨ b = [' ']) ∧
        Emits (name :: names) grouped (x :: s) (x :: (b ++ e))) := by
  -- a sign is a part of the first token behind it, so what comes of an operand behind a sign
  -- does not follow from what comes of the operand alone
  induction h generalizing grouped with
  | leaf h =>
    obtain ⟨e, he, hemit⟩ := h.exists_emits hnames grouped
    exact ⟨e, he, hemit [] (.inl rfl),
      fun _ x hx => ⟨[], .inl rfl, hemit [x] (.inr ⟨x, hx, rfl⟩)⟩⟩
  | group _ ih =>
    obtain ⟨e, he, hemit, -⟩ := ih grouped
    exact ⟨'(' :: (e ++ [')']), .group he, hemit.group, fun _ x hx =>
      ⟨_, gap_signKind x, hemit.group.sign hx (.inr ⟨rfl, rfl⟩)⟩⟩
  | @fieldGroup field _ _ hf _ ih =>
    obtain ⟨e, he, hemit, -⟩ := ih true
    rw [Clause.spreadOver]
    exact ⟨field ++ ':' :: '(' :: (e ++ [')']), .fieldGroup hf he,
      hf.text.emits_group (.inl rfl) hemit grouped, fun _ x hx =>
      ⟨[], .inl rfl, hf.text.emits_group (.inr ⟨x, hx, rfl⟩) hemit grouped⟩⟩
  | unsigned _ ih =>
    obtain ⟨e, he, hemit, -⟩ := ih grouped
    exact ⟨e, .unsigned he, hemit, fun h => absurd h (by decide)⟩
  | @signed q x b c s hx hq hb _ ih =>
    obtain ⟨e, he, hemit, hsigned⟩ := ih grouped
    rw [spreadOver_prefixed]
    rcases hb with rfl | rfl
    · obtain ⟨b, hb, hemit⟩ := hsigned rfl x hx
      exact ⟨x :: (b ++ e), .signed hx hq hb he, hemit, fun h => absurd h (by decide)⟩
    · exact ⟨x :: (gap (some (signKind x)) ++ e), .signed hx hq (gap_signKind x) he,
        hemit.sign hx (.inl rfl), fun h => absurd h (by decide)⟩
  | factor _ ih =>
    obtain ⟨e, he, hemit, -⟩ := ih grouped
    exact ⟨e, .factor he, hemit, fun h => absurd h (by decide)⟩
  | beside _ _ ihc ihd =>
    obtain ⟨e, he, hemit, -⟩ := ihc grouped
    obtain ⟨f, hf, hemit', -⟩ := ihd grouped
    rw [Clause.spreadOver]
    exact ⟨e ++ ' ' :: f, .beside he hf, hemit.beside hemit', fun h => absurd h (by decide)⟩
  | @and c d s t k _ hk _ ihc ihd =>
    obtain ⟨e, he, hemit, -⟩ := ihc grouped
    obtain ⟨f, hf, hemit', -⟩ := ihd grouped
    rw [Clause.spreadOver]
    exact ⟨e ++ ' ' :: (k ++ ' ' :: f), .and he hk hf,
      hemit.beside ((hk.emits (by simp) _ _).beside hemit'), fun h => absurd h (by decide)⟩
  | conjunction _ ih =>
    obtain ⟨e, he, hemit, -⟩ := ih grouped
    exact ⟨e, .conjunction he, hemit, fun h => absurd h (by decide)⟩
  | @or c d s t k _ hk _ ihc ihd =>
    obtain ⟨e, he, hemit, -⟩ := ihc grouped
    obtain ⟨f, hf, hemit', -⟩ := ihd grouped
    rw [Clause.spreadOver]
    exact ⟨e ++ ' ' :: (k ++ ' ' :: f), .or he hk hf,
      hemit.beside ((hk.emits (by simp) _ _).beside hemit'), fun h => absurd h (by decide)⟩

/-- **The expanded text of a written query is written.** -/
theorem writes_expandFrom {c : Clause} {s : List Char} (h : Writes .disjunction c s)
    (hnames : ∀ f ∈ name :: names, IsFree f) :
    Writes .disjunction (c.spreadOver name names false)
      (expandFrom (name :: names) none [] (tokens s)) := by
  obtain ⟨e, he, hemit, -⟩ := h.exists_emits hnames false
  rwa [expandFrom_of_emits hemit]

end Grammar
end SearchFilter
