/-
# How tokens lie in a text

A text is its tokens with nothing but blanks before, between and behind them (`Layout`). Each
character of it stands outside of all literals, or in one:

| part of the text | outside of literals |
| --- | --- |
| blanks around tokens, parentheses | all |
| in a word: characters that neither end words nor start literals | all |
| in a word: pairs, phrases, ranges, also one that the end cuts off | none |

Behind a word there is a blank, a parenthesis or nothing. The tokens of a text lie in it in this
way, and no other texts do (`exists_layout`).
-/

import SearchFilter.Proofs.Query.Literal

namespace SearchFilter
namespace Query

/-- The text of a word in front of `r`, and which of its characters stand outside of literals. Only
the end of the text can cut a literal off. -/
inductive WordText (r : List Char) : List Char → List Bool → Prop
  | nil : WordText r [] []
  | char {c : Char} {w : List Char} {marks : List Bool} (hends : endsWord c = false)
      (hopens : opensLiteral c = false) (hw : WordText r w marks) :
      WordText r (c :: w) (true :: marks)
  | literal {l w : List Char} {marks : List Bool} (hl : IsLiteral l) (hw : WordText r w marks) :
      WordText r (l ++ w) (l.map (fun _ => false) ++ marks)
  | cutOff {u : List Char} (hr : r = []) (hu : IsCutOff u) : WordText r u (u.map fun _ => false)

/-- A token in front of `r`, and which of its characters stand outside of literals. -/
inductive Token.Stands (r : List Char) : Token → List Bool → Prop
  | opening : Stands r ⟨.opening, ['(']⟩ [true]
  | closing : Stands r ⟨.closing, [')']⟩ [true]
  | word {kind : Token.Kind} {w : List Char} {marks : List Bool}
      (hkind : kind ≠ .opening ∧ kind ≠ .closing) (hne : w ≠ []) (hw : WordText r w marks)
      (hr : AtBoundary r) : Stands r ⟨kind, w⟩ marks

/-- The text is the tokens in order, with blanks before, between and behind them. -/
inductive Layout : List Char → List Token → List Bool → Prop
  | blanks {b : List Char} (hb : Text.allBlank b = true) : Layout b [] (b.map fun _ => true)
  | token {b r : List Char} {t : Token} {ts : List Token} {marks rest : List Bool}
      (hb : Text.allBlank b = true) (ht : t.Stands r marks) (hr : Layout r ts rest) :
      Layout (b ++ (t.text ++ r)) (t :: ts) (b.map (fun _ => true) ++ (marks ++ rest))

/-! ### Words -/

/-- No literal is empty. -/
theorem IsLiteral.ne_nil {l : List Char} (hl : IsLiteral l) : l ≠ [] := by
  cases hl <;> simp

/-- A part of a literal up to some place in it is unbroken. -/
theorem IsCutOff.isUnbroken {u : List Char} (hu : IsCutOff u) : IsUnbroken .bare u := by
  obtain ⟨-, v, -, hl⟩ := hu
  obtain ⟨n, hl⟩ := hl.passes
  exact (isUnbroken_append.1 hl.unbroken).1

/-- Outside of literals a character that opens none leads nowhere. -/
theorem next_of_not_opensLiteral {c : Char} (h : opensLiteral c = false) :
    Place.bare.next c = .bare := by
  simp only [opensLiteral, List.contains_eq_mem, decide_eq_false_iff_not, List.mem_cons,
    List.not_mem_nil, or_false, not_or] at h
  rw [Place.bare, Place.next_of_ne h.1]
  simp [Spot.next, h]

/-- Nothing in the text of a word ends it. -/
theorem WordText.isUnbroken {r w : List Char} {marks : List Bool} (h : WordText r w marks) :
    IsUnbroken .bare w := by
  induction h with
  | nil => rfl
  | char hends hopens _ ih =>
    exact isUnbroken_cons.2 ⟨hends, by rwa [next_of_not_opensLiteral hopens]⟩
  | literal hl _ ih =>
    obtain ⟨n, hl⟩ := hl.passes
    exact isUnbroken_append.2 ⟨hl.unbroken, by rwa [show Place.after .bare _ = _ from hl.after]⟩
  | cutOff _ hu => exact hu.isUnbroken

/-- The text of a word that something follows leaves nothing open. -/
theorem WordText.isFinished {r w : List Char} {marks : List Bool} (h : WordText r w marks)
    (hr : r ≠ []) : IsFinished w := by
  induction h with
  | nil => rfl
  | char hends hopens _ ih => exact (isFinished_cons (next_of_not_opensLiteral hopens) _).2 ih
  | literal hl _ ih =>
    obtain ⟨n, hl⟩ := hl.passes
    exact (isFinished_append hl.after _).2 ih
  | cutOff hnil => exact absurd hnil hr

/-- The text of a word is the first word of it and what follows. -/
theorem WordText.cuts {r w : List Char} {marks : List Bool} (h : WordText r w marks)
    (hne : w ≠ []) (hr : AtBoundary r) : Cuts w r :=
  ⟨hne, h.isUnbroken, hr, h.isFinished⟩

/-- A word that is cut off is made of characters and literals. -/
theorem Cuts.exists_wordText {r w : List Char} (h : Cuts w r) : ∃ marks, WordText r w marks := by
  obtain ⟨-, hu, -, hf⟩ := h
  induction hn : w.length using Nat.strongRecOn generalizing w with
  | ind n ih =>
    subst hn
    cases w with
    | nil => exact ⟨[], .nil⟩
    | cons c w =>
      cases hopens : opensLiteral c with
      | false =>
        have hnext := next_of_not_opensLiteral hopens
        rw [isUnbroken_cons, hnext] at hu
        obtain ⟨marks, hw⟩ := ih w.length (by simp) hu.2
          (fun hr => (isFinished_cons hnext w).1 (hf hr)) rfl
        exact ⟨true :: marks, .char hu.1 hopens hw⟩
      | true =>
        obtain ⟨l, v, hcut, hl⟩ | ⟨hcut, hopen⟩ := exists_literal hopens w
        · obtain ⟨n, hpasses⟩ := hl.passes
          rw [hcut] at hu hf
          rw [isUnbroken_append, show Place.after .bare l = .bare from hpasses.after] at hu
          have hlength : v.length < (c :: w).length := by
            rw [hcut, List.length_append]
            have := List.length_pos_iff.2 hl.ne_nil
            omega
          obtain ⟨marks, hw⟩ := ih v.length hlength hu.2
            (fun hr => (isFinished_append hpasses.after v).1 (hf hr)) rfl
          rw [hcut]
          exact ⟨_, .literal hl hw⟩
        · by_cases hr : r = []
          · exact ⟨_, .cutOff hr hcut⟩
          · exact absurd (hf hr) hopen

/-! ### Tokens -/

/-- No word is a parenthesis. -/
theorem WordText.ne_parenthesis {r w : List Char} {marks : List Bool} (h : WordText r w marks)
    {c : Char} (hc : endsWord c = true) : w ≠ [c] := by
  rintro rfl
  have hu := (isUnbroken_cons.1 h.isUnbroken).1
  rw [Place.ends_bare, hc] at hu
  cases hu

/-- No token is empty. -/
theorem Token.Stands.ne_nil {r : List Char} {t : Token} {marks : List Bool}
    (h : t.Stands r marks) : t.text ≠ [] := by
  cases h with
  | opening => simp
  | closing => simp
  | word _ hne => exact hne

/-- The tokens that open and close groups are the parentheses. -/
theorem Token.Stands.kind_iff {r : List Char} {t : Token} {marks : List Bool}
    (h : t.Stands r marks) : (t.kind = .opening ↔ t.text = ['(']) ∧
      (t.kind = .closing ↔ t.text = [')']) := by
  cases h with
  | opening => simp
  | closing => simp
  | word hkind _ hw =>
    exact ⟨⟨fun h => absurd h hkind.1, fun h => absurd h (hw.ne_parenthesis (by decide))⟩,
      ⟨fun h => absurd h hkind.2, fun h => absurd h (hw.ne_parenthesis (by decide))⟩⟩

/-- A token that stands in front of a text is the first token of both together. -/
theorem Token.Stands.tokens_eq {r : List Char} {t : Token} {marks : List Bool}
    (h : t.Stands r marks) : ∃ kind, tokens (t.text ++ r) = ⟨kind, t.text⟩ :: tokens r := by
  cases h with
  | opening => exact ⟨_, tokens_opening r⟩
  | closing => exact ⟨_, tokens_closing r⟩
  | word _ hne hw hr => exact ⟨_, (hw.cuts hne hr).tokens_eq⟩

/-- The texts of tokens that lie in a text are those of its own tokens. -/
theorem Layout.map_text_eq {s : List Char} {ts : List Token} {marks : List Bool}
    (h : Layout s ts marks) : ts.map Token.text = (tokens s).map Token.text := by
  induction h with
  | @blanks b hb =>
    have htokens := tokens_of_allBlank hb []
    rw [List.append_nil, tokens_nil] at htokens
    rw [htokens]
  | token hb ht _ ih =>
    obtain ⟨kind, htokens⟩ := ht.tokens_eq
    rw [tokens_of_allBlank hb, htokens, List.map_cons, List.map_cons, ih]

/-- Blanks in front of a text lie before its first token. -/
theorem Layout.blank {c : Char} (hc : Text.isBlank c = true) {s : List Char} {ts : List Token}
    {marks : List Bool} (h : Layout s ts marks) : Layout (c :: s) ts (true :: marks) := by
  have all {b : List Char} (hb : Text.allBlank b = true) : Text.allBlank (c :: b) = true := by
    simpa [Text.allBlank, hc] using hb
  cases h with
  | blanks hb => exact .blanks (all hb)
  | token hb ht hr => exact .token (all hb) ht hr

/-- Nothing has to be between two tokens. -/
theorem Layout.stands {r : List Char} {t : Token} {ts : List Token} {marks rest : List Bool}
    (hr : Layout r ts rest) (ht : t.Stands r marks) :
    Layout (t.text ++ r) (t :: ts) (marks ++ rest) := .token (b := []) rfl ht hr

/-- Each token of a layout stands in front of some text. -/
theorem Layout.exists_stands {s : List Char} {ts : List Token} {marks : List Bool}
    (h : Layout s ts marks) {t : Token} (ht : t ∈ ts) : ∃ r marks, t.Stands r marks := by
  induction h with
  | blanks => cases ht
  | token _ hstands _ ih =>
    rcases List.mem_cons.1 ht with rfl | ht
    · exact ⟨_, _, hstands⟩
    · exact ih ht

/-- **The tokens of a text lie in it.** The text is the tokens in order and blanks around them; no
token is empty; the tokens that open and close groups are the parentheses; every other one is a
word, which has blanks and parentheses in its literals alone, and is followed by one of these or by
nothing. No other texts lie in the text in this way. -/
theorem exists_layout (s : List Char) : (∃ marks, Layout s (tokens s) marks) ∧
    (∀ t ∈ tokens s, t.text ≠ [] ∧ (t.kind = .opening ↔ t.text = ['(']) ∧
      (t.kind = .closing ↔ t.text = [')'])) ∧
    ∀ ts marks, Layout s ts marks → ts.map Token.text = (tokens s).map Token.text := by
  have hlayout : ∃ marks, Layout s (tokens s) marks := by
    induction s using word_induction with
    | nil =>
      rw [tokens_nil]
      exact ⟨_, .blanks rfl⟩
    | blank c r hc ih =>
      obtain ⟨marks, h⟩ := ih
      rw [tokens_blank hc]
      exact ⟨_, h.blank hc⟩
    | opening r ih =>
      obtain ⟨marks, h⟩ := ih
      rw [tokens_opening]
      exact ⟨_, h.stands .opening⟩
    | closing r ih =>
      obtain ⟨marks, h⟩ := ih
      rw [tokens_closing]
      exact ⟨_, h.stands .closing⟩
    | word w r hw ih =>
      obtain ⟨rest, h⟩ := ih
      obtain ⟨marks, hword⟩ := hw.exists_wordText
      rw [hw.tokens_eq]
      exact ⟨_, h.stands (.word (classify_ne_paren w r) hw.ne_nil hword hw.boundary)⟩
  obtain ⟨marks, h⟩ := hlayout
  refine ⟨⟨marks, h⟩, fun t ht => ?_, fun ts marks h => h.map_text_eq⟩
  obtain ⟨r, marks, ht⟩ := h.exists_stands ht
  exact ⟨ht.ne_nil, ht.kind_iff⟩

/-- A parenthesis, and a word in which a pair and an open phrase hide blanks. -/
theorem layout_of_open_phrase :
    Layout ['(', 'a', '\\', ' ', '"', 'b', ' ', 'c']
      [⟨.opening, ['(']⟩, ⟨.term, ['a', '\\', ' ', '"', 'b', ' ', 'c']⟩]
      [true, true, false, false, false, false, false, false] ∧
    (tokens ['(', 'a', '\\', ' ', '"', 'b', ' ', 'c']).map Token.text =
      [['('], ['a', '\\', ' ', '"', 'b', ' ', 'c']] ∧
    ∃ t ∈ tokens ['(', 'a', '\\', ' ', '"', 'b', ' ', 'c'], t.text = ['('] ∧ t.kind = .opening := by
  have hcut : IsCutOff ['"', 'b', ' ', 'c'] :=
    ⟨by simp, ['"'], by simp,
      .phrase (.char (by decide) (.char (by decide) (.char (by decide) .nil)))⟩
  have hword : WordText [] ['a', '\\', ' ', '"', 'b', ' ', 'c'] _ :=
    .char (by decide) (by decide) (.literal (.pair ' ') (.cutOff rfl hcut))
  have hstands : Token.Stands [] ⟨.term, ['a', '\\', ' ', '"', 'b', ' ', 'c']⟩ _ :=
    .word (by decide) (by simp) hword atBoundary_nil
  have hlayout := ((Layout.blanks (b := []) rfl).stands hstands).stands .opening
  obtain ⟨-, hkind, hunique⟩ := exists_layout ['(', 'a', '\\', ' ', '"', 'b', ' ', 'c']
  have htexts := hunique _ _ hlayout
  refine ⟨hlayout, htexts.symm, ?_⟩
  have hmem : ['('] ∈ (tokens ['(', 'a', '\\', ' ', '"', 'b', ' ', 'c']).map Token.text := by
    rw [← htexts]
    exact List.mem_cons_self ..
  obtain ⟨t, ht, htext⟩ := List.mem_map.1 hmem
  exact ⟨t, ht, htext, (hkind t ht).2.1.2 htext⟩

end Query
end SearchFilter
