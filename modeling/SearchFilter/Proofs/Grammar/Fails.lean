/-
# Where readers fail

A reader fails where the text does not start as what it reads. What a text starts with
therefore tells which of the readers of a clause come into question:

| first character | readers |
| --- | --- |
| `(` | groups |
| `"` | phrases |
| `[`, `\x7b` | ranges |
| anything else | terms, and fields with what follows them |

A repetition ends where its reader fails, and nothing can be read where a text stops.
-/

import SearchFilter.Proofs.Grammar.Soundness
import SearchFilter.Proofs.Grammar.Lexeme

namespace SearchFilter
namespace Grammar

open Query
open Reader

variable {p : Reader Clause} {s : List Char}

/-- A reader that fails takes nothing. -/
theorem Reader.Fails.not_takes {α : Type} {p : Reader α} (h : p.Fails s) {a : α}
    {r : List Char} : ¬ p.Takes s a r := by
  simp [Takes, show (p s).result = none from h]

/-- A reader that takes nothing fails. -/
theorem Reader.fails_of_not_takes {α : Type} {p : Reader α} (h : ∀ a r, ¬ p.Takes s a r) :
    p.Fails s := (takes_or_fails p s).resolve_left fun ⟨a, r, hr⟩ => h a r hr

/-- A reader that fails behind blanks fails with them. -/
theorem Reader.Fails.padded {α : Type} {p : Reader α} (h : p.Fails (Text.skipBlank s)) :
    (Reader.padded p).Fails s := fails_of_not_takes fun _ _ hr => by
  obtain ⟨m, hm, -⟩ := takes_padded.1 hr
  exact h.not_takes hm

/-- A reader that fails does so with any function. -/
theorem Reader.Fails.map {α β : Type} {p : Reader α} (h : p.Fails s) (f : α → β) :
    (f <$> p).Fails s := fails_of_not_takes fun _ _ hr => by
  obtain ⟨_, hp, -⟩ := takes_map.1 hr
  exact h.not_takes hp

/-- A choice takes what its first reader takes, or where this fails what the others take. -/
theorem Reader.Takes.choice {α : Type} {p : Reader α} {a : α} {r : List Char}
    (h : p.Takes s a r) (ps : List (Reader α)) : (Reader.choice (p :: ps)).Takes s a r :=
  takes_choice_cons.2 (.inl h)

/-- Where the first reader fails, a choice takes what the others take. -/
theorem Reader.Fails.choice {α : Type} {p : Reader α} {ps : List (Reader α)} {a : α}
    {r : List Char} (h : p.Fails s) (h' : (Reader.choice ps).Takes s a r) :
    (Reader.choice (p :: ps)).Takes s a r :=
  takes_choice_cons.2 (.inr ⟨h, h'⟩)

/-- Where its reader fails, a repetition takes nothing. -/
theorem many_eq_of_fails {α : Type} {p : Reader α} {as : List α} {r : List Char} (hp : p.Fails s)
    (h : (many p).Takes s as r) : r = s := by
  cases takesAll_of_takes_many h with
  | nil => rfl
  | cons ha => exact absurd ha hp.not_takes

/-- Nothing is skipped where no blank stands in front. -/
theorem skipBlank_of_head {s : List Char} (h : ∀ c ∈ s.head?, Text.isBlank c = false) :
    Text.skipBlank s = s := by
  cases s with
  | nil => rfl
  | cons c s => exact List.dropWhile_cons_of_neg (by simp [h c rfl])

/-- A term starts with no blank, and with no delimiter but a backslash. -/
theorem IsTerm.head {u : List Char} (h : IsTerm u) :
    ∀ c ∈ u.head?, Text.isBlank c = false ∧ (isDelimiter c = true → c = '\\') := by
  obtain ⟨hne, hspan⟩ := h
  rintro d hd
  fun_cases spanTerm u with
  | case1 => exact absurd rfl hne
  | case2 c t => cases hd; exact ⟨by decide, fun _ => rfl⟩
  | case3 c t hpair hb => rw [spanTerm, if_pos hb] at hspan; cases hspan; exact hpair
  | case4 c t hpair hb =>
    cases hd
    rw [Bool.not_eq_true, Bool.or_eq_false_iff] at hb
    exact ⟨hb.1, fun hdelim => by rw [hb.2] at hdelim; cases hdelim⟩

/-- No blanks are skipped in front of a term. -/
theorem IsTerm.skipBlank_append {u : List Char} (h : IsTerm u) (t : List Char) :
    Text.skipBlank (u ++ t) = u ++ t := by
  refine skipBlank_of_head fun c hc => (h.head c ?_).1
  obtain ⟨d, u, rfl⟩ := List.exists_cons_of_ne_nil h.ne_nil
  exact hc

/-! ### The parts of a clause -/

/-- One more clause of a conjunction. -/
def nextUnary (clause : Reader Clause) : Reader Clause := do
  let _ ← Reader.opt (Reader.padded (keyword "AND" "&&"))
  unary clause

/-- One more conjunction of a disjunction. -/
def nextConjunction (clause : Reader Clause) : Reader Clause := do
  Reader.padded (keyword "OR" "||")
  conjunction clause

/-- A conjunction is a clause and any more of them, joined from the left. -/
theorem conjunction_eq (clause : Reader Clause) : conjunction clause = (do
    let first ← unary clause
    let rest ← Reader.many (nextUnary clause)
    pure (rest.foldl .and first)) := rfl

/-- A disjunction is a conjunction and any more of them, joined from the left. -/
theorem disjunction_eq (clause : Reader Clause) : disjunction clause = (do
    let first ← conjunction clause
    let rest ← Reader.many (nextConjunction clause)
    pure (rest.foldl .or first)) := rfl

/-- Nothing but a group can be read at a parenthesis. -/
theorem fails_of_opening (m : List Char) :
    range.Fails ('(' :: m) ∧ comparison.Fails ('(' :: m) ∧ phrase.Fails ('(' :: m) ∧
      term.Fails ('(' :: m) ∧ bareTerm.Fails ('(' :: m) ∧ fieldName.Fails ('(' :: m) :=
  ⟨rfl, rfl, rfl, rfl, rfl, rfl⟩

section
variable {c : Char} {t : List Char}

/-- No group is read where no parenthesis is opened. -/
theorem fails_group (h : c ≠ '(') : (group p).Fails (c :: t) := fails_of_not_takes fun _ _ hr => by
  obtain ⟨_, _, hopening, -⟩ := takes_bind.1 (takes_labelled.1 hr)
  obtain ⟨hs, rfl⟩ := takes_just.1 hopening
  exact h (List.cons.inj hs).1

/-- No range is read where no bracket is opened. -/
theorem fails_range (h : c ≠ '[') (h' : c ≠ '\x7b') : range.Fails (c :: t) :=
  fails_of_not_takes fun _ _ hr => by
    simp only [range, takes_labelled, takes_orElse, between, takes_bind, takes_just] at hr
    rcases hr with ⟨_, _, ⟨hs, rfl⟩, -⟩ | ⟨-, _, _, ⟨hs, rfl⟩, -⟩
    · exact h (List.cons.inj hs).1
    · exact h' (List.cons.inj hs).1

/-- No phrase is read where no quote stands. -/
theorem fails_phrase (h : c ≠ '"') : phrase.Fails (c :: t) := fails_of_not_takes fun _ _ hr => by
  obtain ⟨_, ⟨_⟩, hs⟩ := takes_phrase hr
  exact h (List.cons.inj hs).1

/-- No comparison is read where no sign of one stands. -/
theorem fails_comparison (h : c ≠ '>') (h' : c ≠ '<') : comparison.Fails (c :: t) :=
  fails_of_not_takes fun _ _ hr => by
    simp only [comparison, takes_labelled, takes_bind, comparisonSign, takes_choice_cons,
      takes_choice_nil, takes_map, takes_literal, takes_just, and_false, or_false] at hr
    obtain ⟨_, _, hop, -⟩ := hr
    rcases hop with ⟨_, hs, -⟩ | ⟨-, ⟨_, hs, -⟩ | ⟨-, ⟨_, ⟨hs, rfl⟩, -⟩ | ⟨-, _, ⟨hs, rfl⟩, -⟩⟩⟩
    · exact h (List.cons.inj hs).1
    · exact h' (List.cons.inj hs).1
    · exact h (List.cons.inj hs).1
    · exact h' (List.cons.inj hs).1

/-- No field is read where no letter and no underscore stands. -/
theorem fails_fieldName (h : Text.isNameStart c = false) : fieldName.Fails (c :: t) := by
  rw [Fails, fieldName, if_neg (by simp [h])]

/-- Nothing is read with a field where none stands in front of a colon. -/
theorem fails_fielded (h : ∀ field m, ¬ fieldName.Takes s field (':' :: m)) :
    (fielded p).Fails s := fails_of_not_takes fun _ _ hr => by
  simp only [fielded, takes_bind, takes_just] at hr
  obtain ⟨field, _, hname, _, m, ⟨rfl, rfl⟩, -⟩ := hr
  exact h field m hname

end

/-- No prefix is read where neither a sign stands nor `NOT`. -/
theorem fails_signPrefix_of_keyword (hblank : Text.skipBlank s = s)
    (hhead : ∀ c ∈ s.head?, isSign c = false) (hnot : (keyword "NOT" "!").Fails s) :
    signPrefix.Fails s := by
  refine Fails.padded (fails_of_not_takes fun _ _ hr => ?_)
  rw [hblank] at hr
  have hsign {c : Char} (hc : isSign c = true) (m : List Char) : s ≠ c :: m := by
    rintro rfl
    exact absurd (hhead c rfl) (by simp [hc])
  simp only [takes_choice_cons, takes_choice_nil, takes_map, takes_just, and_false, or_false] at hr
  rcases hr with ⟨_, ⟨hs, rfl⟩, -⟩ | ⟨-, ⟨_, ⟨hs, rfl⟩, -⟩ | ⟨-, ⟨_, ⟨hs, rfl⟩, -⟩ | ⟨-, _, hk, -⟩⟩⟩
  · exact hsign (by decide) _ hs
  · exact hsign (by decide) _ hs
  · exact hsign (by decide) _ hs
  · exact hnot.not_takes hk

/-! ### Keywords -/

/-- What a keyword can be, in lower case. -/
theorem IsKeyword.lower {word symbol : String} {k : List Char} (h : IsKeyword word symbol k) :
    Text.lower k = Text.lower word.toList ∨ Text.lower k = Text.lower symbol.toList := by
  rcases h.same with h | rfl
  · rw [Text.sameWord, beq_iff_eq] at h
    exact .inl h
  · exact .inr rfl

/-- The word `OR` and its symbol are operators. -/
theorem IsKeyword.isReserved {k : List Char} (h : IsKeyword "OR" "||" k) :
    isReserved k = true := by
  rcases h.same with h | rfl <;> simp_all [Grammar.isReserved]

/-- The characters that `OR` and its symbol start with. -/
theorem IsKeyword.exists_cons {k : List Char} (h : IsKeyword "OR" "||" k) :
    ∃ c t, k = c :: t ∧ (c.toLower = 'o' ∨ c.toLower = '|') := by
  obtain ⟨c, t, rfl⟩ := List.exists_cons_of_ne_nil h.term.ne_nil
  refine ⟨c, t, rfl, ?_⟩
  rcases h.lower with h | h
  · exact .inl (List.cons.inj h).1
  · exact .inr (List.cons.inj h).1

/-- Where one keyword is read, no other one is. -/
theorem IsKeyword.fails_other {k t : List Char} {word symbol word' symbol' : String}
    (h : IsKeyword word symbol k) (hspan : spanTerm (k ++ t) = (k, t))
    (hmem : (word, symbol) ∈ [("AND", "&&"), ("OR", "||"), ("NOT", "!")])
    (hmem' : (word', symbol') ∈ [("AND", "&&"), ("OR", "||"), ("NOT", "!")])
    (hne : word ≠ word') : (keyword word' symbol').Fails (k ++ t) := fails_of_not_takes fun _ _ hr => by
  obtain ⟨k', hk', hs, hspan'⟩ := takes_keyword hr
  rw [← hs, hspan] at hspan'
  obtain ⟨rfl, -⟩ := Prod.mk.inj hspan'
  have hlower := h.lower
  simp only [List.mem_cons, List.not_mem_nil, or_false, Prod.mk.injEq] at hmem hmem'
  rcases hmem with ⟨rfl, rfl⟩ | ⟨rfl, rfl⟩ | ⟨rfl, rfl⟩ <;>
    rcases hmem' with ⟨rfl, rfl⟩ | ⟨rfl, rfl⟩ | ⟨rfl, rfl⟩ <;>
    first
    | exact absurd rfl hne
    | rcases hk'.lower with h | h <;> rw [h] at hlower <;> exact absurd hlower (by decide)

/-- Where `OR` is read, no other keyword is. -/
theorem IsKeyword.fails_keyword {k t : List Char} (h : IsKeyword "OR" "||" k)
    (hspan : spanTerm (k ++ t) = (k, t)) {word symbol : String}
    (hmem : (word, symbol) ∈ [("AND", "&&"), ("NOT", "!")]) :
    (keyword word symbol).Fails (k ++ t) := by
  simp only [List.mem_cons, List.not_mem_nil, or_false, Prod.mk.injEq] at hmem
  rcases hmem with ⟨rfl, rfl⟩ | ⟨rfl, rfl⟩ <;>
    exact h.fails_other hspan (by simp) (by simp) (by decide)

/-- Neither `AND` nor `OR` starts with a sign. -/
theorem IsKeyword.isSign_eq_false {word symbol : String} {k : List Char}
    (h : IsKeyword word symbol k) (hmem : (word, symbol) ∈ [("AND", "&&"), ("OR", "||")]) :
    ∀ c ∈ k.head?, isSign c = false := by
  obtain ⟨c, v, rfl⟩ := List.exists_cons_of_ne_nil h.term.ne_nil
  rintro _ ⟨⟩
  refine Bool.eq_false_iff.2 fun hsign => ?_
  simp only [List.mem_cons, List.not_mem_nil, or_false, Prod.mk.injEq] at hmem
  rcases hmem with ⟨rfl, rfl⟩ | ⟨rfl, rfl⟩ <;> rcases h.lower with h | h <;>
    have hc := (List.cons.inj h).1 <;> rcases isSign_iff.1 hsign with rfl | rfl | rfl <;>
    exact absurd hc (by decide)

/-- So neither is read at a sign. -/
theorem fails_keyword_of_isSign {x : Char} (hx : isSign x = true) {word symbol : String}
    (hmem : (word, symbol) ∈ [("AND", "&&"), ("OR", "||")]) (t : List Char) :
    (keyword word symbol).Fails (x :: t) := fails_of_not_takes fun _ m hm => by
  obtain ⟨k, hk, hs, -⟩ := takes_keyword hm
  obtain ⟨y, k, rfl⟩ := List.exists_cons_of_ne_nil hk.term.ne_nil
  obtain rfl : x = y := (List.cons.inj hs).1
  exact absurd (hk.isSign_eq_false hmem x rfl) (by simp [hx])

/-- No prefix is read where `OR` stands. -/
theorem IsKeyword.fails_signPrefix {k t : List Char} (h : IsKeyword "OR" "||" k)
    (hspan : spanTerm (k ++ t) = (k, t)) : signPrefix.Fails (k ++ t) := by
  refine fails_signPrefix_of_keyword (h.term.skipBlank_append t) ?_ (h.fails_keyword hspan (by simp))
  obtain ⟨c, u, rfl⟩ := List.exists_cons_of_ne_nil h.term.ne_nil
  exact h.isSign_eq_false (by simp)

/-- A text that is nothing, or closes a group. -/
def Stops (s : List Char) : Prop :=
  Text.skipBlank s = [] ∨ ∃ r, Text.skipBlank s = ')' :: r

/-- No keyword is read where a text stops. -/
theorem fails_keyword_of_stops {word symbol : String} (h : Stops s) :
    (Reader.padded (keyword word symbol)).Fails s := by
  refine Reader.Fails.padded ?_
  rcases h with h | ⟨r, h⟩ <;> rw [h] <;> rfl

end Grammar
end SearchFilter
