/-
# Literals

What stands in a query as it is: a backslash pair, a phrase, a range. They are described as texts,
without a word on how they are read:

| literal | text |
| --- | --- |
| pair | a backslash and any character |
| phrase | between quotes: pairs, and characters other than a quote and a backslash |
| range | between brackets: pairs, phrases, and characters that neither close it nor start these |

One that reads a literal from the bare spot comes back to it, and nothing ends a word on the way
(`IsLiteral.passes`). A text that starts as a literal does either starts with a whole one or is cut
off by its end (`exists_literal`).
-/

import SearchFilter.Proofs.Query.Passage
import SearchFilter.Text.Escape

namespace SearchFilter
namespace Query

/-- A character that a literal starts with. -/
def opensLiteral (c : Char) : Bool := ['\\', '"', '[', '\x7b'].contains c

/-- The inside of a phrase. -/
inductive InPhrase : List Char → Prop
  | nil : InPhrase []
  | char {c : Char} {u : List Char} (hc : c ≠ '"' ∧ c ≠ '\\') (hu : InPhrase u) : InPhrase (c :: u)
  | pair {c : Char} {u : List Char} (hu : InPhrase u) : InPhrase ('\\' :: c :: u)

/-- The inside of a range. -/
inductive InRange : List Char → Prop
  | nil : InRange []
  | char {c : Char} {u : List Char} (hc : c ≠ '"' ∧ c ≠ '\\' ∧ c ≠ ']' ∧ c ≠ '\x7d')
      (hu : InRange u) : InRange (c :: u)
  | pair {c : Char} {u : List Char} (hu : InRange u) : InRange ('\\' :: c :: u)
  | phrase {p u : List Char} (hp : InPhrase p) (hu : InRange u) : InRange ('"' :: (p ++ '"' :: u))

/-- A pair, a phrase or a range. -/
inductive IsLiteral : List Char → Prop
  | pair (c : Char) : IsLiteral ['\\', c]
  | phrase {u : List Char} (hu : InPhrase u) : IsLiteral ('"' :: (u ++ ['"']))
  | range {opening closing : Char} {u : List Char} (hopening : opening = '[' ∨ opening = '\x7b')
      (hu : InRange u) (hclosing : closing = ']' ∨ closing = '\x7d') :
      IsLiteral (opening :: (u ++ [closing]))

/-- What is left of a literal that the end of the text cuts off. -/
def IsCutOff (u : List Char) : Prop := u ≠ [] ∧ ∃ v, v ≠ [] ∧ IsLiteral (u ++ v)

/-! ### Literals are passed through -/

/-- The inside of a phrase is passed through in a phrase. -/
theorem InPhrase.passes {u : List Char} (hu : InPhrase u) {spot : Spot}
    (hspot : spot = .phrase ∨ spot = .phraseInRange) : Passes spot 0 u := by
  induction hu with
  | nil => exact .nil spot
  | char hc _ ih =>
    refine (passes_inside ?_ hc.2 ?_).append ih
    · rcases hspot with rfl | rfl <;> decide
    · rcases hspot with rfl | rfl <;> simp [Spot.next, hc.1]
  | pair _ ih => exact (passes_pair spot _).append ih

/-- The inside of a range is passed through in a range. -/
theorem InRange.passes {u : List Char} (hu : InRange u) : Passes .range 0 u := by
  induction hu with
  | nil => exact .nil _
  | char hc _ ih => exact (passes_inside (by decide) hc.2.1 (by simp [Spot.next, hc])).append ih
  | pair _ ih => exact (passes_pair _ _).append ih
  | @phrase p u hp _ ih =>
    have hphrase : Passes .range 0 ('"' :: (p ++ ['"'])) :=
      (hp.passes (.inr rfl)).enclose rfl rfl (by decide) rfl rfl rfl
    have hall := hphrase.append ih
    rwa [List.cons_append, List.append_assoc] at hall

/-- **A literal is passed through** outside of everything. -/
theorem IsLiteral.passes {l : List Char} (hl : IsLiteral l) : ∃ n, Passes .bare n l := by
  cases hl with
  | pair c => exact ⟨0, passes_pair _ c⟩
  | phrase hu => exact ⟨1, (hu.passes (.inl rfl)).enclose rfl rfl (by decide) rfl rfl rfl⟩
  | range hopening hu hclosing =>
    refine ⟨1, hu.passes.enclose ?_ ?_ (by decide) ?_ ?_ ?_⟩
    · rcases hopening with rfl | rfl <;> rfl
    · rcases hclosing with rfl | rfl <;> rfl
    · rcases hopening with rfl | rfl <;> rfl
    · rcases hopening with rfl | rfl <;> rfl
    · rcases hopening with rfl | rfl <;> rfl

/-! ### Literals are read in full or cut off -/

/-- A text is made of pairs and of characters other than backslashes, but for a backslash at its
end. -/
@[elab_as_elim] theorem pair_induction {P : List Char → Prop} (nil : P []) (cut : P ['\\'])
    (pair : ∀ c r, P r → P ('\\' :: c :: r)) (char : ∀ c r, c ≠ '\\' → P r → P (c :: r))
    (s : List Char) : P s := by
  fun_induction Text.glyphs s with
  | case1 => exact nil
  | case2 => exact cut
  | case3 c r ih => exact pair c r ih
  | case4 c r hend hpair ih =>
    refine char c r ?_ ih
    rintro rfl
    cases r with
    | nil => exact hend rfl rfl
    | cons d r => exact hpair d r rfl rfl

/-- Behind a quote there is a phrase up to its closing quote, or one that the end cuts off. -/
theorem exists_inPhrase {spot : Spot} (hspot : spot = .phrase ∨ spot = .phraseInRange)
    (s : List Char) : (∃ u r, s = u ++ '"' :: r ∧ InPhrase u) ∨
      (∃ v, InPhrase (s ++ v)) ∧ (Place.after ⟨spot, false⟩ s).spot = spot := by
  induction s using pair_induction with
  | nil => exact .inr ⟨⟨[], .nil⟩, rfl⟩
  | cut => exact .inr ⟨⟨[' '], .pair .nil⟩, rfl⟩
  | pair c r ih =>
    obtain ⟨u, t, rfl, hu⟩ | ⟨⟨v, hv⟩, hafter⟩ := ih
    · exact .inl ⟨'\\' :: c :: u, t, rfl, hu.pair⟩
    · exact .inr ⟨⟨v, hv.pair⟩, hafter⟩
  | char c r hc ih =>
    by_cases hquote : c = '"'
    · exact .inl ⟨[], r, by rw [hquote]; rfl, .nil⟩
    obtain ⟨u, t, rfl, hu⟩ | ⟨⟨v, hv⟩, hafter⟩ := ih
    · exact .inl ⟨c :: u, t, rfl, .char ⟨hquote, hc⟩ hu⟩
    · have hnext : Place.next ⟨spot, false⟩ c = ⟨spot, false⟩ := by
        rw [Place.next_of_ne hc]
        rcases hspot with rfl | rfl <;> simp [Spot.next, hquote]
      exact .inr ⟨⟨v, .char ⟨hquote, hc⟩ hv⟩, by rw [Place.after_cons, hnext, hafter]⟩

/-- Behind a bracket there is a range up to its closing bracket, or one that the end cuts off. -/
theorem exists_inRange (s : List Char) :
    (∃ u c r, s = u ++ c :: r ∧ InRange u ∧ (c = ']' ∨ c = '\x7d')) ∨
      (∃ v, InRange (s ++ v)) ∧ (Place.after ⟨.range, false⟩ s).spot ≠ .bare := by
  -- a phrase is passed over as a whole, so the induction is on the length
  induction hn : s.length using Nat.strongRecOn generalizing s with
  | ind n ih =>
    subst hn
    cases s using pair_induction with
    | nil => exact .inr ⟨⟨[], .nil⟩, by decide⟩
    | cut => exact .inr ⟨⟨[' '], .pair .nil⟩, by decide⟩
    | pair c r =>
      have hlt : r.length < ('\\' :: c :: r).length := by simp only [List.length_cons]; omega
      obtain ⟨u, d, t, rfl, hu, hd⟩ | ⟨⟨v, hv⟩, hafter⟩ := ih r.length hlt r rfl
      · exact .inl ⟨'\\' :: c :: u, d, t, rfl, hu.pair, hd⟩
      · exact .inr ⟨⟨v, hv.pair⟩, hafter⟩
    | char c r hc =>
      by_cases hclosing : c = ']' ∨ c = '\x7d'
      · exact .inl ⟨[], c, r, rfl, .nil, hclosing⟩
      by_cases hquote : c = '"'
      · subst hquote
        obtain ⟨p, t, rfl, hp⟩ | ⟨⟨v, hv⟩, hafter⟩ := exists_inPhrase (.inr rfl) r
        · have hplace : Place.after ⟨.range, false⟩ ('"' :: (p ++ '"' :: t)) =
              Place.after ⟨.range, false⟩ t := by
            rw [Place.after_cons, Place.after_append]
            exact congrArg (fun q => Place.after q ('"' :: t)) (hp.passes (.inr rfl)).after
          have hlt : t.length < ('"' :: (p ++ '"' :: t)).length := by
            simp only [List.length_cons, List.length_append]
            omega
          obtain ⟨u, d, t, rfl, hu, hd⟩ | ⟨⟨v, hv⟩, hafter⟩ := ih t.length hlt t rfl
          · exact .inl ⟨'"' :: (p ++ '"' :: u), d, t, by simp, .phrase hp hu, hd⟩
          · exact .inr ⟨⟨v, by simpa using InRange.phrase hp hv⟩, by rwa [hplace]⟩
        · refine .inr ⟨⟨v ++ ['"'], ?_⟩, ?_⟩
          · simpa using InRange.phrase hv .nil
          · rw [Place.after_cons, show Place.next ⟨.range, false⟩ '"' = ⟨.phraseInRange, false⟩ from rfl,
              hafter]
            decide
      · have hin : c ≠ '"' ∧ c ≠ '\\' ∧ c ≠ ']' ∧ c ≠ '\x7d' :=
          ⟨hquote, hc, fun h => hclosing (.inl h), fun h => hclosing (.inr h)⟩
        have hnext : Place.next ⟨.range, false⟩ c = ⟨.range, false⟩ := by
          rw [Place.next_of_ne hc]
          simp [Spot.next, hin]
        obtain ⟨u, d, t, rfl, hu, hd⟩ | ⟨⟨v, hv⟩, hafter⟩ := ih r.length (by simp) r rfl
        · exact .inl ⟨c :: u, d, t, rfl, .char hin hu, hd⟩
        · exact .inr ⟨⟨v, .char hin hv⟩, by rwa [Place.after_cons, hnext]⟩

/-- **A text that starts as a literal does** starts with a whole one, or is one that its end cuts
off and that leaves something open. -/
theorem exists_literal {c : Char} (hc : opensLiteral c = true) (s : List Char) :
    (∃ l r, c :: s = l ++ r ∧ IsLiteral l) ∨ IsCutOff (c :: s) ∧ ¬ IsFinished (c :: s) := by
  simp only [opensLiteral, List.contains_eq_mem, decide_eq_true_eq, List.mem_cons,
    List.not_mem_nil, or_false] at hc
  have spot_bare {p : Place} (h : p = .bare) : p.spot = .bare := congrArg Place.spot h
  have range {opening : Char} (h : opening = '[' ∨ opening = '\x7b') :
      (∃ l r, opening :: s = l ++ r ∧ IsLiteral l) ∨
        IsCutOff (opening :: s) ∧ ¬ IsFinished (opening :: s) := by
    have hnext : Place.bare.next opening = ⟨.range, false⟩ := by rcases h with rfl | rfl <;> rfl
    obtain ⟨u, d, r, rfl, hu, hd⟩ | ⟨⟨v, hv⟩, hafter⟩ := exists_inRange s
    · exact .inl ⟨opening :: (u ++ [d]), r, by simp, .range h hu hd⟩
    · refine .inr ⟨⟨by simp, v ++ [']'], by simp, ?_⟩, fun hf => hafter ?_⟩
      · simpa using IsLiteral.range h hv (.inl rfl)
      · rw [IsFinished, Place.after_cons, hnext] at hf
        exact spot_bare hf
  rcases hc with rfl | rfl | h | h
  · cases s with
    | nil => exact .inr ⟨⟨by simp, [' '], by simp, .pair ' '⟩, by decide⟩
    | cons d r => exact .inl ⟨['\\', d], r, rfl, .pair d⟩
  · obtain ⟨u, r, rfl, hu⟩ | ⟨⟨v, hv⟩, hafter⟩ := exists_inPhrase (.inl rfl) s
    · exact .inl ⟨'"' :: (u ++ ['"']), r, by simp, .phrase hu⟩
    · refine .inr ⟨⟨by simp, v ++ ['"'], by simp, ?_⟩, fun hf => ?_⟩
      · simpa using IsLiteral.phrase hv
      · rw [IsFinished, Place.after_cons] at hf
        exact absurd (hafter.symm.trans (spot_bare hf)) (by decide)
  · exact range (.inl h)
  · exact range (.inr h)

end Query
end SearchFilter
