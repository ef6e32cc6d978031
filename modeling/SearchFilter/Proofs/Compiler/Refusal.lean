/-
# Queries that are not finished are refused

A query is not finished when its text ends inside of a phrase or a range, or behind a
backslash that takes no character. The limits are measured before the query is
expanded, and the grammar sees the expanded text only. In that text the last token of
the query can have been completed, where it is spread over the implicit fields:

| last token | fields | expanded |
| --- | --- | --- |
| `abc\` | `f` | `f:*abc\*`: the star is behind the backslash |
| `" a` | `f`, `g` | `(f:" a OR g:" a)`: the second quote closes the first phrase |

Every other query that is not finished is refused (`error_of_not_isFinished`).
-/

import SearchFilter.Proofs.Compiler.Stages

namespace SearchFilter
namespace Compiler

open Query

/-- Whether the copies of a token close each other's phrases: their number is even, and
each of them opens one phrase and goes on with it. -/
def PairsUp (c : Compiler) (t : Token) : Prop :=
  c.schema.implicitFields ≠ [] ∧ c.schema.implicitFields.length % 2 = 0 ∧
    opensPhrase t.value = true

/-- Whether the expansion completes a token: by its stars, or by its copies. -/
def Mends (c : Compiler) (t : Token) : Prop :=
  c.schema.implicitFields ≠ [] ∧ IsFinished t.value ∨ c.PairsUp t

instance (c : Compiler) (t : Token) : Decidable (c.PairsUp t) :=
  inferInstanceAs (Decidable (_ ∧ _ ∧ _))

instance (c : Compiler) (t : Token) : Decidable (c.Mends t) :=
  inferInstanceAs (Decidable (_ ∨ _))

/-- There are no implicit names where there are no implicit fields. -/
theorem implicitNames_eq_nil_iff {c : Compiler} :
    c.implicitNames = [] ↔ c.schema.implicitFields = [] := by
  simp [implicitNames]

/-- A query that is accepted though it is not finished ends in a token that the
expansion completes. -/
theorem mends_of_filter? {c : Compiler} {q : String} {f : Option Filter}
    (h : c.filter? q = .ok f) (hq : ¬ IsFinished q.toList) :
    ∃ t, lastSpread? none [] (tokens q.toList) = some t ∧ c.Mends t := by
  obtain ⟨hfinished, hlevel, hfault⟩ := Grammar.accepted_of_filter? (passed_of_filter? h).grammar
  by_cases hne : c.implicitNames = []
  · rw [expand_of_nil hne] at hfinished
    exact absurd hfinished hq
  · rw [toList_expand_of_ne_nil hne] at hfinished hlevel hfault
    obtain ⟨t, ht, hmends⟩ := completed_of_expandFrom
      (fun _ hf => fieldText_of_mem_implicitNames hf) hne hq hfinished hlevel hfault
    have hfields : c.schema.implicitFields ≠ [] := fun h => hne (implicitNames_eq_nil_iff.2 h)
    rw [length_implicitNames] at hmends
    exact ⟨t, ht, hmends.imp (fun hv => ⟨hfields, hv⟩) fun hp => ⟨hfields, hp⟩⟩

/-- **A query that is not finished is refused,** unless the expansion completes its last
token. -/
theorem error_of_not_isFinished {c : Compiler} {q : String} (hq : ¬ IsFinished q.toList)
    (hlast : ∀ t ∈ lastSpread? none [] (tokens q.toList), ¬ c.Mends t) :
    ∃ e, c.filter? q = .error e := by
  cases h : c.filter? q with
  | error e => exact ⟨e, rfl⟩
  | ok f =>
    obtain ⟨t, ht, hmends⟩ := mends_of_filter? h hq
    exact absurd hmends (hlast t ht)

/-- With three fields the third copy of a phrase stays open. -/
theorem error_of_open_phrase :
    ¬ IsFinished "a (b \"c d".toList ∧
      ∃ e, (sample 3 .standard (by decide)).filter? "a (b \"c d" = .error e :=
  ⟨by decide +kernel, error_of_not_isFinished (by decide +kernel) (by decide +kernel)⟩

/-- Two queries that are not finished and are accepted: two copies of a phrase pair up,
and stars take a backslash. -/
theorem exists_filter?_of_not_isFinished :
    (¬ IsFinished "\" a".toList ∧
      ∃ f, (sample 2 .standard (by decide)).filter? "\" a" = .ok (some f)) ∧
    ¬ IsFinished "abc\\".toList ∧
      ∃ f, (sample 1 .standard (by decide)).filter? "abc\\" = .ok (some f) := by
  have hphrase : (sample 2 .standard (by decide)).measured "\" a" Filter.leafCount = some 2 := by
    decide +kernel
  have hstars : (sample 1 .standard (by decide)).measured "abc\\" Filter.leafCount = some 1 := by
    decide +kernel
  obtain ⟨f, hf, -⟩ := exists_of_measured hphrase
  obtain ⟨g, hg, -⟩ := exists_of_measured hstars
  exact ⟨⟨by decide +kernel, f, hf⟩, by decide +kernel, g, hg⟩

end Compiler
end SearchFilter
