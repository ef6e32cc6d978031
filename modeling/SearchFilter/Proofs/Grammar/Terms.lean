/-
# Terms of a clause

The raw terms that a clause has in its leaves are terms of the grammar: no backslash in them
lacks the character that it escapes. So do the patterns of a filter, which come from such terms.

| | said of |
| --- | --- |
| `Reads.isTerm` | the terms of a clause that is read |
| `Clause.mem_terms_of_lower` | the patterns of its filter |
-/

import SearchFilter.Proofs.Grammar.Binding
import SearchFilter.Proofs.Grammar.Outline

namespace SearchFilter
namespace Grammar

/-! ### Terms that are read -/

/-- The raw term that an atom consists of. -/
def Atom.term? : Atom → Option (List Char)
  | term raw => some raw
  | _ => none

/-- The raw terms of a clause, from left to right. -/
def Clause.terms : Clause → List (List Char)
  | leaf _ a => a.term?.toList
  | fieldGroup _ c => c.terms
  | and l r => l.terms ++ r.terms
  | or l r => l.terms ++ r.terms
  | must c => c.terms
  | mustNot c => c.terms
  | fuzzy c _ => c.terms
  | boost c _ => c.terms

/-- Suffixes are no terms. -/
@[simp] theorem Clause.terms_suffixed (c : Clause) (fuzzy : Option (Option Nat))
    (boost : Option Double) : (c.suffixed fuzzy boost).terms = c.terms := by
  cases fuzzy <;> cases boost <;> rfl

/-- Prefixes are no terms. -/
@[simp] theorem Clause.terms_prefixed (ps : List Prefix) (c : Clause) :
    (c.prefixed ps).terms = c.terms := by
  rw [prefixed]
  split
  · rfl
  · split <;> rfl

/-- The term of an atom is one. -/
theorem AtomText.isTerm {a : Atom} {u : List Char} (h : AtomText a u) :
    ∀ w ∈ a.term?, IsTerm w := by
  cases h with
  | term hu =>
    rintro _ ⟨⟩
    exact hu
  | phrase | range | compare => exact nofun

/-- The terms of a clause that is read are terms. -/
theorem Reads.isTerm {c : Clause} {t r : List Char} (h : Reads c t r) :
    ∀ w ∈ c.terms, IsTerm w := by
  induction h with
  | @leaf field a _ _ _ _ _ hu _ _ =>
    have hterm : ∀ w ∈ a.term?, IsTerm w := by
      cases hu with
      | fielded _ ha => exact ha.isTerm
      | term hu => exact (AtomText.term hu).isTerm
      | phrase ha => exact ha.isTerm
      | range ha => exact ha.isTerm
    simpa [Clause.terms] using hterm
  | group _ _ _ ih | fieldGroup _ _ _ _ ih => rwa [Clause.terms_suffixed]
  | prefixed _ _ ih => rwa [Clause.terms_prefixed]
  | before _ _ ih | behind _ _ ih => exact ih
  | beside _ _ ihl ihr | and _ _ _ ihl ihr | or _ _ _ ihl ihr =>
    exact List.forall_mem_append.2 ⟨ihl, ihr⟩

/-- No backslash of a term is cut off from its pair. -/
theorem IsTerm.cut_not_mem {w : List Char} (h : IsTerm w) : Text.Glyph.cut ∉ Text.glyphs w := by
  refine spanTerm_induction (P := fun w => Text.Glyph.cut ∉ Text.glyphs w) ?_ ?_ ?_ h.span
  · simp
  · exact fun c r _ ih => by simpa using ih
  · intro c r hc _ ih
    have hback : c ≠ '\\' := by
      rintro rfl
      exact hc (by decide)
    simpa [Text.glyphs_bare hback] using ih

/-! ### Patterns of the filter -/

/-- The pattern of an atom is its term. -/
theorem Atom.Tests.mem_term? {k : Column} {a : Atom} {f : Filter} (h : a.Tests k f) :
    ∀ p ∈ f.pattern?, p.toList ∈ a.term? := by
  cases h with
  | like | wild =>
    rintro _ ⟨⟩
    simp [term?]
  | equals | phrase | range | compare => exact nofun

/-- **The patterns of a filter are terms of its clause.** -/
theorem Clause.mem_terms_of_lower {c : Clause} {column : Option Column} {f : Filter}
    (h : c.lower column = .ok f) : ∀ g ∈ f.predicates, ∀ p ∈ g.pattern?, p.toList ∈ c.terms := by
  rw [lower_eq_ok_iff] at h
  induction h with
  | own ha | given ha =>
    rw [Filter.predicates_of_isPredicate ha.isPredicate, List.forall_mem_singleton]
    intro p hp
    rw [terms, Option.mem_toList]
    exact ha.mem_term? p hp
  | bareTerm | barePhrase => simp [Filter.predicates, Filter.pattern?, textValue]
  | fieldGroup _ ih | must _ ih | mustNot _ ih => exact ih
  | and _ _ ihl ihr | or _ _ ihl ihr =>
    refine List.forall_mem_append.2 ⟨fun g hg p hp => ?_, fun g hg p hp => ?_⟩
    · exact List.mem_append_left _ (ihl g hg p hp)
    · exact List.mem_append_right _ (ihr g hg p hp)
  | fuzzy | boost => simp [Filter.predicates, Filter.pattern?]

end Grammar
end SearchFilter
