/-
# The points of a written text

A point in the masked text of what is written is always one of a field (`Writes.shows`):
words have none, and those of phrases are masked. So no reference that is found in such a
text has a blank around its point.
-/

import SearchFilter.Proofs.Grammar.Outline
import SearchFilter.Proofs.Grammar.Reference
import SearchFilter.Proofs.Grammar.Written

namespace SearchFilter
namespace Grammar

open Query

/-- A text that leaves nothing open and shows so many points. -/
structure Shows (n : Nat) (s : List Char) : Prop where
  finished : IsFinished s
  points : (Place.bare.shown s).count '.' = n

/-- Texts that leave nothing open show their points one after the other. -/
theorem Shows.append {m n : Nat} {s t : List Char} (hs : Shows m s) (ht : Shows n t) :
    Shows (m + n) (s ++ t) := by
  have hafter : Place.bare.after s = .bare := hs.finished
  refine ⟨(isFinished_append hs.finished t).2 ht.finished, ?_⟩
  rw [Place.shown_append, hafter, List.count_append, hs.points, ht.points]

/-- A text without a point shows none. -/
theorem shows_of_not_mem {s : List Char} (hs : IsFinished s) (h : '.' ∉ s) : Shows 0 s :=
  ⟨hs, List.count_eq_zero.2 (Place.not_mem_shown (by decide) h _)⟩

/-- A character in front of a text. -/
theorem Shows.cons {n : Nat} {c : Char} {s : List Char} (hs : Shows n s)
    (hnext : Place.bare.next c = .bare) (hc : c ≠ '.') : Shows n (c :: s) := by
  have hone : Shows 0 [c] := shows_of_not_mem hnext (by simp [hc.symm])
  simpa using hone.append hs

/-- A field shows the points that it has. -/
theorem FieldText.shows {field : List Char} (h : FieldText field) :
    Shows (field.count '.') field :=
  ⟨(h.isTerm.passes .bare).after, by rw [h.shown]⟩

/-- A phrase shows no points. -/
theorem PhraseText.shows {q u : List Char} (h : PhraseText q u) : Shows 0 u := by
  refine ⟨h.isSilent.after, ?_⟩
  obtain ⟨hraw⟩ := h
  rename_i raw
  have hafter : Place.after ⟨.phrase, false⟩ raw = ⟨.phrase, false⟩ :=
    (passes_quoted hraw (.inl rfl)).after
  have hnext : Place.bare.next '"' = ⟨.phrase, false⟩ := rfl
  rw [Place.shown_cons, hnext, Place.shown_append, hafter, shown_quoted hraw (.inl rfl),
    List.count_cons, List.count_append, List.count_replicate]
  rfl

/-- A field with a colon and a text that shows no point. -/
theorem FieldText.shows_append {field v : List Char} (h : FieldText field) (hv : Shows 0 v) :
    Shows (field.count '.') (field ++ ':' :: v) := by
  simpa using h.shows.append (hv.cons rfl (by decide) (c := ':'))

/-- A written leaf shows the points of its field. -/
theorem WritesLeaf.shows {field : Option (List Char)} {a : Atom} {u : List Char}
    (h : WritesLeaf field a u) : Shows (field.toList.flatten.count '.') u := by
  have fielded {field v : List Char} (hf : FieldText field) (hv : Shows 0 v) :
      Shows ((some field).toList.flatten.count '.') (field ++ ':' :: v) := by
    simpa using hf.shows_append hv
  cases h with
  | word hw =>
    exact shows_of_not_mem (hw.isTerm.passes .bare).after fun hmem =>
      absurd (hw.all _ hmem) (by decide)
  | phrase hu => exact hu.shows
  | fieldWord hf hw =>
    refine fielded hf.text (shows_of_not_mem (hw.isTerm.passes .bare).after fun hmem => ?_)
    exact absurd (hw.all _ hmem) (by decide)
  | fieldPhrase hf hu => exact fielded hf.text hu.shows

/-- A keyword has no point. -/
theorem IsKeyword.shows {word symbol : String} {k : List Char}
    (hmem : (word, symbol) ∈ [("AND", "&&"), ("OR", "||"), ("NOT", "!")])
    (h : IsKeyword word symbol k) : Shows 0 k :=
  shows_of_not_mem (h.term.passes .bare).after fun hpoint =>
    absurd (toLower_mem_of_isOperator (h.isOperator hmem) hpoint) (by decide)

/-- **What is written shows the points of its fields,** and no others. -/
theorem Writes.shows {rank : Rank} {c : Clause} {s : List Char} (h : Writes rank c s) :
    Shows (c.fields.flatten.count '.') s := by
  have closed {n : Nat} {s : List Char} (h : Shows n s) : Shows n (s ++ [')']) :=
    h.append (shows_of_not_mem (s := [')']) rfl (by decide))
  induction h with
  | leaf h => exact h.shows
  | group _ ih => exact (closed ih).cons rfl (by decide)
  | fieldGroup hf _ ih =>
    have hgroup := ((closed ih).cons (c := '(') rfl (by decide)).cons (c := ':') rfl (by decide)
    simpa [Clause.fields] using hf.text.shows.append hgroup
  | unsigned _ ih | factor _ ih | conjunction _ ih => exact ih
  | @signed _ x b c s hx _ hb _ ih =>
    rw [Clause.fields_prefixed]
    have hne : x ≠ '.' := by
      rintro rfl
      exact absurd hx (by decide)
    refine Shows.cons ?_ (next_of_isSign hx) hne
    rcases hb with rfl | rfl
    · exact ih
    · exact ih.cons rfl (by decide)
  | beside _ _ ihc ihd =>
    rw [Clause.fields, List.flatten_append, List.count_append]
    exact ihc.append (ihd.cons rfl (by decide))
  | and _ hk _ ihc ihd | or _ hk _ ihc ihd =>
    have hjoined := ((hk.shows (by simp)).append (ihd.cons (c := ' ') rfl (by decide))).cons
      (c := ' ') rfl (by decide)
    rw [Clause.fields, List.flatten_append, List.count_append]
    simpa using ihc.append hjoined

end Grammar
end SearchFilter
