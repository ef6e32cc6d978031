/-
# Readers on related texts

A reader *carries* a relation of texts to another one when of two related texts it takes
the same, and what it leaves of them is related again. Where one text stands in the first
relation to the other, then so does the other to the one; so a reader that fails on one of
them fails on both (`Carries.fails`).

| reader | carries |
| --- | --- |
| `p >>= f` | what `p` and `f` carry, one after the other |
| `orElse p q`, `choice ps` | what all of them carry |
| `opt p` | what `p` carries, and the texts as they are |
| `many p` | a relation, up to where `p` fails |
| `padded p` | what `p` carries, blanks apart |
-/

import SearchFilter.Proofs.Grammar.Fails

namespace SearchFilter
namespace Grammar
namespace Reader

variable {α β : Type} {p q : Reader α} {R S T : List Char → List Char → Prop}

/-- From related texts the reader takes the same, and leaves related texts. -/
def Carries (p : Reader α) (R S : List Char → List Char → Prop) : Prop :=
  ∀ ⦃s t a m⦄, R s t → p.Takes s a m → ∃ m', p.Takes t a m' ∧ S m m'

namespace Carries

/-- A reader carries less from more texts, and to fewer conclusions. -/
theorem mono {R' S' : List Char → List Char → Prop} (h : p.Carries R S)
    (hR : ∀ s t, R' s t → R s t) (hS : ∀ s t, S s t → S' s t) : p.Carries R' S' := by
  intro s t a m hst hp
  obtain ⟨m', hp', hm⟩ := h (hR s t hst) hp
  exact ⟨m', hp', hS m m' hm⟩

/-- A reader carries equality along, whatever else it carries. -/
theorem orEq (h : p.Carries R S) :
    p.Carries (fun s t => s = t ∨ R s t) fun s t => s = t ∨ S s t := by
  rintro s t a m (rfl | hst) hp
  · exact ⟨m, hp, .inl rfl⟩
  · obtain ⟨m', hp', hm⟩ := h hst hp
    exact ⟨m', hp', .inr hm⟩

/-- A reader that fails on a text fails on the related ones. -/
theorem fails [Std.Symm R] {s t : List Char} (h : p.Carries R S) (hst : R s t) (hs : p.Fails s) :
    p.Fails t := fails_of_not_takes fun _ _ ht => by
  obtain ⟨m, hm, -⟩ := h (Std.Symm.symm _ _ hst) ht
  exact hs.not_takes hm

/-- A reader that takes nothing off a text carries every relation along. -/
theorem pure (a : α) : (Pure.pure a : Reader α).Carries R R := by
  intro s t b m hst hp
  obtain ⟨rfl, rfl⟩ := takes_pure.1 hp
  exact ⟨t, takes_pure.2 ⟨rfl, rfl⟩, hst⟩

/-- Two readers carry what they do one after the other. -/
theorem bind {f : α → Reader β} (h : p.Carries R S) (hf : ∀ a, (f a).Carries S T) :
    (p >>= f).Carries R T := by
  intro s t b m hst hp
  obtain ⟨a, u, ha, hb⟩ := takes_bind.1 hp
  obtain ⟨u', ha', hu⟩ := h hst ha
  obtain ⟨m', hb', hm⟩ := hf a hu hb
  exact ⟨m', takes_bind.2 ⟨a, u', ha', hb'⟩, hm⟩

/-- A function of what is read changes nothing of what is carried. -/
theorem map (h : p.Carries R S) (f : α → β) : (f <$> p).Carries R S := by
  intro s t b m hst hp
  obtain ⟨a, ha, rfl⟩ := takes_map.1 hp
  obtain ⟨m', ha', hm⟩ := h hst ha
  exact ⟨m', takes_map.2 ⟨a, ha', rfl⟩, hm⟩

/-- Of two readers that carry the same, one in place of the other does so too. -/
theorem orElse [Std.Symm R] (hp : p.Carries R S) (hq : q.Carries R S) :
    (Reader.orElse p q).Carries R S := by
  intro s t a m hst h
  rcases takes_orElse.1 h with h | ⟨hfails, h⟩
  · obtain ⟨m', h', hm⟩ := hp hst h
    exact ⟨m', takes_orElse.2 (.inl h'), hm⟩
  · obtain ⟨m', h', hm⟩ := hq hst h
    exact ⟨m', takes_orElse.2 (.inr ⟨hp.fails hst hfails, h'⟩), hm⟩

/-- A choice carries what all of its readers do. -/
theorem choice [Std.Symm R] {ps : List (Reader α)} (h : ∀ p ∈ ps, p.Carries R S) :
    (Reader.choice ps).Carries R S := by
  induction ps with
  | nil => exact fun _ _ _ _ _ hp => absurd hp takes_choice_nil
  | cons p ps ih =>
    exact orElse (h p (List.mem_cons_self ..)) (ih fun q hq => h q (List.mem_cons_of_mem p hq))

/-- An optional reader carries what the reader does, if texts that it does not read are related
so as well. -/
theorem opt [Std.Symm R] (h : p.Carries R S) (hRS : ∀ s t, R s t → S s t) :
    (Reader.opt p).Carries R S := by
  intro s t a m hst hp
  rcases takes_opt.1 hp with ⟨b, rfl, hb⟩ | ⟨rfl, rfl, hfails⟩
  · obtain ⟨m', hb', hm⟩ := h hst hb
    exact ⟨m', takes_opt.2 (.inl ⟨b, rfl, hb'⟩), hm⟩
  · exact ⟨t, takes_opt.2 (.inr ⟨rfl, rfl, h.fails hst hfails⟩), hRS _ _ hst⟩

/-- A name for what is missing changes nothing of what is carried. -/
theorem labelled (h : p.Carries R S) : (Reader.labelled p).Carries R S := h

/-- What has to be accepted is carried as it is read. -/
theorem accept (h : p.Carries R S) (f : α → Option β) : (Reader.accept p f).Carries R S := by
  intro s t b m hst hp
  obtain ⟨a, ha, hb⟩ := takes_accept.1 hp
  obtain ⟨m', ha', hm⟩ := h hst ha
  exact ⟨m', takes_accept.2 ⟨a, ha', hb⟩, hm⟩

/-- Blanks around a reader play no part where they play none in the relations. -/
theorem padded (h : p.Carries R S)
    (hS : ∀ u u', S u u' → T (Text.skipBlank u) (Text.skipBlank u')) :
    (Reader.padded p).Carries (fun s t => R (Text.skipBlank s) (Text.skipBlank t)) T := by
  intro s t a m hst hp
  obtain ⟨u, hu, rfl⟩ := takes_padded.1 hp
  obtain ⟨u', hu', hm⟩ := h hst hu
  exact ⟨_, takes_padded.2 ⟨u', hu', rfl⟩, hS u u' hm⟩

/-- Readings one after the other carry a relation along. -/
theorem takesAll (h : p.Carries R R) {s t m : List Char} {as : List α}
    (hall : p.TakesAll s as m) (hst : R s t) : ∃ m', p.TakesAll t as m' ∧ R m m' := by
  induction hall generalizing t with
  | nil s => exact ⟨t, .nil t, hst⟩
  | cons ha _ ih =>
    obtain ⟨u, hu, hmu⟩ := h hst ha
    obtain ⟨m', hall', hm⟩ := ih hmu
    exact ⟨m', .cons hu hall', hm⟩

/-- A repetition carries along what its reader does; it ends where this fails, which is in
both texts at once. -/
theorem many [Std.Symm R] (h : p.Carries R R)
    (hlength : ∀ s a r, p.Takes s a r → r.length < s.length) :
    (Reader.many p).Carries R fun m m' => R m m' ∧ p.Fails m := by
  intro s t as m hst hp
  have hfails := fails_of_takes_many hlength hp
  obtain ⟨m', hall, hm⟩ := h.takesAll (takesAll_of_takes_many hp) hst
  exact ⟨m', takes_many hlength hall (h.fails hm hfails), hm, hfails⟩

end Carries
end Reader
end Grammar
end SearchFilter
