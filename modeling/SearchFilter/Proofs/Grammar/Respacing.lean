/-
# Texts with other blanks

Two texts are *respaced* (`Respaced`) when they have the same words, parentheses and signs
in the same order, with other blanks between them:

| behind | blanks |
| --- | --- |
| `(` and a sign | any |
| `)` and a word | any in front of the end of a word, elsewhere none |
| a field name with its colon | none in front of `(`, in both texts |

The grammar reads the same clause from both (`clause?_of_loose`): every reader carries along
that what it is given goes on alike, and the readers of whole clauses that it is respaced. A
group is entered only at a parenthesis; which parenthesis that is does not depend on blanks,
apart from the one behind a field name.
-/

import SearchFilter.Proofs.Grammar.Completeness
import SearchFilter.Proofs.Grammar.Nesting
import SearchFilter.Proofs.Grammar.Tail

namespace SearchFilter
namespace Grammar

open Query
open Reader

/-! ### What clauses and their leaves carry -/

section
variable {p : Reader Clause} {R S V : List Char → List Char → Prop} [Std.Symm V]

/-- A clause with a field carries what its values do, where texts that are related go on with
values behind the field. -/
theorem fielded_carries
    (hfield : ∀ {field s t u : List Char}, FieldText field → R s t → s = field ++ ':' :: u →
      ∃ u', t = field ++ ':' :: u' ∧ V u u')
    (hgroup : (group p).Carries V S) (hrange : range.Carries V S)
    (hcomparison : comparison.Carries V S) (hphrase : phrase.Carries V S)
    (hterm : term.Carries V S) : (fielded p).Carries R S := by
  intro s t c m hst hp
  simp only [fielded, takes_bind, takes_just] at hp ⊢
  obtain ⟨field, _, hname, _, u, ⟨rfl, rfl⟩, hvalue⟩ := hp
  obtain ⟨hf, hs⟩ := takes_fieldName hname
  obtain ⟨u', rfl, hu⟩ := hfield hf hst hs
  have hcarries : (Reader.choice [
      Clause.fieldGroup field <$> group p,
      Clause.leaf (some field) <$> range,
      Clause.leaf (some field) <$> comparison,
      (fun p => Clause.leaf (some field) (.phrase p)) <$> phrase,
      (fun t => Clause.leaf (some field) (.term t)) <$> term]).Carries V S := by
    refine .choice ?_
    simp only [List.forall_mem_cons]
    exact ⟨hgroup.map _, hrange.map _, hcomparison.map _, hphrase.map _, hterm.map _, by simp⟩
  obtain ⟨m', hvalue', hm⟩ := hcarries hu hvalue
  exact ⟨m', ⟨field, _, hf.takes u', ':', u', ⟨rfl, rfl⟩, hvalue'⟩, hm⟩

/-- A clause without a field carries what its groups, ranges, phrases and terms do. -/
theorem unfielded_carries (hgroup : (group p).Carries V S) (hrange : range.Carries V S)
    (hphrase : phrase.Carries V S) (hterm : bareTerm.Carries V S) :
    (unfielded p).Carries V S := by
  refine .choice ?_
  simp only [List.forall_mem_cons]
  exact ⟨hgroup, hrange.map _, hphrase.map _, hterm.map _, by simp⟩

end

section
variable {p : Reader Clause} {R : List Char → List Char → Prop} [Std.Symm R]

/-- A conjunction carries what its keyword and its clauses do. -/
theorem conjunction_carries (hp : IsSound p)
    (hand : (Reader.padded (keyword "AND" "&&")).Carries R R) (h : (unary p).Carries R R) :
    (conjunction p).Carries R R := by
  have hnext : (nextUnary p).Carries R R := .bind (hand.opt fun _ _ => id) fun _ => h
  rw [conjunction_eq]
  exact .bind h fun _ => .bind ((hnext.many
    fun _ _ _ => length_lt_of_takes_nextUnary hp).mono (fun _ _ => id) fun _ _ => And.left)
    fun _ => .pure _

/-- A disjunction carries what its keyword and its conjunctions do. -/
theorem disjunction_carries (hp : IsSound p)
    (hor : (Reader.padded (keyword "OR" "||")).Carries R R) (h : (conjunction p).Carries R R) :
    (disjunction p).Carries R R := by
  have hnext : (nextConjunction p).Carries R R := .bind hor fun _ => h
  rw [disjunction_eq]
  exact .bind h fun _ => .bind ((hnext.many
    fun _ _ _ => length_lt_of_takes_nextConjunction hp).mono (fun _ _ => id) fun _ _ => And.left)
    fun _ => .pure _

end

/-! ### Respaced texts -/

/-- Texts that start with no blank, and that have the same words, parentheses and signs. -/
inductive Respaced : List Char → List Char → Prop
  | same {s : List Char} : Text.skipBlank s = s → Respaced s s
  | opening {s t : List Char} : Respaced (Text.skipBlank s) (Text.skipBlank t) →
    Respaced ('(' :: s) ('(' :: t)
  | closing {s t : List Char} : AtBoundary s → AtBoundary t →
    Respaced (Text.skipBlank s) (Text.skipBlank t) → Respaced (')' :: s) (')' :: t)
  | sign {c : Char} {s t : List Char} : isSign c = true →
    Respaced (Text.skipBlank s) (Text.skipBlank t) → Respaced (c :: s) (c :: t)
  | word {w s t : List Char} : IsWord w → (∀ c ∈ w.head?, isSign c = false) →
    AtBoundary s → AtBoundary t →
    (∀ field, FieldText field → w = field ++ [':'] →
      (s.head? = some '(' ↔ t.head? = some '(')) →
    Respaced (Text.skipBlank s) (Text.skipBlank t) → Respaced (w ++ s) (w ++ t)

/-- Texts that are respaced, blanks in front of them apart. -/
def Loose (s t : List Char) : Prop := Respaced (Text.skipBlank s) (Text.skipBlank t)

instance : Std.Symm Respaced where
  symm := by
    intro s t h
    induction h with
    | same hs => exact .same hs
    | opening _ ih => exact .opening ih
    | closing hs ht _ ih => exact .closing ht hs ih
    | sign hc _ ih => exact .sign hc ih
    | word hw hhead hs ht hfield _ ih =>
      exact .word hw hhead ht hs (fun f hf he => (hfield f hf he).symm) ih

instance : Std.Symm Loose where
  symm _ _ h := Std.Symm.symm (r := Respaced) _ _ h

variable {s t m : List Char}

/-- Blanks are skipped at once. -/
theorem skipBlank_skipBlank (s : List Char) :
    Text.skipBlank (Text.skipBlank s) = Text.skipBlank s := skipBlank_of_head fun c hc => by
  have hnot := List.head?_dropWhile_not Text.isBlank s
  rw [show List.dropWhile Text.isBlank s = Text.skipBlank s from rfl, hc] at hnot
  exact hnot

/-- Blanks in front do not matter to a reader that skips them. -/
theorem takes_padded_skipBlank {α : Type} {p : Reader α} {a : α} :
    (Reader.padded p).Takes (Text.skipBlank s) a m ↔ (Reader.padded p).Takes s a m := by
  rw [takes_padded, takes_padded, skipBlank_skipBlank]

/-- Every text is respaced as itself. -/
theorem Loose.refl (s : List Char) : Loose s s := .same (skipBlank_skipBlank s)

/-- Blanks in front of respaced texts can be skipped. -/
theorem Loose.skipBlank (h : Loose s t) : Loose (Text.skipBlank s) (Text.skipBlank t) := by
  rw [Loose, skipBlank_skipBlank, skipBlank_skipBlank]
  exact h

/-! ### How respaced texts start -/

/-- A character that ends no word is not blank. -/
theorem isBlank_eq_false_of_not_endsWord {c : Char} (h : endsWord c = false) :
    Text.isBlank c = false := by
  simp only [endsWord, Bool.or_eq_false_iff] at h
  exact h.1.1

/-- A whole word is the rest of itself. -/
theorem isTail_of_isWord {w : List Char} (h : IsWord w) : IsTail .bare w :=
  ⟨h.unbroken, h.finished⟩

/-- A word, with its first character. -/
theorem exists_cons_of_isWord {w : List Char} (h : IsWord w) :
    ∃ c v, w = c :: v ∧ endsWord c = false := by
  obtain ⟨c, v, rfl⟩ := List.exists_cons_of_ne_nil h.ne_nil
  exact ⟨c, v, rfl, (isUnbroken_cons.1 h.unbroken).1⟩

/-- No word starts with a character that ends words. -/
theorem append_ne_of_isWord {w s m : List Char} {c : Char} (h : IsWord w) (hc : endsWord c = true) :
    w ++ s ≠ c :: m := by
  obtain ⟨d, v, rfl, hd⟩ := exists_cons_of_isWord h
  intro he
  obtain rfl := (List.cons.inj he).1
  exact absurd hc (Bool.eq_false_iff.1 hd)

namespace Respaced

/-- A respaced text starts with no blank. -/
theorem skipBlank_eq (h : Respaced s t) : Text.skipBlank s = s := by
  cases h with
  | same hs => exact hs
  | opening | closing => rfl
  | sign hc => exact skipBlank_of_head (by rintro _ ⟨⟩; exact isBlank_of_isSign hc)
  | word hw =>
    obtain ⟨c, v, rfl, hc⟩ := exists_cons_of_isWord hw
    exact skipBlank_of_head (by rintro _ ⟨⟩; exact isBlank_eq_false_of_not_endsWord hc)

/-- Texts without blanks in front are respaced as they are. -/
theorem loose (h : Respaced s t) : Loose s t := by
  have h' : Respaced t s := Std.Symm.symm _ _ h
  rw [Loose, h.skipBlank_eq, h'.skipBlank_eq]
  exact h

/-- Respaced texts start with the same character. -/
theorem head?_eq (h : Respaced s t) : s.head? = t.head? := by
  cases h with
  | same | opening | closing | sign => rfl
  | word hw => obtain ⟨c, v, rfl, -⟩ := exists_cons_of_isWord hw; rfl

/-- If one text starts with an opening parenthesis, so does the other, and they go on respaced. -/
theorem of_opening (h : Respaced s t) (hs : s = '(' :: m) :
    ∃ m', t = '(' :: m' ∧ Loose m m' := by
  cases h with
  | same => exact ⟨m, hs, .refl m⟩
  | @opening s t h =>
    obtain ⟨-, rfl⟩ := List.cons.inj hs
    exact ⟨t, rfl, h⟩
  | closing => exact absurd (List.cons.inj hs).1 (by decide)
  | sign hc =>
    obtain ⟨rfl, -⟩ := List.cons.inj hs
    exact absurd hc (by decide)
  | word hw => exact absurd hs (append_ne_of_isWord hw rfl)

/-- If one text starts with a closing parenthesis, so does the other, and they go on in the same way
or respaced behind the end of a word. -/
theorem of_closing (h : Respaced s t) (hs : s = ')' :: m) :
    ∃ m', t = ')' :: m' ∧ (m = m' ∨ AtBoundary m ∧ AtBoundary m' ∧ Loose m m') := by
  cases h with
  | same => exact ⟨m, hs, .inl rfl⟩
  | opening => exact absurd (List.cons.inj hs).1 (by decide)
  | @closing s t hs' ht h =>
    obtain ⟨-, rfl⟩ := List.cons.inj hs
    exact ⟨t, rfl, .inr ⟨hs', ht, h⟩⟩
  | sign hc =>
    obtain ⟨rfl, -⟩ := List.cons.inj hs
    exact absurd hc (by decide)
  | word hw => exact absurd hs (append_ne_of_isWord hw rfl)

/-- If one text starts with a sign, so does the other, and they go on respaced. -/
theorem of_sign {c : Char} (h : Respaced s t) (hc : isSign c = true) (hs : s = c :: m) :
    ∃ m', t = c :: m' ∧ Loose m m' := by
  cases h with
  | same => exact ⟨m, hs, .refl m⟩
  | opening | closing =>
    obtain ⟨rfl, -⟩ := List.cons.inj hs
    exact absurd hc (by decide)
  | @sign c s t _ h =>
    obtain ⟨rfl, rfl⟩ := List.cons.inj hs
    exact ⟨t, rfl, h⟩
  | word hw hhead =>
    obtain ⟨d, v, rfl, -⟩ := exists_cons_of_isWord hw
    obtain ⟨rfl, -⟩ := List.cons.inj hs
    exact absurd (hhead _ rfl) (by simp [hc])

end Respaced

/-! ### Where readers stand in respaced texts -/

/-- Texts that go on alike: they are the same, or start with the same rest of a word. -/
def Continues (s t : List Char) : Prop := s = t ∨ SameTail Loose .bare s t

/-- Respaced texts at the start of a clause, behind its signs. -/
structure AtClause (s t : List Char) : Prop where
  respaced : Respaced s t
  head : ∀ c ∈ s.head?, isSign c = false

/-- Respaced texts at a group or a value: both go on with a group, or none of them. -/
inductive AtValue : List Char → List Char → Prop
  | same (s : List Char) : AtValue s s
  | opening {s t : List Char} : Loose s t → AtValue ('(' :: s) ('(' :: t)
  | tail {s t : List Char} : SameTail Loose .bare s t → s.head? ≠ some '(' →
    t.head? ≠ some '(' → AtValue s t

instance : Std.Symm AtClause where
  symm _ _ h := ⟨Std.Symm.symm _ _ h.respaced, h.respaced.head?_eq ▸ h.head⟩

instance : Std.Symm AtValue where
  symm _ _ h := by
    cases h with
    | same => exact .same _
    | opening h => exact .opening (Std.Symm.symm _ _ h)
    | tail h hs ht => exact .tail (Std.Symm.symm _ _ h) ht hs

/-- Behind a closing parenthesis respaced texts go on alike. -/
theorem Continues.of_closing (h : m = t ∨ AtBoundary m ∧ AtBoundary t ∧ Loose m t) :
    Continues m t := by
  rcases h with rfl | ⟨hm, ht, h⟩
  · exact .inl rfl
  · exact .inr (.mk isTail_nil hm ht h)

/-- What is left of a word behind a keyword starts with a delimiter, and is a word again. -/
theorem SameTail.loose (h : SameTail Loose .bare s t)
    (hhead : ∀ c ∈ s.head?, Text.isBlank c = true ∨ isDelimiter c = true) : Loose s t := by
  obtain @⟨v, x, y, hv, hx, hy, h⟩ := h
  by_cases hne : v = []
  · rw [hne]
    exact h
  · obtain ⟨c, v, rfl⟩ := List.exists_cons_of_ne_nil hne
    have hc : isDelimiter c = true := by
      have hends : endsWord c = false := (isUnbroken_cons.1 hv.unbroken).1
      simpa [isBlank_eq_false_of_not_endsWord hends] using hhead c rfl
    have hhead : ∀ d ∈ (c :: v).head?, isSign d = false := by
      rintro _ ⟨⟩
      exact isSign_of_isDelimiter hc
    refine Respaced.loose (.word ⟨hne, hv.unbroken, hv.finished⟩ hhead hx hy ?_ h)
    intro field hf he
    obtain ⟨d, field, rfl⟩ := List.exists_cons_of_ne_nil hf.isTerm.ne_nil
    obtain ⟨rfl, -⟩ := List.cons.inj he
    have hname := Text.isNamePart_of_isNameStart (hf.isNameStart _ rfl)
    rw [isDelimiter_of_isNamePart hname] at hc
    cases hc

/-- Respaced texts at the start of a clause stand at a value. -/
theorem AtClause.atValue (h : AtClause s t) : AtValue s t := by
  obtain ⟨h, hhead⟩ := h
  cases h with
  | same => exact .same _
  | opening h => exact .opening h
  | closing hs ht h =>
    exact .tail (.mk isTail_nil (by simp [endsWord]) (by simp [endsWord])
      (Respaced.loose (.closing hs ht h))) (by simp) (by simp)
  | sign hc => exact absurd (hhead _ rfl) (by simp [hc])
  | word hw _ hs ht _ h =>
    have htail := isTail_of_isWord hw
    obtain ⟨c, v, rfl, hc⟩ := exists_cons_of_isWord hw
    have hne : some c ≠ some '(' := by rintro ⟨⟩; exact absurd hc (by decide)
    exact .tail (.mk htail hs ht h) hne hne

/-! ### Groups and values -/

variable {p : Reader Clause}

/-- A reader that stays inside of words reads the same of a value in both texts, if it does
not read groups. -/
theorem carries_atValue {α : Type} {p : Reader α}
    (h : p.Carries (SameTail Loose .bare) (SameTail Loose .bare))
    (hgroup : ∀ m, p.Fails ('(' :: m)) : p.Carries AtValue Continues := by
  intro s t a m hst hp
  cases hst with
  | same => exact ⟨m, hp, .inl rfl⟩
  | opening => exact absurd hp (hgroup _).not_takes
  | tail hst =>
    obtain ⟨m', hp', hm⟩ := h hst hp
    exact ⟨m', hp', .inr hm⟩

/-- A group is read alike from both texts, if clauses are. -/
theorem carries_group (h : p.Carries Loose Loose) : (group p).Carries AtValue Continues := by
  intro s t c m hst hp
  obtain ⟨_, u, hopening, hrest⟩ := takes_bind.1 (takes_labelled.1 hp)
  obtain ⟨rfl, rfl⟩ := takes_just.1 hopening
  cases hst with
  | same => exact ⟨m, hp, .inl rfl⟩
  | tail _ hs => exact absurd rfl hs
  | opening hst =>
    simp only [takes_bind, takes_padded, takes_just, takes_pure] at hrest
    obtain ⟨c, _, ⟨v, hc, rfl⟩, _, _, ⟨hv, rfl⟩, rfl, rfl⟩ := hrest
    obtain ⟨v', hc', hvv⟩ := h hst.skipBlank hc
    obtain ⟨m', hv', hm⟩ := hvv.of_closing hv
    exact ⟨m', takes_group_of_inner hc' hv', .of_closing hm⟩

/-- Behind a field name with its colon, respaced texts stand at a value. -/
theorem AtClause.of_field {field u : List Char} (hf : FieldText field) (h : AtClause s t)
    (hs : s = field ++ ':' :: u) : ∃ u', t = field ++ ':' :: u' ∧ AtValue u u' := by
  obtain ⟨d, v, hd⟩ := List.exists_cons_of_ne_nil hf.isTerm.ne_nil
  have hname : Text.isNameStart d = true := hf.isNameStart d (by simp [hd])
  obtain ⟨h, hhead⟩ := h
  cases h with
  | same => exact ⟨u, hs, .same u⟩
  | opening | closing =>
    rw [hd] at hs
    obtain ⟨rfl, -⟩ := List.cons.inj hs
    exact absurd hname (by decide)
  | sign hc => exact absurd (hhead _ rfl) (by simp [hc])
  | @word w x y hw _ hx hy hopening h =>
    have hpass := hf.passes_colon
    obtain ⟨v, rfl, rfl, hv⟩ := (isTail_of_isWord hw).cut hx hpass.unbroken hpass.after
      (hs.trans (List.append_cons ..))
    refine ⟨v ++ y, by simp, ?_⟩
    rcases v with _ | ⟨e, v⟩
    · by_cases hgroup : x.head? = some '('
      · obtain ⟨x, rfl⟩ := List.head?_eq_some_iff.1 hgroup
        obtain ⟨y, rfl⟩ := List.head?_eq_some_iff.1 ((hopening field hf (by simp)).1 hgroup)
        obtain ⟨_, hy', hxy⟩ := Respaced.of_opening h rfl
        obtain ⟨-, rfl⟩ := List.cons.inj hy'
        exact .opening hxy
      · exact .tail (.mk hv hx hy h) hgroup fun hy' => hgroup ((hopening field hf (by simp)).2 hy')
    · have hne : some e ≠ some '(' := by
        rintro ⟨⟩
        exact absurd (isUnbroken_cons.1 hv.unbroken).1 (by decide)
      exact .tail (.mk hv hx hy h) hne hne

/-- A clause with a field is read alike from both texts, if clauses in groups are. -/
theorem carries_fielded (h : p.Carries Loose Loose) : (fielded p).Carries AtClause Continues :=
  fielded_carries (fun hf hst => hst.of_field hf) (carries_group h)
    (carries_atValue carries_range fun _ => rfl) (carries_atValue carries_comparison fun _ => rfl)
    (carries_atValue (carries_phrase (.inl rfl)) fun _ => rfl)
    (carries_atValue carries_term fun _ => rfl)

/-- A clause without a field is read alike from both texts, if clauses in groups are. -/
theorem carries_unfielded (h : p.Carries Loose Loose) :
    (unfielded p).Carries AtClause Continues :=
  Carries.mono (unfielded_carries (carries_group h) (carries_atValue carries_range fun _ => rfl)
    (carries_atValue (carries_phrase (.inl rfl)) fun _ => rfl)
    (carries_atValue carries_bareTerm fun _ => rfl)) (fun _ _ => AtClause.atValue) fun _ _ => id

/-- Where a word ends in one text, it ends in the other. -/
theorem carries_boundary : boundary.Carries Continues Loose := by
  intro s t _ m hst hp
  obtain ⟨rfl, hs⟩ := takes_boundary hp
  rcases hst with rfl | @⟨v, x, y, hv, hx, hy, h⟩
  · exact ⟨m, hp, .refl m⟩
  · rcases v with _ | ⟨c, v⟩
    · exact ⟨y, takes_boundary_of_atBoundary hy, h⟩
    · have hends : endsWord c = false := (isUnbroken_cons.1 hv.unbroken).1
      rw [atBoundary_cons.1 hs] at hends
      cases hends

/-- A clause with its suffixes is read alike from both texts, if clauses in groups are. -/
theorem carries_modified (h : p.Carries Loose Loose) : (modified p).Carries AtClause Loose :=
  .bind (.orElse (carries_fielded h) (carries_unfielded h)) fun _ =>
  .bind (carries_fuzzySuffix.opt fun _ _ => id).orEq fun _ =>
  .bind (carries_boostSuffix.opt fun _ _ => id).orEq fun _ =>
  .bind carries_boundary fun _ => .pure _

/-! ### Prefixes and keywords -/

/-- A keyword is read alike at the start of a clause. -/
theorem carries_keyword_atClause (word symbol : String) :
    (keyword word symbol).Carries AtClause Loose := by
  intro s t _ m hst hp
  have hhead : ∀ c ∈ m.head?, Text.isBlank c = true ∨ isDelimiter c = true := by
    obtain ⟨k, -, -, hspan⟩ := takes_keyword hp
    exact (spanTerm_spec hspan).2.2.1
  cases hst.atValue with
  | same => exact ⟨m, hp, .refl m⟩
  | @opening s t => exact absurd hp (show (keyword word symbol).Fails ('(' :: s) from rfl).not_takes
  | tail h =>
    obtain ⟨m', hp', hm⟩ := carries_keyword word symbol h hp
    exact ⟨m', hp', hm.loose hhead⟩

/-- The keywords between clauses are read alike, with the blanks around them. -/
theorem carries_padded_keyword {word symbol : String}
    (hmem : (word, symbol) ∈ [("AND", "&&"), ("OR", "||")]) :
    (Reader.padded (keyword word symbol)).Carries Loose Loose := by
  have hkeyword : (keyword word symbol).Carries Respaced Loose := by
    intro s t _ m hst hp
    obtain ⟨k, hk, hs, -⟩ := takes_keyword hp
    refine carries_keyword_atClause word symbol ⟨hst, fun c hc => ?_⟩ hp
    refine hk.isSign_eq_false hmem c ?_
    obtain ⟨d, v, rfl⟩ := List.exists_cons_of_ne_nil hk.term.ne_nil
    rwa [hs] at hc
  exact hkeyword.padded fun _ _ => Loose.skipBlank

/-- A prefix is read alike from both texts. -/
theorem carries_signPrefix : signPrefix.Carries Loose Respaced := by
  intro s t q r hst hp
  by_cases hsign : ∃ x u, isSign x = true ∧ Text.skipBlank s = x :: u
  · obtain ⟨x, u, hx, hs⟩ := hsign
    obtain ⟨u', ht, hu⟩ := Respaced.of_sign hst hx hs
    obtain ⟨q', hq'⟩ : ∃ q' : Prefix, q' = .must ↔ x = '+' :=
      ⟨if x = '+' then .must else .mustNot, by split <;> simp_all⟩
    have htakes {y v : List Char} (hy : Text.skipBlank y = x :: v) :
        signPrefix.Takes y q' (Text.skipBlank v) :=
      takes_padded_skipBlank.1 (hy ▸ takes_signPrefix_of_sign hx hq' v)
    obtain ⟨rfl, rfl⟩ := hp.unique (htakes hs)
    exact ⟨_, htakes ht, hu⟩
  · have hjust {x : Char} (hx : isSign x = true) : (just x).Carries AtClause Loose := by
      intro s t _ m hst hs
      obtain ⟨rfl, rfl⟩ := takes_just.1 hs
      exact absurd (hst.head _ rfl) (by simp [hx])
    have hcarries : (Reader.choice [
        (fun _ => Prefix.mustNot) <$> Reader.just '!',
        (fun _ => Prefix.must) <$> Reader.just '+',
        (fun _ => Prefix.mustNot) <$> Reader.just '-',
        (fun _ => Prefix.mustNot) <$> keyword "NOT" "!"]).Carries AtClause Loose := by
      refine .choice ?_
      simp only [List.forall_mem_cons]
      exact ⟨(hjust rfl).map _, (hjust rfl).map _, (hjust rfl).map _,
        (carries_keyword_atClause _ _).map _, by simp⟩
    have hhead : ∀ c ∈ (Text.skipBlank s).head?, isSign c = false := fun c hc =>
      Bool.eq_false_iff.2 fun hs => hsign ⟨c, _, hs, (List.head?_eq_some_iff.1 hc).choose_spec⟩
    obtain ⟨m, hm, rfl⟩ := takes_padded.1 hp
    obtain ⟨m', hm', hloose⟩ := hcarries ⟨hst, hhead⟩ hm
    exact ⟨_, takes_padded.2 ⟨m', hm', rfl⟩, hloose⟩

/-- A clause with its prefixes is read alike from both texts, if clauses in groups are. -/
theorem carries_unary (h : p.Carries Loose Loose) : (unary p).Carries Loose Loose := by
  have hsigns : (Reader.many signPrefix).Carries Respaced AtClause :=
    ((carries_signPrefix.mono (fun _ _ => Respaced.loose) fun _ _ => id).many
      fun _ _ _ => length_lt_of_takes_signPrefix).mono (fun _ _ => id)
      fun _ _ hm => ⟨hm.1, isSign_eq_false_of_fails hm.2⟩
  exact Carries.padded (.bind hsigns fun _ => .bind (carries_modified h) fun _ => .pure _)
    fun _ _ => Loose.skipBlank

/-- A conjunction is read alike from both texts, if clauses in groups are. -/
theorem carries_conjunction (h : p.Carries Loose Loose) (hp : IsSound p) :
    (conjunction p).Carries Loose Loose :=
  conjunction_carries hp (carries_padded_keyword (by simp)) (carries_unary h)

/-- A disjunction is read alike from both texts, if clauses in groups are. -/
theorem carries_disjunction (h : p.Carries Loose Loose) (hp : IsSound p) :
    (disjunction p).Carries Loose Loose :=
  disjunction_carries hp (carries_padded_keyword (by simp)) (carries_conjunction h hp)

/-- **Queries nested to any depth are read alike from respaced texts.** -/
theorem carries_clauseWithin (n : Nat) : (clauseWithin n).Carries Loose Loose := by
  induction n with
  | zero => exact fun _ _ _ _ _ h => absurd h (show (clauseWithin 0).Fails _ from rfl).not_takes
  | succ n ih => exact carries_disjunction ih (isSound_clauseWithin n)

/-! ### Whole queries -/

/-- Bounds on how deep groups may be nested add up. -/
theorem clauseAround_clauseWithin (j k : Nat) :
    clauseAround (clauseWithin j) k = clauseWithin (j + k) := by
  induction k with
  | zero => rfl
  | succ k ih => rw [clauseAround, ih]; rfl

/-- A bound that is no less than the length of a text allows for all of its groups. -/
theorem clauseWithin_eq_of_takes {n : Nat} (hn : s.length ≤ n) {c : Clause}
    (h : (clauseWithin (n + 1)).Takes (Text.skipBlank s) c m) (hm : Text.skipBlank m = [])
    (j : Nat) :
    clauseWithin (j + s.length + 1) (Text.skipBlank s) =
      clauseWithin (n + 1) (Text.skipBlank s) := by
  have hheight : Role.height 0 (roles (Text.skipBlank s)) ≤ s.length := by
    rw [roles_skipBlank]
    have := height_roles_le_length s 0
    omega
  have hsum : n - s.length + s.length = n := by omega
  have hcongr := clauseAround_congr_of_takes (clauseWithin j) s.length (Nat.zero_add _) hheight
    (hsum.symm ▸ h) (.inl hm)
  rw [hsum, clauseAround_clauseWithin] at hcongr
  exact hcongr

/-- A clause is what is read off the whole text within any bound that is great enough. -/
theorem clause?_eq_ok_iff_within {c : Clause} {n : Nat} (hn : s.length ≤ n) :
    clause? s = .ok c ↔
      ∃ m, (clauseWithin (n + 1)).Takes (Text.skipBlank s) c m ∧ Text.skipBlank m = [] := by
  rw [clause?_eq_ok_iff]
  constructor
  · rintro ⟨r, hr⟩
    obtain ⟨m, hc, hm, -⟩ := takes_query.1 hr
    have heq := clauseWithin_eq_of_takes (Nat.le_refl _) hc hm (n - s.length)
    rw [Nat.sub_add_cancel hn] at heq
    exact ⟨m, by rw [Takes, heq]; exact hc, hm⟩
  · rintro ⟨m, hc, hm⟩
    have heq := clauseWithin_eq_of_takes hn hc hm 0
    rw [Nat.zero_add] at heq
    exact ⟨[], takes_query.2 ⟨m, by rw [Takes, heq]; exact hc, hm, rfl⟩⟩

/-- **Respaced texts write the same clause.** -/
theorem clause?_of_loose {c : Clause} (h : Loose s t) (hs : clause? s = .ok c) :
    clause? t = .ok c := by
  have hn : s.length ≤ max s.length t.length := Nat.le_max_left ..
  obtain ⟨m, hc, hm⟩ := (clause?_eq_ok_iff_within hn).1 hs
  obtain ⟨m', hc', hmm⟩ := carries_clauseWithin _ h.skipBlank hc
  refine (clause?_eq_ok_iff_within (Nat.le_max_right s.length t.length)).2 ⟨m', hc', ?_⟩
  rw [Loose, hm] at hmm
  exact List.head?_eq_none_iff.1 hmm.head?_eq.symm

/-- **Respaced texts are the same filter.** -/
theorem filter?_of_loose {column : Option Column} {q q' : String} {f : Option Filter}
    (h : Loose q.toList q'.toList) (hq : filter? column q = .ok f) : filter? column q' = .ok f := by
  have hblank : Text.allBlank q'.toList = Text.allBlank q.toList := by
    rw [Bool.eq_iff_iff, ← Text.skipBlank_eq_nil_iff, ← Text.skipBlank_eq_nil_iff,
      ← List.head?_eq_none_iff, ← List.head?_eq_none_iff, Respaced.head?_eq h]
  rw [filter?] at hq ⊢
  rw [hblank]
  split at hq
  · rename_i hb
    rw [if_pos hb]
    exact hq
  · rename_i hb
    rw [if_neg hb]
    split at hq
    · cases hq
    · rename_i c hc
      rw [clause?_of_loose h hc]
      exact hq

end Grammar
end SearchFilter
