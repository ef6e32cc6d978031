/-
# The fields of a clause in its text

A clause names fields, in the order in which they stand in its text
(`Clause.fields`). The masked text shows them, each with its colon, and shows no other
colon: what could hide or feign one is not shown (`IsSilent`).

| part of the text | shown as |
| --- | --- |
| terms, suffixes, keywords, signs | themselves, pairs as blanks |
| phrases | their quotes, with blanks between them |
| ranges | their brackets and the quotes in them, with blanks between them |
| fields with their colon | themselves |

Behind each part either a reference can start or the text does not go on with a name
(`CanCite`), so that no field is overlooked (`Reads.quotes`).
-/

import SearchFilter.Proofs.Grammar.Outline
import SearchFilter.Proofs.Query.Citation

namespace SearchFilter
namespace Grammar

open Query

/-- The fields that a clause names, in the order of its text. -/
def Clause.fields : Clause → List (List Char)
  | .leaf field _ => field.toList
  | .fieldGroup field c => field :: c.fields
  | .and l r => l.fields ++ r.fields
  | .or l r => l.fields ++ r.fields
  | .must c => c.fields
  | .mustNot c => c.fields
  | .fuzzy c _ => c.fields
  | .boost c _ => c.fields

/-- Suffixes name no fields. -/
@[simp] theorem Clause.fields_suffixed (c : Clause) (fuzzy : Option (Option Nat))
    (boost : Option Double) : (c.suffixed fuzzy boost).fields = c.fields := by
  cases fuzzy <;> cases boost <;> rfl

/-- Prefixes name no fields. -/
@[simp] theorem Clause.fields_prefixed (ps : List Prefix) (c : Clause) :
    (c.prefixed ps).fields = c.fields := by
  rw [prefixed]
  split
  · rfl
  · split <;> rfl

/-! ### What shows no colon -/

/-- A text that leads from a spot back to it and shows no colon. -/
structure IsSilent (spot : Spot) (u : List Char) : Prop where
  after : Place.after ⟨spot, false⟩ u = ⟨spot, false⟩
  colon : ':' ∉ Place.shown ⟨spot, false⟩ u

/-- Silent texts are silent one after the other. -/
theorem IsSilent.append {spot : Spot} {u v : List Char} (hu : IsSilent spot u)
    (hv : IsSilent spot v) : IsSilent spot (u ++ v) where
  after := by rw [Place.after_append, hu.after, hv.after]
  colon := by simp [Place.shown_append, hu.after, hu.colon, hv.colon]

/-- A text between a character that leads to another spot and one that leads back. -/
theorem IsSilent.enclose {spot inner : Spot} {opening closing : Char} {u : List Char}
    (hu : IsSilent inner u) (hin : Place.next ⟨spot, false⟩ opening = ⟨inner, false⟩)
    (hout : Place.next ⟨inner, false⟩ closing = ⟨spot, false⟩)
    (hopening : Place.shownAt ⟨spot, false⟩ opening ≠ ':')
    (hclosing : Place.shownAt ⟨inner, false⟩ closing ≠ ':') :
    IsSilent spot (opening :: (u ++ [closing])) where
  after := by simp [hin, hu.after, hout]
  colon := by
    simp [Place.shown_cons, Place.shown_append, hin, hu.after, hu.colon, hopening.symm,
      hclosing.symm]

/-- A text without a colon shows none. -/
theorem isSilent_of_not_mem {spot : Spot} {u : List Char}
    (hafter : Place.after ⟨spot, false⟩ u = ⟨spot, false⟩) (hu : ':' ∉ u) : IsSilent spot u :=
  ⟨hafter, Place.not_mem_shown (by decide) hu _⟩

/-- A backslash and the character behind it show no colon. -/
theorem isSilent_pair (spot : Spot) (c : Char) : IsSilent spot ['\\', c] := by
  refine ⟨rfl, ?_⟩
  simp [Place.shown_pair]

/-- A term shows no colon. -/
theorem IsTerm.isSilent {u : List Char} (h : IsTerm u) (spot : Spot) : IsSilent spot u := by
  refine spanTerm_induction (P := fun u => IsSilent spot u) ?_ ?_ ?_ h.span
  · exact isSilent_of_not_mem rfl (by simp)
  · exact fun c _ _ ih => (isSilent_pair spot c).append ih
  · intro c r hc _ ih
    refine (isSilent_of_not_mem (passes_plain (isPlain_of_not_delimiter hc) spot).after ?_).append ih
    rw [List.mem_singleton]
    rintro rfl
    exact absurd hc (by decide)

/-- The inside of a phrase is shown as blanks. -/
theorem shown_quoted {raw inside : List Char} (h : spanQuoted raw = (inside, [])) {spot : Spot}
    (hspot : spot = .phrase ∨ spot = .phraseInRange) :
    Place.shown ⟨spot, false⟩ raw = List.replicate raw.length ' ' := by
  fun_induction spanQuoted raw generalizing inside with
  | case1 => rfl
  | case2 c r inner rest hcut ih =>
    obtain ⟨-, rfl⟩ := Prod.mk.inj h
    rw [Place.shown_pair, ih hcut]
    rfl
  | case3 c r hne hb => cases h
  | case4 c r hne hb inner rest hcut ih =>
    obtain ⟨-, rfl⟩ := Prod.mk.inj h
    have hr := ih hcut
    rw [not_or] at hb
    rw [Place.shown_cons, Place.next_of_ne hb.2, List.length_cons, List.replicate_succ]
    rcases hspot with rfl | rfl <;>
      simpa [Place.shownAt, Spot.isQuoted, Spot.next, hb] using hr

/-- The inside of a phrase shows no colon. -/
theorem isSilent_quoted {raw inside : List Char} (h : spanQuoted raw = (inside, [])) {spot : Spot}
    (hspot : spot = .phrase ∨ spot = .phraseInRange) : IsSilent spot raw where
  after := (passes_quoted h hspot).after
  colon := by
    rw [shown_quoted h hspot]
    simp

/-- A phrase shows no colon. -/
theorem PhraseText.isSilent {p u : List Char} (h : PhraseText p u) : IsSilent .bare u := by
  obtain ⟨h⟩ := h
  have h := isSilent_quoted h (.inl rfl)
  exact h.enclose rfl rfl (by decide) (by decide)

/-- A phrase in a range shows no colon. -/
theorem PhraseText.isSilent_range {p u : List Char} (h : PhraseText p u) : IsSilent .range u := by
  obtain ⟨h⟩ := h
  have h := isSilent_quoted h (.inr rfl)
  exact h.enclose rfl rfl (by decide) (by decide)

/-- A bound shows no colon. -/
theorem BoundText.isSilent_range {b : Option (List Char)} {u : List Char} (h : BoundText b u) :
    IsSilent .range u := by
  cases h with
  | phrase h => exact h.isSilent_range
  | unlimited => exact isSilent_of_not_mem rfl (by decide)
  | term h => exact h.isSilent _

/-- Blanks are no colons. -/
theorem not_mem_of_allBlank {b : List Char} (h : Text.allBlank b = true) : ':' ∉ b :=
  fun hmem => absurd (Text.allBlank_iff.1 h _ hmem) (by decide)

/-- Blanks in a range show no colon. -/
theorem isSilent_range_of_allBlank {b : List Char} (h : Text.allBlank b = true) :
    IsSilent .range b :=
  isSilent_of_not_mem (passes_range_of_allBlank h).after (not_mem_of_allBlank h)

/-- An atom shows no colon. -/
theorem AtomText.isSilent {a : Atom} {u : List Char} (h : AtomText a u) : IsSilent .bare u := by
  cases h with
  | term h => exact h.isSilent _
  | phrase h => exact h.isSilent
  | range hmem hb₁ hx hb₂ hto hb₃ hy hb₄ =>
    have inner := (isSilent_range_of_allBlank hb₁).append <| hx.isSilent_range.append <|
      (isSilent_range_of_allBlank hb₂).append <| (hto.term.isSilent .range).append <|
      (isSilent_range_of_allBlank hb₃).append <| hy.isSilent_range.append <|
      isSilent_range_of_allBlank hb₄
    simp only [List.mem_cons, List.not_mem_nil, or_false, Prod.mk.injEq] at hmem
    rcases hmem with ⟨rfl, rfl, -⟩ | ⟨rfl, rfl, -⟩
    · have h : IsSilent .bare ('[' :: (_ ++ [']'])) :=
        inner.enclose rfl rfl (by decide) (by decide)
      simpa using h
    · have h : IsSilent .bare ('\x7b' :: (_ ++ ['\x7d'])) :=
        inner.enclose rfl rfl (by decide) (by decide)
      simpa using h
  | @compare op operand u h =>
    have hsign : IsSilent .bare op.sign.toList :=
      isSilent_of_not_mem (passes_sign op).after (by cases op <;> decide)
    cases h with
    | quoted h => exact hsign.append h.isSilent
    | raw h => exact hsign.append (h.isSilent _)

/-- Suffixes show no colon. -/
theorem SuffixText.isSilent {fuzzy : Option (Option Nat)} {boost : Option Double} {z : List Char}
    (h : SuffixText fuzzy boost z) : IsSilent .bare z :=
  isSilent_of_not_mem (h.passes .bare).after fun hmem => (h.isPlain ':' hmem).2 rfl

/-! ### What quotes fields -/

/-- A text where a reference can start, or that does not start with a name. -/
def CanCite (opened : Bool) (s : List Char) : Prop :=
  opened = true ∨ ∀ c ∈ s.head?, Text.isNameStart c = false

/-- A text that does not go on with a name. -/
theorem canCite_of_head {s : List Char} (h : ∀ c ∈ s.head?, Text.isNamePart c = false)
    (opened : Bool) : CanCite opened s :=
  .inr fun c hc => Bool.eq_false_iff.2 fun hstart =>
    absurd (Text.isNamePart_of_isNameStart hstart) (by simp [h c hc])

/-- At the end of a word no name goes on. -/
theorem canCite_of_atBoundary {r : List Char} (h : AtBoundary r) (opened : Bool) :
    CanCite opened r := by
  refine canCite_of_head (fun c hc => Bool.eq_false_iff.2 fun hpart => ?_) opened
  have hends := h c hc
  simp only [endsWord, Bool.or_eq_true, beq_iff_eq] at hends
  rcases hends with (hblank | rfl) | rfl
  · exact absurd hblank (by simp [Text.isBlank_eq_false_of_isNamePart hpart])
  · exact absurd hpart (by decide)
  · exact absurd hpart (by decide)

/-- Behind a term that is cut off in full no name goes on. -/
theorem canCite_of_spanTerm {k s : List Char} (h : spanTerm (k ++ s) = (k, s)) (opened : Bool) :
    CanCite opened s := by
  refine canCite_of_head (fun c hc => Bool.eq_false_iff.2 fun hpart => ?_) opened
  obtain ⟨-, -, hhead, -⟩ := spanTerm_spec h
  exact not_delimiter_of_isNamePart hpart (by simpa using hhead c hc)

/-- What stands in front of the rest of a text shows the given fields. -/
def Quotes (s r : List Char) (fields : List (List Char)) : Prop :=
  ∀ opened, CanCite opened s → ∃ w opened', Place.bare.shown s = w ++ Place.bare.shown r ∧
    Cites opened w fields opened' ∧ CanCite opened' r

/-- Where nothing stands in front of the rest, no field is shown. -/
theorem Quotes.refl (s : List Char) : Quotes s s [] :=
  fun opened h => ⟨[], opened, rfl, .nil opened, h⟩

/-- Texts show their fields one after the other. -/
theorem Quotes.trans {s m r : List Char} {fs gs : List (List Char)} (h : Quotes s m fs)
    (hm : Quotes m r gs) : Quotes s r (fs ++ gs) := by
  intro o₁ ho₁
  obtain ⟨w₁, o₂, hw₁, hc₁, ho₂⟩ := h o₁ ho₁
  obtain ⟨w₂, o₃, hw₂, hc₂, ho₃⟩ := hm o₂ ho₂
  exact ⟨w₁ ++ w₂, o₃, by rw [hw₁, hw₂, List.append_assoc], hc₁.append hc₂, ho₃⟩

/-- A text that shows no colon, in front of one where no name goes on. -/
theorem IsSilent.quotes {u r : List Char} (h : IsSilent .bare u)
    (hr : ∀ opened, CanCite opened r) : Quotes (u ++ r) r [] := by
  intro opened _
  obtain ⟨opened', hcites⟩ := exists_cites_of_not_mem h.colon opened
  refine ⟨_, opened', ?_, hcites, hr opened'⟩
  rw [Place.shown_append]
  exact congrArg _ (congrArg (fun p => Place.shown p r) h.after)

/-- A character that is shown as one behind which a reference can start. -/
theorem quotes_of_opensReference {c : Char} (hc : opensReference (Place.bare.shownAt c) = true)
    (hnext : Place.bare.next c = .bare) (r : List Char) : Quotes (c :: r) r [] := by
  intro opened _
  refine ⟨[Place.bare.shownAt c], true, ?_, ?_, .inl rfl⟩
  · rw [Place.shown_cons, hnext]
    rfl
  · refine .char ?_ (hc ▸ .nil _)
    intro he
    rw [he] at hc
    exact absurd hc (by decide)

/-- A blank shows no field. -/
theorem quotes_of_isBlank {c : Char} (h : Text.isBlank c = true) (r : List Char) :
    Quotes (c :: r) r [] := by
  refine quotes_of_opensReference ?_ (next_of_isBlank h) r
  rcases Place.bare.shownAt_eq_or c with hshown | hshown <;> rw [hshown]
  · simp [opensReference, h]
  · rfl

/-- A sign shows no field. -/
theorem quotes_of_isSign {c : Char} (h : isSign c = true) (r : List Char) :
    Quotes (c :: r) r [] := by
  refine quotes_of_opensReference ?_ (next_of_isSign h) r
  rcases isSign_iff.1 h with rfl | rfl | rfl <;> decide

/-- An opening parenthesis shows no field. -/
theorem quotes_opening (r : List Char) : Quotes ('(' :: r) r [] :=
  quotes_of_opensReference rfl rfl r

/-- Blanks show no fields. -/
theorem quotes_of_allBlank {b : List Char} (h : Text.allBlank b = true) (s : List Char) :
    Quotes (b ++ s) s [] := by
  induction b with
  | nil => exact .refl s
  | cons c b ih =>
    simp only [Text.allBlank, List.all_cons, Bool.and_eq_true] at h
    exact (quotes_of_isBlank h.1 _).trans (ih h.2)

/-- A field is shown as it is. -/
theorem FieldText.shown {field : List Char} (h : FieldText field) :
    Place.bare.shown field = field := by
  have key {u : List Char} (hu : ∀ c ∈ u, Text.isNamePart c = true ∨ c = '.') :
      Place.bare.shown u = u := by
    induction u with
    | nil => rfl
    | cons c u ih =>
      have hplain : isPlain c = true := by
        rcases hu c (List.mem_cons_self ..) with hc | rfl
        · exact isPlain_of_not_delimiter (not_delimiter_of_isNamePart hc)
        · decide
      have hnext : Place.bare.next c = .bare := (passes_plain hplain .bare).after
      rw [Place.shown_cons, hnext, ih fun d hd => hu d (List.mem_cons_of_mem _ hd)]
      simp only [isPlain, Bool.not_eq_true', Bool.or_eq_false_iff, List.contains_eq_mem,
        decide_eq_false_iff_not, List.mem_cons, List.not_mem_nil, or_false, not_or] at hplain
      simp [Place.shownAt, Place.bare, Spot.isQuoted, Spot.isRanged, hplain]
  exact key fun c hc => isNamePart_of_mem_field h hc

/-- A field with its colon, and a text that shows no other. -/
theorem FieldText.quotes {field u : List Char} (h : FieldText field) (hu : IsSilent .bare u)
    {r : List Char} (hr : ∀ opened, CanCite opened r) :
    Quotes (field ++ ':' :: (u ++ r)) r [field] := by
  intro opened hopened
  obtain rfl : opened = true := by
    refine hopened.resolve_right fun hhead => ?_
    obtain ⟨c, v, rfl⟩ := List.exists_cons_of_ne_nil h.isTerm.ne_nil
    exact absurd (hhead c rfl) (by simp [h.isNameStart c rfl])
  have hafter : Place.bare.after field = .bare := (h.isTerm.passes .bare).after
  have hafter' : Place.bare.after u = .bare := hu.after
  obtain ⟨opened', hcites⟩ := exists_cites_of_not_mem hu.colon false
  refine ⟨field ++ ':' :: Place.bare.shown u, opened', ?_, .field h hcites, hr opened'⟩
  have hcolon (t : List Char) : Place.bare.shown (':' :: t) = ':' :: Place.bare.shown t := rfl
  rw [Place.shown_append, h.shown, hafter, hcolon, Place.shown_append, hafter', List.append_assoc,
    List.cons_append]

/-- Prefixes show no fields. -/
theorem Signs.quotes {ps : List Prefix} {s r : List Char} (h : Signs ps s r) : Quotes s r [] := by
  induction h with
  | nil s => exact .refl s
  | blank hb _ ih => exact (quotes_of_isBlank hb _).trans ih
  | sign hc _ _ ih => exact (quotes_of_isSign hc _).trans ih
  | word hk hspan _ ih => exact ((hk.term.isSilent _).quotes (canCite_of_spanTerm hspan)).trans ih

/-- A keyword shows no field, with the blanks around it. -/
theorem Joins.quotes {word symbol : String} {s r : List Char} (h : Joins word symbol s r) :
    Quotes s r [] := by
  obtain ⟨hb₁, hk, hspan, hb₂⟩ := h
  exact (quotes_of_allBlank hb₁ _).trans
    (((hk.term.isSilent _).quotes (canCite_of_spanTerm hspan)).trans (quotes_of_allBlank hb₂ _))

/-- The end of a group, with its suffixes. -/
theorem quotes_closing {fuzzy : Option (Option Nat)} {boost : Option Double} {z r : List Char}
    (h : SuffixText fuzzy boost z) (hr : AtBoundary r) : Quotes (')' :: (z ++ r)) r [] := by
  have hsilent : IsSilent .bare ([')'] ++ z) :=
    (isSilent_of_not_mem rfl (by decide)).append h.isSilent
  exact hsilent.quotes (canCite_of_atBoundary hr)

/-- An atom shows its field, if it has one. -/
theorem LeafText.quotes {field : Option (List Char)} {a : Atom} {fuzzy : Option (Option Nat)}
    {boost : Option Double} {u z r : List Char} (h : LeafText field a u)
    (hz : SuffixText fuzzy boost z) (hr : AtBoundary r) :
    Quotes (u ++ (z ++ r)) r field.toList := by
  have silent {u : List Char} (hu : IsSilent .bare u) : Quotes (u ++ (z ++ r)) r [] := by
    rw [← List.append_assoc]
    exact (hu.append hz.isSilent).quotes (canCite_of_atBoundary hr)
  cases h with
  | @fielded field u a hf ha =>
    have h := hf.quotes (ha.isSilent.append hz.isSilent) (canCite_of_atBoundary hr)
    simpa using h
  | term hu => exact silent (hu.isSilent _)
  | phrase ha => exact silent ha.isSilent
  | range ha => exact silent ha.isSilent

/-- **The text of a clause shows the fields that the clause names,** in their order. -/
theorem Reads.quotes {c : Clause} {s r : List Char} (h : Reads c s r) : Quotes s r c.fields := by
  induction h with
  | leaf hu hz hr =>
    rw [Clause.fields_suffixed]
    exact hu.quotes hz hr
  | group _ hz hr ih =>
    rw [Clause.fields_suffixed]
    simpa using (quotes_opening _).trans (ih.trans (quotes_closing hz hr))
  | @fieldGroup field c _ _ s _ _ hf _ hz hr ih =>
    rw [Clause.fields_suffixed]
    have hgroup := (quotes_opening s).trans (ih.trans (quotes_closing hz hr))
    have hopening : AtBoundary ('(' :: s) := by simp [endsWord]
    have hfield := hf.quotes (u := []) (isSilent_of_not_mem rfl (by simp))
      (canCite_of_atBoundary hopening)
    simpa [Clause.fields] using hfield.trans hgroup
  | prefixed hps _ ih =>
    rw [Clause.fields_prefixed]
    exact hps.quotes.trans ih
  | before hb _ ih => exact (quotes_of_isBlank hb _).trans ih
  | behind hb _ ih => simpa using ih.trans (quotes_of_isBlank hb _)
  | beside _ _ ihc ihd => exact ihc.trans ihd
  | and _ hj _ ihc ihd | or _ hj _ ihc ihd => exact ihc.trans (hj.quotes.trans ihd)

end Grammar
end SearchFilter
