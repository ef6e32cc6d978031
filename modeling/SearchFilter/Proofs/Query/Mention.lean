/-
# References of single fields

Where a text names its fields is told part by part. Behind a character that opens no reference
none is found, so that a value of such characters is passed over. The copies of a value name
their fields in order, since the `OR` in front of one is no part of its name.

| text | references |
| --- | --- |
| a value, and more | those of what follows (`citations_skip`) |
| copies of a value, and more | their fields, and those of what follows (`citations_copies`) |
| copies of any value without a colon | their fields (`citations_copies_eq`) |
| `name . part:`, and more | one with blanks in it (`referenceAt?_spaced`) |

The other way round, what stands between an opening character and a colon is a field, wherever
the grammar reads the text (`Cites.mem_of_append`).
-/

import SearchFilter.Proofs.Query.Citation
import SearchFilter.Proofs.Query.Copies

namespace SearchFilter
namespace Query

open Grammar (FieldText)

/-! ### Texts that are masked as they are -/

/-- A character that neither quotes, nor brackets, nor escapes. -/
def isOvert (c : Char) : Bool := !(['\\', '"', '[', '\x7b', ']', '\x7d'].contains c)

/-- Outside of everything such a character leads nowhere and is shown as it is. -/
theorem next_of_isOvert {c : Char} (h : isOvert c = true) :
    Place.bare.next c = .bare ∧ Place.bare.shownAt c = c := by
  have hne {d : Char} (hd : isOvert d = false) : c ≠ d := by
    rintro rfl
    rw [hd] at h
    cases h
  have hback : c ≠ '\\' := hne (by decide)
  have hquote : c ≠ '"' := hne (by decide)
  have hopening : c ≠ '[' ∧ c ≠ '\x7b' := ⟨hne (by decide), hne (by decide)⟩
  have hclosing : c ≠ ']' ∧ c ≠ '\x7d' := ⟨hne (by decide), hne (by decide)⟩
  constructor
  · rw [Place.bare, Place.next_of_ne hback]
    simp [Spot.next, hquote, hopening]
  · simp [Place.shownAt, Place.bare, Spot.isQuoted, Spot.isRanged, hback, hquote, hopening, hclosing]

section
variable {s : List Char} (h : ∀ c ∈ s, isOvert c = true)
include h

/-- A text of such characters leaves nothing open. -/
theorem isFinished_of_overt : IsFinished s := by
  induction s with
  | nil => rfl
  | cons c s ih =>
    obtain ⟨hc, hs⟩ := List.forall_mem_cons.1 h
    rw [IsFinished, Place.after_cons, (next_of_isOvert hc).1]
    exact ih hs

/-- A text of such characters is shown as it is. -/
theorem shown_of_overt : Place.bare.shown s = s := by
  induction s with
  | nil => rfl
  | cons c s ih =>
    obtain ⟨hc, hs⟩ := List.forall_mem_cons.1 h
    rw [Place.shown_cons, (next_of_isOvert hc).1, (next_of_isOvert hc).2, ih hs]

/-- A text of such characters is masked as it is. -/
theorem mask_of_overt : mask false false s = s := by
  rw [mask_of_isFinished (isFinished_of_overt h), shown_of_overt h]

end

/-- So it is with the references of such a text. -/
theorem checkReferences_of_overt (s : Schema) {q : String} (h : ∀ c ∈ q.toList, isOvert c = true) :
    checkReferences s q = (citations true q.toList).forM (Reference.check s) := by
  rw [checkReferences, mask_of_overt h, references_eq_citations]

/-! ### References that are found -/

section
variable {value name r : List Char} {names : List (List Char)}

/-- Behind characters that open no reference there is none. -/
theorem citations_skip {u : List Char} (hu : ∀ c ∈ u, opensReference c = false) (r : List Char) :
    citations false (u ++ r) = citations false r := by
  induction u with
  | nil => rfl
  | cons c u ih =>
    obtain ⟨hc, hu⟩ := List.forall_mem_cons.1 hu
    rw [List.cons_append, citations_cons (by simp), hc, ih hu]

/-- Behind a character that opens references one can start. -/
theorem citations_opens {c : Char} (hc : opensReference c = true) (r : List Char) :
    citations false (c :: r) = citations true r := by
  rw [citations_cons (by simp), hc]

/-- Of a field with a value that opens no reference, the field is found, and then what follows. -/
theorem citations_field (hname : FieldText name) (hvalue : ∀ c ∈ value, opensReference c = false)
    (r : List Char) :
    citations true (name ++ ':' :: (value ++ r)) = .to name :: citations false r := by
  rw [citations_of_reference (referenceAt?_field hname _), citations_skip hvalue]

/-- No reference reaches over the `OR` in front of a field. -/
theorem referenceAt?_or {u : List Char} (hu : ':' ∉ u) (hname : FieldText name) (t : List Char) :
    referenceAt? (u ++ 'R' :: ' ' :: (name ++ ':' :: t)) = none := by
  refine Option.eq_none_iff_forall_ne_some.2 fun ⟨ref, rest⟩ h => ?_
  have hsplit : u ++ 'R' :: ' ' :: (name ++ ':' :: t) =
      u ++ ['R', ' '] ++ name ++ ':' :: t := by simp
  rw [hsplit] at h
  obtain ⟨hspec, hbase, hdotted, -⟩ := referenceAt?_spec h
  have hcolon : ':' ∉ u ++ ['R', ' '] ++ name := by
    simp [hu, not_mem_field hname (c := ':') (by decide) (by decide)]
  have hcut : u ++ ['R', ' '] ++ name ++ ':' :: t =
      ref.base ++ ref.dotted ++ ref.trailing ++ ':' :: rest := by
    rw [hspec]
    simp
  obtain ⟨-, rfl⟩ := eq_of_cut hcolon (not_mem_of_referenceAt? h) hcut
  have hparts := Reference.append_of_append h hname
  obtain ⟨c, name, rfl⟩ := List.exists_cons_of_ne_nil hname.isTerm.ne_nil
  have hstart : Text.isNameStart c = true := hname.isNameStart c rfl
  have hblank := Text.isBlank_eq_false_of_isNamePart (Text.isNamePart_of_isNameStart hstart)
  rcases hdotted.point_beside_blank (s := u) (x := 'R') (t := name) hbase (by simpa using hparts)
    (by decide) (by decide) hblank with h | rfl
  · cases h
  · exact absurd hstart (by decide)

/-- So the field is found, where no colon stands in front of it. -/
theorem citations_or {u : List Char} (hu : ':' ∉ u) (hname : FieldText name) (opened : Bool)
    (t : List Char) :
    citations opened (u ++ 'R' :: ' ' :: (name ++ ':' :: t)) = .to name :: citations false t := by
  induction u generalizing opened with
  | nil =>
    rw [List.nil_append, citations_cons fun _ => referenceAt?_or (u := []) hu hname t,
      show opensReference 'R' = false by decide, citations_opens (by decide),
      citations_of_reference (referenceAt?_field hname t)]
  | cons c u ih =>
    have hnone := referenceAt?_or hu hname t
    rw [List.cons_append] at hnone ⊢
    rw [citations_cons fun _ => hnone]
    exact ih (fun h => hu (List.mem_cons_of_mem c h)) _

/-- The copies of a value without a colon name their fields, and then comes what the last value
and what stands behind it have. -/
theorem exists_citations_copies (hne : names ≠ []) (hnames : ∀ f ∈ names, FieldText f)
    (hcolon : ':' ∉ value) (r : List Char) :
    ∃ closing, (closing = [] ∨ closing = [')']) ∧
      citations true (copies names value ++ r) =
        names.map .to ++ citations false (value ++ (closing ++ r)) := by
  have hothers {names : List (List Char)} (hnames : ∀ f ∈ names, FieldText f) (r : List Char) :
      citations false (value ++ (others value names ++ r)) =
        names.map .to ++ citations false (value ++ r) := by
    induction names with
    | nil => rfl
    | cons f names ih =>
      obtain ⟨hf, hnames⟩ := List.forall_mem_cons.1 hnames
      have hor := citations_or (u := value ++ [' ', 'O']) (by simp [hcolon]) hf false
        (value ++ (others value names ++ r))
      rw [ih hnames] at hor
      simpa [others_cons] using hor
  obtain ⟨name, names, rfl⟩ := List.exists_cons_of_ne_nil hne
  obtain ⟨hname, hnames⟩ := List.forall_mem_cons.1 hnames
  cases names with
  | nil =>
    refine ⟨[], .inl rfl, ?_⟩
    rw [copies_singleton, List.append_assoc, List.cons_append,
      citations_of_reference (referenceAt?_field hname _)]
    rfl
  | cons f names =>
    refine ⟨[')'], .inr rfl, ?_⟩
    rw [copies_eq_joined (by simp), joined_eq_others]
    simp only [List.append_assoc, List.cons_append, List.nil_append]
    rw [citations_cons fun _ => rfl, show opensReference '(' = true by decide,
      citations_of_reference (referenceAt?_field hname _), hothers hnames]
    rfl

/-- **The copies of a value name their fields,** in order, where nothing in it opens a
reference. -/
theorem citations_copies (hne : names ≠ []) (hnames : ∀ f ∈ names, FieldText f)
    (hcolon : ':' ∉ value) (hvalue : ∀ c ∈ value, opensReference c = false) (r : List Char) :
    citations true (copies names value ++ r) = names.map .to ++ citations false r := by
  obtain ⟨closing, hclosing, hcopies⟩ := exists_citations_copies hne hnames hcolon r
  have hopens : ∀ c ∈ closing, opensReference c = false := by
    rcases hclosing with rfl | rfl
    · exact List.forall_mem_nil _
    · exact List.forall_mem_singleton.2 (by decide)
  rw [hcopies, citations_skip hvalue, citations_skip hopens]

/-- Where nothing stands behind them, they name no more than these, whatever is in the value. -/
theorem citations_copies_eq (hne : names ≠ []) (hnames : ∀ f ∈ names, FieldText f)
    (hcolon : ':' ∉ value) : citations true (copies names value) = names.map .to := by
  obtain ⟨closing, hclosing, hcopies⟩ := exists_citations_copies hne hnames hcolon []
  rw [List.append_nil, List.append_nil] at hcopies
  have hrest : ':' ∉ value ++ closing := by rcases hclosing with rfl | rfl <;> simp [hcolon]
  rw [hcopies, citations_eq_nil hrest, List.append_nil]

/-- What holds of the characters of the fields and of the value, and of those that are put
between them, holds of those of the copies. -/
theorem forall_mem_copies {P : Char → Prop} (hjoint : ∀ c ∈ ['(', ':', ' ', 'O', 'R', ')'], P c)
    (hnames : ∀ f ∈ names, ∀ c ∈ f, P c) (hvalue : ∀ c ∈ value, P c) :
    ∀ c ∈ copies names value, P c := by
  have hcopy {f : List Char} (hf : ∀ c ∈ f, P c) {r : List Char} (hr : ∀ c ∈ r, P c) :
      ∀ c ∈ f ++ ':' :: (value ++ r), P c :=
    List.forall_mem_append.2 ⟨hf, List.forall_mem_cons.2 ⟨hjoint _ (by decide),
      List.forall_mem_append.2 ⟨hvalue, hr⟩⟩⟩
  have hothers {names : List (List Char)} (hnames : ∀ f ∈ names, ∀ c ∈ f, P c) :
      ∀ c ∈ others value names, P c := by
    induction names with
    | nil => simp [others]
    | cons f names ih =>
      obtain ⟨hf, hnames⟩ := List.forall_mem_cons.1 hnames
      rw [others_cons]
      simp only [List.forall_mem_cons]
      exact ⟨hjoint _ (by decide), hjoint _ (by decide), hjoint _ (by decide),
        hjoint _ (by decide), hcopy hf (ih hnames)⟩
  rcases names with _ | ⟨f, _ | ⟨g, names⟩⟩
  · intro c hc
    have hc : c ∈ ['(', ')'] := hc
    exact hjoint c (by simp at hc; rcases hc with rfl | rfl <;> decide)
  · have hone := hcopy (hnames f (by simp)) (r := []) (by simp)
    rwa [List.append_nil] at hone
  · obtain ⟨hf, hnames⟩ := List.forall_mem_cons.1 hnames
    rw [copies_eq_joined (by simp), joined_eq_others]
    exact List.forall_mem_cons.2 ⟨hjoint _ (by decide), hcopy hf (List.forall_mem_append.2
      ⟨hothers hnames, List.forall_mem_singleton.2 (hjoint _ (by decide))⟩)⟩

end

/-! ### References with blanks in them -/

/-- A point with blanks beside it is a part of the reference that it stands in. -/
theorem referenceAt?_spaced {base part w₁ w₂ : List Char} (hbase : Text.isIdentifier base = true)
    (hpart : Text.isIdentifier part = true) (hw₁ : Text.allBlank w₁ = true)
    (hw₂ : Text.allBlank w₂ = true) (r : List Char) :
    referenceAt? (base ++ (w₁ ++ '.' :: (w₂ ++ (part ++ ':' :: r)))) =
      some (⟨base, w₁ ++ '.' :: (w₂ ++ part), []⟩, r) := by
  obtain ⟨c, base, rfl⟩ := List.exists_cons_of_ne_nil (Text.isIdentifier_ne_nil hbase)
  have hparts {name : List Char} (h : Text.isIdentifier name = true) :
      ∀ d ∈ name, Text.isNamePart d = true := fun d => Text.isNamePart_of_mem h
  have hname : spanOf Text.isNamePart (base ++ (w₁ ++ '.' :: (w₂ ++ (part ++ ':' :: r)))) =
      (base, w₁ ++ '.' :: (w₂ ++ (part ++ ':' :: r))) := by
    refine spanOf_append (fun d hd => hparts hbase d (List.mem_cons_of_mem c hd)) fun d hd => ?_
    cases w₁ with
    | nil => obtain rfl : '.' = d := Option.some.inj hd; decide
    | cons b w₁ =>
      obtain rfl : b = d := Option.some.inj hd
      exact Bool.eq_false_iff.2 fun hd => absurd (Text.allBlank_iff.1 hw₁ b (by simp))
        (by simp [Text.isBlank_eq_false_of_isNamePart hd])
  have hbefore := spanOf_append (r := '.' :: (w₂ ++ (part ++ ':' :: r))) (Text.allBlank_iff.1 hw₁)
    (by rintro _ ⟨⟩; decide)
  have hafter := spanOf_append (r := part ++ ':' :: r) (Text.allBlank_iff.1 hw₂) fun d hd => by
    obtain ⟨e, part, rfl⟩ := List.exists_cons_of_ne_nil (Text.isIdentifier_ne_nil hpart)
    obtain rfl : e = d := Option.some.inj hd
    exact Text.isBlank_eq_false_of_isNamePart (hparts hpart e (by simp))
  have hlast := spanOf_append (r := ':' :: r) (hparts hpart) (by rintro _ ⟨⟩; decide)
  have hcolon : spanOf Text.isBlank (':' :: r) = ([], ':' :: r) :=
    spanOf_append (s := []) (by simp) (by rintro _ ⟨⟩; decide)
  have hstart : Text.isNameStart c = true := (Bool.and_eq_true_iff.1 hbase).1
  rw [List.cons_append, referenceAt?, if_pos hstart, hname]
  simp only [spanDotted, hbefore, hafter, hlast, hcolon]

/-! ### Fields that are read -/

/-- A word between a character that opens references and a colon is one of the fields. -/
theorem Cites.mem_of_append {opened opened' : Bool} {c : Char} {s t u w : List Char}
    {fields : List (List Char)} (h : Cites opened s fields opened')
    (hs : s = u ++ c :: (w ++ ':' :: t)) (hc : opensReference c = true)
    (hw : ∀ d ∈ w, opensReference d = false ∧ d ≠ ':') : FieldText w ∧ w ∈ fields := by
  induction h generalizing u with
  | nil => simp at hs
  | @char _ _ d s fields hd h ih =>
    cases u with
    | nil =>
      obtain ⟨rfl, rfl⟩ := List.cons.inj hs
      obtain ⟨v, field, rest, hv, hf, rfl, -, hstart⟩ := h.cut rfl fun hmem => (hw _ hmem).2 rfl
      have hnil : v = [] := by
        rcases hstart with ⟨hnil, -⟩ | ⟨e, he, hopens⟩
        · exact hnil
        · have hclosed := (hw e (hv ▸ List.mem_append_left _ he)).1
          rw [hopens] at hclosed
          cases hclosed
      obtain rfl : w = field := by rw [hv, hnil, List.nil_append]
      exact ⟨hf, List.mem_cons_self ..⟩
    | cons e u =>
      obtain ⟨-, rfl⟩ := List.cons.inj hs
      exact ih rfl
  | @field _ field s fields hf h ih =>
    -- the colon behind the field stands in front of the opening character
    rcases List.append_eq_append_iff.1 hs with ⟨v, rfl, hv⟩ | ⟨v, hfield, hv⟩
    · cases v with
      | nil =>
        obtain ⟨rfl, -⟩ := List.cons.inj hv
        exact absurd hc (by decide)
      | cons e v =>
        obtain ⟨-, rfl⟩ := List.cons.inj hv
        exact (ih rfl).imp_right (List.mem_cons_of_mem _)
    · cases v with
      | nil =>
        obtain ⟨rfl, -⟩ := List.cons.inj hv
        exact absurd hc (by decide)
      | cons e v =>
        obtain ⟨rfl, -⟩ := List.cons.inj hv
        have hopens : opensReference c = false := by
          rcases isNamePart_of_mem_field hf (c := c) (by simp [hfield]) with hpart | rfl
          · refine Bool.eq_false_iff.2 fun hopens => ?_
            exact absurd (isBlank_of_opensReference hopens (.inr (.inl hpart)))
              (by simp [Text.isBlank_eq_false_of_isNamePart hpart])
          · decide
        rw [hopens] at hc
        cases hc

end Query
end SearchFilter
