/-
# References in a masked text

What a query shows once its literals are blanked out is a text in which a colon stands
only behind the name of a field (`Cites`). The references that are found in it are then
these fields, in order (`forall₂_citations`): a match can start too early, behind a word
with a point at its end, but then there is a blank inside of it, and it is reported. Where
all points of the text are in fields, this does not happen.

    foo. bar:x        one match, `foo. bar:`, with a blank
    foo bar:x         one match, `bar:`

Masking a query is done character by character, each at its own place (`mask_eq_shown`).
-/

import Mathlib.Data.List.Forall2
import SearchFilter.Proofs.Grammar.Lexeme
import SearchFilter.Query.Reference

namespace SearchFilter
namespace Query

open Grammar (FieldText)

/-! ### Masking -/

/-- Whether a spot is inside of a phrase. -/
def Spot.isQuoted : Spot → Bool
  | .phrase => true
  | .phraseInRange => true
  | _ => false

/-- Whether a spot is inside of a range. -/
def Spot.isRanged : Spot → Bool
  | .range => true
  | .phraseInRange => true
  | _ => false

namespace Place

/-- What a character at a place looks like in the masked text. -/
def shownAt (p : Place) (c : Char) : Char :=
  if p.escaped ∨ c = '\\' then ' '
  else if c = '"' then '"'
  else if p.spot.isQuoted then ' '
  else if c = '[' ∨ c = '\x7b' ∨ c = ']' ∨ c = '\x7d' then c
  else if p.spot.isRanged then ' ' else c

/-- What a text that starts at a place looks like. -/
def shown : Place → List Char → List Char
  | _, [] => []
  | p, c :: r => p.shownAt c :: shown (p.next c) r

/-- An empty text shows nothing. -/
@[simp] theorem shown_nil (p : Place) : p.shown [] = [] := rfl

/-- A text shows its first character at its place, and then the rest. -/
theorem shown_cons (p : Place) (c : Char) (r : List Char) :
    p.shown (c :: r) = p.shownAt c :: (p.next c).shown r := rfl

/-- A pair is shown as two blanks. -/
theorem shown_pair (spot : Spot) (c : Char) (r : List Char) :
    Place.shown ⟨spot, false⟩ ('\\' :: c :: r) = ' ' :: ' ' :: Place.shown ⟨spot, false⟩ r := rfl

/-- Two texts are shown one after the other, the second one from the place behind the first. -/
theorem shown_append (p : Place) (s t : List Char) :
    p.shown (s ++ t) = p.shown s ++ (p.after s).shown t := by
  induction s generalizing p with
  | nil => rfl
  | cons c s ih => rw [List.cons_append, shown_cons, shown_cons, after_cons, ih, List.cons_append]

/-- A character is shown as itself or as a blank. -/
theorem shownAt_eq_or (p : Place) (c : Char) : p.shownAt c = c ∨ p.shownAt c = ' ' := by
  unfold shownAt
  grind

/-- What a text does not have, it does not show. -/
theorem not_mem_shown {c : Char} (hc : c ≠ ' ') {s : List Char} (hs : c ∉ s) (p : Place) :
    c ∉ p.shown s := by
  induction s generalizing p with
  | nil => exact hs
  | cons d s ih =>
    rw [List.mem_cons, not_or] at hs
    rw [shown_cons, List.mem_cons, not_or]
    refine ⟨?_, ih hs.2 _⟩
    rcases p.shownAt_eq_or d with h | h <;> rw [h]
    · exact hs.1
    · exact hc

end Place

/-- A character other than a backslash is masked as its place says, and the rest from the place
behind it. -/
theorem mask_cons {c : Char} (hc : c ≠ '\\') (spot : Spot) (r : List Char) :
    mask spot.isQuoted spot.isRanged (c :: r) = Place.shownAt ⟨spot, false⟩ c ::
      mask (spot.next c).isQuoted (spot.next c).isRanged r := by
  rw [mask]
  · cases spot <;> simp only [Place.shownAt, Spot.next, Spot.isQuoted, Spot.isRanged] <;> grind
  · exact fun h _ => hc h
  · exact fun _ _ h _ => hc h

/-- **A text without an open backslash is masked character by character.** -/
theorem mask_eq_shown {spot : Spot} {s : List Char}
    (h : (Place.after ⟨spot, false⟩ s).escaped = false) :
    mask spot.isQuoted spot.isRanged s = Place.shown ⟨spot, false⟩ s := by
  fun_induction Text.glyphs s generalizing spot with
  | case1 => rfl
  | case2 => cases h
  | case3 c r ih =>
    have hr : mask spot.isQuoted spot.isRanged r = Place.shown ⟨spot, false⟩ r := ih h
    rw [mask, hr]
    rfl
  | case4 c r hend hpair ih =>
    have hc : c ≠ '\\' := by
      rintro rfl
      cases r with
      | nil => exact hend rfl rfl
      | cons d r => exact hpair d r rfl rfl
    rw [Place.after_cons, Place.next_of_ne hc] at h
    rw [mask_cons hc, ih h, Place.shown_cons, Place.next_of_ne hc]

/-- A finished query is masked character by character. -/
theorem mask_of_isFinished {s : List Char} (h : IsFinished s) :
    mask false false s = Place.bare.shown s := by
  have hescaped : (Place.after ⟨.bare, false⟩ s).escaped = false := by
    rw [← Place.bare, h]
    rfl
  exact mask_eq_shown hescaped

/-! ### The references of a text -/

/-- The references of a text; `opened` says that one can start right here. -/
def citations (opened : Bool) : List Char → List Reference
  | [] => []
  | c :: r =>
    match _h : if opened then referenceAt? (c :: r) else none with
    | some (ref, rest) => ref :: citations false rest
    | none => citations (opensReference c) r
termination_by s => s.length
decreasing_by
  · split at _h
    · exact referenceAt?_length_lt _h
    · cases _h
  · simp

/-- A reference that is found is the first one, and none starts right behind it. -/
theorem citations_of_reference {s rest : List Char} {ref : Reference}
    (h : referenceAt? s = some (ref, rest)) : citations true s = ref :: citations false rest := by
  cases s with
  | nil => cases h
  | cons c r =>
    rw [citations]
    split
    · rename_i ref' rest' h'
      obtain ⟨rfl, rfl⟩ : ref = ref' ∧ rest = rest' := by simpa [h] using h'
      rfl
    · rename_i h'
      rw [if_pos rfl, h] at h'
      cases h'

/-- Where no reference starts, the references are those behind the first character. -/
theorem citations_cons {opened : Bool} {c : Char} {r : List Char}
    (h : opened = true → referenceAt? (c :: r) = none) :
    citations opened (c :: r) = citations (opensReference c) r := by
  rw [citations]
  split
  · rename_i h'
    split at h'
    · rename_i ho
      rw [h ho] at h'
      cases h'
    · cases h'
  · rfl

/-- Where no reference is, it does not matter whether one could start. -/
theorem citations_eq_of_none {opened : Bool} {s : List Char}
    (h : opened = true → referenceAt? s = none) : citations opened s = citations false s := by
  cases s with
  | nil => rw [citations, citations]
  | cons c r => rw [citations_cons h, citations_cons (fun h => by cases h)]

/-- **References are found where one can start,** be it at the start of the text or behind
a character that opens it. -/
theorem references_eq_citations (atStart : Bool) (s : List Char) :
    references atStart s = citations atStart s := by
  fun_induction references atStart s with
  | case1 => rw [citations]
  | case2 atStart c r ref rest h ih =>
    rw [ih]
    rcases Option.or_eq_some_iff.1 h with h | ⟨hnone, h⟩
    · split at h
      · rename_i hstart
        rw [hstart, citations_of_reference h]
      · cases h
    · split at h
      · rename_i hopens
        rw [citations_cons (fun hstart => by simpa [hstart] using hnone), hopens,
          citations_of_reference h]
      · cases h
  | case3 atStart c r h ih =>
    obtain ⟨hhere, hnext⟩ := Option.or_eq_none_iff.1 h
    have hskip : citations (opensReference c) r = citations false r :=
      citations_eq_of_none (by simpa using hnext)
    rw [ih, citations_cons (fun hstart => by simpa [hstart] using hhere), hskip]

/-! ### What a reference takes -/

/-- A field is made of name characters and a point. -/
theorem isNamePart_of_mem_field {field : List Char} (h : FieldText field) {c : Char}
    (hc : c ∈ field) : Text.isNamePart c = true ∨ c = '.' := by
  cases h with
  | plain hid => exact .inl (Text.isNamePart_of_mem hid hc)
  | @dotted name part hid hne hpart =>
    simp only [List.mem_append, List.mem_cons] at hc
    rcases hc with hc | rfl | hc
    · exact .inl (Text.isNamePart_of_mem hid hc)
    · exact .inr rfl
    · exact .inl (List.all_eq_true.1 hpart c hc)

/-- What is neither a name character nor a point is in no field. -/
theorem not_mem_field {field : List Char} (h : FieldText field) {c : Char}
    (hc : Text.isNamePart c = false) (hne : c ≠ '.') : c ∉ field := fun hmem =>
  (isNamePart_of_mem_field h hmem).elim (fun h => absurd h (by simp [hc])) hne

/-- A field ends with a character that is not blank. -/
theorem isBlank_getLast?_field {field : List Char} (h : FieldText field) :
    ∀ c ∈ field.getLast?, Text.isBlank c = false := by
  intro c hc
  rcases isNamePart_of_mem_field h (List.mem_of_getLast? hc) with hc | rfl
  · exact Text.isBlank_eq_false_of_isNamePart hc
  · decide

/-- The reference to a field, as it is written. -/
def Reference.to (field : List Char) : Reference :=
  ⟨field.takeWhile Text.isNamePart, field.dropWhile Text.isNamePart, []⟩

/-- A run of characters ends in front of the first one that is of another kind. -/
theorem spanOf_append {p : Char → Bool} {s r : List Char} (hs : ∀ c ∈ s, p c = true)
    (hr : ∀ c ∈ r.head?, p c = false) : spanOf p (s ++ r) = (s, r) := by
  obtain ⟨htake, hdrop⟩ := Decimal.span_append hs hr
  rw [spanOf, htake, hdrop]

/-- What is cut off is of one kind, and together with what is left it is the text. -/
theorem spanOf_spec {p : Char → Bool} {s u r : List Char} (h : spanOf p s = (u, r)) :
    s = u ++ r ∧ ∀ c ∈ u, p c = true := by
  obtain ⟨rfl, rfl⟩ := Prod.mk.inj h
  exact ⟨List.takeWhile_append_dropWhile.symm, List.all_eq_true.1 List.all_takeWhile⟩

/-- A text is cut at a character for the first time in one way. -/
theorem eq_of_cut {c : Char} {u v s t : List Char} (hu : c ∉ u) (hv : c ∉ v)
    (h : u ++ c :: s = v ++ c :: t) : u = v ∧ s = t := by
  have cut {w : List Char} (hw : c ∉ w) (r : List Char) :
      spanOf (· != c) (w ++ c :: r) = (w, c :: r) :=
    spanOf_append (fun d hd => bne_iff_ne.2 fun he => hw (he ▸ hd)) (by simp)
  have hcut := cut hu s
  rw [h, cut hv t] at hcut
  obtain ⟨rfl, hr⟩ := Prod.mk.inj hcut
  exact ⟨rfl, (List.cons.inj hr).2.symm⟩

/-- The reference to a field is found where the field stands. -/
theorem referenceAt?_field {field : List Char} (h : FieldText field) (r : List Char) :
    referenceAt? (field ++ ':' :: r) = some (.to field, r) := by
  have hcolon : ∀ c ∈ (':' :: r).head?, Text.isNamePart c = false := by rintro c ⟨⟩; decide
  have hblank : spanOf Text.isBlank (':' :: r) = ([], ':' :: r) :=
    spanOf_append (s := []) (by simp) (by rintro c ⟨⟩; decide)
  cases h with
  | plain hid =>
    obtain ⟨c, name, rfl⟩ := List.exists_cons_of_ne_nil (Text.isIdentifier_ne_nil hid)
    have hparts : ∀ d ∈ c :: name, Text.isNamePart d = true := fun d => Text.isNamePart_of_mem hid
    have hspan := spanOf_append (fun d hd => hparts d (List.mem_cons_of_mem c hd)) hcolon
    have hto := spanOf_append (r := []) hparts (by simp)
    rw [List.append_nil] at hto
    obtain ⟨htake, hdrop⟩ := Prod.mk.inj hto
    have hdotted : spanDotted (':' :: r) = ([], ':' :: r) := by
      unfold spanDotted
      split
      · rename_i heq
        rw [hblank] at heq
        cases heq
      · rfl
    rw [Reference.to, htake, hdrop, List.cons_append, referenceAt?,
      if_pos (Bool.and_eq_true_iff.1 hid).1, hspan]
    simp only [hdotted, hblank]
  | @dotted name part hid hne hpart =>
    obtain ⟨c, name, rfl⟩ := List.exists_cons_of_ne_nil (Text.isIdentifier_ne_nil hid)
    have hparts : ∀ d ∈ c :: name, Text.isNamePart d = true := fun d => Text.isNamePart_of_mem hid
    have hpart := List.all_eq_true.1 hpart
    have hspan := spanOf_append (r := '.' :: (part ++ ':' :: r))
      (fun d hd => hparts d (List.mem_cons_of_mem c hd)) (by rintro d ⟨⟩; decide)
    have hto := spanOf_append (r := '.' :: part) hparts (by rintro d ⟨⟩; decide)
    obtain ⟨htake, hdrop⟩ := Prod.mk.inj hto
    have hbefore : spanOf Text.isBlank ('.' :: (part ++ ':' :: r)) = ([], '.' :: (part ++ ':' :: r)) :=
      spanOf_append (s := []) (by simp) (by rintro d ⟨⟩; decide)
    have hafter : spanOf Text.isBlank (part ++ ':' :: r) = ([], part ++ ':' :: r) := by
      obtain ⟨d, part, rfl⟩ := List.exists_cons_of_ne_nil hne
      refine spanOf_append (s := []) (by simp) ?_
      rintro d' ⟨⟩
      exact Text.isBlank_eq_false_of_isNamePart (hpart d (by simp))
    rw [Reference.to, htake, hdrop, List.append_assoc, List.cons_append, List.cons_append,
      referenceAt?, if_pos (Bool.and_eq_true_iff.1 hid).1, hspan]
    simp only [spanDotted, hbefore, hafter, spanOf_append hpart hcolon, List.nil_append, hblank]

/-- A dotted part: nothing, or a point between blanks, with name characters behind. -/
inductive IsDotted : List Char → Prop
  | nil : IsDotted []
  | point {before after name : List Char} : (∀ c ∈ before, Text.isBlank c = true) →
    (∀ c ∈ after, Text.isBlank c = true) → (∀ c ∈ name, Text.isNamePart c = true) →
    IsDotted (before ++ '.' :: (after ++ name))

/-- A dotted part is made of blanks, name characters and points. -/
theorem IsDotted.of_mem {u : List Char} (h : IsDotted u) {c : Char} (hc : c ∈ u) :
    Text.isBlank c = true ∨ Text.isNamePart c = true ∨ c = '.' := by
  cases h with
  | nil => cases hc
  | point hbefore hafter hname =>
    simp only [List.mem_append, List.mem_cons] at hc
    rcases hc with hc | rfl | hc | hc
    · exact .inl (hbefore c hc)
    · exact .inr (.inr rfl)
    · exact .inl (hafter c hc)
    · exact .inr (.inl (hname c hc))

/-- What is cut off is a dotted part, and together with what is left it is the text. -/
theorem spanDotted_spec {s u r : List Char} (h : spanDotted s = (u, r)) :
    s = u ++ r ∧ IsDotted u := by
  unfold spanDotted at h
  split at h
  · rename_i before t hbefore
    rcases hafter : spanOf Text.isBlank t with ⟨after, t₁⟩
    rcases hname : spanOf Text.isNamePart t₁ with ⟨name, t₂⟩
    simp only [hafter, hname] at h
    obtain ⟨rfl, rfl⟩ := Prod.mk.inj h
    obtain ⟨rfl, hblank⟩ := spanOf_spec hbefore
    obtain ⟨rfl, hblank'⟩ := spanOf_spec hafter
    obtain ⟨rfl, hparts⟩ := spanOf_spec hname
    exact ⟨by simp, .point hblank hblank' hparts⟩
  · obtain ⟨rfl, rfl⟩ := Prod.mk.inj h
    exact ⟨rfl, .nil⟩

/-- What a reference is made of. -/
theorem referenceAt?_spec {s rest : List Char} {ref : Reference}
    (h : referenceAt? s = some (ref, rest)) :
    s = ref.base ++ (ref.dotted ++ (ref.trailing ++ ':' :: rest)) ∧
      (∀ c ∈ ref.base, Text.isNamePart c = true) ∧ IsDotted ref.dotted ∧
      ∀ c ∈ ref.trailing, Text.isBlank c = true := by
  unfold referenceAt? at h
  split at h
  · cases h
  · rename_i c r
    split at h
    · rename_i hc
      rcases hname : spanOf Text.isNamePart r with ⟨name, t₁⟩
      rcases hdotted : spanDotted t₁ with ⟨dotted, t₂⟩
      simp only [hname, hdotted] at h
      split at h
      · rename_i trailing r' hspan
        obtain ⟨rfl, rfl⟩ : _ = ref ∧ r' = rest := by simpa using h
        obtain ⟨rfl, hparts⟩ := spanOf_spec hname
        obtain ⟨rfl, hdots⟩ := spanDotted_spec hdotted
        obtain ⟨rfl, hblank⟩ := spanOf_spec hspan
        refine ⟨by simp, fun d hd => ?_, hdots, hblank⟩
        rcases List.mem_cons.1 hd with rfl | hd
        · exact Text.isNamePart_of_isNameStart hc
        · exact hparts d hd
      · cases h
    · cases h

/-- In front of its colon a reference has none. -/
theorem not_mem_of_referenceAt? {s rest : List Char} {ref : Reference}
    (h : referenceAt? s = some (ref, rest)) : ':' ∉ ref.base ++ ref.dotted ++ ref.trailing := by
  obtain ⟨-, hbase, hdotted, htrailing⟩ := referenceAt?_spec h
  simp only [List.mem_append, not_or]
  refine ⟨⟨fun hc => ?_, fun hc => ?_⟩, fun hc => ?_⟩
  · exact absurd (hbase _ hc) (by decide)
  · exact absurd (hdotted.of_mem hc) (by decide)
  · exact absurd (htrailing _ hc) (by decide)

/-- Beside a blank inside of a reference there is its point, or another blank. -/
theorem IsDotted.point_beside_blank {base dotted s t : List Char} {x b y : Char}
    (hd : IsDotted dotted) (hbase : ∀ c ∈ base, Text.isNamePart c = true)
    (h : s ++ x :: b :: y :: t = base ++ dotted) (hb : Text.isBlank b = true)
    (hx : Text.isBlank x = false) (hy : Text.isBlank y = false) : x = '.' ∨ y = '.' := by
  have hname {name : List Char} (h : ∀ c ∈ name, Text.isNamePart c = true) :
      ∀ c ∈ name, Text.isBlank c = false := fun c hc => Text.isBlank_eq_false_of_isNamePart (h c hc)
  have hne : b ≠ '.' := by
    rintro rfl
    exact absurd hb (by decide)
  cases hd with
  | nil =>
    rw [List.append_nil] at h
    exact absurd (hname hbase b (by simp [← h])) (by simp [hb])
  | @point before after name hbefore hafter hparts =>
    -- in front of the point the blanks come last, and behind it they come first
    have hleft : (base ++ before).Pairwise fun c d =>
        Text.isBlank c = true → Text.isBlank d = true := by
      refine List.pairwise_append.2 ⟨?_, ?_, fun _ _ d hd _ => hbefore d hd⟩
      · exact List.pairwise_of_forall_mem_list fun c hc _ _ => by simp [hname hbase c hc]
      · exact List.pairwise_of_forall_mem_list fun _ _ d hd _ => hbefore d hd
    have hright : (after ++ name).Pairwise fun c d =>
        Text.isBlank d = true → Text.isBlank c = true := by
      refine List.pairwise_append.2 ⟨?_, ?_, fun c hc _ _ _ => hafter c hc⟩
      · exact List.pairwise_of_forall_mem_list fun c hc _ _ _ => hafter c hc
      · exact List.pairwise_of_forall_mem_list fun _ _ d hd => by simp [hname hparts d hd]
    have hcut : s ++ [x] ++ b :: y :: t = base ++ before ++ '.' :: (after ++ name) := by simp [h]
    rcases List.append_eq_append_iff.1 hcut with ⟨z, hz, hrest⟩ | ⟨z, hz, hrest⟩
    · rcases z with _ | ⟨b', _ | ⟨y', z⟩⟩
      · exact absurd (List.cons.inj hrest).1 hne
      · exact .inr (List.cons.inj (List.cons.inj hrest).2).1
      · obtain ⟨rfl, htail⟩ := List.cons.inj hrest
        obtain ⟨rfl, -⟩ := List.cons.inj htail
        rw [hz] at hleft
        have hblank := (List.pairwise_cons.1 (List.pairwise_append.1 hleft).2.1).1 y (by simp) hb
        exact absurd hblank (by simp [hy])
    · rcases z with _ | ⟨p, z⟩
      · exact absurd (List.cons.inj hrest).1.symm hne
      · obtain ⟨rfl, htail⟩ := List.cons.inj hrest
        rcases List.eq_nil_or_concat z with rfl | ⟨z, x', rfl⟩
        · exact .inl (List.cons.inj (List.append_inj_right' hz rfl)).1
        · rw [List.concat_eq_append] at hz htail
          rw [← List.cons_append, ← List.append_assoc] at hz
          obtain ⟨rfl, -⟩ := List.cons.inj (List.append_inj_right' hz rfl)
          rw [show after ++ name = _ from htail] at hright
          have hblank := (List.pairwise_append.1 hright).2.2 x (by simp) b (by simp) hb
          exact absurd hblank (by simp [hx])

/-! ### Texts with fields -/

/-- A masked text in which colons stand behind the given fields and nowhere else. A field
stands where a reference can start; the marks say whether one can before the text and
behind it. -/
inductive Cites : Bool → List Char → List (List Char) → Bool → Prop
  | nil (opened : Bool) : Cites opened [] [] opened
  | char {opened opened' : Bool} {c : Char} {s : List Char} {fields : List (List Char)} :
    c ≠ ':' → Cites (opensReference c) s fields opened' → Cites opened (c :: s) fields opened'
  | field {opened' : Bool} {field s : List Char} {fields : List (List Char)} :
    FieldText field → Cites false s fields opened' →
    Cites true (field ++ ':' :: s) (field :: fields) opened'

/-- Texts that name fields name them one after the other. -/
theorem Cites.append {o₁ o₂ o₃ : Bool} {s t : List Char} {fs gs : List (List Char)}
    (hs : Cites o₁ s fs o₂) (ht : Cites o₂ t gs o₃) : Cites o₁ (s ++ t) (fs ++ gs) o₃ := by
  induction hs with
  | nil opened => exact ht
  | char hc _ ih => exact .char hc (ih ht)
  | field hf _ ih =>
    rw [List.append_assoc, List.cons_append]
    exact .field hf (ih ht)

/-- A text without a colon names no fields. -/
theorem exists_cites_of_not_mem {s : List Char} (h : ':' ∉ s) (opened : Bool) :
    ∃ opened', Cites opened s [] opened' := by
  induction s generalizing opened with
  | nil => exact ⟨_, .nil opened⟩
  | cons c s ih =>
    rw [List.mem_cons, not_or] at h
    obtain ⟨opened', hs⟩ := ih h.2 (opensReference c)
    exact ⟨opened', .char (Ne.symm h.1) hs⟩

/-- What the fields have of a character, the text has. -/
theorem Cites.count_le {opened opened' : Bool} {s : List Char} {fields : List (List Char)}
    (h : Cites opened s fields opened') (c : Char) : fields.flatten.count c ≤ s.count c := by
  induction h with
  | nil => exact Nat.zero_le _
  | char _ _ ih => exact Nat.le_trans ih (List.count_le_count_cons ..)
  | field _ _ ih =>
    rw [List.flatten_cons, List.count_append, List.count_append]
    exact Nat.add_le_add_left (Nat.le_trans ih (List.count_le_count_cons ..)) _

/-- The text up to the first colon ends with the first field. It is the field alone, where
a reference can start, or something stands before it that opens a reference. -/
theorem Cites.cut {opened opened' : Bool} {s t u : List Char} {fields : List (List Char)}
    (h : Cites opened s fields opened') (hs : s = u ++ ':' :: t) (hu : ':' ∉ u) :
    ∃ v field rest, u = v ++ field ∧ FieldText field ∧ fields = field :: rest ∧
      Cites false t rest opened' ∧
      ((v = [] ∧ opened = true) ∨ ∃ c ∈ v, opensReference c = true) := by
  induction h generalizing u with
  | nil => simp at hs
  | @char _ _ c s fields hc h ih =>
    cases u with
    | nil => exact absurd (List.cons.inj hs).1 hc
    | cons d u =>
      obtain ⟨rfl, rfl⟩ := List.cons.inj hs
      obtain ⟨v, field, rest, rfl, hf, hfields, hrest, hv⟩ :=
        ih rfl fun hmem => hu (List.mem_cons_of_mem _ hmem)
      refine ⟨c :: v, field, rest, rfl, hf, hfields, hrest, .inr ?_⟩
      rcases hv with ⟨-, hopens⟩ | ⟨d, hd, hopens⟩
      · exact ⟨c, List.mem_cons_self .., hopens⟩
      · exact ⟨d, List.mem_cons_of_mem _ hd, hopens⟩
  | @field _ field s fields hf h =>
    obtain ⟨rfl, rfl⟩ := eq_of_cut (not_mem_field hf (by decide) (by decide)) hu hs
    exact ⟨[], field, fields, rfl, hf, rfl, h, .inl ⟨rfl, rfl⟩⟩

/-- What is found for a field: the reference to it, or one with a blank inside, which takes
that the text has `points` apart from those of its fields. -/
def Reference.Finds (points : Prop) (field : List Char) (ref : Reference) : Prop :=
  (FieldText field ∧ ref = .to field) ∨ points ∧ ref.dotted.any Text.isBlank = true

/-- What opens a reference and is a part of one is a blank in it. -/
theorem isBlank_of_opensReference {c : Char} (h : opensReference c = true)
    (hc : Text.isBlank c = true ∨ Text.isNamePart c = true ∨ c = '.') : Text.isBlank c = true := by
  rcases hc with hc | hc | rfl
  · exact hc
  · simp only [opensReference, Bool.or_eq_true, beq_iff_eq] at h
    rcases h with (((h | rfl) | rfl) | rfl) | rfl
    · exact h
    all_goals exact absurd hc (by decide)
  · exact absurd h (by decide)

/-- Around the point of a field there is no blank. -/
theorem IsDotted.isBlank_eq_false {v field base dotted : List Char} (hd : IsDotted dotted)
    (hbase : ∀ c ∈ base, Text.isNamePart c = true) (hf : FieldText field) (hv : '.' ∉ v)
    (h : v ++ field = base ++ dotted) : ∀ c ∈ dotted, Text.isBlank c = false := by
  cases hd with
  | nil => simp
  | @point before after name hbefore hafter hname =>
    have hpoint : '.' ∈ v ++ field := by simp [h]
    cases hf with
    | plain hid =>
      have hmem := (List.mem_append.1 hpoint).resolve_left hv
      exact absurd hmem (Text.not_mem_of_not_isNamePart hid (by decide))
    | @dotted first part hid _ hpart =>
      have hfirst : '.' ∉ v ++ first := by
        rw [List.mem_append, not_or]
        exact ⟨hv, Text.not_mem_of_not_isNamePart hid (by decide)⟩
      have hbefore' : '.' ∉ base ++ before := by
        rw [List.mem_append, not_or]
        exact ⟨fun hmem => absurd (hbase _ hmem) (by decide),
          fun hmem => absurd (hbefore _ hmem) (by decide)⟩
      obtain ⟨hleft, rfl⟩ := eq_of_cut hfirst hbefore' (by simpa using h)
      -- the last character in front of the point is one of the field
      have hnil : before = [] := by
        rcases List.eq_nil_or_concat before with hnil | ⟨t, b, rfl⟩
        · exact hnil
        · have hlast := congrArg List.getLast? hleft
          rw [List.getLast?_append_of_ne_nil _ (Text.isIdentifier_ne_nil hid),
            List.concat_eq_append, ← List.append_assoc, List.getLast?_concat] at hlast
          have hname := Text.isNamePart_of_mem hid (List.mem_of_getLast? hlast)
          exact absurd (hbefore b (by simp)) (by simp [Text.isBlank_eq_false_of_isNamePart hname])
      intro c hc
      rw [hnil, List.nil_append, List.mem_cons] at hc
      rcases hc with rfl | hc
      · decide
      · exact Text.isBlank_eq_false_of_isNamePart (List.all_eq_true.1 hpart c hc)

/-- Up to the colon behind a field a reference takes no blanks at its end. -/
theorem Reference.append_of_append {ref : Reference} {v field rest : List Char}
    (h : referenceAt? (v ++ field ++ ':' :: rest) = some (ref, rest)) (hf : FieldText field) :
    v ++ field = ref.base ++ ref.dotted := by
  obtain ⟨hspec, -, -, htrailing⟩ := referenceAt?_spec h
  have hparts : v ++ field = ref.base ++ ref.dotted ++ ref.trailing := by
    have hcolon : v ++ field ++ ':' :: rest =
        ref.base ++ ref.dotted ++ ref.trailing ++ ':' :: rest := by
      rw [hspec]
      simp
    exact List.append_cancel_right hcolon
  -- the blanks before the colon would be the last of the field
  have htrail : ref.trailing = [] := by
    rcases List.eq_nil_or_concat ref.trailing with hnil | ⟨t, b, ht⟩
    · exact hnil
    · have hlast := congrArg List.getLast? hparts
      rw [ht, List.concat_eq_append, List.getLast?_append_of_ne_nil _ hf.isTerm.ne_nil,
        ← List.append_assoc, List.getLast?_concat] at hlast
      exact absurd (htrailing b (by simp [ht])) (by simp [isBlank_getLast?_field hf b hlast])
  rwa [htrail, List.append_nil] at hparts

/-- What is found up to the colon behind a field is found for the field. -/
theorem Reference.finds_of_append {ref : Reference} {v field rest : List Char} {points : Prop}
    (h : referenceAt? (v ++ field ++ ':' :: rest) = some (ref, rest)) (hf : FieldText field)
    (hv : v = [] ∨ ∃ c ∈ v, opensReference c = true) (hpoints : points ∨ '.' ∉ v) :
    ref.Finds points field := by
  rcases hv with rfl | ⟨c, hc, hopens⟩
  · rw [List.nil_append, referenceAt?_field hf] at h
    exact .inl ⟨hf, (Prod.mk.inj (Option.some.inj h)).1.symm⟩
  · obtain ⟨-, hbase, hdotted, -⟩ := referenceAt?_spec h
    have hparts := Reference.append_of_append h hf
    have hmem : c ∈ ref.base ++ ref.dotted := hparts ▸ List.mem_append_left _ hc
    have hblank : c ∈ ref.dotted ∧ Text.isBlank c = true := by
      rcases List.mem_append.1 hmem with hmem | hmem
      · have hpart := hbase c hmem
        exact absurd (isBlank_of_opensReference hopens (.inr (.inl hpart)))
          (by simp [Text.isBlank_eq_false_of_isNamePart hpart])
      · exact ⟨hmem, isBlank_of_opensReference hopens (hdotted.of_mem hmem)⟩
    refine .inr ⟨hpoints.resolve_right fun hnot => ?_, List.any_eq_true.2 ⟨c, hblank⟩⟩
    exact absurd hblank.2 (by simp [hdotted.isBlank_eq_false hbase hf hnot hparts c hblank.1])

/-- **Every field is found,** in order, and nothing besides. -/
theorem forall₂_citations {opened opened' : Bool} {s : List Char} {fields : List (List Char)}
    (h : Cites opened s fields opened') {points : Prop}
    (hpoints : points ∨ s.count '.' = fields.flatten.count '.') :
    List.Forall₂ (Reference.Finds points) fields (citations opened s) := by
  fun_induction citations opened s generalizing fields with
  | case1 opened =>
    generalize hs : ([] : List Char) = s at h
    cases h with
    | nil => exact .nil
    | char => cases hs
    | field => simp at hs
  | case2 opened c r ref rest hfound ih =>
    split at hfound
    · obtain ⟨hspec, hbase, hdotted, htrailing⟩ := referenceAt?_spec hfound
      have hs : c :: r = ref.base ++ ref.dotted ++ ref.trailing ++ ':' :: rest := by
        rw [hspec]
        simp
      obtain ⟨v, field, fields, hu, hf, rfl, hrest, hv⟩ := h.cut hs (not_mem_of_referenceAt? hfound)
      rw [hs, hu] at hfound hpoints
      -- all points are in fields, or none is said to be
      have hcount : points ∨ '.' ∉ v ∧ rest.count '.' = fields.flatten.count '.' := by
        refine hpoints.imp_right fun hpoints => ?_
        have hle := hrest.count_le '.'
        simp only [List.count_append, List.count_cons, List.flatten_cons] at hpoints
        rw [← List.count_eq_zero]
        simp only [Char.reduceBEq, Bool.false_eq_true, if_false] at hpoints
        omega
      exact .cons (Reference.finds_of_append hfound hf (hv.imp And.left id)
        (hcount.imp_right And.left)) (ih hrest (hcount.imp_right And.right))
    · cases hfound
  | case3 opened c r hnone ih =>
    generalize hs : c :: r = s at h
    cases h with
    | nil => cases hs
    | char _ h =>
      obtain ⟨rfl, rfl⟩ := List.cons.inj hs
      refine ih h (hpoints.imp_right fun hpoints => ?_)
      have hle := h.count_le '.'
      rw [List.count_cons] at hpoints
      omega
    | field hf =>
      rw [dif_pos rfl, hs, referenceAt?_field hf] at hnone
      cases hnone

/-- Without a colon there is no reference. -/
theorem citations_eq_nil {s : List Char} (h : ':' ∉ s) (opened : Bool) :
    citations opened s = [] := by
  obtain ⟨opened', hcites⟩ := exists_cites_of_not_mem h opened
  exact List.forall₂_nil_left_iff.1 (forall₂_citations hcites (.inl trivial))

end Query
end SearchFilter
