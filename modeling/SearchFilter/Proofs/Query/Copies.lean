/-
# The copies of a word

A term or a phrase that is spread leaves its sign in front and puts its *value* behind
each field. The value is the word without its sign, perhaps between stars. This
changes little of how the word is read (`Stars`):

* the value ends at the spot where the word ends;
* where the word is finished, so is the value;
* both open, stray and end words in the same way.

The one difference is a backslash at the end of the word: it takes the star behind it,
and the value may be finished where the word is not.
-/

import SearchFilter.Proofs.Grammar.Lexeme
import SearchFilter.Query.Expansion

namespace SearchFilter
namespace Query

open Grammar (FieldText)

/-- Whether a token is spread over the fields; `grouped` says that it stands in the
group of a field. -/
def Token.isSpread (grouped : Bool) (t : Token) : Bool :=
  (t.kind == .term || t.kind == .phrase) && !grouped

/-- What stands behind the colon in each copy of a token. -/
def Token.value (t : Token) : List Char :=
  let cut := splitSuffix (t.kind == .phrase) (splitSign t.text).2
  searched (t.kind == .phrase) cut.1 cut.2 ++ cut.2

/-- A value behind each of the fields. -/
def copies (fields : List (List Char)) (value : List Char) : List Char :=
  match fields.map fun f => f ++ ':' :: value with
  | [one] => one
  | many => '(' :: ([' ', 'O', 'R', ' '].intercalate many ++ [')'])

/-- Of a token that is spread the sign stands in front of its copies. -/
theorem expandToken_of_isSpread {grouped : Bool} {t : Token} (h : t.isSpread grouped = true)
    (fields : List (List Char)) :
    expandToken fields grouped t = (splitSign t.text).1 ++ copies fields t.value := by
  obtain ⟨kind, text⟩ := t
  simp only [Token.isSpread, Bool.and_eq_true, Bool.or_eq_true, beq_iff_eq,
    Bool.not_eq_true'] at h
  rcases h with ⟨rfl | rfl, rfl⟩ <;> rcases fields with _ | ⟨f, _ | ⟨g, fields⟩⟩ <;> rfl

/-- Any other token stays as it is. -/
theorem expandToken_of_not_isSpread {grouped : Bool} {t : Token} (h : t.isSpread grouped = false)
    (fields : List (List Char)) : expandToken fields grouped t = t.text := by
  obtain ⟨kind, text⟩ := t
  cases kind <;> cases grouped <;> first | rfl | cases h

/-- Over one field there is one copy, without parentheses. -/
theorem copies_singleton (f value : List Char) : copies [f] value = f ++ ':' :: value := rfl

/-! ### Signs -/

/-- A sign and what stands behind it make up the word. -/
theorem splitSign_append (w : List Char) : (splitSign w).1 ++ (splitSign w).2 = w := by
  cases w with
  | nil => rfl
  | cons c r => rw [splitSign]; split <;> rfl

/-- What is split off is a sign. -/
theorem isSign_of_mem_splitSign {w : List Char} {c : Char} (h : c ∈ (splitSign w).1) :
    isSign c = true := by
  cases w with
  | nil => simp [splitSign] at h
  | cons d r =>
    rw [splitSign] at h
    split at h
    · obtain rfl : c = d := by simpa using h
      rename_i hsign
      simpa [isSign, or_assoc] using hsign
    · simp at h

/-- The sign that is split off plays no role. -/
theorem roles_splitSign (w s : List Char) : roles ((splitSign w).1 ++ s) = roles s := by
  have h {c : Char} : c ∈ (splitSign w).1 → isSign c = true := isSign_of_mem_splitSign
  generalize (splitSign w).1 = signs at h
  induction signs with
  | nil => rfl
  | cons c signs ih =>
    rw [List.cons_append, roles_sign (h (List.mem_cons_self ..)),
      ih fun hc => h (List.mem_cons_of_mem _ hc)]

/-- A sign opens nothing and closes nothing. -/
theorem isPlain_of_isSign {c : Char} (h : isSign c = true) : isPlain c = true := by
  rcases isSign_iff.1 h with rfl | rfl | rfl <;> decide

/-- The sign that is split off leaves every spot as it is. -/
theorem passes_splitSign (w : List Char) (spot : Spot) : Passes spot 0 (splitSign w).1 :=
  passes_of_all_plain (fun _ hc => isPlain_of_isSign (isSign_of_mem_splitSign hc)) spot

/-! ### Stars -/

/-- The value of a body: itself, or with its core between stars. Behind the core no
backslash is open if a suffix follows. -/
inductive Stars : List Char → List Char → Prop
  | bare (body : List Char) : Stars body body
  | starred {core suffix : List Char} :
    (suffix = [] ∨ (Place.bare.after core).escaped = false) →
    Stars (core ++ suffix) ('*' :: (core ++ '*' :: suffix))

/-- A core that a suffix follows leaves no backslash open. -/
theorem spanCore_escaped (atStart : Bool) (s : List Char) (spot : Spot) :
    (spanCore atStart s).2 = [] ∨
      (Place.after ⟨spot, false⟩ (spanCore atStart s).1).escaped = false := by
  fun_induction spanCore atStart s generalizing spot with
  | case1 => exact .inl rfl
  | case2 atStart c r core rest hcut ih => simpa [hcut] using ih spot
  | case3 atStart c r hne h => exact .inr rfl
  | case4 atStart c r hne h core rest hcut ih =>
    by_cases hc : c = '\\'
    · subst hc
      cases r with
      | cons d r => exact absurd rfl (hne d r rfl)
      | nil =>
        obtain ⟨rfl, rfl⟩ : core = [] ∧ rest = [] := by simpa [spanCore] using hcut.symm
        exact .inl rfl
    · rw [hcut] at ih
      simpa [Place.next_of_ne hc] using ih (spot.next c)

/-- The value of a token is what stands behind its sign, perhaps between stars. -/
theorem stars_value (t : Token) : Stars (splitSign t.text).2 t.value := by
  rw [Token.value]
  generalize hb : (splitSign t.text).2 = body
  have happ := splitSuffix_append (t.kind == .phrase) body
  simp only [searched]
  split
  · rw [happ]
    exact .bare body
  · rename_i hterm
    simp only [Bool.or_eq_true, not_or, Bool.not_eq_true] at hterm
    have hkind : (t.kind == .phrase) = false := hterm.1.1
    rw [hkind] at happ ⊢
    have hstars := Stars.starred (spanCore_escaped true body .bare)
    have hcut : spanCore true body = splitSuffix false body := rfl
    rw [hcut, happ] at hstars
    simpa using hstars

section
variable {body value : List Char}

/-- A value that is not the body starts with a star. -/
theorem Stars.head (h : Stars body value) : value = body ∨ value.head? = some '*' := by
  cases h with
  | bare => exact .inl rfl
  | starred => exact .inr rfl

/-- The place behind the value is the one behind the body, except that stars take an
open backslash. -/
theorem Stars.after (h : Stars body value) :
    Place.bare.after value = Place.bare.after body ∨
      Place.bare.after value = ⟨(Place.bare.after body).spot, false⟩ := by
  cases h with
  | bare => exact .inl rfl
  | @starred core suffix h =>
    have hstar : Place.bare.next '*' = .bare := rfl
    rw [Place.after_cons, hstar, Place.after_append, Place.after_append, Place.after_cons]
    generalize hp : Place.bare.after core = p at h
    obtain ⟨spot, escaped⟩ := p
    cases escaped with
    | false =>
      left
      rw [Place.next_of_ne (by decide)]
      cases spot <;> rfl
    | true =>
      obtain rfl : suffix = [] := by simpa using h
      right
      cases spot <;> rfl

/-- The value ends at the spot where the body ends. -/
theorem Stars.spot (h : Stars body value) :
    (Place.bare.after value).spot = (Place.bare.after body).spot := by
  rcases h.after with h | h <;> rw [h]

/-- Where the body is finished, so is the value. -/
theorem Stars.isFinished (h : Stars body value) (hb : IsFinished body) : IsFinished value := by
  rw [IsFinished] at hb ⊢
  rcases h.after with h | h <;> rw [h, hb]
  rfl

/-- A mark that is on no star is as often in the value as in the body. -/
theorem Stars.marks (h : Stars body value) {f : Place → Char → Bool} (hf : ∀ p, f p '*' = false) :
    Place.marks f .bare value = Place.marks f .bare body := by
  cases h with
  | bare => rfl
  | @starred core suffix h =>
    have hstar : Place.bare.next '*' = .bare := rfl
    rw [Place.marks_cons, hf, hstar, Place.marks_append, Place.marks_append, Place.marks_cons, hf]
    generalize hp : Place.bare.after core = p at h
    obtain ⟨spot, escaped⟩ := p
    cases escaped with
    | false =>
      rw [Place.next_of_ne (by decide)]
      cases spot <;> simp [Spot.next]
    | true =>
      obtain rfl : suffix = [] := by simpa using h
      simp

end

/-! ### Values -/

/-- The sign in front of a word does not change where the word ends. -/
theorem after_body (w : List Char) :
    Place.bare.after (splitSign w).2 = Place.bare.after w := by
  have h : Place.bare.after (splitSign w).1 = .bare := (passes_splitSign w .bare).after
  have happ := congrArg Place.bare.after (splitSign_append w)
  rwa [Place.after_append, h] at happ

/-- A word has its marks behind its sign, if the sign has none. -/
theorem marks_body (f : Place → Char → Bool) {w : List Char}
    (h : Place.marks f .bare (splitSign w).1 = 0) :
    Place.marks f .bare (splitSign w).2 = Place.marks f .bare w := by
  have hafter : Place.bare.after (splitSign w).1 = .bare := (passes_splitSign w .bare).after
  have happ := congrArg (Place.marks f .bare) (splitSign_append w)
  rwa [Place.marks_append, h, hafter, Nat.zero_add] at happ

/-- The value ends at the spot where the token ends. -/
theorem spot_value (t : Token) :
    (Place.bare.after t.value).spot = (Place.bare.after t.text).spot := by
  rw [(stars_value t).spot, after_body]

/-- Where the token is finished, so is the value. -/
theorem isFinished_value {t : Token} (h : IsFinished t.text) : IsFinished t.value :=
  (stars_value t).isFinished (by rw [IsFinished, after_body]; exact h)

/-- The value of an unbroken token is unbroken. -/
theorem isUnbroken_value {t : Token} (h : IsUnbroken .bare t.text) :
    IsUnbroken .bare t.value := by
  have hf (p : Place) : p.ends '*' = false := by
    rw [Place.ends, show endsWord '*' = false by decide, Bool.and_false]
  rw [IsUnbroken, (stars_value t).marks hf, marks_body _ (passes_splitSign t.text .bare).unbroken]
  exact h

/-- The value closes as many brackets too often as the token does. -/
theorem strays_value (t : Token) : strays t.value = strays t.text := by
  have hf (p : Place) : straysHere p '*' = false := by simp [straysHere]
  rw [strays, (stars_value t).marks hf, marks_body _ (passes_splitSign t.text .bare).strays, strays]

/-! ### Copies of finished values -/

/-- The alternatives of a value up to the closing parenthesis. -/
def joined (value : List Char) : List (List Char) → List Char
  | [] => [')']
  | [f] => f ++ ':' :: (value ++ [')'])
  | f :: rest => f ++ ':' :: (value ++ ' ' :: 'O' :: 'R' :: ' ' :: joined value rest)

/-- Over any other number of fields the copies stand between parentheses. -/
theorem copies_eq_joined {fields : List (List Char)} (h : fields.length ≠ 1) (value : List Char) :
    copies fields value = '(' :: joined value fields := by
  have key : ∀ (f : List Char) (rest : List (List Char)),
      [' ', 'O', 'R', ' '].intercalate ((f :: rest).map fun f => f ++ ':' :: value) ++ [')'] =
        joined value (f :: rest) := by
    intro f rest
    induction rest generalizing f with
    | nil => simp [joined]
    | cons g rest ih =>
      have hg := ih g
      rw [List.map_cons] at hg
      rw [List.map_cons, List.map_cons, List.intercalate_cons_cons, joined, List.append_assoc, hg]
      · simp
      · simp
  rcases fields with _ | ⟨f, _ | ⟨g, rest⟩⟩
  · rfl
  · exact absurd rfl h
  · rw [← key f (g :: rest)]
    rfl

/-- The alternatives behind a first one, without the parenthesis. -/
def others (value : List Char) (names : List (List Char)) : List Char :=
  names.flatMap fun f => ' ' :: 'O' :: 'R' :: ' ' :: (f ++ ':' :: value)

/-- The next alternative stands behind an `OR`. -/
theorem others_cons (value f : List Char) (names : List (List Char)) :
    others value (f :: names) =
      ' ' :: 'O' :: 'R' :: ' ' :: (f ++ ':' :: (value ++ others value names)) := by
  simp [others]

/-- Alternatives are a first one with the others behind it. -/
theorem joined_eq_others (value f : List Char) (names : List (List Char)) :
    joined value (f :: names) = f ++ ':' :: (value ++ (others value names ++ [')'])) := by
  induction names generalizing f with
  | nil => simp [joined, others]
  | cons g names ih =>
    rw [joined, ih, others_cons]
    · simp
    · simp

/-- A copy of an unbroken value is unbroken, and ends at the place where the value does. -/
theorem isUnbroken_copy {f value : List Char} (hf : FieldText f)
    (hv : IsUnbroken .bare value) : IsUnbroken .bare (f ++ ':' :: value) := by
  have hpass := hf.passes_colon
  have hafter : Place.bare.after (f ++ [':']) = .bare := hpass.after
  rw [List.append_cons, isUnbroken_append, hafter]
  exact ⟨hpass.unbroken, hv⟩

/-- A field in front of a value leads nowhere. -/
theorem after_copy {f : List Char} (hf : FieldText f) (value : List Char) :
    Place.bare.after (f ++ ':' :: value) = Place.bare.after value := by
  have hafter : Place.bare.after (f ++ [':']) = .bare := (hf.passes_colon).after
  rw [List.append_cons, Place.after_append, hafter]

/-- Alternatives of a finished value leave nothing open. -/
theorem isFinished_joined {value : List Char} (hv : IsFinished value) {fields : List (List Char)}
    (hf : ∀ f ∈ fields, FieldText f) : IsFinished (joined value fields) := by
  rw [IsFinished] at hv ⊢
  fun_induction joined value fields with
  | case1 => rfl
  | case2 f =>
    have hcopy := after_copy (hf f (by simp)) (value ++ [')'])
    rw [hcopy, Place.after_append, hv]
    rfl
  | case3 f rest hne ih =>
    rw [after_copy (hf f (by simp)), Place.after_append, hv, Place.after_cons, Place.after_cons,
      Place.after_cons, Place.after_cons]
    exact ih fun g hg => hf g (List.mem_cons_of_mem _ hg)

/-- The copies of a finished value leave nothing open. -/
theorem isFinished_copies {value : List Char} (hv : IsFinished value) {fields : List (List Char)}
    (hf : ∀ f ∈ fields, FieldText f) : IsFinished (copies fields value) := by
  by_cases hone : fields.length = 1
  · obtain ⟨f, rfl⟩ := List.length_eq_one_iff.1 hone
    rw [copies_singleton, IsFinished, after_copy (hf f (by simp))]
    exact hv
  · rw [copies_eq_joined hone]
    exact isFinished_joined hv hf

/-- A finished token is finished after it has been expanded. -/
theorem isFinished_expandToken {t : Token} (ht : IsFinished t.text) {fields : List (List Char)}
    (hf : ∀ f ∈ fields, FieldText f) (grouped : Bool) :
    IsFinished (expandToken fields grouped t) := by
  cases h : t.isSpread grouped with
  | false => rwa [expandToken_of_not_isSpread h]
  | true =>
    have hsign : Place.bare.after (splitSign t.text).1 = .bare :=
      (passes_splitSign t.text .bare).after
    rw [expandToken_of_isSpread h, IsFinished, Place.after_append, hsign]
    exact isFinished_copies (isFinished_value ht) hf

end Query
end SearchFilter
