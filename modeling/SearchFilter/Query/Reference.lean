/-
# Field references in a query text

Before the grammar sees a query, every `name:` and `name.part:` in it is looked up
in the schema. What a backslash, a phrase or a range hides is blanked out first, so
that a colon in a literal is no reference.

A reference starts at the start of the text or behind a blank, `(`, `+`, `-` or `!`.
It is read generously, with blanks around the point and before the colon, so that
such a blank is reported and does not make the reference pass unseen.
-/

import SearchFilter.Schema.Lookup

namespace SearchFilter
namespace Query

/-- The text with pairs, insides of phrases and insides of ranges blanked out.
Quotes and brackets stay. -/
def mask : (quoted ranged : Bool) → List Char → List Char
  | _, _, [] => []
  | _, _, ['\\'] => [' ', ' ']
  | quoted, ranged, '\\' :: _ :: r => ' ' :: ' ' :: mask quoted ranged r
  | quoted, ranged, c :: r =>
    if c = '"' then '"' :: mask (!quoted) ranged r
    else if quoted then ' ' :: mask quoted ranged r
    else if c = '[' ∨ c = '\x7b' then c :: mask quoted true r
    else if c = ']' ∨ c = '\x7d' then c :: mask quoted false r
    else (if ranged then ' ' else c) :: mask quoted ranged r

/-- A reference as it is written: the name, the dotted part with its point and
blanks, and the blanks before the colon. -/
structure Reference where
  base : List Char
  dotted : List Char
  trailing : List Char
deriving DecidableEq, Repr

/-- The leading characters of a class, and the rest. -/
def spanOf (p : Char → Bool) (s : List Char) : List Char × List Char :=
  (s.takeWhile p, s.dropWhile p)

/-- A dotted part at the front of a text: blanks, a point, blanks and name
characters. Without a point there is none. -/
def spanDotted (s : List Char) : List Char × List Char :=
  match spanOf Text.isBlank s with
  | (before, '.' :: r) =>
    let (after, r) := spanOf Text.isBlank r
    let (name, r) := spanOf Text.isNamePart r
    (before ++ '.' :: (after ++ name), r)
  | _ => ([], s)

/-- The reference at the front of a text, and the text behind its colon. -/
def referenceAt? (s : List Char) : Option (Reference × List Char) :=
  match s with
  | [] => none
  | c :: r =>
    if Text.isNameStart c then
      let (name, r) := spanOf Text.isNamePart r
      let (dotted, r) := spanDotted r
      match spanOf Text.isBlank r with
      | (trailing, ':' :: r) => some (⟨c :: name, dotted, trailing⟩, r)
      | _ => none
    else none

/-- A character behind which a reference can start. -/
def opensReference (c : Char) : Bool :=
  Text.isBlank c || c == '(' || c == '+' || c == '-' || c == '!'

/-- Behind a run of characters the text is no longer than before. -/
theorem spanOf_length_le (p : Char → Bool) (s : List Char) : (spanOf p s).2.length ≤ s.length :=
  (List.dropWhile_suffix p).length_le

/-- Behind a dotted name the text is no longer than before. -/
theorem spanDotted_length_le (s : List Char) : (spanDotted s).2.length ≤ s.length := by
  have h := spanOf_length_le Text.isBlank s
  unfold spanDotted
  split
  · rename_i before r hs
    rw [hs] at h
    have h1 := spanOf_length_le Text.isBlank r
    have h2 := spanOf_length_le Text.isNamePart (spanOf Text.isBlank r).2
    simp only [List.length_cons] at h ⊢
    omega
  · exact Nat.le_refl _

/-- A reference takes at least one character. -/
theorem referenceAt?_length_lt {s rest : List Char} {ref : Reference}
    (h : referenceAt? s = some (ref, rest)) : rest.length < s.length := by
  unfold referenceAt? at h
  split at h
  · simp at h
  · rename_i c r
    split at h
    · have h1 := spanOf_length_le Text.isNamePart r
      have h2 := spanDotted_length_le (spanOf Text.isNamePart r).2
      have h3 := spanOf_length_le Text.isBlank (spanDotted (spanOf Text.isNamePart r).2).2
      simp only at h
      split at h
      · rename_i trailing r' hs
        rw [hs] at h3
        simp only [Option.some.injEq, Prod.mk.injEq] at h
        rw [← h.2]
        simp only [List.length_cons] at h3 ⊢
        omega
      · simp at h
    · simp at h

/-- The reference that starts at the first character, or behind it. -/
def referenceNear? (atStart : Bool) (c : Char) (r : List Char) : Option (Reference × List Char) :=
  (if atStart then referenceAt? (c :: r) else none).or
    (if opensReference c then referenceAt? r else none)

/-- A reference behind the first character takes at least one character as well. -/
theorem referenceNear?_length_lt {atStart : Bool} {c : Char} {r rest : List Char} {ref : Reference}
    (h : referenceNear? atStart c r = some (ref, rest)) : rest.length < (c :: r).length := by
  unfold referenceNear? at h
  rcases Option.or_eq_some_iff.1 h with h | ⟨_, h⟩
  · split at h
    · exact referenceAt?_length_lt h
    · simp at h
  · split at h
    · have := referenceAt?_length_lt h
      simp only [List.length_cons]; omega
    · simp at h

/-- The references of a masked text, in order. None overlaps the one before it. -/
def references (atStart : Bool) : List Char → List Reference
  | [] => []
  | c :: r =>
    match _h : referenceNear? atStart c r with
    | some (ref, rest) => ref :: references false rest
    | none => references false r
termination_by s => s.length
decreasing_by
  · exact referenceNear?_length_lt _h
  · simp

/-- Looks one reference up. -/
def Reference.check (s : Schema) (r : Reference) : Except FieldError Unit :=
  let name := String.ofList (r.base ++ r.dotted)
  if r.dotted.any Text.isBlank || !r.trailing.isEmpty then
    s.refuse (String.ofList (r.base ++ r.dotted ++ r.trailing)) .whitespace
  else
    match s.get? (String.ofList r.base) with
    | none => s.refuse name .unknown
    | some f =>
      if r.dotted.isEmpty then .ok ()
      else if !f.hasParts then s.refuse name .notNested
      else if r.dotted.length = 1 then s.refuse name .unknown
      else .ok ()

/-- Looks up every reference of a query; the first refusal counts. -/
def checkReferences (s : Schema) (query : String) : Except FieldError Unit :=
  (references true (mask false false query.toList)).forM (Reference.check s)

end Query
end SearchFilter
