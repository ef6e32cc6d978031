/-
# Texts that are passed through

A text is *passed through* at a spot when one comes out at the spot where one went
in, nothing in it ends a word, and no bracket in it is closed without being open. The
phrases and ranges that are opened on the way are counted. Texts that are passed
through can be put one after the other (`Passes.append`), and between a character that
leads to another spot and one that leads back (`Passes.enclose`).
-/

import SearchFilter.Proofs.Query.Role

namespace SearchFilter
namespace Query

/-- A text that leads from a spot back to it, within one word and without strays, and
the number of its openings. -/
structure Passes (spot : Spot) (n : Nat) (u : List Char) : Prop where
  after : Place.after ⟨spot, false⟩ u = ⟨spot, false⟩
  unbroken : IsUnbroken ⟨spot, false⟩ u
  openings : Place.marks opensHere ⟨spot, false⟩ u = n
  strays : Place.marks straysHere ⟨spot, false⟩ u = 0

/-- An empty text is passed through everywhere. -/
theorem Passes.nil (spot : Spot) : Passes spot 0 [] := ⟨rfl, rfl, rfl, rfl⟩

/-- Texts that are passed through can be put one after the other, and their openings add up. -/
theorem Passes.append {spot : Spot} {m n : Nat} {u v : List Char} (hu : Passes spot m u)
    (hv : Passes spot n v) : Passes spot (m + n) (u ++ v) where
  after := by rw [Place.after_append, hu.after, hv.after]
  unbroken := isUnbroken_append.2 ⟨hu.unbroken, by rw [hu.after]; exact hv.unbroken⟩
  openings := by rw [Place.marks_append, hu.openings, hu.after, hv.openings]
  strays := by rw [Place.marks_append, hu.strays, hu.after, hv.strays]

/-- A text that is passed through is the first word of it and what follows. -/
theorem Passes.cuts {n : Nat} {w r : List Char} (h : Passes .bare n w) (hne : w ≠ [])
    (hr : AtBoundary r) : Cuts w r := ⟨hne, h.unbroken, hr, fun _ => h.after⟩

/-- A text that leads from one spot to another and back is passed through. -/
theorem Passes.enclose {spot inner : Spot} {n : Nat} {opening closing : Char} {u : List Char}
    (hu : Passes inner 0 u) (hin : Place.next ⟨spot, false⟩ opening = ⟨inner, false⟩)
    (hout : Place.next ⟨inner, false⟩ closing = ⟨spot, false⟩) (hinner : inner ≠ .bare)
    (hends : Place.ends ⟨spot, false⟩ opening = false)
    (hstray : straysHere ⟨spot, false⟩ opening = false)
    (hn : (if opensHere ⟨spot, false⟩ opening then 1 else 0) = n) :
    Passes spot n (opening :: (u ++ [closing])) where
  after := by simp [hin, hu.after, hout]
  unbroken := by
    rw [isUnbroken_cons, hin, isUnbroken_append, hu.after, isUnbroken_cons]
    exact ⟨hends, hu.unbroken, Place.ends_of_ne (by simp [Place.bare, hinner]) _, isUnbroken_nil _⟩
  openings := by
    rw [Place.marks_cons, hn, hin, Place.marks_append, hu.openings, hu.after, Place.marks_cons]
    simp [opensHere, Place.bare, hinner]
  strays := by
    rw [Place.marks_cons, hstray, hin, Place.marks_append, hu.strays, hu.after, Place.marks_cons]
    simp [straysHere, Place.bare, hinner]

/-- A character that leads nowhere and ends nothing. -/
def isPlain (c : Char) : Bool :=
  !(endsWord c || ['"', '[', '\x7b', ']', '\x7d', '\\'].contains c)

/-- A plain character is passed through everywhere. -/
theorem passes_plain {c : Char} (h : isPlain c = true) (spot : Spot) : Passes spot 0 [c] := by
  simp only [isPlain, Bool.not_eq_true', Bool.or_eq_false_iff, List.contains_eq_mem,
    decide_eq_false_iff_not, List.mem_cons, List.not_mem_nil, or_false, not_or] at h
  obtain ⟨hends, h1, h2, h3, h4, h5, h6⟩ := h
  have hnext : Place.next ⟨spot, false⟩ c = ⟨spot, false⟩ := by
    rw [Place.next_of_ne h6]
    cases spot <;> simp [Spot.next, h1, h2, h3, h4, h5]
  refine ⟨hnext, isUnbroken_cons.2 ⟨?_, isUnbroken_nil _⟩, ?_, ?_⟩
  · simp [Place.ends, hends]
  · simp [Place.marks_cons, opensHere, h1, h2, h3]
  · simp [Place.marks_cons, straysHere, h4, h5]

/-- A text of plain characters is passed through everywhere. -/
theorem passes_of_all_plain {u : List Char} (h : ∀ c ∈ u, isPlain c = true) (spot : Spot) :
    Passes spot 0 u := by
  induction u with
  | nil => exact .nil spot
  | cons c u ih =>
    exact (passes_plain (h c (List.mem_cons_self ..)) spot).append
      (ih fun d hd => h d (List.mem_cons_of_mem _ hd))

/-- Where a word is not bare, a character that leads nowhere is passed through. -/
theorem passes_inside {spot : Spot} (hspot : spot ≠ .bare) {c : Char} (hc : c ≠ '\\')
    (hnext : spot.next c = spot) : Passes spot 0 [c] := by
  have hbare : (⟨spot, false⟩ : Place) ≠ .bare := by simp [Place.bare, hspot]
  refine ⟨?_, isUnbroken_cons.2 ⟨Place.ends_of_ne hbare c, isUnbroken_nil _⟩, ?_, ?_⟩
  · rw [Place.after_cons, Place.next_of_ne hc, hnext, Place.after_nil]
  · simp [Place.marks_cons, opensHere, hbare]
  · simp [Place.marks_cons, straysHere, hbare]

/-- A backslash and the character behind it. -/
theorem passes_pair (spot : Spot) (c : Char) : Passes spot 0 ['\\', c] := by
  have hne : (⟨spot, true⟩ : Place) ≠ .bare := by simp [Place.bare]
  refine ⟨rfl, isUnbroken_cons.2 ⟨?_, isUnbroken_cons.2 ⟨Place.ends_of_ne hne _, rfl⟩⟩, ?_, ?_⟩
  · cases spot <;> rfl
  · cases spot <;> rfl
  · cases spot <;> rfl

end Query
end SearchFilter
