/-
# Readers that remember what stopped them

A reader takes something from the front of a text, or fails. Either way it leaves
notes of the places where it could not go on, so that a query which is refused can be
explained by the place that was reached furthest, also when that was on a way which
was later given up.

| note | found character |
| --- | --- |
| `unexpected` | the one at its place, none at the end of the text |
| `unexplained` | none |
| `refused` | none: a text was read and then not accepted |

Notes are gathered in order. `furthest` picks one of them: the further one wins, at
one place `refused` wins, and otherwise the earlier one stays, except that a *direct*
note gives an unexplained one its character.

A place in the text is kept as the text that is left from there on.
-/

import SearchFilter.Text.Blank

namespace SearchFilter
namespace Grammar

/-- What a note says. -/
inductive Cause where
  | unexpected
  | unexplained
  | refused
deriving DecidableEq, Repr

/-- A note about a place where reading stopped. -/
structure Note where
  /-- the text from that place on -/
  rest : List Char
  cause : Cause
  /-- whether a test of one character made the note -/
  direct : Bool
deriving DecidableEq, Repr

namespace Note

/-- The character that a note found. -/
def found? (n : Note) : Option Char := if n.cause = .unexpected then n.rest.head? else none

/-- Of the best note so far and the next one, the better one. -/
def prefer (best : Option Note) (next : Note) : Option Note :=
  match best with
  | none => some next
  | some b =>
    let left := next.rest.length
    let bestLeft := b.rest.length
    if left < bestLeft then some next
    else if bestLeft < left then some b
    else if b.cause = .refused then some b
    else if next.cause = .refused then some next
    else if b.cause = .unexplained ∧ next.cause = .unexpected ∧ next.direct = true then some next
    else some b

/-- The note that explains a failure. -/
def furthest (notes : List Note) : Option Note := notes.foldl prefer none

/-- One note, no longer direct, in place of many. -/
def summary (notes : List Note) : List Note :=
  match furthest notes with
  | some n => [{ n with direct := false }]
  | none => []

/-- Of two notes one is preferred. -/
theorem prefer_eq_or (best : Option Note) (next : Note) :
    prefer best next = best ∨ prefer best next = some next := by
  unfold prefer; cases best <;> grind

/-- The note that is picked is one of the notes. -/
theorem mem_of_furthest {notes : List Note} {n : Note} (h : furthest notes = some n) :
    n ∈ notes := by
  have key : ∀ (ns : List Note) (best : Option Note),
      ns.foldl prefer best = some n → best = some n ∨ n ∈ ns := by
    intro ns
    induction ns with
    | nil => intro best h; exact .inl h
    | cons m rest ih =>
      intro best h
      rcases ih _ h with h | h
      · rcases prefer_eq_or best m with he | he
        · exact .inl (he ▸ h)
        · exact .inr (by rw [he] at h; simp_all)
      · exact .inr (List.mem_cons_of_mem _ h)
  exact (key notes none h).resolve_left (by simp)

end Note

/-- What a reader comes to: what it has read, with the text behind it, and its notes. -/
structure Outcome (α : Type) where
  result : Option (α × List Char)
  notes : List Note

/-- A reader of some type. -/
def Reader (α : Type) : Type := List Char → Outcome α

namespace Reader

variable {α β : Type}

/-- Reads nothing. -/
protected def pure (a : α) : Reader α := fun s => ⟨some (a, s), []⟩

/-- One reader after another, which may depend on what was read. -/
protected def bind (p : Reader α) (f : α → Reader β) : Reader β := fun s =>
  match p s with
  | ⟨some (a, r), notes⟩ => let next := f a r; ⟨next.result, notes ++ next.notes⟩
  | ⟨none, notes⟩ => ⟨none, notes⟩

instance : Monad Reader where
  pure := Reader.pure
  bind := Reader.bind

/-- Always fails. -/
def fail : Reader α := fun _ => ⟨none, []⟩

/-- The first reader, or the second one from the same place. -/
def orElse (p q : Reader α) : Reader α := fun s =>
  match p s with
  | ⟨some x, notes⟩ => ⟨some x, notes⟩
  | ⟨none, notes⟩ => let other := q s; ⟨other.result, notes ++ other.notes⟩

/-- The first of several readers that succeeds. -/
def choice : List (Reader α) → Reader α
  | [] => fail
  | p :: rest => orElse p (choice rest)

/-- A reader that may be left out. -/
def opt (p : Reader α) : Reader (Option α) := fun s =>
  match p s with
  | ⟨some (a, r), notes⟩ => ⟨some (some a, r), notes⟩
  | ⟨none, notes⟩ => ⟨some (none, s), notes⟩

/-- As often as the reader succeeds, at most as often as the bound has characters. -/
def manyWithin (p : Reader α) : (bound : List Char) → Reader (List α)
  | [], s => ⟨some ([], s), []⟩
  | _ :: bound, s =>
    match p s with
    | ⟨some (a, r), notes⟩ =>
      let next := manyWithin p bound r
      ⟨next.result.map fun x => (a :: x.1, x.2), notes ++ next.notes⟩
    | ⟨none, notes⟩ => ⟨some ([], s), notes⟩

/-- As often as the reader succeeds. The reader has to take something each time, so
that one try more than the text has characters is never exceeded. -/
def many (p : Reader α) : Reader (List α) := fun s => manyWithin p (' ' :: s) s

/-- The character at the front, where it is of a class. -/
def char (p : Char → Bool) : Reader Char := fun s =>
  match s with
  | c :: r => if p c then ⟨some (c, r), []⟩ else ⟨none, [⟨s, .unexpected, true⟩]⟩
  | [] => ⟨none, [⟨s, .unexpected, true⟩]⟩

/-- One given character. -/
def just (c : Char) : Reader Char := char (· == c)

/-- Given characters, one after another. -/
def literal : List Char → Reader Unit
  | [] => pure ()
  | c :: rest => do
    let _ ← just c
    literal rest

/-- The end of the text. -/
def atEnd : Reader Unit := fun s =>
  match s with
  | [] => ⟨some ((), []), []⟩
  | _ :: _ => ⟨none, [⟨s, .unexpected, true⟩]⟩

/-- Blanks, without a note. -/
def blanks : Reader Unit := fun s => ⟨some ((), Text.skipBlank s), []⟩

/-- A reader with blanks around it. -/
def padded (p : Reader α) : Reader α := do
  blanks
  let a ← p
  blanks
  pure a

/-- A reader with one note in place of its own. A refusal at its very start stays
unexplained. -/
def labelled (p : Reader α) : Reader α := fun s =>
  let out := p s
  let notes := (Note.summary out.notes).map fun n =>
    if n.cause = .refused ∧ n.rest.length = s.length then { n with cause := .unexplained } else n
  ⟨out.result, notes⟩

/-- Takes what was read only where `f` accepts it; otherwise all that is noted is a
refusal at the start. -/
def accept (p : Reader α) (f : α → Option β) : Reader β := fun s =>
  let out := p s
  match out.result with
  | none => ⟨none, Note.summary out.notes⟩
  | some (a, r) =>
    match f a with
    | some b => ⟨some (b, r), Note.summary out.notes⟩
    | none => ⟨none, [⟨s, .refused, false⟩]⟩

/-- Looks ahead without taking anything. What was noted beyond the place counts only
where the look fails. -/
def ahead (p : Reader α) : Reader α := fun s =>
  let out := p s
  match out.result with
  | none => ⟨none, Note.summary out.notes⟩
  | some (a, _) => ⟨some (a, s), (Note.summary out.notes).filter fun n => s.length ≤ n.rest.length⟩

end Reader
end Grammar
end SearchFilter
