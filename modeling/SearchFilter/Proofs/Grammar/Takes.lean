/-
# What readers take

The notes of a reader play no part in what it takes from the front of a text. For
each way of putting readers together, the texts that the whole takes are told by the
texts that its parts take.

| reader | takes |
| --- | --- |
| `p >>= f` | what `p` takes, and then what `f` takes |
| `orElse p q` | what `p` takes, or where `p` fails what `q` takes |
| `opt p` | what `p` takes, or nothing |
| `many p` | what `p` takes, over and over until it fails (`takesAll_of_takes_many`) |
| `labelled p`, `accept p f`, `ahead p` | what `p` takes, all, some or none of it |
-/

import SearchFilter.Grammar.Reader

namespace SearchFilter
namespace Grammar
namespace Reader

variable {α β : Type}

/-- The reader reads `a` off the front of `s` and leaves `r`. -/
def Takes (p : Reader α) (s : List Char) (a : α) (r : List Char) : Prop :=
  (p s).result = some (a, r)

/-- The reader reads nothing off the front of `s`. -/
def Fails (p : Reader α) (s : List Char) : Prop := (p s).result = none

/-- A reader takes something, or fails. -/
theorem takes_or_fails (p : Reader α) (s : List Char) : (∃ a r, p.Takes s a r) ∨ p.Fails s := by
  cases h : (p s).result with
  | none => exact .inr h
  | some x => exact .inl ⟨x.1, x.2, h⟩

/-- There is one way to read. -/
theorem Takes.unique {p : Reader α} {s r t : List Char} {a b : α} (h : p.Takes s a r)
    (h' : p.Takes s b t) : a = b ∧ r = t := Prod.mk.inj (Option.some.inj (h.symm.trans h'))

/-- A value is taken off no text. -/
@[simp] theorem takes_pure {a b : α} {s r : List Char} :
    Takes (pure a) s b r ↔ a = b ∧ s = r := by
  simp [Takes, pure, Reader.pure]

/-- Two readers take what the first one takes, and then what the second one takes. -/
@[simp] theorem takes_bind {p : Reader α} {f : α → Reader β} {s r : List Char} {b : β} :
    Takes (p >>= f) s b r ↔ ∃ a m, p.Takes s a m ∧ (f a).Takes m b r := by
  simp only [Takes, bind, Reader.bind]
  rcases p s with ⟨_ | ⟨a, m⟩, notes⟩
  · simp
  · simp only [Option.some.injEq, Prod.mk.injEq]
    exact ⟨fun h => ⟨a, m, ⟨rfl, rfl⟩, h⟩, by rintro ⟨_, _, ⟨rfl, rfl⟩, h⟩; exact h⟩

/-- A reader with a function takes what the reader takes. -/
@[simp] theorem takes_map {p : Reader α} {f : α → β} {s r : List Char} {b : β} :
    Takes (f <$> p) s b r ↔ ∃ a, p.Takes s a r ∧ f a = b := by
  simp only [Takes, Functor.map, Reader.bind, Reader.pure, Function.comp]
  rcases p s with ⟨_ | ⟨a, m⟩, notes⟩
  · simp
  · simp only [Option.some.injEq, Prod.mk.injEq]
    exact ⟨fun h => ⟨a, ⟨rfl, h.2⟩, h.1⟩, by rintro ⟨_, ⟨rfl, rfl⟩, h⟩; exact ⟨h, rfl⟩⟩

/-- The second reader takes its turn only where the first one fails. -/
@[simp] theorem takes_orElse {p q : Reader α} {s r : List Char} {a : α} :
    (orElse p q).Takes s a r ↔ p.Takes s a r ∨ p.Fails s ∧ q.Takes s a r := by
  simp only [Takes, Fails, orElse]
  rcases p s with ⟨_ | ⟨a, m⟩, notes⟩ <;> simp

/-- A failure takes nothing. -/
@[simp] theorem not_takes_fail {s r : List Char} {a : α} : ¬ (fail : Reader α).Takes s a r := by
  simp [Takes, fail]

/-- A choice between no readers takes nothing. -/
@[simp] theorem takes_choice_nil {s r : List Char} {a : α} : ¬ (choice []).Takes s a r :=
  not_takes_fail

/-- Of a choice the first reader is tried first, and the others only where it fails. -/
@[simp] theorem takes_choice_cons {p : Reader α} {ps : List (Reader α)} {s r : List Char} {a : α} :
    (choice (p :: ps)).Takes s a r ↔ p.Takes s a r ∨ p.Fails s ∧ (choice ps).Takes s a r :=
  takes_orElse

/-- An optional reader takes what the reader takes, or nothing where it fails. -/
@[simp] theorem takes_opt {p : Reader α} {s r : List Char} {a : Option α} :
    (opt p).Takes s a r ↔
      (∃ b, a = some b ∧ p.Takes s b r) ∨ (a = none ∧ r = s ∧ p.Fails s) := by
  simp only [Takes, Fails, opt]
  rcases p s with ⟨_ | ⟨b, m⟩, notes⟩
  · simp [eq_comm]
  · simp only [Option.some.injEq, Prod.mk.injEq, reduceCtorEq, and_false, or_false]
    exact ⟨fun h => ⟨b, h.1.symm, rfl, h.2⟩, by rintro ⟨_, rfl, rfl, rfl⟩; exact ⟨rfl, rfl⟩⟩

/-- One character of a class is taken. -/
@[simp] theorem takes_char {f : Char → Bool} {s r : List Char} {c : Char} :
    (char f).Takes s c r ↔ s = c :: r ∧ f c = true := by
  cases s with
  | nil => simp [Takes, char]
  | cons d s => by_cases h : f d = true <;> simp [Takes, char, h] <;> grind

/-- One certain character is taken. -/
@[simp] theorem takes_just {c d : Char} {s r : List Char} :
    (just c).Takes s d r ↔ s = d :: r ∧ d = c := by
  simp [just]

/-- A certain text is taken in full. -/
@[simp] theorem takes_literal {cs s r : List Char} {u : Unit} :
    (literal cs).Takes s u r ↔ s = cs ++ r := by
  induction cs generalizing s with
  | nil => simp [literal]
  | cons c cs ih => simp [literal, ih]

/-- Only at its end can a text end. -/
@[simp] theorem takes_atEnd {s r : List Char} {u : Unit} :
    atEnd.Takes s u r ↔ s = [] ∧ r = [] := by
  cases s <;> simp [Takes, atEnd, eq_comm]

/-- All blanks in front are taken. -/
@[simp] theorem takes_blanks {s r : List Char} {u : Unit} :
    blanks.Takes s u r ↔ r = Text.skipBlank s := by
  simp [Takes, blanks, eq_comm]

/-- The blanks on both sides are taken as well. -/
@[simp] theorem takes_padded {p : Reader α} {s r : List Char} {a : α} :
    (padded p).Takes s a r ↔ ∃ m, p.Takes (Text.skipBlank s) a m ∧ Text.skipBlank m = r := by
  simp only [padded, takes_bind, takes_blanks, takes_pure]
  constructor
  · rintro ⟨_, _, rfl, b, m, hp, _, _, rfl, rfl, rfl⟩
    exact ⟨m, hp, rfl⟩
  · rintro ⟨m, hp, rfl⟩
    exact ⟨(), _, rfl, a, m, hp, (), _, rfl, rfl, rfl⟩

/-- A name for what is missing changes nothing of what is taken. -/
@[simp] theorem takes_labelled {p : Reader α} {s r : List Char} {a : α} :
    (labelled p).Takes s a r ↔ p.Takes s a r := Iff.rfl

/-- What is taken has to be accepted. -/
@[simp] theorem takes_accept {p : Reader α} {f : α → Option β} {s r : List Char} {b : β} :
    (accept p f).Takes s b r ↔ ∃ a, p.Takes s a r ∧ f a = some b := by
  simp only [Takes, accept]
  rcases (p s).result with _ | ⟨a, m⟩
  · simp
  · cases h : f a with
    | none =>
      simp only [h, Option.some.injEq, Prod.mk.injEq, reduceCtorEq, false_iff]
      rintro ⟨_, ⟨rfl, _⟩, hb⟩
      simp [h] at hb
    | some c =>
      simp only [h, Option.some.injEq, Prod.mk.injEq]
      exact ⟨fun e => ⟨a, ⟨rfl, e.2⟩, by rw [h, e.1]⟩,
        by rintro ⟨_, ⟨rfl, rfl⟩, hb⟩; exact ⟨by simpa [h] using hb, rfl⟩⟩

/-- A look ahead takes nothing off the text. -/
@[simp] theorem takes_ahead {p : Reader α} {s r : List Char} {a : α} :
    (ahead p).Takes s a r ↔ r = s ∧ ∃ m, p.Takes s a m := by
  simp only [Takes, ahead]
  rcases (p s).result with _ | ⟨a, m⟩ <;> simp [eq_comm, and_comm]

/-- What a list of readings takes, one after the other. -/
inductive TakesAll (p : Reader α) : List Char → List α → List Char → Prop
  | nil (s) : TakesAll p s [] s
  | cons {s m r a as} : p.Takes s a m → TakesAll p m as r → TakesAll p s (a :: as) r

/-- One more reading can be taken behind the others. -/
theorem TakesAll.concat {p : Reader α} {s m r : List Char} {a : α} {as : List α}
    (h : p.TakesAll s as m) (ha : p.Takes m a r) : p.TakesAll s (as ++ [a]) r := by
  induction h with
  | nil => exact .cons ha (.nil r)
  | cons hb _ ih => exact .cons hb (ih ha)

/-- A bounded repetition takes one reading after the other. -/
theorem takesAll_of_manyWithin {p : Reader α} {bound s r : List Char} {as : List α}
    (h : (manyWithin p bound s).result = some (as, r)) : p.TakesAll s as r := by
  induction bound generalizing s as with
  | nil =>
    obtain ⟨rfl, rfl⟩ : [] = as ∧ s = r := by simpa [manyWithin] using h
    exact .nil s
  | cons b bound ih =>
    rw [manyWithin] at h
    split at h
    · rename_i a m notes hp
      simp only [Option.map_eq_some_iff, Prod.mk.injEq] at h
      obtain ⟨⟨as, r⟩, hrest, rfl, rfl⟩ := h
      exact .cons (m := m) (by simp [Takes, hp]) (ih hrest)
    · obtain ⟨rfl, rfl⟩ : [] = as ∧ s = r := by simpa using h
      exact .nil s

/-- **A repetition takes one reading after the other.** -/
theorem takesAll_of_takes_many {p : Reader α} {s r : List Char} {as : List α}
    (h : (many p).Takes s as r) : p.TakesAll s as r := takesAll_of_manyWithin h

/-- A repetition of readings, each of which takes a character at least, goes on until
the reader fails. -/
theorem fails_of_takes_many {p : Reader α} (hp : ∀ s a r, p.Takes s a r → r.length < s.length)
    {s r : List Char} {as : List α} (h : (many p).Takes s as r) : p.Fails r := by
  have key : ∀ (bound s : List Char) (as : List α), s.length < bound.length →
      (manyWithin p bound s).result = some (as, r) → p.Fails r := by
    intro bound
    induction bound with
    | nil => intro s as hl; simp at hl
    | cons b bound ih =>
      intro s as hl h
      rw [manyWithin] at h
      split at h
      · rename_i a m notes hpm
        simp only [Option.map_eq_some_iff, Prod.mk.injEq] at h
        obtain ⟨⟨as, r⟩, hrest, rfl, rfl⟩ := h
        have hm := hp s a m (by simp [Takes, hpm])
        exact ih m as (by simp only [List.length_cons] at hl; omega) hrest
      · rename_i notes hpm
        obtain ⟨rfl, rfl⟩ : [] = as ∧ s = r := by simpa using h
        simp [Fails, hpm]
  exact key (' ' :: s) s as (by simp) h

/-- Readings one after the other are a repetition, where the reader fails behind them and
each of them takes a character at least. -/
theorem takes_many {p : Reader α} (hp : ∀ s a r, p.Takes s a r → r.length < s.length)
    {s r : List Char} {as : List α} (h : p.TakesAll s as r) (hr : p.Fails r) :
    (many p).Takes s as r := by
  have key (bound : List Char) (hbound : s.length < bound.length) :
      (manyWithin p bound s).result = some (as, r) := by
    induction h generalizing bound with
    | nil s =>
      cases bound with
      | nil => rfl
      | cons b bound =>
        rw [manyWithin]
        rcases hs : p s with ⟨_ | x, notes⟩
        · rfl
        · rw [Fails, hs] at hr
          cases hr
    | @cons s m r a as ha _ ih =>
      cases bound with
      | nil => simp at hbound
      | cons b bound =>
        have hm := hp s a m ha
        rw [List.length_cons] at hbound
        have hrest := ih hr bound (by omega)
        rw [manyWithin]
        rcases hs : p s with ⟨x, notes⟩
        obtain rfl : x = some (a, m) := by rw [← ha, hs]
        simp [hrest]
  exact key (' ' :: s) (by simp)

end Reader
end Grammar
end SearchFilter
