/-
# What readers leave

Where a reader is tried on a text it leaves notes. For each way of putting readers
together, the notes of the whole are told by the notes of its parts, and which of them
is picked by the others: a note that is *beaten* by another one is not.

| reader | leaves |
| --- | --- |
| `p >>= f` | what `p` leaves, and what `f` leaves behind what `p` takes |
| `orElse p q` | what `p` leaves, and where `p` fails what `q` leaves |
| `opt p` | what `p` leaves |
| `many p` | what `p` leaves wherever it is tried (`leaves_many`) |
| `labelled p`, `accept p f`, `ahead p` | the note of `p` that is picked, or another one in its place |
-/

import SearchFilter.Proofs.Grammar.Takes

namespace SearchFilter
namespace Grammar

namespace Note

/-- The note is picked before the other one, whichever of them is left first. -/
def Beats (m n : Note) : Prop :=
  m.rest.length < n.rest.length ∨
    m.rest.length = n.rest.length ∧ n.cause = .unexplained ∧ m.cause = .unexpected ∧
      m.direct = true

/-- What is preferred is beaten neither by the next note nor by one that did not beat the
best note before. -/
theorem exists_prefer (best : Option Note) (next : Note) :
    ∃ c, prefer best next = some c ∧ ¬ next.Beats c ∧
      ∀ b, best = some b → ∀ m : Note, ¬ m.Beats b → ¬ m.Beats c := by
  unfold prefer Beats
  cases best with
  | none => exact ⟨next, rfl, by grind, by simp⟩
  | some b => grind

/-- **The note that is picked is beaten by none.** -/
theorem not_beats_of_furthest {notes : List Note} {n : Note} (h : furthest notes = some n) :
    ∀ m ∈ notes, ¬ m.Beats n := by
  -- what does not beat the best note so far does not beat the one that is picked in the end
  have key : ∀ (ns : List Note) (best : Option Note), ns.foldl prefer best = some n →
      (∀ b, best = some b → ∀ m : Note, ¬ m.Beats b → ¬ m.Beats n) ∧
        ∀ m ∈ ns, ¬ m.Beats n := by
    intro ns
    induction ns with
    | nil =>
      rintro best h
      exact ⟨fun b hb m hm => by rw [← Option.some.inj (h.symm.trans hb)] at hm; exact hm, by simp⟩
    | cons next ns ih =>
      intro best h
      obtain ⟨c, hc, hnext, hbest⟩ := exists_prefer best next
      obtain ⟨hold, hns⟩ := ih _ h
      refine ⟨fun b hb m hm => hold c hc m (hbest b hb m hm), ?_⟩
      exact List.forall_mem_cons.2 ⟨hold c hc next hnext, hns⟩
  exact (key notes none h).2

/-- The summary of notes is the one that is picked, as a note of no single character. -/
theorem mem_summary {notes : List Note} {n : Note} :
    n ∈ summary notes ↔ ∃ m, furthest notes = some m ∧ n = { m with direct := false } := by
  rw [summary]
  split <;> simp_all

end Note

namespace Reader

variable {α β : Type}

/-- The reader leaves a note where it is tried on a text. -/
def Leaves (p : Reader α) (s : List Char) (n : Note) : Prop := n ∈ (p s).notes

/-- The note is the one that is picked of those that the reader leaves. -/
def Picks (p : Reader α) (s : List Char) (n : Note) : Prop := Note.furthest (p s).notes = some n

/-- A note that is picked has been left. -/
theorem Picks.leaves {p : Reader α} {s : List Char} {n : Note} (h : p.Picks s n) :
    p.Leaves s n := Note.mem_of_furthest h

/-- No note that is left beats the one that is picked. -/
theorem Picks.not_beats {p : Reader α} {s : List Char} {n m : Note} (h : p.Picks s n)
    (hm : p.Leaves s m) : ¬ m.Beats n := Note.not_beats_of_furthest h m hm

/-- A value leaves no notes. -/
@[simp] theorem not_leaves_pure {a : α} {s : List Char} {n : Note} :
    ¬ Leaves (pure a) s n := by
  simp [Leaves, pure, Reader.pure]

/-- Two readers leave the notes of the first one, and those of the second one behind what it takes. -/
@[simp] theorem leaves_bind {p : Reader α} {f : α → Reader β} {s : List Char} {n : Note} :
    Leaves (p >>= f) s n ↔ p.Leaves s n ∨ ∃ a m, p.Takes s a m ∧ (f a).Leaves m n := by
  simp only [Leaves, Takes, bind, Reader.bind]
  rcases p s with ⟨_ | ⟨a, m⟩, notes⟩
  · simp
  · simp only [List.mem_append, Option.some.injEq, Prod.mk.injEq]
    exact or_congr_right ⟨fun h => ⟨a, m, ⟨rfl, rfl⟩, h⟩, by rintro ⟨_, _, ⟨rfl, rfl⟩, h⟩; exact h⟩

/-- A function of what is read changes no notes. -/
@[simp] theorem leaves_map {p : Reader α} {f : α → β} {s : List Char} {n : Note} :
    Leaves (f <$> p) s n ↔ p.Leaves s n := by
  simp only [Leaves, Functor.map, Reader.bind, Reader.pure, Function.comp]
  rcases p s with ⟨_ | ⟨a, m⟩, notes⟩ <;> simp

/-- The second reader leaves its notes only where the first one fails. -/
@[simp] theorem leaves_orElse {p q : Reader α} {s : List Char} {n : Note} :
    (orElse p q).Leaves s n ↔ p.Leaves s n ∨ p.Fails s ∧ q.Leaves s n := by
  simp only [Leaves, Fails, orElse]
  rcases p s with ⟨_ | ⟨a, m⟩, notes⟩ <;> simp

/-- A choice between no readers leaves no notes. -/
@[simp] theorem not_leaves_choice_nil {s : List Char} {n : Note} :
    ¬ (choice [] : Reader α).Leaves s n := by
  simp [Leaves, choice, fail]

/-- Of a choice the others leave their notes only where the first reader fails. -/
@[simp] theorem leaves_choice_cons {p : Reader α} {ps : List (Reader α)} {s : List Char}
    {n : Note} :
    (choice (p :: ps)).Leaves s n ↔ p.Leaves s n ∨ p.Fails s ∧ (choice ps).Leaves s n :=
  leaves_orElse

/-- An optional reader leaves the notes of the reader. -/
@[simp] theorem leaves_opt {p : Reader α} {s : List Char} {n : Note} :
    (opt p).Leaves s n ↔ p.Leaves s n := by
  simp only [Leaves, opt]
  rcases p s with ⟨_ | ⟨a, m⟩, notes⟩ <;> simp

/-- Blanks leave no notes. -/
@[simp] theorem not_leaves_blanks {s : List Char} {n : Note} : ¬ blanks.Leaves s n := by
  simp [Leaves, blanks]

/-- With blanks around it a reader leaves its notes behind those in front. -/
@[simp] theorem leaves_padded {p : Reader α} {s : List Char} {n : Note} :
    (padded p).Leaves s n ↔ p.Leaves (Text.skipBlank s) n := by
  simp [padded]

/-- A test of one character leaves a direct note exactly where it fails. -/
@[simp] theorem leaves_char {f : Char → Bool} {s : List Char} {n : Note} :
    (char f).Leaves s n ↔ (char f).Fails s ∧ n = ⟨s, .unexpected, true⟩ := by
  cases s with
  | nil => simp [Leaves, Fails, char]
  | cons c s => by_cases h : f c = true <;> simp [Leaves, Fails, char, h]

/-- A test for a certain character leaves a direct note exactly where it fails. -/
@[simp] theorem leaves_just {c : Char} {s : List Char} {n : Note} :
    (just c).Leaves s n ↔ (just c).Fails s ∧ n = ⟨s, .unexpected, true⟩ := leaves_char

/-- A test for the end leaves a direct note where the text goes on. -/
@[simp] theorem leaves_atEnd {s : List Char} {n : Note} :
    atEnd.Leaves s n ↔ s ≠ [] ∧ n = ⟨s, .unexpected, true⟩ := by
  cases s <;> simp [Leaves, atEnd]

/-- Under a name the picked note is left; a refusal at the very start explains nothing then. -/
theorem leaves_labelled {p : Reader α} {s : List Char} {n : Note} :
    (labelled p).Leaves s n ↔ ∃ m, p.Picks s m ∧
      n = ⟨m.rest, if m.cause = .refused ∧ m.rest.length = s.length then .unexplained else m.cause,
        false⟩ := by
  simp only [Leaves, labelled, List.mem_map, Note.mem_summary, Picks]
  constructor
  · rintro ⟨_, ⟨m, hm, rfl⟩, rfl⟩
    exact ⟨m, hm, by split <;> simp_all⟩
  · rintro ⟨m, hm, rfl⟩
    exact ⟨_, ⟨m, hm, rfl⟩, by split <;> simp_all⟩

/-- What was read and is not accepted leaves a refusal; else the picked note stays. -/
theorem leaves_accept {p : Reader α} {f : α → Option β} {s : List Char} {n : Note}
    (h : (accept p f).Leaves s n) :
    (∃ m, p.Picks s m ∧ n = { m with direct := false }) ∨
      n = ⟨s, .refused, false⟩ ∧ ∃ a r, p.Takes s a r ∧ f a = none := by
  simp only [Leaves, accept] at h
  split at h
  · exact .inl (Note.mem_summary.1 h)
  · rename_i a r htakes
    split at h
    · exact .inl (Note.mem_summary.1 h)
    · rename_i hnone
      exact .inr ⟨by simpa using h, a, r, htakes, hnone⟩

/-- A look ahead leaves the note that is picked, as a note of no single character. -/
theorem leaves_ahead {p : Reader α} {s : List Char} {n : Note} (h : (ahead p).Leaves s n) :
    ∃ m, p.Picks s m ∧ n = { m with direct := false } := by
  simp only [Leaves, ahead] at h
  split at h
  · exact Note.mem_summary.1 h
  · exact Note.mem_summary.1 (List.mem_filter.1 h).1

/-! ### Repetitions -/

/-- Readings one after the other end with the last one. -/
theorem TakesAll.eq_or_last {p : Reader α} {s r : List Char} {as : List α}
    (h : p.TakesAll s as r) : r = s ∨ ∃ bs m a, p.TakesAll s bs m ∧ p.Takes m a r := by
  induction h with
  | nil s => exact .inl rfl
  | @cons s m r a as ha _ ih =>
    obtain rfl | ⟨bs, m', b, hbs, hb⟩ := ih
    · exact .inr ⟨[], s, a, .nil s, ha⟩
    · exact .inr ⟨a :: bs, m', b, .cons ha hbs, hb⟩

/-- Where every reading takes a character at least, the reader is tried over and over until
it fails. -/
theorem exists_takesAll {p : Reader α} (hp : ∀ s a r, p.Takes s a r → r.length < s.length)
    (s : List Char) : ∃ as r, p.TakesAll s as r ∧ p.Fails r := by
  induction hn : s.length using Nat.strongRecOn generalizing s with
  | ind n ih =>
    obtain ⟨a, m, ha⟩ | hfails := takes_or_fails p s
    · obtain ⟨as, r, has, hr⟩ := ih m.length (hn ▸ hp s a m ha) m rfl
      exact ⟨a :: as, r, .cons ha has, hr⟩
    · exact ⟨[], s, .nil s, hfails⟩

/-- **A repetition leaves what its reader leaves wherever it is tried.** -/
theorem leaves_many {p : Reader α} (hp : ∀ s a r, p.Takes s a r → r.length < s.length)
    {s : List Char} {n : Note} :
    (many p).Leaves s n ↔ ∃ as m, p.TakesAll s as m ∧ p.Leaves m n := by
  -- the bound stays longer than the text, so that only the reader itself ends the repetition
  have key : ∀ (bound s : List Char), s.length < bound.length →
      (n ∈ (manyWithin p bound s).notes ↔ ∃ as m, p.TakesAll s as m ∧ p.Leaves m n) := by
    intro bound
    induction bound with
    | nil => intro s hs; simp at hs
    | cons b bound ih =>
      intro s hs
      rw [manyWithin]
      split
      · rename_i a m notes hpm
        have ha : p.Takes s a m := by simp [Takes, hpm]
        have hm := hp s a m ha
        rw [List.length_cons] at hs
        rw [List.mem_append, ih m (by omega)]
        constructor
        · rintro (h | ⟨as, m', has, hn⟩)
          · exact ⟨[], s, .nil s, by simpa [Leaves, hpm] using h⟩
          · exact ⟨a :: as, m', .cons ha has, hn⟩
        · rintro ⟨as, m', has, hn⟩
          cases has with
          | nil => exact .inl (by simpa [Leaves, hpm] using hn)
          | cons hb has =>
            obtain ⟨rfl, rfl⟩ := ha.unique hb
            exact .inr ⟨_, m', has, hn⟩
      · rename_i notes hpm
        have hfails : p.Fails s := by simp [Fails, hpm]
        constructor
        · intro h
          exact ⟨[], s, .nil s, by simpa [Leaves, hpm] using h⟩
        · rintro ⟨as, m', has, hn⟩
          cases has with
          | nil => simpa [Leaves, hpm] using hn
          | cons hb => exact absurd (hfails.symm.trans hb) (by simp)
  exact key (' ' :: s) s (by simp)

end Reader
end Grammar
end SearchFilter
