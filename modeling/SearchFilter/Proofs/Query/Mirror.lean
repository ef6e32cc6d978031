/-
# Roles that mirror tokens

The size of a query is taken from its tokens, and the roles are those of another text,
the expanded one. The roles *mirror* the tokens (`Mirrors`) when the parentheses of
the tokens are among them in their order, and between them each word of the tokens
has roles of its own that keep the level (`Plays`):

| measure of the tokens | bounds, of the roles |
| --- | --- |
| number of terms | the leaves, at most `n` for each term (`Mirrors.count_le`) |
| depth of brackets | the depth of names (`Mirrors.reach_le`) |
-/

import SearchFilter.Proofs.Query.Role

namespace SearchFilter
namespace Query

/-! ### Brackets in words -/

/-- A word that leaves the depth of brackets where it was. -/
def IsSteady (w : List Char) : Prop := ∀ d : Depth, (Depth.word .bare d w).here = d.here

/-- The brackets that are open at a spot. -/
def Spot.brackets : Spot → Nat
  | .range | .phraseInRange => 1
  | .bare | .phrase => 0

/-- A character that strays nowhere changes the depth by the brackets that it opens or closes. -/
theorem Depth.here_step {spot : Spot} {d : Depth} {c : Char}
    (hs : straysHere ⟨spot, false⟩ c = false) (hd : spot.brackets ≤ d.here) :
    (d.step spot c).here + spot.brackets = d.here + (spot.next c).brackets := by
  cases spot with
  | bare =>
    have hs : c ≠ ']' ∧ c ≠ '\x7d' := by simpa [straysHere, Place.bare] using hs
    by_cases hq : c = '"'
    · subst hq
      rfl
    · by_cases hc : c = '[' ∨ c = '\x7b' <;>
        simp [Depth.step, Spot.next, Spot.brackets, hc, hs, hq, Depth.enter]
  | range =>
    by_cases hq : c = '"'
    · subst hq
      rfl
    · simp only [Spot.brackets] at hd
      by_cases hc : c = ']' ∨ c = '\x7d' <;>
        simp [Depth.step, Spot.next, Spot.brackets, hc, hq, Depth.leave]
      omega
  | phrase => by_cases hq : c = '"' <;> simp [Depth.step, Spot.next, Spot.brackets, hq]
  | phraseInRange => by_cases hq : c = '"' <;> simp [Depth.step, Spot.next, Spot.brackets, hq]

/-- Without strays, the depth and the spot agree on the open brackets. -/
theorem Depth.here_word {spot : Spot} {d : Depth} {w : List Char}
    (hs : Place.marks straysHere ⟨spot, false⟩ w = 0) (hd : spot.brackets ≤ d.here) :
    (Depth.word spot d w).here + spot.brackets =
      d.here + (Place.after ⟨spot, false⟩ w).spot.brackets := by
  fun_induction Depth.word spot d w with
  | case1 spot d => rfl
  | case2 spot d c r ih =>
    rw [Place.marks_cons, Place.marks_cons] at hs
    rw [Place.next_next_backslash] at hs
    exact ih (by omega) hd
  | case3 spot d c r hne ih =>
    by_cases hc : c = '\\'
    · subst hc
      cases r with
      | cons d r => exact absurd rfl (hne d r rfl)
      | nil => cases spot <;> simp_all [Depth.step, Depth.word, Place.next]
    · rw [Place.marks_cons, Place.next_of_ne hc] at hs
      rw [Place.after_cons, Place.next_of_ne hc]
      have hstray : straysHere ⟨spot, false⟩ c = false := by
        cases h : straysHere ⟨spot, false⟩ c <;> simp_all
      have hstep := Depth.here_step hstray hd
      have := ih (by simpa [hstray] using hs) (by omega)
      omega

/-- A word without strays that ends outside of everything leaves the depth where it was. -/
theorem isSteady {w : List Char} (hs : strays w = 0) (hw : (Place.bare.after w).spot = .bare) :
    IsSteady w := by
  intro d
  have h : (Depth.word .bare d w).here + Spot.brackets .bare =
      d.here + (Place.bare.after w).spot.brackets := Depth.here_word hs (Nat.zero_le _)
  rw [hw] at h
  simpa [Spot.brackets] using h

/-- The greatest depth does not fall at a character. -/
theorem Depth.most_le_step (spot : Spot) (d : Depth) (c : Char) :
    d.most ≤ (d.step spot c).most := by
  have henter : d.most ≤ d.enter.most := Nat.le_max_left ..
  have hleave : d.most ≤ d.leave.most := Nat.le_refl _
  cases spot with
  | bare =>
    rw [Depth.step]
    split
    · exact henter
    · split
      · exact hleave
      · exact Nat.le_refl _
  | range =>
    rw [Depth.step]
    split
    · exact hleave
    · exact Nat.le_refl _
  | phrase | phraseInRange => exact Nat.le_refl _

/-- The greatest depth does not fall in a word. -/
theorem Depth.most_le_word (spot : Spot) (d : Depth) (w : List Char) :
    d.most ≤ (Depth.word spot d w).most := by
  fun_induction Depth.word spot d w with
  | case1 spot d => exact Nat.le_refl _
  | case2 spot d c r ih => exact ih
  | case3 spot d c r hne ih => exact Nat.le_trans (Depth.most_le_step spot d c) ih

/-- Tokens that are no parentheses are measured character by character. -/
theorem Depth.token_of_isWord {t : Token} (h : t.kind ≠ .opening ∧ t.kind ≠ .closing)
    (d : Depth) : d.token t = Depth.word .bare d t.text := by
  rw [Depth.token]
  split
  · exact absurd ‹_› h.1
  · exact absurd ‹_› h.2
  · rfl

/-- The greatest depth does not fall at a token. -/
theorem Depth.most_le_token (d : Depth) (t : Token) : d.most ≤ (d.token t).most := by
  rw [Depth.token]
  split
  · simp only [Depth.enter]
    omega
  · exact Nat.le_refl _
  · exact Depth.most_le_word .bare d t.text

/-- The greatest depth does not fall along tokens. -/
theorem Depth.most_le_foldl (ts : List Token) (d : Depth) :
    d.most ≤ (ts.foldl Depth.token d).most := by
  induction ts generalizing d with
  | nil => exact Nat.le_refl _
  | cons t ts ih => exact Nat.le_trans (d.most_le_token t) (ih (d.token t))

/-! ### Mirrors -/

/-- What the roles of a word's text are like; at most `n` of them are leaves. -/
structure Plays (n : Nat) (t : Token) (σ : List Role) : Prop where
  isWord : t.kind ≠ .opening ∧ t.kind ≠ .closing
  leaves : σ.count .leaf ≤ if t.kind.isTerm then n else 0
  level : ∀ d, Role.level d σ = some d
  reach : ∀ d, Role.reach d σ ≤ if t.kind = .fieldPrefix then d + 1 else 0
  steady : Role.fault ∉ σ → IsSteady t.text

/-- The roles go along with the tokens. A field prefix stands before a parenthesis. -/
inductive Mirrors (n : Nat) : List Token → List Role → Prop
  | nil : Mirrors n [] []
  | opening {ts : List Token} {ρ : List Role} :
    Mirrors n ts ρ → Mirrors n (⟨.opening, ['(']⟩ :: ts) (.opening :: ρ)
  | closing {ts : List Token} {ρ : List Role} :
    Mirrors n ts ρ → Mirrors n (⟨.closing, [')']⟩ :: ts) (.closing :: ρ)
  | word {t : Token} {ts : List Token} {σ ρ : List Role} :
    Plays n t σ → (t.kind = .fieldPrefix → ∃ us, ts = ⟨.opening, ['(']⟩ :: us) →
    Mirrors n ts ρ → Mirrors n (t :: ts) (σ ++ ρ)

/-- **The leaves of a query are at most `n` for each term** of its tokens. -/
theorem Mirrors.count_le {n : Nat} {ts : List Token} {ρ : List Role} (h : Mirrors n ts ρ) :
    ρ.count .leaf ≤ (ts.countP fun t => t.kind.isTerm) * n := by
  induction h with
  | nil => simp
  | opening _ ih | closing _ ih => simpa [List.countP_cons, Token.Kind.isTerm] using ih
  | @word t ts σ ρ hσ _ _ ih =>
    have hleaves := hσ.leaves
    rw [List.count_append, List.countP_cons, Nat.add_mul]
    split at hleaves
    · rename_i hk
      simp only [hk, if_true, Nat.one_mul]
      omega
    · rename_i hk
      simp only [hk]
      omega

/-- The roles of a query reach no deeper than the brackets of its tokens. -/
theorem Mirrors.reach_le {n : Nat} {ts : List Token} {ρ : List Role} (h : Mirrors n ts ρ)
    (hρ : Role.fault ∉ ρ) (d : Depth) :
    Role.reach d.here ρ ≤ (ts.foldl Depth.token d).most := by
  induction h generalizing d with
  | nil => exact Nat.zero_le _
  | opening _ ih => exact ih (by simpa using hρ) d.enter
  | closing _ ih => exact ih (by simpa using hρ) d.leave
  | @word t ts σ ρ hσ hnext _ ih =>
    simp only [List.mem_append, not_or] at hρ
    have htoken := d.token_of_isWord hσ.isWord
    have hhere : (d.token t).here = d.here := htoken ▸ hσ.steady hρ.1 d
    have hrest := ih hρ.2 (d.token t)
    have hreach := hσ.reach d.here
    rw [hhere] at hrest
    rw [Role.reach_append (hσ.level _), List.foldl_cons]
    refine Nat.max_le.2 ⟨?_, hrest⟩
    split at hreach
    · rename_i hk
      obtain ⟨us, rfl⟩ := hnext hk
      have hmost := Depth.most_le_foldl us ((d.token t).token ⟨.opening, ['(']⟩)
      have henter : ((d.token t).token ⟨.opening, ['(']⟩).most =
          max (d.token t).most ((d.token t).here + 1) := rfl
      rw [List.foldl_cons]
      omega
    · omega

end Query
end SearchFilter
