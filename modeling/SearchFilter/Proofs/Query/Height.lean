/-
# The height of parentheses

The height of a list of roles is the greatest number of parentheses that are open
somewhere in it. Of a text it is bounded twice: by the depth of brackets that its tokens
are measured with (`height_roles_le_depth`), and by its length (`height_roles_le_length`).
-/

import SearchFilter.Proofs.Query.Spread

namespace SearchFilter
namespace Query

namespace Role

/-- The greatest number of open parentheses, starting inside of `d`. -/
def height : Nat → List Role → Nat
  | _, [] => 0
  | d, .opening :: ρ => max (d + 1) (height (d + 1) ρ)
  | d, .closing :: ρ => height (d - 1) ρ
  | d, _ :: ρ => height d ρ

/-- An opening parenthesis raises the height. -/
theorem height_opening (d : Nat) (ρ : List Role) :
    height d (.opening :: ρ) = max (d + 1) (height (d + 1) ρ) := by rw [height]

/-- Two lists are as high as the higher one, the second one from where the first one ends. -/
theorem height_append {d e : Nat} {ρ : List Role} (h : level d ρ = some e) (σ : List Role) :
    height d (ρ ++ σ) = max (height d ρ) (height e σ) := by
  induction h using level_induction with
  | nil => simp [height]
  | opening _ ih => simp [height, ih, Nat.max_assoc]
  | closing _ ih => exact ih
  | @word d r ρ hr hr' _ ih => cases r <;> simp_all [height]

/-- Behind roles that keep the level the height is no greater. -/
theorem height_le_of_append {d n : Nat} {ρ σ : List Role} (hρ : level d ρ = some d)
    (h : height d (ρ ++ σ) ≤ n) : height d σ ≤ n :=
  Nat.le_trans (height_append hρ σ ▸ Nat.le_max_right ..) h

end Role

/-- The roles of a word have no height. -/
theorem height_wordRoles (isName : Bool) (w : List Char) (d : Nat) :
    Role.height d (wordRoles isName w) = 0 := by
  rw [wordRoles, wordRole?]
  split <;> split <;> (try split) <;> rfl

/-- **A text is no higher than its tokens are deep.** -/
theorem height_roles_le_depth {s : List Char} (hs : IsFinished s) (hfault : Role.fault ∉ roles s)
    (d : Depth) : Role.height d.here (roles s) ≤ ((tokens s).foldl Depth.token d).most := by
  induction s using word_induction generalizing d with
  | nil => simp [Role.height]
  | blank c r hc ih =>
    rw [roles_blank hc] at hfault ⊢
    rw [tokens_blank hc]
    exact ih ((isFinished_cons (next_of_isBlank hc) r).1 hs) hfault d
  | opening r ih =>
    have hr := ih hs (by simpa using hfault) d.enter
    have hmost := Depth.most_le_foldl (tokens r) d.enter
    have henter : d.here + 1 ≤ d.enter.most := Nat.le_max_right ..
    rw [roles_opening, tokens_opening, Role.height_opening]
    exact Nat.max_le.2 ⟨Nat.le_trans henter hmost, hr⟩
  | closing r ih =>
    rw [roles_closing, tokens_closing]
    exact ih hs (by simpa using hfault) d.leave
  | word w r hcut ih =>
    obtain ⟨hw, hr⟩ := hcut.isFinished hs
    rw [hcut.roles_eq, List.mem_append, not_or] at hfault
    have htoken := d.token_of_isWord (t := ⟨classify w r, w⟩) (classify_ne_paren w r)
    have hhere : (d.token ⟨classify w r, w⟩).here = d.here :=
      htoken ▸ isSteady (strays_of_wordRoles hfault.1) (by rw [hw]; rfl) d
    have hrest := ih hr hfault.2 (d.token ⟨classify w r, w⟩)
    rw [hhere] at hrest
    rw [hcut.roles_eq, hcut.tokens_eq, Role.height_append (level_wordRoles _ w _),
      height_wordRoles, Nat.zero_max]
    exact hrest

/-- **A text is no higher than it is long.** -/
theorem height_roles_le_length (s : List Char) (d : Nat) :
    Role.height d (roles s) ≤ d + s.length := by
  induction s using word_induction generalizing d with
  | nil => simp [Role.height]
  | blank c r hc ih =>
    have := ih d
    rw [roles_blank hc, List.length_cons]
    omega
  | opening r ih =>
    have := ih (d + 1)
    rw [roles_opening, Role.height_opening, List.length_cons]
    omega
  | closing r ih =>
    have := ih (d - 1)
    rw [roles_closing, Role.height, List.length_cons]
    omega
  | word w r hcut ih =>
    have := ih d
    rw [hcut.roles_eq, Role.height_append (level_wordRoles _ w d), height_wordRoles,
      List.length_append]
    omega

end Query
end SearchFilter
