/-
# The roles of an expanded query

The roles of the expanded text mirror the tokens of the query (`mirrors_expandFrom`):

* a token that is not spread has the roles of its word;
* a spread token has those of its copies, one word for each field, between
  parentheses if there are several fields;
* what the expansion puts between tokens has no roles.

This takes that every word of the expanded text is finished. Where the query itself is
not, its last token has to be spread and to have a finished value.
-/

import SearchFilter.Proofs.Query.Copies
import SearchFilter.Proofs.Query.Mirror

namespace SearchFilter
namespace Query

open Grammar (FieldText)

/-- The last token of a query, if it is spread over the fields. -/
def lastSpread? : (left : Option Token.Kind) → (groups : List Bool) → List Token → Option Token
  | _, _, [] => none
  | left, groups, t :: rest =>
    if rest.isEmpty then if t.isSpread (groups.contains true) then some t else none
    else lastSpread? (some t.kind) (groupsAfter left groups t.kind) rest

/-! ### Words -/

/-- The roles of a word keep the level. -/
theorem level_wordRoles (isName : Bool) (w : List Char) (d : Nat) :
    Role.level d (wordRoles isName w) = some d := by
  rw [wordRoles, wordRole?]
  split <;> split <;> (try split) <;> simp [Role.level]

/-- The roles of a word reach one deeper if it is a name, and nowhere otherwise. -/
theorem reach_wordRoles_le (isName : Bool) (w : List Char) (d : Nat) :
    Role.reach d (wordRoles isName w) ≤ if isName then d + 1 else 0 := by
  rw [wordRoles, wordRole?]
  cases isName <;> split <;> split <;> simp [Role.reach]

/-- A word that is not at fault closes no bracket too often. -/
theorem strays_of_wordRoles {isName : Bool} {w : List Char}
    (h : Role.fault ∉ wordRoles isName w) : strays w = 0 := by
  cases hf : isFaulty w with
  | true => simp [wordRoles, hf] at h
  | false =>
    rw [isFaulty, Bool.or_eq_false_iff] at hf
    simpa using hf.1

/-- The roles of a finished word are its own. -/
theorem plays_word {n : Nat} (hn : 1 ≤ n) {w : List Char} (hw : IsFinished w) (r : List Char) :
    Plays n ⟨classify w r, w⟩ (wordRoles (classify w r == .fieldPrefix) w) where
  isWord := classify_ne_paren w r
  leaves := by
    have h := count_leaf_wordRoles_le w r
    show _ ≤ if (classify w r).isTerm = true then n else 0
    split at h <;> simp_all
    omega
  level := level_wordRoles _ w
  reach d := by
    have h := reach_wordRoles_le (classify w r == .fieldPrefix) w d
    simpa using h
  steady h := isSteady (strays_of_wordRoles h) (by rw [hw]; rfl)

/-! ### Copies -/

/-- The roles of finished copies: words that are no names. -/
structure PlaysCopies (n : Nat) (value : List Char) (σ : List Role) : Prop where
  leaves : σ.count .leaf ≤ n
  level : ∀ d, Role.level d σ = some d
  reach : ∀ d, Role.reach d σ = 0
  strays : Role.fault ∉ σ → strays value = 0

/-- A copy of a finished value, in front of anything but a parenthesis that is opened. -/
theorem roles_copy {f value : List Char} (hf : FieldText f) (hu : IsUnbroken .bare value)
    (hv : IsFinished value) {r : List Char} (hr : ∀ c ∈ r.head?, endsWord c = true ∧ c ≠ '(') :
    ∃ σ, roles (f ++ ':' :: value ++ r) = σ ++ roles r ∧ PlaysCopies 1 value σ := by
  have hcut : Cuts (f ++ ':' :: value) r :=
    ⟨by simp, isUnbroken_copy hf hu, fun c hc => (hr c hc).1, fun _ => by
      rw [IsFinished, after_copy hf]; exact hv⟩
  have hname : (classify (f ++ ':' :: value) r == .fieldPrefix) = false := by
    rw [beq_eq_false_iff_ne, ne_eq, classify_eq_fieldPrefix_iff]
    exact fun h => (hr '(' (by simp [h.2])).2 rfl
  refine ⟨_, hcut.roles_eq, ?_, level_wordRoles _ _, fun d => ?_, fun h => ?_⟩
  · have h := count_leaf_wordRoles_le (f ++ ':' :: value) r
    split at h <;> omega
  · have h := reach_wordRoles_le (classify (f ++ ':' :: value) r == .fieldPrefix) (f ++ ':' :: value) d
    simpa [hname] using h
  · have hstrays := strays_of_wordRoles h
    have hpass := hf.passes_colon
    have hafter : Place.bare.after (f ++ [':']) = .bare := hpass.after
    rw [List.append_cons, strays, Place.marks_append, hafter] at hstrays
    exact (Nat.add_eq_zero_iff.1 hstrays).2

/-- The roles of some copies and of others are those of all of them. -/
theorem PlaysCopies.append {m n : Nat} {value : List Char} {σ τ : List Role}
    (hσ : PlaysCopies m value σ) (hτ : PlaysCopies n value τ) :
    PlaysCopies (m + n) value (σ ++ τ) where
  leaves := by
    have h₁ := hσ.leaves
    have h₂ := hτ.leaves
    rw [List.count_append]
    omega
  level d := by rw [Role.level_append, hσ.level]; exact hτ.level d
  reach d := by rw [Role.reach_append (hσ.level d), hσ.reach, hτ.reach]; rfl
  strays h := hσ.strays fun hm => h (List.mem_append_left _ hm)

/-- The operator between two copies. -/
theorem roles_or (s : List Char) : roles (' ' :: 'O' :: 'R' :: ' ' :: s) = roles s := by
  have hcut : Cuts ['O', 'R'] (' ' :: s) :=
    ⟨by simp, by decide, by simp [show endsWord ' ' = true by decide], fun _ => by decide⟩
  have hroles : wordRoles (classify ['O', 'R'] (' ' :: s) == .fieldPrefix) ['O', 'R'] = [] := by
    rw [classify_beq_fieldPrefix (by decide)]
    decide
  have happ := hcut.roles_eq
  rw [hroles, List.nil_append, roles_blank (by decide)] at happ
  rw [roles_blank (by decide), ← happ]
  rfl

/-- Alternatives of a finished value play the roles of their copies, in front of the closing
parenthesis. -/
theorem roles_joined {value : List Char} (hu : IsUnbroken .bare value) (hv : IsFinished value)
    {f : List Char} {fields : List (List Char)} (hf : ∀ g ∈ f :: fields, FieldText g)
    (r : List Char) :
    ∃ σ, roles (joined value (f :: fields) ++ r) = σ ++ .closing :: roles r ∧
      PlaysCopies (fields.length + 1) value σ := by
  induction fields generalizing f with
  | nil =>
    obtain ⟨σ, hσ, hplays⟩ := roles_copy (hf f (by simp)) hu hv
      (show ∀ c ∈ (')' :: r).head?, endsWord c = true ∧ c ≠ '(' by simp [endsWord])
    refine ⟨σ, ?_, hplays⟩
    rw [← roles_closing, ← hσ]
    simp [joined]
  | cons g fields ih =>
    obtain ⟨τ, hτ, hrest⟩ := ih fun h hh => hf h (List.mem_cons_of_mem _ hh)
    obtain ⟨σ, hσ, hplays⟩ := roles_copy (hf f (by simp)) hu hv
      (r := ' ' :: 'O' :: 'R' :: ' ' :: (joined value (g :: fields) ++ r))
      (by simp [show endsWord ' ' = true by decide])
    refine ⟨σ ++ τ, ?_, ?_⟩
    · rw [roles_or, hτ] at hσ
      rw [List.append_assoc, ← hσ, joined]
      · simp
      · simp
    · rw [Nat.add_comm]
      exact hplays.append hrest

/-! ### Tokens -/

/-- The copies of a finished value play for the token that they come from. -/
theorem plays_copies {w r : List Char} {grouped : Bool}
    (hspread : Token.isSpread grouped ⟨classify w r, w⟩ = true)
    (hu : IsUnbroken .bare w) (hv : IsFinished (Token.value ⟨classify w r, w⟩))
    {fields : List (List Char)} (hf : ∀ f ∈ fields, FieldText f) (hne : fields ≠ [])
    {s : List Char} (hs : ∀ c ∈ s.head?, endsWord c = true ∧ c ≠ '(') :
    ∃ σ, roles (copies fields (Token.value ⟨classify w r, w⟩) ++ s) = σ ++ roles s ∧
      Plays fields.length ⟨classify w r, w⟩ σ := by
  have hspot : (Place.bare.after w).spot = .bare := by
    have h := spot_value ⟨classify w r, w⟩
    rw [hv] at h
    exact h.symm
  have hstrays := strays_value ⟨classify w r, w⟩
  have huv := isUnbroken_value (t := ⟨classify w r, w⟩) hu
  generalize Token.value ⟨classify w r, w⟩ = value at *
  have plays {σ : List Role} (h : PlaysCopies fields.length value σ) :
      Plays fields.length ⟨classify w r, w⟩ σ := by
    have hterm : (classify w r).isTerm = true := by
      simp only [Token.isSpread, Bool.and_eq_true, Bool.or_eq_true, beq_iff_eq] at hspread
      rcases hspread.1 with h | h <;> rw [h] <;> rfl
    refine ⟨classify_ne_paren w r, ?_, h.level, fun d => by simp [h.reach], fun hfault => ?_⟩
    · rw [if_pos hterm]
      exact h.leaves
    · exact isSteady (hstrays ▸ h.strays hfault) hspot
  -- a single copy stands alone, and more of them stand in a group
  by_cases hone : fields.length = 1
  · obtain ⟨f, rfl⟩ := List.length_eq_one_iff.1 hone
    obtain ⟨σ, hσ, hplays⟩ := roles_copy (hf f (by simp)) huv hv hs
    exact ⟨σ, by rw [copies_singleton]; exact hσ, plays hplays⟩
  · obtain ⟨f, fields, rfl⟩ := List.exists_cons_of_ne_nil hne
    obtain ⟨σ, hσ, hplays⟩ := roles_joined huv hv hf s
    refine ⟨.opening :: σ ++ [.closing], ?_, plays ?_⟩
    · rw [copies_eq_joined hone, List.cons_append, roles_opening, hσ]
      simp
    · refine ⟨?_, fun d => ?_, fun d => ?_, fun h => hplays.strays fun hm => h (by simp [hm])⟩
      · have := hplays.leaves
        simpa [List.count_append] using this
      · simp [Role.level_append, hplays.level]
      · rw [List.cons_append, Role.reach, Role.reach_append (hplays.level _), hplays.reach]
        rfl

/-- What may follow a token in the expanded text. -/
structure Follows (kind : Token.Kind) (s : List Char) : Prop where
  prefixed : kind = .fieldPrefix → s.head? = some '('
  ended : kind ≠ .fieldPrefix → kind ≠ .sign → ∀ c ∈ s.head?, endsWord c = true ∧ c ≠ '('

/-- **A word plays its roles after it has been expanded,** whether it is spread or not, if it is
finished or its copies are. -/
theorem plays_expandToken {w r : List Char} (hcut : Cuts w r) {grouped : Bool}
    (hw : IsFinished w ∨ Token.isSpread grouped ⟨classify w r, w⟩ = true ∧
      IsFinished (Token.value ⟨classify w r, w⟩))
    {fields : List (List Char)} (hf : ∀ f ∈ fields, FieldText f) (hne : fields ≠ [])
    {s : List Char} (hs : Follows (classify w r) s) :
    ∃ σ, roles (expandToken fields grouped ⟨classify w r, w⟩ ++ s) = σ ++ roles s ∧
      Plays fields.length ⟨classify w r, w⟩ σ := by
  have hlen : 1 ≤ fields.length := List.length_pos_iff.2 hne
  cases hspread : Token.isSpread grouped ⟨classify w r, w⟩ with
  | true =>
    have hv : IsFinished (Token.value ⟨classify w r, w⟩) :=
      hw.elim (isFinished_value (t := ⟨classify w r, w⟩)) fun h => h.2
    have hkind : classify w r ≠ .fieldPrefix ∧ classify w r ≠ .sign := by
      simp only [Token.isSpread, Bool.and_eq_true, Bool.or_eq_true, beq_iff_eq] at hspread
      rcases hspread.1 with h | h <;> rw [h] <;> decide
    rw [expandToken_of_isSpread hspread, List.append_assoc, roles_splitSign]
    exact plays_copies hspread hcut.unbroken hv hf hne (hs.ended hkind.1 hkind.2)
  | false =>
    have hw : IsFinished w := hw.resolve_right fun h => by simp [hspread] at h
    rw [expandToken_of_not_isSpread hspread]
    refine ⟨_, ?_, plays_word hlen hw r⟩
    show roles (w ++ s) = _
    by_cases hsign : classify w r = .sign
    · rcases eq_of_classify_sign hsign with rfl | rfl
      · rw [wordRoles_sign (by decide)]
        exact roles_sign (by decide) s
      · rw [wordRoles_sign (by decide)]
        exact roles_sign (by decide) s
    · -- what follows in the expanded text ends the word, too, and leaves it its kind
      have hcut' : Cuts w s := by
        refine ⟨hcut.ne_nil, hcut.unbroken, ?_, fun _ => hw⟩
        by_cases hname : classify w r = .fieldPrefix
        · simp [AtBoundary, hs.prefixed hname, endsWord]
        · exact fun c hc => (hs.ended hname hsign c hc).1
      have hkind : (classify w s == .fieldPrefix) = (classify w r == .fieldPrefix) := by
        by_cases hname : classify w r = .fieldPrefix
        · have hcolon := (classify_eq_fieldPrefix_iff.1 hname).1
          rw [hname, classify_eq_fieldPrefix_iff.2 ⟨hcolon, hs.prefixed hname⟩]
        · have hnot : classify w s ≠ .fieldPrefix := fun h =>
            (hs.ended hname hsign '(' (by simp [(classify_eq_fieldPrefix_iff.1 h).2])).2 rfl
          rw [beq_eq_false_iff_ne.2 hname, beq_eq_false_iff_ne.2 hnot]
      rw [hcut'.roles_eq, hkind]

/-! ### Queries -/

/-- Behind any other token than an opening parenthesis, a sign and a name there is a blank, unless a
parenthesis is closed. -/
theorem isSpaced_of_ne {left right : Token.Kind} (h : left ≠ .opening) (h' : left ≠ .sign)
    (h'' : left ≠ .fieldPrefix) (hr : right ≠ .closing) : isSpaced (some left) right = true := by
  cases left <;> cases right <;> first | rfl | contradiction

/-- Behind a word that is no sign and no field prefix the expanded text goes on with a
space or a closing parenthesis. -/
theorem head_expandFrom (fields : List (List Char)) {kind : Token.Kind} (h : kind ≠ .opening)
    (h' : kind ≠ .sign) (h'' : kind ≠ .fieldPrefix) (groups : List Bool) (s : List Char) :
    ∀ c ∈ (expandFrom fields (some kind) groups (tokens s)).head?,
      endsWord c = true ∧ c ≠ '(' := by
  have space : endsWord ' ' = true ∧ ' ' ≠ '(' := by decide
  induction s using word_induction with
  | nil => simp [expandFrom]
  | blank c r hc ih => rwa [tokens_blank hc]
  | opening r ih =>
    rw [tokens_opening, expandFrom, if_pos (isSpaced_of_ne h h' h'' (by decide))]
    rintro c ⟨⟩
    exact space
  | closing r ih =>
    have hspace : isSpaced (some kind) .closing = false := by cases kind <;> rfl
    rw [tokens_closing, expandFrom, if_neg (by simp [hspace])]
    rintro c ⟨⟩
    decide
  | word w r hcut ih =>
    rw [hcut.tokens_eq, expandFrom,
      if_pos (isSpaced_of_ne h h' h'' (classify_ne_paren w r).2)]
    rintro c ⟨⟩
    exact space

/-- The expanded text goes on behind a word as it may. -/
theorem follows_expandFrom (fields : List (List Char)) {w r : List Char} (groups : List Bool) :
    Follows (classify w r) (expandFrom fields (some (classify w r)) groups (tokens r)) where
  prefixed h := by
    obtain ⟨-, hr⟩ := classify_eq_fieldPrefix_iff.1 h
    obtain ⟨r, rfl⟩ : ∃ r', r = '(' :: r' := by
      cases r with
      | nil => simp at hr
      | cons c r => exact ⟨r, by simpa using hr⟩
    rw [h, tokens_opening, expandFrom]
    rfl
  ended h h' := head_expandFrom fields (classify_ne_paren w r).1 h' h groups r

/-- Behind a field prefix there is a parenthesis. -/
theorem tokens_of_fieldPrefix {w r : List Char} (h : classify w r = .fieldPrefix) :
    ∃ us, tokens r = ⟨.opening, ['(']⟩ :: us := by
  obtain ⟨-, hhead⟩ := classify_eq_fieldPrefix_iff.1 h
  cases r with
  | nil => simp at hhead
  | cons c r =>
    obtain rfl : c = '(' := by simpa using hhead
    exact ⟨tokens r, tokens_opening r⟩

/-- A blank that is put in front of a text plays no role. -/
theorem roles_space (b : Bool) (s : List Char) :
    roles ((if b then [' '] else []) ++ s) = roles s := by
  cases b
  · rfl
  · exact roles_blank (by decide) s

/-- The query is finished, or its last token is spread and has a finished value. -/
def Survives (left : Option Token.Kind) (groups : List Bool) (s : List Char) : Prop :=
  IsFinished s ∨ ∃ t, lastSpread? left groups (tokens s) = some t ∧ IsFinished t.value

/-- A text without tokens is finished. -/
theorem isFinished_of_tokens_eq_nil {s : List Char} (h : tokens s = []) : IsFinished s := by
  induction s using word_induction with
  | nil => rfl
  | blank c r hc ih =>
    rw [tokens_blank hc] at h
    exact (isFinished_cons (next_of_isBlank hc) r).2 (ih h)
  | opening r ih => simp at h
  | closing r ih => simp at h
  | word w r hcut ih => simp [hcut.tokens_eq] at h

/-- What follows a finished token survives if the whole does. -/
theorem Survives.tail {left : Option Token.Kind} {groups : List Bool} {t : Token}
    {u r : List Char} (hu : IsFinished u) (ht : tokens (u ++ r) = t :: tokens r)
    (h : Survives left groups (u ++ r)) :
    Survives (some t.kind) (groupsAfter left groups t.kind) r := by
  rcases h with h | ⟨last, hlast, hv⟩
  · exact .inl ((isFinished_append hu r).1 h)
  · cases hr : tokens r with
    | nil => exact .inl (isFinished_of_tokens_eq_nil hr)
    | cons t' ts =>
      rw [ht, lastSpread?, hr] at hlast
      exact .inr ⟨last, by rw [hr]; exact hlast, hv⟩

/-- **The roles of an expanded query mirror its tokens.** -/
theorem mirrors_expandFrom {fields : List (List Char)} (hf : ∀ f ∈ fields, FieldText f)
    (hne : fields ≠ []) (s : List Char) (left : Option Token.Kind) (groups : List Bool)
    (hs : Survives left groups s) :
    Mirrors fields.length (tokens s) (roles (expandFrom fields left groups (tokens s))) := by
  induction s using word_induction generalizing left groups with
  | nil => simpa [expandFrom] using Mirrors.nil
  | blank c r hc ih =>
    rw [tokens_blank hc]
    refine ih left groups ?_
    rwa [Survives, tokens_blank hc, isFinished_cons (next_of_isBlank hc)] at hs
  | opening r ih =>
    have htail := hs.tail (u := ['(']) rfl (tokens_opening r)
    rw [tokens_opening, expandFrom, roles_space]
    show Mirrors _ _ (roles ('(' :: _))
    rw [roles_opening]
    exact .opening (ih _ _ htail)
  | closing r ih =>
    have htail := hs.tail (u := [')']) rfl (tokens_closing r)
    rw [tokens_closing, expandFrom, roles_space]
    show Mirrors _ _ (roles (')' :: _))
    rw [roles_closing]
    exact .closing (ih _ _ htail)
  | word w r hcut ih =>
    -- only the last word can be left open, and then it is spread with a finished value
    have hw : IsFinished w ∨ Token.isSpread (groups.contains true) ⟨classify w r, w⟩ = true ∧
        IsFinished (Token.value ⟨classify w r, w⟩) := by
      by_cases hw : IsFinished w
      · exact .inl hw
      · have hr : r = [] := by
          cases r with
          | nil => rfl
          | cons c r => exact absurd (hcut.finished (by simp)) hw
        subst hr
        rcases hs with hs | ⟨t, ht, hv⟩
        · exact absurd (List.append_nil w ▸ hs) hw
        · rw [hcut.tokens_eq, lastSpread?, if_pos (by simp)] at ht
          split at ht
          · cases ht
            exact .inr ⟨‹_›, hv⟩
          · cases ht
    have htail : Survives (some (classify w r)) (groupsAfter left groups (classify w r)) r := by
      by_cases hr : r = []
      · rw [hr]
        exact .inl rfl
      · exact hs.tail (t := ⟨classify w r, w⟩) (hcut.finished hr) hcut.tokens_eq
    rw [hcut.tokens_eq, expandFrom, roles_space]
    obtain ⟨σ, hσ, hplays⟩ := plays_expandToken hcut hw hf hne
      (follows_expandFrom fields (groupsAfter left groups (classify w r)))
    rw [hσ]
    exact .word hplays tokens_of_fieldPrefix (ih _ _ htail)

/-- The roles of a finished text mirror its own tokens. -/
theorem mirrors_self {s : List Char} (hs : IsFinished s) : Mirrors 1 (tokens s) (roles s) := by
  induction s using word_induction with
  | nil => simpa using Mirrors.nil
  | blank c r hc ih =>
    rw [tokens_blank hc, roles_blank hc]
    exact ih ((isFinished_cons (next_of_isBlank hc) r).1 hs)
  | opening r ih =>
    rw [tokens_opening, roles_opening]
    exact .opening (ih hs)
  | closing r ih =>
    rw [tokens_closing, roles_closing]
    exact .closing (ih hs)
  | word w r hcut ih =>
    obtain ⟨hw, hr⟩ := hcut.isFinished hs
    rw [hcut.tokens_eq, hcut.roles_eq]
    exact .word (plays_word (Nat.le_refl 1) hw r) tokens_of_fieldPrefix (ih hr)

end Query
end SearchFilter
