/-
# The roles of a query

What a text says before its grammar is looked at: the list of the parts that its
tokens play. The signs in front of a word do not count.

| token | roles |
| --- | --- |
| `(`, `)` | `opening`, `closing` |
| a word before `(` that ends in its colon | `name` |
| an operator, a lone sign, a word that starts with a colon | none |
| any other word | `leaf` |
| a word that no clause can be | `fault`, before its other role |

A word is at fault when a bracket is closed in it that was not opened, or when there
is a phrase or a range behind its colon that does not start right there.

Roles count leaves, keep the level of the parentheses (`level`), and bound the depth
at which names stand (`reach`).
-/

import SearchFilter.Proofs.Query.Place

namespace SearchFilter
namespace Query

/-- What a token stands for. -/
inductive Role where
  | opening
  | closing
  | leaf
  | name
  | fault
deriving DecidableEq, Repr

namespace Role

/-- The number of open parentheses after some roles, if none is closed too often. -/
def level : Nat → List Role → Option Nat
  | d, [] => some d
  | d, .opening :: ρ => level (d + 1) ρ
  | 0, .closing :: _ => none
  | d + 1, .closing :: ρ => level d ρ
  | d, _ :: ρ => level d ρ

/-- The greatest number of open parentheses right inside of a group with a name. -/
def reach : Nat → List Role → Nat
  | _, [] => 0
  | d, .opening :: ρ => reach (d + 1) ρ
  | d, .closing :: ρ => reach (d - 1) ρ
  | d, .name :: ρ => max (d + 1) (reach d ρ)
  | d, _ :: ρ => reach d ρ

/-- Without roles the level stays. -/
@[simp] theorem level_nil (d : Nat) : level d [] = some d := by rw [level]

/-- An opening parenthesis raises the level. -/
@[simp] theorem level_opening (d : Nat) (ρ : List Role) :
    level d (.opening :: ρ) = level (d + 1) ρ := by rw [level]

/-- A closing parenthesis lowers the level. -/
@[simp] theorem level_closing (d : Nat) (ρ : List Role) :
    level (d + 1) (.closing :: ρ) = level d ρ := by rw [level]

/-- Any other role leaves the level. -/
theorem level_word {r : Role} (h : r ≠ .opening) (h' : r ≠ .closing) (d : Nat) (ρ : List Role) :
    level d (r :: ρ) = level d ρ := by
  rw [level] <;> simp [h, h']

/-- A leaf leaves the level. -/
@[simp] theorem level_leaf (d : Nat) (ρ : List Role) : level d (.leaf :: ρ) = level d ρ :=
  level_word (by decide) (by decide) d ρ

/-- A name leaves the level. -/
@[simp] theorem level_name (d : Nat) (ρ : List Role) : level d (.name :: ρ) = level d ρ :=
  level_word (by decide) (by decide) d ρ

/-- The level of two lists is that of the second one, taken from where the first one ends. -/
theorem level_append (d : Nat) (ρ σ : List Role) :
    level d (ρ ++ σ) = (level d ρ).bind fun e => level e σ := by
  fun_induction level d ρ with
  | case1 d => rfl
  | case2 d ρ ih => exact ih
  | case3 ρ => rfl
  | case4 d ρ ih => exact ih
  | case5 d r ρ h1 h2 h3 ih => cases r <;> simp_all [level]

/-- What holds in the end and is kept in front of each role holds of roles that close no more
parentheses than are open. -/
@[elab_as_elim]
theorem level_induction {e : Nat} {P : ∀ d ρ, level d ρ = some e → Prop}
    (nil : P e [] (level_nil e))
    (opening : ∀ {d ρ} (h : level (d + 1) ρ = some e), P (d + 1) ρ h →
      P d (.opening :: ρ) ((level_opening d ρ).trans h))
    (closing : ∀ {d ρ} (h : level d ρ = some e), P d ρ h →
      P (d + 1) (.closing :: ρ) ((level_closing d ρ).trans h))
    (word : ∀ {d r ρ} (hr : r ≠ .opening) (hr' : r ≠ .closing) (h : level d ρ = some e),
      P d ρ h → P d (r :: ρ) ((level_word hr hr' d ρ).trans h))
    {d : Nat} {ρ : List Role} (h : level d ρ = some e) : P d ρ h := by
  induction ρ generalizing d with
  | nil =>
    obtain rfl := Option.some.inj ((level_nil d).symm.trans h)
    exact nil
  | cons r ρ ih =>
    by_cases hr : r = .opening
    · obtain rfl := hr
      exact opening _ (ih (level_opening d ρ ▸ h))
    by_cases hr' : r = .closing
    · obtain rfl := hr'
      cases d with
      | zero => cases h
      | succ d => exact closing _ (ih (level_closing d ρ ▸ h))
    · exact word hr hr' _ (ih (level_word hr hr' d ρ ▸ h))

/-- Two lists reach as deep as the deeper one, the second one from where the first one ends. -/
theorem reach_append {d e : Nat} {ρ : List Role} (h : level d ρ = some e) (σ : List Role) :
    reach d (ρ ++ σ) = max (reach d ρ) (reach e σ) := by
  induction h using level_induction with
  | nil => simp [reach]
  | opening _ ih => exact ih
  | closing _ ih => exact ih
  | @word d r ρ hr hr' _ ih => cases r <;> simp_all [reach, Nat.max_assoc]

/-- Where no parenthesis is closed, the level does not fall. -/
theorem le_of_level {d e : Nat} {ρ : List Role} (hc : Role.closing ∉ ρ) (h : level d ρ = some e) :
    d ≤ e := by
  induction h using level_induction with
  | nil => exact Nat.le_refl _
  | opening _ ih => exact Nat.le_of_succ_le (ih (List.not_mem_of_not_mem_cons hc))
  | closing => simp at hc
  | word _ _ _ ih => exact ih (List.not_mem_of_not_mem_cons hc)

end Role

/-! ### The roles of words -/

/-- A sign that is a prefix of a clause. -/
def isSign (c : Char) : Bool := c == '+' || c == '-' || c == '!'

/-- The signs are `+`, `-` and `!`. -/
theorem isSign_iff {c : Char} : isSign c = true ↔ c = '+' ∨ c = '-' ∨ c = '!' := by
  simp [isSign, or_assoc]

/-- A character of a class that no sign is in. -/
theorem isSign_eq_false_of {P : Char → Bool} (hP : ['+', '-', '!'].all (fun c => !P c) = true)
    {c : Char} (h : P c = true) : isSign c = false := by
  refine Bool.eq_false_iff.2 fun hs => ?_
  rcases isSign_iff.1 hs with rfl | rfl | rfl <;> simp [h] at hP

/-- A word without the signs in front of it. -/
def stripSigns (w : List Char) : List Char := w.dropWhile isSign

/-- A character that opens a phrase or a range. -/
def opensHere (p : Place) (c : Char) : Bool :=
  p == .bare && (c == '"' || c == '[' || c == '\x7b')

/-- Outside of everything a quote opens a phrase, and a bracket or brace a range. -/
theorem opensHere_bare_iff {c : Char} :
    opensHere .bare c = true ↔ c = '"' ∨ c = '[' ∨ c = '\x7b' := by
  simp [opensHere, or_assoc]

/-- A bracket that is closed without being open. -/
def straysHere (p : Place) (c : Char) : Bool := p == .bare && (c == ']' || c == '\x7d')

/-- The number of phrases and ranges in a text that starts at the bare place. -/
def openings (s : List Char) : Nat := Place.marks opensHere .bare s

/-- The number of brackets closed too often in a text that starts at the bare place. -/
def strays (s : List Char) : Nat := Place.marks straysHere .bare s

/-- A text without the sign of a comparison in front of it. -/
def dropComparison : List Char → List Char
  | '>' :: '=' :: r => r
  | '<' :: '=' :: r => r
  | '>' :: r => r
  | '<' :: r => r
  | s => s

/-- Whether the phrases and ranges behind a colon are at most one, right there or, for
a phrase, behind the sign of a comparison. -/
def isProper (y : List Char) : Bool :=
  openings y == 0 ||
    (openings y == 1 && (y.head?.any (opensHere .bare) || (dropComparison y).head? == some '"'))

/-- Whether no clause can have this word. -/
def isFaulty (w : List Char) : Bool :=
  strays w != 0 || (afterColon? true (stripSigns w)).any fun y => !isProper y

/-- What a word stands for; `isName` says that it ends in a colon before a parenthesis. -/
def wordRole? (isName : Bool) (w : List Char) : Option Role :=
  let v := stripSigns w
  if v = [] ∨ v.head? = some ':' ∨ isOperator v = true then none
  else if isName then some .name
  else some .leaf

/-- The roles of a word. -/
def wordRoles (isName : Bool) (w : List Char) : List Role :=
  (if isFaulty w then [.fault] else []) ++ (wordRole? isName w).toList

/-- The roles of a token. -/
def Token.roles (t : Token) : List Role :=
  match t.kind with
  | .opening => [.opening]
  | .closing => [.closing]
  | kind => wordRoles (kind == .fieldPrefix) t.text

/-- The roles of a text. -/
def roles (s : List Char) : List Role := (tokens s).flatMap Token.roles

/-! ### Words without their signs -/

/-- A sign in front is stripped. -/
theorem stripSigns_sign {c : Char} (h : isSign c = true) (w : List Char) :
    stripSigns (c :: w) = stripSigns w := List.dropWhile_cons_of_pos h

/-- Nothing is stripped where no sign stands in front. -/
theorem stripSigns_of_not_sign {w : List Char} (h : ∀ c ∈ w.head?, isSign c = false) :
    stripSigns w = w := by
  cases w with
  | nil => rfl
  | cons c w => exact List.dropWhile_cons_of_neg (by simp [h c rfl])

/-- A sign outside of everything leads nowhere. -/
theorem next_of_isSign {c : Char} (h : isSign c = true) : Place.bare.next c = .bare := by
  rcases isSign_iff.1 h with rfl | rfl | rfl <;> rfl

/-- No sign ends a word. -/
theorem endsWord_of_isSign {c : Char} (h : isSign c = true) : endsWord c = false := by
  rcases isSign_iff.1 h with rfl | rfl | rfl <;> decide

/-- A sign closes no bracket. -/
theorem strays_sign {c : Char} (h : isSign c = true) (w : List Char) :
    strays (c :: w) = strays w := by
  rw [strays, Place.marks_cons, next_of_isSign h, if_neg, Nat.zero_add, ← strays]
  rcases isSign_iff.1 h with rfl | rfl | rfl <;> decide

/-- A sign in front of a word makes it no more and no less faulty. -/
theorem isFaulty_sign {c : Char} (h : isSign c = true) (w : List Char) :
    isFaulty (c :: w) = isFaulty w := by
  rw [isFaulty, strays_sign h, stripSigns_sign h, ← isFaulty]

/-- A sign in front of a word changes none of its roles. -/
theorem wordRoles_sign {c : Char} (h : isSign c = true) (isName : Bool) (w : List Char) :
    wordRoles isName (c :: w) = wordRoles isName w := by
  rw [wordRoles, isFaulty_sign h, wordRole?, stripSigns_sign h, ← wordRole?, ← wordRoles]

/-! ### What stands behind the colon of a word -/

/-- What stands behind a colon stands behind a colon of the word. -/
theorem colon_mem_of_afterColon? {atStart : Bool} {w y : List Char}
    (h : afterColon? atStart w = some y) : ':' ∈ w := by
  fun_induction afterColon? atStart w with
  | case1 => cases h
  | case2 atStart c r ih => simp [ih h]
  | case3 atStart c r hne hc => simp [hc.1]
  | case4 atStart c r hne hc hs => cases h
  | case5 atStart c r hne hc hs ih => simp [ih h]

/-- Only a colon at the very start is passed over. -/
theorem afterColon?_of_head_ne {w : List Char} (h : w.head? ≠ some ':') :
    afterColon? false w = afterColon? true w := by
  fun_cases afterColon? true w <;> simp_all [afterColon?]

/-- A sign in front of a word changes nothing behind its colon, unless the word starts with it. -/
theorem afterColon?_sign {c : Char} (hc : isSign c = true) {w : List Char}
    (hw : w.head? ≠ some ':') : afterColon? true (c :: w) = afterColon? true w := by
  rw [← afterColon?_of_head_ne hw]
  rcases isSign_iff.1 hc with rfl | rfl | rfl <;> rw [afterColon?] <;> simp

/-! ### Operators and kinds -/

/-- Two texts that differ in case alone have the same characters in lower case. -/
theorem toLower_mem_of_sameWord {w t : List Char} (h : Text.sameWord w t = true) {c : Char}
    (hc : c ∈ w) : c.toLower ∈ Text.lower t := by
  rw [Text.sameWord, beq_iff_eq] at h
  rw [← h]
  exact List.mem_map_of_mem hc

/-- The characters of operators, in lower case. -/
def operatorChars : List Char := ['a', 'n', 'd', 'o', 'r', 't', '&', '|', '!']

/-- An operator has no other characters than the operators have. -/
theorem toLower_mem_of_isOperator {w : List Char} (h : isOperator w = true) {c : Char}
    (hc : c ∈ w) : c.toLower ∈ operatorChars := by
  simp only [isOperator, Bool.or_eq_true, beq_iff_eq] at h
  rcases h with ((((h | h) | h) | rfl) | rfl) | rfl
  · exact (show Text.lower _ ⊆ operatorChars by decide) (toLower_mem_of_sameWord h hc)
  · exact (show Text.lower _ ⊆ operatorChars by decide) (toLower_mem_of_sameWord h hc)
  · exact (show Text.lower _ ⊆ operatorChars by decide) (toLower_mem_of_sameWord h hc)
  all_goals simp only [List.mem_cons, List.not_mem_nil, or_false, or_self] at hc; subst hc; decide

/-- A word without stray brackets is in order if what stands behind its colon is. -/
theorem isFaulty_eq_false {w : List Char} (hs : strays w = 0)
    (hc : ∀ y ∈ afterColon? true (stripSigns w), isProper y = true) : isFaulty w = false := by
  rw [isFaulty, hs]
  cases hy : afterColon? true (stripSigns w) with
  | none => rfl
  | some y => simp [hc y hy]

/-- An operator has no colon. -/
theorem afterColon?_of_isOperator {w : List Char} (h : isOperator w = true) :
    afterColon? true w = none := by
  cases hw : afterColon? true w with
  | none => rfl
  | some y =>
    exact absurd (toLower_mem_of_isOperator h (colon_mem_of_afterColon? hw)) (by decide)

/-- Of an operator its signs leave all or nothing. -/
theorem stripSigns_of_isOperator {w : List Char} (h : isOperator w = true) :
    stripSigns w = [] ∨ stripSigns w = w := by
  simp only [isOperator, Bool.or_eq_true, beq_iff_eq] at h
  have word {t : List Char} (ht : (Text.lower t).all (fun c => !isSign c.toLower) = true)
      (hw : Text.sameWord w t = true) : stripSigns w = w := by
    refine stripSigns_of_not_sign fun c hc => ?_
    have hc := List.all_eq_true.1 ht _ (toLower_mem_of_sameWord hw (List.mem_of_mem_head? hc))
    exact isSign_eq_false_of (P := fun c => !isSign c.toLower.toLower) (by decide) hc
  rcases h with ((((h | h) | h) | rfl) | rfl) | rfl
  · exact .inr (word (by decide) h)
  · exact .inr (word (by decide) h)
  · exact .inr (word (by decide) h)
  · exact .inr (by decide)
  · exact .inr (by decide)
  · exact .inl (by decide)

/-- An operator stands for nothing. -/
theorem wordRole?_of_isOperator {w : List Char} (h : isOperator w = true) (isName : Bool) :
    wordRole? isName w = none := by
  rw [wordRole?, if_pos]
  rcases stripSigns_of_isOperator h with hs | hs
  · exact .inl hs
  · exact .inr (.inr (hs.symm ▸ h))

/-- A word is the name of a group if it ends in its colon in front of a parenthesis. -/
theorem classify_eq_fieldPrefix_iff {w r : List Char} :
    classify w r = .fieldPrefix ↔ afterColon? true w = some [] ∧ r.head? = some '(' := by
  rw [classify]
  split
  · rename_i h
    simp [afterColon?_of_isOperator h]
  · split
    · rename_i h
      rcases h with rfl | rfl <;> simp [afterColon?]
    · split
      · rename_i value h
        split <;> simp_all
      · rename_i h
        split <;> simp_all

/-- A word that does not end in its colon is the name of no group. -/
theorem classify_beq_fieldPrefix {w : List Char} (h : afterColon? true w ≠ some [])
    (r : List Char) : (classify w r == .fieldPrefix) = false := by
  rw [beq_eq_false_iff_ne, ne_eq, classify_eq_fieldPrefix_iff]
  exact fun hc => h hc.1

/-- No word is taken for a parenthesis. -/
theorem classify_ne_paren (w r : List Char) :
    classify w r ≠ .opening ∧ classify w r ≠ .closing := by
  rw [classify]
  split
  · simp
  · split
    · simp
    · split
      · split <;> simp
      · split <;> simp

/-- A word that is no term is an operator, a lone sign or the name of a group. -/
theorem eq_of_isTerm_classify {w r : List Char} (h : (classify w r).isTerm = false) :
    isOperator w = true ∨ w = ['+'] ∨ w = ['-'] ∨ classify w r = .fieldPrefix := by
  rw [classify] at h ⊢
  split at h
  · rename_i hop
    exact .inl hop
  · split at h
    · rename_i hs
      exact .inr (hs.elim .inl fun hs => .inr (.inl hs))
    · split at h
      · split at h
        · rename_i hc
          refine .inr (.inr (.inr ?_))
          simp_all
        · cases h
      · split at h <;> cases h

/-- The lone signs are `+` and `-`. -/
theorem eq_of_classify_sign {w r : List Char} (h : classify w r = .sign) :
    w = ['+'] ∨ w = ['-'] := by
  rcases eq_of_isTerm_classify (by rw [h]; rfl) with hop | hw | hw | hname
  · rw [classify, if_pos hop] at h
    cases h
  · exact .inl hw
  · exact .inr hw
  · rw [h] at hname
    cases hname

/-- A word that is not a term plays no leaf. -/
theorem count_leaf_wordRoles_le (w r : List Char) :
    (wordRoles (classify w r == .fieldPrefix) w).count .leaf ≤
      if (classify w r).isTerm then 1 else 0 := by
  have hfault : (if isFaulty w then [Role.fault] else []).count .leaf = 0 := by
    split <;> rfl
  rw [wordRoles, List.count_append, hfault, Nat.zero_add]
  by_cases hterm : (classify w r).isTerm = true
  · rw [if_pos hterm]
    exact Nat.le_trans List.count_le_length (by cases wordRole? _ w <;> simp)
  · rw [if_neg hterm]
    rcases eq_of_isTerm_classify (Bool.eq_false_iff.2 hterm) with h | rfl | rfl | h
    · simp [wordRole?_of_isOperator h]
    · simp [wordRole?, stripSigns, isSign]
    · simp [wordRole?, stripSigns, isSign]
    · rw [h, wordRole?]
      split <;> simp

/-! ### The roles of a text, word by word -/

/-- An empty text has no roles. -/
@[simp] theorem roles_nil : roles [] = [] := by simp [roles]

/-- A blank plays no role. -/
theorem roles_blank {c : Char} (h : Text.isBlank c = true) (r : List Char) :
    roles (c :: r) = roles r := by
  rw [roles, tokens_blank h, ← roles]

/-- An opening parenthesis plays its role in front of the rest. -/
@[simp] theorem roles_opening (r : List Char) : roles ('(' :: r) = .opening :: roles r := by
  rw [roles, tokens_opening, List.flatMap_cons, ← roles]
  rfl

/-- A closing parenthesis plays its role in front of the rest. -/
@[simp] theorem roles_closing (r : List Char) : roles (')' :: r) = .closing :: roles r := by
  rw [roles, tokens_closing, List.flatMap_cons, ← roles]
  rfl

/-- A token that is a word has the roles of the word. -/
theorem roles_word (w r : List Char) :
    Token.roles ⟨classify w r, w⟩ = wordRoles (classify w r == .fieldPrefix) w := by
  have h := classify_ne_paren w r
  rw [Token.roles]
  split
  · exact absurd ‹_› h.1
  · exact absurd ‹_› h.2
  · rfl

/-- The first word of a text plays its roles in front of the rest. -/
theorem Cuts.roles_eq {w r : List Char} (h : Cuts w r) :
    roles (w ++ r) = wordRoles (classify w r == .fieldPrefix) w ++ roles r := by
  rw [roles, h.tokens_eq, List.flatMap_cons, roles_word, ← roles]

/-- Signs in front of a text do not change its roles. -/
theorem roles_sign {c : Char} (hc : isSign c = true) (s : List Char) :
    roles (c :: s) = roles s := by
  have hends := endsWord_of_isSign hc
  have hnext := next_of_isSign hc
  have hsign : IsUnbroken .bare [c] := isUnbroken_cons.2 ⟨hends, isUnbroken_nil _⟩
  by_cases hs : AtBoundary s
  · have hcut : Cuts [c] s := ⟨by simp, hsign, hs, fun _ => hnext⟩
    rw [← List.singleton_append, hcut.roles_eq, wordRoles_sign hc]
    rfl
  · obtain ⟨d, s, rfl⟩ : ∃ d r, s = d :: r := by
      cases s with
      | nil => exact absurd atBoundary_nil hs
      | cons d r => exact ⟨d, r, rfl⟩
    have hcut := cuts_spanWord (c := d) (r := s) (by simpa using hs)
    rw [← spanWord_append .bare (d :: s)]
    generalize (spanWord .bare (d :: s)).1 = w at hcut ⊢
    generalize (spanWord .bare (d :: s)).2 = r at hcut ⊢
    have hcut' : Cuts (c :: w) r := by
      refine ⟨by simp, isUnbroken_cons.2 ⟨hends, ?_⟩, hcut.boundary, fun hr => ?_⟩
      · rw [hnext]
        exact hcut.unbroken
      · rw [IsFinished, Place.after_cons, hnext]
        exact hcut.finished hr
    rw [← List.cons_append, hcut'.roles_eq, hcut.roles_eq, wordRoles_sign hc]
    by_cases hw : w.head? = some ':'
    · -- a word that starts with a colon has no role, whatever it is taken for
      have hstrip : stripSigns w = w := stripSigns_of_not_sign (by simp [hw, isSign])
      simp [wordRoles, wordRole?, hstrip, hw]
    · have hkind : (classify (c :: w) r == .fieldPrefix) = (classify w r == .fieldPrefix) := by
        rw [Bool.eq_iff_iff, beq_iff_eq, beq_iff_eq, classify_eq_fieldPrefix_iff,
          classify_eq_fieldPrefix_iff, afterColon?_sign hc hw]
      rw [hkind]

end Query
end SearchFilter
