/-
# Readings of rendered text

How the lexemes of a condition are read. Blanks are left out, and `NOT` binds more
strongly than `AND`, which binds more strongly than `OR`:

    disjunction := conjunction | disjunction "OR" disjunction
    conjunction := negation | conjunction "AND" conjunction
    negation    := test | "(" disjunction ")" | "NOT" negation
    test        := operand tail
    operand     := (value | function "(" … ")") ("->>" literal | "::" type)*
    tail        := nothing | sign operand | "BETWEEN" operand "AND" operand
                 | "IS" "NOT"? ("NULL" | "MISSING")
                 | ("LIKE" | "ILIKE") operand ("ESCAPE" operand)?

No word is reserved. A column can be called `AND`, and is one where an operand has to
stand; only the name of a function is no connective. Chains of one connective may be
grouped in any way.
-/

import SearchFilter.Proofs.Render.Sentence
import SearchFilter.Proofs.Tree.Skeleton

namespace SearchFilter
namespace Lexeme

/-! ### Tests -/

/-- Whether a lexeme is a given word, in any case. -/
def spells (s : String) : Lexeme → Bool
  | word w => Text.sameWord w s.toList
  | _ => false

/-- Whether a lexeme is a mark. -/
def isMark : Lexeme → Bool
  | mark _ => true
  | _ => false

/-- Whether a lexeme can stand between two conditions. -/
def isJoint (l : Lexeme) : Bool := l.spells "AND" || l.spells "OR"

/-- Whether a lexeme can be a connective. -/
def isConnective (l : Lexeme) : Bool := l.isJoint || l.spells "NOT"

/-- Whether a lexeme can stand in front of arguments. -/
def isFunction : Lexeme → Bool
  | word w => !(word w).isConnective
  | _ => false

/-- What follows the parenthesis that closes one, with `n` more open inside of it. -/
def closing : Nat → List Lexeme → Option (List Lexeme)
  | _, [] => none
  | n, l :: r =>
    if l = mark '(' then closing (n + 1) r
    else if l = mark ')' then if n = 0 then some r else closing (n - 1) r
    else closing n r

/-- What follows the parts and types behind an operand. -/
def extended : List Lexeme → List Lexeme
  | mark '-' :: mark '>' :: mark '>' :: literal _ :: r => extended r
  | mark ':' :: mark ':' :: word _ :: r => extended r
  | r => r

/-- What follows the operand at the front. -/
def operand? : List Lexeme → Option (List Lexeme)
  | [] => none
  | l :: r =>
    if l.isMark then none
    else if r.head? = some (mark '(') then
      if l.isFunction then (closing 0 r.tail).map extended else none
    else some (extended r)

/-- Whether there is one operand and nothing else. -/
def isOperand (ls : List Lexeme) : Bool := operand? ls == some []

/-- What follows the sign of an order. -/
def signed? : List Lexeme → Option (List Lexeme)
  | mark '>' :: mark '=' :: r => some r
  | mark '<' :: mark '=' :: r => some r
  | mark '>' :: r => some r
  | mark '<' :: r => some r
  | mark '=' :: r => some r
  | _ => none

/-- Whether lexemes name the lack of a value, or the opposite. -/
def isLack : List Lexeme → Bool
  | [m] => m.spells "NULL" || m.spells "MISSING"
  | [m, n] => m.spells "NOT" && (n.spells "NULL" || n.spells "MISSING")
  | _ => false

/-- Whether an operand with this behind it is a test. -/
def isTail : List Lexeme → Bool
  | [] => true
  | l :: r =>
    if l.isMark then (signed? (l :: r)).any isOperand
    else if l.spells "BETWEEN" then
      match operand? r with
      | some (m :: r) => m.spells "AND" && isOperand r
      | _ => false
    else if l.spells "IS" then isLack r
    else if l.spells "LIKE" || l.spells "ILIKE" then
      match operand? r with
      | some [] => true
      | some (m :: r) => m.spells "ESCAPE" && isOperand r
      | none => false
    else false

/-- Whether lexemes are one test. -/
def isTest (ls : List Lexeme) : Bool := (operand? ls).any isTail

/-! ### Readings -/

/-- How strongly a condition is held together. -/
inductive Rank where
  | negation
  | conjunction
  | disjunction
deriving DecidableEq, Repr

/-- A formula of tests is a reading of lexemes, which form a condition of some rank. -/
inductive IsReading : Rank → Formula (List Lexeme) → List Lexeme → Prop where
  | test {ls} : isTest ls = true → IsReading .negation (.atom ls) ls
  | group {f ls} : IsReading .disjunction f ls → IsReading .negation f (grouped ls)
  | not {f w ls} : w.spells "NOT" = true → IsReading .negation f ls →
      IsReading .negation (.not f) (w :: ls)
  | single {f ls} : IsReading .negation f ls → IsReading .conjunction f ls
  | and {f g ls w ms} : IsReading .conjunction f ls → w.spells "AND" = true →
      IsReading .conjunction g ms → IsReading .conjunction (.and f g) (ls ++ w :: ms)
  | alone {f ls} : IsReading .conjunction f ls → IsReading .disjunction f ls
  | or {f g ls w ms} : IsReading .disjunction f ls → w.spells "OR" = true →
      IsReading .disjunction g ms → IsReading .disjunction (.or f g) (ls ++ w :: ms)

/-- The formula that a word between two conditions makes of their formulas. -/
def Joins (w : Lexeme) (f g h : Formula (List Lexeme)) : Prop :=
  w.spells "AND" = true ∧ h = .and f g ∨ w.spells "OR" = true ∧ h = .or f g

/-- The ways in which lexemes can be read. -/
inductive Analysis (f : Formula (List Lexeme)) (ls : List Lexeme) : Prop where
  | test : isTest ls = true → f = .atom ls → Analysis f ls
  | group {ms} : ls = grouped ms → IsReading .disjunction f ms → Analysis f ls
  | not {g w ms} : ls = w :: ms → w.spells "NOT" = true → f = .not g →
      IsReading .disjunction g ms → Analysis f ls
  | joint {g h a w b} : ls = a ++ w :: b → Joins w g h f → IsReading .disjunction g a →
      IsReading .disjunction h b → Analysis f ls

/-- Every reading is one as a disjunction. -/
theorem IsReading.weaken {rank : Rank} {f : Formula (List Lexeme)} {ls : List Lexeme}
    (h : IsReading rank f ls) : IsReading .disjunction f ls := by
  cases rank with
  | negation => exact .alone (.single h)
  | conjunction => exact .alone h
  | disjunction => exact h

/-- What is read is a test, a group, a negation or two conditions with a word between them. -/
theorem IsReading.analysis {rank : Rank} {f : Formula (List Lexeme)} {ls : List Lexeme}
    (h : IsReading rank f ls) : Analysis f ls := by
  induction h with
  | test htest => exact .test htest rfl
  | group h => exact .group rfl h
  | not hw h => exact .not rfl hw rfl h.weaken
  | single _ ih => exact ih
  | and hl hw hr => exact .joint rfl (.inl ⟨hw, rfl⟩) hl.weaken hr.weaken
  | alone _ ih => exact ih
  | or hl hw hr => exact .joint rfl (.inr ⟨hw, rfl⟩) hl hr

/-- What joins two conditions can stand between them. -/
theorem Joins.isJoint {w : Lexeme} {f g h : Formula (List Lexeme)} (hw : Joins w f g h) :
    w.isJoint = true := by
  obtain ⟨hw, -⟩ | ⟨hw, -⟩ := hw <;> simp [Lexeme.isJoint, hw]

/-- No word is two words. -/
theorem spells_unique {s t : String} {l : Lexeme} (hs : l.spells s = true) (ht : l.spells t = true) :
    Text.lower s.toList = Text.lower t.toList := by
  cases l with
  | word w =>
    simp only [spells, Text.sameWord, beq_iff_eq] at hs ht
    rw [← hs, ht]
  | _ => cases hs

/-- A word joins two formulas in one way. -/
theorem Joins.unique {w : Lexeme} {f g h h' : Formula (List Lexeme)} (hw : Joins w f g h)
    (hw' : Joins w f g h') : h = h' := by
  have hne : Text.lower "AND".toList ≠ Text.lower "OR".toList := by decide +kernel
  obtain ⟨hand, rfl⟩ | ⟨hor, rfl⟩ := hw <;> obtain ⟨hand', rfl⟩ | ⟨hor', rfl⟩ := hw'
  · rfl
  · exact absurd (spells_unique hand hor') hne
  · exact absurd (spells_unique hand' hor) hne
  · rfl

/-! ### Parentheses -/

/-- The number of open parentheses behind lexemes that stand inside of `n`; there is none
if more are closed than are open. -/
def depthAfter : Nat → List Lexeme → Option Nat
  | n, [] => some n
  | n, l :: r =>
    if l = mark '(' then depthAfter (n + 1) r
    else if l = mark ')' then if n = 0 then none else depthAfter (n - 1) r
    else depthAfter n r

/-- An opening parenthesis opens one. -/
theorem depthAfter_opening (n : Nat) (ls : List Lexeme) :
    depthAfter n (mark '(' :: ls) = depthAfter (n + 1) ls := by rw [depthAfter, if_pos rfl]

/-- A closing parenthesis closes the last one. -/
theorem depthAfter_closing (n : Nat) (ls : List Lexeme) :
    depthAfter (n + 1) (mark ')' :: ls) = depthAfter n ls := rfl

/-- No other lexeme changes the number of open parentheses. -/
theorem depthAfter_cons {l : Lexeme} (hopening : l ≠ mark '(') (hclosing : l ≠ mark ')') (n : Nat)
    (ls : List Lexeme) : depthAfter n (l :: ls) = depthAfter n ls := by
  rw [depthAfter, if_neg hopening, if_neg hclosing]

/-- What holds in the end and is kept in front of each lexeme holds of lexemes that close no more
parentheses than are open. -/
@[elab_as_elim]
theorem depthAfter_induction {m : Nat} {P : ∀ n ls, depthAfter n ls = some m → Prop}
    (nil : P m [] rfl)
    (opening : ∀ {n ls} (h : depthAfter (n + 1) ls = some m), P (n + 1) ls h →
      P n (mark '(' :: ls) ((depthAfter_opening n ls).trans h))
    (closing : ∀ {n ls} (h : depthAfter n ls = some m), P n ls h → P (n + 1) (mark ')' :: ls) h)
    (other : ∀ {n l ls} (hopening : l ≠ mark '(') (hclosing : l ≠ mark ')')
      (h : depthAfter n ls = some m), P n ls h →
      P n (l :: ls) ((depthAfter_cons hopening hclosing n ls).trans h))
    {n : Nat} {ls : List Lexeme} (h : depthAfter n ls = some m) : P n ls h := by
  induction ls generalizing n with
  | nil =>
    obtain rfl := Option.some.inj h
    exact nil
  | cons l r ih =>
    by_cases hopening : l = mark '('
    · obtain rfl := hopening
      exact opening _ (ih (depthAfter_opening n r ▸ h))
    by_cases hclosing : l = mark ')'
    · obtain rfl := hclosing
      cases n with
      | zero => cases h
      | succ n => exact closing _ (ih h)
    · exact other hopening hclosing _ (ih (depthAfter_cons hopening hclosing n r ▸ h))

/-- Whether parentheses are closed where they were opened. -/
def IsBalanced (ls : List Lexeme) : Prop := depthAfter 0 ls = some 0

instance (ls : List Lexeme) : Decidable (IsBalanced ls) :=
  inferInstanceAs (Decidable (depthAfter 0 ls = some 0))

/-- Lexemes behind others start with the parentheses that those leave open. -/
theorem depthAfter_append (n : Nat) (ls ms : List Lexeme) :
    depthAfter n (ls ++ ms) = (depthAfter n ls).bind fun m => depthAfter m ms := by
  induction ls generalizing n with
  | nil => rfl
  | cons l r ih =>
    rw [List.cons_append, depthAfter, depthAfter, ih, ih, ih]
    split
    · rfl
    · split
      · split <;> rfl
      · rfl

/-- What is balanced outside of parentheses is balanced inside of them. -/
theorem depthAfter_add {n m : Nat} {ls : List Lexeme} (h : depthAfter n ls = some m) (k : Nat) :
    depthAfter (n + k) ls = some (m + k) := by
  induction h using depthAfter_induction with
  | nil => rfl
  | opening _ ih => rwa [depthAfter_opening, Nat.add_right_comm]
  | closing _ ih => rwa [Nat.add_right_comm, depthAfter_closing]
  | other hopening hclosing _ ih => rwa [depthAfter_cons hopening hclosing]

/-- What is balanced leaves the number of open parentheses as it was. -/
theorem IsBalanced.depthAfter {ls : List Lexeme} (h : IsBalanced ls) (n : Nat) :
    depthAfter n ls = some n := by
  have := depthAfter_add h n
  rwa [Nat.zero_add] at this

/-- Balanced lexemes behind balanced ones are balanced. -/
theorem IsBalanced.append {ls ms : List Lexeme} (hl : IsBalanced ls) (hm : IsBalanced ms) :
    IsBalanced (ls ++ ms) := by
  rw [IsBalanced, depthAfter_append, hl]
  exact hm

/-- Whether lexemes are balanced depends on parentheses alone. -/
theorem isBalanced_cons {l : Lexeme} (hopening : l ≠ mark '(') (hclosing : l ≠ mark ')')
    {ls : List Lexeme} : IsBalanced (l :: ls) ↔ IsBalanced ls := by
  rw [IsBalanced, depthAfter_cons hopening hclosing, IsBalanced]

/-- Parentheses around what is balanced are balanced. -/
theorem IsBalanced.grouped {ls : List Lexeme} (h : IsBalanced ls) : IsBalanced (grouped ls) := by
  rw [IsBalanced, Lexeme.grouped, depthAfter_opening, depthAfter_append, h.depthAfter]
  rfl

/-- A closing parenthesis behind what is balanced closes one that stands before it. -/
theorem not_isBalanced_of_closing {ls ms : List Lexeme} (h : IsBalanced ls) :
    ¬ IsBalanced (ls ++ mark ')' :: ms) := by
  rw [IsBalanced, depthAfter_append, h]
  simp [Lexeme.depthAfter]

/-- What is no mark is no parenthesis. -/
theorem ne_parenthesis_of_isMark {l : Lexeme} (h : l.isMark = false) :
    l ≠ mark '(' ∧ l ≠ mark ')' := by
  constructor <;> rintro rfl <;> cases h

/-- A word is no mark. -/
theorem isMark_of_spells {s : String} {l : Lexeme} (h : l.spells s = true) : l.isMark = false := by
  cases l <;> first | rfl | cases h

/-- What can stand between two conditions is no mark. -/
theorem isMark_of_isJoint {l : Lexeme} (h : l.isJoint = true) : l.isMark = false := by
  cases l <;> first | rfl | cases h

/-- Whether lexemes are balanced does not depend on what is no mark. -/
theorem isBalanced_cons_of_isMark {l : Lexeme} (h : l.isMark = false) {ls : List Lexeme} :
    IsBalanced (l :: ls) ↔ IsBalanced ls :=
  isBalanced_cons (ne_parenthesis_of_isMark h).1 (ne_parenthesis_of_isMark h).2

/-- The parenthesis that closes one is behind balanced lexemes. -/
theorem exists_of_closing {n : Nat} {ls rest : List Lexeme} (h : closing n ls = some rest) :
    ∃ inside, ls = inside ++ mark ')' :: rest ∧ depthAfter n inside = some 0 := by
  induction ls generalizing n with
  | nil => cases h
  | cons l r ih =>
    rw [closing] at h
    split at h
    · rename_i hl
      obtain ⟨inside, rfl, hinside⟩ := ih h
      exact ⟨l :: inside, rfl, by rw [depthAfter, if_pos hl, hinside]⟩
    · rename_i hl
      split at h
      · rename_i hr
        split at h
        · rename_i hn
          obtain rfl := Option.some.inj h
          exact ⟨[], by rw [hr]; rfl, by rw [hn]; rfl⟩
        · rename_i hn
          obtain ⟨inside, rfl, hinside⟩ := ih h
          exact ⟨l :: inside, rfl, by rw [depthAfter, if_neg hl, if_pos hr, if_neg hn, hinside]⟩
      · rename_i hr
        obtain ⟨inside, rfl, hinside⟩ := ih h
        exact ⟨l :: inside, rfl, by rw [depthAfter, if_neg hl, if_neg hr, hinside]⟩

/-- The parenthesis that closes the last one is the next behind lexemes that close the others. -/
theorem closing_append {n : Nat} {inside : List Lexeme} (h : depthAfter n inside = some 0)
    (rest : List Lexeme) : closing n (inside ++ mark ')' :: rest) = some rest := by
  induction h using depthAfter_induction with
  | nil => rfl
  | opening _ ih => rwa [List.cons_append, Lexeme.closing, if_pos rfl]
  | closing _ ih => exact ih
  | other hopening hclosing _ ih =>
    rwa [List.cons_append, Lexeme.closing, if_neg hopening, if_neg hclosing]

/-! ### Every reading is balanced -/

/-- The parts and types behind an operand are balanced. -/
theorem exists_extended (ls : List Lexeme) : ∃ ms, ls = ms ++ extended ls ∧ IsBalanced ms := by
  fun_induction extended ls with
  | case1 t r ih =>
    obtain ⟨ms, hms, hbalanced⟩ := ih
    refine ⟨mark '-' :: mark '>' :: mark '>' :: literal t :: ms, ?_, hbalanced⟩
    simpa using hms
  | case2 w r ih =>
    obtain ⟨ms, hms, hbalanced⟩ := ih
    refine ⟨mark ':' :: mark ':' :: word w :: ms, ?_, hbalanced⟩
    simpa using hms
  | case3 r => exact ⟨[], rfl, rfl⟩

/-- An operand is balanced. -/
theorem exists_of_operand? {ls rest : List Lexeme} (h : operand? ls = some rest) :
    ∃ ms, ls = ms ++ rest ∧ IsBalanced ms := by
  cases ls with
  | nil => cases h
  | cons l r =>
    rw [operand?] at h
    split at h
    · cases h
    rename_i hl
    rw [Bool.not_eq_true] at hl
    split at h
    · rename_i hhead
      split at h
      · obtain ⟨after, hafter, rfl⟩ := Option.map_eq_some_iff.1 h
        obtain ⟨inside, hinside, hdepth⟩ := exists_of_closing hafter
        obtain ⟨ms, hms, hbalanced⟩ := exists_extended after
        refine ⟨l :: grouped inside ++ ms, ?_, ?_⟩
        · obtain ⟨r, rfl⟩ := List.head?_eq_some_iff.1 hhead
          rw [List.tail_cons] at hinside
          rw [hinside, List.append_assoc, ← hms]
          simp [grouped]
        · exact ((isBalanced_cons_of_isMark hl).2 (IsBalanced.grouped hdepth)).append hbalanced
      · cases h
    · obtain rfl := Option.some.inj h
      obtain ⟨ms, hms, hbalanced⟩ := exists_extended r
      exact ⟨l :: ms, by rw [List.cons_append, ← hms], (isBalanced_cons_of_isMark hl).2 hbalanced⟩

/-- Operands are balanced. -/
theorem isBalanced_of_isOperand {ls : List Lexeme} (h : isOperand ls = true) : IsBalanced ls := by
  obtain ⟨ms, rfl, hbalanced⟩ := exists_of_operand? (beq_iff_eq.1 h)
  rwa [List.append_nil]

/-- The sign of an order is balanced. -/
theorem exists_of_signed? {ls rest : List Lexeme} (h : signed? ls = some rest) :
    ∃ ms, ls = ms ++ rest ∧ IsBalanced ms := by
  unfold signed? at h
  split at h <;> cases h
  · exact ⟨[_, _], rfl, rfl⟩
  · exact ⟨[_, _], rfl, rfl⟩
  · exact ⟨[_], rfl, rfl⟩
  · exact ⟨[_], rfl, rfl⟩
  · exact ⟨[_], rfl, rfl⟩

/-- The names for the lack of a value are balanced. -/
theorem isBalanced_of_isLack {ls : List Lexeme} (h : isLack ls = true) : IsBalanced ls := by
  unfold isLack at h
  split at h
  · rename_i m
    have hm : m.isMark = false := (Bool.or_eq_true_iff.1 h).elim isMark_of_spells isMark_of_spells
    exact (isBalanced_cons_of_isMark hm).2 rfl
  · rename_i m n
    obtain ⟨hm, hn⟩ := Bool.and_eq_true_iff.1 h
    have hn : n.isMark = false := (Bool.or_eq_true_iff.1 hn).elim isMark_of_spells isMark_of_spells
    exact (isBalanced_cons_of_isMark (isMark_of_spells hm)).2 ((isBalanced_cons_of_isMark hn).2 rfl)
  · cases h

/-- What follows the operand of a test is balanced. -/
theorem isBalanced_of_isTail {ls : List Lexeme} (h : isTail ls = true) : IsBalanced ls := by
  unfold isTail at h
  split at h
  · rfl
  rename_i l r
  split at h
  · obtain ⟨rest, hrest, hoperand⟩ := (Option.any_eq_true _ _).1 h
    obtain ⟨ms, hms, hbalanced⟩ := exists_of_signed? hrest
    rw [hms]
    exact hbalanced.append (isBalanced_of_isOperand hoperand)
  rename_i hl
  rw [Bool.not_eq_true] at hl
  rw [isBalanced_cons_of_isMark hl]
  split at h
  · split at h
    · rename_i m rest hrest
      obtain ⟨hm, hoperand⟩ := Bool.and_eq_true_iff.1 h
      obtain ⟨ms, rfl, hbalanced⟩ := exists_of_operand? hrest
      exact hbalanced.append ((isBalanced_cons_of_isMark (isMark_of_spells hm)).2
        (isBalanced_of_isOperand hoperand))
    · cases h
  split at h
  · exact isBalanced_of_isLack h
  split at h
  · split at h
    · rename_i hrest
      obtain ⟨ms, rfl, hbalanced⟩ := exists_of_operand? hrest
      rwa [List.append_nil]
    · rename_i m rest hrest
      obtain ⟨hm, hoperand⟩ := Bool.and_eq_true_iff.1 h
      obtain ⟨ms, rfl, hbalanced⟩ := exists_of_operand? hrest
      exact hbalanced.append ((isBalanced_cons_of_isMark (isMark_of_spells hm)).2
        (isBalanced_of_isOperand hoperand))
    · cases h
  · cases h

/-- Tests are balanced. -/
theorem isBalanced_of_isTest {ls : List Lexeme} (h : isTest ls = true) : IsBalanced ls := by
  obtain ⟨rest, hrest, htail⟩ := (Option.any_eq_true _ _).1 h
  obtain ⟨ms, rfl, hbalanced⟩ := exists_of_operand? hrest
  exact hbalanced.append (isBalanced_of_isTail htail)

/-- **What can be read is balanced.** -/
theorem IsReading.isBalanced {rank : Rank} {f : Formula (List Lexeme)} {ls : List Lexeme}
    (h : IsReading rank f ls) : IsBalanced ls := by
  induction h with
  | test htest => exact isBalanced_of_isTest htest
  | group _ ih => exact ih.grouped
  | not hw _ ih => exact (isBalanced_cons_of_isMark (isMark_of_spells hw)).2 ih
  | single _ ih => exact ih
  | and _ hw _ ihl ihr => exact ihl.append ((isBalanced_cons_of_isMark (isMark_of_spells hw)).2 ihr)
  | alone _ ih => exact ih
  | or _ hw _ ihl ihr => exact ihl.append ((isBalanced_cons_of_isMark (isMark_of_spells hw)).2 ihr)

end Lexeme
end SearchFilter
