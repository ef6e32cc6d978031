/-
# Conditions with one reading

A condition has one reading when every place where a connective could be read is either
the one that is meant or in front of something that cannot be read. The places are the
first lexeme, for `NOT`, and what stands outside of parentheses, for `AND` and `OR`
(`joints`); what cannot be read is known by its first two lexemes (`opens`).

| condition | the one reading |
| --- | --- |
| an operand and a tail without connectives | a test |
| an operand, `BETWEEN v AND w` | a test |
| two tests with `AND` or `OR` between them | that formula of the tests |
| conditions between parentheses, with connectives | that formula of their readings |
-/

import SearchFilter.Proofs.Render.Reading

namespace SearchFilter
namespace Lexeme

/-! ### What can be read -/

/-- Whether a lexeme can stand behind the first one of a condition. -/
def follows (l : Lexeme) : Bool :=
  l.isMark || l.spells "BETWEEN" || l.spells "IS" || l.spells "LIKE" || l.spells "ILIKE" || l.isJoint

/-- Whether lexemes start like a condition. -/
def opens : List Lexeme → Bool
  | [] => false
  | [l] => !l.isMark
  | l :: m :: _ => l == mark '(' || l.spells "NOT" || (!l.isMark && m.follows)

/-- Whether nothing at the front would be read with the operand before it. -/
def Ends (ls : List Lexeme) : Prop :=
  ls.head? ≠ some (mark '-') ∧ ls.head? ≠ some (mark ':') ∧ ls.head? ≠ some (mark '(')

instance (ls : List Lexeme) : Decidable (Ends ls) :=
  inferInstanceAs (Decidable (_ ∧ _))

/-- Nothing but a mark would be read with the operand before it. -/
theorem ends_of_isMark {l : Lexeme} (h : l.isMark = false) (ls : List Lexeme) : Ends (l :: ls) := by
  refine ⟨?_, ?_, ?_⟩ <;> · rintro ⟨⟩; cases h

/-- Where an operand ends it has no more parts or types. -/
theorem extended_of_ends {ls : List Lexeme} (h : Ends ls) : extended ls = ls := by
  unfold extended
  split
  · exact absurd rfl h.1
  · exact absurd rfl h.2.1
  · rfl

/-- What is no mark is an operand by itself, if it ends there. -/
theorem operand?_cons {l : Lexeme} (hl : l.isMark = false) {ls : List Lexeme} (h : Ends ls) :
    operand? (l :: ls) = some ls := by
  rw [operand?, hl, if_neg Bool.false_ne_true, if_neg h.2.2, extended_of_ends h]

/-- Tests start like conditions. -/
theorem opens_of_isTest {ls : List Lexeme} (h : isTest ls = true) : opens ls = true := by
  obtain ⟨rest, hrest, htail⟩ := (Option.any_eq_true _ _).1 h
  cases ls with
  | nil => cases hrest
  | cons l r =>
    cases hl : l.isMark with
    | true =>
      rw [operand?, hl, if_pos rfl] at hrest
      cases hrest
    | false =>
      cases r with
      | nil => simp [opens, hl]
      | cons m r =>
        suffices hm : m.follows = true by simp [opens, hl, hm]
        cases hm : m.isMark with
        | true => simp [follows, hm]
        | false =>
          rw [operand?_cons hl (ends_of_isMark hm r)] at hrest
          obtain rfl := Option.some.inj hrest
          rw [isTail, hm, if_neg Bool.false_ne_true] at htail
          by_cases hbetween : m.spells "BETWEEN" = true
          · simp [follows, hbetween]
          by_cases his : m.spells "IS" = true
          · simp [follows, his]
          rw [if_neg hbetween, if_neg his] at htail
          split at htail
          · rename_i hlike
            rcases Bool.or_eq_true_iff.1 hlike with hlike | hlike <;> simp [follows, hlike]
          · cases htail

/-- What starts like a condition does so with a connective and more behind it. -/
theorem opens_append {ls : List Lexeme} (h : opens ls = true) {w : Lexeme} (hw : w.isJoint = true)
    (ms : List Lexeme) : opens (ls ++ w :: ms) = true := by
  cases ls with
  | nil => cases h
  | cons l ls =>
    cases ls with
    | nil =>
      have hl : l.isMark = false := by simpa [opens] using h
      simp [opens, follows, hl, hw]
    | cons m ls => exact h

/-- **What can be read starts like a condition.** -/
theorem IsReading.opens {rank : Rank} {f : Formula (List Lexeme)} {ls : List Lexeme}
    (h : IsReading rank f ls) : opens ls = true := by
  induction h with
  | test htest => exact opens_of_isTest htest
  | @group f ls _ _ => cases ls <;> rfl
  | @not f w ls hw _ ih =>
    cases ls with
    | nil => cases ih
    | cons m ls => simp [Lexeme.opens, hw]
  | single _ ih => exact ih
  | and _ hw _ ih _ => exact opens_append ih (by simp [isJoint, hw]) _
  | alone _ ih => exact ih
  | or _ hw _ ih _ => exact opens_append ih (by simp [isJoint, hw]) _

/-! ### Where connectives could be read -/

/-- The words outside of parentheses that could be connectives, each with all that
follows it; `n` parentheses are open. -/
def joints : Nat → List Lexeme → List (List Lexeme)
  | _, [] => []
  | n, l :: r =>
    if l = mark '(' then joints (n + 1) r
    else if l = mark ')' then joints (n - 1) r
    else (if n = 0 ∧ l.isJoint = true then [l :: r] else []) ++ joints n r

/-- Behind an opening parenthesis one more is open. -/
theorem joints_opening (n : Nat) (ls : List Lexeme) :
    joints n (mark '(' :: ls) = joints (n + 1) ls := by rw [joints, if_pos rfl]

/-- A lexeme that is no parenthesis adds its own place, if it could be a connective outside of
parentheses. -/
theorem joints_cons {l : Lexeme} (hopening : l ≠ mark '(') (hclosing : l ≠ mark ')') (n : Nat)
    (ls : List Lexeme) : joints n (l :: ls) =
      (if n = 0 ∧ l.isJoint = true then [l :: ls] else []) ++ joints n ls := by
  rw [joints, if_neg hopening, if_neg hclosing]

/-- The places of lexemes behind others are found at the depth that those lead to. -/
theorem joints_append {n m : Nat} {ls : List Lexeme} (h : depthAfter n ls = some m)
    (ms : List Lexeme) : joints n (ls ++ ms) = (joints n ls).map (· ++ ms) ++ joints m ms := by
  induction h using depthAfter_induction with
  | nil => rfl
  | opening _ ih => rwa [List.cons_append, joints_opening, joints_opening]
  | closing _ ih => exact ih
  | other hopening hclosing _ ih =>
    rw [List.cons_append, joints_cons hopening hclosing, joints_cons hopening hclosing, ih,
      List.map_append, List.append_assoc]
    congr 1
    split <;> rfl

/-- No connective is read inside of parentheses. -/
theorem joints_inside {n m : Nat} {ls : List Lexeme} (h : depthAfter n ls = some m) :
    joints (n + 1) ls = [] := by
  induction h using depthAfter_induction with
  | nil => rfl
  | opening _ ih => rwa [joints_opening]
  | closing _ ih => exact ih
  | other hopening hclosing _ ih =>
    rw [joints_cons hopening hclosing, ih, if_neg (fun h => Nat.succ_ne_zero _ h.1)]
    rfl

/-- Between parentheses there is no place for a connective. -/
theorem joints_grouped {ls : List Lexeme} (h : IsBalanced ls) : joints 0 (grouped ls) = [] := by
  have hdepth : depthAfter 1 ls = some 1 := h.depthAfter 1
  rw [grouped, joints_opening, joints_append hdepth, joints_inside h]
  rfl

/-- A lexeme that is no mark adds its own place, if it could be a connective. -/
theorem joints_cons_of_isMark {l : Lexeme} (h : l.isMark = false) (ls : List Lexeme) :
    joints 0 (l :: ls) = (if l.isJoint = true then [l :: ls] else []) ++ joints 0 ls := by
  obtain ⟨hopening, hclosing⟩ := ne_parenthesis_of_isMark h
  rw [joints_cons hopening hclosing]
  simp

/-- The connective of a reading is in its place. -/
theorem mem_joints {a b : List Lexeme} {w : Lexeme} (ha : IsBalanced a) (hw : w.isJoint = true) :
    w :: b ∈ joints 0 (a ++ w :: b) := by
  rw [joints_append ha, joints_cons_of_isMark (isMark_of_isJoint hw), if_pos hw]
  simp

/-! ### Conditions with one reading -/

/-- A formula is the only reading of lexemes. -/
def HasReading (f : Formula (List Lexeme)) (ls : List Lexeme) : Prop :=
  ∀ g, IsReading .disjunction g ls ↔ g = f

/-- The only reading is one. -/
theorem HasReading.isReading {f : Formula (List Lexeme)} {ls : List Lexeme}
    (h : HasReading f ls) : IsReading .disjunction f ls := (h f).2 rfl

/-- Any reading is the only one. -/
theorem HasReading.eq {f g : Formula (List Lexeme)} {ls : List Lexeme} (h : HasReading f ls)
    (hg : IsReading .disjunction g ls) : g = f := (h g).1 hg

/-- Lexemes in which no connective can be read. -/
structure IsSealed (ls : List Lexeme) : Prop where
  head : ls.head? ≠ some (mark '(')
  not : ∀ w ms, ls = w :: ms → w.spells "NOT" = true → opens ms = false
  joint : ∀ s ∈ joints 0 ls, opens s.tail = false

/-- Without connectives there is nothing but a test. -/
theorem IsSealed.eq_atom {ls : List Lexeme} (h : IsSealed ls) {rank : Rank}
    {f : Formula (List Lexeme)} (hf : IsReading rank f ls) : isTest ls = true ∧ f = .atom ls := by
  cases hf.analysis with
  | test htest hatom => exact ⟨htest, hatom⟩
  | group hls _ => exact absurd (by rw [hls]; rfl) h.head
  | not hls hw _ hg => exact absurd (hg.opens.symm.trans (h.not _ _ hls hw)) (by decide)
  | joint hls hw hg hg' =>
    subst hls
    have hopens := h.joint _ (mem_joints hg.isBalanced hw.isJoint)
    exact absurd (hg'.opens.symm.trans hopens) (by decide)

/-- A test in which no connective can be read has one reading. -/
theorem IsSealed.hasReading {ls : List Lexeme} (h : IsSealed ls) (htest : isTest ls = true) :
    HasReading (.atom ls) ls :=
  fun _ => ⟨fun hg => (h.eq_atom hg).2, fun hg => hg ▸ .alone (.single (.test htest))⟩

/-- **Two conditions with a connective between them** are read as such, if no other place
is left for a connective. -/
theorem hasReading_joint {f g h : Formula (List Lexeme)} {a b : List Lexeme} {w : Lexeme}
    (ha : HasReading f a) (hf : IsReading .negation f a) (hb : HasReading g b)
    (hg : IsReading .negation g b) (hw : Joins w f g h) (htest : isTest (a ++ w :: b) = false)
    (hgroup : ∀ ms, IsBalanced ms → a ++ w :: b ≠ grouped ms)
    (hnot : ∀ v ms, a ++ w :: b = v :: ms → v.spells "NOT" = true → opens ms = false)
    (hjoints : ∀ s ∈ joints 0 (a ++ w :: b), s = w :: b ∨ opens s.tail = false) :
    HasReading h (a ++ w :: b) := by
  intro k
  constructor
  · intro hk
    cases hk.analysis with
    | test htest' _ => exact absurd (htest'.symm.trans htest) (by decide)
    | group hls hms => exact absurd hls (hgroup _ hms.isBalanced)
    | not hls hv _ hms => exact absurd (hms.opens.symm.trans (hnot _ _ hls hv)) (by decide)
    | @joint f' g' a' w' b' hls hw' hf' hg' =>
      have hmem : w' :: b' ∈ joints 0 (a ++ w :: b) := by
        rw [hls]
        exact mem_joints hf'.isBalanced hw'.isJoint
      obtain heq | hopens := hjoints _ hmem
      · rw [heq] at hls
        obtain rfl := List.append_cancel_right hls
        obtain ⟨rfl, rfl⟩ := List.cons.inj heq
        obtain rfl := ha.eq hf'
        obtain rfl := hb.eq hg'
        exact hw'.unique hw
      · exact absurd (hg'.opens.symm.trans hopens) (by decide)
  · rintro rfl
    obtain ⟨hand, rfl⟩ | ⟨hor, rfl⟩ := hw
    · exact .alone (.and (.single hf) hand (.single hg))
    · exact .or ha.isReading hor hb.isReading

/-! ### Parentheses and connectives -/

/-- What is closed in between is not enclosed as a whole. -/
theorem append_ne_grouped {ls ms ns : List Lexeme} (hls : IsBalanced ls) (hne : ms ≠ [])
    (hns : IsBalanced ns) : grouped ls ++ ms ≠ grouped ns := by
  intro h
  have htail : ls ++ mark ')' :: ms = ns ++ [mark ')'] := by
    simpa [grouped] using h
  rw [← List.dropLast_append_getLast hne, ← List.cons_append, ← List.append_assoc] at htail
  obtain ⟨hns', -⟩ := List.append_inj' htail rfl
  rw [← hns'] at hns
  exact not_isBalanced_of_closing hls hns

/-- Parentheses around a condition do not change its reading. -/
theorem HasReading.grouped {f : Formula (List Lexeme)} {ls : List Lexeme} (h : HasReading f ls) :
    HasReading f (grouped ls) := by
  have hbalanced := h.isReading.isBalanced
  intro g
  constructor
  · intro hg
    cases hg.analysis with
    | test htest _ => cases htest
    | @group ms hls hms =>
      obtain rfl : ls = ms := by simpa [Lexeme.grouped] using hls
      exact h.eq hms
    | not hls hw _ _ =>
      obtain ⟨rfl, -⟩ := List.cons.inj hls
      cases hw
    | @joint _ _ _ _ b hls hw hf _ =>
      have hmem := mem_joints (b := b) hf.isBalanced hw.isJoint
      rw [← hls, joints_grouped hbalanced] at hmem
      exact absurd hmem List.not_mem_nil
  · rintro rfl
    exact .alone (.single (.group h.isReading))

/-- Two conditions between parentheses with a connective between them. -/
theorem HasReading.joined {f g h : Formula (List Lexeme)} {ls ms : List Lexeme} {w : Lexeme}
    (hl : HasReading f ls) (hm : HasReading g ms) (hw : Joins w f g h) :
    HasReading h (Lexeme.grouped ls ++ w :: Lexeme.grouped ms) := by
  have hlb := hl.isReading.isBalanced
  have hmb := hm.isReading.isBalanced
  have hjoint := hw.isJoint
  refine hasReading_joint hl.grouped (.group hl.isReading) hm.grouped (.group hm.isReading) hw rfl
    (fun ns => append_ne_grouped hlb (List.cons_ne_nil w _)) ?_ ?_
  · intro v ns hls hv
    obtain ⟨rfl, -⟩ := List.cons.inj hls
    cases hv
  · intro s hs
    rw [joints_append hlb.grouped, joints_grouped hlb, joints_cons_of_isMark (isMark_of_isJoint hjoint),
      if_pos hjoint, joints_grouped hmb] at hs
    exact .inl (by simpa using hs)

/-- `NOT` cannot stand between two conditions. -/
theorem isJoint_of_not {w : Lexeme} (h : w.spells "NOT" = true) : w.isJoint = false := by
  have hne : ∀ s ∈ ["AND", "OR"], Text.lower "NOT".toList ≠ Text.lower s.toList := by
    decide +kernel
  have hnone {s : String} (hs : s ∈ ["AND", "OR"]) : w.spells s = false :=
    Bool.eq_false_iff.2 fun hw => hne s hs (spells_unique h hw)
  rw [isJoint, hnone (by simp), hnone (by simp)]
  rfl

/-- A negated condition between parentheses. -/
theorem HasReading.negated {f : Formula (List Lexeme)} {ls : List Lexeme} {w : Lexeme}
    (h : HasReading f ls) (hw : w.spells "NOT" = true) :
    HasReading (.not f) (w :: Lexeme.grouped ls) := by
  have hjoint := isJoint_of_not hw
  have hbalanced := h.isReading.isBalanced
  have hmark := isMark_of_spells hw
  have hfunction : w.isFunction = false := by
    cases w <;> simp [isFunction, isConnective, hw]
  intro g
  constructor
  · intro hg
    cases hg.analysis with
    | test htest _ =>
      simp [isTest, operand?, hmark, hfunction, Lexeme.grouped] at htest
    | group hls _ =>
      obtain ⟨rfl, -⟩ := List.cons.inj hls
      cases hmark
    | not hls _ hg' hk =>
      obtain ⟨-, rfl⟩ := List.cons.inj hls
      rw [hg', h.grouped.eq hk]
    | @joint _ _ _ _ b hls hw' hf _ =>
      have hmem := mem_joints (b := b) hf.isBalanced hw'.isJoint
      rw [← hls, joints_cons_of_isMark hmark, hjoint, joints_grouped hbalanced] at hmem
      exact absurd hmem List.not_mem_nil
  · rintro rfl
    exact .alone (.single (.not hw (.group h.isReading)))

/-! ### Tests -/

/-- An operand inside of which no connective can be read. Only its first lexeme may be a
word like one, if nothing or a part follows. -/
structure IsLead (o : List Lexeme) : Prop where
  operand : ∀ k, Ends k → operand? (o ++ k) = some k
  shape : ∃ h t, o = h :: t ∧ h.isMark = false ∧ IsBalanced t ∧ joints 0 t = [] ∧
    (h.isConnective = true → t = [] ∨ t.head? = some (mark '-'))

/-- A lexeme that is no mark is an operand in which no connective can be read. -/
theorem isLead_singleton {l : Lexeme} (h : l.isMark = false) : IsLead [l] where
  operand _ hk := operand?_cons h hk
  shape := ⟨l, [], rfl, h, rfl, rfl, fun _ => .inl rfl⟩

/-- A part of a structured column. -/
theorem isLead_part (base part : List Char) :
    IsLead [word base, mark '-', mark '>', mark '>', literal part] where
  operand k hk := by
    show some (extended k) = some k
    rw [extended_of_ends hk]
  shape := ⟨word base, _, rfl, rfl, rfl, rfl, fun _ => .inr rfl⟩

/-- A column as text. -/
theorem isLead_cast (name : List Char) {type : List Char} (h : (word type).isJoint = false) :
    IsLead [quoted name, mark ':', mark ':', word type] where
  operand k hk := by
    show some (extended k) = some k
    rw [extended_of_ends hk]
  shape := by
    refine ⟨quoted name, _, rfl, rfl, rfl, ?_, nofun⟩
    show (if 0 = 0 ∧ (word type).isJoint = true then [[word type]] else []) ++ [] = []
    rw [h]
    rfl

/-- A function of something. -/
theorem isLead_call {l : Lexeme} (h : l.isFunction = true) {ls : List Lexeme}
    (hls : IsBalanced ls) : IsLead (l :: grouped ls) where
  operand k hk := by
    have hmark : l.isMark = false := by cases l <;> first | rfl | cases h
    have hclosing := closing_append hls k
    simp [operand?, grouped, hmark, h, hclosing, extended_of_ends hk]
  shape := by
    have hmark : l.isMark = false := by cases l <;> first | rfl | cases h
    refine ⟨l, _, rfl, hmark, hls.grouped, joints_grouped hls, fun hconnective => ?_⟩
    cases l <;> simp_all [isFunction, isConnective]

/-- Behind its head an operand has no place for a connective. -/
theorem IsLead.opens_of_joint {o k s : List Lexeme} (h : IsLead o) (hk : opens k = false)
    (hs : s ∈ joints 0 (o ++ k)) : opens s.tail = false ∨ s ∈ joints 0 k := by
  obtain ⟨l, t, rfl, hl, ht, hjoints, hshape⟩ := h.shape
  rw [List.cons_append, joints_cons_of_isMark hl, joints_append ht, hjoints, List.mem_append] at hs
  obtain hs | hs := hs
  · split at hs
    · rename_i hjoint
      obtain rfl := List.mem_singleton.1 hs
      left
      obtain rfl | hhead := hshape (by simp [isConnective, hjoint])
      · exact hk
      · obtain ⟨t, rfl⟩ := List.head?_eq_some_iff.1 hhead
        cases t <;> cases k <;> rfl
    · exact absurd hs List.not_mem_nil
  · exact .inr (by simpa using hs)

/-- Behind an operand called `NOT` nothing starts that could be negated. -/
theorem IsLead.opens_of_not {o k : List Lexeme} (h : IsLead o) (hk : opens k = false) :
    ∀ v ms, o ++ k = v :: ms → v.spells "NOT" = true → opens ms = false := by
  intro v ms hls hv
  obtain ⟨l, t, rfl, -, -, -, hshape⟩ := h.shape
  obtain ⟨rfl, rfl⟩ := List.cons.inj hls
  obtain rfl | hhead := hshape (by simp [isConnective, hv])
  · exact hk
  · obtain ⟨t, rfl⟩ := List.head?_eq_some_iff.1 hhead
    cases t <;> cases k <;> rfl

/-- No operand starts with a parenthesis. -/
theorem IsLead.head?_ne {o : List Lexeme} (h : IsLead o) (k : List Lexeme) :
    (o ++ k).head? ≠ some (mark '(') := by
  obtain ⟨l, t, rfl, hl, -⟩ := h.shape
  rintro ⟨⟩
  cases hl

/-- An operand and its tail are a test as the tail says. -/
theorem IsLead.isTest {o k : List Lexeme} (h : IsLead o) (hk : Ends k) :
    isTest (o ++ k) = isTail k := by
  rw [Lexeme.isTest, h.operand k hk]
  rfl

/-- Operands in which no connective can be read are balanced. -/
theorem IsLead.isBalanced {o : List Lexeme} (h : IsLead o) : IsBalanced o := by
  obtain ⟨l, t, rfl, hl, ht, -⟩ := h.shape
  exact (isBalanced_cons_of_isMark hl).2 ht

/-- The tail of a test, which has no place for a connective. -/
structure IsPlain (k : List Lexeme) : Prop where
  tail : isTail k = true
  ends : Ends k
  opens : opens k = false
  joints : joints 0 k = []

/-- No connective can be read in an operand and what follows it, if none has a place there. -/
theorem IsLead.isSealed {o k : List Lexeme} (h : IsLead o) (hopens : opens k = false)
    (hjoints : joints 0 k = []) : IsSealed (o ++ k) where
  head := h.head?_ne k
  not := h.opens_of_not hopens
  joint s hs := (h.opens_of_joint hopens hs).resolve_right (by simp [hjoints])

/-- **A test without connectives is read as a test.** -/
theorem hasReading_test {o k : List Lexeme} (ho : IsLead o) (hk : IsPlain k) :
    HasReading (.atom (o ++ k)) (o ++ k) :=
  (ho.isSealed hk.opens hk.joints).hasReading (by rw [ho.isTest hk.ends, hk.tail])

/-- Whether a lexeme is a value. -/
def isValue : Lexeme → Bool
  | literal _ => true
  | slot => true
  | numbered _ => true
  | number _ => true
  | _ => false

/-- **`BETWEEN` takes its own `AND`.** -/
theorem hasReading_between {o : List Lexeme} (ho : IsLead o) {v w : Lexeme}
    (hv : v.isValue = true) (hw : w.isValue = true) :
    HasReading (.atom (o ++ [keyword "BETWEEN", v, keyword "AND", w]))
      (o ++ [keyword "BETWEEN", v, keyword "AND", w]) := by
  have hopens : opens [keyword "BETWEEN", v, keyword "AND", w] = false := by
    cases v <;> first | rfl | exact Bool.noConfusion hv
  have hjoints : joints 0 [keyword "BETWEEN", v, keyword "AND", w] = [[keyword "AND", w]] := by
    cases v <;> cases w <;> first | rfl | exact Bool.noConfusion hv | exact Bool.noConfusion hw
  have htail : isTail [keyword "BETWEEN", v, keyword "AND", w] = true := by
    cases v <;> cases w <;> first | rfl | exact Bool.noConfusion hv | exact Bool.noConfusion hw
  -- without its `AND` the test is none, so that the `AND` is no connective
  have hsealed : IsSealed (o ++ [keyword "BETWEEN", v]) := by
    refine ho.isSealed ?_ ?_
    · cases v <;> first | rfl | cases hv
    · cases v <;> first | rfl | cases hv
  have hcut : isTest (o ++ [keyword "BETWEEN", v]) = false := by
    rw [ho.isTest (ends_of_isMark (l := keyword "BETWEEN") rfl [v])]
    cases v <;> rfl
  have htest := ho.isTest (ends_of_isMark (l := keyword "BETWEEN") rfl [v, keyword "AND", w])
  intro g
  constructor
  · intro hg
    cases hg.analysis with
    | test _ hatom => exact hatom
    | group hls _ => exact absurd (by rw [hls]; rfl) (ho.head?_ne _)
    | not hls hnot _ hg' =>
      exact absurd (hg'.opens.symm.trans (ho.opens_of_not hopens _ _ hls hnot)) (by decide)
    | @joint f f' a l b hls hl hf hf' =>
      have hmem := mem_joints (b := b) hf.isBalanced hl.isJoint
      rw [← hls] at hmem
      obtain hb | hs := ho.opens_of_joint hopens hmem
      · exact absurd (hf'.opens.symm.trans hb) (by decide)
      · rw [hjoints, List.mem_singleton] at hs
        have hfront : o ++ [keyword "BETWEEN", v] ++ (l :: b) = a ++ l :: b := by
          rw [← hls, hs]
          simp
        obtain rfl := List.append_cancel_right hfront
        exact absurd ((hsealed.eq_atom hf).1.symm.trans hcut) (by decide)
  · rintro rfl
    exact .alone (.single (.test (htest.trans htail)))

/-- A sign and a value. -/
theorem isPlain_signed {s : List Lexeme} {v : Lexeme}
    (hs : s ∈ [[mark '='], [mark '>'], [mark '<'], [mark '>', mark '='], [mark '<', mark '=']])
    (hv : v.isValue = true) : IsPlain (s ++ [v]) := by
  simp only [List.mem_cons, List.not_mem_nil, or_false] at hs
  obtain rfl | rfl | rfl | rfl | rfl := hs <;>
    refine ⟨?_, ⟨by simp, by simp, by simp⟩, ?_, ?_⟩ <;>
      · cases v <;> first | rfl | cases hv

/-- **Two tests with a connective between them,** as in a range without its bounds. -/
theorem hasReading_pair {o o' k : List Lexeme} {m n w : Lexeme} {h : Formula (List Lexeme)}
    (ho : IsLead o) (ho' : IsLead o') (hm : IsPlain [m, n]) (hk : IsPlain k)
    (hw : Joins w (.atom (o ++ [m, n])) (.atom (o' ++ k)) h)
    (hstop : ∀ r, isTail (m :: n :: w :: r) = false) :
    HasReading h (o ++ [m, n] ++ w :: (o' ++ k)) := by
  have hfirst := hasReading_test ho hm
  have hsecond := hasReading_test ho' hk
  have hassoc : o ++ [m, n] ++ w :: (o' ++ k) = o ++ (m :: n :: w :: (o' ++ k)) := by simp
  have hopens : opens (m :: n :: w :: (o' ++ k)) = false := hm.opens
  have hends : Ends (m :: n :: w :: (o' ++ k)) := hm.ends
  have htests : isTest (o ++ [m, n]) = true ∧ isTest (o' ++ k) = true :=
    ⟨by rw [ho.isTest hm.ends, hm.tail], by rw [ho'.isTest hk.ends, hk.tail]⟩
  refine hasReading_joint hfirst (.test htests.1) hsecond (.test htests.2) hw ?_ ?_ ?_ ?_
  · rw [hassoc, ho.isTest hends]
    exact hstop _
  · intro ms _ hls
    exact absurd (by rw [← hassoc, hls]; rfl) (ho.head?_ne _)
  · rw [hassoc]
    exact ho.opens_of_not hopens
  · intro s hs
    rw [hassoc] at hs
    obtain hs | hs := ho.opens_of_joint hopens hs
    · exact .inr hs
    have hmn := joints_append (isBalanced_of_isTail hm.tail) (w :: (o' ++ k))
    rw [hm.joints, joints_cons_of_isMark (isMark_of_isJoint hw.isJoint), if_pos hw.isJoint] at hmn
    rw [show m :: n :: w :: (o' ++ k) = [m, n] ++ w :: (o' ++ k) from rfl, hmn] at hs
    obtain rfl | hs : s = w :: (o' ++ k) ∨ s ∈ joints 0 (o' ++ k) := by simpa using hs
    · exact .inl rfl
    · exact .inr ((ho'.opens_of_joint hk.opens hs).resolve_right (by simp [hk.joints]))

end Lexeme
end SearchFilter
