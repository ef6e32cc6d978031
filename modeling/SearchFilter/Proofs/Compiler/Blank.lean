/-
# Only blank queries are no filter

A query without a filter would match everything. The blank test is made on the expanded text,
so it has to be known that the expansion never loses what can be seen of a query: tokens are
cut off for every character that is not blank, and each of them leaves one in the text.

| query | tokens | expanded |
| --- | --- | --- |
| blank | none | empty, or the query itself |
| any other | one or more, none of them blank | not blank |

A blank query passes all stages but the limit on its length. Main statement:
`eq_none_iff_allBlank`.
-/

import SearchFilter.Proofs.Compiler.Lookup
import SearchFilter.Proofs.Query.Spread

namespace SearchFilter

open Text (allBlank isBlank)

namespace Query

variable {fields : List (List Char)} {s : List Char}

/-! ### Tokens and blanks -/

/-- A text is blank where its first character and the others are. -/
theorem allBlank_cons (c : Char) (r : List Char) : allBlank (c :: r) = (isBlank c && allBlank r) :=
  List.all_cons

/-- Two texts are blank side by side where both are. -/
theorem allBlank_append (s t : List Char) : allBlank (s ++ t) = (allBlank s && allBlank t) :=
  List.all_append

/-- A word is not blank, as a blank would end it. -/
theorem Cuts.allBlank_eq {w r : List Char} (h : Cuts w r) : allBlank w = false := by
  obtain ⟨c, w, rfl⟩ := List.exists_cons_of_ne_nil h.ne_nil
  have hends : endsWord c = false := (isUnbroken_cons.1 h.unbroken).1
  simp only [endsWord, Bool.or_eq_false_iff] at hends
  rw [allBlank_cons, hends.1.1, Bool.false_and]

/-- No token is blank. -/
theorem allBlank_of_mem_tokens : ∀ t ∈ tokens s, allBlank t.text = false := by
  induction s using word_induction with
  | nil => simp
  | blank c r hc ih => rwa [tokens_blank hc]
  | opening r ih =>
    rw [tokens_opening]
    exact List.forall_mem_cons.2 ⟨by decide, ih⟩
  | closing r ih =>
    rw [tokens_closing]
    exact List.forall_mem_cons.2 ⟨by decide, ih⟩
  | word w r hcut ih =>
    rw [hcut.tokens_eq]
    exact List.forall_mem_cons.2 ⟨hcut.allBlank_eq, ih⟩

/-- Only blank texts have no tokens. -/
theorem tokens_eq_nil_iff : tokens s = [] ↔ allBlank s = true := by
  induction s using word_induction with
  | nil => simp [allBlank]
  | blank c r hc ih => rw [tokens_blank hc, allBlank_cons, hc, Bool.true_and, ih]
  | opening r ih => simp [allBlank_cons, show isBlank '(' = false by decide]
  | closing r ih => simp [allBlank_cons, show isBlank ')' = false by decide]
  | word w r hcut ih => simp [hcut.tokens_eq, allBlank_append, hcut.allBlank_eq]

/-! ### Expansion and blanks -/

/-- In copies there is a colon at least. -/
theorem allBlank_copies (hne : fields ≠ []) (value : List Char) :
    allBlank (copies fields value) = false := by
  have hparts : allBlank (':' :: value) = false := by
    rw [allBlank_cons, show isBlank ':' = false by decide, Bool.false_and]
  obtain ⟨f, names, rfl⟩ := List.exists_cons_of_ne_nil hne
  cases names with
  | nil => rw [copies_singleton, allBlank_append, hparts, Bool.and_false]
  | cons g names =>
    rw [copies_eq_joined (by simp), allBlank_cons, show isBlank '(' = false by decide,
      Bool.false_and]

/-- What a token that is not blank is expanded to is not blank either. -/
theorem allBlank_expandToken (hne : fields ≠ []) {t : Token} (ht : allBlank t.text = false)
    (grouped : Bool) : allBlank (expandToken fields grouped t) = false := by
  cases hspread : t.isSpread grouped with
  | true =>
    rw [expandToken_of_isSpread hspread, allBlank_append, allBlank_copies hne, Bool.and_false]
  | false => rw [expandToken_of_not_isSpread hspread, ht]

/-- **An expanded text is blank where the text is,** behind any token and inside of any groups. -/
theorem allBlank_expandFrom (hne : fields ≠ []) (s : List Char) (left : Option Token.Kind)
    (groups : List Bool) : allBlank (expandFrom fields left groups (tokens s)) = allBlank s := by
  cases hs : tokens s with
  | nil => rw [tokens_eq_nil_iff.1 hs]; rfl
  | cons t ts =>
    have ht : allBlank t.text = false := allBlank_of_mem_tokens t (hs ▸ List.mem_cons_self)
    have hblank : allBlank s = false := by
      refine Bool.eq_false_iff.2 fun h => ?_
      rw [tokens_eq_nil_iff.2 h] at hs
      cases hs
    rw [expandFrom, allBlank_append, allBlank_append, allBlank_expandToken hne ht, hblank,
      Bool.false_and, Bool.and_false]

/-! ### The other stages -/

/-- A blank text is no deeper and has no more terms than any limits allow. -/
theorem size_of_allBlank {q : String} (h : allBlank q.toList = true) :
    Size.of q = ⟨q.utf8ByteSize, 0, 0⟩ := by
  rw [Size.of, tokens_eq_nil_iff.2 h]
  rfl

/-- Nothing is looked up in a blank text. -/
theorem checkReferences_of_allBlank {q : String} (h : allBlank q.toList = true) (s : Schema) :
    checkReferences s q = .ok () := by
  have hcolon : ':' ∉ Place.bare.shown q.toList :=
    Place.not_mem_shown (by decide) (Grammar.not_mem_of_allBlank h) _
  have hfinished : IsFinished q.toList := isFinished_of_tokens_eq_nil (tokens_eq_nil_iff.2 h)
  have hfields : ∀ f ∈ ([] : List (List Char)), Grammar.FieldText f := nofun
  exact Schema.checkReferences_of_citations hfinished hfields (citations_eq_nil hcolon true)

end Query

namespace Compiler

open Query

variable {k : Compiler} {q : String}

/-- **The expansion keeps a query visible.** -/
theorem allBlank_expand (k : Compiler) (q : String) :
    allBlank (k.expand q).toList = allBlank q.toList := by
  by_cases hne : k.implicitNames = []
  · rw [expand_of_nil hne]
  · rw [toList_expand_of_ne_nil hne, allBlank_expandFrom hne]

/-- A query is within the limits if each measure is. -/
theorem checkSize_eq_ok_iff : k.checkSize q = .ok () ↔ ∀ m, (Size.of q).get m ≤ k.limits.get m := by
  rw [checkSize, Limits.check, ← Limits.violations_eq_nil_iff]
  cases hviolations : k.limits.violations (Size.of q) with
  | nil => simp [Except.map]
  | cons v vs => simp [Except.map]

/-- A blank text is within the limits where its length is. -/
theorem checkSize_of_allBlank (h : allBlank q.toList = true) :
    k.checkSize q = .ok () ↔ q.utf8ByteSize ≤ k.limits.length := by
  rw [checkSize_eq_ok_iff, size_of_allBlank h]
  constructor
  · exact fun hsize => hsize .length
  · intro hlength m
    cases m with
    | length => exact hlength
    | depth => exact Nat.zero_le _
    | terms => exact Nat.zero_le _

/-- The grammar finds no filter in blank texts, and in no others. -/
theorem allBlank_of_grammar {column : Option Column} {text : String}
    (h : Grammar.filter? column text = .ok none) : allBlank text.toList = true := by
  rw [Grammar.filter?] at h
  split at h
  · assumption
  · split at h
    · cases h
    · split at h <;> cases h

/-- A query has no filter where it is blank and not too long. -/
theorem filter?_eq_none_iff :
    k.filter? q = .ok none ↔ allBlank q.toList = true ∧ q.utf8ByteSize ≤ k.limits.length := by
  constructor
  · intro h
    have hpassed := passed_of_filter? h
    have hblank : allBlank q.toList = true := by
      rw [← allBlank_expand k q]
      exact allBlank_of_grammar hpassed.grammar
    exact ⟨hblank, hpassed.size .length⟩
  · rintro ⟨hblank, hlength⟩
    have hexpanded := (allBlank_expand k q).trans hblank
    have hsize := (checkSize_of_allBlank hblank).2 hlength
    have hreferences := checkReferences_of_allBlank hexpanded k.schema
    have hgrammar := Grammar.filter?_of_allBlank hexpanded k.defaultColumn?
    simp only [filter?, checkReferences, hsize, hreferences, hgrammar]
    rfl

/-- A provider is given nothing to render where there is no filter. -/
theorem compile_eq_none_iff (p : Provider) :
    k.compile p q = .ok none ↔ k.filter? q = .ok none := by
  constructor
  · intro h
    obtain ⟨f, hf, h⟩ := bind_eq_ok.1 h
    cases f with
    | none => exact hf
    | some f =>
      obtain ⟨r, -, hr⟩ := map_eq_ok.1 h
      cases hr
  · intro h
    rw [compile, h]
    rfl

/-- **Only blank queries are no filter,** for every provider: any other query has a filter or is
refused. -/
theorem eq_none_iff_allBlank (k : Compiler) (p : Provider) (q : String) :
    (k.filter? q = .ok none ↔ allBlank q.toList = true ∧ q.utf8ByteSize ≤ k.limits.length) ∧
      (k.compile p q = .ok none ↔ allBlank q.toList = true ∧ q.utf8ByteSize ≤ k.limits.length) :=
  ⟨filter?_eq_none_iff, (compile_eq_none_iff p).trans filter?_eq_none_iff⟩

end Compiler
end SearchFilter
