/-
# What a word is searched for as

A word without a field is pasted behind the name of each implicit field. There the grammar tries
comparisons before terms. A word that gets stars around it starts with one of them, so it is a
pattern whatever its first character is. A word with a wildcard of its own gets none:

| word | in each field | |
| --- | --- | --- |
| `abc` | `f:*abc*` | a pattern |
| `>5` | `f:*>5*` | a pattern |
| `a.b*` | `f:a.b*` | a pattern |
| `>5*` | `f:>5*` | a comparison with `5*` |

So a word is searched for as a pattern unless it has a wildcard and starts as a comparison
(`filter?_word_iff`). What else is in it does not matter: no reference is found in the copies but
those to their fields (`checkReferences_copies`), also where the word has points at its ends.
-/

import SearchFilter.Proofs.Compiler.Signs
import SearchFilter.Proofs.Grammar.Comparison
import SearchFilter.Proofs.Query.Mention

namespace SearchFilter

/-- What a word is searched for as in a column: between stars, where it has no wildcard. -/
def Filter.sought (word : String) (c : Column) : Filter :=
  if Text.hasBare '*' word.toList then .like c word
  else if Text.hasBare '?' word.toList then .wild c word
  else .like c ("*" ++ word ++ "*")

/-- What a word is searched for as is a predicate. -/
theorem Filter.isPredicate_sought (word : String) (c : Column) :
    (sought word c).isPredicate = true := by
  rw [sought]
  split
  · rfl
  · split <;> rfl

open Grammar
open Query (IsFinished Place citations_copies_eq copies isSign others searched)

/-! ### Copies in the masked text -/

section
variable {value name : List Char} {names : List (List Char)}

/-- Of the copies of a value the masked text shows the copies of what it shows of the value. -/
theorem shown_copies (hvalue : Place.bare.after value = .bare) (hnames : ∀ f ∈ names, FieldText f) :
    Place.bare.shown (copies names value) = copies names (Place.bare.shown value) := by
  have hcopy {f : List Char} (hf : FieldText f) (r : List Char) :
      Place.bare.shown (f ++ ':' :: (value ++ r)) =
        f ++ ':' :: (Place.bare.shown value ++ Place.bare.shown r) := by
    have hafter : Place.bare.after f = .bare := (hf.isTerm.passes .bare).after
    have hcolon (t : List Char) : Place.bare.shown (':' :: t) = ':' :: Place.bare.shown t := rfl
    rw [Place.shown_append, hf.shown, hafter, hcolon, Place.shown_append, hvalue]
  have hothers {names : List (List Char)} (hnames : ∀ f ∈ names, FieldText f) :
      Place.bare.shown (others value names ++ [')']) =
        others (Place.bare.shown value) names ++ [')'] := by
    induction names with
    | nil => rfl
    | cons f names ih =>
      obtain ⟨hf, hnames⟩ := List.forall_mem_cons.1 hnames
      have hor (t : List Char) : Place.bare.shown (' ' :: 'O' :: 'R' :: ' ' :: t) =
          ' ' :: 'O' :: 'R' :: ' ' :: Place.bare.shown t := rfl
      simp only [Query.others_cons, List.cons_append, List.append_assoc]
      rw [hor, hcopy hf, ih hnames]
  rcases names with _ | ⟨f, _ | ⟨g, names⟩⟩
  · rfl
  · have hone := hcopy (hnames f (by simp)) []
    rwa [List.append_nil, Place.shown_nil, List.append_nil] at hone
  · obtain ⟨hf, hnames⟩ := List.forall_mem_cons.1 hnames
    have hopening (t : List Char) : Place.bare.shown ('(' :: t) = '(' :: Place.bare.shown t := rfl
    rw [Query.copies_eq_joined (by simp), Query.copies_eq_joined (by simp), Query.joined_eq_others,
      Query.joined_eq_others, hopening, hcopy hf, hothers hnames]

end

/-! ### Words that start as a comparison -/

/-- A word with a wildcard that starts with the sign of a comparison. -/
def IsCompared (w : List Char) : Prop :=
  Pattern.hasWildcard w = true ∧ ∃ c ∈ w.head?, c = '<' ∨ c = '>'

section
variable {w v : List Char}

/-- A character that is no wildcard and no backslash makes no difference to there being one. -/
theorem hasWildcard_cons {c : Char} (hback : c ≠ '\\') (hstar : c ≠ '*') (hquestion : c ≠ '?') :
    Pattern.hasWildcard (c :: v) = Pattern.hasWildcard v := by
  have hbare {d : Char} (hd : c ≠ d) : Text.hasBare d (c :: v) = Text.hasBare d v := by
    rw [Bool.eq_iff_iff, Text.hasBare_iff, Text.hasBare_iff, Text.glyphs_bare hback]
    simp [hd.symm]
  rw [Pattern.hasWildcard, hbare hstar, hbare hquestion, Pattern.hasWildcard]

/-- Behind the characters of a sign there is more where there is a wildcard, and it is a term. -/
theorem isTerm_of_append_sign {s : List Char} (hs : ∀ c ∈ s, c ∈ ['<', '>', '='])
    (hwild : Pattern.hasWildcard (s ++ v) = true) (hterm : IsTerm (s ++ v)) : IsTerm v := by
  induction s with
  | nil => exact hterm
  | cons c s ih =>
    have hne {d : Char} (hd : d ∉ ['<', '>', '=']) : c ≠ d := fun he =>
      hd (he ▸ hs c List.mem_cons_self)
    rw [List.cons_append, hasWildcard_cons (hne (by decide)) (hne (by decide)) (hne (by decide))]
      at hwild
    refine ih (fun c hc => hs c (List.mem_cons_of_mem _ hc)) hwild
      (hterm.tail (hne (by decide)) fun hnil : s ++ v = [] => ?_)
    rw [hnil] at hwild
    cases hwild

/-- Such a word is a sign, the longest one there is, and a term to compare with. -/
theorem IsCompared.exists_sign (h : IsCompared w) (hterm : IsTerm w) :
    ∃ (op : Comparison) (u : List Char), w = op.sign.toList ++ u ∧ IsTerm u ∧
      (op.sign.length = 1 → u.head? ≠ some '=') := by
  obtain ⟨op, u, rfl, hlongest⟩ := OpensComparison.exists_sign h.2
  have hsign : op.sign.toList.all ['<', '>', '='].contains = true := by cases op <;> decide
  have hmem : ∀ c ∈ op.sign.toList, c ∈ ['<', '>', '='] := fun c hc =>
    List.contains_iff_mem.1 (List.all_eq_true.1 hsign c hc)
  exact ⟨op, u, rfl, isTerm_of_append_sign hmem h.1 hterm, hlongest⟩

/-- Every other word is a term behind a field, with the stars that it may get. -/
theorem writesAtom_searched (hterm : IsTerm w) (h : ¬ IsCompared w) :
    WritesAtom (.term (searched false w [])) (searched false w []) := by
  cases hwild : Pattern.hasWildcard w with
  | true =>
    rw [searched_of_hasWildcard hwild]
    refine .term hterm fun c hc => ?_
    constructor <;> rintro rfl
    · exact h ⟨hwild, '>', hc, .inr rfl⟩
    · exact h ⟨hwild, '<', hc, .inl rfl⟩
  | false =>
    have hstar : IsTerm ['*'] :=
      isTerm_of_forall (by simp) (List.forall_mem_singleton.2 (by decide))
    rw [searched_of_not_hasWildcard hwild]
    exact .term (hstar.append (hterm.append hstar)) (by rintro _ ⟨⟩; decide)

/-- What is pasted behind a field is the pattern that is searched for. -/
theorem filter_searched (q : String) (c : Column) :
    (Atom.term (searched false q.toList [])).filter c = Filter.sought q c := by
  cases hwild : Pattern.hasWildcard q.toList with
  | true =>
    rw [searched_of_hasWildcard hwild, Atom.filter, Filter.sought, String.ofList_toList]
    rw [Pattern.hasWildcard, Bool.or_eq_true] at hwild
    by_cases hstar : Text.hasBare '*' q.toList = true
    · rw [if_pos hstar, if_pos hstar]
    · have hquestion := hwild.resolve_left hstar
      rw [if_neg hstar, if_neg hstar, if_pos hquestion, if_pos hquestion]
  | false =>
    have htext : String.ofList ('*' :: (q.toList ++ ['*'])) = "*" ++ q ++ "*" := by
      simp [← String.toList_inj]
    rw [searched_of_not_hasWildcard hwild, filter_starred, htext, Filter.sought]
    rw [Pattern.hasWildcard, Bool.or_eq_false_iff] at hwild
    simp [hwild]

end

namespace Compiler

variable {k : Compiler} {q : String} {a : Atom} {value name : List Char} {names : List (List Char)}

/-! ### Queries that are expanded to copies -/

/-- No reference is found in the copies of an atom but those to their fields. -/
theorem checkReferences_copies (hne : k.implicitNames ≠ []) (ha : AtomText a value)
    (hq : (k.expand q).toList = copies k.implicitNames value) :
    k.checkReferences (k.expand q) = .ok () := by
  have hnames : ∀ f ∈ k.implicitNames, FieldText f := fun f => fieldText_of_mem_implicitNames
  have hfinished : IsFinished value := ha.isSilent.after
  have hcolon : ':' ∉ Place.bare.shown value := ha.isSilent.colon
  have hcitations := citations_copies_eq hne hnames hcolon
  rw [← shown_copies hfinished hnames, ← hq] at hcitations
  rw [checkReferences, Schema.checkReferences_of_citations _ hnames hcitations]
  · exact Schema.checkFields_eq_ok fun f hf => check_of_mem_implicitNames hf
  · rw [hq]
    exact Query.isFinished_copies hfinished hnames

/-- A query that is expanded to the copies of an atom tests each implicit field, where none of
them is read as `NOT`. -/
theorem filter?_of_expand_copies (hnames : k.implicitNames = name :: names)
    (hnot : ∀ f ∈ k.implicitNames, Text.sameWord f ['N', 'O', 'T'] = false)
    (ha : WritesAtom a value) (hq : (k.expand q).toList = copies k.implicitNames value)
    (hsize : k.checkSize q = .ok ()) :
    k.filter? q = .ok (some (anyColumn (fun c => a.filter c) name names)) := by
  have hreferences := checkReferences_copies (by simp [hnames]) ha.atomText hq
  have hfields : k.schema.checkFields (Clause.anyOf a name names).fields = .ok () := by
    rw [fields_anyOf, ← hnames]
    exact Schema.checkFields_eq_ok fun f hf => check_of_mem_implicitNames hf
  have hs : Stands (.anyOf a name names) (copies k.implicitNames value) := by
    have hnameable : ∀ f ∈ k.implicitNames, IsNameable f :=
      fun f hf => ⟨fieldText_of_mem_implicitNames hf, hnot f hf⟩
    rw [hnames] at hnameable ⊢
    exact stands_copies ha hnameable
  have hclause := hs.clause?_signs (g := []) (by simp)
  rw [List.nil_append, ← hq] at hclause
  exact filter?_of_references hsize (hq ▸ hs.flush) hclause hreferences hfields (lower_anyOf a _)

/-! ### Words -/

/-- A word that is no operator and has no sign in front is expanded to the copies of what it is
searched for as. -/
theorem toList_expand_word (hnames : k.implicitNames ≠ []) (hterm : IsTerm q.toList)
    (hfree : isReserved q.toList = false) (hsign : ∀ c ∈ q.toList.head?, isSign c = false) :
    (k.expand q).toList = copies k.implicitNames (searched false q.toList []) := by
  have hplayed := isPlayed_word hterm hfree hsign
  have hemits := emits_term (g := []) (by simp) hplayed hterm k.implicitNames
  rw [List.nil_append, Query.splitSign_of_isPlayed hplayed, List.nil_append] at hemits
  rw [toList_expand_of_ne_nil hnames]
  exact Query.expandFrom_of_emits hemits

/-- **A word is searched for as a pattern in each implicit field,** exactly where it has no
wildcard or does not start as a comparison, and no field is read as `NOT`. Otherwise the fields
are compared with what stands behind its sign. -/
theorem filter?_word_iff (hterm : IsTerm q.toList) (hfree : isReserved q.toList = false)
    (hsign : ∀ c ∈ q.toList.head?, isSign c = false) (hnames : k.implicitNames = name :: names)
    (hsize : k.checkSize q = .ok ()) :
    (k.filter? q = .ok (some (anyColumn (Filter.sought q) name names)) ↔
      ¬ IsCompared q.toList ∧ ∀ f ∈ k.implicitNames, Text.sameWord f ['N', 'O', 'T'] = false) ∧
    (IsCompared q.toList → (∀ f ∈ k.implicitNames, Text.sameWord f ['N', 'O', 'T'] = false) →
      ∃ (op : Comparison) (u : List Char), q.toList = op.sign.toList ++ u ∧
        (op.sign.length = 1 → u.head? ≠ some '=') ∧
        k.filter? q =
          .ok (some (anyColumn (fun c => .compare op c (Operand.raw u).value) name names))) := by
  have hexpand := toList_expand_word (k := k) (by simp [hnames]) hterm hfree hsign
  by_cases hcompared : IsCompared q.toList
  · obtain ⟨op, u, hu, hoperand, hlongest⟩ := hcompared.exists_sign hterm
    have ha : WritesAtom (.compare op (.raw u)) q.toList := hu ▸ .compare (.raw hoperand) hlongest
    rw [searched_of_hasWildcard hcompared.1] at hexpand
    have hcompare (hnot : ∀ f ∈ k.implicitNames, Text.sameWord f ['N', 'O', 'T'] = false) :=
      filter?_of_expand_copies hnames hnot ha hexpand hsize
    refine ⟨iff_of_false (fun h => ?_) fun h => h.1 hcompared, fun _ hnot =>
      ⟨op, u, hu, hlongest, hcompare hnot⟩⟩
    rw [hcompare fun f hf => (isNameable_of_filter? hnames ha hexpand h f hf).free] at h
    -- a comparison is no pattern
    have hsame := congrArg (fun f => f.predicates.head?) (Option.some.inj (Except.ok.inj h))
    rw [predicates_anyColumn fun _ => rfl,
      predicates_anyColumn (Filter.isPredicate_sought q)] at hsame
    have hfirst := Option.some.inj hsame
    rw [Filter.sought, Atom.filter] at hfirst
    split at hfirst
    · cases hfirst
    · split at hfirst <;> cases hfirst
  · have ha := writesAtom_searched hterm hcompared
    refine ⟨⟨fun h => ⟨hcompared, fun f hf => ?_⟩, fun h => ?_⟩, fun h => absurd h hcompared⟩
    · exact (isNameable_of_filter? hnames ha hexpand h f hf).free
    · rw [filter?_of_expand_copies hnames h.2 ha hexpand hsize]
      simp only [filter_searched]

/-- A word that ends with a point and a wildcard, over two fields. -/
theorem filter?_of_pointed_word :
    let k := sample 2 ⟨100, 9, 9⟩ (by decide)
    k.filter? "a.b.?" = .ok (some (.or (.wild ⟨"f"⟩ "a.b.?") (.wild ⟨"g"⟩ "a.b.?"))) := by
  intro k
  have hterm : IsTerm "a.b.?".toList := ⟨by decide +kernel, by decide +kernel⟩
  have hfirst {c : Char} (hc : c ∈ "a.b.?".toList.head?) : c = 'a' := (Option.some.inj hc).symm
  have hsign : ∀ c ∈ "a.b.?".toList.head?, isSign c = false := fun c hc => by
    rw [hfirst hc]
    decide
  have hplain : ¬ IsCompared "a.b.?".toList := by
    rintro ⟨-, c, hc, h⟩
    rw [hfirst hc] at h
    exact absurd h (by decide)
  have hnames : k.implicitNames = [['f'], ['g']] := by decide +kernel
  exact (filter?_word_iff hterm (by decide +kernel) hsign hnames
    (by decide +kernel)).1.2 ⟨hplain, by decide +kernel⟩

/-- A word with a wildcard that starts with a sign is compared with. -/
theorem exists_filter?_compared :
    let k := sample 1 ⟨100, 9, 9⟩ (by decide)
    IsTerm ">5*".toList ∧ isReserved ">5*".toList = false ∧
      (∀ c ∈ ">5*".toList.head?, isSign c = false) ∧ k.checkSize ">5*" = .ok () ∧
      k.implicitNames = [['f']] ∧
      (∃ f, k.filter? ">5*" = .ok (some f) ∧ f.operator = "greater") ∧
      k.filter? ">5*" ≠ .ok (some (Filter.sought ">5*" ⟨"f"⟩)) := by
  intro k
  have hmeasured : k.measured ">5*" Filter.operator = some "greater" := by decide +kernel
  obtain ⟨f, hf, hop⟩ := exists_of_measured hmeasured
  have hsign : ∀ c ∈ ">5*".toList.head?, isSign c = false := fun c hc => by
    obtain rfl : '>' = c := Option.some.inj hc
    decide
  refine ⟨⟨by decide +kernel, by decide +kernel⟩, by decide +kernel, hsign,
    by decide +kernel, by decide +kernel, ⟨f, hf, hop⟩, fun hsought => ?_⟩
  obtain rfl := Option.some.inj (Except.ok.inj (hf.symm.trans hsought))
  exact absurd hop (by decide +kernel)

end Compiler
end SearchFilter
