/-
# Names that queries can refer to

A schema admits every identifier as the name of a field. Where a keyword can stand, the grammar
takes a name in front of a colon for the keyword that it spells, and does not come back to the
field when no clause starts at the colon:

| name, in any case | in front of a query | behind another clause |
| --- | --- | --- |
| `not` | a prefix | a prefix |
| `and` | the field | a keyword |
| any other, also `or` | the field | the field |

So a field named `not` is out of reach, and one named `and` is so behind a clause
(`filter?_eq_iff`).
-/

import SearchFilter.Proofs.Compiler.Literal
import SearchFilter.Proofs.Schema.Construction

namespace SearchFilter

/-- The fields of a schema are accepted as one. -/
theorem Schema.ofFields_fields (s : Schema) : ofFields s.fields = .ok s := ofFields_eq_ok_iff.2 rfl

namespace Grammar

open Query (AtBoundary endsWord)
open Reader

variable {p : Reader Clause} {field : List Char}

/-! ### Keywords in front of a colon -/

/-- No clause starts at a colon. -/
theorem fails_modified_colon (t : List Char) : (modified p).Fails (':' :: t) :=
  fails_of_not_takes fun _ _ hr => by
    have hbare : bareTerm.Fails (':' :: t) := rfl
    obtain ⟨_, _, hc, -⟩ := takes_bind.1 hr
    rcases takes_orElse.1 hc with hc | ⟨-, hc⟩
    · exact (fails_fielded fun _ _ => (fails_fieldName (by decide)).not_takes).not_takes hc
    · exact (fails_unfielded (by decide) hbare).not_takes hc

/-- A colon is no prefix. -/
theorem fails_signPrefix_colon (t : List Char) : signPrefix.Fails (':' :: t) := rfl

/-- A field that spells `NOT` is read as a prefix. -/
theorem FieldText.takes_signPrefix (h : FieldText field)
    (hnot : Text.sameWord field ['N', 'O', 'T'] = true) (t : List Char) :
    signPrefix.Takes (field ++ ':' :: t) .mustNot (':' :: t) := by
  have htakes := IsKeyword.takes_signPrefix ⟨h.isTerm, .inl hnot⟩ (endsTerm_colon t)
  exact htakes

/-- So no query starts with it. -/
theorem clause?_ne_ok_of_not (h : FieldText field)
    (hnot : Text.sameWord field ['N', 'O', 'T'] = true) (t : List Char) (c : Clause) :
    clause? (field ++ ':' :: t) ≠ .ok c := fun hc => by
  obtain ⟨_, hquery⟩ := clause?_eq_ok_iff.1 hc
  obtain ⟨m, hdisjunction, -⟩ := takes_query.1 hquery
  rw [h.isTerm.skipBlank_append] at hdisjunction
  obtain ⟨_, _, hconjunction, -⟩ := takes_bind.1 hdisjunction
  obtain ⟨_, _, hunary, -⟩ := takes_bind.1 hconjunction
  exact (fails_unary_of_modified (h.isTerm.skipBlank_append _)
    (.cons (h.takes_signPrefix hnot t) (.nil _)) (fails_signPrefix_colon t)
    (fails_modified_colon t)).not_takes hunary

/-- Where `AND` is read in front of a colon, no clause is. -/
theorem FieldText.fails_nextUnary (h : FieldText field)
    (hand : Text.sameWord field ['A', 'N', 'D'] = true) (t : List Char) :
    (nextUnary p).Fails (field ++ ':' :: t) := fails_of_not_takes fun _ _ hr => by
  have hkeyword : (Reader.padded (keyword "AND" "&&")).Takes (field ++ ':' :: t) () (':' :: t) := by
    refine takes_padded.2 ⟨':' :: t, ?_, rfl⟩
    rw [h.isTerm.skipBlank_append]
    exact IsKeyword.takes ⟨h.isTerm, .inl hand⟩ (endsTerm_colon t)
  have hunary : (unary p).Fails (':' :: t) :=
    fails_unary_of_modified rfl (.nil _) (fails_signPrefix_colon t) (fails_modified_colon t)
  obtain ⟨_, m, hopt, hc⟩ := takes_bind.1 hr
  rcases takes_opt.1 hopt with ⟨_, -, hm⟩ | ⟨-, -, hfails⟩
  · obtain ⟨-, rfl⟩ := hkeyword.unique hm
    exact hunary.not_takes hc
  · exact hfails.not_takes hkeyword

/-- So the clause in front of it is the last one, and the text is not read to its end. -/
theorem FieldText.rest_of_takes_disjunction (h : FieldText field)
    (hand : Text.sameWord field ['A', 'N', 'D'] = true) {s t m : List Char} {c d : Clause}
    (hfirst : (unary p).Takes s d (field ++ ':' :: t)) (hc : (disjunction p).Takes s c m) :
    m = field ++ ':' :: t := by
  have hor : Text.sameWord field "OR".toList = false := by
    rw [Text.sameWord, beq_iff_eq] at hand
    rw [Text.sameWord, hand]
    decide
  have hnext : (nextConjunction p).Fails (field ++ ':' :: t) := fails_of_not_takes fun _ _ hr => by
    obtain ⟨_, _, hkeyword, -⟩ := takes_bind.1 hr
    obtain ⟨_, hm, -⟩ := takes_padded.1 hkeyword
    rw [h.isTerm.skipBlank_append] at hm
    exact (h.fails_keyword (by simp) hor t).not_takes hm
  rw [disjunction_eq] at hc
  obtain ⟨_, m₁, hconjunction, hrest⟩ := takes_bind.1 hc
  rw [conjunction_eq] at hconjunction
  obtain ⟨_, m₂, hunary, hrest'⟩ := takes_bind.1 hconjunction
  obtain ⟨-, rfl⟩ := hfirst.unique hunary
  obtain ⟨_, _, hmany, hpure⟩ := takes_bind.1 hrest'
  obtain ⟨-, rfl⟩ := takes_pure.1 hpure
  obtain rfl := many_eq_of_fails (h.fails_nextUnary hand t) hmany
  obtain ⟨_, _, hmany, hpure⟩ := takes_bind.1 hrest
  obtain ⟨-, rfl⟩ := takes_pure.1 hpure
  exact many_eq_of_fails hnext hmany

/-- A field that spells `AND` cannot stand behind another clause. -/
theorem clause?_ne_ok_of_and {a : Atom} {u : List Char} (h : FieldText field)
    (hand : Text.sameWord field ['A', 'N', 'D'] = true) (ha : WritesAtom a u) (t : List Char)
    (c : Clause) : clause? (field ++ ':' :: u ++ ' ' :: (field ++ ':' :: t)) ≠ .ok c := fun hc => by
  have hnot : Text.sameWord field ['N', 'O', 'T'] = false := by
    rw [Text.sameWord, beq_iff_eq] at hand
    rw [Text.sameWord, hand]
    decide
  obtain ⟨_, hquery⟩ := clause?_eq_ok_iff.1 hc
  obtain ⟨m, hdisjunction, hm, -⟩ := takes_query.1 hquery
  have hflush := (h.isTerm.isFlush.append (':' :: u)) (' ' :: (field ++ ':' :: t))
  rw [hflush] at hdisjunction
  have hskip : Text.skipBlank (field ++ ':' :: t) = field ++ ':' :: t := h.isTerm.skipBlank_append _
  have hblank : Text.skipBlank (' ' :: (field ++ ':' :: t)) = field ++ ':' :: t := hskip
  have hfirst (p : Reader Clause) : (unary p).Takes
      (field ++ ':' :: u ++ ' ' :: (field ++ ':' :: t)) (.leaf (some field) a) (field ++ ':' :: t) := by
    have haccepts : Accepts p .factor _ _ := ha.accepts h hnot
    have htakes := haccepts (' ' :: (field ++ ':' :: t)) (by simp [endsWord]; decide)
    rwa [hblank] at htakes
  obtain rfl := h.rest_of_takes_disjunction hand (hfirst _) hdisjunction
  rw [hskip] at hm
  simp at hm

end Grammar

namespace Compiler

open Grammar

variable {k : Compiler} {q : String}

/-- What the grammar does not read has no filter. -/
theorem filter?_ne_ok_of_clause? (hexpand : k.expand q = q) (h : ∀ c, clause? q.toList ≠ .ok c)
    (f : Filter) : k.filter? q ≠ .ok (some f) := fun hf => by
  have hgrammar := (passed_of_filter? hf).grammar
  rw [hexpand] at hgrammar
  obtain ⟨c, hc, -⟩ := exists_clause_of_filter? hgrammar
  exact h c hc

section
variable {v : List Char}

/-- A word of letters and digits is written as a term. -/
theorem writesAtom_word (hv : IsAlnum v) : WritesAtom (.term v) v := by
  refine .term hv.isTerm fun c hc => ?_
  have halnum := hv.all c (List.mem_of_mem_head? hc)
  constructor <;> rintro rfl <;> exact absurd halnum (by decide)

/-- A word of letters and digits shows no points. -/
theorem shows_word (hv : IsAlnum v) : Shows 0 v :=
  shows_of_not_mem (hv.isTerm.passes .bare).after (not_mem_of_isAlnum hv (by decide))

/-- A word of letters and digits is tested for as a value. -/
theorem filter_word (hv : IsAlnum v) (c : Column) :
    (Atom.term v).filter c = .equals c (textValue v) := by
  have hunescape := unescape_of_not_mem (not_mem_of_isAlnum hv (by decide))
  rw [Atom.filter, hasBare_of_isAlnum hv (by decide), hasBare_of_isAlnum hv (by decide), hunescape]
  rfl

end

/-- Two words behind the same name. -/
theorem filter?_of_words {f : Field} {v : List Char} (hf : f ∈ k.schema.fields) (hv : IsAlnum v)
    (hnot : Text.sameWord f.name.toList ['N', 'O', 'T'] = false)
    (hand : Text.sameWord f.name.toList ['A', 'N', 'D'] = false)
    (hq : q.toList = f.name.toList ++ ':' :: v ++ ' ' :: (f.name.toList ++ ':' :: v))
    (hsize : k.checkSize q = .ok ()) :
    k.filter? q = .ok (some (.and (.equals ⟨f.name⟩ (textValue v)) (.equals ⟨f.name⟩ (textValue v)))) := by
  have hfield : FieldText f.name.toList := .plain (k.schema.named f hf)
  have hword : Text.sameWord f.name.toList "AND".toList = false := hand
  have ha := writesAtom_word hv
  have hexpand : k.expand q = q := expand_of_emits fun fields => by
    rw [hq]
    exact (ha.atomText.emits hfield fields false).beside (ha.atomText.emits hfield fields false)
  have hflush : IsFlush (f.name.toList ++ ':' :: v) := hfield.isTerm.isFlush.append _
  have haccepts (n : Nat) : Accepts (clauseWithin n) .disjunction
      (.and (.leaf (some f.name.toList) (.term v)) (.leaf (some f.name.toList) (.term v)))
      (f.name.toList ++ ':' :: v ++ ' ' :: (f.name.toList ++ ':' :: v)) := by
    refine .conjunction (isSound_clauseWithin n) (.beside hflush (fun r _ => ?_)
      (.factor (ha.accepts hfield hnot)) (ha.accepts hfield hnot))
    refine Reader.Fails.padded ?_
    rw [hflush, List.append_assoc]
    exact hfield.fails_keyword (by simp) hword _
  have hclause := clause?_of_accepts (hflush.append _) (haccepts _)
  rw [← hq, ← hexpand] at hclause
  have hcheck := Schema.check_of_mem hf
  refine filter?_of_shows hsize ?_ hclause ?_ (Schema.checkFields_eq_ok ?_) ?_
  · rw [hexpand, hq]
    exact hflush.append _
  · have hshows := hfield.shows_append (shows_word hv)
    rw [hexpand, hq]
    simpa [Clause.fields] using hshows.append (hshows.cons (c := ' ') rfl (by decide))
  · simpa [Clause.fields] using hcheck
  · simp only [Clause.lower, Option.map_some, Option.some_or, columnOf_toList, filter_word hv]
    rfl

/-- **A field can be referred to unless it is named as an operator:** one named `not` can not, and
one named `and` only where no clause stands in front of it. -/
theorem filter?_eq_iff {f : Field} {v : String} (hf : f ∈ k.schema.fields) (hv : IsAlnum v.toList) :
    let once := f.name ++ ":" ++ v
    let twice := once ++ " " ++ once
    let test := Filter.equals ⟨f.name⟩ (.text v)
    (k.checkSize once = .ok () → (k.filter? once = .ok (some test) ↔
      Text.sameWord f.name.toList ['N', 'O', 'T'] = false)) ∧
    (k.checkSize twice = .ok () → (k.filter? twice = .ok (some (.and test test)) ↔
      Text.sameWord f.name.toList ['N', 'O', 'T'] = false ∧
        Text.sameWord f.name.toList ['A', 'N', 'D'] = false)) := by
  intro once twice test
  have hfield : FieldText f.name.toList := .plain (k.schema.named f hf)
  have ha := writesAtom_word hv
  have hemits (fields : List (List Char)) :
      Query.Emits fields false (f.name.toList ++ ':' :: v.toList) (f.name.toList ++ ':' :: v.toList) :=
    ha.atomText.emits hfield fields false
  have honce : once.toList = f.name.toList ++ ':' :: v.toList := by simp [once]
  have htwice : twice.toList = f.name.toList ++ ':' :: v.toList ++
      ' ' :: (f.name.toList ++ ':' :: v.toList) := by simp [twice, once]
  have hexpand : k.expand once = once := expand_of_emits fun fields => honce ▸ hemits fields
  have hexpand' : k.expand twice = twice :=
    expand_of_emits fun fields => htwice ▸ (hemits fields).beside (hemits fields)
  -- a name that spells `NOT` is a prefix of both queries
  have hnot (h : Text.sameWord f.name.toList ['N', 'O', 'T'] = true) (c : Clause) :
      clause? once.toList ≠ .ok c ∧ clause? twice.toList ≠ .ok c := by
    rw [honce, htwice, List.append_assoc]
    exact ⟨clause?_ne_ok_of_not hfield h _ c, clause?_ne_ok_of_not hfield h _ c⟩
  refine ⟨fun hsize => ⟨fun h => ?_, fun hfree => ?_⟩, fun hsize => ⟨fun h => ⟨?_, ?_⟩, ?_⟩⟩
  · exact Bool.eq_false_iff.2 fun hop =>
      filter?_ne_ok_of_clause? hexpand (fun c => (hnot hop c).1) _ h
  · have hfilter := filter?_of_writesAtom (Schema.admits_field hf hfree) ha (shows_word hv) honce hsize
    rwa [filter_word hv, textValue_toList] at hfilter
  · exact Bool.eq_false_iff.2 fun hop =>
      filter?_ne_ok_of_clause? hexpand' (fun c => (hnot hop c).2) _ h
  · refine Bool.eq_false_iff.2 fun hop => filter?_ne_ok_of_clause? hexpand' (fun c => ?_) _ h
    rw [htwice]
    exact clause?_ne_ok_of_and hfield hop ha _ c
  · rintro ⟨hfree, hand⟩
    have hfilter := filter?_of_words hf hv hfree hand htwice hsize
    rwa [textValue_toList] at hfilter

/-- Three text fields that are named as operators. -/
def operators : Compiler where
  schema :=
    { fields := ["not", "and", "or"].map (Field.of · .text)
      named := by decide +kernel
      distinct := by decide +kernel }
  limits := ⟨100, 9, 9⟩
  limits_pos := by decide

/-- One named `and` can be referred to once, and one named `or` twice. -/
theorem filter?_of_operators :
    operators.filter? "and:a" = .ok (some (.equals ⟨"and"⟩ (.text "a"))) ∧
      operators.filter? "or:a or:a" =
        .ok (some (.and (.equals ⟨"or"⟩ (.text "a")) (.equals ⟨"or"⟩ (.text "a")))) := by
  have ha : IsAlnum "a".toList := ⟨by decide, List.all_eq_true.1 (by decide)⟩
  have hand := filter?_eq_iff (k := operators) (f := .of "and" .text) (by decide +kernel) ha
  have hor := filter?_eq_iff (k := operators) (f := .of "or" .text) (by decide +kernel) ha
  exact ⟨(hand.1 (by decide +kernel)).2 (by decide +kernel),
    (hor.2 (by decide +kernel)).2 (by decide +kernel)⟩

/-- The schema is accepted with all three of them, but neither `not:a` nor `and:a and:a` is read
as the test for `a` and two of these. -/
theorem filter?_ne_of_operators :
    Schema.ofFields operators.schema.fields = .ok operators.schema ∧
      (operators.checkSize "not:a" = .ok () ∧
        operators.filter? "not:a" ≠ .ok (some (.equals ⟨"not"⟩ (.text "a")))) ∧
      operators.checkSize "and:a and:a" = .ok () ∧
        operators.filter? "and:a and:a" ≠
          .ok (some (.and (.equals ⟨"and"⟩ (.text "a")) (.equals ⟨"and"⟩ (.text "a")))) := by
  have hnot : (operators.filter? "not:a").toOption.isNone = true := by decide +kernel
  have hand : (operators.filter? "and:a and:a").toOption.isNone = true := by decide +kernel
  refine ⟨Schema.ofFields_fields _, ⟨by decide +kernel, fun h => ?_⟩, by decide +kernel, fun h => ?_⟩
  · rw [h] at hnot
    cases hnot
  · rw [h] at hand
    cases hand

end Compiler
end SearchFilter
