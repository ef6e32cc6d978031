/-
# Two lookups of the same fields

The fields of a query are looked up in its text, before the grammar sees it, and again
as the columns of its filter. On a text that the grammar accepts both go through the
fields that its clause names, in the same order:

| lookup | goes through |
| --- | --- |
| references of the masked text (`agrees_of_finds`) | the fields, or names with a blank in them |
| columns of the filter (`checkColumns_of_lower`) | the fields, and the column for words without one |

So the two differ only where the first one reports a blank in a name
(`agree_of_filter?`).
-/

import Mathlib.Data.List.Nodup
import Mathlib.Data.List.TakeDrop
import SearchFilter.Proofs.Compiler.Stages
import SearchFilter.Proofs.Grammar.Binding
import SearchFilter.Proofs.Grammar.Reference
import SearchFilter.Tree.Columns

namespace SearchFilter
namespace Schema

open Grammar (Clause FieldText columnOf columnOf_toList)
open Query (Reference referenceAt?)

variable {s : Schema}

/-! ### Fields of a clause -/

/-- Looks up fields in their order; the first refusal counts. -/
def checkFields (s : Schema) (fields : List (List Char)) : Except FieldError Unit :=
  fields.forM fun field => (columnOf field).check s

/-- The first field is looked up first. -/
theorem checkFields_cons (field : List Char) (fields : List (List Char)) :
    s.checkFields (field :: fields) =
      ((columnOf field).check s >>= fun _ => s.checkFields fields) := rfl

/-- Fields behind others are looked up behind them. -/
theorem checkFields_append (fs gs : List (List Char)) :
    s.checkFields (fs ++ gs) = (s.checkFields fs >>= fun _ => s.checkFields gs) :=
  List.forM_append

/-- Fields that all pass one by one pass together. -/
theorem checkFields_eq_ok {fields : List (List Char)}
    (h : ∀ f ∈ fields, (columnOf f).check s = .ok ()) : s.checkFields fields = .ok () := by
  induction fields with
  | nil => rfl
  | cons f fields ih =>
    rw [checkFields_cons, h f (List.mem_cons_self ..), ih fun g hg => h g (List.mem_cons_of_mem f hg)]
    rfl

/-- Fields that pass together pass one by one. -/
theorem check_of_checkFields {fields : List (List Char)} (h : s.checkFields fields = .ok ()) :
    ∀ field ∈ fields, (columnOf field).check s = .ok () := by
  induction fields with
  | nil => simp
  | cons field fields ih =>
    obtain ⟨_, hfield, hfields⟩ := bind_eq_ok.1 (checkFields_cons field fields ▸ h)
    exact List.forall_mem_cons.2 ⟨hfield, ih hfields⟩

/-- The filter of an atom has the column of the atom looked up. -/
theorem checkColumns_of_tests {k : Column} {a : Grammar.Atom} {f : Filter} (h : a.Tests k f) :
    f.checkColumns s = k.check s := by
  cases h <;> rfl

/-- The columns of a filter are looked up as the fields of its clause. -/
theorem checkColumns_of_lower {column : Option Column} {c : Clause} {f : Filter}
    (h : c.lower column = .ok f) (hcolumn : ∀ k ∈ column, k.check s = .ok ()) :
    f.checkColumns s = s.checkFields c.fields := by
  rw [Clause.lower_eq_ok_iff] at h
  induction h with
  | @own _ field _ _ ha =>
    rw [checkColumns_of_tests ha]
    cases hcheck : (columnOf field).check s <;> simp [Clause.fields, checkFields, hcheck]
  | given ha =>
    rw [checkColumns_of_tests ha, hcolumn _ rfl]
    rfl
  | bareTerm | barePhrase => rfl
  | @fieldGroup _ field _ _ _ ih =>
    rw [Clause.fields, checkFields_cons, Filter.checkColumns]
    -- where the field of the group is refused, its inside is not looked at
    cases hcheck : (columnOf field).check s with
    | error e => rfl
    | ok u => exact ih (by rintro _ ⟨⟩; exact hcheck)
  | and _ _ ihl ihr | or _ _ ihl ihr =>
    rw [Clause.fields, checkFields_append, Filter.checkColumns, ihl hcolumn, ihr hcolumn]
  | must _ ih | mustNot _ ih | fuzzy _ ih | boost _ ih => exact ih hcolumn

/-! ### Fields of a text -/

/-- A name ends at its point. -/
theorem span_append {name r : List Char} (hname : '.' ∉ name) (hr : ∀ c ∈ r.head?, c = '.') :
    (name ++ r).span (· != '.') = (name, r) := by
  rw [List.span_eq_takeWhile_dropWhile]
  refine Query.spanOf_append (fun c hc => bne_iff_ne.2 ?_) fun c hc => by simp [hr c hc]
  rintro rfl
  exact hname hc

/-- A name without a point is a column without a part. -/
theorem split_columnOf {name : List Char} (h : '.' ∉ name) :
    (columnOf name).split = (String.ofList name, none) := by
  have hspan := span_append h (r := []) (by simp)
  rw [List.append_nil] at hspan
  rw [Column.split, columnOf, String.toList_ofList, hspan]

/-- A name with a point is a column with a part. -/
theorem split_columnOf_dotted {name : List Char} (h : '.' ∉ name) (part : List Char) :
    (columnOf (name ++ '.' :: part)).split = (String.ofList name, some (String.ofList part)) := by
  have hspan := span_append h (r := '.' :: part) (by simp)
  rw [Column.split, columnOf, String.toList_ofList, hspan]

/-- There is no point in an identifier. -/
theorem not_mem_of_isIdentifier {name : List Char} (h : Text.isIdentifier name = true) :
    '.' ∉ name := Text.not_mem_of_not_isNamePart h (by decide)

/-- The reference to a field is looked up as its column. -/
theorem check_to {field : List Char} (h : FieldText field) :
    (Reference.to field).check s = (columnOf field).check s := by
  cases h with
  | plain hid =>
    have hspan := Query.spanOf_append (r := []) (fun c => Text.isNamePart_of_mem hid) (by simp)
    rw [List.append_nil] at hspan
    obtain ⟨hbase, hdotted⟩ := Prod.mk.inj hspan
    rw [Reference.to, hbase, hdotted, Reference.check, Column.check,
      split_columnOf (not_mem_of_isIdentifier hid)]
    cases hget : s.get? (String.ofList field) with
    | none => simp [columnOf]
    | some f => simp
  | @dotted name part hid hne hpart =>
    have hspan := Query.spanOf_append (r := '.' :: part) (fun c => Text.isNamePart_of_mem hid)
      (by rintro c ⟨⟩; decide)
    obtain ⟨hbase, hdotted⟩ := Prod.mk.inj hspan
    have hblank : ('.' :: part).any Text.isBlank = false := by
      rw [List.any_eq_false]
      intro c hc
      rcases List.mem_cons.1 hc with rfl | hc
      · decide
      · simp [Text.isBlank_eq_false_of_isNamePart (List.all_eq_true.1 hpart c hc)]
    rw [Reference.to, hbase, hdotted, Reference.check, Column.check,
      split_columnOf_dotted (not_mem_of_isIdentifier hid)]
    cases hget : s.get? (String.ofList name) with
    | none => simp [hblank, columnOf]
    | some f => cases hparts : f.hasParts <;> simp [hblank, hne, hparts, columnOf]

/-- A lookup of a text that agrees with another one, or reports a blank in a name, which takes
that the text has `points` apart from those of its fields. -/
def Agrees (points : Prop) (text fields : Except FieldError Unit) : Prop :=
  text = fields ∨ points ∧ ∃ e, text = .error e ∧ e.reason = .whitespace

/-- References that are found for fields are looked up as these, or have a blank in a name. -/
theorem agrees_of_finds {fields : List (List Char)} {refs : List Reference} {points : Prop}
    (h : List.Forall₂ (Reference.Finds points) fields refs) :
    Agrees points (refs.forM (Reference.check s)) (s.checkFields fields) := by
  induction h with
  | nil => exact .inl rfl
  | @cons field ref fields refs hfound _ ih =>
    have hcons : (ref :: refs).forM (Reference.check s) =
        (ref.check s >>= fun _ => refs.forM (Reference.check s)) := rfl
    rw [hcons, checkFields_cons]
    rcases hfound with ⟨hf, rfl⟩ | ⟨hpoints, hblank⟩
    · rw [check_to hf]
      cases hcheck : (columnOf field).check s with
      | error e => exact .inl rfl
      | ok u => exact ih
    · rw [Reference.check, hblank]
      exact .inr ⟨hpoints, _, rfl, rfl⟩

/-- Fields that are all that a finished text names are looked up in their order. -/
theorem checkReferences_of_citations {q : String} {fields : List (List Char)}
    (hfinished : Query.IsFinished q.toList) (hfields : ∀ f ∈ fields, FieldText f)
    (h : Query.citations true (Query.Place.bare.shown q.toList) = fields.map .to) :
    Query.checkReferences s q = s.checkFields fields := by
  have hfinds : List.Forall₂ (Reference.Finds False) fields (fields.map .to) := by
    rw [List.forall₂_map_right_iff, List.forall₂_same]
    exact fun f hf => .inl ⟨hfields f hf, rfl⟩
  rw [Query.checkReferences, Query.mask_of_isFinished hfinished, Query.references_eq_citations, h]
  exact (agrees_of_finds hfinds).resolve_right fun h => h.1

/-- The references of a text are looked up as the fields of its clause. -/
theorem agrees_of_clause? {text : String} {c : Clause}
    (h : Grammar.clause? text.toList = .ok c) {points : Prop}
    (hpoints : points ∨
      (Query.Place.bare.shown text.toList).count '.' = c.fields.flatten.count '.') :
    Agrees points (Query.checkReferences s text) (s.checkFields c.fields) := by
  have hreads := Grammar.reads_of_clause? h
  obtain ⟨w, opened, hshown, hcites, -⟩ := hreads.quotes true (.inl rfl)
  obtain ⟨u, hu, hfinished⟩ := hreads.closes
  rw [List.append_nil] at hu
  rw [Query.Place.shown_nil, List.append_nil] at hshown
  have hmask : Query.mask false false text.toList = w := by
    rw [Query.mask_of_isFinished (hu ▸ hfinished), hshown]
  rw [Query.checkReferences, hmask, Query.references_eq_citations]
  exact agrees_of_finds (Query.forall₂_citations hcites (hshown ▸ hpoints))

/-- A field is found under its name. -/
theorem get?_of_mem {f : Field} (h : f ∈ s.fields) : s.get? f.name = some f := by
  obtain ⟨g, hg⟩ : ∃ g, s.get? f.name = some g := by
    rw [← Option.isSome_iff_exists, get?, List.find?_isSome]
    exact ⟨f, h, beq_self_eq_true _⟩
  rw [hg, List.inj_on_of_nodup_map s.distinct (mem_of_get? hg) h (name_of_get? hg)]

/-- The fields of a schema pass. -/
theorem check_of_mem {f : Field} (h : f ∈ s.fields) : (Column.mk f.name).check s = .ok () := by
  have hsplit := split_columnOf (not_mem_of_isIdentifier (s.named f h))
  rw [columnOf_toList, String.ofList_toList] at hsplit
  rw [Column.check, hsplit, get?_of_mem h]

/-- The default field passes. -/
theorem check_defaultField {c : Column} (h : c ∈ s.defaultField?.map Column.mk) :
    c.check s = .ok () := by
  obtain ⟨name, hname, rfl⟩ := Option.map_eq_some_iff.1 h
  obtain ⟨f, hf, rfl⟩ := Option.map_eq_some_iff.1 hname
  refine check_of_mem ?_
  rcases Option.or_eq_some_iff.1 hf with hf | ⟨-, hf⟩
  · exact (List.mem_filter.1 (List.mem_of_mem_head? hf)).1
  · exact List.mem_of_mem_head? hf

/-- **Text and tree are looked up alike.** A text that passes makes a filter that passes,
and a text that is refused for a name makes a filter that is refused for the same one. -/
theorem agree_of_filter? {text : String} {f : Filter}
    (h : Grammar.filter? (s.defaultField?.map Column.mk) text = .ok (some f)) :
    (Query.checkReferences s text = .ok () → f.checkColumns s = .ok ()) ∧
      ∀ e, Query.checkReferences s text = .error e →
        e.reason = .unknown ∨ e.reason = .notNested → f.checkColumns s = .error e := by
  obtain ⟨c, hclause, hlower⟩ := Grammar.exists_clause_of_filter? h
  have hagrees : Agrees True (Query.checkReferences s text) (f.checkColumns s) := by
    rw [checkColumns_of_lower hlower fun _ => check_defaultField]
    exact agrees_of_clause? hclause (.inl trivial)
  rcases hagrees with heq | ⟨-, e, he, hreason⟩
  · rw [heq]
    exact ⟨id, fun _ he _ => he⟩
  · rw [he]
    refine ⟨nofun, ?_⟩
    rintro _ ⟨⟩ h
    rw [hreason] at h
    exact absurd h (by decide)

/-- Colons in a phrase and in a range name nothing, and the part of a field without parts
is refused by both lookups. -/
theorem agree_of_filter?_of_part :
    let s := (Compiler.sample 1 ⟨100, 1, 9⟩ (by decide)).schema
    let text := "\"x:y\" -f.a:[\"b:c\" TO d]"
    ∃ f, Grammar.filter? (s.defaultField?.map Column.mk) text = .ok (some f) ∧
      Query.checkReferences s text = .error ⟨"f.a", .notNested, ["f"]⟩ ∧
      f.checkColumns s = .error ⟨"f.a", .notNested, ["f"]⟩ := by
  intro s text
  obtain ⟨f, hf⟩ : ∃ f, Grammar.filter? (s.defaultField?.map Column.mk) text = .ok (some f) :=
    exists_of_isSome_join (by decide +kernel)
  have href : Query.checkReferences s text = .error ⟨"f.a", .notNested, ["f"]⟩ := by
    decide +kernel
  exact ⟨f, hf, href, (agree_of_filter? hf).2 _ href (.inr rfl)⟩

end Schema
end SearchFilter
