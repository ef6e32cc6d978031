/-
# Three ways to say that a field is nested

A declaration with `nested` and an annotated property settle first what a field holds and then
whether it is searched, so that the field is like any other structured one
(`eq_of_declaresNested`). A mark on a draft comes when it is settled that the field is searched,
and leaves it so. On the fields of a record the three ways agree exactly as long as no mark is for
a string (`nested_marks_agree_iff`).
-/

import SearchFilter.Proofs.Schema.Draft
import SearchFilter.Schema.Inference

namespace SearchFilter
namespace Schema

/-! ### Declarations -/

/-- A field that is said to be nested where it is declared, without a word on whether it is
searched. -/
inductive DeclaresNested (name : String) : Field → Prop
  /-- by an entry of a configuration -/
  | entry {v : Json} {kind mark : Option Json} {f : Field}
      (hparts : v.parts? ["name", "kind", "implicit", "nested"] =
        some [some (.string name), kind, mark, some (.bool true)])
      (hmark : mark = none ∨ mark = some .null) (hread : Field.ofJson? v = some f) :
      DeclaresNested name f
  /-- by an annotation of a property -/
  | property {defs property : Json}
      (hnested : (property.get? "x-sieve-nested").bind Json.bool? = some true)
      (hmark : (property.get? "x-sieve-implicit").bind Json.bool? = none) :
      DeclaresNested name (fieldOfProperty defs name property)

/-- An entry that says that its field is nested makes it structured, whatever kind it gives. -/
theorem ofJson?_of_nested {v : Json} {name : String} {kind mark : Option Json} {f : Field}
    (hparts : v.parts? ["name", "kind", "implicit", "nested"] =
      some [some (.string name), kind, mark, some (.bool true)])
    (hmark : mark = none ∨ mark = some .null) (hread : Field.ofJson? v = some f) :
    f = .of name .structured := by
  rw [Field.ofJson?, hparts] at hread
  simp only [Option.bind_eq_bind, Option.bind_some, Json.text?, Json.bool?] at hread
  obtain ⟨k, hk⟩ : ∃ k, some (Field.declare name k none true) = some f := by
    cases kind with
    | none =>
      refine ⟨.unknown, ?_⟩
      rcases hmark with rfl | rfl
      · exact hread
      · exact hread
    | some written =>
      obtain ⟨k, -, hread⟩ := Option.bind_eq_some_iff.1 hread
      refine ⟨k, ?_⟩
      rcases hmark with rfl | rfl
      · exact hread
      · exact hread
  rw [← Option.some.inj hk, Field.declare_nested]

/-- **A field that is declared as nested is like any other structured one.** -/
theorem eq_of_declaresNested {name : String} {f : Field} (h : DeclaresNested name f) :
    f = .of name .structured := by
  cases h with
  | entry hparts hmark hread => exact ofJson?_of_nested hparts hmark hread
  | property hnested hmark => rw [fieldOfProperty, hmark, if_pos hnested]

/-! ### Marks -/

namespace Draft

variable {members : List (String × Json)} {names : List String} {s : Schema}

/-- The schema of a record some of whose fields are marked as nested. -/
def builtNested (record : Json) (names : List String) : Except SetupError Schema := do
  let d ← ofRecord record
  (names.foldl markNested d).build

/-- Marks are gathered in their order. -/
theorem foldl_markNested (d : Draft) (names : List String) :
    names.foldl markNested d = { d with nested := d.nested ++ names } := by
  induction names generalizing d with
  | nil => rw [List.foldl_nil, List.append_nil]
  | cons n names ih => rw [List.foldl_cons, ih, markNested, List.append_assoc, List.singleton_append]

/-- What a member of a record becomes: a mark decides its kind, but its value whether it is
searched. -/
def ofMember (names : List String) (m : String × Json) : Field where
  name := m.1
  kind := if m.1 ∈ names then .structured else kindOfValue m.2
  implicit := (kindOfValue m.2).searched

/-- **A record is built member by member,** if the marks are for its keys. -/
theorem builtNested_eq_ok_iff :
    builtNested (.object members) names = .ok s ↔
      (∀ n ∈ names, n ∈ members.map Prod.fst) ∧ s.fields = members.map (ofMember names) := by
  have hrun : builtNested (.object members) names = (names.foldl markNested
      (ofFields (members.map fun m => Field.of m.1 (kindOfValue m.2)))).build := rfl
  have hfields : (members.map fun m => Field.of m.1 (kindOfValue m.2)).map
      (settle ⟨members.map fun m => Field.of m.1 (kindOfValue m.2), names, []⟩) =
      members.map (ofMember names) := by
    rw [List.map_map]
    rfl
  rw [hrun, foldl_markNested, build_eq_ok_iff]
  simp only [ofFields, List.nil_append, hfields, List.map_map, List.not_mem_nil, false_implies,
    implies_true, true_and]
  rfl

/-- A mark that comes late agrees with the other ways unless the value is a string. -/
theorem ofMember_eq_of_iff {m : String × Json} (hm : m.1 ∈ names) :
    ofMember names m = .of m.1 .structured ↔ kindOfValue m.2 ≠ .text := by
  rw [ofMember, Field.of, if_pos hm, Field.mk.injEq]
  simp [Kind.searched]

/-- Its kind tells whether a field is searched, unless it is a string that is marked. -/
theorem implicit_ofMember_iff {m : String × Json} :
    ((ofMember names m).implicit = true ↔ (ofMember names m).kind = .text) ↔
      (m.1 ∈ names → kindOfValue m.2 ≠ .text) := by
  by_cases hm : m.1 ∈ names
  · simp [ofMember, hm, Kind.searched]
  · simp [ofMember, hm, Kind.searched]

/-- **Marks agree with declarations as long as none is for a string.** In a schema that is built
from a record and marks, the fields come in the order of the record; they are searched exactly where
they are text if and only if no mark is for a string; and a field that is marked is the one that a
declaration or an annotation gives if and only if its value is no string. -/
theorem nested_marks_agree_iff (h : builtNested (.object members) names = .ok s) :
    s.fields.map Field.name = members.map Prod.fst ∧
      ((∀ f ∈ s.fields, f.implicit = true ↔ f.kind = .text) ↔
        ∀ m ∈ members, m.1 ∈ names → kindOfValue m.2 ≠ .text) ∧
      ∀ m ∈ members, m.1 ∈ names → ∃ f, s.get? m.1 = some f ∧
        f.kind = .structured ∧ (f.implicit = true ↔ kindOfValue m.2 = .text) ∧
        ∀ g, DeclaresNested m.1 g → (f = g ↔ kindOfValue m.2 ≠ .text) := by
  obtain ⟨-, hfields⟩ := builtNested_eq_ok_iff.1 h
  refine ⟨?_, ?_, fun m hm hname => ?_⟩
  · rw [hfields, List.map_map]
    rfl
  · rw [hfields, List.forall_mem_map]
    exact forall₂_congr fun m _ => implicit_ofMember_iff
  · refine ⟨ofMember names m, get?_eq_some_iff.2 ⟨?_, rfl⟩, if_pos hname, ?_, fun g hg => ?_⟩
    · rw [hfields]
      exact List.mem_map_of_mem hm
    · simp [ofMember, Kind.searched]
    · rw [eq_of_declaresNested hg]
      exact ofMember_eq_of_iff hname

/-- An object that is marked agrees, and a string does not. -/
theorem nested_marks_of_object_and_string :
    (∃ s, builtNested (.object [("data", .object []), ("note", .string "x")]) ["note", "data"] =
        .ok s ∧
      s.get? "data" = some (.of "data" .structured) ∧
      ∃ f ∈ s.fields, ¬ (f.implicit = true ↔ f.kind = .text)) ∧
    DeclaresNested "data" (fieldOfProperty .null "data"
      (.object [("type", .string "string"), ("x-sieve-nested", .bool true)])) ∧
    DeclaresNested "data" (.of "data" .structured) := by
  obtain ⟨s, hfields⟩ : ∃ s : Schema, s.fields =
      [⟨"data", .structured, false⟩, ⟨"note", .structured, true⟩] :=
    ⟨⟨_, by decide +kernel, by decide⟩, rfl⟩
  have hs : builtNested (.object [("data", .object []), ("note", .string "x")]) ["note", "data"] =
      .ok s := builtNested_eq_ok_iff.2 ⟨by decide, hfields⟩
  have hproperty : DeclaresNested "data" (fieldOfProperty .null "data"
      (.object [("type", .string "string"), ("x-sieve-nested", .bool true)])) :=
    .property (by decide +kernel) (by decide +kernel)
  have hentry : DeclaresNested "data" (.of "data" .structured) :=
    @DeclaresNested.entry _ (.object [("name", .string "data"), ("nested", .bool true)]) none none _
      rfl (.inl rfl) rfl
  obtain ⟨-, himplicit, hmarked⟩ := nested_marks_agree_iff hs
  obtain ⟨f, hf, -, -, hagree⟩ := hmarked ("data", .object []) (by simp) (by simp)
  refine ⟨⟨s, hs, ?_, ?_⟩, hproperty, hentry⟩
  · rw [hf, (hagree _ hentry).2 (by simp [kindOfValue])]
  · by_contra hall
    refine himplicit.1 (fun f hf => ?_) ("note", .string "x") (by simp) (by simp) rfl
    by_contra hne
    exact hall ⟨f, hf, hne⟩

/-- A field that is marked as nested may be searched, which one that is declared so is not. -/
theorem builtNested_of_string :
    ∃ s f, builtNested (.object [("payload", .string "x")]) ["payload"] = .ok s ∧
      s.get? "payload" = some f ∧ f.kind ≠ .text ∧ f.implicit = true ∧
        ∀ g, DeclaresNested "payload" g → f ≠ g := by
  obtain ⟨s, hfields⟩ : ∃ s : Schema, s.fields = [⟨"payload", .structured, true⟩] :=
    ⟨⟨_, by decide +kernel, by decide⟩, rfl⟩
  refine ⟨s, ⟨"payload", .structured, true⟩, builtNested_eq_ok_iff.2 ⟨by decide, hfields⟩,
    get?_eq_some_iff.2 ⟨by simp [hfields], rfl⟩, nofun, rfl, fun g hg hfg => ?_⟩
  rw [eq_of_declaresNested hg] at hfg
  cases hfg

end Draft
end Schema
end SearchFilter
