/-
# Drafts and the order of calls

A draft becomes a schema in one pass over its fields (`build_eq_ok_iff`): a field is structured if
it was declared so or some mark says that it is nested, and it is searched as the last mark for its
name says, or as it was declared. Marks for names that no field has make the draft fail, and so do
fields that are no schema.

So it does not matter in which order the calls come that build a draft up, as long as the fields
keep their order, and the marks that concern the search of one field keep theirs
(`build_of_reordered`).
-/

import SearchFilter.Proofs.Schema.Construction
import SearchFilter.Schema.Draft

namespace SearchFilter
namespace Schema.Draft

/-! ### One mark -/

section
variable {name : String} {change : Field → Field} {fs gs : List Field}

/-- A change that keeps names changes none. -/
theorem names_of_alter (hchange : ∀ f, (change f).name = f.name)
    (h : alter name change fs = .ok gs) : gs.map Field.name = fs.map Field.name := by
  induction fs generalizing gs with
  | nil => cases h
  | cons f rest ih =>
    rw [alter] at h
    split at h
    · obtain rfl := Except.ok.inj h
      rw [List.map_cons, List.map_cons, hchange]
    · obtain ⟨rest', hrest, rfl⟩ := map_eq_ok.1 h
      rw [List.map_cons, List.map_cons, ih hrest]

/-- **Among distinct names a mark changes the field of its name,** which has to be there. -/
theorem alter_eq_ok_iff (hdistinct : (fs.map Field.name).Nodup) :
    alter name change fs = .ok gs ↔
      name ∈ fs.map Field.name ∧ gs = fs.map fun f => if f.name = name then change f else f := by
  induction fs generalizing gs with
  | nil => simp [alter]
  | cons f rest ih =>
    obtain ⟨hf, hrest⟩ := List.nodup_cons.1 hdistinct
    rw [alter]
    by_cases hname : f.name = name
    · subst hname
      have hsame : rest.map (fun g => if g.name = f.name then change g else g) = rest := by
        refine List.map_congr_left (g := id) (fun g hg => if_neg fun h => hf ?_) |>.trans (List.map_id _)
        exact h ▸ List.mem_map_of_mem hg
      simp only [beq_self_eq_true, if_true, List.map_cons, hsame, List.mem_cons, true_or, true_and]
      exact ⟨fun h => (Except.ok.inj h).symm, fun h => congrArg Except.ok h.symm⟩
    · rw [if_neg (by simpa using hname), map_eq_ok]
      simp only [ih hrest, List.map_cons, List.mem_cons, if_neg hname]
      constructor
      · rintro ⟨_, ⟨hmem, rfl⟩, rfl⟩
        exact ⟨.inr hmem, rfl⟩
      · rintro ⟨hmem, rfl⟩
        exact ⟨_, ⟨hmem.resolve_left (Ne.symm hname), rfl⟩, rfl⟩

end

/-! ### Marks one after another -/

section
variable {α : Type} (key : α → String) (change : α → Field → Field) {fs gs : List Field}
  {ms : List α}

/-- Marks change no names. -/
theorem names_of_foldlM_alter (hchange : ∀ m f, (change m f).name = f.name)
    (h : ms.foldlM (fun fs m => alter (key m) (change m) fs) fs = .ok gs) :
    gs.map Field.name = fs.map Field.name := by
  induction ms generalizing fs with
  | nil => rw [pure_eq_ok.1 h]
  | cons m ms ih =>
    rw [List.foldlM_cons] at h
    obtain ⟨fs', hfs', h⟩ := bind_eq_ok.1 h
    rw [ih h, names_of_alter (hchange m) hfs']

/-- **Marks change each field by those that have its name,** in their order. -/
theorem foldlM_alter_eq_ok_iff (hchange : ∀ m f, (change m f).name = f.name)
    (hdistinct : (fs.map Field.name).Nodup) :
    ms.foldlM (fun fs m => alter (key m) (change m) fs) fs = .ok gs ↔
      (∀ m ∈ ms, key m ∈ fs.map Field.name) ∧
        gs = fs.map fun f => ms.foldl (fun f m => if f.name = key m then change m f else f) f := by
  induction ms generalizing fs with
  | nil =>
    rw [List.foldlM_nil, pure_eq_ok]
    simp [eq_comm]
  | cons m ms ih =>
    rw [List.foldlM_cons, bind_eq_ok]
    constructor
    · rintro ⟨fs', hfs', h⟩
      have hnames := names_of_alter (hchange m) hfs'
      obtain ⟨hm, rfl⟩ := (alter_eq_ok_iff hdistinct).1 hfs'
      obtain ⟨hms, rfl⟩ := (ih (hnames ▸ hdistinct)).1 h
      rw [hnames] at hms
      exact ⟨List.forall_mem_cons.2 ⟨hm, hms⟩, by simp⟩
    · rintro ⟨hall, rfl⟩
      obtain ⟨hm, hms⟩ := List.forall_mem_cons.1 hall
      have hfs' : alter (key m) (change m) fs = .ok _ := (alter_eq_ok_iff hdistinct).2 ⟨hm, rfl⟩
      have hnames := names_of_alter (hchange m) hfs'
      refine ⟨_, hfs', (ih (hnames ▸ hdistinct)).2 ⟨?_, by simp⟩⟩
      rwa [hnames]

end

/-! ### The fields of a built schema -/

/-- What the last mark for a name says. -/
def lastMark? (name : String) (marks : List (String × Bool)) : Option Bool :=
  ((marks.filter fun m => m.1 == name).getLast?).map Prod.snd

/-- A declared field after all marks. -/
def settle (d : Draft) (f : Field) : Field where
  name := f.name
  kind := if f.name ∈ d.nested then .structured else f.kind
  implicit := (lastMark? f.name d.implicit).getD f.implicit

/-- Of the marks that fields are nested, those for a field count once. -/
theorem foldl_nested (names : List String) (f : Field) :
    names.foldl (fun f n => if f.name = n then { f with kind := .structured } else f) f =
      { f with kind := if f.name ∈ names then .structured else f.kind } := by
  induction names generalizing f with
  | nil => simp
  | cons n names ih =>
    rw [List.foldl_cons, ih]
    by_cases hn : f.name = n
    · simp [hn]
    · simp [hn]

/-- Of the marks that concern the search of a field the last one counts. -/
theorem foldl_implicit (marks : List (String × Bool)) (f : Field) :
    marks.foldl (fun f m => if f.name = m.1 then { f with implicit := m.2 } else f) f =
      { f with implicit := (lastMark? f.name marks).getD f.implicit } := by
  induction marks generalizing f with
  | nil => rfl
  | cons m marks ih =>
    rw [List.foldl_cons, ih]
    by_cases hm : f.name = m.1
    · simp only [hm, if_true, lastMark?, List.filter_cons, beq_self_eq_true, List.getLast?_cons,
        Option.map_some]
      cases (marks.filter fun m' => m'.1 == m.1).getLast? <;> rfl
    · simp [hm, lastMark?, Ne.symm hm]

/-- A draft keeps the names of its fields. -/
theorem names_of_marked {d : Draft} {gs : List Field} (h : d.marked = .ok gs) :
    gs.map Field.name = d.fields.map Field.name := by
  obtain ⟨fs, hfs, h⟩ := bind_eq_ok.1 h
  rw [names_of_foldlM_alter Prod.fst (fun m f => { f with implicit := m.2 }) (fun _ _ => rfl) h,
    names_of_foldlM_alter id (fun _ f => { f with kind := .structured }) (fun _ _ => rfl) hfs]

/-- The fields of a draft are marked in one pass, if the marks are for names of fields. -/
theorem marked_eq_ok_iff {d : Draft} {gs : List Field} (hdistinct : (d.fields.map Field.name).Nodup) :
    d.marked = .ok gs ↔ (∀ n ∈ d.nested, n ∈ d.fields.map Field.name) ∧
      (∀ m ∈ d.implicit, m.1 ∈ d.fields.map Field.name) ∧ gs = d.fields.map d.settle := by
  have hnested (fs : List Field) : d.nested.foldlM (fun fs n =>
      alter n (fun f => { f with kind := .structured }) fs) d.fields = .ok fs ↔ _ :=
    foldlM_alter_eq_ok_iff id (fun _ f => { f with kind := .structured }) (fun _ _ => rfl) hdistinct
  have himplicit {fs : List Field} (h : (fs.map Field.name).Nodup) : d.implicit.foldlM (fun fs m =>
      alter m.1 (fun f => { f with implicit := m.2 }) fs) fs = .ok gs ↔ _ :=
    foldlM_alter_eq_ok_iff Prod.fst (fun m f => { f with implicit := m.2 }) (fun _ _ => rfl) h
  have hnames : (d.fields.map fun f => { f with
      kind := if f.name ∈ d.nested then Kind.structured else f.kind }).map Field.name =
      d.fields.map Field.name := by simp [Function.comp_def]
  simp only [id_eq, foldl_nested, foldl_implicit] at hnested himplicit
  rw [marked, bind_eq_ok]
  constructor
  · rintro ⟨fs, hfs, h⟩
    obtain ⟨hn, rfl⟩ := (hnested fs).1 hfs
    obtain ⟨hm, rfl⟩ := (himplicit (hnames ▸ hdistinct)).1 h
    rw [hnames] at hm
    exact ⟨hn, hm, by simp [settle, Function.comp_def]⟩
  · rintro ⟨hn, hm, rfl⟩
    refine ⟨_, (hnested _).2 ⟨hn, rfl⟩, (himplicit (hnames ▸ hdistinct)).2 ⟨?_, ?_⟩⟩
    · rwa [hnames]
    · simp [settle, Function.comp_def]

/-- **A draft is built in one pass over its fields,** if its marks are for names of fields, and the
fields are then those of a schema. -/
theorem build_eq_ok_iff {d : Draft} {s : Schema} :
    d.build = .ok s ↔ (∀ n ∈ d.nested, n ∈ d.fields.map Field.name) ∧
      (∀ m ∈ d.implicit, m.1 ∈ d.fields.map Field.name) ∧ s.fields = d.fields.map d.settle := by
  have hbind : d.build = d.marked >>= Schema.ofFields := rfl
  rw [hbind, bind_eq_ok]
  constructor
  · rintro ⟨gs, hgs, h⟩
    obtain rfl := ofFields_eq_ok_iff.1 h
    exact (marked_eq_ok_iff (names_of_marked hgs ▸ s.distinct)).1 hgs
  · rintro ⟨hn, hm, hs⟩
    have hnames : s.fields.map Field.name = d.fields.map Field.name := by
      rw [hs, List.map_map]
      rfl
    exact ⟨s.fields, (marked_eq_ok_iff (hnames ▸ s.distinct)).2 ⟨hn, hm, hs⟩,
      ofFields_eq_ok_iff.2 rfl⟩

/-! ### Calls -/

/-- A call that adds to a draft. -/
inductive Call where
  | field (f : Field)
  | implicit (name : String) (searched : Bool)
  | nested (name : String)
deriving DecidableEq

namespace Call

/-- The draft after a call. -/
def run (d : Draft) : Call → Draft
  | field f => d.add f
  | implicit name searched => d.markImplicit name searched
  | nested name => d.markNested name

/-- The field that a call adds. -/
def field? : Call → Option Field
  | field f => some f
  | _ => none

/-- The name that a call says to be nested. -/
def nested? : Call → Option String
  | nested name => some name
  | _ => none

/-- The mark of a call that concerns the search of a field. -/
def mark? : Call → Option (String × Bool)
  | implicit name searched => some (name, searched)
  | _ => none

end Call

/-- The draft after calls one after another. -/
def after (d : Draft) (calls : List Call) : Draft := calls.foldl Call.run d

/-- Calls are gathered by their kinds. -/
theorem after_eq (d : Draft) (calls : List Call) : d.after calls =
    ⟨d.fields ++ calls.filterMap Call.field?, d.nested ++ calls.filterMap Call.nested?,
      d.implicit ++ calls.filterMap Call.mark?⟩ := by
  induction calls generalizing d with
  | nil => simp [after]
  | cons call calls ih =>
    rw [after, List.foldl_cons, ← after, ih]
    cases call <;>
      simp [Call.run, Call.field?, Call.nested?, Call.mark?, add, markImplicit, markNested,
        List.filterMap_cons]

/-- The same calls in another order: the fields keep theirs, and so do the marks that concern the
search of one field. -/
structure Call.Reordered (calls calls' : List Call) : Prop where
  perm : calls.Perm calls'
  fields : calls.filterMap field? = calls'.filterMap field?
  marks : ∀ name, (calls.filterMap mark?).filter (fun m => m.1 == name) =
    (calls'.filterMap mark?).filter fun m => m.1 == name

/-- A field of a schema as declaration and calls have it. -/
structure Settles (d : Draft) (calls : List Call) (declared f : Field) : Prop where
  name : f.name = declared.name
  /-- it is structured if it was declared so or is said to be nested -/
  structured : f.kind = .structured ↔
    declared.kind = .structured ∨ f.name ∈ d.nested ∨ .nested f.name ∈ calls
  /-- and is otherwise of the kind it was declared with -/
  kind : f.kind ≠ .structured → f.kind = declared.kind
  /-- it is searched as the last mark for it says, or as it was declared -/
  implicit : f.implicit =
    (lastMark? f.name (d.implicit ++ calls.filterMap Call.mark?)).getD declared.implicit

/-- A field after all marks is as its declaration and the calls have it. -/
theorem settles_settle (d : Draft) (calls : List Call) (f : Field) :
    Settles d calls f ((d.after calls).settle f) := by
  have hnested : f.name ∈ (d.after calls).nested ↔ f.name ∈ d.nested ∨ .nested f.name ∈ calls := by
    rw [after_eq, List.mem_append, List.mem_filterMap]
    refine or_congr_right ⟨?_, fun h => ⟨_, h, rfl⟩⟩
    rintro ⟨call, hcall, h⟩
    cases call with
    | nested name => exact Option.some.inj h ▸ hcall
    | _ => cases h
  refine ⟨rfl, ?_, ?_, by rw [settle, after_eq]⟩
  · show (if f.name ∈ (d.after calls).nested then Kind.structured else f.kind) = .structured ↔
      f.kind = .structured ∨ f.name ∈ d.nested ∨ .nested f.name ∈ calls
    rw [← hnested]
    split
    · rename_i hmem
      exact iff_of_true rfl (.inr hmem)
    · rename_i hmem
      exact (or_iff_left hmem).symm
  · intro h
    exact if_neg fun hmem => h (if_pos hmem)

/-- Calls in another order build the same schema. -/
theorem build_after_eq {d : Draft} {calls calls' : List Call} (h : Call.Reordered calls calls')
    {s : Schema} (hs : (d.after calls).build = .ok s) : (d.after calls').build = .ok s := by
  have hfields : (d.after calls').fields = (d.after calls).fields := by
    rw [after_eq, after_eq, h.fields]
  have hnested (n : String) : n ∈ (d.after calls').nested ↔ n ∈ (d.after calls).nested := by
    rw [after_eq, after_eq, List.mem_append, List.mem_append,
      (h.perm.filterMap Call.nested?).mem_iff]
  have hmarks (m : String × Bool) : m ∈ (d.after calls').implicit ↔ m ∈ (d.after calls).implicit := by
    rw [after_eq, after_eq, List.mem_append, List.mem_append,
      (h.perm.filterMap Call.mark?).mem_iff]
  have hlast (n : String) : lastMark? n (d.after calls').implicit =
      lastMark? n (d.after calls).implicit := by
    rw [after_eq, after_eq, lastMark?, lastMark?, List.filter_append, List.filter_append, h.marks]
  have hsettle : (d.after calls').settle = (d.after calls).settle := by
    funext f
    simp only [settle, hnested, hlast]
  obtain ⟨h₁, h₂, h₃⟩ := build_eq_ok_iff.1 hs
  refine build_eq_ok_iff.2 ⟨fun n hn => ?_, fun m hm => ?_, ?_⟩
  · rw [hfields]
    exact h₁ n ((hnested n).1 hn)
  · rw [hfields]
    exact h₂ m ((hmarks m).1 hm)
  · rw [hfields, hsettle, h₃]

/-- What is reordered can be put back. -/
theorem Call.Reordered.symm {calls calls' : List Call} (h : Reordered calls calls') :
    Reordered calls' calls :=
  ⟨h.perm.symm, h.fields.symm, fun name => (h.marks name).symm⟩

/-- **The order of calls does not matter** but for fields among each other and for marks that
concern the search of one field. Either order builds the schema that the other one builds, and in
it each field is as its declaration and the calls for its name have it. -/
theorem build_of_reordered (d : Draft) {calls calls' : List Call}
    (h : Call.Reordered calls calls') :
    (∀ s, (d.after calls).build = .ok s ↔ (d.after calls').build = .ok s) ∧
      ∀ s, (d.after calls).build = .ok s →
        List.Forall₂ (Settles d calls) (d.fields ++ calls.filterMap Call.field?) s.fields := by
  refine ⟨fun s => ⟨build_after_eq h, build_after_eq h.symm⟩, fun s hs => ?_⟩
  obtain ⟨-, -, hfields⟩ := build_eq_ok_iff.1 hs
  rw [hfields, after_eq, List.forall₂_map_right_iff, List.forall₂_same]
  intro f _
  rw [← after_eq]
  exact settles_settle d calls f

/-- Calls may name a field that is not there yet. Here `data` is nested and searched, as the second
mark for it says, and `id` is not searched. -/
theorem build_of_early_marks :
    Call.Reordered
        [.nested "data", .implicit "data" false, .implicit "id" false, .field (.of "data" .number),
          .implicit "data" true]
        [.field (.of "data" .number), .implicit "data" false, .implicit "data" true,
          .implicit "id" false, .nested "data"] ∧
      ∃ s, ((ofFields [.of "id" .text]).after
          [.nested "data", .implicit "data" false, .implicit "id" false, .field (.of "data" .number),
            .implicit "data" true]).build = .ok s ∧
        s.fields = [⟨"id", .text, false⟩, ⟨"data", .structured, true⟩] := by
  have hcalls : Call.Reordered
      [.nested "data", .implicit "data" false, .implicit "id" false, .field (.of "data" .number),
        .implicit "data" true]
      [.field (.of "data" .number), .implicit "data" false, .implicit "data" true,
        .implicit "id" false, .nested "data"] := by
    refine ⟨by decide, rfl, fun name => ?_⟩
    by_cases hid : "id" = name
    · subst hid
      decide
    · simp [Call.mark?, List.filterMap_cons, List.filter_cons, hid]
  refine ⟨hcalls, ⟨[⟨"id", .text, false⟩, ⟨"data", .structured, true⟩], by decide +kernel, by decide⟩,
    ((build_of_reordered _ hcalls).1 _).2 (build_eq_ok_iff.2 ⟨?_, ?_, ?_⟩), rfl⟩
  · decide
  · decide
  · decide

end Schema.Draft
end SearchFilter
