/-
# Dialects differ in spelling alone

The dialects bind the same values in the same order, and refuse a filter for the same reason.
The exception is likeness, which `sqlite` does not have.

| filter | `mysql` and `postgresql` | `sqlite` |
| --- | --- | --- |
| without `fuzzy` | the same values or the same error | as `postgresql` |
| with `fuzzy` in any place | the same values or the same error | an error |

Main statement: `render_dialects`.
-/

import SearchFilter.Proofs.Render.Agreement
import SearchFilter.Render.Sql

namespace SearchFilter
namespace Sql

variable {d d' : Dialect}

/-- Dialects agree on columns. -/
theorem alike_column (d d' : Dialect) (c : Column) :
    Alike (fun _ _ => True) (d.column c) (d'.column c) := by
  unfold Dialect.column
  split
  · split
    · exact .ok trivial
    · exact .error _
  · exact .ok trivial

/-- Dialects agree on patterns. -/
theorem alike_like (d d' : Dialect) (c : Column) (p : String) :
    Alike (Tied Eq) (like d c p) (like d' c p) := by
  refine (alike_column d d' c).bind fun text text' _ => ?_
  cases d <;> cases d' <;> exact .ok rfl

/-- Dialects other than `sqlite` agree on likenesses. -/
theorem alike_fuzzy (hd : d ≠ .sqlite) (hd' : d' ≠ .sqlite) (f : Filter) :
    Alike (Tied Eq) (fuzzy d f) (fuzzy d' f) := by
  unfold fuzzy
  split
  · split
    · exact .error _
    · refine (alike_column d d' _).bind fun text text' _ => ?_
      cases d with
      | sqlite => exact absurd rfl hd
      | _ =>
        cases d' with
        | sqlite => exact absurd rfl hd'
        | _ => exact .ok rfl
  · exact .error _

/-- Two dialects agree on a predicate, unless it asks for likeness and one of them is `sqlite`. -/
theorem alike_predicate {g : Filter} (hg : g.isPredicate = true)
    (h : g.isFuzzy = false ∨ d ≠ .sqlite ∧ d' ≠ .sqlite) :
    Alike (Tied Eq) (d.target.render g) (d'.target.render g) := by
  have hbind (v : Value) : Alike (Tied Eq) (Sql.bind v) (Sql.bind v) :=
    .refl (fun a => Eq.refl a.values) _
  cases g with
  | literal v => exact .error _
  | equals c v =>
    cases v with
    | group f => cases hg
    | text s => exact Target.alike_equals isPartwise_eq (alike_column d d' c) (hbind _)
    | number x => exact Target.alike_equals isPartwise_eq (alike_column d d' c) (hbind _)
  | compare op c v => exact Target.alike_compare isPartwise_eq op (alike_column d d' c) (hbind v)
  | like c p => exact alike_like d d' c p
  | wild c p => exact alike_like d d' c p
  | fuzzy f n =>
    obtain h | ⟨hd, hd'⟩ := h
    · cases h
    · exact alike_fuzzy hd hd' f
  | range c min max inclusive =>
    exact Target.alike_range isPartwise_eq inclusive (alike_column d d' c) (fun v _ => hbind v)
      fun v _ => hbind v
  | boost f p => exact .error _
  | and l r => cases hg
  | or l r => cases hg
  | must f => cases hg
  | mustNot f => cases hg

/-- The parameters of a clause are the values of its condition. -/
theorem map_params_render (d : Dialect) (f : Filter) :
    (render d f).map Clause.params = (d.target.render f).map Fragment.values := by
  rw [render]
  cases d.target.render f with
  | error e => rfl
  | ok a => rfl

/-- Two dialects have the same values or the same error. -/
theorem map_params_eq {f : Filter}
    (h : (∀ g ∈ f.nodes, g.isFuzzy = false) ∨ d ≠ .sqlite ∧ d' ≠ .sqlite) :
    (render d f).map Clause.params = (render d' f).map Clause.params := by
  have hpredicates : ∀ g ∈ f.predicates, Alike (Tied Eq) (d.target.render g) (d'.target.render g) :=
    fun g hg => alike_predicate (Filter.isPredicate_of_mem_predicates hg)
      (h.imp_left fun h => h g (Filter.mem_nodes_of_mem_predicates hg))
  rw [map_params_render, map_params_render]
  exact (Target.alike_render isPartwise_eq hpredicates).map_eq fun _ _ hvalues => hvalues

/-- `sqlite` takes no groups for values and has no likeness. -/
theorem isPlain_sqlite : (Dialect.target .sqlite).IsPlain where
  value _ := rfl
  bound _ := rfl
  fuzzy f := by
    show ∃ e, fuzzy .sqlite f = .error e
    unfold fuzzy
    split
    · split
      · exact ⟨_, rfl⟩
      · cases Dialect.column .sqlite _ with
        | error e => exact ⟨e, rfl⟩
        | ok text => exact ⟨_, rfl⟩
    · exact ⟨_, rfl⟩

/-- Whatever `sqlite` writes asks for likeness nowhere. -/
theorem isFuzzy_of_render {f : Filter} {clause : Clause} (h : render .sqlite f = .ok clause) :
    ∀ g ∈ f.nodes, g.isFuzzy = false := by
  obtain ⟨a, ha, -⟩ := bind_eq_ok.1 h
  intro g hg
  obtain hconnective | ⟨b, hb⟩ := Target.forall_mem_nodes_of_render isPlain_sqlite ha g hg
  · cases g with
    | fuzzy f n => cases hconnective
    | _ => rfl
  · cases g with
    | fuzzy f n =>
      obtain ⟨e, he⟩ := isPlain_sqlite.fuzzy f
      cases he.symm.trans hb
    | _ => rfl

/-- **Dialects differ in spelling alone.** `mysql` and `postgresql` always bind the same values or
report the same error, and so does `sqlite` unless likeness is asked for, which it refuses. -/
theorem render_dialects (f : Filter) :
    (render .mysql f).map Clause.params = (render .postgresql f).map Clause.params ∧
      ((∀ g ∈ f.nodes, g.isFuzzy = false) →
        (render .sqlite f).map Clause.params = (render .postgresql f).map Clause.params) ∧
      ((∃ g ∈ f.nodes, g.isFuzzy = true) → ∃ e, render .sqlite f = .error e) := by
  refine ⟨map_params_eq (.inr ⟨nofun, nofun⟩), fun h => map_params_eq (.inl h), ?_⟩
  rintro ⟨g, hg, hfuzzy⟩
  cases h : render .sqlite f with
  | error e => exact ⟨e, rfl⟩
  | ok clause => cases hfuzzy.symm.trans (isFuzzy_of_render h g hg)

/-- One filter that all dialects write, and one with likeness inside a group. -/
theorem render_sqlite_of_nodes :
    let plain := Filter.or (.equals ⟨"a"⟩ (.text "x")) (.mustNot (.like ⟨"b"⟩ "y*"))
    let fuzzy := Filter.equals ⟨"a"⟩ (.group (.fuzzy (.equals ⟨"b"⟩ (.text "x")) none))
    (∀ g ∈ plain.nodes, g.isFuzzy = false) ∧
      (render .sqlite plain).map Clause.params = .ok [.string "x", .string "y%"] ∧
      (∃ g ∈ fuzzy.nodes, g.isFuzzy = true) ∧ ∃ e, render .sqlite fuzzy = .error e := by
  intro plain fuzzy
  have hplain : ∀ g ∈ plain.nodes, g.isFuzzy = false := by decide
  have hfuzzy : ∃ g ∈ fuzzy.nodes, g.isFuzzy = true := by decide
  have hparams : (render .postgresql plain).map Clause.params = .ok [.string "x", .string "y%"] :=
    rfl
  exact ⟨hplain, ((render_dialects plain).2.1 hplain).trans hparams, hfuzzy,
    (render_dialects fuzzy).2.2 hfuzzy⟩

end Sql
end SearchFilter
