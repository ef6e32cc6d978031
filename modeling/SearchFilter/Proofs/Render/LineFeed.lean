/-
# Line feeds in rendered text

A dialect puts every value of a query behind a placeholder, and what is left of a clause are
fixed words and names: there is no line feed in it. PartiQL writes the strings of a query into
the statement as they are, and just their line feeds are in it:

| filter | SQL | line feeds | PartiQL | line feeds |
| --- | --- | --- | --- | --- |
| `f = "a⏎b"` | `"f" = $1` | none | `f = 'a⏎b'` | one |
| `f` contains `"⏎⏎"` | `"f"::text ILIKE $1` | none | `contains(f, '⏎⏎')` | two |
-/

import SearchFilter.Proofs.Render.Clause
import SearchFilter.Proofs.Render.Statement

namespace SearchFilter

open Lexeme

namespace Sql

/-- Neither a fixed lexeme nor a name has a line feed in it. -/
theorem not_mem_write_of_mem_sentence {d : Dialect} {f : Filter}
    (hcolumns : ∀ g ∈ f.predicates, ∀ c ∈ g.column?, Text.isIdentifier c.split.1.toList = true)
    (h : ∀ g ∈ f.predicates, IsWritten d g) :
    ∀ l ∈ f.sentence d.predicate, '\n' ∉ l.write d.quote := by
  refine forall_mem_of_written (by simp) ?_ (fun {name} hname => ?_) hcolumns h
  · have hvocabulary : ∀ l ∈ vocabulary, '\n' ∉ l.write '"' ∧ '\n' ∉ l.write '\x60' := by
      decide +kernel
    cases d with
    | mysql => exact fun l hl => (hvocabulary l hl).2
    | _ => exact fun l hl => (hvocabulary l hl).1
  · have hfeed : '\n' ∉ name := Text.not_mem_of_not_isNamePart hname (by decide)
    have hquote : '\n' ≠ d.quote := by cases d <;> decide
    have hpart : '\n' ∉ d.partText name := by cases d <;> simpa [Dialect.partText] using hfeed
    exact ⟨fun hmem => (mem_enclose hmem).elim hquote hfeed, hfeed,
      fun hmem => (mem_enclose hmem).elim (by decide) hpart⟩

/-- **A clause is one line.** -/
theorem not_mem_sql {d : Dialect} {s : Schema} {f : Filter} {clause : Clause}
    (hcolumns : f.checkColumns s = .ok ()) (h : render d f = .ok clause) :
    '\n' ∉ clause.sql.toList := by
  have hnames : ∀ g ∈ f.predicates, ∀ c ∈ g.column?, Text.isIdentifier c.split.1.toList = true :=
    fun g hg c hc => isIdentifier_of_names (names_of_checkColumns hcolumns g hg c hc)
  have hspelled := isSpelled_of_render hnames h
  rw [hspelled.text, spell, List.mem_flatMap]
  rintro ⟨l, hl, hmem⟩
  obtain ⟨n, rfl⟩ | ⟨-, hl⟩ := Dialect.mem_placeFrom hl
  · have hdigits := isProper_slotAt d n
    cases d with
    | postgresql =>
      have hmem : '\n' ∈ Decimal.ofNat n := by simpa [Dialect.slotAt] using hmem
      exact absurd (List.all_eq_true.1 hdigits.2 _ hmem) (by decide)
    | _ => simp [Dialect.slotAt] at hmem
  · exact not_mem_write_of_mem_sentence hnames hspelled.written l hl hmem

end Sql

namespace PartiQL

/-- The line feeds of the values of a condition. -/
def Condition.lineFeeds (c : Condition) : Nat :=
  (c.attributes.map fun a => a.content.toList.count '\n').sum

/-- An enclosed text has the line feeds of the text. -/
theorem count_enclose (s : List Char) : (Text.enclose '\'' s).count '\n' = s.count '\n' := by
  have hdoubled : (Text.doubled '\'' s).count '\n' = s.count '\n' := by
    induction s with
    | nil => rfl
    | cons c s ih =>
      rw [Text.doubled_cons, List.count_append, ih, List.count_cons]
      by_cases hc : c = '\''
      · subst hc
        simp
      · rw [if_neg hc, List.count_singleton, Nat.add_comm]
  simp [Text.enclose, hdoubled]

/-- The line feeds of a lexeme are those of the value that it is. -/
def KeepsLineFeeds (l : Lexeme) : Prop :=
  (l.write '"').count '\n' =
    ((attribute? l).map fun a => a.content.toList.count '\n').getD 0

/-- An attribute has the line feeds of its value. -/
theorem keepsLineFeeds_lexeme (a : Attribute) : KeepsLineFeeds a.lexeme := by
  rw [KeepsLineFeeds, attribute?_lexeme]
  cases a with
  | text s => exact count_enclose s.toList
  | number s => rfl

/-- Every lexeme of a sentence has the line feeds of the value that it is. -/
theorem keepsLineFeeds_of_mem_sentence {f : Filter}
    (h : ∀ g ∈ f.predicates, ∀ c ∈ g.column?, (columnLexeme c).IsProper) :
    ∀ l ∈ f.sentence predicate, KeepsLineFeeds l := by
  have hvocabulary : ∀ l ∈ vocabulary, (l.write '"').count '\n' = 0 ∧ attribute? l = none := by
    decide +kernel
  have hfixed : ∀ l ∈ vocabulary, KeepsLineFeeds l := by
    intro l hl
    obtain ⟨hcount, hnone⟩ := hvocabulary l hl
    rw [KeepsLineFeeds, hcount, hnone]
    rfl
  have hconnectives : ∀ l ∈ connectives, l ∈ vocabulary := by decide +kernel
  refine Filter.forall_mem_sentence (fun l hl => hfixed l (hconnectives l hl)) fun g hg => ?_
  refine forall_mem_predicate keepsLineFeeds_lexeme hfixed fun c hc => ?_
  have hpath := (path_spec (h g hg c hc)).1
  exact List.count_eq_zero.2 fun hmem => absurd (List.all_eq_true.1 hpath '\n' hmem) (by decide)

/-- Lexeme by lexeme, a text has the line feeds of its values. -/
theorem count_spell {ls : List Lexeme} (h : ∀ l ∈ ls, KeepsLineFeeds l) :
    (spell '"' ls).count '\n' =
      ((ls.filterMap attribute?).map fun a => a.content.toList.count '\n').sum := by
  induction ls with
  | nil => rfl
  | cons l ls ih =>
    obtain ⟨hl, hls⟩ := List.forall_mem_cons.1 h
    rw [spell_cons, List.count_append, hl, ih hls, List.filterMap_cons]
    cases attribute? l with
    | none => simp
    | some a => simp

/-- **A statement has the line feeds of its values,** and no others. -/
theorem count_statement {f : Filter} {condition : Condition} (h : render f = .ok condition) :
    condition.statement.toList.count '\n' = condition.lineFeeds := by
  obtain ⟨a, ha, h⟩ := bind_eq_ok.1 h
  obtain rfl := Except.ok.inj h
  have hwrites := writes_of_render '"' ha
  have hnone : ∀ l ∈ connectives, attribute? l = none := by decide +kernel
  have hvalues : (f.sentence predicate).filterMap attribute? = a.values := by
    rw [Filter.filterMap_sentence hnone, hwrites.values, List.filterMap_flatMap]
    simp only [filterMap_predicate]
  rw [String.toList_ofList, hwrites.text, count_spell (keepsLineFeeds_of_mem_sentence hwrites.each),
    hvalues, Condition.lineFeeds]

end PartiQL
end SearchFilter
