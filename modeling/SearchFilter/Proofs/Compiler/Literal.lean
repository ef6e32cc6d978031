/-
# Any string can be asked for

Behind a column that queries can name, each of the two texts for a string makes the filter
that tests for this string, whatever characters it has (`filter?_of_stringText`). In what is
rendered the string is a value, or the test for no value where it is the word `null`:

| target | text | values |
| --- | --- | --- |
| SQL | the column, `=` and a placeholder | the string |
| PartiQL | the column, `=` and the string between apostrophes | the string |
| both, for `null` | the column and `IS NULL` | none |
-/

import SearchFilter.Proofs.Compiler.Expansion
import SearchFilter.Proofs.Grammar.Quotation
import SearchFilter.Proofs.Render.Clause

namespace SearchFilter

open Grammar (FieldText StringText columnOf_toList)

/-! ### Columns that queries can name -/

variable {c : Column}

/-- A column is its base, and its part behind a point. -/
theorem Column.toList_name (c : Column) :
    c.name.toList = c.split.1.toList ++ (match c.split.2 with
      | some part => '.' :: part.toList
      | none => []) := by
  have hspan := List.takeWhile_append_dropWhile (p := (· != '.')) (l := c.name.toList)
  rw [Column.split, List.span_eq_takeWhile_dropWhile]
  cases hrest : c.name.toList.dropWhile (· != '.') with
  | nil => simp
  | cons d part =>
    have hd := List.head?_dropWhile_not (· != '.') c.name.toList
    rw [hrest] at hspan hd
    obtain rfl : d = '.' := by simpa using hd
    simpa using hspan.symm

/-- A column that can be written unquoted is a field name of the grammar. -/
theorem Column.IsSafe.fieldText (h : c.IsSafe) : FieldText c.name.toList := by
  obtain ⟨hbase, hpart⟩ := h
  have hname := c.toList_name
  cases hsplit : c.split.2 with
  | none =>
    rw [hsplit, List.append_nil] at hname
    rw [hname]
    exact .plain hbase
  | some part =>
    have hid := hpart part hsplit
    rw [hsplit] at hname
    rw [hname]
    exact .dotted hbase (Text.isIdentifier_ne_nil hid)
      (List.all_eq_true.2 fun _ hd => Text.isNamePart_of_mem hid hd)

/-- A safe column is a path as it stands. -/
theorem Column.IsSafe.path_eq (h : c.IsSafe) : PartiQL.path c = .ok c.name.toList := by
  obtain ⟨hbase, hpart⟩ := h
  have hname := c.toList_name
  have hpoint := Schema.not_mem_of_isIdentifier hbase
  have hall : (PartiQL.segments c.name.toList).all Text.isIdentifier = true := by
    cases hsplit : c.split.2 with
    | none =>
      rw [hsplit, List.append_nil] at hname
      simp [hname, Lexeme.segments_of_not_mem hpoint, hbase]
    | some part =>
      have hid := hpart part hsplit
      rw [hsplit] at hname
      simp [hname, Lexeme.segments_append hpoint,
        Lexeme.segments_of_not_mem (Schema.not_mem_of_isIdentifier hid), hbase, hid]
  rw [PartiQL.path, if_pos hall]

/-- Fields of the schema, and parts of structured ones, pass. -/
theorem Schema.Names.check_eq {s : Schema} (h : s.Names c) : c.check s = .ok () := by
  cases h with
  | field hmem hsplit => rw [Column.check, hsplit, get?_of_mem hmem]
  | part hmem hparts hsplit =>
    rw [Column.check, hsplit, get?_of_mem hmem]
    simp [hparts]

/-- A column of the schema that can stand in front of a clause: its base and its part are
identifiers, and it is not read as `NOT`. -/
structure Schema.Admits (s : Schema) (c : Column) : Prop where
  names : s.Names c
  safe : c.IsSafe
  free : Text.sameWord c.name.toList ['N', 'O', 'T'] = false

/-- Fields are admitted, unless `NOT` is their name. -/
theorem Schema.admits_field {s : Schema} {f : Field} (h : f ∈ s.fields)
    (hnot : Text.sameWord f.name.toList ['N', 'O', 'T'] = false) : s.Admits ⟨f.name⟩ := by
  have hid := s.named f h
  have hsplit := split_columnOf (not_mem_of_isIdentifier hid)
  rw [columnOf_toList, String.ofList_toList] at hsplit
  exact ⟨.field h hsplit, by rw [Column.IsSafe, hsplit]; exact ⟨hid, by simp⟩, hnot⟩

/-- So are the parts of structured fields. -/
theorem Schema.admits_part {s : Schema} {f : Field} {part : String} (h : f ∈ s.fields)
    (hparts : f.hasParts = true) (hpart : Text.isIdentifier part.toList = true) :
    s.Admits ⟨f.name ++ "." ++ part⟩ := by
  have hid := s.named f h
  have hname : (f.name ++ "." ++ part).toList = f.name.toList ++ '.' :: part.toList := by simp
  have hsplit := split_columnOf_dotted (not_mem_of_isIdentifier hid) part.toList
  rw [← hname, columnOf_toList, String.ofList_toList, String.ofList_toList] at hsplit
  refine ⟨.part h hparts hsplit, by rw [Column.IsSafe, hsplit]; exact ⟨hid, by simpa⟩, ?_⟩
  -- no letter of the operator is a point
  rw [hname, Text.sameWord, beq_eq_false_iff_ne]
  intro hsame
  have hmem : '.' ∈ Text.lower (f.name.toList ++ '.' :: part.toList) :=
    List.mem_map.2 ⟨'.', by simp, by decide⟩
  rw [hsame] at hmem
  exact absurd hmem (by decide)

/-! ### Rendering the test for a string -/

/-- The test of a column, once the column and the value are written. -/
theorem Target.equals_eq {α : Type} {t : Target α} {text : List Char} {v : Value} {b : Fragment α}
    (hcolumn : t.column c = .ok text) (hvalue : t.value v = .ok b) :
    t.equals c v = .ok (if v.isNull then .plain (t.absent text)
      else .plain text ++ .word " = " ++ b) := by
  simp only [equals, hcolumn, hvalue, bind, Except.bind]
  split <;> rfl

namespace Sql

variable {d : Dialect} {text : List Char}

/-- Numbering passes over lexemes that have nothing to do with placeholders. -/
theorem numbered_spell_append {ls : List Lexeme} (h : ∀ l ∈ ls, IsInert d l) (k : Nat)
    (r : List Char) : numbered false k (Lexeme.spell d.quote ls ++ r) =
      Lexeme.spell d.quote ls ++ numbered false k r := by
  induction ls with
  | nil => rfl
  | cons l ls ih =>
    obtain ⟨hl, hls⟩ := List.forall_mem_cons.1 h
    rw [Lexeme.spell_cons, List.append_assoc, List.append_assoc, ← ih hls]
    rcases hl.apostrophe with ⟨t, rfl⟩ | hapostrophe
    · exact numbered_enclose t k _
    · exact numbered_append hl.question hapostrophe _ _ _

/-- Numbering passes over a column that can be written unquoted. -/
theorem placed_column (hc : c.IsSafe) (h : d.column c = .ok text) (r : List Char) :
    d.placed (text ++ r) = text ++ d.placed r := by
  obtain ⟨rfl, -⟩ := column_spec h
  cases d with
  | postgresql => exact numbered_spell_append (isInert_of_mem_columnLexemes hc) 0 r
  | mysql => rfl
  | sqlite => rfl

/-- Every dialect writes a column that can be written unquoted. -/
theorem exists_column (d : Dialect) (hc : c.IsSafe) : ∃ text, d.column c = .ok text := by
  rw [Dialect.column]
  split
  · rename_i base part hsplit
    obtain ⟨hbase, hpart⟩ := hc
    rw [hsplit] at hbase hpart
    exact ⟨_, if_pos (by rw [hbase, hpart part rfl]; rfl)⟩
  · exact ⟨_, rfl⟩

/-- The clause that tests a column for a string. -/
def testClause (d : Dialect) (text : List Char) (s : String) : Clause :=
  if (Value.text s).isNull then ⟨String.ofList (text ++ " IS NULL".toList), []⟩
  else ⟨String.ofList (text ++ " = ".toList ++ d.placed ['?']), [.string s]⟩

/-- A dialect renders the test for a string as its clause. -/
theorem render_equals_text (hc : c.IsSafe) (h : d.column c = .ok text) (s : String) :
    render d (.equals c (.text s)) = .ok (testClause d text s) := by
  have hequals : d.target.render (.equals c (.text s)) = .ok (if (Value.text s).isNull then
      .plain (text ++ " IS NULL".toList) else .plain text ++ .word " = " ++ ⟨['?'], [.string s]⟩) :=
    Target.equals_eq h rfl
  have hnull : d.placed (text ++ " IS NULL".toList) = text ++ " IS NULL".toList := by
    rw [placed_column hc h]
    cases d <;> rfl
  have htest : d.placed (text ++ " = ".toList ++ ['?']) = text ++ " = ".toList ++ d.placed ['?'] := by
    rw [List.append_assoc, placed_column hc h, List.append_assoc]
    cases d <;> rfl
  rw [render, hequals, testClause]
  cases (Value.text s).isNull with
  | true => exact congrArg (fun t => Except.ok (Clause.mk (String.ofList t) [])) hnull
  | false => exact congrArg (fun t => Except.ok (Clause.mk (String.ofList t) [.string s])) htest

end Sql

namespace PartiQL

/-- The condition that tests a column for a string. -/
def testCondition (c : Column) (s : String) : Condition :=
  if (Value.text s).isNull then
    ⟨"(" ++ c.name ++ " IS NULL OR " ++ c.name ++ " IS MISSING)", []⟩
  else ⟨c.name ++ " = " ++ String.ofList (Text.enclose '\'' s.toList), [.text s]⟩

/-- PartiQL renders the test for a string as its condition. -/
theorem render_equals_text (hc : c.IsSafe) (s : String) :
    render (.equals c (.text s)) = .ok (testCondition c s) := by
  have hequals : target.render (.equals c (.text s)) = .ok (if (Value.text s).isNull then
      .plain (target.absent c.name.toList) else .plain c.name.toList ++ .word " = " ++ string s) :=
    Target.equals_eq hc.path_eq rfl
  rw [render, hequals, testCondition]
  cases (Value.text s).isNull with
  | true => simp [target, Fragment.plain, bind, Except.bind, ← String.toList_inj]
  | false => simp [string, Fragment.plain, Fragment.word, bind, Except.bind, ← String.toList_inj]

end PartiQL

/-! ### Compiling the texts for a string -/

namespace Compiler

open Grammar

variable {k : Compiler} {s q : String} {u : List Char}

/-- An atom behind a column, in which no point is shown, is read as its filter. -/
theorem filter?_of_writesAtom {a : Atom} (hc : k.schema.Admits c) (ha : WritesAtom a u)
    (hshows : Shows 0 u) (hq : q.toList = c.name.toList ++ ':' :: u) (hsize : k.checkSize q = .ok ()) :
    k.filter? q = .ok (some (a.filter c)) := by
  have hfield := hc.safe.fieldText
  have hexpand : k.expand q = q := expand_of_emits fun fields => by
    rw [hq]
    exact ha.atomText.emits hfield fields false
  have hflush : IsFlush q.toList := by
    rw [hq]
    exact hfield.isTerm.isFlush.append _
  have haccepts (n : Nat) :
      Accepts (clauseWithin n) .disjunction (.leaf (some c.name.toList) a) q.toList := by
    rw [hq]
    exact .conjunction (isSound_clauseWithin n) (.factor (ha.accepts hfield hc.free))
  have hclause := clause?_of_accepts hflush (haccepts _)
  have hpoints : Shows (c.name.toList.count '.') q.toList := by
    rw [hq]
    exact hfield.shows_append hshows
  have hcheck := hc.names.check_eq
  rw [← hexpand] at hflush hclause hpoints
  refine filter?_of_shows hsize hflush hclause ?_ (Schema.checkFields_eq_ok ?_) ?_
  · simpa [Clause.fields] using hpoints
  · simpa [Clause.fields] using hcheck
  · simp only [Clause.lower, Option.map_some, Option.some_or, columnOf_toList]

/-- One of the texts for a string behind a column is read as the test for it. -/
theorem filter?_of_stringText (hc : k.schema.Admits c) (hu : StringText s.toList u)
    (hq : q.toList = c.name.toList ++ ':' :: u) (hsize : k.checkSize q = .ok ()) :
    k.filter? q = .ok (some (.equals c (.text s))) := by
  obtain ⟨a, ha, hfilter⟩ := hu.exists_atom
  have h := filter?_of_writesAtom hc ha hu.shows hq hsize
  rwa [hfilter, textValue_toList] at h

/-- A query that has a filter is compiled as its provider renders it. -/
theorem compile_of_filter? {f : Filter} (h : k.filter? q = .ok (some f)) (p : Provider) :
    k.compile p q = some <$> (p.render f).mapError .render := by
  rw [compile, h]
  rfl

/-- **Any string can be asked for, and arrives unchanged,** in the filter and among the values
of what is rendered. -/
theorem compile_of_stringText (hc : k.schema.Admits c) (hu : StringText s.toList u)
    (hq : q.toList = c.name.toList ++ ':' :: u) (hsize : k.checkSize q = .ok ()) :
    k.filter? q = .ok (some (.equals c (.text s))) ∧
      (∀ d : Sql.Dialect, ∃ text, d.column c = .ok text ∧
        k.compile (.sql d) q = .ok (some (.sql (Sql.testClause d text s)))) ∧
      k.compile .dynamodb q = .ok (some (.partiql (PartiQL.testCondition c s))) := by
  have hfilter := filter?_of_stringText hc hu hq hsize
  refine ⟨hfilter, fun d => ?_, ?_⟩
  · obtain ⟨text, htext⟩ := Sql.exists_column d hc.safe
    refine ⟨text, htext, ?_⟩
    rw [compile_of_filter? hfilter, Provider.render, Sql.render_equals_text hc.safe htext]
    rfl
  · rw [compile_of_filter? hfilter, Provider.render, PartiQL.render_equals_text hc.safe]
    rfl

/-- An operator, a wildcard and an apostrophe in quotes, and `null` with a backslash in front of
each letter. -/
theorem compile_of_operator_text :
    let k := sample 4 ⟨100, 9, 9⟩ (by decide)
    k.compile (.sql .postgresql) "f:\"') OR *\"" =
        .ok (some (.sql ⟨"\"f\" = $1", [.string "') OR *"]⟩)) ∧
      k.compile .dynamodb "m.x:\\n\\U\\l\\l" =
        .ok (some (.partiql ⟨"(m.x IS NULL OR m.x IS MISSING)", []⟩)) := by
  intro k
  have hf : k.schema.Admits ⟨"f"⟩ :=
    Schema.admits_field (f := .of "f" .text) (by decide +kernel) (by decide +kernel)
  have hx : Text.isIdentifier "x".toList = true := by decide +kernel
  have hm : k.schema.Admits ⟨"m.x"⟩ :=
    Schema.admits_part (f := .of "m" .structured) (by decide +kernel) (by decide +kernel) hx
  have hquoted := (compile_of_stringText hf (s := "') OR *") .quotation
    (q := "f:\"') OR *\"") rfl (by decide +kernel)).2.1 .postgresql
  have hescaped := (compile_of_stringText hm (s := "nUll") (.pairs (by decide))
    (q := "m.x:\\n\\U\\l\\l") rfl (by decide +kernel)).2.2
  obtain ⟨text, htext, hquoted⟩ := hquoted
  obtain rfl := Except.ok.inj htext
  exact ⟨hquoted, hescaped⟩

end Compiler

end SearchFilter
