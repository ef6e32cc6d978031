/-
# The lines of a report

A rendered filter is reported as its text and one numbered line for each of its values. A value
is one line, since JSON escapes the line feeds of a string, and a clause is one line as well. A
statement of PartiQL goes on to the next line at every line feed of its strings, and the values
stand that much further down:

| query | provider | report |
| --- | --- | --- |
| `f:"a⏎b"` | PostgreSQL | `"f" = $1`⏎`  [1] "a\nb"` |
| `f:ab` | DynamoDB | `f = 'ab'`⏎`  [1] S "ab"` |
| `f:"a⏎b"` | DynamoDB | `f = 'a`⏎`b'`⏎`  [1] S "a\nb"` |

Text and values can be told apart all the same, from the last line on: it has the number of the
values, and above so many lines is the text (`linesOf_run`).
-/

import SearchFilter.Command.Run
import SearchFilter.Proofs.Compiler.Parameters
import SearchFilter.Proofs.Render.LineFeed

namespace SearchFilter

/-- The line feeds that the values of a rendered filter have in its text. -/
def Rendered.lineFeeds : Rendered → Nat
  | sql _ => 0
  | partiql c => c.lineFeeds

namespace Command

/-! ### Lines -/

/-- The lines of a text. -/
def linesOf (s : String) : List (List Char) := s.toList.splitOn '\n'

/-- A text has one line more than line feeds. -/
theorem length_linesOf (s : String) : (linesOf s).length = s.toList.count '\n' + 1 := by
  rw [linesOf]
  induction s.toList with
  | nil => rfl
  | cons c t ih =>
    rw [List.splitOn_cons_eq_if_modifyHead, List.count_cons]
    split
    · rw [List.length_cons, ih]
    · rw [List.length_modifyHead, ih, Nat.add_zero]

/-- A text is known by its lines. -/
theorem linesOf_inj {s t : String} (h : linesOf s = linesOf t) : s = t := by
  have hjoined := congrArg (List.intercalate ['\n']) h
  rwa [linesOf, linesOf, List.intercalate_splitOn, List.intercalate_splitOn,
    String.toList_inj] at hjoined

/-- Lines below a text are its lines from the last on. -/
theorem linesOf_intercalate (text : String) {lines : List String}
    (h : ∀ l ∈ lines, '\n' ∉ l.toList) :
    linesOf ("\n".intercalate (text :: lines)) = linesOf text ++ lines.map String.toList := by
  have hfeed : "\n".toList = ['\n'] := by simp
  rw [linesOf, linesOf, String.toList_intercalate, hfeed, List.map_cons]
  cases lines with
  | nil => simp
  | cons l lines =>
    have hlines : ∀ t ∈ (l :: lines).map String.toList, '\n' ∉ t := by simpa using h
    have hsplit := List.splitOn_intercalate '\n' hlines (by simp)
    rw [List.map_cons, List.intercalate_cons_cons, List.append_assoc, List.singleton_append,
      List.splitOn_append_cons_self, ← List.map_cons, hsplit]

/-! ### Numbered lines -/

/-- Texts on lines with the numbers from one on. -/
def numberedLines (vs : List String) : List String := vs.mapIdx fun i v => valueLine (i + 1) v

/-- Each text has its line. -/
@[simp] theorem length_numberedLines (vs : List String) :
    (numberedLines vs).length = vs.length := List.length_mapIdx

/-- A line has the number of its place, counted from one. -/
theorem getElem?_numberedLines (vs : List String) (k : Nat) :
    (numberedLines vs)[k]? = vs[k]?.map (valueLine (k + 1)) := List.getElem?_mapIdx

/-- A numbered line is its number between brackets and the text. -/
theorem toList_valueLine (n : Nat) (v : String) : (valueLine n v).toList =
    [' ', ' ', '['] ++ (Decimal.ofNat n ++ ']' :: ' ' :: v.toList) := by
  simp [valueLine, Decimal.ofNat]

/-- A numbered line has one number and one text. -/
theorem valueLine_inj {m n : Nat} {v w : String} (h : valueLine m v = valueLine n w) :
    m = n ∧ v = w := by
  have hdigits (k : Nat) : ∀ c ∈ Decimal.ofNat k, c.isDigit = true :=
    List.all_eq_true.1 (Decimal.isDigit_ofNat k)
  have hspan (k : Nat) (u : String) :=
    Decimal.span_append (r := ']' :: ' ' :: u.toList) (hdigits k) (by rintro c ⟨⟩; decide)
  have hlist := congrArg String.toList h
  rw [toList_valueLine, toList_valueLine, List.append_cancel_left_eq] at hlist
  have hnumber := congrArg (List.takeWhile Char.isDigit) hlist
  have htext := congrArg (List.dropWhile Char.isDigit) hlist
  rw [(hspan m v).1, (hspan n w).1] at hnumber
  rw [(hspan m v).2, (hspan n w).2] at htext
  refine ⟨?_, String.toList_inj.1 (List.cons.inj (List.cons.inj htext).2).2⟩
  rw [← Decimal.natOf_ofNat m, hnumber, Decimal.natOf_ofNat]

/-- A number adds no line feed. -/
theorem not_mem_valueLine {v : String} (h : '\n' ∉ v.toList) (n : Nat) :
    '\n' ∉ (valueLine n v).toList := by
  have hdigits : '\n' ∉ Decimal.ofNat n := fun hmem =>
    absurd (List.all_eq_true.1 (Decimal.isDigit_ofNat n) _ hmem) (by decide)
  simp [toList_valueLine, hdigits, h]

/-- Numbered lines of texts on one line each are single lines. -/
theorem not_mem_numberedLines {vs : List String} (h : ∀ v ∈ vs, '\n' ∉ v.toList) :
    ∀ l ∈ numberedLines vs, '\n' ∉ l.toList := by
  intro l hl
  obtain ⟨i, hi, rfl⟩ := List.mem_mapIdx.1 hl
  exact not_mem_valueLine (h _ (List.getElem_mem hi)) (i + 1)

/-- Texts are known by their numbered lines. -/
theorem numberedLines_inj {vs ws : List String} (h : numberedLines vs = numberedLines ws) :
    vs = ws := by
  refine List.ext_getElem? fun k => ?_
  have hk := congrArg (fun ls : List String => ls[k]?) h
  simp only [getElem?_numberedLines] at hk
  exact Option.map_injective (fun _ _ heq => (valueLine_inj heq).2) hk

/-- One more text takes the next number. -/
theorem numberedLines_concat (vs : List String) (v : String) :
    numberedLines (vs ++ [v]) = numberedLines vs ++ [valueLine (vs.length + 1) v] :=
  List.mapIdx_concat

/-- **Numbered lines are found from below.** The last one has their number; where there is
none, it is known that there is a single line. -/
theorem append_numberedLines_inj {ss ts : List (List Char)} {vs ws : List String}
    (hs : ss ≠ []) (ht : ts ≠ []) (hvs : vs = [] → ss.length = 1) (hws : ws = [] → ts.length = 1)
    (h : ss ++ (numberedLines vs).map String.toList = ts ++ (numberedLines ws).map String.toList) :
    ss = ts ∧ vs = ws := by
  have hlength := congrArg List.length h
  simp only [List.length_append, List.length_map, length_numberedLines] at hlength
  have hspos := List.length_pos_of_ne_nil hs
  have htpos := List.length_pos_of_ne_nil ht
  have hsame : vs.length = ws.length := by
    rcases List.eq_nil_or_concat vs with rfl | ⟨us, v, rfl⟩
    · have := hvs rfl
      simp only [List.length_nil] at hlength ⊢
      omega
    · rcases List.eq_nil_or_concat ws with rfl | ⟨xs, w, rfl⟩
      · have := hws rfl
        simp only [List.length_nil] at hlength ⊢
        omega
      · rw [List.concat_eq_append, List.concat_eq_append, numberedLines_concat,
          numberedLines_concat, List.map_append, List.map_append, ← List.append_assoc,
          ← List.append_assoc] at h
        obtain ⟨-, hlast⟩ := List.append_inj' h (by simp)
        have hline : valueLine (us.length + 1) v = valueLine (xs.length + 1) w :=
          String.toList_inj.1 (List.cons.inj hlast).1
        simpa using (valueLine_inj hline).1
  obtain ⟨htexts, hlines⟩ := List.append_inj' h (by simpa using hsame)
  have htoList : Function.Injective String.toList := fun _ _ => String.toList_inj.1
  exact ⟨htexts, numberedLines_inj (List.map_injective_iff.2 htoList hlines)⟩

/-! ### Reports -/

/-- There is one text for each value. -/
theorem length_valueTexts (r : Rendered) : (valueTexts r).length = r.valueCount := by
  cases r <;> simp [valueTexts, Rendered.valueCount]

/-- **A value is one line.** -/
theorem not_mem_valueTexts (r : Rendered) : ∀ v ∈ valueTexts r, '\n' ∉ v.toList := by
  have hcompact (v : Json) : '\n' ∉ (Json.compact v).toList := by
    rw [Json.compact, String.toList_ofList]
    exact Json.not_mem_writeCompact v
  cases r with
  | sql c =>
    intro v hv
    obtain ⟨p, -, rfl⟩ := List.mem_map.1 hv
    exact hcompact p
  | partiql c =>
    intro v hv
    obtain ⟨a, -, rfl⟩ := List.mem_map.1 hv
    cases a <;> simp [attributeText, hcompact]

/-- The lines of a report are those of the text and one for each value. -/
theorem linesOf_report (p : Provider) (r : Rendered) :
    linesOf (reportRendered p (some r) .text) =
      linesOf r.text ++ (numberedLines (valueTexts r)).map String.toList :=
  linesOf_intercalate r.text (not_mem_numberedLines (not_mem_valueTexts r))

/-- A report has a line for the text, one for each value, and one for each line feed of the text. -/
theorem length_linesOf_report (p : Provider) (r : Rendered) :
    (linesOf (reportRendered p (some r) .text)).length =
      1 + r.valueCount + r.text.toList.count '\n' := by
  rw [linesOf_report, List.length_append, List.length_map, length_numberedLines,
    length_valueTexts, length_linesOf]
  omega

/-- The text on the first line, and each value on the line behind the one of its number. -/
structure IsLineStructured (r : Rendered) (lines : List (List Char)) : Prop where
  length : lines.length = 1 + r.valueCount
  text : lines[0]? = some r.text.toList
  value : ∀ k v, (valueTexts r)[k]? = some v → lines[k + 1]? = some (valueLine (k + 1) v).toList

/-- A report has this form if the text is one line. -/
theorem isLineStructured_report_iff (p : Provider) (r : Rendered) :
    IsLineStructured r (linesOf (reportRendered p (some r) .text)) ↔ '\n' ∉ r.text.toList := by
  constructor
  · intro h
    have hlength := h.length
    rw [length_linesOf_report] at hlength
    rw [← List.count_eq_zero]
    omega
  · intro h
    have hlines : linesOf (reportRendered p (some r) .text) =
        r.text.toList :: (numberedLines (valueTexts r)).map String.toList := by
      rw [linesOf_report, linesOf, List.splitOn_eq_singleton h]
      rfl
    refine ⟨?_, ?_, ?_⟩
    · rw [length_linesOf_report, List.count_eq_zero.2 h]
      rfl
    · rw [hlines]
      rfl
    · intro k v hv
      rw [hlines, List.getElem?_cons_succ, List.getElem?_map, getElem?_numberedLines, hv]
      rfl

/-! ### Commands -/

/-- A command that has its query compiled to a filter, and reports it as text. -/
structure Compiles (files : String → FileState) (a : Arguments) (r : Rendered) : Prop where
  output : a.output = .text
  tree : a.tree = false
  showConfig : a.showConfig = false
  compiled : ∃ s c q, Settings.load files a.config = .ok s ∧
    (s.overridden a).compiler = .ok c ∧ a.query = some q ∧ c.compile a.target q = .ok (some r)

variable {files : String → FileState} {a : Arguments} {r : Rendered}

/-- A command that compiles its query reports what is rendered. -/
theorem Compiles.run_eq (h : Compiles files a r) :
    run files a = .ok (reportRendered a.target (some r) .text) := by
  obtain ⟨s, c, q, hs, hc, hq, hr⟩ := h.compiled
  have hreport : (c.compile a.target q).mapError Failure.query = .ok (some r) :=
    mapError_eq_ok.2 hr
  rw [run, hs]
  simp only [bind, Except.bind, h.showConfig, h.tree, hq, hc, hreport, h.output,
    Bool.false_eq_true, if_false]
  rfl

/-- **The line feeds in the text of a filter are those of its values.** -/
theorem Compiles.count_text (h : Compiles files a r) :
    r.text.toList.count '\n' = r.lineFeeds := by
  obtain ⟨s, c, q, -, -, -, hr⟩ := h.compiled
  obtain ⟨f, hf, hrender⟩ := Compiler.exists_of_compile hr
  cases hp : a.target with
  | sql d =>
    rw [hp] at hrender
    obtain ⟨clause, hclause, rfl⟩ := map_eq_ok.1 hrender
    have hcolumns := (Compiler.passed_of_filter? hf).columns f rfl
    exact List.count_eq_zero.2 (Sql.not_mem_sql hcolumns hclause)
  | dynamodb =>
    rw [hp] at hrender
    obtain ⟨condition, hcondition, rfl⟩ := map_eq_ok.1 hrender
    exact PartiQL.count_statement hcondition

/-- An attribute is known by its text. -/
theorem attributeText_inj {x y : PartiQL.Attribute} (h : attributeText x = attributeText y) :
    x = y := by
  have hstring {s t : String} (h : Json.compact (.string s) = Json.compact (.string t)) : s = t :=
    Json.string.inj (Json.compact_injective (.string s) (.string t) h)
  have hlist := congrArg String.toList h
  cases x <;> cases y <;> simp [attributeText] at hlist
  · rw [hstring (String.toList_inj.1 hlist)]
  · rw [hstring (String.toList_inj.1 hlist)]

/-- **A rendered filter is known by its text and the texts of its values.** -/
theorem Compiles.eq_of_texts {files' : String → FileState} {b : Arguments} {r' : Rendered}
    (h : Compiles files a r) (h' : Compiles files' b r') (htarget : a.target = b.target)
    (htext : r.text = r'.text) (hvalues : valueTexts r = valueTexts r') : r = r' := by
  obtain ⟨s, c, q, -, -, -, hr⟩ := h.compiled
  obtain ⟨s', c', q', -, -, -, hr'⟩ := h'.compiled
  obtain ⟨f, -, hrender⟩ := Compiler.exists_of_compile hr
  obtain ⟨f', -, hrender'⟩ := Compiler.exists_of_compile hr'
  rw [← htarget] at hr' hrender'
  cases hp : a.target with
  | sql d =>
    rw [hp] at hr hr' hrender hrender'
    obtain ⟨clause, -, rfl⟩ := map_eq_ok.1 hrender
    obtain ⟨clause', -, rfl⟩ := map_eq_ok.1 hrender'
    -- parameters are given back by their texts
    have hread {k : Compiler} {q : String} {clause : Sql.Clause}
        (h : k.compile (.sql d) q = .ok (some (.sql clause))) :
        (clause.params.map Json.compact).map Json.parse? = clause.params.map some := by
      rw [List.map_map]
      exact List.map_congr_left fun v hv => Json.parse?_compact (Compiler.isKept_of_compile h v hv)
    have hparams : clause.params = clause'.params := by
      refine List.map_injective_iff.2 (Option.some_injective Json) ?_
      rw [← hread hr, ← hread hr']
      exact congrArg (List.map Json.parse?) hvalues
    obtain ⟨sql, params⟩ := clause
    obtain ⟨sql', params'⟩ := clause'
    obtain rfl : sql = sql' := htext
    obtain rfl : params = params' := hparams
    rfl
  | dynamodb =>
    rw [hp] at hrender hrender'
    obtain ⟨⟨statement, attributes⟩, -, rfl⟩ := map_eq_ok.1 hrender
    obtain ⟨⟨statement', attributes'⟩, -, rfl⟩ := map_eq_ok.1 hrender'
    obtain rfl : statement = statement' := htext
    obtain rfl : attributes = attributes' :=
      List.map_injective_iff.2 (fun _ _ => attributeText_inj) hvalues
    rfl

/-- Without values there is no line feed of a value. -/
theorem lineFeeds_of_valueTexts_eq_nil (h : valueTexts r = []) : r.lineFeeds = 0 := by
  cases r with
  | sql c => rfl
  | partiql c =>
    have hattributes : c.attributes = [] := List.map_eq_nil_iff.1 h
    rw [Rendered.lineFeeds, PartiQL.Condition.lineFeeds, hattributes]
    rfl

/-- **A report is read back as the filter that it is about.** -/
theorem Compiles.eq_of_run {files' : String → FileState} {b : Arguments} {r' : Rendered}
    (h : Compiles files a r) (h' : Compiles files' b r') (htarget : a.target = b.target)
    (hrun : run files a = run files' b) : r = r' := by
  rw [h.run_eq, h'.run_eq] at hrun
  have hlines := congrArg linesOf (Except.ok.inj hrun)
  rw [linesOf_report, linesOf_report] at hlines
  have hsingle {files : String → FileState} {a : Arguments} {r : Rendered} (h : Compiles files a r)
      (hnil : valueTexts r = []) : (linesOf r.text).length = 1 := by
    rw [length_linesOf, h.count_text, lineFeeds_of_valueTexts_eq_nil hnil]
  obtain ⟨htext, hvalues⟩ := append_numberedLines_inj (List.splitOn_ne_nil _ _)
    (List.splitOn_ne_nil _ _) (hsingle h) (hsingle h') hlines
  exact h.eq_of_texts h' htarget (linesOf_inj htext) hvalues

/-- **A report has a line for the text, one for each value, and one more for each line feed that
a value has in the text.** So it has the form of a text and its values, line by line, just where
there is no such line feed; which filter was reported can be told in any case. -/
theorem linesOf_run (h : Compiles files a r) :
    ∃ report, run files a = .ok report ∧
      linesOf report = linesOf r.text ++ (numberedLines (valueTexts r)).map String.toList ∧
      (linesOf report).length = 1 + r.valueCount + r.lineFeeds ∧
      (IsLineStructured r (linesOf report) ↔ r.lineFeeds = 0) ∧
      ∀ files' b r', Compiles files' b r' → b.target = a.target → run files' b = .ok report →
        r' = r := by
  refine ⟨_, h.run_eq, linesOf_report a.target r, ?_, ?_, ?_⟩
  · rw [length_linesOf_report, h.count_text]
  · rw [isLineStructured_report_iff, ← List.count_eq_zero, h.count_text]
  · intro files' b r' h' htarget hrun
    exact h'.eq_of_run h htarget (hrun.trans h.run_eq.symm)

/-! ### Single commands -/

/-- Everywhere the settings of one text field. -/
def sampleFile (_ : String) : FileState :=
  .readable "[[fields]]\nname = \"f\"\nkind = \"text\"\n"

/-- The arguments of a query for a provider. -/
def asking (p : Provider) (q : String) : Arguments :=
  { Arguments.empty with provider := some p, query := some q }

/-- What the filter that a command has compiled is measured as, if there is one. -/
def measured {α : Type} (files : String → FileState) (a : Arguments) (g : Rendered → α) :
    Option α := do
  let s ← (Settings.load files a.config).toOption
  let c ← (s.overridden a).compiler.toOption
  let q ← a.query
  let r ← (c.compile a.target q).toOption.join
  some (g r)

/-- What is measured is a command that compiles its query. -/
theorem exists_of_measured {α : Type} {p : Provider} {q : String} {g : Rendered → α} {x : α}
    (h : measured files (asking p q) g = some x) :
    ∃ r, Compiles files (asking p q) r ∧ g r = x := by
  simp only [measured, Option.bind_eq_bind, Option.bind_eq_some_iff, Option.some.injEq] at h
  obtain ⟨s, hs, c, hc, q', hq, r, hr, rfl⟩ := h
  have hr : c.compile (asking p q).target q' = .ok (some r) :=
    eq_ok_of_toOption (Option.join_eq_some_iff.1 hr)
  exact ⟨r, ⟨rfl, rfl, rfl, s, c, q', eq_ok_of_toOption hs, eq_ok_of_toOption hc, hq, hr⟩, rfl⟩

/-- Two values, one of which has a line feed: a statement on two lines, and two more. -/
theorem linesOf_run_of_values :
    let a := asking .dynamodb "f:\"a\nb\" OR f:>12"
    ∃ r report, Compiles sampleFile a r ∧ r.valueCount = 2 ∧ run sampleFile a = .ok report ∧
      report = "(f = 'a\nb') OR (f > 12)\n  [1] S \"a\\nb\"\n  [2] N \"12\"" ∧
      (linesOf report).length = 4 ∧ ¬ IsLineStructured r (linesOf report) ∧
      ∀ b r', Compiles sampleFile b r' → b.target = .dynamodb → run sampleFile b = .ok report →
        r' = r := by
  intro a
  have hmeasured : measured sampleFile a (fun r => (renderedLines r, r.valueCount, r.lineFeeds)) =
      some (["(f = 'a\nb') OR (f > 12)", "  [1] S \"a\\nb\"", "  [2] N \"12\""], 2, 1) := by
    decide +kernel
  obtain ⟨r, hr, hx⟩ := exists_of_measured hmeasured
  simp only [Prod.mk.injEq] at hx
  obtain ⟨hlines, hcount, hfeeds⟩ := hx
  obtain ⟨report, hrun, -, hlength, hiff, hunique⟩ := linesOf_run hr
  have hreport : report = "\n".intercalate (renderedLines r) :=
    Except.ok.inj (hrun.symm.trans hr.run_eq)
  refine ⟨r, report, hr, hcount, hrun, ?_, ?_, ?_, fun b r' => hunique sampleFile b r'⟩
  · rw [hreport, hlines]
    decide +kernel
  · rw [hlength, hcount, hfeeds]
  · rw [hiff, hfeeds]
    decide

/-- A string with a line feed: one value, but three lines. -/
theorem not_isLineStructured_of_lineFeed :
    let a := asking .dynamodb "f:\"a\nb\""
    ∃ r report, Compiles sampleFile a r ∧ r.valueCount = 1 ∧ run sampleFile a = .ok report ∧
      linesOf report = ["f = 'a".toList, "b'".toList, "  [1] S \"a\\nb\"".toList] ∧
      ¬ IsLineStructured r (linesOf report) := by
  intro a
  have hmeasured : measured sampleFile a (fun r => (r.valueCount,
      linesOf (reportRendered a.target (some r) .text))) =
      some (1, ["f = 'a".toList, "b'".toList, "  [1] S \"a\\nb\"".toList]) := by
    decide +kernel
  obtain ⟨r, hr, hx⟩ := exists_of_measured hmeasured
  obtain ⟨hcount, hlines⟩ := Prod.mk.inj hx
  refine ⟨r, _, hr, hcount, hr.run_eq, hlines, fun hstructured => ?_⟩
  have hlength := hstructured.length
  rw [hlines, hcount] at hlength
  cases hlength

end Command
end SearchFilter
