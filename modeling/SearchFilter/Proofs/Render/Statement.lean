/-
# Statements

The predicates that PartiQL writes, in lexemes. A value stands in the text, as a literal
or as a number, and the same value is listed as an attribute.

| predicate | lexemes |
| --- | --- |
| `equals c null` | `(c IS NULL OR c IS MISSING)` |
| `equals c v`, `compare op c v` | `c = v`, `c op v` |
| `like c p` | `contains(c, v)`, `begins_with(c, v)`, `c = v` or `c IS NOT MISSING` |
| `range c` with one bound | `c >= v` and the like |
| `range c` with both | `c BETWEEN v AND w` or `(c > v AND c < w)` |

A statement is read back as these lexemes whatever its strings contain: they stay inside
of their literals, and no other text of a query but names of columns gets into a
statement (`exists_lexemes?_of_render`).
-/

import SearchFilter.Proofs.Render.Numeral
import SearchFilter.Proofs.Render.Sentence

namespace SearchFilter

open Lexeme

/-! ### The attributes of a leaf -/

/-- The attribute of a value. -/
def Value.attribute : Value → PartiQL.Attribute
  | text s => .text s
  | number x => .number (PartiQL.numberText x)
  | group _ => .text ""

/-- The attribute of a bound: text that writes a finite number is a number. -/
def Value.boundAttribute : Value → PartiQL.Attribute
  | text s =>
    match Decimal.finite? s.toList with
    | some x => .number (PartiQL.numberText x)
    | none => .text s
  | v => v.attribute

/-- The attribute of a pattern that asks for a text. -/
def Pattern.Shape.attribute? : Pattern.Shape → Option PartiQL.Attribute
  | contains s => some (.text s)
  | beginsWith s => some (.text s)
  | exact s => some (.text s)
  | any => none

/-- The attributes that a leaf lists: none to compare with `null`, one for each bound of a
range, and the text of a pattern. -/
def Filter.attributes : Filter → List PartiQL.Attribute
  | equals _ v => if v.isNull then [] else [v.attribute]
  | compare _ _ v => [v.attribute]
  | like _ p => ((Pattern.shape? p).bind Pattern.Shape.attribute?).toList
  | range _ min max _ => (min.toList ++ max.toList).map Value.boundAttribute
  | _ => []

namespace PartiQL

/-- An attribute in the text. -/
def Attribute.lexeme : Attribute → Lexeme
  | text s => .literal s.toList
  | number s => .number s.toList

/-- The attribute that a lexeme spells, if it is a value. -/
def attribute? : Lexeme → Option Attribute
  | .literal s => some (.text (String.ofList s))
  | .number s => some (.number (String.ofList s))
  | _ => none

/-- The lexeme of an attribute spells it. -/
@[simp] theorem attribute?_lexeme (a : Attribute) : attribute? a.lexeme = some a := by
  cases a <;> simp [Attribute.lexeme, attribute?]

/-- A literal spells its text. -/
@[simp] theorem attribute?_literal (s : List Char) :
    attribute? (.literal s) = some (.text (String.ofList s)) := rfl

/-- A word spells no attribute. -/
@[simp] theorem attribute?_word (w : List Char) : attribute? (.word w) = none := rfl

/-- A mark spells no attribute. -/
@[simp] theorem attribute?_mark (c : Char) : attribute? (.mark c) = none := rfl

/-- A keyword spells no attribute. -/
@[simp] theorem attribute?_keyword (s : String) : attribute? (keyword s) = none := rfl

/-! ### The lexemes of a predicate -/

/-- The words that are no names. -/
def words : List String :=
  ["AND", "OR", "NOT", "IS", "NULL", "MISSING", "BETWEEN", "contains", "begins_with"]

/-- The words that are no names can be written as words. -/
theorem isProper_of_mem_words {s : String} (h : s ∈ words) : (keyword s).IsProper := by
  have hwords : ∀ w ∈ words, Text.isIdentifier w.toList = true := by decide +kernel
  exact isProper_keyword (hwords s h)

/-- A column, by its name. -/
def columnLexeme (c : Column) : Lexeme := word c.name.toList

/-- An order against a value. -/
def tested (c : Column) (sign : String) (a : Attribute) : List Lexeme :=
  columnLexeme c :: mark ' ' :: (sign.toList.map mark ++ [mark ' ', a.lexeme])

/-- A test with a word for the lack of a value behind `IS`. -/
def lacking (c : Column) (word : String) : List Lexeme :=
  [columnLexeme c, mark ' ', keyword "IS", mark ' ', keyword word]

/-- A function of a column and a text. -/
def applied (function : String) (c : Column) (s : String) : List Lexeme :=
  keyword function :: grouped [columnLexeme c, mark ',', mark ' ', literal s.toList]

/-- A match with a pattern of one of the known shapes. -/
def matched (c : Column) : Option Pattern.Shape → List Lexeme
  | some (.contains s) => applied "contains" c s
  | some (.beginsWith s) => applied "begins_with" c s
  | some (.exact s) => tested c "=" (.text s)
  | some .any =>
    [columnLexeme c, mark ' ', keyword "IS", mark ' ', keyword "NOT", mark ' ', keyword "MISSING"]
  | none => []

/-- A range with the bounds that there are. -/
def ranged (c : Column) (low high : Option Attribute) (inclusive : Bool) : List Lexeme :=
  match low, high, inclusive with
  | some low, some high, true =>
    columnLexeme c :: mark ' ' :: keyword "BETWEEN" :: mark ' ' :: low.lexeme :: mark ' ' ::
      keyword "AND" :: mark ' ' :: [high.lexeme]
  | some low, some high, false =>
    grouped (tested c ">" low ++ mark ' ' :: keyword "AND" :: mark ' ' :: tested c "<" high)
  | some low, none, true => tested c ">=" low
  | some low, none, false => tested c ">" low
  | none, some high, true => tested c "<=" high
  | none, some high, false => tested c "<" high
  | none, none, _ => []

/-- The lexemes of a predicate. -/
def predicate : Filter → List Lexeme
  | .equals c v =>
    if v.isNull then
      grouped (lacking c "NULL" ++ mark ' ' :: keyword "OR" :: mark ' ' :: lacking c "MISSING")
    else tested c "=" v.attribute
  | .compare op c v => tested c op.sign v.attribute
  | .like c p => matched c (Pattern.shape? p)
  | .range c min max inclusive =>
    ranged c (min.map Value.boundAttribute) (max.map Value.boundAttribute) inclusive
  | _ => []

/-- The value in an order is the one that the column is tested against. -/
theorem filterMap_tested (c : Column) (sign : String) (a : Attribute) :
    (tested c sign a).filterMap attribute? = [a] := by
  have hsign : (sign.toList.map mark).filterMap attribute? = [] := by simp
  simp [tested, columnLexeme, List.filterMap_cons, List.filterMap_append, hsign]

/-- **The values in a predicate are the attributes of its leaf.** -/
theorem filterMap_predicate (g : Filter) : (predicate g).filterMap attribute? = g.attributes := by
  cases g with
  | equals c v =>
    rw [predicate, Filter.attributes]
    split
    · simp [grouped, lacking, columnLexeme, List.filterMap_cons]
    · exact filterMap_tested c "=" _
  | compare op c v => exact filterMap_tested c op.sign _
  | like c p =>
    rw [predicate, Filter.attributes]
    cases Pattern.shape? p with
    | none => rfl
    | some shape =>
      cases shape with
      | contains s => simp [matched, applied, grouped, columnLexeme, List.filterMap_cons,
          Pattern.Shape.attribute?]
      | beginsWith s => simp [matched, applied, grouped, columnLexeme, List.filterMap_cons,
          Pattern.Shape.attribute?]
      | exact s => exact filterMap_tested c "=" _
      | any => simp [matched, columnLexeme, List.filterMap_cons, Pattern.Shape.attribute?]
  | range c min max inclusive =>
    rw [predicate, Filter.attributes]
    cases min <;> cases max <;> cases inclusive <;>
      simp [ranged, grouped, columnLexeme, filterMap_tested, List.filterMap_cons,
        List.filterMap_append]
  | _ => rfl

/-! ### What a predicate consists of -/

/-- The lexemes that are no names and no values. -/
def vocabulary : List Lexeme :=
  [' ', '(', ')', ',', '=', '<', '>'].map mark ++ words.map keyword

/-- A predicate consists of its column, fixed lexemes and values. -/
theorem forall_mem_predicate {g : Filter} {Q : Lexeme → Prop} (hvalue : ∀ a : Attribute, Q a.lexeme)
    (hfixed : ∀ l ∈ vocabulary, Q l) (hcolumn : ∀ c ∈ g.column?, Q (columnLexeme c)) :
    ∀ l ∈ predicate g, Q l := by
  simp only [vocabulary, words, List.map_cons, List.map_nil, List.cons_append, List.nil_append,
    List.forall_mem_cons] at hfixed
  have htested {c : Column} (hc : Q (columnLexeme c)) (sign : String)
      (hsign : ∀ s ∈ sign.toList, Q (mark s)) (a : Attribute) : ∀ l ∈ tested c sign a, Q l := by
    simpa [tested, or_imp, forall_and, hfixed, hvalue a, hc] using hsign
  have happlied {c : Column} (hc : Q (columnLexeme c)) {function : String}
      (hfunction : Q (keyword function)) (s : String) : ∀ l ∈ applied function c s, Q l := by
    have hs : Q (literal s.toList) := hvalue (.text s)
    simp [applied, grouped, hfixed, hs, hc, hfunction]
  cases g with
  | equals c v =>
    have hc := hcolumn c rfl
    rw [predicate]
    split
    · simp [lacking, grouped, hfixed, hc]
    · exact htested hc _ (by simp [hfixed]) _
  | compare op c v => exact htested (hcolumn c rfl) _ (by cases op <;> simp [Comparison.sign, hfixed]) _
  | like c p =>
    have hc := hcolumn c rfl
    rw [predicate]
    cases Pattern.shape? p with
    | none => exact fun l hl => absurd hl List.not_mem_nil
    | some shape =>
      cases shape with
      | contains s => exact happlied hc (by simp [hfixed]) s
      | beginsWith s => exact happlied hc (by simp [hfixed]) s
      | exact s => exact htested hc _ (by simp [hfixed]) _
      | any => simp [matched, hfixed, hc]
  | range c min max inclusive =>
    have hc := hcolumn c rfl
    rw [predicate]
    cases min <;> cases max <;> cases inclusive <;> simp only [Option.map_none, Option.map_some, ranged]
    case none.none.false | none.none.true => exact fun l hl => absurd hl List.not_mem_nil
    case some.some.true => simp [hfixed, hvalue, hc]
    case some.some.false low high =>
      have hlow := htested hc ">" (by simp [hfixed]) low.boundAttribute
      have hhigh := htested hc "<" (by simp [hfixed]) high.boundAttribute
      simpa [grouped, hfixed, or_imp, forall_and] using And.intro hlow hhigh
    all_goals exact htested hc _ (by simp [hfixed]) _
  | _ => exact fun l hl => absurd hl List.not_mem_nil

/-! ### Rendered predicates -/

/-- A value in the text and in the list. -/
def Attribute.fragment (a : Attribute) : Fragment Attribute := ⟨a.lexeme.write '"', [a]⟩

/-- An attribute in the text is listed alone. -/
@[simp] theorem values_fragment (a : Attribute) : a.fragment.values = [a] := rfl

/-- A value is written as its attribute, if it can be written. -/
theorem value_eq {v : Value} {b : Fragment Attribute} (h : value v = .ok b) :
    b = v.attribute.fragment := by
  cases v with
  | text s => exact (Except.ok.inj h).symm
  | number x => exact (Except.ok.inj h).symm
  | group f => cases h

/-- A bound is written as its attribute, if it can be written. -/
theorem bound_eq {v : Value} {b : Fragment Attribute} (h : bound v = .ok b) :
    b = v.boundAttribute.fragment := by
  cases v with
  | text s =>
    rw [bound] at h
    rw [Value.boundAttribute]
    cases hx : Decimal.finite? s.toList with
    | some x =>
      rw [hx] at h
      rw [← Except.ok.inj h]
      rfl
    | none =>
      rw [hx] at h
      rw [← Except.ok.inj h]
      rfl
  | number x => exact (Except.ok.inj h).symm
  | group f => cases h

/-- The attribute of a finite value can be written. -/
theorem isProper_attribute {v : Value} (h : v.isFinite = true) : v.attribute.lexeme.IsProper := by
  cases v with
  | text s => trivial
  | number x => exact isNumeral_numberText h
  | group f => trivial

/-- The attribute of a finite bound can be written. -/
theorem isProper_boundAttribute {v : Value} (h : v.isFinite = true) :
    v.boundAttribute.lexeme.IsProper := by
  cases v with
  | text s =>
    rw [Value.boundAttribute]
    split
    · rename_i x hx
      exact isNumeral_numberText (Decimal.isFinite_of_finite? hx)
    · trivial
  | number x => exact isNumeral_numberText h
  | group f => trivial

variable {q : Char}

/-- The lexemes of an order can be told apart. -/
theorem isLaid_tested (hq : IsQuote q) {c : Column} (hc : (columnLexeme c).IsProper) (sign : String)
    (hsign : ∀ s ∈ sign.toList, s ≠ '-' ∧ s ∈ marks) {a : Attribute} (ha : a.lexeme.IsProper) :
    IsLaid q (tested c sign a) := by
  have hsigns : IsLaid q (sign.toList.map mark ++ [mark ' ', a.lexeme]) := by
    generalize sign.toList = s at hsign
    induction s with
    | nil => simp [marks, ha]
    | cons s r ih =>
      obtain ⟨⟨hne, hmark⟩, hr⟩ := List.forall_mem_cons.1 hsign
      exact (isLaid_mark_cons hne).2 ⟨hmark, ih hr⟩
  simp [tested, hq, hc, hsigns, marks]

/-- The lexemes of a match with a pattern can be told apart. -/
theorem isLaid_matched (hq : IsQuote q) {c : Column} (hc : (columnLexeme c).IsProper)
    (shape : Option Pattern.Shape) : IsLaid q (matched c shape) := by
  have hword {s : String} (hs : s ∈ words) : (keyword s).IsProper := isProper_of_mem_words hs
  have happlied {function : String} (hfunction : function ∈ words) (s : String) :
      IsLaid q (applied function c s) := by
    simp [applied, grouped, hq, hc, hword hfunction, marks]
  cases shape with
  | none => exact isLaid_nil
  | some shape =>
    cases shape with
    | contains s => exact happlied (by simp [words]) s
    | beginsWith s => exact happlied (by simp [words]) s
    | exact s => exact isLaid_tested (a := .text s) hq hc _ (by simp [marks]) trivial
    | any =>
      have his := hword (s := "IS") (by simp [words])
      have hnot := hword (s := "NOT") (by simp [words])
      have hmissing := hword (s := "MISSING") (by simp [words])
      simp [matched, hq, hc, his, hnot, hmissing, marks]

/-- The lexemes of a range can be told apart. -/
theorem isLaid_ranged (hq : IsQuote q) {c : Column} (hc : (columnLexeme c).IsProper)
    {low high : Option Attribute} (hlow : ∀ a ∈ low, a.lexeme.IsProper)
    (hhigh : ∀ a ∈ high, a.lexeme.IsProper) (inclusive : Bool) :
    IsLaid q (ranged c low high inclusive) := by
  have hand : (keyword "AND").IsProper := isProper_of_mem_words (by simp [words])
  have hbetween : (keyword "BETWEEN").IsProper := isProper_of_mem_words (by simp [words])
  cases low with
  | none =>
    cases high with
    | none => exact isLaid_nil
    | some b => cases inclusive <;> exact isLaid_tested hq hc _ (by simp [marks]) (hhigh b rfl)
  | some a =>
    cases high with
    | none => cases inclusive <;> exact isLaid_tested hq hc _ (by simp [marks]) (hlow a rfl)
    | some b =>
      cases inclusive with
      | true => simp [ranged, hq, hc, hand, hbetween, marks, hlow a rfl, hhigh b rfl]
      | false =>
        have hfirst := isLaid_tested hq hc ">" (by simp [marks]) (hlow a rfl)
        have hsecond := isLaid_tested hq hc "<" (by simp [marks]) (hhigh b rfl)
        simp [ranged, hq, hfirst, hsecond, hand, marks]

/-- **The lexemes of a predicate can be told apart,** if its column can be written and its
numbers are finite. -/
theorem isLaid_predicate (hq : IsQuote q) {g : Filter}
    (hc : ∀ c ∈ g.column?, (columnLexeme c).IsProper) (hv : ∀ v ∈ g.tested, v.isFinite = true) :
    IsLaid q (predicate g) := by
  cases g with
  | equals c v =>
    have hc := hc c rfl
    have his : (keyword "IS").IsProper := isProper_of_mem_words (by simp [words])
    have hnull : (keyword "NULL").IsProper := isProper_of_mem_words (by simp [words])
    have hor : (keyword "OR").IsProper := isProper_of_mem_words (by simp [words])
    have hmissing : (keyword "MISSING").IsProper := isProper_of_mem_words (by simp [words])
    rw [predicate]
    split
    · simp [lacking, hq, hc, marks, his, hnull, hor, hmissing]
    · exact isLaid_tested hq hc _ (by simp [marks]) (isProper_attribute (hv v (by simp [Filter.tested])))
  | compare op c v =>
    have hsign : ∀ s ∈ op.sign.toList, s ≠ '-' ∧ s ∈ marks := by
      cases op <;> simp [Comparison.sign, marks]
    exact isLaid_tested hq (hc c rfl) _ hsign (isProper_attribute (hv v (by simp [Filter.tested])))
  | like c p => exact isLaid_matched hq (hc c rfl) _
  | range c min max inclusive =>
    refine isLaid_ranged hq (hc c rfl) ?_ ?_ inclusive
    · rintro _ ha
      obtain ⟨v, rfl, rfl⟩ := Option.map_eq_some_iff.1 ha
      exact isProper_boundAttribute (hv v (by simp [Filter.tested]))
    · rintro _ ha
      obtain ⟨v, rfl, rfl⟩ := Option.map_eq_some_iff.1 ha
      exact isProper_boundAttribute (hv v (by simp [Filter.tested]))
  | _ => exact isLaid_nil

/-- A column is written as its name, whose parts are identifiers. -/
theorem path_eq {c : Column} {text : List Char} (h : path c = .ok text) :
    text = c.name.toList ∧ (columnLexeme c).IsProper := by
  unfold path at h
  split at h
  · rename_i hparts
    exact ⟨(Except.ok.inj h).symm, hparts⟩
  · cases h

/-- A fragment that writes a predicate and lists the attributes of its leaf. -/
structure IsPredicate (q : Char) (g : Filter) (b : Fragment Attribute) : Prop where
  text : b.text = spell q (predicate g)
  values : b.values = g.attributes
  column : ∀ c ∈ g.column?, (columnLexeme c).IsProper

/-- How a predicate is known to be written: its column is, and what is said of text and
values holds with the column's name in place. -/
theorem isPredicate_of_path {g : Filter} {c : Column} {text : List Char} {b : Fragment Attribute}
    (hpath : path c = .ok text) (hc : g.column? = some c)
    (h : text = c.name.toList → b.text = spell q (predicate g) ∧ b.values = g.attributes) :
    IsPredicate q g b := by
  obtain ⟨htext, hcolumn⟩ := path_eq hpath
  obtain ⟨h₁, h₂⟩ := h htext
  refine ⟨h₁, h₂, fun c' hc' => ?_⟩
  obtain rfl : c = c' := Option.some.inj (hc.symm.trans hc')
  exact hcolumn

/-- The text of an order is that of its lexemes. -/
theorem text_tested (c : Column) (sign : String) (a : Attribute) :
    (Fragment.plain c.name.toList ++ Fragment.word (" " ++ sign ++ " ") ++ a.fragment).text =
      spell q (tested c sign a) := by
  have hsigns : spell q (sign.toList.map mark) = sign.toList := by
    generalize sign.toList = s
    induction s with
    | nil => rfl
    | cons s r ih => simp [ih]
  cases a <;>
    simp [tested, columnLexeme, Attribute.fragment, Attribute.lexeme, Fragment.plain, Fragment.word,
      hsigns]

/-- The column, a sign and a value. -/
theorem isPredicate_tested {g : Filter} {c : Column} {text : List Char} (sign : String)
    {a : Attribute} (hpath : path c = .ok text) (hc : g.column? = some c)
    (hlexemes : predicate g = tested c sign a) (hvalues : g.attributes = [a]) :
    IsPredicate q g (.plain text ++ .word (" " ++ sign ++ " ") ++ a.fragment) := by
  refine isPredicate_of_path hpath hc ?_
  rintro rfl
  rw [hlexemes, hvalues]
  exact ⟨text_tested c sign a, rfl⟩

/-- An equality writes its predicate, also one with `null`. -/
theorem isPredicate_equals {c : Column} {v : Value} {b : Fragment Attribute}
    (h : target.equals c v = .ok b) : IsPredicate q (.equals c v) b := by
  obtain ⟨text, hpath, h⟩ := bind_eq_ok.1 h
  split at h
  · rename_i hnull
    obtain rfl := Except.ok.inj h
    refine isPredicate_of_path hpath rfl ?_
    rintro rfl
    simp only [predicate, Filter.attributes, hnull, if_true]
    exact ⟨by simp [lacking, grouped, keyword, columnLexeme, target, Fragment.plain], rfl⟩
  · rename_i hnull
    obtain ⟨a, ha, h⟩ := bind_eq_ok.1 h
    obtain rfl := value_eq ha
    obtain rfl := Except.ok.inj h
    refine isPredicate_tested "=" hpath rfl ?_ ?_
    · rw [predicate, if_neg hnull]
    · rw [Filter.attributes, if_neg hnull]

/-- A comparison writes its predicate. -/
theorem isPredicate_compare {op : Comparison} {c : Column} {v : Value} {b : Fragment Attribute}
    (h : target.compare op c v = .ok b) : IsPredicate q (.compare op c v) b := by
  obtain ⟨text, a, hpath, ha, rfl⟩ := Target.exists_of_compare h
  obtain rfl := value_eq ha
  exact isPredicate_tested op.sign hpath rfl rfl rfl

/-- A match with a pattern of one of the known shapes writes its predicate. -/
theorem isPredicate_like {c : Column} {p : String} {b : Fragment Attribute}
    (h : like c p = .ok b) : IsPredicate q (.like c p) b := by
  obtain ⟨text, hpath, h⟩ := bind_eq_ok.1 h
  have applied (function : String) {opening s : String} (hopening : opening.toList = function.toList ++ ['('])
      (hlexemes : predicate (.like c p) = applied function c s)
      (hvalues : (Filter.like c p).attributes = [.text s]) :
      IsPredicate q (.like c p)
        (.word opening ++ .plain text ++ .word ", " ++ string s ++ .word ")") := by
    refine isPredicate_of_path hpath rfl ?_
    rintro rfl
    rw [hlexemes, hvalues]
    refine ⟨?_, rfl⟩
    simp [PartiQL.applied, grouped, keyword, columnLexeme, string, Fragment.plain, Fragment.word,
      hopening]
  split at h
  · cases h
  · rename_i s hshape
    obtain rfl := Except.ok.inj h
    exact applied "contains" (by simp) (by rw [predicate, hshape, matched])
      (by simp [Filter.attributes, hshape, Pattern.Shape.attribute?])
  · rename_i s hshape
    obtain rfl := Except.ok.inj h
    exact applied "begins_with" (by simp) (by rw [predicate, hshape, matched])
      (by simp [Filter.attributes, hshape, Pattern.Shape.attribute?])
  · rename_i s hshape
    obtain rfl := Except.ok.inj h
    exact isPredicate_tested "=" (a := .text s) hpath rfl (by rw [predicate, hshape, matched])
      (by simp [Filter.attributes, hshape, Pattern.Shape.attribute?])
  · rename_i hshape
    obtain rfl := Except.ok.inj h
    refine isPredicate_of_path hpath rfl ?_
    rintro rfl
    rw [predicate, Filter.attributes, hshape]
    exact ⟨by simp [matched, keyword, columnLexeme, Fragment.plain, Fragment.word], rfl⟩

/-- Both bounds of a range. -/
theorem text_between (c : Column) (a b : Attribute) (inclusive : Bool) :
    (if inclusive then
        Fragment.plain c.name.toList ++ Fragment.word " BETWEEN " ++ a.fragment ++
          Fragment.word " AND " ++ b.fragment
      else
        Fragment.word "(" ++ Fragment.plain c.name.toList ++ Fragment.word " > " ++ a.fragment ++
          Fragment.word " AND " ++ Fragment.plain c.name.toList ++ Fragment.word " < " ++
          b.fragment ++ Fragment.word ")").text =
      spell q (ranged c (some a) (some b) inclusive) := by
  cases inclusive with
  | true =>
    cases a <;> cases b <;>
      simp [ranged, keyword, columnLexeme, Attribute.fragment, Attribute.lexeme, Fragment.plain,
        Fragment.word]
  | false =>
    have hfirst := text_tested (q := q) c ">" a
    have hsecond := text_tested (q := q) c "<" b
    simp only [Fragment.text_append] at hfirst hsecond
    simp [ranged, grouped, keyword, ← hfirst, ← hsecond, Fragment.plain, Fragment.word]

/-- A range writes its predicate, whichever bounds it has. -/
theorem isPredicate_range {c : Column} {min max : Option Value} {inclusive : Bool}
    {b : Fragment Attribute} (h : target.range c min max inclusive = .ok b) :
    IsPredicate q (.range c min max inclusive) b := by
  obtain ⟨text, hpath, h⟩ := Target.exists_ranges h
  cases h with
  | below ha =>
    obtain rfl := bound_eq ha
    cases inclusive with
    | true => exact isPredicate_tested "<=" hpath rfl rfl rfl
    | false => exact isPredicate_tested "<" hpath rfl rfl rfl
  | above ha =>
    obtain rfl := bound_eq ha
    cases inclusive with
    | true => exact isPredicate_tested ">=" hpath rfl rfl rfl
    | false => exact isPredicate_tested ">" hpath rfl rfl rfl
  | @between low high _ _ _ ha hd =>
    obtain rfl := bound_eq ha
    obtain rfl := bound_eq hd
    have hbetween := text_between (q := q) c low.boundAttribute high.boundAttribute inclusive
    refine isPredicate_of_path hpath rfl ?_
    rintro rfl
    cases inclusive with
    | true => exact ⟨hbetween, rfl⟩
    | false => exact ⟨hbetween, rfl⟩

/-- **Every predicate that is rendered is written in its lexemes,** and lists the
attributes of its leaf. -/
theorem isPredicate_of_render {g : Filter} {b : Fragment Attribute} (hg : g.isPredicate = true)
    (h : target.render g = .ok b) : IsPredicate q g b := by
  cases Target.renders_of_render hg h with
  | equals _ h => exact isPredicate_equals h
  | compare h => exact isPredicate_compare h
  | like h => exact isPredicate_like h
  | range h => exact isPredicate_range h
  | wild h | fuzzy h => cases h

/-! ### Statements -/

/-- A rendered filter is the sentence of its predicates, with the attributes of its leaves. -/
theorem writes_of_render (q : Char) {f : Filter} {a : Fragment Attribute}
    (h : target.render f = .ok a) : a.Writes q predicate Filter.attributes
      (fun g => ∀ c ∈ g.column?, (columnLexeme c).IsProper) f := by
  refine Target.writes_of_render (fun hg hb => ?_) h
  have hpredicate := isPredicate_of_render (q := q) hg hb
  exact ⟨hpredicate.text, hpredicate.values, hpredicate.column⟩

/-- **A rendered filter is read as the sentence of its predicates,** and lists the
attributes of its leaves from left to right. -/
theorem written_of_render (hq : IsQuote q) {f : Filter} {condition : Condition} (hf : f.IsFinite)
    (h : render f = .ok condition) :
    lexemes? q condition.statement.toList = some (f.sentence predicate) ∧
      condition.attributes = f.predicates.flatMap Filter.attributes := by
  obtain ⟨a, ha, h⟩ := bind_eq_ok.1 h
  obtain rfl := Except.ok.inj h
  have hwrites := writes_of_render q ha
  have hlaid : IsLaid q (f.sentence predicate) :=
    Filter.isLaid_sentence hq fun g hg => isLaid_predicate hq (hwrites.each g hg) (hf g hg)
  refine ⟨?_, hwrites.values⟩
  rw [String.toList_ofList, hwrites.text]
  exact lexemes?_spell hq hlaid

/-- What a lexeme of a statement can be: a value, a fixed lexeme, or the name of a column
of the filter. -/
def IsKnown (f : Filter) (l : Lexeme) : Prop :=
  (attribute? l).isSome = true ∨ l ∈ vocabulary ∨
    ∃ g ∈ f.predicates, ∃ c ∈ g.column?, l = columnLexeme c

/-- **Nothing of a query gets into a statement but values and columns.** The statement is
read to its end; its literals and numbers are, in order, the attributes; and all else is
a fixed lexeme or the name of a column of the filter. -/
theorem exists_lexemes?_of_render (hq : IsQuote q) {f : Filter} {condition : Condition}
    (hf : f.IsFinite) (h : render f = .ok condition) :
    ∃ ls, lexemes? q condition.statement.toList = some ls ∧
      ls.filterMap attribute? = condition.attributes ∧ ∀ l ∈ ls, IsKnown f l := by
  obtain ⟨hreads, hattributes⟩ := written_of_render hq hf h
  refine ⟨_, hreads, ?_, ?_⟩
  · have hnone : ∀ l ∈ connectives, attribute? l = none := by decide +kernel
    rw [Filter.filterMap_sentence hnone, hattributes, List.filterMap_flatMap]
    simp only [filterMap_predicate]
  · have hconnectives : ∀ l ∈ connectives, l ∈ vocabulary := by decide +kernel
    refine Filter.forall_mem_sentence (fun l hl => .inr (.inl (hconnectives l hl))) fun g hg => ?_
    exact forall_mem_predicate (fun a => .inl (by simp)) (fun l hl => .inr (.inl hl))
      fun c hc => .inr (.inr ⟨g, hg, c, hc, rfl⟩)

/-- A string that ends its own literal and goes on with a condition stays a literal. -/
theorem exists_lexemes?_of_apostrophe :
    ∃ condition ls, render (.mustNot (.equals ⟨"a.b"⟩ (.text "x' OR '1' = '1"))) = .ok condition ∧
      condition.statement = "NOT (a.b = 'x'' OR ''1'' = ''1')" ∧
      lexemes? '"' condition.statement.toList = some ls ∧
      ls.filterMap attribute? = [.text "x' OR '1' = '1"] := by
  have hrender : render (.mustNot (.equals ⟨"a.b"⟩ (.text "x' OR '1' = '1"))) =
      .ok ⟨"NOT (a.b = 'x'' OR ''1'' = ''1')", [.text "x' OR '1' = '1"]⟩ := by rfl
  obtain ⟨ls, hreads, hattributes, -⟩ :=
    exists_lexemes?_of_render (.inl rfl) (by decide +kernel) hrender
  exact ⟨_, ls, hrender, rfl, hreads, hattributes⟩

end PartiQL
end SearchFilter
