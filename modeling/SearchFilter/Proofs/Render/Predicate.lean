/-
# Predicates in SQL

The predicates that a dialect writes, in lexemes. Each names one column, and has a
placeholder for every value that its leaf binds.

| predicate | lexemes |
| --- | --- |
| `equals c null` | `c IS NULL` |
| `equals c v`, `compare op c v` | `c = ?`, `c op ?` |
| `like c p`, `wild c p` | a match of `c` with `?` |
| `fuzzy (equals c v)` | a likeness of `c` and `?` |
| `range c` with one bound | `c >= ?` and the like |
| `range c` with both | `c BETWEEN ? AND ?` or `(c > ? AND c < ?)` |
-/

import SearchFilter.Proofs.Render.Sentence
import SearchFilter.Render.Sql

namespace SearchFilter

open Lexeme

/-! ### The values of a leaf -/

/-- The parameter of a value. -/
def Value.parameter : Value → Json
  | text s => .string s
  | number x =>
    match x.toInt63? with
    | some i => .number (.integer i)
    | none => .number (.real x)
  | group _ => .null

/-- The values that a leaf binds: none to compare with `null`, one for each bound of a
range, and one otherwise. -/
def Filter.boundValues : Filter → List Json
  | equals _ v => if v.isNull then [] else [v.parameter]
  | compare _ _ v => [v.parameter]
  | like _ p => [.string (Pattern.toLike p)]
  | wild _ p => [.string (Pattern.toLike p)]
  | range _ min max _ => (min.toList ++ max.toList).map Value.parameter
  | fuzzy f _ => f.boundValues
  | _ => []

namespace Sql

/-! ### The lexemes of a predicate -/

/-- The words that are no names. -/
def words : List String :=
  ["AND", "OR", "NOT", "IS", "NULL", "BETWEEN", "LIKE", "ILIKE", "ESCAPE", "LOWER", "text",
    "similarity", "SOUNDEX", "JSON_UNQUOTE", "JSON_EXTRACT"]

/-- The words that are no names can be written as words. -/
theorem isProper_of_mem_words {s : String} (h : s ∈ words) : (keyword s).IsProper := by
  have hwords : ∀ w ∈ words, Text.isIdentifier w.toList = true := by decide +kernel
  exact isProper_keyword (hwords s h)

namespace Dialect

/-- The name of a part, or the path to it. -/
def partText (d : Dialect) (part : List Char) : List Char :=
  match d with
  | postgresql => part
  | _ => '$' :: '.' :: part

/-- The access to a part of a structured column. -/
def access (d : Dialect) (base part : List Char) : List Lexeme :=
  match d with
  | postgresql => [word base, mark '-', mark '>', mark '>', literal (d.partText part)]
  | mysql =>
    keyword "JSON_UNQUOTE" :: grouped (keyword "JSON_EXTRACT" ::
      grouped [word base, mark ',', literal (d.partText part)])
  | sqlite => keyword "JSON_EXTRACT" :: grouped [word base, mark ',', literal (d.partText part)]

/-- A column: its quoted name, or the access to a part. -/
def columnLexemes (d : Dialect) (c : Column) : List Lexeme :=
  match c.split with
  | (base, some part) => d.access base.toList part.toList
  | (name, none) => [quoted name.toList]

/-- An order against a bound value. -/
def tested (sign : String) : List Lexeme := mark ' ' :: (sign.toList.map mark ++ [mark ' ', slot])

/-- A match with a pattern. -/
def matched (d : Dialect) (c : Column) : List Lexeme :=
  match d with
  | postgresql =>
    d.columnLexemes c ++ (if c.split.2.isSome then [] else [mark ':', mark ':', keyword "text"]) ++
      [mark ' ', keyword "ILIKE", mark ' ', slot]
  | mysql =>
    keyword "LOWER" :: grouped (d.columnLexemes c) ++
      [mark ' ', keyword "LIKE", mark ' ', keyword "LOWER"] ++ grouped [slot]
  | sqlite =>
    d.columnLexemes c ++
      [mark ' ', keyword "LIKE", mark ' ', slot, mark ' ', keyword "ESCAPE", mark ' ',
        literal ['\\']]

/-- A likeness to a word. -/
def likened (d : Dialect) (c : Column) : List Lexeme :=
  match d with
  | postgresql =>
    keyword "similarity" :: grouped (d.columnLexemes c ++ [mark ',', mark ' ', slot]) ++
      [mark ' ', mark '>', mark ' ', number ['0', '.', '3']]
  | mysql =>
    keyword "SOUNDEX" :: grouped (d.columnLexemes c) ++
      [mark ' ', mark '=', mark ' ', keyword "SOUNDEX"] ++ grouped [slot]
  | sqlite => []

/-- A range with the bounds that there are. -/
def ranged (d : Dialect) (c : Column) (low high inclusive : Bool) : List Lexeme :=
  match low, high, inclusive with
  | true, true, true =>
    d.columnLexemes c ++
      [mark ' ', keyword "BETWEEN", mark ' ', slot, mark ' ', keyword "AND", mark ' ', slot]
  | true, true, false =>
    grouped (d.columnLexemes c ++ tested ">" ++
      [mark ' ', keyword "AND", mark ' '] ++ d.columnLexemes c ++ tested "<")
  | true, false, true => d.columnLexemes c ++ tested ">="
  | true, false, false => d.columnLexemes c ++ tested ">"
  | false, true, true => d.columnLexemes c ++ tested "<="
  | false, true, false => d.columnLexemes c ++ tested "<"
  | false, false, _ => []

/-- The lexemes of a predicate. -/
def predicate (d : Dialect) : Filter → List Lexeme
  | .equals c v =>
    d.columnLexemes c ++
      if v.isNull then [mark ' ', keyword "IS", mark ' ', keyword "NULL"] else tested "="
  | .compare op c _ => d.columnLexemes c ++ tested op.sign
  | .like c _ => d.matched c
  | .wild c _ => d.matched c
  | .fuzzy (.equals c _) _ => d.likened c
  | .range c min max inclusive => d.ranged c min.isSome max.isSome inclusive
  | _ => []

/-- The quote of a dialect is one of identifiers. -/
theorem isQuote_quote (d : Dialect) : IsQuote d.quote := by
  cases d
  · exact .inl rfl
  · exact .inr rfl
  · exact .inl rfl

end Dialect

/-- A column without a point is its name between quotes. -/
theorem columnLexemes_plain {d : Dialect} {c : Column} {name : String}
    (h : c.split = (name, none)) : d.columnLexemes c = [quoted name.toList] := by
  rw [Dialect.columnLexemes, h]

/-- A column with a point is the access to a part. -/
theorem columnLexemes_dotted {d : Dialect} {c : Column} {base part : String}
    (h : c.split = (base, some part)) :
    d.columnLexemes c = d.access base.toList part.toList := by
  rw [Dialect.columnLexemes, h]

/-- The text of the access to a part is what the dialect writes for it. -/
theorem spell_access (d : Dialect) {base part : List Char} (h : Text.isIdentifier part = true) :
    spell d.quote (d.access base part) = d.accessor base part := by
  have hpart : Text.doubled '\'' part = part :=
    Text.doubled_of_not_mem (Text.not_mem_of_not_isNamePart h (by decide))
  cases d with
  | postgresql =>
    show _ = base ++ "->>'".toList ++ part ++ "'".toList
    simp [Dialect.access, Dialect.partText, Text.enclose, hpart]
  | mysql =>
    show _ = "JSON_UNQUOTE(JSON_EXTRACT(".toList ++ base ++ ",'$.".toList ++ part ++ "'))".toList
    simp [Dialect.access, Dialect.partText, keyword, grouped, Text.enclose, Text.doubled_cons,
      hpart]
  | sqlite =>
    show _ = "JSON_EXTRACT(".toList ++ base ++ ",'$.".toList ++ part ++ "')".toList
    simp [Dialect.access, Dialect.partText, keyword, grouped, Text.enclose, Text.doubled_cons,
      hpart]

/-- The lexemes of the access to a part can be told apart. -/
theorem isLaid_access (d : Dialect) {base : List Char} (part : List Char)
    (h : Text.isIdentifier base = true) : IsLaid d.quote (d.access base part) := by
  have hq := d.isQuote_quote
  have hbase : (word base).IsProper := isProper_word h
  cases d with
  | postgresql => simp [Dialect.access, hq, hbase, marks]
  | mysql =>
    have hunquote : (keyword "JSON_UNQUOTE").IsProper := isProper_of_mem_words (by simp [words])
    have hextract : (keyword "JSON_EXTRACT").IsProper := isProper_of_mem_words (by simp [words])
    simp [Dialect.access, grouped, hq, hbase, hunquote, hextract, marks]
  | sqlite =>
    have hextract : (keyword "JSON_EXTRACT").IsProper := isProper_of_mem_words (by simp [words])
    simp [Dialect.access, grouped, hq, hbase, hextract, marks]

/-- The text of a column is that of its lexemes, which have no placeholders. -/
theorem column_spec {d : Dialect} {c : Column} {text : List Char} (h : d.column c = .ok text) :
    text = spell d.quote (d.columnLexemes c) ∧ IsLaid d.quote (d.columnLexemes c) ∧
      (d.columnLexemes c).countP isSlot = 0 := by
  unfold Dialect.column at h
  split at h
  · rename_i base part hsplit
    split at h
    · rename_i hnames
      obtain ⟨hbase, hpart⟩ := Bool.and_eq_true_iff.1 hnames
      obtain rfl := Except.ok.inj h
      rw [columnLexemes_dotted hsplit]
      refine ⟨(spell_access d hpart).symm, isLaid_access d part.toList hbase, ?_⟩
      cases d <;> simp [Dialect.access, grouped, keyword, isSlot]
    · cases h
  · rename_i name hsplit
    obtain rfl := Except.ok.inj h
    rw [columnLexemes_plain hsplit]
    exact ⟨by simp [Dialect.identifier, write], by simp, by simp [isSlot]⟩

/-! ### Rendered predicates -/

/-- A predicate that a dialect can write. -/
structure IsWritten (d : Dialect) (g : Filter) : Prop where
  laid : IsLaid d.quote (d.predicate g)
  slots : (d.predicate g).countP isSlot = g.boundValues.length
  column : ∀ c ∈ g.column?, ∃ text, d.column c = .ok text

/-- A fragment that writes a predicate and has the values of its leaf. -/
structure IsPredicate (d : Dialect) (g : Filter) (b : Fragment Json) : Prop extends
    IsWritten d g where
  text : b.text = spell d.quote (d.predicate g)
  values : b.values = g.boundValues

/-- A value is bound as its parameter, if it can be bound. -/
theorem parameter_of_param {v : Value} {p : Json} (h : param v = .ok p) : p = v.parameter := by
  cases v with
  | text s => exact (Except.ok.inj h).symm
  | number x =>
    rw [param, numberParam] at h
    cases hx : x.toInt63? with
    | some i =>
      rw [hx] at h
      rw [Value.parameter, hx]
      exact (Except.ok.inj h).symm
    | none =>
      simp only [hx] at h
      rw [Value.parameter, hx]
      split at h
      · exact (Except.ok.inj h).symm
      · cases h
  | group f => cases h

/-- A bound value is a placeholder and its parameter. -/
theorem bind_eq {v : Value} {a : Fragment Json} (h : bind v = .ok a) :
    a = ⟨['?'], [v.parameter]⟩ := by
  obtain ⟨p, hp, h⟩ := bind_eq_ok.1 h
  rw [← parameter_of_param hp, ← Except.ok.inj h]

/-- How a predicate is known to be written: its column is, and what is said of lexemes,
text and values holds with the column's lexemes in place. -/
theorem isPredicate_of_column {d : Dialect} {g : Filter} {c : Column} {b : Fragment Json}
    {text : List Char} (hcolumn : d.column c = .ok text) (hc : g.column? = some c)
    (h : IsLaid d.quote (d.columnLexemes c) → (d.columnLexemes c).countP isSlot = 0 →
      text = spell d.quote (d.columnLexemes c) →
      IsLaid d.quote (d.predicate g) ∧ (d.predicate g).countP isSlot = g.boundValues.length ∧
        b.text = spell d.quote (d.predicate g) ∧ b.values = g.boundValues) :
    IsPredicate d g b := by
  obtain ⟨htext, hlaid, hslots⟩ := column_spec hcolumn
  obtain ⟨h₁, h₂, h₃, h₄⟩ := h hlaid hslots htext
  refine ⟨⟨h₁, h₂, ?_⟩, h₃, h₄⟩
  intro c' hc'
  obtain rfl : c = c' := Option.some.inj (hc.symm.trans hc')
  exact ⟨text, hcolumn⟩

/-- The column, a sign and a placeholder. -/
theorem isPredicate_tested {d : Dialect} {g : Filter} {c : Column} {v : Value} {text : List Char}
    (sign : String) (hcolumn : d.column c = .ok text) (hc : g.column? = some c)
    (hsign : ∀ s ∈ sign.toList, s ≠ '-' ∧ s ∈ marks)
    (hlexemes : d.predicate g = d.columnLexemes c ++ Dialect.tested sign)
    (hvalues : g.boundValues = [v.parameter]) :
    IsPredicate d g (.plain text ++ .word (" " ++ sign ++ " ") ++ ⟨['?'], [v.parameter]⟩) := by
  have hq := d.isQuote_quote
  refine isPredicate_of_column hcolumn hc ?_
  rintro hlaid hslots rfl
  have htested : IsLaid d.quote (sign.toList.map mark ++ [mark ' ', slot]) := by
    generalize sign.toList = s at hsign
    induction s with
    | nil => simp [marks]
    | cons s r ih =>
      obtain ⟨⟨hne, hmark⟩, hr⟩ := List.forall_mem_cons.1 hsign
      exact (isLaid_mark_cons hne).2 ⟨hmark, ih hr⟩
  have hspell (s : List Char) : spell d.quote (s.map mark) = s := by
    induction s with
    | nil => rfl
    | cons s r ih => simp [ih]
  have hcount (s : List Char) : (s.map mark).countP isSlot = 0 := by simp [isSlot]
  rw [hlexemes, hvalues, Dialect.tested]
  refine ⟨?_, ?_, ?_, ?_⟩
  · simp [hq, hlaid, htested, marks]
  · simp [hslots, hcount]
  · simp [Fragment.plain, Fragment.word, hspell]
  · simp [Fragment.plain, Fragment.word]

/-- An equality writes its predicate, also one with `null`. -/
theorem isPredicate_equals {d : Dialect} {c : Column} {v : Value} {b : Fragment Json}
    (h : d.target.equals c v = .ok b) : IsPredicate d (.equals c v) b := by
  have hq := d.isQuote_quote
  obtain ⟨text, hcolumn, h⟩ := bind_eq_ok.1 h
  split at h
  · rename_i hnull
    obtain rfl := Except.ok.inj h
    refine isPredicate_of_column hcolumn rfl ?_
    rintro hlaid hslots rfl
    have his : (keyword "IS").IsProper := isProper_of_mem_words (by simp [words])
    have hword : (keyword "NULL").IsProper := isProper_of_mem_words (by simp [words])
    simp only [Dialect.predicate, Filter.boundValues, hnull, if_true]
    refine ⟨?_, ?_, ?_, rfl⟩
    · simp [hq, hlaid, his, hword, marks]
    · simp [hslots, keyword]
    · simp [Dialect.target, Fragment.plain, keyword]
  · rename_i hnull
    obtain ⟨a, ha, h⟩ := bind_eq_ok.1 h
    obtain rfl := bind_eq ha
    obtain rfl := Except.ok.inj h
    refine isPredicate_tested "=" hcolumn rfl (by simp [marks]) ?_ ?_
    · rw [Dialect.predicate, if_neg hnull]
    · rw [Filter.boundValues, if_neg hnull]

/-- A comparison writes its predicate. -/
theorem isPredicate_compare {d : Dialect} {op : Comparison} {c : Column} {v : Value}
    {b : Fragment Json} (h : d.target.compare op c v = .ok b) :
    IsPredicate d (.compare op c v) b := by
  obtain ⟨text, a, hcolumn, ha, rfl⟩ := Target.exists_of_compare h
  obtain rfl := bind_eq ha
  have hsign : ∀ s ∈ op.sign.toList, s ≠ '-' ∧ s ∈ marks := by
    cases op <;> simp [Comparison.sign, marks]
  exact isPredicate_tested op.sign hcolumn rfl hsign rfl rfl

/-- Both bounds of a range. -/
theorem isPredicate_between {d : Dialect} {c : Column} {low high : Value} {inclusive : Bool}
    {text : List Char} (hcolumn : d.column c = .ok text) :
    IsPredicate d (.range c (some low) (some high) inclusive)
      (if inclusive then
        .plain text ++ .word " BETWEEN " ++ ⟨['?'], [low.parameter]⟩ ++ .word " AND " ++
          ⟨['?'], [high.parameter]⟩
      else
        .word "(" ++ .plain text ++ .word " > " ++ ⟨['?'], [low.parameter]⟩ ++ .word " AND " ++
          .plain text ++ .word " < " ++ ⟨['?'], [high.parameter]⟩ ++ .word ")") := by
  have hq := d.isQuote_quote
  refine isPredicate_of_column hcolumn rfl ?_
  rintro hlaid hslots rfl
  have hbetween : (keyword "BETWEEN").IsProper := isProper_of_mem_words (by simp [words])
  have hand : (keyword "AND").IsProper := isProper_of_mem_words (by simp [words])
  cases inclusive with
  | true =>
    show IsLaid d.quote (d.ranged c true true true) ∧
      (d.ranged c true true true).countP isSlot = 2 ∧
      _ = spell d.quote (d.ranged c true true true) ∧ _
    refine ⟨?_, ?_, ?_, ?_⟩
    · simp [Dialect.ranged, hq, hlaid, hbetween, hand, marks]
    · simp [Dialect.ranged, List.countP_cons, hslots, keyword]
    · simp [Dialect.ranged, keyword, Fragment.plain, Fragment.word]
    · simp [Filter.boundValues, Fragment.plain, Fragment.word]
  | false =>
    show IsLaid d.quote (d.ranged c true true false) ∧
      (d.ranged c true true false).countP isSlot = 2 ∧
      _ = spell d.quote (d.ranged c true true false) ∧ _
    refine ⟨?_, ?_, ?_, ?_⟩
    · simp [Dialect.ranged, Dialect.tested, hq, hlaid, hand, marks]
    · simp [Dialect.ranged, Dialect.tested, grouped, List.countP_cons, hslots, keyword]
    · simp [Dialect.ranged, Dialect.tested, grouped, keyword, Fragment.plain, Fragment.word]
    · simp [Filter.boundValues, Fragment.plain, Fragment.word]

/-- A range writes its predicate, whichever bounds it has. -/
theorem isPredicate_range {d : Dialect} {c : Column} {min max : Option Value} {inclusive : Bool}
    {b : Fragment Json} (h : d.target.range c min max inclusive = .ok b) :
    IsPredicate d (.range c min max inclusive) b := by
  obtain ⟨text, hcolumn, h⟩ := Target.exists_ranges h
  cases h with
  | below ha =>
    obtain rfl := bind_eq ha
    cases inclusive
    · exact isPredicate_tested "<" hcolumn rfl (by simp [marks]) rfl rfl
    · exact isPredicate_tested "<=" hcolumn rfl (by simp [marks]) rfl rfl
  | above ha =>
    obtain rfl := bind_eq ha
    cases inclusive
    · exact isPredicate_tested ">" hcolumn rfl (by simp [marks]) rfl rfl
    · exact isPredicate_tested ">=" hcolumn rfl (by simp [marks]) rfl rfl
  | between ha ha' =>
    obtain rfl := bind_eq ha
    obtain rfl := bind_eq ha'
    exact isPredicate_between hcolumn

/-- A match writes its predicate, whichever wildcards the pattern has. -/
theorem isPredicate_like {d : Dialect} {g : Filter} {c : Column} {p : String}
    {b : Fragment Json} (hc : g.column? = some c) (hlexemes : d.predicate g = d.matched c)
    (hvalues : g.boundValues = [.string (Pattern.toLike p)]) (h : like d c p = .ok b) :
    IsPredicate d g b := by
  have hq := d.isQuote_quote
  obtain ⟨text, hcolumn, h⟩ := bind_eq_ok.1 h
  refine isPredicate_of_column hcolumn hc ?_
  rintro hlaid hslots rfl
  rw [hlexemes, hvalues]
  cases d with
  | postgresql =>
    have htype : (keyword "text").IsProper := isProper_of_mem_words (by simp [words])
    have hilike : (keyword "ILIKE").IsProper := isProper_of_mem_words (by simp [words])
    obtain rfl := Except.ok.inj h
    -- a column is cast to text, but a part of one is text already
    cases hsplit : c.split.2 with
    | some part =>
      refine ⟨?_, ?_, ?_, ?_⟩
      · simp [Dialect.matched, hsplit, hq, hlaid, hilike, marks]
      · simp [Dialect.matched, hsplit, List.countP_cons, hslots, keyword]
      · simp [Dialect.matched, hsplit, keyword, Fragment.plain, Fragment.word]
      · simp [Fragment.plain, Fragment.word]
    | none =>
      refine ⟨?_, ?_, ?_, ?_⟩
      · simp [Dialect.matched, hsplit, hq, hlaid, htype, hilike, marks]
      · simp [Dialect.matched, hsplit, List.countP_cons, hslots, keyword]
      · simp [Dialect.matched, hsplit, keyword, Fragment.plain, Fragment.word]
      · simp [Fragment.plain, Fragment.word]
  | mysql =>
    have hlower : (keyword "LOWER").IsProper := isProper_of_mem_words (by simp [words])
    have hlike : (keyword "LIKE").IsProper := isProper_of_mem_words (by simp [words])
    obtain rfl := Except.ok.inj h
    refine ⟨?_, ?_, ?_, ?_⟩
    · simp [Dialect.matched, grouped, hq, hlaid, hlower, hlike, marks]
    · simp [Dialect.matched, grouped, List.countP_cons, hslots, keyword]
    · simp [Dialect.matched, grouped, keyword, Fragment.plain, Fragment.word]
    · simp [Fragment.plain, Fragment.word]
  | sqlite =>
    have hlike : (keyword "LIKE").IsProper := isProper_of_mem_words (by simp [words])
    have hescape : (keyword "ESCAPE").IsProper := isProper_of_mem_words (by simp [words])
    obtain rfl := Except.ok.inj h
    refine ⟨?_, ?_, ?_, ?_⟩
    · simp [Dialect.matched, hq, hlaid, hlike, hescape, marks]
    · simp [Dialect.matched, List.countP_cons, hslots, keyword]
    · simp [Dialect.matched, keyword, Fragment.plain, Fragment.word, Text.enclose,
        Text.doubled_cons]
    · simp [Fragment.plain, Fragment.word]

/-- A likeness is one to a word, and not in every dialect. -/
theorem exists_of_fuzzy {d : Dialect} {f : Filter} {b : Fragment Json} (h : fuzzy d f = .ok b) :
    d ≠ .sqlite ∧ ∃ c s, f = .equals c (.text s) := by
  unfold fuzzy at h
  split at h
  · rename_i c s
    split at h
    · cases h
    · obtain ⟨text, -, h⟩ := bind_eq_ok.1 h
      refine ⟨?_, c, s, rfl⟩
      rintro rfl
      cases h
  · cases h

/-- A likeness writes its predicate, in a dialect that has one. -/
theorem isPredicate_fuzzy {d : Dialect} {f : Filter} {n : Option Nat} {b : Fragment Json}
    (h : fuzzy d f = .ok b) : IsPredicate d (.fuzzy f n) b := by
  have hq := d.isQuote_quote
  unfold fuzzy at h
  split at h
  · rename_i c s
    split at h
    · cases h
    · rename_i hnull
      obtain ⟨text, hcolumn, h⟩ := bind_eq_ok.1 h
      refine isPredicate_of_column hcolumn rfl ?_
      rintro hlaid hslots rfl
      have hvalues : (Filter.fuzzy (.equals c (.text s)) n).boundValues = [.string s] := by
        rw [Filter.boundValues, Filter.boundValues, if_neg hnull]
        rfl
      rw [hvalues]
      show IsLaid d.quote (d.likened c) ∧ (d.likened c).countP isSlot = 1 ∧
        b.text = spell d.quote (d.likened c) ∧ b.values = [.string s]
      cases d with
      | postgresql =>
        have hlikeness : (keyword "similarity").IsProper := isProper_of_mem_words (by simp [words])
        have hbound : (number ['0', '.', '3']).IsProper :=
          ⟨[], ['0'], ['.', '3'], .inl rfl, by decide, .inr ⟨['3'], by decide, rfl⟩, rfl⟩
        obtain rfl := Except.ok.inj h
        refine ⟨?_, ?_, ?_, ?_⟩
        · simp [Dialect.likened, grouped, hq, hlaid, hlikeness, hbound, marks]
        · simp [Dialect.likened, grouped, List.countP_cons, hslots, keyword]
        · simp [Dialect.likened, grouped, keyword, Fragment.plain, Fragment.word]
        · simp [Fragment.plain, Fragment.word]
      | mysql =>
        have hsound : (keyword "SOUNDEX").IsProper := isProper_of_mem_words (by simp [words])
        obtain rfl := Except.ok.inj h
        refine ⟨?_, ?_, ?_, ?_⟩
        · simp [Dialect.likened, grouped, hq, hlaid, hsound, marks]
        · simp [Dialect.likened, grouped, List.countP_cons, hslots, keyword]
        · simp [Dialect.likened, grouped, keyword, Fragment.plain, Fragment.word]
        · simp [Fragment.plain, Fragment.word]
      | sqlite => cases h
  · cases h

/-- **Every predicate that is rendered is written in its lexemes,** with a placeholder for
every value of its leaf. -/
theorem isPredicate_of_render {d : Dialect} {g : Filter} {b : Fragment Json}
    (hg : g.isPredicate = true) (h : d.target.render g = .ok b) : IsPredicate d g b := by
  cases Target.renders_of_render hg h with
  | equals _ h => exact isPredicate_equals h
  | compare h => exact isPredicate_compare h
  | like h | wild h => exact isPredicate_like rfl rfl rfl h
  | range h => exact isPredicate_range h
  | fuzzy h => exact isPredicate_fuzzy h

end Sql
end SearchFilter
