/-
# Clauses

The text of a rendered filter has three parts: placeholders, a fixed vocabulary, and
columns. With columns that a schema has, nothing but a placeholder looks like one, so
that the placeholders of the finished text can be counted wherever they stand, and each
belongs to the leaf whose value is bound to it (`aligned_of_render`).
-/

import SearchFilter.Proofs.Render.Placeholder

namespace SearchFilter
namespace Sql

open Lexeme

/-! ### What the text of a clause consists of -/

/-- The lexemes that are no names and no placeholders. -/
def vocabulary : List Lexeme :=
  marks.map mark ++ words.map keyword ++ [number ['0', '.', '3'], literal ['\\']]

/-- A lexeme that has nothing to do with placeholders. -/
structure IsInert (d : Dialect) (l : Lexeme) : Prop where
  plain : l.isSlot = false
  question : '?' ∉ l.write d.quote
  dollar : d = .postgresql → '$' ∉ l.write d.quote
  apostrophe : (∃ t, l = literal t) ∨ '\'' ∉ l.write d.quote

/-- An enclosed text has its own characters and the quote. -/
theorem mem_enclose {q c : Char} {s : List Char} (h : c ∈ Text.enclose q s) : c = q ∨ c ∈ s := by
  simp only [Text.enclose, Text.doubled, List.mem_cons, List.mem_append, List.mem_flatMap,
    List.not_mem_nil, or_false] at h
  rcases h with h | ⟨d, hd, h⟩ | h
  · exact .inl h
  · split at h
    · exact .inl (by simpa using h)
    · obtain rfl : c = d := by simpa using h
      exact .inr hd
  · exact .inl h

/-- No name character is part of a placeholder or ends a literal. -/
theorem ne_of_isNamePart {c : Char} (h : Text.isNamePart c = true) :
    c ≠ '?' ∧ c ≠ '$' ∧ c ≠ '\'' :=
  ⟨ne_of_eq_true h (by decide), ne_of_eq_true h (by decide), ne_of_eq_true h (by decide)⟩

/-- A lexeme without question marks, dollar signs and apostrophes has nothing to do with
placeholders. -/
theorem isInert_of_forall {d : Dialect} {l : Lexeme} (hplain : l.isSlot = false)
    (h : ∀ c ∈ l.write d.quote, c ≠ '?' ∧ c ≠ '$' ∧ c ≠ '\'') : IsInert d l :=
  ⟨hplain, fun hmem => (h _ hmem).1 rfl, fun _ hmem => (h _ hmem).2.1 rfl,
    .inr fun hmem => (h _ hmem).2.2 rfl⟩

/-- A literal without question marks and dollar signs has nothing to do with placeholders. -/
theorem isInert_literal (d : Dialect) {t : List Char} (hquestion : '?' ∉ t)
    (hdollar : d = .postgresql → '$' ∉ t) : IsInert d (literal t) where
  plain := rfl
  question hmem := (mem_enclose hmem).elim (by decide) hquestion
  dollar hd hmem := (mem_enclose hmem).elim (by decide) (hdollar hd)
  apostrophe := .inl ⟨t, rfl⟩

/-- An identifier as a word has nothing to do with placeholders. -/
theorem isInert_word (d : Dialect) {name : List Char} (h : Text.isIdentifier name = true) :
    IsInert d (word name) :=
  isInert_of_forall rfl fun _ hc => ne_of_isNamePart (Text.isNamePart_of_mem h hc)

/-- An identifier between quotes has nothing to do with placeholders. -/
theorem isInert_quoted (d : Dialect) {name : List Char} (h : Text.isIdentifier name = true) :
    IsInert d (quoted name) := by
  refine isInert_of_forall rfl fun c hc => ?_
  rcases mem_enclose hc with rfl | hc
  · cases d <;> decide
  · exact ne_of_isNamePart (Text.isNamePart_of_mem h hc)

/-- A mark has nothing to do with placeholders. -/
theorem isInert_mark (d : Dialect) {c : Char} (h : c ∈ marks) : IsInert d (mark c) := by
  have hmarks : ∀ c ∈ marks, c ≠ '?' ∧ c ≠ '$' ∧ c ≠ '\'' := by simp [marks]
  refine isInert_of_forall rfl fun c' hc => ?_
  obtain rfl : c' = c := by simpa using hc
  exact hmarks c' h

/-- Fixed lexemes have nothing to do with placeholders. -/
theorem isInert_of_mem_vocabulary (d : Dialect) {l : Lexeme} (h : l ∈ vocabulary) :
    IsInert d l := by
  simp only [vocabulary, List.mem_append, List.mem_map, List.mem_cons, List.not_mem_nil,
    or_false] at h
  rcases h with (⟨c, hc, rfl⟩ | ⟨s, hs, rfl⟩) | rfl | rfl
  · exact isInert_mark d hc
  · have hwords : ∀ w ∈ words, Text.isIdentifier w.toList = true := by decide +kernel
    exact isInert_word d (hwords s hs)
  · exact isInert_of_forall rfl (by simp)
  · exact isInert_literal d (by decide) (fun _ => by decide)

/-- The access to a part consists of base and part and fixed lexemes. -/
theorem forall_mem_access {d : Dialect} {base part : List Char} {Q : Lexeme → Prop}
    (hfixed : ∀ l ∈ vocabulary, Q l) (hbase : Q (word base))
    (hpart : Q (literal (d.partText part))) : ∀ l ∈ d.access base part, Q l := by
  simp only [vocabulary, marks, words, List.map_cons, List.map_nil, List.cons_append,
    List.nil_append, List.forall_mem_cons] at hfixed
  cases d <;> simp [Dialect.access, grouped, or_imp, forall_and, hfixed, hbase, hpart]

/-- A column consists of its name between quotes, or of fixed lexemes, its base, and its part in a
literal. -/
theorem forall_mem_columnLexemes {d : Dialect} {c : Column} {Q : Lexeme → Prop}
    (hfixed : ∀ l ∈ vocabulary, Q l)
    (hname : ∀ {name}, Text.isIdentifier name = true → Q (quoted name) ∧ Q (word name) ∧
      Q (literal (d.partText name))) (hc : c.IsSafe) : ∀ l ∈ d.columnLexemes c, Q l := by
  obtain ⟨hbase, hpart⟩ := hc
  cases hsplit : c.split with
  | mk base part? =>
    rw [hsplit] at hbase hpart
    cases part? with
    | none =>
      rw [columnLexemes_plain hsplit, List.forall_mem_singleton]
      exact (hname hbase).1
    | some part =>
      rw [columnLexemes_dotted hsplit]
      exact forall_mem_access hfixed (hname hbase).2.1 (hname (hpart part rfl)).2.2

/-- What is made of a name has nothing to do with placeholders. -/
theorem isInert_of_isIdentifier (d : Dialect) {name : List Char}
    (h : Text.isIdentifier name = true) :
    IsInert d (quoted name) ∧ IsInert d (word name) ∧ IsInert d (literal (d.partText name)) := by
  have hne {c : Char} (hc : c ∈ name) : c ≠ '?' ∧ c ≠ '$' ∧ c ≠ '\'' :=
    ne_of_isNamePart (Text.isNamePart_of_mem h hc)
  have hquestion : '?' ∉ name := fun hmem => (hne hmem).1 rfl
  have hliteral : IsInert d (literal (d.partText name)) := by
    cases d with
    | postgresql => exact isInert_literal _ hquestion fun _ hmem => (hne hmem).2.1 rfl
    | _ => exact isInert_literal _ (by simp [Dialect.partText, hquestion]) fun h => by cases h
  exact ⟨isInert_quoted d h, isInert_word d h, hliteral⟩

/-- A column that can be written unquoted has nothing to do with placeholders. -/
theorem isInert_of_mem_columnLexemes {d : Dialect} {c : Column} (hc : c.IsSafe) :
    ∀ l ∈ d.columnLexemes c, IsInert d l :=
  forall_mem_columnLexemes (fun _ => isInert_of_mem_vocabulary d) (isInert_of_isIdentifier d) hc

/-- A predicate consists of its column, fixed lexemes and placeholders. -/
theorem forall_mem_predicate {d : Dialect} {g : Filter} {Q : Lexeme → Prop} (hslot : Q slot)
    (hfixed : ∀ l ∈ vocabulary, Q l) (hcolumn : ∀ c ∈ g.column?, ∀ l ∈ d.columnLexemes c, Q l) :
    ∀ l ∈ d.predicate g, Q l := by
  simp only [vocabulary, marks, words, List.map_cons, List.map_nil, List.cons_append,
    List.nil_append, List.forall_mem_cons] at hfixed
  have hmatched {c : Column} (hc : ∀ l ∈ d.columnLexemes c, Q l) : ∀ l ∈ d.matched c, Q l := by
    cases d with
    | postgresql =>
      simp only [Dialect.matched, List.forall_mem_append]
      refine ⟨⟨hc, ?_⟩, by simp [hfixed, hslot]⟩
      split <;> simp [hfixed]
    | mysql =>
      simpa [Dialect.matched, grouped, or_imp, forall_and, hfixed, hslot] using hc
    | sqlite =>
      simp only [Dialect.matched, List.forall_mem_append]
      exact ⟨hc, by simp [hfixed, hslot]⟩
  have hlikened {c : Column} (hc : ∀ l ∈ d.columnLexemes c, Q l) : ∀ l ∈ d.likened c, Q l := by
    cases d with
    | sqlite => exact fun l hl => absurd hl List.not_mem_nil
    | _ => simpa [Dialect.likened, grouped, or_imp, forall_and, hfixed, hslot] using hc
  have hranged {c : Column} {low high inclusive : Bool} (hc : ∀ l ∈ d.columnLexemes c, Q l) :
      ∀ l ∈ d.ranged c low high inclusive, Q l := by
    cases low with
    | false =>
      cases high with
      | false => exact fun l hl => absurd hl List.not_mem_nil
      | true =>
        cases inclusive <;>
          simpa [Dialect.ranged, Dialect.tested, or_imp, forall_and, hfixed, hslot] using hc
    | true =>
      cases high <;> cases inclusive <;>
        simpa [Dialect.ranged, Dialect.tested, grouped, or_imp, forall_and, hfixed, hslot] using hc
  cases g with
  | equals c v =>
    have hc := hcolumn c rfl
    simp only [Dialect.predicate, List.forall_mem_append]
    refine ⟨hc, ?_⟩
    split
    · simp [hfixed]
    · simp [Dialect.tested, hfixed, hslot]
  | compare op c v =>
    have hc := hcolumn c rfl
    simp only [Dialect.predicate, List.forall_mem_append]
    refine ⟨hc, ?_⟩
    cases op <;> simp [Dialect.tested, Comparison.sign, hfixed, hslot]
  | like c p => exact hmatched (hcolumn c rfl)
  | wild c p => exact hmatched (hcolumn c rfl)
  | range c min max inclusive => exact hranged (hcolumn c rfl)
  | fuzzy f n =>
    cases f with
    | equals c v => exact hlikened (hcolumn c rfl)
    | _ => exact fun l hl => absurd hl List.not_mem_nil
  | _ => exact fun l hl => absurd hl List.not_mem_nil

/-- What a lexeme of a clause can be. -/
def IsKnown (d : Dialect) (s : Schema) (l : Lexeme) : Prop :=
  l ∈ vocabulary ∨ ∃ c, s.Names c ∧
    (∀ part ∈ c.split.2, Text.isIdentifier part.toList = true) ∧ l ∈ d.columnLexemes c

/-- A clause whose placeholders and parameters belong to the same leaves of a filter, and
whose names are those of a schema. -/
structure Aligned (d : Dialect) (s : Schema) (f : Filter) (clause : Clause) : Prop where
  /-- the parameters are the bound values of the leaves, from left to right -/
  params : clause.params = f.predicates.flatMap Filter.boundValues
  /-- the text has as many placeholders, numbered in order, and nothing else like them -/
  placeholders : d.placeholders clause.sql.toList =
    (List.range' 1 clause.params.length).map fun n => (d.slotAt n).write d.quote
  /-- it is read as the sentence of the filter -/
  reads : lexemes? d.quote clause.sql.toList = some (d.placeFrom 0 (f.sentence d.predicate))
  /-- a predicate stands behind as many placeholders as the leaves before it have values,
  and has one for each of its own values -/
  stands : ∀ before g after, f.predicates = before ++ g :: after →
    Stands (d.placeFrom (before.flatMap Filter.boundValues).length (d.predicate g))
        (before.flatMap Filter.boundValues).length (d.placeFrom 0 (f.sentence d.predicate)) ∧
      (d.placeFrom (before.flatMap Filter.boundValues).length (d.predicate g)).filter isSlot =
        (List.range' ((before.flatMap Filter.boundValues).length + 1)
          g.boundValues.length).map d.slotAt
  /-- what is no placeholder is fixed or belongs to the name of a column of the schema -/
  names : ∀ l ∈ d.placeFrom 0 (f.sentence d.predicate),
    l.isSlot = true ∨ IsKnown d s l

/-- A column that is written has an identifier for a part. -/
theorem isIdentifier_part {d : Dialect} {c : Column} {text : List Char}
    (h : d.column c = .ok text) : ∀ part ∈ c.split.2, Text.isIdentifier part.toList = true := by
  unfold Dialect.column at h
  split at h
  · rename_i base part hsplit
    rw [hsplit]
    rintro _ ⟨⟩
    split at h
    · rename_i hnames
      exact (Bool.and_eq_true_iff.1 hnames).2
    · cases h
  · rename_i name hsplit
    rw [hsplit]
    exact nofun

/-- The names of a schema are identifiers. -/
theorem isIdentifier_of_names {s : Schema} {c : Column} (h : s.Names c) :
    Text.isIdentifier c.split.1.toList = true := by
  cases h with
  | field hf hsplit => rw [hsplit]; exact s.named _ hf
  | part hf _ hsplit => rw [hsplit]; exact s.named _ hf

/-- A sentence consists of placeholders, fixed lexemes and names of the schema. -/
theorem isKnown_of_mem_sentence {d : Dialect} {s : Schema} {f : Filter}
    (hcolumns : f.checkColumns s = .ok ()) (h : ∀ g ∈ f.predicates, IsWritten d g) :
    ∀ l ∈ f.sentence d.predicate, l = slot ∨ IsKnown d s l := by
  have hvocabulary : ∀ l ∈ vocabulary, l = slot ∨ IsKnown d s l := fun l hl => .inr (.inl hl)
  have hconnectives : ∀ l ∈ connectives, l ∈ vocabulary := by decide +kernel
  refine Filter.forall_mem_sentence (fun l hl => hvocabulary l (hconnectives l hl)) ?_
  intro g hg
  refine forall_mem_predicate (.inl rfl) hvocabulary fun c hc l hl => .inr (.inr ⟨c, ?_, ?_, hl⟩)
  · exact names_of_checkColumns hcolumns g hg c hc
  · obtain ⟨text, htext⟩ := (h g hg).column c hc
    exact isIdentifier_part htext

/-- What holds of placeholders, of fixed lexemes, and of what is made of identifiers, holds of the
sentence of a filter that is written with such columns. -/
theorem forall_mem_of_written {d : Dialect} {f : Filter} {Q : Lexeme → Prop} (hslot : Q slot)
    (hfixed : ∀ l ∈ vocabulary, Q l)
    (hname : ∀ {name}, Text.isIdentifier name = true → Q (quoted name) ∧ Q (word name) ∧
      Q (literal (d.partText name)))
    (hcolumns : ∀ g ∈ f.predicates, ∀ c ∈ g.column?, Text.isIdentifier c.split.1.toList = true)
    (h : ∀ g ∈ f.predicates, IsWritten d g) : ∀ l ∈ f.sentence d.predicate, Q l := by
  have hconnectives : ∀ l ∈ connectives, l ∈ vocabulary := by decide +kernel
  refine Filter.forall_mem_sentence (fun l hl => hfixed l (hconnectives l hl)) fun g hg => ?_
  refine forall_mem_predicate hslot hfixed fun c hc => ?_
  obtain ⟨text, htext⟩ := (h g hg).column c hc
  exact forall_mem_columnLexemes hfixed hname ⟨hcolumns g hg c hc, isIdentifier_part htext⟩

/-- A clause that writes the sentence of a filter, whose lexemes can be told apart and
have nothing like a placeholder in them. -/
structure IsSpelled (d : Dialect) (f : Filter) (clause : Clause) : Prop where
  params : clause.params = f.predicates.flatMap Filter.boundValues
  text : clause.sql.toList = spell d.quote (d.placeFrom 0 (f.sentence d.predicate))
  written : ∀ g ∈ f.predicates, IsWritten d g
  laid : IsLaid d.quote (f.sentence d.predicate)
  inert : ∀ l ∈ f.sentence d.predicate, l = slot ∨ IsInert d l

/-- What has nothing to do with placeholders does not look like one. -/
theorem isClean_of_isInert {d : Dialect} {l : Lexeme} (h : l = slot ∨ IsInert d l) :
    IsClean l d.quote := by
  obtain rfl | h := h
  · exact ⟨fun _ => rfl, nofun, .inr (by simp)⟩
  · exact ⟨fun hslot => absurd (h.plain.symm.trans hslot) Bool.false_ne_true,
      fun _ => h.question, h.apostrophe⟩

/-- A rendered filter is the sentence of its predicates, with the values of its leaves. -/
theorem writes_of_render {d : Dialect} {f : Filter} {a : Fragment Json}
    (h : d.target.render f = .ok a) :
    a.Writes d.quote d.predicate Filter.boundValues (IsWritten d) f := by
  refine Target.writes_of_render (fun hg hb => ?_) h
  have hpredicate := isPredicate_of_render hg hb
  exact ⟨hpredicate.text, hpredicate.values, hpredicate.toIsWritten⟩

/-- **A rendered filter is written as its sentence,** if its columns have names that can
be written unquoted. -/
theorem isSpelled_of_render {d : Dialect} {f : Filter} {clause : Clause}
    (hcolumns : ∀ g ∈ f.predicates, ∀ c ∈ g.column?, Text.isIdentifier c.split.1.toList = true)
    (h : render d f = .ok clause) : IsSpelled d f clause := by
  obtain ⟨a, ha, h⟩ := bind_eq_ok.1 h
  obtain rfl := Except.ok.inj h
  have hwrites := writes_of_render ha
  have hinert : ∀ l ∈ f.sentence d.predicate, l = slot ∨ IsInert d l := by
    refine forall_mem_of_written (.inl rfl) (fun l hl => .inr (isInert_of_mem_vocabulary d hl))
      (fun hname => ?_) hcolumns hwrites.each
    obtain ⟨hquoted, hword, hliteral⟩ := isInert_of_isIdentifier d hname
    exact ⟨.inr hquoted, .inr hword, .inr hliteral⟩
  refine ⟨hwrites.values, ?_, hwrites.each, ?_, hinert⟩
  · rw [String.toList_ofList, hwrites.text,
      placed_spell d fun l hl => isClean_of_isInert (hinert l hl)]
  · exact Filter.isLaid_sentence d.isQuote_quote fun g hg => (hwrites.each g hg).laid

/-- The text of a clause is read as the sentence of its filter. -/
theorem IsSpelled.lexemes?_eq {d : Dialect} {f : Filter} {clause : Clause}
    (h : IsSpelled d f clause) : lexemes? d.quote clause.sql.toList =
      some (d.placeFrom 0 (f.sentence d.predicate)) := by
  rw [h.text, lexemes?_spell d.isQuote_quote (isLaid_placeFrom d.isQuote_quote d h.laid 0)]

/-- Written predicates have as many placeholders as their leaves have values. -/
theorem countP_predicates {d : Dialect} {gs : List Filter} (h : ∀ g ∈ gs, IsWritten d g) :
    (gs.flatMap d.predicate).countP isSlot = (gs.flatMap Filter.boundValues).length := by
  induction gs with
  | nil => rfl
  | cons g gs ih =>
    obtain ⟨hg, hgs⟩ := List.forall_mem_cons.1 h
    rw [List.flatMap_cons, List.flatMap_cons, List.countP_append, List.length_append, ih hgs,
      hg.slots]

/-- **Rendering keeps placeholders and parameters together.** -/
theorem aligned_of_render {d : Dialect} {s : Schema} {f : Filter} {clause : Clause}
    (hcolumns : f.checkColumns s = .ok ()) (h : render d f = .ok clause) :
    Aligned d s f clause := by
  have hnames := names_of_checkColumns hcolumns
  have hspelled := isSpelled_of_render (fun g hg c hc => isIdentifier_of_names (hnames g hg c hc)) h
  have hclean : ∀ l ∈ f.sentence d.predicate, IsClean l d.quote :=
    fun l hl => isClean_of_isInert (hspelled.inert l hl)
  have hdollar : d = .postgresql → ∀ l ∈ f.sentence d.predicate, '$' ∉ l.write d.quote := by
    intro hd l hl
    obtain rfl | hl := hspelled.inert l hl
    · simp
    · exact hl.dollar hd
  have hcount {gs : List Filter} (hgs : ∀ g ∈ gs, g ∈ f.predicates) :
      (gs.flatMap d.predicate).countP isSlot = (gs.flatMap Filter.boundValues).length :=
    countP_predicates fun g hg => hspelled.written g (hgs g hg)
  refine ⟨hspelled.params, ?_, hspelled.lexemes?_eq, ?_, ?_⟩
  · rw [hspelled.text, placeholders_spell d.isQuote_quote hspelled.laid hclean hdollar,
      Filter.countP_sentence, hcount fun _ => id, hspelled.params]
  · intro before g after hsplit
    have hmem : ∀ g ∈ before, g ∈ f.predicates := fun g hg => by
      rw [hsplit]
      exact List.mem_append_left _ hg
    have hbefore := hcount hmem
    have hg : IsWritten d g := hspelled.written g (by rw [hsplit]; simp)
    have hstands := Filter.stands_sentence d.predicate hsplit
    rw [hbefore] at hstands
    refine ⟨Dialect.stands_placeFrom d hstands, ?_⟩
    rw [d.filter_isSlot_placeFrom, hg.slots]
  · intro l hl
    obtain ⟨n, rfl⟩ | ⟨hplain, hl⟩ := Dialect.mem_placeFrom hl
    · exact .inl (d.isSlot_slotAt n)
    · obtain rfl | hl := isKnown_of_mem_sentence hcolumns hspelled.written l hl
      · exact Bool.noConfusion hplain
      · exact .inr hl

end Sql

end SearchFilter
