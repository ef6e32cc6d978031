/-
# Names in numbered text

A column without a point is written between quotes, and may have any name. One dialect numbers
its placeholders afterwards, in the finished text, where it minds apostrophes but no quotes. So
it takes a question mark of a name for a placeholder, and an apostrophe of a name hides what
follows, up to the next one:

| name | text | numbered text |
| --- | --- | --- |
| `a"b` | `"a""b" = ?` | `"a""b" = $1` |
| `a?b` | `"a?b" = ?` | `"a$1b" = $2` |
| `a'b` | `"a'b" = ?` | `"a'b" = ?` |
| `'?'` | `"'?'" = ?` | `"'?'" = $1` |

The text is read all the same, as its lexemes with the names and placeholders that numbering
made of them (`lexemes?_of_render`). Names and placeholders are what they should be exactly where
each question mark of a name is hidden and no placeholder is (`survives_iff`); the dialects
without numbers leave them as they are.
-/

import Mathlib.Algebra.Ring.Parity
import SearchFilter.Proofs.Render.Clause

namespace SearchFilter

open Lexeme

namespace Lexeme

/-- The name that a lexeme has between quotes. -/
def name? : Lexeme → Option (List Char)
  | quoted name => some name
  | _ => none

/-- The apostrophes in the names of lexemes. -/
def apostrophes (ls : List Lexeme) : Nat := (ls.filterMap name?).flatten.count '\''

/-- The apostrophes of the first lexeme come on top of the others. -/
theorem apostrophes_cons (l : Lexeme) (ls : List Lexeme) :
    apostrophes (l :: ls) = apostrophes [l] + apostrophes ls := by
  rw [← List.singleton_append, apostrophes, List.filterMap_append, List.flatten_append,
    List.count_append]
  rfl

/-- The apostrophes of a quoted name are those of the name. -/
@[simp] theorem apostrophes_quoted (name : List Char) :
    apostrophes [quoted name] = name.count '\'' := by
  simp [apostrophes, name?]

/-- A lexeme without a name has no apostrophes that count. -/
theorem apostrophes_of_name? {l : Lexeme} (h : l.name? = none) : apostrophes [l] = 0 := by
  simp [apostrophes, h]

end Lexeme

namespace Sql

/-! ### Numbering text with names -/

/-- Where numbering stands behind a text: whether between apostrophes, and at which number. -/
def past : (hidden : Bool) → (count : Nat) → List Char → Bool × Nat
  | hidden, count, [] => (hidden, count)
  | hidden, count, c :: r =>
    if c = '\'' then past (!hidden) count r
    else if c = '?' ∧ hidden = false then past hidden (count + 1) r
    else past hidden count r

/-- Numbering a text goes on from where the text before it left off. -/
theorem numbered_past (hidden : Bool) (k : Nat) (s r : List Char) :
    numbered hidden k (s ++ r) =
      numbered hidden k s ++ numbered (past hidden k s).1 (past hidden k s).2 r := by
  induction s generalizing hidden k with
  | nil => rfl
  | cons c s ih =>
    rw [List.cons_append, numbered, numbered, past]
    split
    · rw [ih, List.cons_append]
    · split
      · rw [ih, List.cons_append, List.append_assoc]
      · rw [ih, List.cons_append]

/-- Doubled quotes are no matter to numbering. -/
theorem numbered_doubled_quote (hidden : Bool) (k : Nat) (s : List Char) :
    numbered hidden k (Text.doubled '"' s) = Text.doubled '"' (numbered hidden k s) ∧
      past hidden k (Text.doubled '"' s) = past hidden k s := by
  have digits (n : Nat) : Text.doubled '"' (Decimal.ofNat n) = Decimal.ofNat n := by
    refine Text.doubled_of_not_mem fun hmem => ?_
    exact absurd (Nat.isDigit_of_mem_toDigits (by decide) (by decide) hmem) (by decide)
  induction s generalizing hidden k with
  | nil => exact ⟨rfl, rfl⟩
  | cons c s ih =>
    rw [Text.doubled_cons]
    by_cases hc : c = '"'
    · subst hc
      simp [numbered, past, Text.doubled_cons, ih]
    · rw [if_neg hc, List.singleton_append, numbered, numbered, past, past]
      split
      · simp [Text.doubled_cons, hc, ih]
      · split
        · simp [Text.doubled_cons, Text.doubled_append, digits, ih]
        · simp [Text.doubled_cons, hc, ih]

/-- A quoted name is numbered as the name, inside of its quotes. -/
theorem numbered_enclose_quote (hidden : Bool) (k : Nat) (s r : List Char) :
    numbered hidden k (Text.enclose '"' s ++ r) =
      Text.enclose '"' (numbered hidden k s) ++
        numbered (past hidden k s).1 (past hidden k s).2 r := by
  obtain ⟨hinside, hpast⟩ := numbered_doubled_quote hidden k s
  simp [Text.enclose, numbered, numbered_past, hinside, hpast]

/-- A text between apostrophes leaves numbering where it was. -/
theorem past_enclose {t : List Char} (h : '?' ∉ t) (hidden : Bool) (k : Nat) :
    past hidden k (Text.enclose '\'' t) = (hidden, k) := by
  have hdoubled (r : List Char) (hidden : Bool) :
      past hidden k (Text.doubled '\'' t ++ r) = past hidden k r := by
    induction t with
    | nil => rfl
    | cons c t ih =>
      rw [List.mem_cons, not_or] at h
      rw [Text.doubled_cons]
      by_cases hc : c = '\''
      · simp [hc, past, ih h.2]
      · simp [hc, past, Ne.symm h.1, ih h.2]
  simp [Text.enclose, past, hdoubled]

/-- Whatever stands before it, numbering leaves a lexeme that is nothing like a placeholder. -/
theorem numbered_of_isInert {l : Lexeme} (h : IsInert .postgresql l) (hidden : Bool) (k : Nat)
    (r : List Char) :
    numbered hidden k (l.write '"' ++ r) = l.write '"' ++ numbered hidden k r := by
  obtain ⟨t, rfl⟩ | hapostrophe := h.apostrophe
  · have hquestion : '?' ∉ (literal t).write '"' := h.question
    have hpast : past hidden k ((literal t).write '"') = (hidden, k) := by
      refine past_enclose (fun hmem => hquestion ?_) hidden k
      simp only [write, Text.enclose, Text.doubled, List.mem_cons, List.mem_append,
        List.mem_flatMap]
      exact .inr (.inl ⟨'?', hmem, by simp⟩)
    rw [numbered_past, hpast, numbered_of_not_mem hquestion]
  · exact numbered_append h.question hapostrophe hidden k r

/-! ### Numbering lexemes -/

/-- A lexeme of a clause whose columns may have any names. -/
inductive IsOrdinary (d : Dialect) : Lexeme → Prop
  | slot : IsOrdinary d slot
  | name (s : List Char) : IsOrdinary d (quoted s)
  | fixed {l : Lexeme} : l.name? = none → IsInert d l → IsOrdinary d l

/-- What numbering makes of the lexemes of a text. -/
def renumbered : (hidden : Bool) → (count : Nat) → List Lexeme → List Lexeme
  | _, _, [] => []
  | hidden, k, quoted name :: ls =>
    quoted (numbered hidden k name) :: renumbered (past hidden k name).1 (past hidden k name).2 ls
  | hidden, k, slot :: ls =>
    if hidden then slot :: renumbered hidden k ls
    else Dialect.slotAt .postgresql (k + 1) :: renumbered hidden (k + 1) ls
  | hidden, k, l :: ls => l :: renumbered hidden k ls

/-- A lexeme that is neither a name nor a placeholder stays. -/
theorem renumbered_of_fixed {l : Lexeme} (hname : l.name? = none) (hslot : l.isSlot = false)
    (hidden : Bool) (k : Nat) (ls : List Lexeme) :
    renumbered hidden k (l :: ls) = l :: renumbered hidden k ls := by
  cases l with
  | quoted name => simp [name?] at hname
  | slot => simp at hslot
  | _ => rfl

/-- **Numbering a text numbers its lexemes,** also inside of names. -/
theorem numbered_spell_renumbered {ls : List Lexeme} (h : ∀ l ∈ ls, IsOrdinary .postgresql l)
    (hidden : Bool) (k : Nat) :
    numbered hidden k (spell '"' ls) = spell '"' (renumbered hidden k ls) := by
  induction ls generalizing hidden k with
  | nil => rfl
  | cons l ls ih =>
    obtain ⟨hl, hls⟩ := List.forall_mem_cons.1 h
    rw [spell_cons]
    cases hl with
    | slot =>
      cases hidden <;> simp [renumbered, numbered, Dialect.slotAt, ih hls]
    | name s =>
      rw [renumbered, spell_cons, ← ih hls]
      exact numbered_enclose_quote hidden k s _
    | fixed hname hinert =>
      rw [renumbered_of_fixed hname hinert.plain, spell_cons, ← ih hls]
      exact numbered_of_isInert hinert hidden k _

/-- Numbering makes a variant of each lexeme. -/
theorem variants_renumbered (hidden : Bool) (k : Nat) (ls : List Lexeme) :
    List.Forall₂ (IsVariant .postgresql) ls (renumbered hidden k ls) := by
  induction hidden, k, ls using renumbered.induct with
  | case1 => exact .nil
  | case2 hidden k name ls ih => exact .cons (.name name _) ih
  | case3 k ls ih => exact .cons (.same slot) ih
  | case4 hidden k ls hhidden ih =>
    rw [renumbered, if_neg hhidden]
    exact .cons (.placed (k + 1) rfl) ih
  | case5 hidden k l ls hname hslot ih =>
    rw [renumbered]
    · exact .cons (.same l) ih
    · exact hname
    · exact hslot

/-! ### Names and placeholders -/

/-- One more makes what is odd even. -/
theorem decide_odd_succ (n : Nat) : decide (Odd (n + 1)) = !decide (Odd n) := by
  rw [← decide_not]
  exact decide_eq_decide.2 Nat.odd_add_one

/-- Every question mark of a name is hidden, behind `n` apostrophes. -/
def IsHidden (n : Nat) (name : List Char) : Prop :=
  ∀ u v, name = u ++ '?' :: v → Odd (n + u.count '\'')

/-- Question marks are hidden one by one, behind the apostrophes before each. -/
theorem isHidden_cons {n : Nat} {c : Char} {s : List Char} :
    IsHidden n (c :: s) ↔ (c = '?' → Odd n) ∧ IsHidden (n + [c].count '\'') s := by
  constructor
  · refine fun h => ⟨fun hc => h [] s (by rw [hc]; rfl), fun u v hs => ?_⟩
    have hodd := h (c :: u) v (by rw [hs]; rfl)
    rwa [← List.singleton_append, List.count_append, ← Nat.add_assoc] at hodd
  · rintro ⟨hc, hs⟩ u v h
    rcases List.cons_eq_append_iff.1 h with ⟨rfl, hcut⟩ | ⟨u, rfl, hcut⟩
    · simpa using hc (List.cons.inj hcut).1.symm
    · rw [← List.singleton_append, List.count_append, ← Nat.add_assoc]
      exact hs u v hcut

/-- **A name is left as it is exactly where its question marks are hidden.** -/
theorem numbered_eq_self_iff {n k : Nat} {s : List Char} :
    numbered (decide (Odd n)) k s = s ↔ IsHidden n s := by
  induction s generalizing n with
  | nil => simp [numbered, IsHidden]
  | cons c s ih =>
    rw [isHidden_cons, numbered]
    by_cases hc : c = '\''
    · simp [hc, ← decide_odd_succ, ih]
    · by_cases hmark : c = '?' <;> by_cases hodd : Odd n <;>
        simp [hc, hmark, hodd, ← ih]

/-- Behind a name whose question marks are hidden numbering has only minded apostrophes. -/
theorem IsHidden.past_eq {n : Nat} {s : List Char} (h : IsHidden n s) (k : Nat) :
    past (decide (Odd n)) k s = (decide (Odd (n + s.count '\'')), k) := by
  induction s generalizing n with
  | nil => rfl
  | cons c s ih =>
    obtain ⟨hmark, hs⟩ := isHidden_cons.1 h
    have hs := ih hs
    rw [← List.singleton_append, List.count_append, ← Nat.add_assoc, ← hs, List.singleton_append,
      past]
    by_cases hc : c = '\''
    · simp [hc, ← decide_odd_succ]
    · by_cases hq : c = '?' <;> simp [hc, hq, hmark]

/-- Numbering finds the placeholders and nothing else, behind `n` apostrophes: the question marks
of names are hidden, and the placeholders are not. -/
structure IsNumberable (n : Nat) (ls : List Lexeme) : Prop where
  names : ∀ front name back, ls = front ++ quoted name :: back →
    IsHidden (n + apostrophes front) name
  slots : ∀ front back, ls = front ++ slot :: back → Even (n + apostrophes front)

/-- Lexemes can be numbered one by one, behind the apostrophes before each. -/
theorem isNumberable_cons {n : Nat} {l : Lexeme} {ls : List Lexeme} :
    IsNumberable n (l :: ls) ↔ (∀ name, l = quoted name → IsHidden n name) ∧
      (l = slot → Even n) ∧ IsNumberable (n + apostrophes [l]) ls := by
  constructor
  · intro h
    refine ⟨fun name hl => h.names [] name ls (by rw [hl]; rfl),
      fun hl => h.slots [] ls (by rw [hl]; rfl), fun front name back hls => ?_,
      fun front back hls => ?_⟩
    · have hname := h.names (l :: front) name back (by rw [hls]; rfl)
      rwa [apostrophes_cons, ← Nat.add_assoc] at hname
    · have hslot := h.slots (l :: front) back (by rw [hls]; rfl)
      rwa [apostrophes_cons, ← Nat.add_assoc] at hslot
  · rintro ⟨hname, hslot, hls⟩
    refine ⟨fun front name back h => ?_, fun front back h => ?_⟩
    · rcases List.cons_eq_append_iff.1 h with ⟨rfl, hcut⟩ | ⟨front, rfl, hcut⟩
      · exact hname name (List.cons.inj hcut).1.symm
      · rw [apostrophes_cons, ← Nat.add_assoc]
        exact hls.names front name back hcut
    · rcases List.cons_eq_append_iff.1 h with ⟨rfl, hcut⟩ | ⟨front, rfl, hcut⟩
      · exact hslot (List.cons.inj hcut).1.symm
      · rw [apostrophes_cons, ← Nat.add_assoc]
        exact hls.slots front back hcut

/-- **Names and placeholders are what they should be exactly where numbering finds the
placeholders and nothing else.** -/
theorem renumbered_iff {n k : Nat} {ls : List Lexeme} (h : ∀ l ∈ ls, IsOrdinary .postgresql l) :
    ((renumbered (decide (Odd n)) k ls).filterMap name? = ls.filterMap name? ∧
      (renumbered (decide (Odd n)) k ls).filter isSlot =
        (List.range' (k + 1) (ls.countP isSlot)).map (Dialect.slotAt .postgresql)) ↔
      IsNumberable n ls := by
  induction ls generalizing n k with
  | nil =>
    refine iff_of_true ⟨rfl, rfl⟩ ⟨fun front name back h => ?_, fun front back h => ?_⟩ <;>
      simp at h
  | cons l ls ih =>
    obtain ⟨hl, hls⟩ := List.forall_mem_cons.1 h
    rw [isNumberable_cons]
    cases hl with
    | slot =>
      have hrest := @ih n (k + 1) hls
      have hnone : apostrophes [slot] = 0 := apostrophes_of_name? rfl
      rw [← Nat.not_odd_iff_even]
      -- between apostrophes a placeholder gets no number
      by_cases hodd : Odd n
      · simp [renumbered, hodd, Dialect.slotAt, List.filter_cons, List.countP_cons,
          List.range'_succ]
      · simp only [hodd, decide_false] at hrest
        simp [renumbered, hodd, name?, Dialect.slotAt, List.filterMap_cons, List.filter_cons,
          List.countP_cons, List.range'_succ, hnone, ← hrest]
    | name s =>
      have hself := @numbered_eq_self_iff n k s
      by_cases hs : IsHidden n s
      · rw [renumbered, hself.2 hs, hs.past_eq]
        simp [name?, hs, ih hls]
      · simp [renumbered, name?, hself, hs]
    | fixed hname hinert =>
      have hnone : apostrophes [l] = 0 := apostrophes_of_name? hname
      have hquoted : ∀ name, l ≠ quoted name := by
        rintro name rfl
        cases hname
      have hslot : l ≠ slot := by
        rintro rfl
        cases hinert.plain
      have hplain : ¬ l.isSlot = true := Bool.eq_false_iff.1 hinert.plain
      rw [renumbered_of_fixed hname hinert.plain, List.filterMap_cons_none hname,
        List.filterMap_cons_none hname, List.filter_cons_of_neg hplain,
        List.countP_cons_of_neg hplain, hnone, Nat.add_zero, ih hls]
      simp [hquoted, hslot]

end Sql

/-! ### Rendered clauses -/

/-- The name of a column that is written between quotes. -/
def Column.plainName? (c : Column) : Option (List Char) :=
  match c.split with
  | (name, none) => some name.toList
  | _ => none

/-- The names that a predicate is to be written with: that of its column, twice where the column
is compared with both bounds of a range. -/
def Filter.plainNames : Filter → List (List Char)
  | range c (some _) (some _) false => c.plainName?.toList ++ c.plainName?.toList
  | f => (f.column?.bind Column.plainName?).toList

namespace Sql

/-- A column has its name between quotes, if it has no point. -/
theorem filterMap_columnLexemes (d : Dialect) (c : Column) :
    (d.columnLexemes c).filterMap name? = c.plainName?.toList := by
  rcases hsplit : c.split with ⟨base, - | part⟩
  · rw [columnLexemes_plain hsplit, Column.plainName?, hsplit]
    rfl
  · rw [columnLexemes_dotted hsplit, Column.plainName?, hsplit]
    cases d <;> rfl

/-- **A predicate that is rendered has the names that it is to be written with.** -/
theorem filterMap_predicate {d : Dialect} {g : Filter} {b : Fragment Json}
    (hg : g.isPredicate = true) (h : d.target.render g = .ok b) :
    (d.predicate g).filterMap name? = g.plainNames := by
  have hcolumn := filterMap_columnLexemes d
  have htested (sign : String) : (Dialect.tested sign).filterMap name? = [] := by
    simp [Dialect.tested, name?, List.filterMap_cons, List.filterMap_map]
  have hmatched (c : Column) : (d.matched c).filterMap name? = c.plainName?.toList := by
    rw [← hcolumn]
    cases d with
    | postgresql =>
      cases hsplit : c.split.2 <;>
        simp [Dialect.matched, hsplit, keyword, name?, List.filterMap_cons]
    | mysql => simp [Dialect.matched, grouped, keyword, name?, List.filterMap_cons]
    | sqlite => simp [Dialect.matched, keyword, name?, List.filterMap_cons]
  cases Target.renders_of_render hg h with
  | equals =>
    rw [Dialect.predicate, List.filterMap_append, hcolumn]
    split <;> simp [htested, keyword, name?, List.filterMap_cons] <;> rfl
  | compare =>
    rw [Dialect.predicate, List.filterMap_append, hcolumn, htested, List.append_nil]
    rfl
  | @like c | @wild c => exact hmatched c
  | fuzzy h =>
    obtain ⟨hd, c, s, rfl⟩ := exists_of_fuzzy h
    show (d.likened c).filterMap name? = c.plainName?.toList
    rw [← hcolumn]
    cases d with
    | sqlite => exact absurd rfl hd
    | _ => simp [Dialect.likened, grouped, keyword, name?, List.filterMap_cons]
  | @range c min max inclusive _ h =>
    have hsome := Target.isSome_of_range h
    show (d.ranged c min.isSome max.isSome inclusive).filterMap name? = _
    cases min <;> cases max <;> cases inclusive <;>
      simp [Dialect.ranged, grouped, keyword, name?, List.filterMap_cons, hcolumn, htested,
        Filter.plainNames, Filter.column?] at hsome ⊢

/-- Whatever the columns are called, a clause is made of these lexemes. -/
theorem isOrdinary_of_mem_sentence {d : Dialect} {f : Filter}
    (h : ∀ g ∈ f.predicates, IsWritten d g) : ∀ l ∈ f.sentence d.predicate, IsOrdinary d l := by
  have hvocabulary : ∀ l ∈ vocabulary, IsOrdinary d l := by
    have hnames : ∀ l ∈ vocabulary, l.name? = none := by decide +kernel
    exact fun l hl => .fixed (hnames l hl) (isInert_of_mem_vocabulary d hl)
  have hconnectives : ∀ l ∈ connectives, l ∈ vocabulary := by decide +kernel
  refine Filter.forall_mem_sentence (fun l hl => hvocabulary l (hconnectives l hl)) ?_
  intro g hg
  refine forall_mem_predicate .slot hvocabulary fun c hc => ?_
  obtain ⟨text, htext⟩ := (h g hg).column c hc
  rcases hsplit : c.split with ⟨base, - | part⟩
  · rw [columnLexemes_plain hsplit, List.forall_mem_singleton]
    exact .name _
  · have hsafe : c.IsSafe := by
      unfold Dialect.column at htext
      simp only [hsplit] at htext
      split at htext
      · rename_i hnames
        obtain ⟨hbase, hpart⟩ := Bool.and_eq_true_iff.1 hnames
        simp [Column.IsSafe, hsplit, hbase, hpart]
      · cases htext
    refine fun l hl => .fixed ?_ (isInert_of_mem_columnLexemes hsafe l hl)
    rw [columnLexemes_dotted hsplit] at hl
    have hnames : ∀ l ∈ vocabulary, l.name? = none := by decide +kernel
    exact forall_mem_access hnames rfl rfl l hl

/-- What the lexemes of a clause are read as. -/
def Dialect.reading (d : Dialect) (ls : List Lexeme) : List Lexeme :=
  match d with
  | postgresql => renumbered false 0 ls
  | _ => ls

/-- A clause that writes the sentence of a filter, whose columns may have any names. -/
structure IsWorded (d : Dialect) (f : Filter) (clause : Clause) : Prop where
  params : clause.params.length = (f.sentence d.predicate).countP isSlot
  names : (f.sentence d.predicate).filterMap name? = f.predicates.flatMap Filter.plainNames
  ordinary : ∀ l ∈ f.sentence d.predicate, IsOrdinary d l
  reads : lexemes? d.quote clause.sql.toList = some (d.reading (f.sentence d.predicate))

/-- **A rendered filter is read as its sentence,** with the names and placeholders that numbering
leaves. -/
theorem isWorded_of_render {d : Dialect} {f : Filter} {clause : Clause}
    (h : render d f = .ok clause) : IsWorded d f clause := by
  obtain ⟨a, ha, h⟩ := bind_eq_ok.1 h
  obtain rfl := Except.ok.inj h
  have hwrites : a.Writes d.quote d.predicate Filter.boundValues
      (fun g => IsWritten d g ∧ (d.predicate g).filterMap name? = g.plainNames) f := by
    refine Target.writes_of_render (fun hg hb => ?_) ha
    have hpredicate := isPredicate_of_render hg hb
    exact ⟨hpredicate.text, hpredicate.values, hpredicate.toIsWritten, filterMap_predicate hg hb⟩
  have hwritten : ∀ g ∈ f.predicates, IsWritten d g := fun g hg => (hwrites.each g hg).1
  have hordinary := isOrdinary_of_mem_sentence hwritten
  have hlaid : IsLaid d.quote (f.sentence d.predicate) :=
    Filter.isLaid_sentence d.isQuote_quote fun g hg => (hwritten g hg).laid
  refine ⟨?_, ?_, hordinary, ?_⟩
  · rw [Filter.countP_sentence, countP_predicates hwritten, hwrites.values]
  · rw [Filter.filterMap_sentence (by decide), List.filterMap_flatMap]
    exact List.flatMap_congr fun g hg => (hwrites.each g hg).2
  · rw [String.toList_ofList, hwrites.text]
    cases d with
    | postgresql =>
      show lexemes? '"' (numbered false 0 (spell '"' _)) = _
      rw [numbered_spell_renumbered hordinary]
      exact lexemes?_spell (.inl rfl)
        (isLaid_of_variants (.inl rfl) hlaid (variants_renumbered false 0 _))
    | mysql => exact lexemes?_spell (.inr rfl) hlaid
    | sqlite => exact lexemes?_spell (.inl rfl) hlaid

/-- **The names of columns survive in a clause,** and each value has its placeholder: the text has
the quoted names that the predicates are to be written with, and as many placeholders as there are
parameters, in order. -/
def Survives (d : Dialect) (f : Filter) (clause : Clause) : Prop :=
  ∃ ls, lexemes? d.quote clause.sql.toList = some ls ∧
    ls.filterMap name? = f.predicates.flatMap Filter.plainNames ∧
    ls.filter isSlot = (List.range' 1 clause.params.length).map d.slotAt

/-- **Names survive in every dialect without numbers, and in the one that numbers placeholders
exactly where it finds these and nothing else.** -/
theorem survives_iff {d : Dialect} {f : Filter} {clause : Clause} (h : render d f = .ok clause) :
    Survives d f clause ↔ (d = .postgresql → IsNumberable 0 (f.sentence d.predicate)) := by
  obtain ⟨hparams, hnames, hordinary, hreads⟩ := isWorded_of_render h
  have hsurvives : Survives d f clause ↔
      (d.reading (f.sentence d.predicate)).filterMap name? =
          (f.sentence d.predicate).filterMap name? ∧
        (d.reading (f.sentence d.predicate)).filter isSlot =
          (List.range' 1 ((f.sentence d.predicate).countP isSlot)).map d.slotAt := by
    simp [Survives, hreads, hnames, hparams]
  have hplain (hslot : ∀ n, d.slotAt n = slot) :
      (f.sentence d.predicate).filter isSlot =
        (List.range' 1 ((f.sentence d.predicate).countP isSlot)).map d.slotAt := by
    have hslots : ∀ l ∈ f.sentence d.predicate, l.isSlot = true → l = slot := by
      intro l hl hisSlot
      cases hordinary l hl with
      | slot => rfl
      | name s => cases hisSlot
      | fixed _ hinert => cases hinert.plain.symm.trans hisSlot
    rw [← d.filter_isSlot_placeFrom, placeFrom_eq_self hslot hslots]
  rw [hsurvives]
  cases d with
  | postgresql =>
    have hiff := @renumbered_iff 0 0 _ hordinary
    simpa [Dialect.reading] using hiff
  | mysql => exact iff_of_true ⟨rfl, hplain fun _ => rfl⟩ nofun
  | sqlite => exact iff_of_true ⟨rfl, hplain fun _ => rfl⟩ nofun

/-- A hidden question mark in both names of a range, and a doubled quote. -/
theorem survives_of_hidden :
    let f := Filter.and (.range ⟨"'?'"⟩ (some (.text "a")) (some (.text "b")) false)
      (.equals ⟨"a\"b"⟩ (.text "x"))
    ∃ clause, render .postgresql f = .ok clause ∧
      (Survives .postgresql f clause ↔ (Dialect.postgresql = .postgresql →
        IsNumberable 0 (f.sentence (Dialect.predicate .postgresql)))) := by
  intro f
  exact ⟨_, rfl, survives_iff rfl⟩

/-- A question mark in a name takes the number of the placeholder. -/
theorem render_marked_name :
    let f := Filter.equals ⟨"a?b"⟩ (.text "x")
    render .postgresql f = .ok ⟨"\"a$1b\" = $2", [.string "x"]⟩ ∧
      ¬ Survives .postgresql f ⟨"\"a$1b\" = $2", [.string "x"]⟩ := by
  intro f
  have hf : render .postgresql f = .ok ⟨"\"a$1b\" = $2", [.string "x"]⟩ := rfl
  refine ⟨hf, ?_⟩
  rintro ⟨ls, hls, hnames, -⟩
  obtain rfl := Option.some.inj (hls.symm.trans (isWorded_of_render hf).reads)
  have hread : ((Dialect.reading .postgresql (f.sentence (Dialect.predicate .postgresql))).filterMap
      name?) = ["a$1b".toList] := by decide +kernel
  rw [hread] at hnames
  revert hnames
  decide +kernel

end Sql
end SearchFilter
