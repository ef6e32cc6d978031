/-
# Lexemes of rendered text

Rendered text is read from the left without knowing how it came about. At each place
the first character decides what is read:

| first character | lexeme |
| --- | --- |
| the quote of identifiers | `quoted`, up to the next quote that is not doubled |
| `'` | `literal`, the same between apostrophes |
| `?` | `slot`, a placeholder |
| `$` | `numbered`, a placeholder with digits behind it |
| a letter or `_` | `word`, identifiers with points between them |
| a digit, or `-` before one | `number`, digits, perhaps with a point and digits |
| a mark | `mark`, that character |

Nothing else can be read, and no quote that stays open. A text that is written from
lexemes is read as these lexemes, if none of them clings to the one before it
(`lexemes?_spell`).
-/

import Mathlib.Data.List.Chain
import SearchFilter.Number.Decimal
import SearchFilter.Render.PartiQL

namespace SearchFilter

/-- The least pieces of rendered text; doubled quotes are undone. -/
inductive Lexeme where
  | quoted (name : List Char)
  | literal (text : List Char)
  | slot
  | numbered (digits : List Char)
  | word (path : List Char)
  | number (text : List Char)
  | mark (c : Char)
deriving DecidableEq, Repr

namespace Lexeme

open Decimal (span_append spanDigits_append)

/-! ### Reading -/

/-- The characters that are lexemes by themselves. -/
def marks : List Char := [' ', '(', ')', ',', '=', '<', '>', ':', '-']

/-- A letter, a digit, an underscore or a point. -/
def isPathPart (c : Char) : Bool := Text.isNamePart c || c == '.'

/-- The text up to a quote that is not doubled, and what follows that quote. -/
def unquote? (q : Char) : List Char → Option (List Char × List Char)
  | [] => none
  | [c] => if c = q then some ([], []) else none
  | c :: d :: r =>
    if c = q then
      if d = q then (unquote? q r).map fun p => (q :: p.1, p.2) else some ([], d :: r)
    else (unquote? q (d :: r)).map fun p => (c :: p.1, p.2)

/-- Digits, perhaps with a point and more digits, and what follows them. -/
def spanNumber (s : List Char) : List Char × List Char :=
  match Decimal.spanDigits s with
  | (whole, '.' :: d :: r) =>
    if d.isDigit then
      (whole ++ '.' :: (Decimal.spanDigits (d :: r)).1, (Decimal.spanDigits (d :: r)).2)
    else (whole, '.' :: d :: r)
  | cut => cut

/-- The first lexeme of a text and what follows it; `q` is the quote of identifiers. -/
def next? (q : Char) : List Char → Option (Lexeme × List Char)
  | [] => none
  | c :: r =>
    if c = q then (unquote? q r).map fun p => (.quoted p.1, p.2)
    else if c = '\'' then (unquote? '\'' r).map fun p => (.literal p.1, p.2)
    else if c = '?' then some (.slot, r)
    else if c = '$' ∧ r.head?.any Char.isDigit = true then
      some (.numbered (Decimal.spanDigits r).1, (Decimal.spanDigits r).2)
    else if Text.isNameStart c = true then
      let path := (c :: r).takeWhile isPathPart
      if (PartiQL.segments path).all Text.isIdentifier then
        some (.word path, (c :: r).dropWhile isPathPart)
      else none
    else if c.isDigit = true then some (.number (spanNumber (c :: r)).1, (spanNumber (c :: r)).2)
    else if c = '-' ∧ r.head?.any Char.isDigit = true then
      some (.number ('-' :: (spanNumber r).1), (spanNumber r).2)
    else if c ∈ marks then some (.mark c, r)
    else none

/-- The lexemes of a whole text. -/
def lexemes? (q : Char) : List Char → Option (List Lexeme)
  | [] => some []
  | c :: t =>
    match next? q (c :: t) with
    | none => none
    | some (l, r) =>
      if _ : r.length < (c :: t).length then (lexemes? q r).map (l :: ·) else none
termination_by s => s.length
decreasing_by assumption

/-! ### Writing -/

/-- The text of a lexeme. -/
@[simp] def write (q : Char) : Lexeme → List Char
  | quoted name => Text.enclose q name
  | literal text => Text.enclose '\'' text
  | slot => ['?']
  | numbered digits => '$' :: digits
  | word path => path
  | number text => text
  | mark c => [c]

/-- The text of lexemes. -/
def spell (q : Char) (ls : List Lexeme) : List Char := ls.flatMap (write q)

/-- No lexemes have no text. -/
@[simp] theorem spell_nil (q : Char) : spell q [] = [] := rfl

/-- The text of the first lexeme comes first. -/
@[simp] theorem spell_cons (q : Char) (l : Lexeme) (ls : List Lexeme) :
    spell q (l :: ls) = l.write q ++ spell q ls := rfl

/-- The text of lexemes behind others comes behind theirs. -/
@[simp] theorem spell_append (q : Char) (ls ms : List Lexeme) :
    spell q (ls ++ ms) = spell q ls ++ spell q ms := by simp [spell]

/-- The text of a number: digits, perhaps behind a minus sign, and perhaps in front of
a point and more digits. -/
def IsNumeral (t : List Char) : Prop :=
  ∃ sign whole fraction : List Char, (sign = [] ∨ sign = ['-']) ∧
    (whole ≠ [] ∧ whole.all Char.isDigit = true) ∧
    (fraction = [] ∨ ∃ ds, (ds ≠ [] ∧ ds.all Char.isDigit = true) ∧ fraction = '.' :: ds) ∧
    t = sign ++ (whole ++ fraction)

/-- Whether a lexeme holds what a lexeme of its kind can hold. -/
def IsProper : Lexeme → Prop
  | word path => (PartiQL.segments path).all Text.isIdentifier = true
  | number text => IsNumeral text
  | numbered digits => digits ≠ [] ∧ digits.all Char.isDigit = true
  | mark c => c ∈ marks
  | _ => True

/-- Any name can stand between quotes. -/
@[simp] theorem isProper_quoted (name : List Char) : (quoted name).IsProper := trivial

/-- Any text can stand in a literal. -/
@[simp] theorem isProper_literal (text : List Char) : (literal text).IsProper := trivial

/-- Placeholders can be written. -/
@[simp] theorem isProper_slot : slot.IsProper := trivial

/-- The characters that can be marks are listed. -/
@[simp] theorem isProper_mark {c : Char} : (mark c).IsProper ↔ c ∈ marks := Iff.rfl

/-- Whether a character behind a lexeme would be read with it, or with the number that a
placeholder can be given. -/
def clings (q : Char) : Lexeme → Char → Bool
  | quoted _, c => c == q
  | literal _, c => c == '\''
  | slot, c => c.isDigit
  | numbered _, c => c.isDigit
  | word _, c => isPathPart c
  | number _, c => c.isDigit || c == '.'
  | mark d, c => d == '-' && c.isDigit

/-- The second lexeme does not cling to the first. -/
def Apart (q : Char) (l m : Lexeme) : Prop := ∀ c ∈ (m.write q).head?, l.clings q c = false

/-- The quotes that identifiers stand between. -/
def IsQuote (q : Char) : Prop := q = '"' ∨ q = '\x60'

/-- A text with its quotes doubled is read back up to the quote behind it. -/
theorem unquote?_doubled {q : Char} {r : List Char} (h : r.head? ≠ some q) (s : List Char) :
    unquote? q (Text.doubled q s ++ q :: r) = some (s, r) := by
  induction s with
  | nil =>
    cases r with
    | nil => simp [unquote?]
    | cons d r =>
      have hd : d ≠ q := by simpa using h
      simp [unquote?, hd]
  | cons c s ih =>
    rw [Text.doubled_cons, List.append_assoc]
    by_cases hc : c = q
    · subst hc
      rw [if_pos rfl]
      show unquote? c (c :: c :: (Text.doubled c s ++ c :: r)) = _
      rw [unquote?, if_pos rfl, if_pos rfl, ih]
      rfl
    · rw [if_neg hc]
      obtain ⟨d, t, hdt⟩ : ∃ d t, Text.doubled q s ++ q :: r = d :: t :=
        List.exists_cons_of_ne_nil (by simp)
      show unquote? q (c :: (Text.doubled q s ++ q :: r)) = _
      rw [hdt, unquote?, if_neg hc, ← hdt, ih]
      rfl

/-- The digits of a number are read to their end, with those behind a point. -/
theorem spanNumber_append {whole fraction r : List Char}
    (hwhole : whole ≠ [] ∧ whole.all Char.isDigit = true)
    (hfraction : fraction = [] ∨
      ∃ ds, (ds ≠ [] ∧ ds.all Char.isDigit = true) ∧ fraction = '.' :: ds)
    (hr : ∀ c ∈ r.head?, (c.isDigit || c == '.') = false) :
    spanNumber (whole ++ (fraction ++ r)) = (whole ++ fraction, r) := by
  have hdigit : ∀ c ∈ r.head?, c.isDigit = false := fun c hc =>
    (Bool.or_eq_false_iff.1 (hr c hc)).1
  obtain rfl | ⟨ds, ⟨hne, hds⟩, rfl⟩ := hfraction
  · rw [List.nil_append, List.append_nil, spanNumber, spanDigits_append hwhole.2 hdigit]
    split
    · rename_i d t heq
      obtain ⟨-, rfl⟩ := Prod.mk.inj heq
      exact absurd (hr '.' rfl) (by decide)
    · rfl
  · obtain ⟨d, ds, rfl⟩ := List.exists_cons_of_ne_nil hne
    have hd : d.isDigit = true := List.all_eq_true.1 hds d (by simp)
    have hspan := spanDigits_append hds hdigit
    rw [List.cons_append] at hspan
    have hpoint : Decimal.spanDigits (whole ++ ('.' :: (d :: (ds ++ r)))) =
        (whole, '.' :: (d :: (ds ++ r))) :=
      spanDigits_append hwhole.2 (by rintro c ⟨⟩; decide)
    rw [spanNumber, List.cons_append, List.cons_append, hpoint]
    simp only [hd, if_true, hspan]

/-- The parts of a path hold its characters. -/
theorem mem_segments {s : List Char} {c : Char} (h : c ∈ s) :
    c = '.' ∨ ∃ part ∈ PartiQL.segments s, c ∈ part := by
  induction s with
  | nil => simp at h
  | cons d r ih =>
    rw [PartiQL.segments]
    split
    · rename_i hd
      rcases List.mem_cons.1 h with rfl | h
      · exact .inl hd
      · obtain hc | ⟨part, hpart, hc⟩ := ih h
        · exact .inl hc
        · exact .inr ⟨part, List.mem_cons_of_mem _ hpart, hc⟩
    · split
      · rename_i part rest heq
        rw [heq] at ih
        rcases List.mem_cons.1 h with rfl | h
        · exact .inr ⟨c :: part, by simp, by simp⟩
        · obtain hc | ⟨part', hpart, hc⟩ := ih h
          · exact .inl hc
          · rcases List.mem_cons.1 hpart with rfl | hpart
            · exact .inr ⟨d :: part', by simp, List.mem_cons_of_mem _ hc⟩
            · exact .inr ⟨part', List.mem_cons_of_mem _ hpart, hc⟩
      · rename_i heq
        have := PartiQL.segments_length r
        simp [heq] at this

/-- A path is made of path characters and starts like a name. -/
theorem path_spec {path : List Char}
    (h : (PartiQL.segments path).all Text.isIdentifier = true) :
    path.all isPathPart = true ∧ ∃ c r, path = c :: r ∧ Text.isNameStart c = true := by
  have hparts := List.all_eq_true.1 h
  constructor
  · rw [List.all_eq_true]
    intro c hc
    obtain rfl | ⟨part, hpart, hc⟩ := mem_segments hc
    · rfl
    · simp [isPathPart, Text.isNamePart_of_mem (hparts part hpart) hc]
  · cases path with
    | nil => simp [PartiQL.segments, Text.isIdentifier] at h
    | cons c r =>
      refine ⟨c, r, rfl, ?_⟩
      rw [PartiQL.segments] at h
      split at h
      · simp [Text.isIdentifier] at h
      · split at h
        · simp only [List.all_cons, Text.isIdentifier, Bool.and_eq_true] at h
          exact h.1.1
        · simp only [List.all_cons, Text.isIdentifier, Bool.and_eq_true] at h
          exact h.1.1

/-- Without a point there is one part. -/
theorem segments_of_not_mem {s : List Char} (h : '.' ∉ s) : PartiQL.segments s = [s] := by
  induction s with
  | nil => rfl
  | cons c r ih =>
    rw [List.mem_cons, not_or] at h
    rw [PartiQL.segments, if_neg (Ne.symm h.1), ih h.2]

/-- A part without a point, up to one. -/
theorem segments_append {s : List Char} (h : '.' ∉ s) (r : List Char) :
    PartiQL.segments (s ++ '.' :: r) = s :: PartiQL.segments r := by
  induction s with
  | nil => rfl
  | cons c s ih =>
    rw [List.mem_cons, not_or] at h
    rw [List.cons_append, PartiQL.segments, if_neg (Ne.symm h.1), ih h.2]

/-- An identifier is a word. -/
theorem isProper_word {name : List Char} (h : Text.isIdentifier name = true) :
    (word name).IsProper := by
  have hpoint : '.' ∉ name := Text.not_mem_of_not_isNamePart h (by decide)
  simp [IsProper, segments_of_not_mem hpoint, h]

/-- Characters that differ in a property are two characters. -/
theorem ne_of_eq_true {p : Char → Bool} {c d : Char} (hc : p c = true) (hd : p d = false) :
    c ≠ d := by
  rintro rfl
  rw [hc] at hd
  exact Bool.noConfusion hd

/-- A quote of identifiers is one of two characters. -/
theorem IsQuote.ne {q : Char} (hq : IsQuote q) {c : Char} (h : c ≠ '"' ∧ c ≠ '\x60') : c ≠ q := by
  rintro rfl
  exact hq.elim h.1 h.2

/-- A word is read from a letter or an underscore on. -/
theorem next?_of_isNameStart {q c : Char} {r : List Char} (hq : IsQuote q)
    (hc : Text.isNameStart c = true) :
    next? q (c :: r) =
      if (PartiQL.segments ((c :: r).takeWhile isPathPart)).all Text.isIdentifier then
        some (.word ((c :: r).takeWhile isPathPart), (c :: r).dropWhile isPathPart)
      else none := by
  have hne {d : Char} (hd : Text.isNameStart d = false) : c ≠ d := ne_of_eq_true hc hd
  have hquote : c ≠ q := hq.ne ⟨hne (by decide), hne (by decide)⟩
  rw [next?, if_neg hquote, if_neg (hne (by decide)), if_neg (hne (by decide)),
    if_neg (fun h => hne (by decide) h.1), if_pos hc]

/-- No digit starts a name. -/
theorem isNameStart_of_isDigit {c : Char} (hc : c.isDigit = true) :
    Text.isNameStart c = false := by
  have hle : c.toNat ≤ 57 := (Char.isDigit_iff_toNat.1 hc).2
  cases h : Text.isNameStart c with
  | false => rfl
  | true =>
    delta Text.isNameStart Char.isAlpha Char.isUpper Char.isLower at h
    simp only [Bool.or_eq_true, Bool.and_eq_true, decide_eq_true_eq, beq_iff_eq, ge_iff_le,
      UInt32.le_iff_toNat_le] at h
    rcases h with (⟨h, -⟩ | ⟨h, -⟩) | rfl
    · have : 65 ≤ c.toNat := h
      omega
    · have : 97 ≤ c.toNat := h
      omega
    · exact absurd hle (by decide)

/-- A number is read from a digit on. -/
theorem next?_of_isDigit {q c : Char} {r : List Char} (hq : IsQuote q) (hc : c.isDigit = true) :
    next? q (c :: r) = some (.number (spanNumber (c :: r)).1, (spanNumber (c :: r)).2) := by
  have hne {d : Char} (hd : d.isDigit = false) : c ≠ d := ne_of_eq_true hc hd
  have hquote : c ≠ q := hq.ne ⟨hne (by decide), hne (by decide)⟩
  have hname : ¬ Text.isNameStart c = true := by simp [isNameStart_of_isDigit hc]
  rw [next?, if_neg hquote, if_neg (hne (by decide)), if_neg (hne (by decide)),
    if_neg (fun h => hne (by decide) h.1), if_neg hname, if_pos hc]

/-- A minus sign before a digit belongs to a number. -/
theorem next?_of_minus {q : Char} {r : List Char} (hq : IsQuote q)
    (hr : r.head?.any Char.isDigit = true) :
    next? q ('-' :: r) = some (.number ('-' :: (spanNumber r).1), (spanNumber r).2) := by
  have hquote : '-' ≠ q := hq.ne (by decide)
  rw [next?, if_neg hquote, if_neg (by decide), if_neg (by decide),
    if_neg (fun h => absurd h.1 (by decide)), if_neg (by decide), if_neg (by decide),
    if_pos ⟨rfl, hr⟩]

/-- A mark is read by itself, a minus sign if no digit follows. -/
theorem next?_of_mark {q c : Char} {r : List Char} (hq : IsQuote q) (hc : c ∈ marks)
    (hr : c = '-' → r.head?.any Char.isDigit = false) : next? q (c :: r) = some (.mark c, r) := by
  have hkinds : ∀ d ∈ marks, (d ≠ '"' ∧ d ≠ '\x60') ∧ d ≠ '\'' ∧ d ≠ '?' ∧ d ≠ '$' ∧
      Text.isNameStart d = false ∧ d.isDigit = false := by simp [marks, Text.isNameStart]
  obtain ⟨hquote, hapostrophe, hslot, hdollar, hname, hdigit⟩ := hkinds c hc
  rw [next?, if_neg (hq.ne hquote), if_neg hapostrophe, if_neg hslot,
    if_neg (fun h => hdollar h.1), if_neg (by simp [hname]), if_neg (by simp [hdigit]),
    if_neg (fun h => by simp [hr h.1] at h), if_pos hc]

/-- **A lexeme is read from its text,** if the text behind it does not cling. -/
theorem next?_write {q : Char} (hq : IsQuote q) {l : Lexeme} (hl : l.IsProper) {r : List Char}
    (hr : ∀ c ∈ r.head?, l.clings q c = false) : next? q (l.write q ++ r) = some (l, r) := by
  -- a character that clings does not follow, so that reading stops where the lexeme ends
  have hhead {d : Char} (hd : ∀ c, c = d → l.clings q c = true) : r.head? ≠ some d := by
    intro h
    have := hr d h
    rw [hd d rfl] at this
    exact Bool.noConfusion this
  cases l with
  | quoted name =>
    have hread := unquote?_doubled (hhead (d := q) (by simp [clings])) name
    show next? q (q :: (Text.doubled q name ++ [q] ++ r)) = _
    rw [next?, if_pos rfl, List.append_assoc, List.singleton_append, hread]
    rfl
  | literal text =>
    have hread := unquote?_doubled (hhead (d := '\'') (by simp [clings])) text
    have hquote : '\'' ≠ q := hq.ne (by decide)
    show next? q ('\'' :: (Text.doubled '\'' text ++ ['\''] ++ r)) = _
    rw [next?, if_neg hquote, if_pos rfl, List.append_assoc, List.singleton_append, hread]
    rfl
  | slot =>
    have hquote : '?' ≠ q := hq.ne (by decide)
    show next? q ('?' :: r) = _
    rw [next?, if_neg hquote, if_neg (by decide), if_pos rfl]
  | numbered ds =>
    obtain ⟨hne, hds⟩ := hl
    have hquote : '$' ≠ q := hq.ne (by decide)
    have hdigit : (ds ++ r).head?.any Char.isDigit = true := by
      obtain ⟨d, ds, rfl⟩ := List.exists_cons_of_ne_nil hne
      exact List.all_eq_true.1 hds d (by simp)
    show next? q ('$' :: (ds ++ r)) = _
    rw [next?, if_neg hquote, if_neg (by decide), if_neg (by decide), if_pos ⟨rfl, hdigit⟩,
      spanDigits_append hds hr]
  | word path =>
    obtain ⟨hpath, c, rest, rfl, hc⟩ := path_spec hl
    obtain ⟨htake, hdrop⟩ := span_append (List.all_eq_true.1 hpath) hr
    show next? q (c :: (rest ++ r)) = _
    rw [next?_of_isNameStart hq hc, ← List.cons_append, htake, hdrop]
    exact if_pos hl
  | number text =>
    obtain ⟨sign, whole, fraction, hsign, hwhole, hfraction, rfl⟩ := hl
    have hspan := spanNumber_append hwhole hfraction hr
    obtain ⟨d, ds, rfl⟩ := List.exists_cons_of_ne_nil hwhole.1
    have hd : d.isDigit = true := List.all_eq_true.1 hwhole.2 d (by simp)
    show next? q (sign ++ (d :: ds ++ fraction) ++ r) = _
    rw [List.append_assoc, List.append_assoc]
    obtain rfl | rfl := hsign
    · show next? q (d :: (ds ++ (fraction ++ r))) = _
      rw [next?_of_isDigit hq hd, ← List.cons_append, hspan]
      rfl
    · show next? q ('-' :: (d :: (ds ++ (fraction ++ r)))) = _
      rw [next?_of_minus (r := d :: (ds ++ (fraction ++ r))) hq hd, ← List.cons_append, hspan]
      rfl
  | mark c =>
    refine next?_of_mark hq hl fun hc => ?_
    cases r with
    | nil => rfl
    | cons d r => simpa [clings, hc] using hr d rfl

/-- Every lexeme has a text. -/
theorem write_ne_nil {q : Char} {l : Lexeme} (hl : l.IsProper) : l.write q ≠ [] := by
  cases l with
  | word path =>
    obtain ⟨-, c, r, rfl, -⟩ := path_spec hl
    exact List.cons_ne_nil c r
  | number text =>
    obtain ⟨sign, whole, fraction, -, ⟨hne, -⟩, -, rfl⟩ := hl
    simp [write, hne]
  | _ => simp [write, Text.enclose]

/-- Lexemes that can be told apart when they are written one behind the other. -/
structure IsLaid (q : Char) (ls : List Lexeme) : Prop where
  proper : ∀ l ∈ ls, l.IsProper
  apart : ls.IsChain (Apart q)

/-- Lexemes can be told apart without the first. -/
theorem IsLaid.tail {q : Char} {l : Lexeme} {ls : List Lexeme} (h : IsLaid q (l :: ls)) :
    IsLaid q ls := ⟨fun m hm => h.proper m (List.mem_cons_of_mem l hm), h.apart.tail⟩

/-- What follows the first lexeme does not cling to it. -/
theorem IsLaid.head {q : Char} {l : Lexeme} {ls : List Lexeme} (h : IsLaid q (l :: ls)) :
    ∀ c ∈ (spell q ls).head?, l.clings q c = false := by
  cases ls with
  | nil => simp
  | cons m ls =>
    have hm : m.write q ≠ [] := write_ne_nil (h.proper m (by simp))
    rw [spell_cons, List.head?_append_of_ne_nil _ hm]
    exact (List.isChain_cons_cons.1 h.apart).1

/-- **Written lexemes are read back.** -/
theorem lexemes?_spell {q : Char} (hq : IsQuote q) {ls : List Lexeme} (h : IsLaid q ls) :
    lexemes? q (spell q ls) = some ls := by
  induction ls with
  | nil => rw [spell_nil, lexemes?]
  | cons l ls ih =>
    have hl : l.IsProper := h.proper l (by simp)
    have hnext := next?_write hq hl h.head
    obtain ⟨c, t, ht⟩ := List.exists_cons_of_ne_nil (write_ne_nil (q := q) hl)
    have hshort : (spell q ls).length < (c :: (t ++ spell q ls)).length := by
      simp only [List.length_cons, List.length_append]
      omega
    rw [ht, List.cons_append] at hnext
    rw [spell_cons, ht, List.cons_append, lexemes?, hnext]
    simp only [dif_pos hshort, ih h.tail, Option.map_some]

end Lexeme
end SearchFilter
