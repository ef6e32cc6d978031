/-
# Atoms behind a colon

Each kind of atom is read behind a field and its colon, up to the end of the word
(`WritesAtom.takes`), if it does not start as an atom of another kind does:

| atom | text | readers that are tried before and fail |
| --- | --- | --- |
| range | `[x TO y]`, `\x7bx TO y\x7d` | groups |
| comparison | a sign and what it compares with, which no `=` of a longer sign starts | groups, ranges |
| phrase | between quotes | groups, ranges, comparisons |
| term | one that does not start with `<` or `>` | all others |
-/

import SearchFilter.Proofs.Grammar.Fails

namespace SearchFilter
namespace Grammar

open Query (AtBoundary endsWord)
open Reader

/-! ### Words -/

/-- A text that ends a term. -/
def EndsTerm (r : List Char) : Prop :=
  ∀ c ∈ r.head?, (Text.isBlank c || isDelimiter c) = true ∧ c ≠ '\\'

/-- A colon ends a term. -/
theorem endsTerm_colon (r : List Char) : EndsTerm (':' :: r) := by
  rintro _ ⟨⟩
  decide

/-- The end of a word is the end of a term. -/
theorem endsTerm_of_atBoundary {r : List Char} (h : AtBoundary r) : EndsTerm r := by
  intro c hc
  have hends := h c hc
  simp only [endsWord, Bool.or_eq_true, beq_iff_eq] at hends
  rcases hends with (hblank | rfl) | rfl
  · refine ⟨by simp [hblank], ?_⟩
    rintro rfl
    exact absurd hblank (by decide)
  · decide
  · decide

/-- A field is read up to its colon. -/
theorem FieldText.takes {field : List Char} (h : FieldText field) (r : List Char) :
    fieldName.Takes (field ++ ':' :: r) field (':' :: r) := by
  have hcolon : ∀ c ∈ (':' :: r).head?, Text.isNamePart c = false := by rintro c ⟨⟩; decide
  cases h with
  | plain hid =>
    obtain ⟨c, name, rfl⟩ := List.exists_cons_of_ne_nil (Text.isIdentifier_ne_nil hid)
    obtain ⟨htake, hdrop⟩ := Decimal.span_append (fun d hd =>
      Text.isNamePart_of_mem hid (List.mem_cons_of_mem c hd)) hcolon
    rw [Takes, List.cons_append, fieldName, if_pos (Bool.and_eq_true_iff.1 hid).1]
    simp only [htake, hdrop]
    rfl
  | @dotted name part hid hne hpart =>
    obtain ⟨c, name, rfl⟩ := List.exists_cons_of_ne_nil (Text.isIdentifier_ne_nil hid)
    obtain ⟨htake, hdrop⟩ := Decimal.span_append (r := '.' :: (part ++ ':' :: r)) (fun d hd =>
      Text.isNamePart_of_mem hid (List.mem_cons_of_mem c hd)) (by rintro d ⟨⟩; decide)
    obtain ⟨htake', hdrop'⟩ := Decimal.span_append (List.all_eq_true.1 hpart) hcolon
    rw [Takes, List.append_assoc, List.cons_append, List.cons_append, fieldName,
      if_pos (Bool.and_eq_true_iff.1 hid).1]
    simp [htake, hdrop, htake', hdrop', hne]

/-- A phrase is read up to its closing quote. -/
theorem PhraseText.takes {q u : List Char} (h : PhraseText q u) (r : List Char) :
    phrase.Takes (u ++ r) q r := by
  obtain ⟨hraw⟩ := h
  rename_i raw
  have hspan : spanQuoted (raw ++ '"' :: r) = (q, '"' :: r) := by
    fun_induction spanQuoted raw generalizing q with
    | case1 => cases hraw; rfl
    | case2 c t inner rest hcut ih =>
      obtain ⟨rfl, rfl⟩ := Prod.mk.inj hraw
      rw [List.cons_append, List.cons_append, spanQuoted, ih hcut]
    | case3 c t hne hb => cases hraw
    | case4 c t hne hb inner rest hcut ih =>
      obtain ⟨rfl, rfl⟩ := Prod.mk.inj hraw
      rw [List.cons_append, spanQuoted, if_neg hb, ih hcut]
      exact fun d q hc => absurd (.inr hc) hb
  rw [Takes, List.cons_append, List.append_assoc, List.singleton_append, phrase]
  simp only [hspan]

variable {p : Reader Clause} {r : List Char}

/-- A keyword is read up to the end of the term. -/
theorem IsKeyword.takes {word symbol : String} {k : List Char} (h : IsKeyword word symbol k)
    (hr : EndsTerm r) : (keyword word symbol).Takes (k ++ r) () r := by
  simp only [keyword, takes_labelled, takes_accept, takes_term]
  refine ⟨k, ⟨h.term.ne_nil, h.term.spanTerm_append hr⟩, ?_⟩
  rcases h.same with hk | hk <;> simp [hk]

/-- A field is read as a keyword only where it is that word. -/
theorem FieldText.fails_keyword {field : List Char} (h : FieldText field) {word symbol : String}
    (hmem : (word, symbol) ∈ [("AND", "&&"), ("OR", "||"), ("NOT", "!")])
    (hword : Text.sameWord field word.toList = false) (s : List Char) :
    (keyword word symbol).Fails (field ++ ':' :: s) := fails_of_not_takes fun _ _ hr => by
  obtain ⟨k, hk, hs, hspan⟩ := takes_keyword hr
  rw [← hs, h.isTerm.spanTerm_append (endsTerm_colon s)] at hspan
  obtain ⟨rfl, -⟩ := Prod.mk.inj hspan
  rcases hk.same with hsame | rfl
  · rw [hword] at hsame
    cases hsame
  · have hstart := h.isNameStart
    simp only [List.mem_cons, List.not_mem_nil, or_false, Prod.mk.injEq] at hmem
    rcases hmem with ⟨-, rfl⟩ | ⟨-, rfl⟩ | ⟨-, rfl⟩ <;> exact absurd (hstart _ rfl) (by decide)

/-- In front of a field other than `NOT` there is no prefix. -/
theorem FieldText.fails_signPrefix {field : List Char} (h : FieldText field)
    (hnot : Text.sameWord field ['N', 'O', 'T'] = false) (s : List Char) :
    signPrefix.Fails (field ++ ':' :: s) := by
  have hword : Text.sameWord field "NOT".toList = false := hnot
  refine fails_signPrefix_of_keyword (h.isTerm.skipBlank_append _) (fun c hc => ?_)
    (h.fails_keyword (by simp) hword s)
  obtain ⟨d, v, rfl⟩ := List.exists_cons_of_ne_nil h.isTerm.ne_nil
  exact isSign_of_isNameStart (h.isNameStart c hc)

/-! ### Bounds -/

/-- A term is read up to what ends it. -/
theorem IsTerm.takes {u : List Char} (h : IsTerm u) (hr : EndsTerm r) :
    term.Takes (u ++ r) u r := takes_term.2 ⟨h.ne_nil, h.spanTerm_append hr⟩

/-- Nothing but a backslash is both a delimiter and the start of a term. -/
theorem IsTerm.exists_cons {u : List Char} (h : IsTerm u) :
    ∃ c v, u = c :: v ∧ ∀ d, isDelimiter d = true → d ≠ '\\' → c ≠ d := by
  obtain ⟨c, v, rfl⟩ := List.exists_cons_of_ne_nil h.ne_nil
  refine ⟨c, v, rfl, ?_⟩
  rintro d hd hne rfl
  exact hne ((h.head c rfl).2 hd)

/-- No phrase is read where a term stands. -/
theorem IsTerm.fails_phrase {u : List Char} (h : IsTerm u) (r : List Char) :
    phrase.Fails (u ++ r) := by
  obtain ⟨c, v, rfl, hne⟩ := h.exists_cons
  exact Grammar.fails_phrase (hne '"' (by decide) (by decide))

/-- There is always something to compare with. -/
theorem OperandText.ne_nil {operand : Operand} {u : List Char} (h : OperandText operand u) :
    u ≠ [] := by
  cases h with
  | quoted hu => cases hu; simp
  | raw hu => exact hu.ne_nil

/-- A bound is read up to what ends a term. -/
theorem BoundText.takes {b : Option (List Char)} {u : List Char} (h : BoundText b u)
    (hr : EndsTerm r) : bound.Takes (u ++ r) b r := by
  have raw {u : List Char} (hu : IsTerm u) : bound.Takes (u ++ r)
      (if u = ['*'] then none else some (Text.unescape u)) r :=
    takes_orElse.2 (.inr ⟨(hu.fails_phrase r).map _, takes_map.2 ⟨u, hu.takes hr, rfl⟩⟩)
  cases h with
  | phrase hu => exact takes_orElse.2 (.inl (takes_map.2 ⟨_, hu.takes r, rfl⟩))
  | unlimited => exact raw (isTerm_of_forall (by simp) (List.forall_mem_singleton.2 (by decide)))
  | term hu hne => simpa [hne] using raw hu

/-- No blanks are skipped in front of a bound. -/
theorem BoundText.skipBlank_append {b : Option (List Char)} {u : List Char} (h : BoundText b u)
    (r : List Char) : Text.skipBlank (u ++ r) = u ++ r := by
  cases h with
  | phrase hu => cases hu; exact skipBlank_of_head (by rintro _ ⟨⟩; decide)
  | unlimited => exact skipBlank_of_head (by rintro _ ⟨⟩; decide)
  | term hu => exact hu.skipBlank_append r

/-- Two bounds with single blanks around `TO`. -/
theorem takes_between_of_bounds {opening closing : Char} {inclusive : Bool} {min max : Option (List Char)}
    {x y : List Char}
    (hmem : (opening, closing, inclusive) ∈ [('[', ']', true), ('\x7b', '\x7d', false)])
    (hx : BoundText min x) (hy : BoundText max y) :
    (between opening closing inclusive).Takes
      (opening :: (x ++ ' ' :: 'T' :: 'O' :: ' ' :: (y ++ closing :: r)))
      (.range min max inclusive) r := by
  have hclosing : EndsTerm (closing :: r) ∧ Text.skipBlank (closing :: r) = closing :: r := by
    simp only [List.mem_cons, List.not_mem_nil, or_false, Prod.mk.injEq] at hmem
    rcases hmem with ⟨-, rfl, -⟩ | ⟨-, rfl, -⟩ <;>
      exact ⟨by rintro _ ⟨⟩; decide, skipBlank_of_head (by rintro _ ⟨⟩; decide)⟩
  have hmin : (Reader.padded bound).Takes (x ++ ' ' :: 'T' :: 'O' :: ' ' :: (y ++ closing :: r)) min
      ('T' :: 'O' :: ' ' :: (y ++ closing :: r)) := by
    refine Reader.takes_padded.2 ⟨' ' :: 'T' :: 'O' :: ' ' :: (y ++ closing :: r), ?_, rfl⟩
    rw [hx.skipBlank_append]
    exact hx.takes (by rintro _ ⟨⟩; decide)
  have hkeyword := isKeyword_to.takes (r := ' ' :: (y ++ closing :: r)) (by rintro _ ⟨⟩; decide)
  have hmax : (Reader.padded bound).Takes (' ' :: (y ++ closing :: r)) max (closing :: r) := by
    refine Reader.takes_padded.2 ⟨_, ?_, hclosing.2⟩
    have hblank : Text.skipBlank (' ' :: (y ++ closing :: r)) = y ++ closing :: r :=
      hy.skipBlank_append _
    rw [hblank]
    exact hy.takes hclosing.1
  simp only [between, takes_bind, takes_just, takes_pure]
  exact ⟨_, _, ⟨rfl, rfl⟩, min, _, hmin, (), _, hkeyword, max, _, hmax, closing, r, ⟨rfl, rfl⟩, rfl, rfl⟩

/-! ### Atoms -/

/-- The text writes an atom that is read behind a colon. -/
inductive WritesAtom : Atom → List Char → Prop
  | term {u : List Char} : IsTerm u → (∀ c ∈ u.head?, c ≠ '>' ∧ c ≠ '<') → WritesAtom (.term u) u
  | phrase {q u : List Char} : PhraseText q u → WritesAtom (.phrase q) u
  | range {opening closing : Char} {inclusive : Bool} {min max : Option (List Char)}
      {x y : List Char} :
    (opening, closing, inclusive) ∈ [('[', ']', true), ('\x7b', '\x7d', false)] →
    BoundText min x → BoundText max y →
    WritesAtom (.range min max inclusive)
      (opening :: (x ++ ' ' :: 'T' :: 'O' :: ' ' :: (y ++ [closing])))
  | compare {op : Comparison} {operand : Operand} {u : List Char} : OperandText operand u →
    (op.sign.length = 1 → u.head? ≠ some '=') →
    WritesAtom (.compare op operand) (op.sign.toList ++ u)

/-- Such a text is an atom. -/
theorem WritesAtom.atomText {a : Atom} {u : List Char} (h : WritesAtom a u) : AtomText a u := by
  cases h with
  | term hu => exact .term hu
  | phrase hu => exact .phrase hu
  | range hmem hx hy =>
    have hblank : Text.allBlank [] = true ∧ Text.allBlank [' '] = true := by decide
    exact .range hmem hblank.1 hx hblank.2 isKeyword_to hblank.2 hy hblank.1
  | compare hu => exact .compare hu

/-- The sign of a comparison; one without `=` is not followed by it. -/
theorem takes_comparisonSign {s : List Char} (op : Comparison)
    (hs : op.sign.length = 1 → s.head? ≠ some '=') :
    comparisonSign.Takes (op.sign.toList ++ s) op s := by
  have hfails {c : Char} (hne : s.head? ≠ some '=') : (literal [c, '=']).Fails (c :: s) :=
    fails_of_not_takes fun _ r hr => by
      obtain rfl : s = '=' :: r := (List.cons.inj (takes_literal.1 hr)).2
      exact hne rfl
  have hother (t : List Char) : (literal ['>', '=']).Fails ('<' :: t) := rfl
  have hother' : (literal ['<', '=']).Fails ('>' :: s) := rfl
  have hjust : (just '>').Fails ('<' :: s) := rfl
  cases op with
  | greaterEq => exact Takes.choice (takes_map.2 ⟨(), takes_literal.2 rfl, rfl⟩) _
  | lessEq =>
    exact ((hother _).map _).choice (Takes.choice (takes_map.2 ⟨(), takes_literal.2 rfl, rfl⟩) _)
  | greater =>
    exact ((hfails (hs rfl)).map _).choice ((hother'.map _).choice
      (Takes.choice (takes_map.2 ⟨'>', takes_just.2 ⟨rfl, rfl⟩, rfl⟩) _))
  | less =>
    exact ((hother _).map _).choice (((hfails (hs rfl)).map _).choice ((hjust.map _).choice
      (Takes.choice (takes_map.2 ⟨'<', takes_just.2 ⟨rfl, rfl⟩, rfl⟩) _)))

/-- **An atom is read behind its field,** up to the end of the word. -/
theorem WritesAtom.takes {field u : List Char} {a : Atom} (h : WritesAtom a u)
    (hf : FieldText field) (hr : AtBoundary r) :
    (fielded p).Takes (field ++ ':' :: (u ++ r)) (.leaf (some field) a) r := by
  have hends := endsTerm_of_atBoundary hr
  simp only [fielded, takes_bind, takes_just]
  refine ⟨field, _, hf.takes _, ':', _, ⟨rfl, rfl⟩, ?_⟩
  -- the readers are tried in order, so that those in front of the one for the atom have to fail
  cases h with
  | @range opening closing inclusive min max x y hmem hx hy =>
    have hbetween := takes_between_of_bounds (r := r) hmem hx hy
    have hrange : Grammar.range.Takes (opening :: (x ++ ' ' :: 'T' :: 'O' :: ' ' :: (y ++ closing :: r)))
        (.range min max inclusive) r := by
      simp only [List.mem_cons, List.not_mem_nil, or_false, Prod.mk.injEq] at hmem
      rcases hmem with ⟨rfl, rfl, rfl⟩ | ⟨rfl, rfl, rfl⟩
      · exact takes_orElse.2 (.inl hbetween)
      · exact takes_orElse.2 (.inr ⟨rfl, hbetween⟩)
    have hgroup : opening ≠ '(' := by
      rintro rfl
      simp at hmem
    simp only [List.cons_append, List.append_assoc, List.nil_append]
    exact ((fails_group hgroup).map _).choice (Takes.choice (takes_map.2 ⟨_, hrange, rfl⟩) _)
  | @compare op operand u hu heq =>
    have hoperand : (Reader.orElse (Operand.quoted <$> Grammar.phrase)
        (Operand.raw <$> Grammar.term)).Takes (u ++ r) operand r := by
      cases hu with
      | quoted hu => exact takes_orElse.2 (.inl (takes_map.2 ⟨_, hu.takes r, rfl⟩))
      | raw hu =>
        exact takes_orElse.2 (.inr ⟨(hu.fails_phrase r).map _, takes_map.2 ⟨_, hu.takes hends, rfl⟩⟩)
    have hhead (hlength : op.sign.length = 1) : (u ++ r).head? ≠ some '=' := by
      obtain ⟨c, v, rfl⟩ := List.exists_cons_of_ne_nil hu.ne_nil
      exact heq hlength
    have hsign := takes_comparisonSign op hhead
    have hcomparison : comparison.Takes (op.sign.toList ++ (u ++ r)) (.compare op operand) r := by
      simp only [comparison, takes_labelled, takes_bind, takes_pure]
      exact ⟨op, _, hsign, operand, r, hoperand, rfl, rfl⟩
    have hstart : (group p).Fails (op.sign.toList ++ (u ++ r)) ∧
        Grammar.range.Fails (op.sign.toList ++ (u ++ r)) := by
      cases op <;> exact ⟨fails_group (c := _) (by decide), rfl⟩
    rw [List.append_assoc]
    exact (hstart.1.map _).choice ((hstart.2.map _).choice
      (Takes.choice (takes_map.2 ⟨_, hcomparison, rfl⟩) _))
  | @phrase q u hu =>
    have hphrase := hu.takes r
    cases hu
    exact ((fails_group (by decide)).map _).choice
      (((fails_range (by decide) (by decide)).map _).choice
      (((fails_comparison (by decide) (by decide)).map _).choice
      (Takes.choice (takes_map.2 ⟨q, hphrase, rfl⟩) _)))
  | @term u hu hhead =>
    have hphrase := hu.fails_phrase r
    have hterm := hu.takes hends
    obtain ⟨c, v, rfl, hne⟩ := hu.exists_cons
    obtain ⟨hgreater, hless⟩ := hhead c rfl
    exact ((fails_group (hne _ (by decide) (by decide))).map _).choice
      (((fails_range (hne _ (by decide) (by decide)) (hne _ (by decide) (by decide))).map _).choice
      (((fails_comparison hgreater hless).map _).choice
      ((hphrase.map _).choice (Takes.choice (takes_map.2 ⟨_, hterm, rfl⟩) _))))

end Grammar
end SearchFilter
