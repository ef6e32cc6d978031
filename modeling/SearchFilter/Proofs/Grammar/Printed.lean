/-
# Printed filters

Every filter that queries can express has a text, and each of its texts is read back as the
filter itself, whatever the default column (`filter?_of_prints`):

| filter | text |
| --- | --- |
| `equals c s` | `c:"s"` |
| `equals c (group f)` | `c:(f)` |
| `compare op c v` | `c:` and the sign, with `"s"` or a numeral behind it |
| `range c a b` | `c:["a" TO "b"]` or `c:\x7b"a" TO "b"\x7d`, and `*` for an open bound |
| `like c p`, `wild c p` | `c:p` |
| `fuzzy f n` | `(f)~n`, and `(f)~` without a distance |
| `must f`, `mustNot f` | `+(f)`, `-(f)` |
| `and f g`, `or f g` | `(f) AND (g)`, `(f) OR (g)` |

Literals, which have no column, and boosts are not printed.
-/

import SearchFilter.Proofs.Grammar.Quotation
import SearchFilter.Proofs.Grammar.Completeness
import SearchFilter.Proofs.Number.Spelling

namespace SearchFilter

open Grammar (FieldText IsTerm)

/-! ### Filters that queries can express -/

/-- A column that can stand in front of a clause. -/
structure Column.IsNamed (c : Column) : Prop where
  text : FieldText c.name.toList
  free : Text.sameWord c.name.toList ['N', 'O', 'T'] = false

/-- A text, or a double in the form that rounding gives to finite ones. -/
inductive Value.IsComparable : Value → Prop
  | text (s : String) : IsComparable (.text s)
  | number {x : Double} : x.IsRounded → IsComparable (.number x)

/-- No bound, or a text. -/
inductive Value.IsBound : Option Value → Prop
  | unlimited : IsBound none
  | text (s : String) : IsBound (some (.text s))

/-- A raw pattern that is one term and not taken for a comparison. -/
structure IsPattern (p : String) : Prop where
  term : IsTerm p.toList
  head : ∀ c ∈ p.toList.head?, c ≠ '>' ∧ c ≠ '<'

/-- A filter without literals and boosts, the parts of which can be written. Distances are
numbers of 32 bits. -/
inductive Filter.IsExpressible : Filter → Prop
  | text {c : Column} (s : String) : c.IsNamed → IsExpressible (.equals c (.text s))
  | group {c : Column} {f : Filter} : c.IsNamed → IsExpressible f →
    IsExpressible (.equals c (.group f))
  | compare {c : Column} {v : Value} (op : Comparison) : c.IsNamed → v.IsComparable →
    IsExpressible (.compare op c v)
  | range {c : Column} {min max : Option Value} (inclusive : Bool) : c.IsNamed →
    Value.IsBound min → Value.IsBound max → IsExpressible (.range c min max inclusive)
  | like {c : Column} {p : String} : c.IsNamed → IsPattern p → Text.hasBare '*' p.toList = true →
    IsExpressible (.like c p)
  | wild {c : Column} {p : String} : c.IsNamed → IsPattern p → Text.hasBare '*' p.toList = false →
    Text.hasBare '?' p.toList = true → IsExpressible (.wild c p)
  | fuzzy {f : Filter} {distance : Option Nat} : IsExpressible f →
    (∀ n ∈ distance, n < Nat.pow 2 32) → IsExpressible (.fuzzy f distance)
  | must {f : Filter} : IsExpressible f → IsExpressible (.must f)
  | mustNot {f : Filter} : IsExpressible f → IsExpressible (.mustNot f)
  | and {l r : Filter} : IsExpressible l → IsExpressible r → IsExpressible (.and l r)
  | or {l r : Filter} : IsExpressible l → IsExpressible r → IsExpressible (.or l r)

namespace Grammar

open Query (AtBoundary endsWord isSign)
open Reader

/-! ### Texts for filters -/

/-- A text between parentheses. -/
def enclosed (t : List Char) : List Char := '(' :: (t ++ [')'])

/-- The text of a distance, or of none. -/
def distanceText : Option Nat → List Char
  | none => ['~']
  | some n => '~' :: Decimal.ofNat n

/-- The text prints a bound of a range. -/
inductive PrintsBound : Option Value → List Char → Prop
  | unlimited : PrintsBound none ['*']
  | text (s : String) : PrintsBound (some (.text s)) (quotation s.toList)

/-- The text prints what a comparison compares with. -/
inductive PrintsOperand : Value → List Char → Prop
  | text (s : String) : PrintsOperand (.text s) (quotation s.toList)
  | number {x : Double} {d : List Char} : Decimal.finite? d = some x → PrintsOperand (.number x) d

/-- The text prints a filter. -/
inductive Prints : Filter → List Char → Prop
  | text (c : Column) (s : String) :
    Prints (.equals c (.text s)) (c.name.toList ++ ':' :: quotation s.toList)
  | group {f : Filter} {t : List Char} (c : Column) : Prints f t →
    Prints (.equals c (.group f)) (c.name.toList ++ ':' :: enclosed t)
  | compare {v : Value} {u : List Char} (op : Comparison) (c : Column) : PrintsOperand v u →
    Prints (.compare op c v) (c.name.toList ++ ':' :: (op.sign.toList ++ u))
  | range {opening closing : Char} {inclusive : Bool} {min max : Option Value} {x y : List Char}
      (c : Column) :
    (opening, closing, inclusive) ∈ [('[', ']', true), ('\x7b', '\x7d', false)] →
    PrintsBound min x → PrintsBound max y →
    Prints (.range c min max inclusive)
      (c.name.toList ++ ':' :: opening :: (x ++ ' ' :: 'T' :: 'O' :: ' ' :: (y ++ [closing])))
  | like (c : Column) (p : String) : Prints (.like c p) (c.name.toList ++ ':' :: p.toList)
  | wild (c : Column) (p : String) : Prints (.wild c p) (c.name.toList ++ ':' :: p.toList)
  | fuzzy {f : Filter} {t : List Char} (distance : Option Nat) : Prints f t →
    Prints (.fuzzy f distance) (enclosed t ++ distanceText distance)
  | must {f : Filter} {t : List Char} : Prints f t → Prints (.must f) ('+' :: enclosed t)
  | mustNot {f : Filter} {t : List Char} : Prints f t → Prints (.mustNot f) ('-' :: enclosed t)
  | and {l r : Filter} {s t : List Char} : Prints l s → Prints r t →
    Prints (.and l r) (enclosed s ++ ' ' :: ("AND".toList ++ ' ' :: enclosed t))
  | or {l r : Filter} {s t : List Char} : Prints l s → Prints r t →
    Prints (.or l r) (enclosed s ++ ' ' :: ("OR".toList ++ ' ' :: enclosed t))

/-- Every bound has a text. -/
theorem exists_printsBound {b : Option Value} (h : Value.IsBound b) : ∃ x, PrintsBound b x := by
  cases h with
  | unlimited => exact ⟨_, .unlimited⟩
  | text s => exact ⟨_, .text s⟩

/-- Everything that can be compared with has a text. -/
theorem exists_printsOperand {v : Value} (h : v.IsComparable) : ∃ u, PrintsOperand v u := by
  cases h with
  | text s => exact ⟨_, .text s⟩
  | number hx => exact ⟨_, .number (Decimal.finite?_spelling hx)⟩

/-- Every filter that can be expressed has a text. -/
theorem exists_prints {f : Filter} (h : f.IsExpressible) : ∃ t, Prints f t := by
  induction h with
  | text s => exact ⟨_, .text _ s⟩
  | group _ _ ih =>
    obtain ⟨t, ht⟩ := ih
    exact ⟨_, .group _ ht⟩
  | compare op _ hv =>
    obtain ⟨u, hu⟩ := exists_printsOperand hv
    exact ⟨_, .compare op _ hu⟩
  | range inclusive _ hmin hmax =>
    obtain ⟨x, hx⟩ := exists_printsBound hmin
    obtain ⟨y, hy⟩ := exists_printsBound hmax
    cases inclusive with
    | true => exact ⟨_, .range _ (List.mem_cons_self ..) hx hy⟩
    | false => exact ⟨_, .range _ (List.mem_cons_of_mem _ (List.mem_cons_self ..)) hx hy⟩
  | like => exact ⟨_, .like _ _⟩
  | wild => exact ⟨_, .wild _ _⟩
  | fuzzy _ _ ih =>
    obtain ⟨t, ht⟩ := ih
    exact ⟨_, .fuzzy _ ht⟩
  | must _ ih =>
    obtain ⟨t, ht⟩ := ih
    exact ⟨_, .must ht⟩
  | mustNot _ ih =>
    obtain ⟨t, ht⟩ := ih
    exact ⟨_, .mustNot ht⟩
  | and _ _ ihl ihr =>
    obtain ⟨s, hs⟩ := ihl
    obtain ⟨t, ht⟩ := ihr
    exact ⟨_, .and hs ht⟩
  | or _ _ ihl ihr =>
    obtain ⟨s, hs⟩ := ihl
    obtain ⟨t, ht⟩ := ihr
    exact ⟨_, .or hs ht⟩

/-! ### Operands, bounds and distances -/

/-- No character of a numeral ends a term. -/
theorem not_delimiter_of_isNumeralChar {c : Char} (h : Decimal.isNumeralChar c = true) :
    ¬ (Text.isBlank c || isDelimiter c) = true := by
  rw [Decimal.isNumeralChar, Bool.or_eq_true] at h
  rcases h with hdigit | hmem
  · have halnum : c.isAlphanum = true := by rw [Char.isAlphanum, hdigit, Bool.or_true]
    exact not_delimiter_of_isNamePart (by rw [Text.isNamePart, halnum, Bool.true_or])
  · simp only [List.contains_iff_mem, List.mem_cons, List.not_mem_nil, or_false] at hmem
    rcases hmem with rfl | rfl | rfl | rfl | rfl <;> decide

/-- A numeral is a term without backslashes, and does not start with `=`. -/
theorem isTerm_of_numeral? {d : List Char} {n : Decimal.Numeral} (h : Decimal.numeral? d = some n) :
    IsTerm d ∧ '\\' ∉ d ∧ d.head? ≠ some '=' := by
  obtain ⟨hne, hall⟩ := Decimal.all_of_numeral? h
  rw [List.all_eq_true] at hall
  refine ⟨isTerm_of_forall hne fun c hc => not_delimiter_of_isNumeralChar (hall c hc), ?_, ?_⟩
  · exact fun hmem => absurd (hall _ hmem) (by decide)
  · exact fun hhead => absurd (hall _ (List.mem_of_mem_head? hhead)) (by decide)

/-- What is printed behind the sign of a comparison is read as the value. -/
theorem PrintsOperand.exists_operand {v : Value} {u : List Char} (h : PrintsOperand v u) :
    ∃ operand, OperandText operand u ∧ u.head? ≠ some '=' ∧ operand.value = v := by
  cases h with
  | text s =>
    exact ⟨_, .quoted (phraseText_quotation s.toList), by rw [quotation]; simp, textValue_toList s⟩
  | @number x d hx =>
    obtain ⟨n, hn, -⟩ := Decimal.exists_numeral? hx
    obtain ⟨hterm, hbackslash, hhead⟩ := isTerm_of_numeral? hn
    refine ⟨_, .raw hterm, hhead, ?_⟩
    rw [Operand.value, if_neg (by simpa using hbackslash), hx]

/-- What prints a bound is read as the bound. -/
theorem PrintsBound.exists_bound {b : Option Value} {x : List Char} (h : PrintsBound b x) :
    ∃ bound, BoundText bound x ∧ bound.map textValue = b := by
  cases h with
  | unlimited => exact ⟨none, .unlimited, rfl⟩
  | text s =>
    exact ⟨some s.toList, .phrase (phraseText_quotation s.toList), congrArg some (textValue_toList s)⟩

/-- A distance is read up to the end of the word. -/
theorem takes_distanceText {distance : Option Nat} (h : ∀ n ∈ distance, n < Nat.pow 2 32)
    {r : List Char} (hr : AtBoundary r) :
    fuzzySuffix.Takes (distanceText distance ++ r) distance r := by
  have hdigit : ∀ c ∈ r.head?, c.isDigit = false := fun c hc => by
    have hends := (endsTerm_of_atBoundary hr c hc).1
    exact Bool.eq_false_iff.2 fun hc =>
      not_delimiter_of_isNumeralChar (Decimal.isNumeralChar_of_isDigit hc) hends
  cases distance with
  | none =>
    have hspan : Decimal.spanDigits r = ([], r) := @Decimal.spanDigits_append [] r rfl hdigit
    have hfails : integer.Fails r := by
      rw [Fails, integer, hspan]
      rfl
    exact takes_labelled.2 (takes_bind.2
      ⟨'~', r, takes_just.2 ⟨rfl, rfl⟩, takes_opt.2 (.inr ⟨rfl, rfl, hfails⟩)⟩)
  | some n =>
    have hspan := Decimal.spanDigits_append (Decimal.isDigit_ofNat n) hdigit
    have hne : (Decimal.ofNat n).isEmpty = false := List.isEmpty_eq_false_iff.2 Nat.toDigits_ne_nil
    have htakes : integer.Takes (Decimal.ofNat n ++ r) n r := by
      simp [Takes, integer, hspan, hne, Decimal.natOf_ofNat, h n rfl]
    exact takes_labelled.2 (takes_bind.2
      ⟨'~', Decimal.ofNat n ++ r, takes_just.2 ⟨rfl, rfl⟩, takes_opt.2 (.inl ⟨n, rfl, htakes⟩)⟩)

/-! ### What a text conveys -/

/-- The text is read as a clause that stands for the filter, whatever column it is bound to. -/
structure Conveys (f : Filter) (c : Clause) (t : List Char) : Prop where
  flush : IsFlush t
  accepts : ∀ n, t.length ≤ n → Accepts (clauseWithin n) .disjunction c t
  lower : ∀ column, c.lower column = .ok f

section
variable {f g : Filter} {c d : Clause} {s t : List Char} {n : Nat}

/-- Parentheses are two characters. -/
@[simp] theorem length_enclosed (t : List Char) : (enclosed t).length = t.length + 2 := by
  simp [enclosed]

/-- A text between parentheses is flush. -/
theorem isFlush_enclosed (t : List Char) : IsFlush (enclosed t) := isFlush_cons (by decide) _

/-- No prefix is read at a parenthesis. -/
theorem fails_signPrefix_enclosed (t r : List Char) : signPrefix.Fails (enclosed t ++ r) :=
  (isOpen_opening _).fails_signPrefix

/-- Between parentheses it is read as an operand, whatever follows them. -/
theorem Conveys.takes_operand (h : Conveys f c t) (hn : t.length < n) (r : List Char) :
    (orElse (fielded (clauseWithin n)) (unfielded (clauseWithin n))).Takes (enclosed t ++ r) c r := by
  obtain ⟨m, rfl⟩ : ∃ m, n = m + 1 := ⟨n - 1, by omega⟩
  rw [enclosed, List.cons_append, List.append_assoc]
  exact takes_operand_of_group (takes_group_of_accepts h.flush (h.accepts m (by omega)) r)

/-- Between parentheses a text that conveys a filter is an operand. -/
theorem Conveys.operand (h : Conveys f c t) (hn : t.length < n) :
    Accepts (clauseWithin n) .operand c (enclosed t) := fun r _ => h.takes_operand hn r

/-- Between parentheses a text that conveys a filter is a factor. -/
theorem Conveys.factor (h : Conveys f c t) (hn : t.length < n) :
    Accepts (clauseWithin n) .factor c (enclosed t) :=
  .unsigned (isFlush_enclosed t) (fun r _ => fails_signPrefix_enclosed t r) (h.operand hn)

/-- An atom behind a field conveys its filter. -/
theorem conveys_leaf {column : Column} {a : Atom} {u : List Char} (hc : column.IsNamed)
    (h : WritesAtom a u) : Conveys (a.filter column) (.leaf (some column.name.toList) a)
      (column.name.toList ++ ':' :: u) where
  flush := hc.text.isTerm.isFlush.append _
  accepts n _ := .conjunction (isSound_clauseWithin n) (.factor (h.accepts hc.text hc.free))
  lower _ := by simp only [Clause.lower, Option.map_some, Option.some_or, columnOf_toList]

/-- A text between parentheses behind a field conveys the filter under the field. -/
theorem Conveys.group {column : Column} (hc : column.IsNamed) (h : Conveys f c t) :
    Conveys (.equals column (.group f)) (.fieldGroup column.name.toList c)
      (column.name.toList ++ ':' :: enclosed t) where
  flush := hc.text.isTerm.isFlush.append _
  accepts n hn := by
    rw [List.length_append, List.length_cons, length_enclosed] at hn
    obtain ⟨m, rfl⟩ : ∃ m, n = m + 1 := ⟨n - 1, by omega⟩
    have hoperand := Accepts.fieldGroup hc.text h.flush (h.accepts m (by omega))
    refine .conjunction (isSound_clauseWithin _) (.factor (.unsigned
      (hc.text.isTerm.isFlush.append _) (fun r _ => ?_) hoperand))
    rw [List.append_assoc]
    exact hc.text.fails_signPrefix hc.free _
  lower _ := by
    rw [Clause.lower, h.lower, columnOf_toList]
    rfl

/-- A text between parentheses with a distance behind it conveys the fuzzy filter. -/
theorem Conveys.fuzzy {distance : Option Nat} (hdistance : ∀ n ∈ distance, n < Nat.pow 2 32)
    (h : Conveys f c t) :
    Conveys (.fuzzy f distance) (.fuzzy c distance) (enclosed t ++ distanceText distance) where
  flush := (isFlush_enclosed t).append _
  accepts n hn := by
    have hlength : t.length < n := by
      rw [List.length_append, length_enclosed] at hn
      omega
    refine .conjunction (isSound_clauseWithin n) (.factor fun r hr => ?_)
    have hsuffix := takes_opt.2 (.inl ⟨distance, rfl, takes_distanceText hdistance hr⟩)
    have hmodified := takes_modified_of_suffix (h.takes_operand hlength _) hsuffix hr
    rw [List.append_assoc]
    exact takes_unary_of_modified (isFlush_enclosed t _) (.nil _) (fails_signPrefix_enclosed t _)
      hmodified
  lower _ := by
    rw [Clause.lower, h.lower]
    rfl

/-- Behind a sign it is read as a clause with this prefix. -/
theorem Conveys.accepts_signed {q : Prefix} {x : Char} (hx : isSign x = true)
    (hq : q = .must ↔ x = '+') (h : Conveys f c t) (hn : (x :: enclosed t).length ≤ n) :
    Accepts (clauseWithin n) .disjunction (c.prefixed [q]) (x :: enclosed t) := by
  rw [List.length_cons, length_enclosed] at hn
  exact .conjunction (isSound_clauseWithin n) (.factor (.signed (b := []) hx hq (.inl rfl)
    (isFlush_enclosed t) (fun r _ => fails_signPrefix_enclosed t r) (h.operand (by omega))))

/-- A text between parentheses behind a `+` conveys the filter that has to hold. -/
theorem Conveys.must (h : Conveys f c t) : Conveys (.must f) (.must c) ('+' :: enclosed t) where
  flush := isFlush_cons (by decide) _
  accepts _ hn := h.accepts_signed (q := .must) (by decide) (by decide) hn
  lower _ := by
    rw [Clause.lower, h.lower]
    rfl

/-- A text between parentheses behind a `-` conveys the filter that must not hold. -/
theorem Conveys.mustNot (h : Conveys f c t) :
    Conveys (.mustNot f) (.mustNot c) ('-' :: enclosed t) where
  flush := isFlush_cons (by decide) _
  accepts _ hn := h.accepts_signed (q := .mustNot) (by decide) (by decide) hn
  lower _ := by
    rw [Clause.lower, h.lower]
    rfl

/-- Two texts between parentheses with `AND` between them convey both filters together. -/
theorem Conveys.and (hs : Conveys f c s) (ht : Conveys g d t) : Conveys (.and f g) (.and c d)
    (enclosed s ++ ' ' :: ("AND".toList ++ ' ' :: enclosed t)) where
  flush := (isFlush_enclosed s).append _
  accepts n hn := by
    simp only [List.length_append, List.length_cons, length_enclosed] at hn
    exact .conjunction (isSound_clauseWithin n) (.and isKeyword_and (isFlush_enclosed t)
      (.factor (hs.factor (by omega))) (ht.factor (by omega)))
  lower _ := by
    rw [Clause.lower, hs.lower, ht.lower]
    rfl

/-- Two texts between parentheses with `OR` between them convey either of the filters. -/
theorem Conveys.or (hs : Conveys f c s) (ht : Conveys g d t) : Conveys (.or f g) (.or c d)
    (enclosed s ++ ' ' :: ("OR".toList ++ ' ' :: enclosed t)) where
  flush := (isFlush_enclosed s).append _
  accepts n hn := by
    simp only [List.length_append, List.length_cons, length_enclosed] at hn
    exact .or (isSound_clauseWithin n) isKeyword_or (isFlush_enclosed t)
      (.conjunction (isSound_clauseWithin n) (.factor (hs.factor (by omega))))
      (.factor (ht.factor (by omega)))
  lower _ := by
    rw [Clause.lower, hs.lower, ht.lower]
    rfl

end

/-- **Each text that prints a filter conveys it.** -/
theorem exists_conveys {f : Filter} {t : List Char} (hprints : Prints f t) (h : f.IsExpressible) :
    ∃ c, Conveys f c t := by
  induction hprints with
  | text c s =>
    cases h with
    | text _ hc =>
      have hleaf := conveys_leaf hc (.phrase (phraseText_quotation s.toList))
      rw [Atom.filter, textValue_toList] at hleaf
      exact ⟨_, hleaf⟩
  | group c _ ih =>
    cases h with
    | group hc hf =>
      obtain ⟨d, hd⟩ := ih hf
      exact ⟨_, hd.group hc⟩
  | compare op c hv =>
    cases h with
    | compare _ hc =>
      obtain ⟨operand, hoperand, hhead, rfl⟩ := hv.exists_operand
      exact ⟨_, conveys_leaf hc (.compare hoperand fun _ => hhead)⟩
  | range c hmem hmin hmax =>
    cases h with
    | range _ hc =>
      obtain ⟨min, hx, rfl⟩ := hmin.exists_bound
      obtain ⟨max, hy, rfl⟩ := hmax.exists_bound
      exact ⟨_, conveys_leaf hc (.range hmem hx hy)⟩
  | like c p =>
    cases h with
    | like hc hp hstar =>
      have hleaf := conveys_leaf hc (.term hp.term hp.head)
      rw [Atom.filter, if_pos hstar, String.ofList_toList] at hleaf
      exact ⟨_, hleaf⟩
  | wild c p =>
    cases h with
    | wild hc hp hstar hmark =>
      have hleaf := conveys_leaf hc (.term hp.term hp.head)
      rw [Atom.filter, if_neg (Bool.eq_false_iff.1 hstar), if_pos hmark, String.ofList_toList] at hleaf
      exact ⟨_, hleaf⟩
  | fuzzy distance _ ih =>
    cases h with
    | fuzzy hf hdistance =>
      obtain ⟨d, hd⟩ := ih hf
      exact ⟨_, hd.fuzzy hdistance⟩
  | must _ ih =>
    cases h with
    | must hf =>
      obtain ⟨d, hd⟩ := ih hf
      exact ⟨_, hd.must⟩
  | mustNot _ ih =>
    cases h with
    | mustNot hf =>
      obtain ⟨d, hd⟩ := ih hf
      exact ⟨_, hd.mustNot⟩
  | and _ _ ihl ihr =>
    cases h with
    | and hl hr =>
      obtain ⟨c, hc⟩ := ihl hl
      obtain ⟨d, hd⟩ := ihr hr
      exact ⟨_, hc.and hd⟩
  | or _ _ ihl ihr =>
    cases h with
    | or hl hr =>
      obtain ⟨c, hc⟩ := ihl hl
      obtain ⟨d, hd⟩ := ihr hr
      exact ⟨_, hc.or hd⟩

/-- A text that conveys a filter is read as it. -/
theorem Conveys.filter?_eq {f : Filter} {c : Clause} {t : List Char} (h : Conveys f c t)
    (column : Option Column) : filter? column (String.ofList t) = .ok (some f) := by
  have hclause := clause?_of_accepts h.flush (h.accepts _ (Nat.le_refl _))
  refine filter?_of_clause? ?_ ?_ (h.lower column) <;> rw [String.toList_ofList]
  · exact h.flush.allBlank_eq
  · exact hclause

/-- **The grammar can express every filter, and reads it back exactly:** a filter without literals
and boosts has a text that prints it, and is what the grammar reads at each such text. -/
theorem filter?_of_prints {f : Filter} (h : f.IsExpressible) : (∃ t, Prints f t) ∧
    ∀ t, Prints f t → ∀ column, filter? column (String.ofList t) = .ok (some f) := by
  refine ⟨exists_prints h, fun t ht column => ?_⟩
  obtain ⟨c, hc⟩ := exists_conveys ht h
  exact hc.filter?_eq column

/-- Groups, signs, distances and a numeral are read back as they were printed. -/
theorem filter?_of_printed_group :
    filter? none "(+(f:\"a\\\"b\")) AND (((n:>=1.5) OR (d:\x7b* TO \"x\"\x7d))~2)" =
      .ok (some (.and (.must (.equals ⟨"f"⟩ (.text "a\"b")))
        (.fuzzy (.or (.compare .greaterEq ⟨"n"⟩ (.number (.finite false 6755399441055744 (-52))))
          (.range ⟨"d"⟩ none (some (.text "x")) false)) (some 2)))) := by
  have hnamed : ∀ name ∈ ["f", "n", "d"], (Column.mk name).IsNamed := by
    intro name hname
    refine ⟨.plain ?_, ?_⟩ <;> revert name <;> decide +kernel
  have hread : Decimal.finite? "1.5".toList = some (.finite false 6755399441055744 (-52)) := by
    decide +kernel
  have hrounded := Decimal.exists_finite?_iff.1 ⟨_, hread⟩
  have hdistance : ∀ n ∈ some 2, n < Nat.pow 2 32 := by decide
  have hbraces : ('\x7b', '\x7d', false) ∈ [('[', ']', true), ('\x7b', '\x7d', false)] := by decide
  have hfuzzy := Filter.IsExpressible.fuzzy
    (.or (.compare .greaterEq (hnamed "n" (by decide)) (.number hrounded))
      (.range false (hnamed "d" (by decide)) .unlimited (.text "x"))) hdistance
  have hprints := Prints.and (.must (.text ⟨"f"⟩ "a\"b"))
    (.fuzzy (some 2) (.or (.compare .greaterEq ⟨"n"⟩ (.number hread))
      (.range ⟨"d"⟩ hbraces .unlimited (.text "x"))))
  have h := filter?_of_prints (.and (.must (.text "a\"b" (hnamed "f" (by decide)))) hfuzzy)
  refine (congrArg (filter? none) ?_).trans (h.2 _ hprints none)
  decide +kernel

end Grammar
end SearchFilter
