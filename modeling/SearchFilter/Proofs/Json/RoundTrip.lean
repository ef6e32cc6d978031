/-
# Written JSON is read back

A compact text is read as the value that it writes, whatever follows it (`readValue_writeCompact`),
if its integers fit 64 bits and its doubles are rounded ones: integers are written without point and
exponent, doubles with one of them. So two values with the same text are the same
(`compact_injective`). A compact text has no line feed, as those of strings are escaped
(`not_mem_writeCompact`).
-/

import SearchFilter.Json.Printer
import SearchFilter.Json.Reader
import SearchFilter.Proofs.Number.Notation

namespace SearchFilter
namespace Json

/-! ### Strings -/

/-- A hexadecimal digit has the value that it was written for. -/
theorem hexValue?_digitChar : ∀ n < 16, hexValue? (Nat.digitChar n) = some n := by decide

/-- Four digits give back the code of a control character. -/
theorem unicode?_hexCode {c : Char} (h : c.toNat < 32) (r : List Char) :
    unicode? (hexCode c ++ r) = some (c, r) := by
  have hdigit (k : Nat) : hexValue? (Nat.digitChar (k % 16)) = some (k % 16) :=
    hexValue?_digitChar _ (Nat.mod_lt _ (by decide))
  have hcode : hex4? (hexCode c ++ r) = some (c.toNat, r) := by
    have hsum : ((c.toNat / 4096 % 16 * 16 + c.toNat / 256 % 16) * 16 + c.toNat / 16 % 16) * 16 +
        c.toNat % 16 = c.toNat := by omega
    simp only [hexCode, List.cons_append, List.nil_append, hex4?, hdigit, Option.bind_eq_bind,
      Option.bind_some, hsum]
  simp only [unicode?, hcode, Option.bind_eq_bind, Option.bind_some]
  rw [if_neg (by omega), if_neg (by omega), Char.ofNat_toNat]

/-- **An escaped character is read as the character.** -/
theorem stringFrom?_escape (bound : Nat) (done : List Char) (c : Char) (r : List Char) :
    stringFrom? (bound + 1) done (escape c ++ r) = stringFrom? bound (c :: done) r := by
  have hcontrol {n : Nat} (h : c.toNat = n) : Char.ofNat n = c := by rw [← h, Char.ofNat_toNat]
  rw [escape]
  split
  · subst c
    rfl
  split
  · subst c
    rfl
  split
  · subst c
    rfl
  split
  · subst c
    rfl
  split
  · subst c
    rfl
  split
  · rename_i h
    rw [← hcontrol h]
    rfl
  split
  · rename_i h
    rw [← hcontrol h]
    rfl
  split
  · rename_i h
    simp only [List.cons_append, stringFrom?, unicode?_hexCode h]
  · rename_i hquote hescape _ _ _ _ _ hcode
    simp only [List.cons_append, List.nil_append]
    rw [stringFrom?.eq_def]
    split <;> simp_all

/-- **An escaped text is read up to its closing quote.** -/
theorem stringFrom?_flatMap_escape {s : List Char} {bound : Nat} (hbound : s.length < bound)
    (done r : List Char) :
    stringFrom? bound done (s.flatMap escape ++ '"' :: r) = some (done.reverse ++ s, r) := by
  induction s generalizing bound done with
  | nil =>
    obtain ⟨bound, rfl⟩ := Nat.exists_eq_succ_of_ne_zero (Nat.ne_of_gt hbound)
    simp [stringFrom?]
  | cons c s ih =>
    obtain ⟨bound, rfl⟩ := Nat.exists_eq_succ_of_ne_zero (Nat.ne_of_gt (Nat.zero_lt_of_lt hbound))
    rw [List.flatMap_cons, List.append_assoc, stringFrom?_escape,
      ih (Nat.lt_of_succ_lt_succ hbound), List.reverse_cons, List.append_assoc]
    rfl

/-- Every character is written as something. -/
theorem escape_ne_nil (c : Char) : escape c ≠ [] := by
  rw [escape]
  repeat' split
  all_goals exact List.cons_ne_nil _ _

/-- An escaped text is no shorter. -/
theorem length_le_flatMap_escape (s : List Char) : s.length ≤ (s.flatMap escape).length := by
  induction s with
  | nil => exact Nat.le_refl 0
  | cons c s ih =>
    have hc := List.length_pos_iff.2 (escape_ne_nil c)
    rw [List.flatMap_cons, List.length_append, List.length_cons]
    omega

/-- A string is read up to its closing quote. -/
theorem string?_quoted (s : String) (r : List Char) :
    string? (s.toList.flatMap escape ++ '"' :: r) = some (s, r) := by
  have hlength := length_le_flatMap_escape s.toList
  rw [string?, stringFrom?_flatMap_escape (by rw [List.length_append]; omega)]
  simp

/-! ### Numbers -/

open Decimal (Parts numeral? spanDigits spanDigits_append isNumeralChar)

/-- A minus sign in front of a JSON number makes another one. -/
theorem isNumber_minus {s : List Char} (h : isNumber s = true) (hs : ∀ c ∈ s.head?, c ≠ '-')
    (hread : (numeral? ('-' :: s)).isSome = true) : isNumber ('-' :: s) = true := by
  cases s with
  | nil => cases h
  | cons c s =>
    have hc : c ≠ '-' := hs c rfl
    simp only [isNumber, Bool.and_eq_true] at h ⊢
    simp only [List.cons.injEq, hc, false_and, false_implies, implies_true] at h
    exact ⟨h.1, hread⟩

/-- Parts whose whole part has no zero in front are a JSON number. -/
theorem isNumber_write {p : Parts} (h : p.IsProper)
    (hlead : p.whole.length = 1 ∨ p.whole.head? ≠ some '0') : isNumber p.write = true := by
  have hread := Parts.numeral?_write h
  have hread' := Parts.numeral?_write (p := { p with negative := false }) ⟨h.whole, h.places⟩
  obtain ⟨negative, whole, places, exponent⟩ := p
  have hplaces : places.all Char.isDigit = true := h.places
  obtain ⟨c, ds, rfl⟩ := List.exists_cons_of_ne_nil (show whole ≠ [] from h.whole.1)
  have hdigits : (c :: ds).all Char.isDigit = true := h.whole.2
  have hc : c ≠ '-' := by
    rintro rfl
    exact absurd hdigits (by simp)
  have hend := Parts.isDigit_head_exponentText exponent
  -- the parts without their sign, which is put back in the end
  have hplain : isNumber (Parts.write ⟨false, c :: ds, places, exponent⟩) = true := by
    have hspan (r : List Char) (hr : ∀ d ∈ r.head?, d.isDigit = false) :
        spanDigits (c :: (ds ++ r)) = (c :: ds, r) := spanDigits_append hdigits hr
    have hfirst : ((c :: ds).length = 1 || (c :: ds).head? != some '0') = true := by
      simpa using hlead
    have hsome : (numeral? (Parts.write ⟨false, c :: ds, places, exponent⟩)).isSome = true := by
      rw [hread']
      rfl
    rw [isNumber, hsome]
    · simp only [Parts.write, Bool.false_eq_true, if_false, List.nil_append, List.cons_append]
      by_cases hnone : places = []
      · subst hnone
        simp only [if_true, List.nil_append, hspan _ hend, hfirst]
        rcases Parts.exponentText_cases exponent with ht | ⟨t, ht⟩
        · rw [ht]
          rfl
        · rw [ht]
          rfl
      · simp only [if_neg hnone, List.cons_append]
        rw [hspan _ (by rintro _ ⟨⟩; decide)]
        simp only [spanDigits_append hplaces hend, hfirst]
        simp [hnone]
    · intro r hr
      exact hc (List.cons.inj hr).1
  cases negative with
  | false => exact hplain
  | true =>
    refine isNumber_minus hplain (by rintro _ ⟨⟩; exact hc) ?_
    exact congrArg Option.isSome hread

/-- **Integers of 64 bits are read back.** -/
theorem number?_ofInt {i : Int} (hlow : -2 ^ 63 ≤ i) (hhigh : i < 2 ^ 64) :
    number? (Decimal.ofInt i) = some (.integer i) := by
  have hproper := Parts.isProper_ofInt i
  have hvalue : (if (Parts.ofInt i).numeral.negative then
      -(Decimal.natOf (Parts.ofInt i).numeral.digits : Int)
      else Decimal.natOf (Parts.ofInt i).numeral.digits) = i := by
    simp only [Parts.ofInt, Parts.numeral, List.append_nil, Decimal.natOf_ofNat, decide_eq_true_eq]
    split <;> omega
  have hwhole : ((Decimal.ofInt i).all fun c => c.isDigit || c == '-') = true := by
    have hdigits : ((Decimal.ofNat i.natAbs).all fun c => c.isDigit || c == '-') = true :=
      List.all_eq_true.2 fun c hc => by
        rw [List.all_eq_true.1 hproper.whole.2 c hc, Bool.true_or]
    rw [Decimal.ofInt]
    split
    · rw [List.all_cons, hdigits]
      rfl
    · exact hdigits
  have hzero : ¬ (i = 0 ∧ (Parts.ofInt i).numeral.negative = true) := by
    rintro ⟨rfl, hnegative⟩
    exact absurd hnegative (by decide)
  rw [number?, ← Parts.write_ofInt, if_pos (isNumber_write hproper (Parts.lead_ofInt i)),
    Parts.write_ofInt]
  simp only [hwhole]
  rw [← Parts.write_ofInt, Parts.numeral?_write hproper]
  simp only [Option.bind_eq_bind, Option.bind_some, hvalue]
  rw [if_pos ⟨trivial, hlow, hhigh, hzero⟩]

/-- **Rounded doubles are read back.** -/
theorem number?_write_real {x : Double} (h : x.IsRounded) :
    number? (Number.write (.real x)) = some (.real x) := by
  obtain ⟨negative, m, e, rfl⟩ : ∃ negative m e, x = .finite negative m e := by
    cases h
    exact ⟨_, _, _, rfl⟩
  obtain ⟨p, hnegative, htext, hp⟩ := Decimal.exists_parts_write layout negative m e
  have hsign : p.negative = negative := by
    rw [hnegative]
    split
    · exact Bool.and_true negative
    · rfl
  have hwhole : ¬ ((Number.write (.real (.finite negative m e))).all
      fun c => c.isDigit || c == '-') = true := by
    rw [Number.write, htext, Parts.write]
    rcases hp.point rfl with hplaces | hexponent
    · simp [hplaces]
    · obtain ⟨k, hk⟩ := Option.isSome_iff_exists.1 hexponent
      simp [hk, Parts.exponentText]
  rw [number?]
  simp only [hwhole]
  rw [Number.write, htext, if_pos (isNumber_write hp.proper hp.lead), Parts.numeral?_write hp.proper,
    Option.bind_eq_bind, Option.bind_some, hp.toDouble (hsign ▸ h), hsign]
  exact if_neg fun h => Bool.noConfusion h.1

/-! ### Values -/

/-- A number that its text gives back. -/
inductive Number.IsKept : Number → Prop
  | integer {i : Int} : -2 ^ 63 ≤ i → i < 2 ^ 64 → IsKept (.integer i)
  | real {x : Double} : x.IsRounded → IsKept (.real x)

/-- A value all of whose numbers are given back by their texts. -/
inductive IsKept : Json → Prop
  | null : IsKept .null
  | bool (b : Bool) : IsKept (.bool b)
  | number {n : Number} : n.IsKept → IsKept (.number n)
  | string (s : String) : IsKept (.string s)
  | array {items : List Json} : (∀ v ∈ items, v.IsKept) → IsKept (.array items)
  | object {members : List (String × Json)} : (∀ m ∈ members, m.2.IsKept) → IsKept (.object members)

/-- A number that is kept is read from its text. -/
theorem Number.IsKept.number?_write {n : Number} (h : n.IsKept) : number? n.write = some n := by
  cases h with
  | integer hlow hhigh => exact number?_ofInt hlow hhigh
  | real hx => exact number?_write_real hx

/-- A number that is kept is written as parts. -/
theorem Number.IsKept.exists_parts {n : Number} (h : n.IsKept) :
    ∃ p : Parts, p.IsProper ∧ n.write = p.write := by
  cases h with
  | @integer i _ _ => exact ⟨.ofInt i, Parts.isProper_ofInt i, (Parts.write_ofInt i).symm⟩
  | real hx =>
    cases hx with
    | @finite negative m e _ _ _ _ =>
      obtain ⟨p, -, htext, hp⟩ := Decimal.exists_parts_write layout negative m e
      exact ⟨p, hp.proper, htext⟩

/-- What follows a number ends it. -/
def EndsNumber (r : List Char) : Prop := ∀ c ∈ r.head?, isNumberPart c = false

/-- The characters of numerals can stand in numbers. -/
theorem isNumberPart_of_isNumeralChar {c : Char} (h : isNumeralChar c = true) :
    isNumberPart c = true := by
  simpa [isNumeralChar, isNumberPart, or_assoc, or_comm, or_left_comm] using h

/-- Nothing is skipped in front of a character that is no blank. -/
theorem skipSpace_cons {c : Char} (hc : isSpace c = false) (r : List Char) :
    skipSpace (c :: r) = c :: r := by
  rw [skipSpace, List.dropWhile_cons_of_neg (by simp [hc])]

/-- A number starts with a sign or a digit. -/
theorem Number.IsKept.exists_cons {n : Number} (h : n.IsKept) :
    ∃ c t, n.write = c :: t ∧ ∀ d : Char, (d == '-' || d.isDigit) = false → c ≠ d := by
  obtain ⟨p, hp, htext⟩ := h.exists_parts
  obtain ⟨c, t, hwrite, hc⟩ := hp.exists_cons
  refine ⟨c, t, htext.trans hwrite, ?_⟩
  rintro d hd rfl
  rcases hc with rfl | hc
  · cases hd
  · rw [hc, Bool.or_true] at hd
    cases hd

/-- A number is read up to something that ends it. -/
theorem readValue_number {n : Number} (h : n.IsKept) {r : List Char} (hr : EndsNumber r)
    (bound : Nat) : readValue (bound + 1) (n.write ++ r) = some (.number n, r) := by
  obtain ⟨c, t, hwrite, hother⟩ := h.exists_cons
  have hparts : ∀ d ∈ n.write, isNumberPart d = true := by
    obtain ⟨p, hp, htext⟩ := h.exists_parts
    rw [htext]
    exact fun d hd => isNumberPart_of_isNumeralChar (List.all_eq_true.1 hp.all_write d hd)
  have hspan := Decimal.span_append hparts hr
  have hspace : isSpace c = false := by
    simp [isSpace, hother ' ' rfl, hother '\t' rfl, hother '\n' rfl, hother '\r' rfl]
  have hskip : skipSpace (n.write ++ r) = n.write ++ r := by
    rw [hwrite]
    exact skipSpace_cons hspace _
  have hfirst {d : Char} {s : List Char} (heq : n.write ++ r = d :: s) : c = d := by
    rw [hwrite] at heq
    exact (List.cons.inj heq).1
  rw [readValue, hskip]
  split
  case h_7 =>
    rw [hspan.1, hspan.2, h.number?_write]
    rfl
  -- a number starts like no other value
  all_goals
    rename_i heq
    exact absurd (hfirst heq) (hother _ rfl)

/-- A value starts with a character that is no blank and closes nothing. -/
theorem IsKept.exists_cons {v : Json} (hv : v.IsKept) :
    ∃ c t, writeCompact v = c :: t ∧ isSpace c = false ∧ c ≠ ']' := by
  cases hv with
  | null => exact ⟨_, _, rfl, rfl, by decide⟩
  | bool b => cases b <;> exact ⟨_, _, rfl, rfl, by decide⟩
  | number hn =>
    obtain ⟨c, t, hwrite, hother⟩ := hn.exists_cons
    exact ⟨c, t, hwrite, by simp [isSpace, hother ' ' rfl, hother '\t' rfl, hother '\n' rfl,
      hother '\r' rfl], hother ']' rfl⟩
  | string s => exact ⟨_, _, rfl, rfl, by decide⟩
  | array _ => exact ⟨_, _, rfl, rfl, by decide⟩
  | object _ => exact ⟨_, _, rfl, rfl, by decide⟩

/-- So do elements. -/
theorem exists_cons_writeItems {v : Json} (hv : v.IsKept) (rest : List Json) :
    ∃ c t, writeItems (v :: rest) = c :: t ∧ isSpace c = false ∧ c ≠ ']' := by
  obtain ⟨c, t, hwrite, hspace, hclose⟩ := hv.exists_cons
  cases rest with
  | nil => exact ⟨c, t, hwrite, hspace, hclose⟩
  | cons w rest => exact ⟨c, t ++ ',' :: writeItems (w :: rest), by simp [writeItems, hwrite], hspace,
      hclose⟩

/-- Members start with the quote of a key. -/
theorem exists_cons_writeMembers (m : String × Json) (rest : List (String × Json)) :
    ∃ t, writeMembers (m :: rest) = '"' :: t := by
  cases rest <;> exact ⟨_, rfl⟩

mutual

/-- **A compact text is read as its value,** whatever follows it. -/
theorem readValue_writeCompact (v : Json) (hv : v.IsKept) {r : List Char} (hr : EndsNumber r)
    (bound : Nat) (hbound : (writeCompact v).length ≤ bound) :
    readValue bound (writeCompact v ++ r) = some (v, r) := by
  -- a value has a text, so one step of the bound is for the value and the rest for what is in it
  obtain ⟨bound, rfl⟩ := Nat.exists_eq_succ_of_ne_zero (n := bound) (by
    obtain ⟨c, t, hwrite, -⟩ := hv.exists_cons
    rw [hwrite, List.length_cons] at hbound
    omega)
  cases v with
  | null => rfl
  | bool b => cases b <;> rfl
  | number n =>
    cases hv with
    | number hn => exact readValue_number hn hr bound
  | string s =>
    rw [writeCompact, quote, List.cons_append, List.append_assoc, readValue]
    simp only [skipSpace_cons (c := '"') rfl]
    simp [string?_quoted]
  | array items =>
    cases hv with
    | array hitems =>
      rw [writeCompact, List.length_cons, List.length_append, List.length_singleton] at hbound
      have hread := fun hne => readItems_writeItems items hne hitems r bound (by omega)
      cases items with
      | nil => rfl
      | cons v rest =>
        obtain ⟨c, t, hwrite, hspace, hclose⟩ := exists_cons_writeItems (hitems v (by simp)) rest
        have hread := hread (List.cons_ne_nil _ _)
        rw [writeCompact, List.cons_append, List.append_assoc, readValue,
          skipSpace_cons (c := '[') rfl]
        simp only [List.singleton_append]
        rw [hwrite] at hread ⊢
        rw [List.cons_append, skipSpace_cons hspace]
        split
        · rename_i heq
          exact absurd (List.cons.inj heq).1 hclose
        · rw [← List.cons_append, hread]
          rfl
  | object members =>
    cases hv with
    | object hmembers =>
      rw [writeCompact, List.length_cons, List.length_append, List.length_singleton] at hbound
      have hread := fun hne => readMembers_writeMembers members hne hmembers r bound
        (by omega)
      cases members with
      | nil => rfl
      | cons m rest =>
        obtain ⟨t, hwrite⟩ := exists_cons_writeMembers m rest
        have hread := hread (List.cons_ne_nil _ _)
        rw [writeCompact, List.cons_append, List.append_assoc, readValue,
          skipSpace_cons (c := '\x7b') rfl]
        simp only [List.singleton_append]
        rw [hwrite, List.cons_append] at hread ⊢
        rw [skipSpace_cons (c := '"') rfl]
        split
        · rename_i heq
          exact absurd (List.cons.inj heq).1 (by decide)
        · rw [hread]
          rfl

/-- Elements are read up to the bracket that closes the array. -/
theorem readItems_writeItems (items : List Json) (hne : items ≠ []) (hitems : ∀ v ∈ items, v.IsKept)
    (r : List Char) (bound : Nat) (hbound : (writeItems items).length < bound) :
    readItems bound (writeItems items ++ ']' :: r) = some (items, r) := by
  obtain ⟨bound, rfl⟩ := Nat.exists_eq_succ_of_ne_zero (Nat.ne_of_gt (Nat.zero_lt_of_lt hbound))
  cases items with
  | nil => exact absurd rfl hne
  | cons v rest =>
    obtain ⟨hv, hrest⟩ := List.forall_mem_cons.1 hitems
    cases rest with
    | nil =>
      have hvalue := readValue_writeCompact v hv (r := ']' :: r) (by rintro _ ⟨⟩; rfl)
        bound (by rw [writeItems] at hbound; omega)
      rw [writeItems, readItems, hvalue]
      rfl
    | cons w rest =>
      rw [writeItems, List.length_append, List.length_cons] at hbound
      · have hvalue := readValue_writeCompact v hv (r := ',' :: (writeItems (w :: rest) ++ ']' :: r))
          (by rintro _ ⟨⟩; rfl) bound (by omega)
        have hothers := readItems_writeItems (w :: rest) (List.cons_ne_nil _ _) hrest r
          bound (by omega)
        rw [writeItems, List.append_assoc, List.cons_append, readItems, hvalue]
        · simp only [Option.bind_eq_bind, Option.bind_some, skipSpace_cons (c := ',') rfl, hothers]
        · exact nofun
      · exact nofun

/-- Members are read up to the brace that closes the object. -/
theorem readMembers_writeMembers (members : List (String × Json)) (hne : members ≠ [])
    (hmembers : ∀ m ∈ members, m.2.IsKept) (r : List Char) (bound : Nat)
    (hbound : (writeMembers members).length < bound) :
    readMembers bound (writeMembers members ++ '\x7d' :: r) = some (members, r) := by
  obtain ⟨bound, rfl⟩ := Nat.exists_eq_succ_of_ne_zero (Nat.ne_of_gt (Nat.zero_lt_of_lt hbound))
  cases members with
  | nil => exact absurd rfl hne
  | cons m rest =>
    obtain ⟨hm, hrest⟩ := List.forall_mem_cons.1 hmembers
    obtain ⟨k, v⟩ := m
    have hquote (t : List Char) : quote k.toList ++ t = '"' :: (k.toList.flatMap escape ++ '"' :: t) := by
      simp [quote]
    cases rest with
    | nil =>
      rw [writeMembers, List.length_append, List.length_cons] at hbound
      have hvalue := readValue_writeCompact v hm (r := '\x7d' :: r) (by rintro _ ⟨⟩; rfl)
        bound (by omega)
      rw [writeMembers, List.append_assoc, hquote, readMembers, skipSpace_cons (c := '"') rfl]
      simp only [Option.bind_eq_bind, Option.bind_some, string?_quoted, List.cons_append,
        skipSpace_cons (c := ':') rfl, hvalue, skipSpace_cons (c := '\x7d') rfl]
    | cons m rest =>
      rw [writeMembers, List.length_append, List.length_cons, List.length_append,
        List.length_cons] at hbound
      · have hvalue := readValue_writeCompact v hm
          (r := ',' :: (writeMembers (m :: rest) ++ '\x7d' :: r)) (by rintro _ ⟨⟩; rfl)
          bound (by omega)
        have hothers := readMembers_writeMembers (m :: rest) (List.cons_ne_nil _ _) hrest r
          bound (by omega)
        rw [writeMembers, List.append_assoc, hquote, readMembers, skipSpace_cons (c := '"') rfl]
        · simp only [Option.bind_eq_bind, Option.bind_some, string?_quoted, List.cons_append,
            List.append_assoc, skipSpace_cons (c := ':') rfl, hvalue, skipSpace_cons (c := ',') rfl,
            hothers]
        · exact nofun
      · exact nofun

end

/-- **A compact text is the text of its value.** -/
theorem parse?_compact {v : Json} (hv : v.IsKept) : parse? (compact v) = some v := by
  have hread := readValue_writeCompact v hv (r := []) nofun
    (2 * (writeCompact v).length + 2) (by omega)
  rw [List.append_nil] at hread
  simp only [parse?, compact, String.toList_ofList, hread]
  rfl

/-- Two values with the same compact text are the same. -/
theorem compact_injective {v w : Json} (hv : v.IsKept) (hw : w.IsKept) (h : compact v = compact w) :
    v = w :=
  Option.some.inj ((parse?_compact hv).symm.trans (h ▸ parse?_compact hw))

/-! ### Line feeds -/

/-- A line feed is escaped. -/
theorem not_mem_escape (c : Char) : '\n' ∉ escape c := by
  have hdigit (n : Nat) : '\n' ≠ Nat.digitChar (n % 16) := by
    have hall : ∀ k < 16, '\n' ≠ Nat.digitChar k := by decide
    exact hall _ (Nat.mod_lt _ (by decide))
  rw [escape]
  split
  · decide
  split
  · decide
  split
  · decide
  split
  · decide
  split
  · decide
  split
  · decide
  split
  · decide
  split
  · simp [hexCode, hdigit]
  · rename_i hfeed _ _ _ _ _
    simpa using Ne.symm hfeed

/-- A string is one line. -/
theorem not_mem_quote (s : List Char) : '\n' ∉ quote s := by
  simp [quote, not_mem_escape]

/-- A number is one line. -/
theorem Number.not_mem_write (n : Number) : '\n' ∉ n.write := by
  have hnone {s : List Char} (h : s.all isNumeralChar = true) : '\n' ∉ s := fun hmem =>
    absurd (List.all_eq_true.1 h _ hmem) (by decide)
  cases n with
  | integer i => exact hnone (Decimal.all_ofInt i)
  | real x =>
    cases x with
    | finite negative m e => exact hnone (Decimal.all_write layout negative m e)
    | infinite negative | nan =>
      show '\n' ∉ ['n', 'u', 'l', 'l']
      decide

mutual

/-- **A compact text is one line.** -/
theorem not_mem_writeCompact (v : Json) : '\n' ∉ writeCompact v := by
  cases v with
  | null => decide
  | bool b => cases b <;> decide
  | number n => exact n.not_mem_write
  | string s => exact not_mem_quote s.toList
  | array items => simp [writeCompact, not_mem_writeItems items]
  | object members => simp [writeCompact, not_mem_writeMembers members]

/-- Elements are on one line. -/
theorem not_mem_writeItems (items : List Json) : '\n' ∉ writeItems items := by
  cases items with
  | nil => decide
  | cons v rest =>
    cases rest with
    | nil => exact not_mem_writeCompact v
    | cons w rest => simp [writeItems, not_mem_writeCompact v, not_mem_writeItems (w :: rest)]

/-- Members are on one line. -/
theorem not_mem_writeMembers (members : List (String × Json)) : '\n' ∉ writeMembers members := by
  cases members with
  | nil => decide
  | cons m rest =>
    obtain ⟨k, v⟩ := m
    cases rest with
    | nil => simp [writeMembers, not_mem_quote, not_mem_writeCompact v]
    | cons m rest =>
      simp [writeMembers, not_mem_quote, not_mem_writeCompact v, not_mem_writeMembers (m :: rest)]

end

end Json
end SearchFilter
