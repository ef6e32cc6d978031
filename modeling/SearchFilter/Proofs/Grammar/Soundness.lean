/-
# What the grammar accepts has a derivation

Reader by reader: what a reader takes off the front of a text is text of the kind that
the derivations ask for, and it stands there in full. The readers of the clauses are
taken as a whole, by induction on how deep groups may be nested
(`isSound_clauseWithin`).
-/

import SearchFilter.Proofs.Grammar.Derivation
import SearchFilter.Proofs.Grammar.Takes

namespace SearchFilter
namespace Grammar

open Query (AtBoundary isSign isSign_iff)
open Reader

/-! ### Words -/

/-- A term is what is cut off as one, if that is not empty. -/
theorem takes_term {s w r : List Char} : term.Takes s w r ↔ w ≠ [] ∧ spanTerm s = (w, r) := by
  simp only [Takes, term]
  rcases hs : spanTerm s with ⟨word, rest⟩
  by_cases hw : word = []
  · subst hw
    simp only [List.isEmpty_nil, if_true, reduceCtorEq, Prod.mk.injEq, false_iff]
    rintro ⟨h1, h2, -⟩
    exact h1 h2.symm
  · simp only [List.isEmpty_iff, hw, if_false, Option.some.injEq, Prod.mk.injEq]
    exact ⟨fun h => ⟨h.1 ▸ hw, h⟩, fun h => h.2⟩

/-- What is cut off as a term is a term. -/
theorem isTerm_of_spanTerm {s w r : List Char} (hw : w ≠ []) (h : spanTerm s = (w, r)) :
    IsTerm w := ⟨hw, (spanTerm_spec h).2.1⟩

/-- What is read as a keyword is the keyword, up to the end of the term. -/
theorem takes_keyword {word symbol : String} {s r : List Char} {u : Unit}
    (h : (keyword word symbol).Takes s u r) :
    ∃ k, IsKeyword word symbol k ∧ s = k ++ r ∧ spanTerm (k ++ r) = (k, r) := by
  simp only [keyword, takes_labelled, takes_accept, takes_term] at h
  obtain ⟨k, ⟨hk, hs⟩, hsame⟩ := h
  have hspec := spanTerm_spec hs
  refine ⟨k, ⟨⟨hk, hspec.2.1⟩, ?_⟩, hspec.1, hspec.1 ▸ hs⟩
  split at hsame
  · rename_i hor
    simpa using hor
  · simp at hsame

/-- A phrase is cut off behind its closing quote. -/
theorem spanQuoted_spec {s inside r : List Char} (h : spanQuoted s = (inside, r)) :
    ∃ raw, s = raw ++ r ∧ spanQuoted raw = (inside, []) := by
  fun_induction spanQuoted s generalizing inside r with
  | case1 => cases h; exact ⟨[], rfl, rfl⟩
  | case2 c t inner rest hcut ih =>
    obtain ⟨rfl, rfl⟩ := Prod.mk.inj h
    obtain ⟨raw, rfl, hraw⟩ := ih hcut
    exact ⟨'\\' :: c :: raw, rfl, by rw [spanQuoted, hraw]⟩
  | case3 c t hne hb =>
    obtain ⟨rfl, rfl⟩ := Prod.mk.inj h
    exact ⟨[], rfl, rfl⟩
  | case4 c t hne hb inner rest hcut ih =>
    obtain ⟨rfl, rfl⟩ := Prod.mk.inj h
    obtain ⟨raw, rfl, hraw⟩ := ih hcut
    refine ⟨c :: raw, rfl, ?_⟩
    rw [spanQuoted, if_neg hb, hraw]
    intro d q hc
    exact absurd (.inr hc) hb

/-- What is read as a phrase is a phrase with its quotes. -/
theorem takes_phrase {s p r : List Char} (h : phrase.Takes s p r) :
    ∃ u, PhraseText p u ∧ s = u ++ r := by
  simp only [Takes, phrase] at h
  split at h
  · rename_i t
    split at h
    · rename_i inside rest hspan
      obtain ⟨rfl, rfl⟩ : inside = p ∧ rest = r := by simpa using h
      obtain ⟨raw, rfl, hraw⟩ := spanQuoted_spec hspan
      exact ⟨_, .mk hraw, by simp⟩
    · simp at h
  · simp at h

/-- What is read as a field is a field. -/
theorem takes_fieldName {s name r : List Char} (h : fieldName.Takes s name r) :
    FieldText name ∧ s = name ++ r := by
  cases s with
  | nil => simp [Takes, fieldName] at h
  | cons c t =>
    simp only [Takes, fieldName] at h
    split at h
    · rename_i hc
      have hid : Text.isIdentifier (c :: t.takeWhile Text.isNamePart) = true := by
        simp [Text.isIdentifier, hc]
      have ht := List.takeWhile_append_dropWhile (p := Text.isNamePart) (l := t)
      split at h
      · rename_i rest hdot
        rw [hdot] at ht
        have hrest := List.takeWhile_append_dropWhile (p := Text.isNamePart) (l := rest)
        split at h
        · obtain ⟨rfl, rfl⟩ : _ = name ∧ _ = r := by simpa using h
          exact ⟨.plain hid, by rw [List.cons_append, ht]⟩
        · rename_i hpart
          obtain ⟨rfl, rfl⟩ : _ = name ∧ _ = r := by simpa using h
          refine ⟨.dotted hid (by simpa using hpart) (by simp), ?_⟩
          rw [List.cons_append, List.append_assoc, List.cons_append, hrest, ht]
      · obtain ⟨rfl, rfl⟩ : _ = name ∧ _ = r := by simpa using h
        exact ⟨.plain hid, by rw [List.cons_append, ht]⟩
    · simp at h

/-- Only digits are cut off, and with what is left they are the text. -/
theorem spanDigits_spec {s ds r : List Char} (h : Decimal.spanDigits s = (ds, r)) :
    ds.all Char.isDigit = true ∧ s = ds ++ r := by
  obtain ⟨rfl, rfl⟩ := Prod.mk.inj h
  exact ⟨by simp, List.takeWhile_append_dropWhile.symm⟩

/-- What is read as a number are digits that write it, and it is small enough. -/
theorem takes_integer {s r : List Char} {n : Nat} (h : integer.Takes s n r) :
    ∃ ds, ds.all Char.isDigit = true ∧ Decimal.natOf ds = n ∧ n < Nat.pow 2 32 ∧ s = ds ++ r := by
  simp only [Takes, integer] at h
  rcases hs : Decimal.spanDigits s with ⟨ds, rest⟩
  obtain ⟨hds, rfl⟩ := spanDigits_spec hs
  simp only [hs] at h
  split at h
  · simp at h
  · split at h
    · rename_i hlt
      obtain ⟨rfl, rfl⟩ : _ = n ∧ _ = r := by simpa using h
      exact ⟨ds, hds, rfl, hlt, rfl⟩
    · simp at h

/-- Digits, with decimal places behind a point if there is one. -/
inductive DecimalText : List Char → Prop
  | whole {ds : List Char} : ds ≠ [] → ds.all Char.isDigit = true → DecimalText ds
  | places {ds ps : List Char} : ds ≠ [] → ds.all Char.isDigit = true → ps ≠ [] →
    ps.all Char.isDigit = true → DecimalText (ds ++ '.' :: ps)

/-- A decimal numeral has digits and a point alone. -/
theorem DecimalText.all {u : List Char} (h : DecimalText u) :
    (u.all fun c => c.isDigit || c == '.') = true := by
  have digits {ds : List Char} (hds : ds.all Char.isDigit = true) :
      (ds.all fun c => c.isDigit || c == '.') = true := by
    rw [List.all_eq_true] at hds ⊢
    intro c hc
    rw [hds c hc, Bool.true_or]
  cases h with
  | whole _ hds => exact digits hds
  | places _ hds _ hps =>
    rw [List.all_append, digits hds, List.all_cons, digits hps]
    rfl

/-- What is read as a decimal numeral is one, and is read as its value. -/
theorem takes_decimal {s r : List Char} {x : Double} (h : decimal.Takes s x r) :
    ∃ u, DecimalText u ∧ (Decimal.read? u).getD .nan = x ∧ s = u ++ r := by
  simp only [Takes, decimal] at h
  rcases hs : Decimal.spanDigits s with ⟨ds, rest⟩
  obtain ⟨hds, rfl⟩ := spanDigits_spec hs
  simp only [hs] at h
  split at h
  · cases h
  · rename_i hne
    rw [List.isEmpty_iff] at hne
    split at h
    · rename_i more
      rcases hm : Decimal.spanDigits more with ⟨places, after⟩
      obtain ⟨hplaces, rfl⟩ := spanDigits_spec hm
      simp only [hm] at h
      split at h
      · obtain ⟨hx, rfl⟩ := Prod.mk.inj (Option.some.inj h)
        exact ⟨ds, .whole hne hds, hx, rfl⟩
      · rename_i hsome
        rw [List.isEmpty_iff] at hsome
        obtain ⟨hx, rfl⟩ := Prod.mk.inj (Option.some.inj h)
        exact ⟨ds ++ '.' :: places, .places hne hds hsome hplaces, hx, by simp⟩
    · obtain ⟨hx, rfl⟩ := Prod.mk.inj (Option.some.inj h)
      exact ⟨ds, .whole hne hds, hx, rfl⟩

/-! ### Atoms -/

/-- Skipping blanks takes off a blank text. -/
theorem exists_blank_append (s : List Char) :
    ∃ b, Text.allBlank b = true ∧ s = b ++ Text.skipBlank s :=
  ⟨s.takeWhile Text.isBlank, by simp [Text.allBlank], List.takeWhile_append_dropWhile.symm⟩

/-- What is read as a bound is a bound. -/
theorem takes_bound {s r : List Char} {b : Option (List Char)} (h : bound.Takes s b r) :
    ∃ u, BoundText b u ∧ s = u ++ r := by
  simp only [bound, takes_orElse, takes_map, takes_term] at h
  rcases h with ⟨p, hp, rfl⟩ | ⟨-, u, ⟨hu, hs⟩, rfl⟩
  · obtain ⟨u, hu, rfl⟩ := takes_phrase hp
    exact ⟨u, .phrase hu, rfl⟩
  · have hspec := spanTerm_spec hs
    refine ⟨u, ?_, hspec.1⟩
    split
    · rename_i hstar
      rw [hstar]
      exact .unlimited
    · rename_i hstar
      exact .term ⟨hu, hspec.2.1⟩ hstar

/-- What is read between brackets is a range with its bounds. -/
theorem takes_between {opening closing : Char} {inclusive : Bool} {s r : List Char} {a : Atom}
    (hmem : (opening, closing, inclusive) ∈ [('[', ']', true), ('\x7b', '\x7d', false)])
    (h : (between opening closing inclusive).Takes s a r) :
    ∃ min max u, a = .range min max inclusive ∧ AtomText a u ∧ s = u ++ r := by
  simp only [between, takes_bind, takes_just, takes_padded, takes_pure] at h
  obtain ⟨_, s₁, ⟨rfl, rfl⟩, min, _, ⟨s₂, hmin, rfl⟩, _, s₃, hto, max, _, ⟨s₄, hmax, rfl⟩,
    _, _, ⟨hclosing, rfl⟩, rfl, rfl⟩ := h
  obtain ⟨b₁, hb₁, e₁⟩ := exists_blank_append s₁
  obtain ⟨x, hx, e₂⟩ := takes_bound hmin
  obtain ⟨b₂, hb₂, e₃⟩ := exists_blank_append s₂
  obtain ⟨k, hkey, e₄, -⟩ := takes_keyword hto
  obtain ⟨b₃, hb₃, e₅⟩ := exists_blank_append s₃
  obtain ⟨y, hy, e₆⟩ := takes_bound hmax
  obtain ⟨b₄, hb₄, e₇⟩ := exists_blank_append s₄
  refine ⟨min, max, _, rfl, .range hmem hb₁ hx hb₂ hkey hb₃ hy hb₄, ?_⟩
  rw [e₁, e₂, e₃, e₄, e₅, e₆, e₇, hclosing]
  simp

/-- What is read as a range is a range. -/
theorem takes_range {s r : List Char} {a : Atom} (h : range.Takes s a r) :
    ∃ min max inclusive u, a = .range min max inclusive ∧ AtomText a u ∧ s = u ++ r := by
  simp only [range, takes_labelled, takes_orElse] at h
  rcases h with h | ⟨-, h⟩
  · obtain ⟨min, max, u, h⟩ := takes_between (by simp) h
    exact ⟨min, max, true, u, h⟩
  · obtain ⟨min, max, u, h⟩ := takes_between (by simp) h
    exact ⟨min, max, false, u, h⟩

/-- What is read as a comparison is a comparison. -/
theorem takes_comparison {s r : List Char} {a : Atom} (h : comparison.Takes s a r) :
    ∃ u, AtomText a u ∧ s = u ++ r := by
  simp only [comparison, takes_labelled, takes_bind, takes_pure] at h
  obtain ⟨op, m, hop, operand, _, hoperand, rfl, rfl⟩ := h
  have hsign : s = op.sign.toList ++ m := by
    simp only [comparisonSign, takes_choice_cons, takes_choice_nil, takes_map, takes_literal,
      takes_just, and_false, or_false] at hop
    rcases hop with ⟨_, rfl, rfl⟩ | ⟨-, ⟨_, rfl, rfl⟩ | ⟨-, ⟨_, ⟨rfl, rfl⟩, rfl⟩ | ⟨-, ⟨_, ⟨rfl, rfl⟩, rfl⟩⟩⟩⟩ <;>
      rfl
  simp only [takes_orElse, takes_map, takes_term] at hoperand
  rcases hoperand with ⟨p, hp, rfl⟩ | ⟨-, u, ⟨hu, hs⟩, rfl⟩
  · obtain ⟨u, hu, rfl⟩ := takes_phrase hp
    exact ⟨_, .compare (.quoted hu), by rw [hsign, List.append_assoc]⟩
  · have hspec := spanTerm_spec hs
    exact ⟨_, .compare (.raw ⟨hu, hspec.2.1⟩), by rw [hsign, hspec.1, List.append_assoc]⟩

/-! ### Suffixes and boundaries -/

/-- At a boundary nothing is taken, and the word ends there. -/
theorem takes_boundary {s r : List Char} {u : Unit} (h : boundary.Takes s u r) :
    r = s ∧ AtBoundary s := by
  simp only [boundary, takes_labelled, takes_ahead, takes_orElse, takes_map, takes_char,
    takes_atEnd] at h
  obtain ⟨rfl, _, ⟨c, ⟨rfl, hc⟩, -⟩ | ⟨-, rfl, -⟩⟩ := h
  · exact ⟨rfl, Query.atBoundary_cons.2 hc⟩
  · exact ⟨rfl, Query.atBoundary_nil⟩

/-- What is read as a fuzzy suffix is one. -/
theorem takes_fuzzySuffix {s r : List Char} {distance : Option Nat}
    (h : fuzzySuffix.Takes s distance r) : ∃ z, FuzzyText (some distance) z ∧ s = z ++ r := by
  simp only [fuzzySuffix, takes_labelled, takes_bind, takes_just, takes_opt] at h
  obtain ⟨_, m, ⟨rfl, rfl⟩, ⟨n, rfl, hn⟩ | ⟨rfl, rfl, -⟩⟩ := h
  · obtain ⟨ds, hds, rfl, hlt, rfl⟩ := takes_integer hn
    exact ⟨'~' :: ds, .within hds hlt, rfl⟩
  · exact ⟨['~'], .anyDistance, rfl⟩

/-- What is read as a boost is one. -/
theorem takes_boostSuffix {s r : List Char} {power : Double} (h : boostSuffix.Takes s power r) :
    ∃ z, BoostText (some power) z ∧ s = z ++ r := by
  simp only [boostSuffix, takes_labelled, takes_bind, takes_just] at h
  obtain ⟨_, m, ⟨rfl, rfl⟩, hx⟩ := h
  obtain ⟨ds, hds, rfl, rfl⟩ := takes_decimal hx
  exact ⟨'^' :: ds, .power hds.all, rfl⟩

/-- What is read behind a clause are its suffixes. -/
theorem takes_suffixes {s m r : List Char} {fuzzy : Option (Option Nat)} {boost : Option Double}
    (hf : (Reader.opt fuzzySuffix).Takes s fuzzy m) (hb : (Reader.opt boostSuffix).Takes m boost r) :
    ∃ z, SuffixText fuzzy boost z ∧ s = z ++ r := by
  obtain ⟨u, hu, rfl⟩ : ∃ u, FuzzyText fuzzy u ∧ s = u ++ m := by
    rcases takes_opt.1 hf with ⟨d, rfl, hd⟩ | ⟨rfl, rfl, -⟩
    · exact takes_fuzzySuffix hd
    · exact ⟨[], .none, rfl⟩
  obtain ⟨v, hv, rfl⟩ : ∃ v, BoostText boost v ∧ m = v ++ r := by
    rcases takes_opt.1 hb with ⟨x, rfl, hx⟩ | ⟨rfl, rfl, -⟩
    · exact takes_boostSuffix hx
    · exact ⟨[], .none, rfl⟩
  exact ⟨u ++ v, .mk hu hv, by rw [List.append_assoc]⟩

/-! ### Blanks and prefixes -/

/-- A derivation may start behind blanks. -/
theorem reads_of_skipBlank {c : Clause} {s r : List Char} (h : Reads c (Text.skipBlank s) r) :
    Reads c s r := Text.of_skipBlank (P := fun s => Reads c s r) .before h

/-- A derivation may take the blanks behind it. -/
theorem Reads.skipBlank {c : Clause} {s r : List Char} (h : Reads c s r) :
    Reads c s (Text.skipBlank r) := Text.skipBlank_of (P := Reads c s) .behind h

/-- Prefixes may start behind blanks. -/
theorem signs_of_skipBlank {ps : List Prefix} {s r : List Char}
    (h : Signs ps (Text.skipBlank s) r) : Signs ps s r :=
  Text.of_skipBlank (P := fun s => Signs ps s r) .blank h

/-- A prefix is a sign or the word `NOT`, with the blanks around it. -/
theorem takes_signPrefix {p : Prefix} {s r : List Char} (h : signPrefix.Takes s p r) :
    ∃ m, Text.skipBlank m = r ∧
      ((∃ c, isSign c = true ∧ (p = .must ↔ c = '+') ∧ Text.skipBlank s = c :: m) ∨
        ∃ k, p = .mustNot ∧ IsKeyword "NOT" "!" k ∧ Text.skipBlank s = k ++ m ∧
          spanTerm (k ++ m) = (k, m)) := by
  simp only [signPrefix, takes_padded, takes_choice_cons, takes_choice_nil, takes_map, takes_just,
    and_false, or_false] at h
  obtain ⟨m, h, rfl⟩ := h
  refine ⟨m, rfl, ?_⟩
  rcases h with ⟨_, ⟨hs, rfl⟩, rfl⟩ | ⟨-, ⟨_, ⟨hs, rfl⟩, rfl⟩ | ⟨-, ⟨_, ⟨hs, rfl⟩, rfl⟩ | ⟨-, h⟩⟩⟩
  · exact .inl ⟨'!', by decide, by simp, hs⟩
  · exact .inl ⟨'+', by decide, by simp, hs⟩
  · exact .inl ⟨'-', by decide, by simp, hs⟩
  · obtain ⟨_, hk, rfl⟩ := h
    obtain ⟨k, hkey, hs, hspan⟩ := takes_keyword hk
    exact .inr ⟨k, rfl, hkey, hs, hspan⟩

/-- A prefix takes at least one character. -/
theorem length_lt_of_takes_signPrefix {p : Prefix} {s r : List Char}
    (h : signPrefix.Takes s p r) : r.length < s.length := by
  obtain ⟨m, rfl, hm⟩ := takes_signPrefix h
  have hs := Text.skipBlank_length_le s
  have hr := Text.skipBlank_length_le m
  rcases hm with ⟨c, -, -, he⟩ | ⟨k, -, hkey, he, -⟩
  · rw [he, List.length_cons] at hs
    omega
  · rw [he, List.length_append] at hs
    have := List.length_pos_iff.2 hkey.term.ne_nil
    omega

/-- A prefix that is read stands in front of those behind it. -/
theorem Signs.cons {p : Prefix} {ps : List Prefix} {s m r : List Char}
    (h : signPrefix.Takes s p m) (hps : Signs ps m r) : Signs (p :: ps) s r := by
  obtain ⟨m', rfl, ⟨c, hc, hp, he⟩ | ⟨k, rfl, hkey, he, hspan⟩⟩ := takes_signPrefix h
  · exact signs_of_skipBlank (he ▸ .sign hc hp (signs_of_skipBlank hps))
  · exact signs_of_skipBlank (he ▸ .word hkey hspan (signs_of_skipBlank hps))

/-- **Prefixes that are read one after the other** are prefixes of the text. -/
theorem signs_of_takesAll {ps : List Prefix} {s r : List Char}
    (h : signPrefix.TakesAll s ps r) : Signs ps s r := by
  induction h with
  | nil s => exact .nil s
  | cons hp _ ih => exact .cons hp ih

/-- Behind its prefixes a clause does not start with a sign. -/
theorem isSign_eq_false_of_fails {s : List Char} (h : signPrefix.Fails s) :
    ∀ c ∈ s.head?, isSign c = false := by
  intro c hc
  cases hs : isSign c with
  | false => rfl
  | true =>
    obtain ⟨r, rfl⟩ : ∃ r, s = c :: r := by
      cases s with
      | nil => simp at hc
      | cons d r => exact ⟨r, by simpa using hc⟩
    obtain ⟨p, hp⟩ : ∃ p, (signPrefix (c :: r)).result = some (p, Text.skipBlank r) := by
      rcases isSign_iff.1 hs with rfl | rfl | rfl <;> exact ⟨_, rfl⟩
    rw [Fails, hp] at h
    cases h

/-! ### Clauses -/

variable {clause : Reader Clause}

/-- What the reader of the clauses inside of groups takes has a derivation. -/
def IsSound (clause : Reader Clause) : Prop := ∀ s c r, clause.Takes s c r → Reads c s r

/-- What is read as a group is a derivation between parentheses. -/
theorem takes_group (hclause : IsSound clause) {s r : List Char} {c : Clause}
    (h : (group clause).Takes s c r) : ∃ m, s = '(' :: m ∧ Reads c m (')' :: r) := by
  simp only [group, takes_labelled, takes_bind, takes_just, takes_padded, takes_pure] at h
  obtain ⟨_, s, ⟨rfl, rfl⟩, c, _, ⟨m, hc, rfl⟩, _, _, ⟨hm, rfl⟩, rfl, rfl⟩ := h
  have hreads := (reads_of_skipBlank (hclause _ _ _ hc)).skipBlank
  rw [hm] at hreads
  exact ⟨s, rfl, hreads⟩

/-- A clause with a field is a group or an atom behind its colon. -/
theorem takes_fielded_cases {s r : List Char} {c : Clause} (h : (fielded clause).Takes s c r) :
    ∃ field m, FieldText field ∧ s = field ++ ':' :: m ∧
      ((∃ inner, c = .fieldGroup field inner ∧ (group clause).Takes m inner r) ∨
        ∃ a u, c = .leaf (some field) a ∧ AtomText a u ∧ m = u ++ r) := by
  simp only [fielded, takes_bind, takes_just, takes_choice_cons, takes_choice_nil, takes_map,
    and_false, or_false] at h
  obtain ⟨field, _, hname, _, m, ⟨rfl, rfl⟩, h⟩ := h
  obtain ⟨hfield, rfl⟩ := takes_fieldName hname
  refine ⟨field, m, hfield, rfl, ?_⟩
  rcases h with ⟨inner, hg, rfl⟩ |
    ⟨-, ⟨a, ha, rfl⟩ | ⟨-, ⟨a, ha, rfl⟩ | ⟨-, ⟨p, hp, rfl⟩ | ⟨-, t, ht, rfl⟩⟩⟩⟩
  · exact .inl ⟨inner, rfl, hg⟩
  · obtain ⟨_, _, _, u, -, hu, hs⟩ := takes_range ha
    exact .inr ⟨a, u, rfl, hu, hs⟩
  · obtain ⟨u, hu, hs⟩ := takes_comparison ha
    exact .inr ⟨a, u, rfl, hu, hs⟩
  · obtain ⟨u, hu, hs⟩ := takes_phrase hp
    exact .inr ⟨_, u, rfl, .phrase hu, hs⟩
  · obtain ⟨ht, hspan⟩ := takes_term.1 ht
    exact .inr ⟨_, t, rfl, .term (isTerm_of_spanTerm ht hspan), (spanTerm_spec hspan).1⟩

/-- A clause without a field is a group, a phrase, a range or a term that is no operator. -/
theorem takes_unfielded_cases {s r : List Char} {c : Clause} (h : (unfielded clause).Takes s c r) :
    (group clause).Takes s c r ∨ ∃ a u, c = .leaf none a ∧ AtomText a u ∧ s = u ++ r ∧
      ((∃ p, a = .phrase p) ∨ (∃ min max inclusive, a = .range min max inclusive) ∨
        a = .term u ∧ isReserved u = false) := by
  simp only [unfielded, takes_choice_cons, takes_choice_nil, takes_map, and_false, or_false] at h
  rcases h with h | ⟨-, ⟨a, ha, rfl⟩ | ⟨-, ⟨p, hp, rfl⟩ | ⟨-, t, ht, rfl⟩⟩⟩
  · exact .inl h
  · obtain ⟨min, max, inclusive, u, rfl, hu, hs⟩ := takes_range ha
    exact .inr ⟨_, u, rfl, hu, hs, .inr (.inl ⟨min, max, inclusive, rfl⟩)⟩
  · obtain ⟨u, hu, hs⟩ := takes_phrase hp
    exact .inr ⟨_, u, rfl, .phrase hu, hs, .inl ⟨p, rfl⟩⟩
  · simp only [bareTerm, takes_accept, takes_term] at ht
    obtain ⟨u, ⟨hu, hspan⟩, hres⟩ := ht
    obtain ⟨hfree, rfl⟩ : isReserved u = false ∧ u = t := by
      split at hres <;> simp_all
    exact .inr ⟨_, u, rfl, .term (isTerm_of_spanTerm hu hspan), (spanTerm_spec hspan).1,
      .inr (.inr ⟨rfl, hfree⟩)⟩

/-- What is read with a field is an atom with the field, or a group under it. -/
theorem takes_fielded (hclause : IsSound clause) {s r : List Char} {c : Clause}
    (h : (fielded clause).Takes s c r) :
    (∃ field a u, c = .leaf field a ∧ LeafText field a u ∧ s = u ++ r) ∨
      ∃ field inner m, c = .fieldGroup field inner ∧ FieldText field ∧
        s = field ++ ':' :: '(' :: m ∧ Reads inner m (')' :: r) := by
  obtain ⟨field, m, hfield, rfl, ⟨inner, rfl, hg⟩ | ⟨a, u, rfl, hu, rfl⟩⟩ := takes_fielded_cases h
  · obtain ⟨m, rfl, hreads⟩ := takes_group hclause hg
    exact .inr ⟨field, inner, m, rfl, hfield, rfl, hreads⟩
  · exact .inl ⟨some field, a, _, rfl, .fielded hfield hu, by simp⟩

/-- What is read without a field is an atom, or a group. -/
theorem takes_unfielded (hclause : IsSound clause) {s r : List Char} {c : Clause}
    (hs : ∀ c ∈ s.head?, isSign c = false) (h : (unfielded clause).Takes s c r) :
    (∃ field a u, c = .leaf field a ∧ LeafText field a u ∧ s = u ++ r) ∨
      ∃ m, s = '(' :: m ∧ Reads c m (')' :: r) := by
  obtain h | ⟨a, u, rfl, hu, rfl, ⟨p, rfl⟩ | ⟨_, _, _, rfl⟩ | ⟨rfl, hfree⟩⟩ := takes_unfielded_cases h
  · exact .inr (takes_group hclause h)
  · exact .inl ⟨none, _, u, rfl, .phrase hu, rfl⟩
  · exact .inl ⟨none, _, u, rfl, .range hu, rfl⟩
  · obtain ⟨hterm⟩ := hu
    refine .inl ⟨none, _, u, rfl, .term hterm hfree ?_, rfl⟩
    obtain ⟨d, u, rfl⟩ := List.exists_cons_of_ne_nil hterm.ne_nil
    exact hs

/-- What is read with its suffixes has a derivation. -/
theorem takes_modified (hclause : IsSound clause) {s r : List Char} {c : Clause}
    (hs : ∀ c ∈ s.head?, isSign c = false) (h : (modified clause).Takes s c r) : Reads c s r := by
  simp only [modified, takes_bind, takes_orElse, takes_pure] at h
  obtain ⟨c, m, hc, fuzzy, _, hf, boost, _, hb, _, _, hend, rfl, rfl⟩ := h
  obtain ⟨rfl, hr⟩ := takes_boundary hend
  obtain ⟨z, hz, rfl⟩ := takes_suffixes hf hb
  rcases hc with hc | ⟨-, hc⟩
  · rcases takes_fielded hclause hc with
      ⟨field, a, u, rfl, hu, rfl⟩ | ⟨field, inner, m, rfl, hfield, rfl, hreads⟩
    · exact .leaf hu hz hr
    · exact .fieldGroup hfield hreads hz hr
  · rcases takes_unfielded hclause hs hc with ⟨field, a, u, rfl, hu, rfl⟩ | ⟨m, rfl, hreads⟩
    · exact .leaf hu hz hr
    · exact .group hreads hz hr

/-- What is read with its prefixes has a derivation. -/
theorem takes_unary (hclause : IsSound clause) : IsSound (unary clause) := by
  intro s c r h
  simp only [unary, takes_padded, takes_bind, takes_pure] at h
  obtain ⟨_, ⟨ps, m, hps, c, _, hc, rfl, rfl⟩, rfl⟩ := h
  have hfails := fails_of_takes_many (fun _ _ _ h => length_lt_of_takes_signPrefix h) hps
  have hc := takes_modified hclause (isSign_eq_false_of_fails hfails) hc
  have hsigns := signs_of_takesAll (takesAll_of_takes_many hps)
  exact (reads_of_skipBlank (.prefixed hsigns hc)).skipBlank

/-- What is read as a keyword between clauses joins them. -/
theorem takes_joins {word symbol : String} {s r : List Char} {u : Unit}
    (h : (Reader.padded (keyword word symbol)).Takes s u r) : Joins word symbol s r := by
  obtain ⟨m, hk, rfl⟩ := takes_padded.1 h
  obtain ⟨k, hkey, hs, hspan⟩ := takes_keyword hk
  obtain ⟨b₁, hb₁, e₁⟩ := exists_blank_append s
  obtain ⟨b₂, hb₂, e₂⟩ := exists_blank_append m
  rw [e₁, hs]
  generalize Text.skipBlank m = r at e₂
  subst e₂
  exact .mk hb₁ hkey hspan hb₂

/-- Clauses that are read one after the other are joined from the left. -/
theorem reads_foldl {mk : Clause → Clause → Clause} {p : Reader Clause}
    (step : ∀ {c d : Clause} {s m r : List Char}, Reads c s m → p.Takes m d r →
      Reads (mk c d) s r)
    {cs : List Clause} {c : Clause} {s m r : List Char} (h : p.TakesAll m cs r)
    (hc : Reads c s m) : Reads (cs.foldl mk c) s r := by
  induction h generalizing c with
  | nil => exact hc
  | cons hp _ ih => exact ih (step hc hp)

/-- A conjunction that is read has a derivation. -/
theorem takes_conjunction (hclause : IsSound clause) : IsSound (conjunction clause) := by
  intro s c r h
  simp only [conjunction, takes_bind, takes_pure] at h
  obtain ⟨first, m, hfirst, rest, _, hrest, rfl, rfl⟩ := h
  refine reads_foldl ?_ (takesAll_of_takes_many hrest) (takes_unary hclause _ _ _ hfirst)
  intro c d s m r hc hd
  simp only [takes_bind, takes_opt] at hd
  obtain ⟨_, m', ⟨_, rfl, hand⟩ | ⟨rfl, rfl, -⟩, hd⟩ := hd
  · exact .and hc (takes_joins hand) (takes_unary hclause _ _ _ hd)
  · exact .beside hc (takes_unary hclause _ _ _ hd)

/-- A disjunction that is read has a derivation. -/
theorem takes_disjunction (hclause : IsSound clause) : IsSound (disjunction clause) := by
  intro s c r h
  simp only [disjunction, takes_bind, takes_pure] at h
  obtain ⟨first, m, hfirst, rest, _, hrest, rfl, rfl⟩ := h
  refine reads_foldl ?_ (takesAll_of_takes_many hrest) (takes_conjunction hclause _ _ _ hfirst)
  intro c d s m r hc hd
  obtain ⟨_, m', hor, hd⟩ := takes_bind.1 hd
  exact .or hc (takes_joins hor) (takes_conjunction hclause _ _ _ hd)

/-- **What is read to any depth has a derivation**. -/
theorem isSound_clauseWithin (bound : Nat) : IsSound (clauseWithin bound) := by
  induction bound with
  | zero => intro s c r h; simp [Takes, clauseWithin] at h
  | succ bound ih => intro s c r h; exact takes_disjunction ih s c r h

/-- A query is a clause with blanks around it, up to the end of the text. -/
theorem query_eq (s : List Char) : query s = (do
    let c ← Reader.padded (clauseWithin (s.length + 1))
    Reader.atEnd
    pure c : Reader Clause) s := rfl

/-- A query is read off the whole text, the blanks around it apart. -/
theorem takes_query {s r : List Char} {c : Clause} :
    query.Takes s c r ↔
      ∃ m, (clauseWithin (s.length + 1)).Takes (Text.skipBlank s) c m ∧
        Text.skipBlank m = [] ∧ r = [] := by
  rw [Takes, query_eq, ← Takes]
  simp only [takes_bind, takes_padded, takes_atEnd, takes_pure]
  constructor
  · rintro ⟨c, _, ⟨m, hc, rfl⟩, _, _, ⟨hend, rfl⟩, rfl, rfl⟩
    exact ⟨m, hc, hend, rfl⟩
  · rintro ⟨m, hc, hend, rfl⟩
    exact ⟨c, _, ⟨m, hc, rfl⟩, (), [], ⟨hend, rfl⟩, rfl, rfl⟩

/-- A clause is what the grammar reads off the whole text. -/
theorem clause?_eq_ok_iff {s : List Char} {c : Clause} :
    clause? s = .ok c ↔ ∃ r, query.Takes s c r := by
  unfold clause? Takes
  split
  · rename_i hq
    simp [hq]
  · rename_i hq
    simp [hq]

/-- **A text that is accepted has a derivation that takes all of it.** -/
theorem reads_of_clause? {s : List Char} {c : Clause} (h : clause? s = .ok c) : Reads c s [] := by
  obtain ⟨r, htakes⟩ := clause?_eq_ok_iff.1 h
  obtain ⟨m, hc, hend, -⟩ := takes_query.1 htakes
  exact hend ▸ (reads_of_skipBlank (isSound_clauseWithin _ _ _ _ hc)).skipBlank

end Grammar
end SearchFilter
