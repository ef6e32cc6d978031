/-
# What is written is read

The grammar reads the clause that a text writes (`clause?_of_writes`). Readers are
tried in a fixed order, and the first that succeeds counts; so for each rank it is shown
that its reader takes the whole text (`accepts_of_writes`), and that the readers before it
fail there:

* what is written starts with no operator, or with a sign (`IsOpen`);
* a repetition goes on with every further text and ends where none follows.

A conjunction ends in front of `OR`, a parenthesis or the end of the text.
-/

import SearchFilter.Proofs.Grammar.Atom
import SearchFilter.Proofs.Grammar.Outline
import SearchFilter.Proofs.Grammar.Written

namespace SearchFilter
namespace Grammar

open Query (AtBoundary isSign isSign_iff endsWord)
open Reader

/-! ### How a written text starts -/

/-- A text that starts with no blank, no sign and no operator. -/
structure IsOpen (s : List Char) : Prop where
  head : ∀ c ∈ s.head?, Text.isBlank c = false ∧ isSign c = false
  free : isReserved (spanTerm s).1 = false

/-- No sign is blank. -/
theorem isBlank_of_isSign {c : Char} (h : isSign c = true) : Text.isBlank c = false := by
  rcases isSign_iff.1 h with rfl | rfl | rfl <;> decide

/-- No keyword is read at an open text. -/
theorem IsOpen.fails_keyword {s : List Char} (h : IsOpen s) {word symbol : String}
    (hmem : (word, symbol) ∈ [("AND", "&&"), ("OR", "||"), ("NOT", "!")]) :
    (keyword word symbol).Fails s := fails_of_not_takes fun _ r hr => by
  obtain ⟨k, hk, rfl, hspan⟩ := takes_keyword hr
  have hfree := h.free
  rw [hspan] at hfree
  obtain ⟨c, k, rfl⟩ := List.exists_cons_of_ne_nil hk.term.ne_nil
  have hhead := h.head c rfl
  simp only [List.mem_cons, List.not_mem_nil, or_false, Prod.mk.injEq] at hmem
  rcases hmem with ⟨rfl, rfl⟩ | ⟨rfl, rfl⟩ | ⟨rfl, rfl⟩ <;> rcases hk.same with h | h <;>
    simp_all [isReserved, isSign]

/-- No blanks are skipped at an open text. -/
theorem IsOpen.skipBlank_eq {s : List Char} (h : IsOpen s) : Text.skipBlank s = s :=
  skipBlank_of_head fun c hc => (h.head c hc).1

/-- No prefix is read at an open text. -/
theorem IsOpen.fails_signPrefix {s : List Char} (h : IsOpen s) : signPrefix.Fails s :=
  fails_signPrefix_of_keyword h.skipBlank_eq (fun c hc => (h.head c hc).2)
    (h.fails_keyword (by simp))

/-- A term that is no operator, with the text that ends it. -/
theorem IsTerm.isOpen {u r : List Char} (hu : IsTerm u) (hfree : isReserved u = false)
    (hhead : ∀ c ∈ u.head?, Text.isNamePart c = true)
    (hr : EndsTerm r) : IsOpen (u ++ r) where
  head c hc := by
    obtain ⟨d, u, rfl⟩ := List.exists_cons_of_ne_nil hu.ne_nil
    obtain rfl : d = c := by simpa using hc
    have hd := hhead d rfl
    exact ⟨Text.isBlank_eq_false_of_isNamePart hd, isSign_of_isNamePart hd⟩
  free := by rw [hu.spanTerm_append hr]; exact hfree

/-- A field that is no operator is open with its colon. -/
theorem IsFree.isOpen {field : List Char} (h : IsFree field) (s : List Char) :
    IsOpen (field ++ ':' :: s) :=
  h.text.isTerm.isOpen h.free
    (fun c hc => Text.isNamePart_of_isNameStart (h.text.isNameStart c hc)) (endsTerm_colon s)

/-- A text that starts with a quote is open. -/
theorem isOpen_quote (s : List Char) : IsOpen ('"' :: s) :=
  ⟨by rintro _ ⟨⟩; decide, rfl⟩

/-- A text that starts with a parenthesis is open. -/
theorem isOpen_opening (s : List Char) : IsOpen ('(' :: s) :=
  ⟨by rintro _ ⟨⟩; decide, rfl⟩

/-- A written leaf is open in front of the end of a word. -/
theorem WritesLeaf.isOpen {field : Option (List Char)} {a : Atom} {u r : List Char}
    (h : WritesLeaf field a u) (hr : AtBoundary r) : IsOpen (u ++ r) := by
  cases h with
  | word hw hfree =>
    exact hw.isTerm.isOpen hfree (fun c hc => hw.isNamePart c (List.mem_of_mem_head? hc))
      (endsTerm_of_atBoundary hr)
  | phrase hu => cases hu; exact isOpen_quote _
  | fieldWord hf | fieldPhrase hf =>
    rw [List.append_assoc]
    exact hf.isOpen _

/-- A written operand is open in front of the end of a word. -/
theorem isOpen_append {c : Clause} {s r : List Char} (h : Writes .operand c s)
    (hr : AtBoundary r) : IsOpen (s ++ r) := by
  cases h with
  | leaf h => exact h.isOpen hr
  | group => exact isOpen_opening _
  | fieldGroup hf =>
    rw [List.append_assoc]
    exact hf.isOpen _

/-! ### Leaves -/

variable {p : Reader Clause} {r : List Char}

/-- A term up to the end of a word is no field name with its colon. -/
theorem IsTerm.not_takes_fieldName {w : List Char} (h : IsTerm w) (hr : AtBoundary r)
    (field m : List Char) : ¬ fieldName.Takes (w ++ r) field (':' :: m) := fun hname => by
  have hspan := h.spanTerm_append (endsTerm_of_atBoundary hr)
  obtain ⟨hfield, hs⟩ := takes_fieldName hname
  rw [hs, hfield.isTerm.spanTerm_append (by rintro _ ⟨⟩; decide)] at hspan
  obtain ⟨-, rfl⟩ := Prod.mk.inj hspan
  exact absurd (Query.atBoundary_cons.1 hr) (by decide)

/-- A term that is no operator is read as a leaf, up to the end of its word. -/
theorem IsTerm.takes_leaf {w : List Char} (h : IsTerm w) (hfree : isReserved w = false)
    (hr : AtBoundary r) :
    (orElse (fielded p) (unfielded p)).Takes (w ++ r) (.leaf none (.term w)) r := by
  have hterm : bareTerm.Takes (w ++ r) w r := by
    simp only [bareTerm, takes_accept, takes_term]
    exact ⟨w, ⟨h.ne_nil, h.spanTerm_append (endsTerm_of_atBoundary hr)⟩, by simp [hfree]⟩
  have hname : (fielded p).Fails (w ++ r) := fails_fielded (h.not_takes_fieldName hr)
  have hphrase := h.fails_phrase r
  obtain ⟨c, w, rfl, hne⟩ := h.exists_cons
  refine takes_orElse.2 (.inr ⟨hname, (fails_group (hne _ (by decide) (by decide))).choice ?_⟩)
  refine ((fails_range (hne _ (by decide) (by decide)) (hne _ (by decide) (by decide))).map _).choice ?_
  exact (hphrase.map _).choice (Takes.choice (takes_map.2 ⟨_, hterm, rfl⟩) _)

/-- The leaf that a text writes is read, whatever reads groups. -/
theorem WritesLeaf.takes {field : Option (List Char)} {a : Atom} {u : List Char}
    (h : WritesLeaf field a u) (hr : AtBoundary r) :
    (orElse (fielded p) (unfielded p)).Takes (u ++ r) (.leaf field a) r := by
  cases h with
  | word hw hfree => exact hw.isTerm.takes_leaf hfree hr
  | @phrase q _ hu =>
    have hphrase := hu.takes r
    cases hu
    refine takes_orElse.2 (.inr ⟨fails_fielded fun _ _ => (fails_fieldName (by decide)).not_takes, ?_⟩)
    refine (fails_group (by decide)).choice ?_
    refine ((fails_range (by decide) (by decide)).map _).choice ?_
    exact Takes.choice (takes_map.2 ⟨_, hphrase, rfl⟩) _
  | @fieldWord field w hf hw =>
    have hhead : ∀ c ∈ w.head?, c ≠ '>' ∧ c ≠ '<' := fun c hc => by
      constructor <;> rintro rfl <;> exact absurd (hw.all _ (List.mem_of_mem_head? hc)) (by decide)
    rw [List.append_assoc, List.cons_append]
    exact takes_orElse.2 (.inl ((WritesAtom.term hw.isTerm hhead).takes hf.text hr))
  | fieldPhrase hf hu =>
    rw [List.append_assoc, List.cons_append]
    exact takes_orElse.2 (.inl ((WritesAtom.phrase hu).takes hf.text hr))

/-! ### Operands and factors -/

/-- No suffix is read at the end of a word. -/
theorem fails_suffix (hr : AtBoundary r) : fuzzySuffix.Fails r ∧ boostSuffix.Fails r := by
  have hne {c : Char} (hc : endsWord c = false) (t : List Char) : r ≠ c :: t := by
    rintro rfl
    exact absurd hr (by simp [hc])
  constructor
  · refine fails_of_not_takes fun _ _ hf => ?_
    obtain ⟨_, hz, hs⟩ := takes_fuzzySuffix hf
    cases hz <;> exact hne (by decide) _ hs
  · refine fails_of_not_takes fun _ _ hb => ?_
    obtain ⟨_, hz, hs⟩ := takes_boostSuffix hb
    cases hz
    exact hne (by decide) _ hs

/-- The end of a word is a boundary. -/
theorem takes_boundary_of_atBoundary (hr : AtBoundary r) : boundary.Takes r () r := by
  rw [boundary, takes_labelled]
  refine takes_ahead.2 ⟨rfl, ?_⟩
  cases r with
  | nil => exact ⟨[], takes_orElse.2 (.inr ⟨rfl, takes_atEnd.2 ⟨rfl, rfl⟩⟩)⟩
  | cons d r =>
    have hd : endsWord d = true := by simpa using hr
    exact ⟨r, takes_orElse.2 (.inl (takes_map.2 ⟨d, takes_char.2 ⟨rfl, hd⟩, rfl⟩))⟩

/-- A clause with what is read of a fuzzy suffix behind it, in front of the end of a word. -/
theorem takes_modified_of_suffix {s m : List Char} {c : Clause} {fuzzy : Option (Option Nat)}
    (h : (orElse (fielded p) (unfielded p)).Takes s c m) (hfuzzy : (opt fuzzySuffix).Takes m fuzzy r)
    (hr : AtBoundary r) : (modified p).Takes s (c.suffixed fuzzy none) r := by
  have hend := takes_boundary_of_atBoundary hr
  rw [modified]
  simp only [takes_bind]
  exact ⟨c, m, h, fuzzy, r, hfuzzy, none, r, takes_opt.2 (.inr ⟨rfl, rfl, (fails_suffix hr).2⟩), (),
    r, hend, rfl⟩

/-- An operand is a clause without suffixes, in front of the end of a word. -/
theorem takes_modified_of_operand {s : List Char} {c : Clause}
    (h : (orElse (fielded p) (unfielded p)).Takes s c r) (hr : AtBoundary r) :
    (modified p).Takes s c r :=
  takes_modified_of_suffix h (takes_opt.2 (.inr ⟨rfl, rfl, (fails_suffix hr).1⟩)) hr

/-- A group is read if its inside is, up to the closing parenthesis. -/
theorem takes_group_of_inner {s m : List Char} {c : Clause} (h : p.Takes (Text.skipBlank s) c m)
    (hm : Text.skipBlank m = ')' :: r) : (group p).Takes ('(' :: s) c r := by
  simp only [group, takes_labelled, takes_bind, takes_just, takes_padded]
  exact ⟨'(', s, ⟨rfl, rfl⟩, c, _, ⟨m, h, rfl⟩, ')', r, ⟨hm, rfl⟩, rfl⟩

/-- A sign is read as a prefix, with the blanks behind it. -/
theorem takes_signPrefix_of_sign {x : Char} {q : Prefix} (hx : isSign x = true)
    (hq : q = .must ↔ x = '+') (t : List Char) :
    signPrefix.Takes (x :: t) q (Text.skipBlank t) := by
  cases q with
  | must =>
    obtain rfl := hq.1 rfl
    rfl
  | mustNot =>
    rcases isSign_iff.1 hx with rfl | rfl | rfl
    · exact absurd (hq.2 rfl) (by decide)
    · rfl
    · rfl

/-- `NOT` is read as a prefix in any case, and as its symbol. -/
theorem IsKeyword.takes_signPrefix {k t : List Char} (h : IsKeyword "NOT" "!" k)
    (ht : EndsTerm t) : signPrefix.Takes (k ++ t) .mustNot (Text.skipBlank t) := by
  rcases h.same with hword | rfl
  · obtain ⟨c, v, rfl⟩ := List.exists_cons_of_ne_nil h.term.ne_nil
    have hc : c.toLower ∈ Text.lower "NOT".toList :=
      Query.toLower_mem_of_sameWord hword (List.mem_cons_self ..)
    have hjust {x : Char} (hx : x.toLower ∉ Text.lower "NOT".toList) :
        (just x).Fails (c :: v ++ t) := fails_of_not_takes fun _ _ hr => by
      obtain ⟨hs, rfl⟩ := takes_just.1 hr
      exact hx ((List.cons.inj hs).1 ▸ hc)
    refine takes_padded.2 ⟨t, ?_, rfl⟩
    rw [h.term.skipBlank_append]
    exact ((hjust (by decide)).map _).choice (((hjust (by decide)).map _).choice
      (((hjust (by decide)).map _).choice (Takes.choice (takes_map.2 ⟨(), h.takes ht, rfl⟩) _)))
  · exact takes_signPrefix_of_sign (by decide) (by decide) t

/-- A clause with the prefixes that are read in front of it. -/
theorem takes_unary_of_modified {s m : List Char} {c : Clause} {ps : List Prefix}
    (hs : Text.skipBlank s = s) (hps : signPrefix.TakesAll s ps m) (hm : signPrefix.Fails m)
    (h : (modified p).Takes m c r) : (unary p).Takes s (c.prefixed ps) (Text.skipBlank r) := by
  have hmany := takes_many (fun _ _ _ h => length_lt_of_takes_signPrefix h) hps hm
  simp only [unary, takes_padded, takes_bind, hs]
  exact ⟨r, ⟨ps, m, hmany, c, r, h, rfl⟩, rfl⟩

/-- Behind all of its prefixes there has to be a clause. -/
theorem fails_unary_of_modified {s m : List Char} {ps : List Prefix} (hs : Text.skipBlank s = s)
    (hps : signPrefix.TakesAll s ps m) (hm : signPrefix.Fails m) (h : (modified p).Fails m) :
    (unary p).Fails s := fails_of_not_takes fun c r hr => by
  have hmany := takes_many (fun _ _ _ h => length_lt_of_takes_signPrefix h) hps hm
  simp only [unary, takes_padded, takes_bind, hs] at hr
  obtain ⟨_, ⟨_, m', hmany', _, _, hc, -⟩, -⟩ := hr
  obtain ⟨-, rfl⟩ := hmany.unique hmany'
  exact h.not_takes hc

/-! ### Further clauses -/

/-- Prefixes leave no more text than there was. -/
theorem Signs.length_le {ps : List Prefix} {s m : List Char} (h : Signs ps s m) :
    m.length ≤ s.length := by
  induction h with
  | nil => exact Nat.le_refl _
  | blank _ _ ih | sign _ _ _ ih => exact Nat.le_succ_of_le ih
  | word _ _ _ ih =>
    rw [List.length_append]
    omega

/-- A keyword leaves no more text than there was. -/
theorem Joins.length_le {word symbol : String} {s m : List Char} (h : Joins word symbol s m) :
    m.length ≤ s.length := by
  cases h
  simp only [List.length_append]
  omega

/-- A clause takes a character at least. -/
theorem Reads.length_lt {c : Clause} {s m : List Char} (h : Reads c s m) :
    m.length < s.length := by
  induction h with
  | leaf hu =>
    have := List.length_pos_iff.2 hu.ne_nil
    simp only [List.length_append]
    omega
  | group _ _ _ ih | fieldGroup _ _ _ _ ih =>
    simp only [List.length_cons, List.length_append] at ih ⊢
    omega
  | prefixed hps _ ih => exact Nat.lt_of_lt_of_le ih hps.length_le
  | before _ _ ih => exact Nat.lt_succ_of_lt ih
  | behind _ _ ih => exact Nat.lt_of_succ_lt ih
  | beside _ _ ihc ihd => exact Nat.lt_trans ihd ihc
  | and _ hj _ ihc ihd | or _ hj _ ihc ihd =>
    exact Nat.lt_trans (Nat.lt_of_lt_of_le ihd hj.length_le) ihc

/-- One more clause takes at least one character. -/
theorem length_lt_of_takes_nextUnary (hp : IsSound p) {s m : List Char} {c : Clause}
    (h : (nextUnary p).Takes s c m) : m.length < s.length := by
  obtain ⟨_, t, hand, hc⟩ := takes_bind.1 h
  have hlt := (takes_unary hp _ _ _ hc).length_lt
  obtain ⟨_, -, hand⟩ | ⟨-, rfl, -⟩ := takes_opt.1 hand
  · exact Nat.lt_of_lt_of_le hlt (takes_joins hand).length_le
  · exact hlt

/-- One more conjunction takes at least one character. -/
theorem length_lt_of_takes_nextConjunction (hp : IsSound p) {s m : List Char} {c : Clause}
    (h : (nextConjunction p).Takes s c m) : m.length < s.length := by
  obtain ⟨_, t, hor, hc⟩ := takes_bind.1 h
  exact Nat.lt_of_lt_of_le (takes_conjunction hp _ _ _ hc).length_lt (takes_joins hor).length_le

/-- Blanks, and one at least. -/
structure IsGap (b : List Char) : Prop where
  ne_nil : b ≠ []
  blank : Text.allBlank b = true

/-- A single space is a gap. -/
theorem isGap_space : IsGap [' '] := ⟨by simp, rfl⟩

/-- A gap ends a word. -/
theorem IsGap.atBoundary {b : List Char} (h : IsGap b) (t : List Char) : AtBoundary (b ++ t) := by
  obtain ⟨c, b, rfl⟩ := List.exists_cons_of_ne_nil h.ne_nil
  have hc := h.blank
  rw [Text.allBlank, List.all_cons, Bool.and_eq_true] at hc
  exact Query.atBoundary_cons.2 (by rw [endsWord, hc.1, Bool.true_or, Bool.true_or])

/-- A gap is skipped up to what follows it. -/
theorem IsGap.skipBlank_append {b t : List Char} (h : IsGap b) (ht : Text.skipBlank t = t) :
    Text.skipBlank (b ++ t) = t := by
  rw [Text.skipBlank, List.dropWhile_append_of_pos (Text.allBlank_iff.1 h.blank)]
  exact ht

/-- A keyword in front of blanks, and of anything that is not blank. -/
theorem IsKeyword.takes_padded_gap {word symbol : String} {k b t : List Char}
    (h : IsKeyword word symbol k) (hb : IsGap b) (ht : Text.skipBlank t = t) :
    (Reader.padded (keyword word symbol)).Takes (k ++ (b ++ t)) () t := by
  refine Reader.takes_padded.2 ⟨b ++ t, ?_, hb.skipBlank_append ht⟩
  rw [h.term.skipBlank_append]
  exact h.takes (endsTerm_of_atBoundary (hb.atBoundary t))

/-- A keyword is read in front of a space, and the space with it. -/
theorem IsKeyword.takes_padded {word symbol : String} {k t : List Char}
    (h : IsKeyword word symbol k) (ht : Text.skipBlank t = t) :
    (Reader.padded (keyword word symbol)).Takes (k ++ ' ' :: t) () t := by
  have htakes := h.takes_padded_gap isGap_space ht
  exact htakes

/-- No further clause is read where no prefix and no operand stands. -/
theorem fails_nextUnary {s : List Char} (hand : (Reader.padded (keyword "AND" "&&")).Fails s)
    (hsign : signPrefix.Fails (Text.skipBlank s))
    (hname : ∀ field m, ¬ fieldName.Takes (Text.skipBlank s) field (':' :: m))
    (hunfielded : (unfielded p).Fails (Text.skipBlank s)) : (nextUnary p).Fails s := by
  refine fails_of_not_takes fun c r hr => ?_
  obtain ⟨_, m, hm, hc⟩ := takes_bind.1 hr
  obtain ⟨_, -, hm⟩ | ⟨-, rfl, -⟩ := takes_opt.1 hm
  · exact hand.not_takes hm
  · simp only [unary, takes_padded, takes_bind, modified, takes_orElse] at hc
    obtain ⟨_, ⟨ps, t, hps, _, _, ⟨_, _, ht, -⟩, -⟩, -⟩ := hc
    rw [many_eq_of_fails hsign hps] at ht
    rcases ht with ht | ⟨-, ht⟩
    · exact (fails_fielded hname).not_takes ht
    · exact hunfielded.not_takes ht

/-- No further clause is read where a text stops. -/
theorem fails_nextUnary_of_stops {s : List Char} (h : Stops s) : (nextUnary p).Fails s := by
  refine fails_nextUnary (fails_keyword_of_stops h) ?_ ?_ ?_
  · rcases h with h | ⟨r, h⟩ <;> rw [h] <;> rfl
  · intro field m hname
    rcases h with h | ⟨r, h⟩ <;> rw [h] at hname <;> cases hname
  · rcases h with h | ⟨r, h⟩ <;> rw [h] <;> rfl

/-- Only a term that is no operator is read at most characters. -/
theorem fails_unfielded {c : Char} {t : List Char} (hc : c ∉ ['(', '[', '\x7b', '"'])
    (ht : bareTerm.Fails (c :: t)) : (unfielded p).Fails (c :: t) := by
  simp only [List.mem_cons, List.not_mem_nil, or_false, not_or] at hc
  obtain ⟨hgroup, hrange, hrange', hphrase⟩ := hc
  refine fails_of_not_takes fun d r hr => ?_
  simp only [unfielded, takes_choice_cons, takes_choice_nil, takes_map, and_false, or_false] at hr
  rcases hr with hr | ⟨-, ⟨_, hr, -⟩ | ⟨-, ⟨_, hr, -⟩ | ⟨-, _, hr, -⟩⟩⟩
  · exact (fails_group hgroup).not_takes hr
  · exact (fails_range hrange hrange').not_takes hr
  · exact (fails_phrase hphrase).not_takes hr
  · exact ht.not_takes hr

/-- A conjunction ends in front of `OR`. -/
theorem fails_nextUnary_of_or_of_atBoundary {k t : List Char} (hk : IsKeyword "OR" "||" k)
    (ht : AtBoundary t) : (nextUnary p).Fails (k ++ t) := by
  have hspan : spanTerm (k ++ t) = (k, t) := hk.term.spanTerm_append (endsTerm_of_atBoundary ht)
  have hskip := hk.term.skipBlank_append t
  refine fails_nextUnary (Fails.padded ?_) ?_ ?_ ?_ <;> rw [hskip]
  · exact hk.fails_keyword hspan (by simp)
  · exact hk.fails_signPrefix hspan
  · exact hk.term.not_takes_fieldName ht
  · have hterm : bareTerm.Fails (k ++ t) := fails_of_not_takes fun w r hr => by
      simp only [bareTerm, takes_accept, takes_term, hspan] at hr
      obtain ⟨_, ⟨-, hw⟩, hfree⟩ := hr
      obtain ⟨rfl, -⟩ := Prod.mk.inj hw
      rw [if_pos hk.isReserved] at hfree
      cases hfree
    obtain ⟨c, u, rfl, hc⟩ := hk.exists_cons
    refine fails_unfielded (fun hmem => ?_) hterm
    simp only [List.mem_cons, List.not_mem_nil, or_false] at hmem
    rcases hmem with rfl | rfl | rfl | rfl <;> exact absurd hc (by decide)

/-- No further clause is read where `OR` stands. -/
theorem fails_nextUnary_of_or {k t : List Char} (hk : IsKeyword "OR" "||" k) :
    (nextUnary p).Fails (k ++ ' ' :: t) :=
  fails_nextUnary_of_or_of_atBoundary hk (isGap_space.atBoundary t)

/-! ### Ranks -/

/-- A text that starts with no blank, whatever follows it. -/
def IsFlush (s : List Char) : Prop := ∀ r, Text.skipBlank (s ++ r) = s ++ r

/-- A text that starts with a character other than a blank is flush. -/
theorem isFlush_cons {x : Char} (hx : Text.isBlank x = false) (t : List Char) : IsFlush (x :: t) :=
  fun _ => skipBlank_of_head (by rintro _ ⟨⟩; exact hx)

/-- A flush text is so with more behind it. -/
theorem IsFlush.append {s : List Char} (h : IsFlush s) (t : List Char) : IsFlush (s ++ t) :=
  fun r => by rw [List.append_assoc]; exact h _

/-- A flush text is not blank. -/
theorem IsFlush.allBlank_eq {s : List Char} (h : IsFlush s) : Text.allBlank s = false := by
  cases s with
  | nil => exact absurd (h [' ']) (by decide)
  | cons x t =>
    cases hx : Text.isBlank x with
    | false => rw [Text.allBlank, List.all_cons, hx, Bool.false_and]
    | true =>
      have hlength := congrArg List.length (h [])
      have hdrop := (List.dropWhile_suffix Text.isBlank (l := t)).length_le
      rw [List.append_nil, Text.skipBlank, List.dropWhile_cons_of_pos hx, List.length_cons] at hlength
      omega

/-- A term is flush. -/
theorem IsTerm.isFlush {u : List Char} (h : IsTerm u) : IsFlush u := h.skipBlank_append

/-- How the reader of a rank takes a clause off the front of a text. The parts of a
conjunction are kept apart, so that further ones can be added. -/
def Accepts (p : Reader Clause) : Rank → Clause → List Char → Prop
  | .operand, c, s => ∀ r, AtBoundary r →
    (orElse (fielded p) (unfielded p)).Takes (s ++ r) c r
  | .factor, c, s => ∀ r, AtBoundary r → (unary p).Takes (s ++ r) c (Text.skipBlank r)
  | .conjunction, c, s => ∀ r, AtBoundary r → ∃ first rest m, rest.foldl .and first = c ∧
    (unary p).Takes (s ++ r) first m ∧ (nextUnary p).TakesAll m rest (Text.skipBlank r)
  | .disjunction, c, s => ∀ r, AtBoundary r → (nextUnary p).Fails (Text.skipBlank r) →
    ∃ first rest m, rest.foldl .or first = c ∧ (conjunction p).Takes (s ++ r) first m ∧
      (nextConjunction p).TakesAll m rest (Text.skipBlank r)

section
variable {c d : Clause} {s t k : List Char} {n : Nat}

/-- A conjunction is read where no further clause follows. -/
theorem takes_conjunction_of_accepts (hp : IsSound p) (h : Accepts p .conjunction c s)
    (hr : AtBoundary r) (hnext : (nextUnary p).Fails (Text.skipBlank r)) :
    (conjunction p).Takes (s ++ r) c (Text.skipBlank r) := by
  obtain ⟨first, rest, m, hc, hfirst, hrest⟩ := h r hr
  rw [conjunction_eq]
  simp only [takes_bind, takes_pure]
  exact ⟨first, m, hfirst, rest, _,
    takes_many (fun _ _ _ h => length_lt_of_takes_nextUnary hp h) hrest hnext, hc, rfl⟩

/-- A disjunction is read where the text stops. -/
theorem takes_disjunction_of_accepts (hp : IsSound p) (h : Accepts p .disjunction c s)
    (hr : AtBoundary r) (hstops : Stops (Text.skipBlank r)) :
    (disjunction p).Takes (s ++ r) c (Text.skipBlank r) := by
  obtain ⟨first, rest, m, hc, hfirst, hrest⟩ := h r hr (fails_nextUnary_of_stops hstops)
  have hnext : (nextConjunction p).Fails (Text.skipBlank r) := fails_of_not_takes fun _ _ hn => by
    obtain ⟨_, _, hor, -⟩ := takes_bind.1 hn
    exact (fails_keyword_of_stops hstops).not_takes hor
  rw [disjunction_eq]
  simp only [takes_bind, takes_pure]
  exact ⟨first, m, hfirst, rest, _,
    takes_many (fun _ _ _ h => length_lt_of_takes_nextConjunction hp h) hrest hnext, hc, rfl⟩

/-- The inside of a group is read up to its closing parenthesis. -/
theorem takes_group_of_accepts (hs : IsFlush s) (h : Accepts (clauseWithin n) .disjunction c s)
    (r : List Char) : (group (clauseWithin (n + 1))).Takes ('(' :: (s ++ ')' :: r)) c r := by
  have hclosing : Text.skipBlank (')' :: r) = ')' :: r := skipBlank_of_head (by rintro _ ⟨⟩; decide)
  refine takes_group_of_inner (m := ')' :: r) ?_ hclosing
  have hinner := takes_disjunction_of_accepts (isSound_clauseWithin n) h (r := ')' :: r)
    (by simp [endsWord]) (.inr ⟨r, by rw [hclosing, hclosing]⟩)
  rw [hclosing] at hinner
  rw [hs]
  exact hinner

/-- A group is taken for no field. -/
theorem takes_operand_of_group {r : List Char} (h : (group p).Takes ('(' :: s) c r) :
    (orElse (fielded p) (unfielded p)).Takes ('(' :: s) c r :=
  takes_orElse.2 (.inr ⟨fails_fielded fun _ _ => (fails_fieldName (by decide)).not_takes,
    Takes.choice h _⟩)

/-- A group behind a field name with its colon. -/
theorem takes_fieldGroup_of_group {field r : List Char} (hf : FieldText field)
    (h : (group p).Takes ('(' :: s) c r) :
    (orElse (fielded p) (unfielded p)).Takes (field ++ ':' :: '(' :: s) (.fieldGroup field c) r := by
  refine takes_orElse.2 (.inl ?_)
  simp only [fielded, takes_bind, takes_just]
  exact ⟨field, _, hf.takes _, ':', _, ⟨rfl, rfl⟩, Takes.choice (takes_map.2 ⟨c, h, rfl⟩) _⟩

/-- A disjunction between parentheses is an operand, one level further out. -/
theorem Accepts.group (hs : IsFlush s) (h : Accepts (clauseWithin n) .disjunction c s) :
    Accepts (clauseWithin (n + 1)) .operand c ('(' :: (s ++ [')'])) := fun r _ => by
  have hgroup := takes_group_of_accepts hs h r
  rw [List.cons_append, List.append_assoc]
  exact takes_operand_of_group hgroup

/-- A disjunction between parentheses behind a field is an operand, one level further out. -/
theorem Accepts.fieldGroup {field : List Char} (hf : FieldText field) (hs : IsFlush s)
    (h : Accepts (clauseWithin n) .disjunction c s) :
    Accepts (clauseWithin (n + 1)) .operand (.fieldGroup field c)
      (field ++ ':' :: '(' :: (s ++ [')'])) := fun r _ => by
  have hgroup := takes_group_of_accepts hs h r
  simp only [List.append_assoc, List.cons_append]
  exact takes_fieldGroup_of_group hf hgroup

/-- An operand without prefixes. -/
theorem Accepts.unsigned (hs : IsFlush s)
    (hsign : ∀ r, AtBoundary r → signPrefix.Fails (s ++ r)) (h : Accepts p .operand c s) :
    Accepts p .factor c s := fun r hr =>
  takes_unary_of_modified (hs r) (.nil _) (hsign r hr) (takes_modified_of_operand (h r hr) hr)

/-- An operand behind one prefix. -/
theorem Accepts.signed {q : Prefix} {x : Char} {b : List Char} (hx : isSign x = true)
    (hq : q = .must ↔ x = '+') (hb : b = [] ∨ b = [' ']) (hs : IsFlush s)
    (hsign : ∀ r, AtBoundary r → signPrefix.Fails (s ++ r)) (h : Accepts p .operand c s) :
    Accepts p .factor (c.prefixed [q]) (x :: (b ++ s)) := fun r hr => by
  have hskip : Text.skipBlank (b ++ s ++ r) = s ++ r := by
    rw [List.append_assoc]
    rcases hb with rfl | rfl
    · exact hs r
    · exact hs r
  have hprefix := takes_signPrefix_of_sign hx hq (b ++ s ++ r)
  rw [hskip] at hprefix
  exact takes_unary_of_modified (isFlush_cons (isBlank_of_isSign hx) _ r) (.cons hprefix (.nil _))
    (hsign r hr) (takes_modified_of_operand (h r hr) hr)

/-- A conjunction of one clause. -/
theorem Accepts.factor (h : Accepts p .factor c s) : Accepts p .conjunction c s :=
  fun r hr => ⟨_, [], _, rfl, h r hr, .nil _⟩

/-- One more clause, in front of which no `AND` is read. -/
theorem Accepts.beside_gap {b : List Char} (hb : IsGap b) (ht : IsFlush t)
    (hand : ∀ r, AtBoundary r → (Reader.padded (keyword "AND" "&&")).Fails (t ++ r))
    (hc : Accepts p .conjunction c s) (hd : Accepts p .factor d t) :
    Accepts p .conjunction (.and c d) (s ++ (b ++ t)) := fun r hr => by
  obtain ⟨first, rest, m, rfl, hfirst, hrest⟩ := hc (b ++ (t ++ r)) (hb.atBoundary _)
  have hnext : (nextUnary p).Takes (t ++ r) d (Text.skipBlank r) :=
    takes_bind.2 ⟨none, _, takes_opt.2 (.inr ⟨rfl, rfl, hand r hr⟩), hd r hr⟩
  rw [hb.skipBlank_append (ht r)] at hrest
  exact ⟨first, rest ++ [d], m, by simp, by simpa using hfirst, hrest.concat hnext⟩

/-- One more clause behind a space. -/
theorem Accepts.beside (ht : IsFlush t)
    (hand : ∀ r, AtBoundary r → (Reader.padded (keyword "AND" "&&")).Fails (t ++ r))
    (hc : Accepts p .conjunction c s) (hd : Accepts p .factor d t) :
    Accepts p .conjunction (.and c d) (s ++ ' ' :: t) := by
  simpa using Accepts.beside_gap isGap_space ht hand hc hd

/-- One more clause behind `AND`. -/
theorem Accepts.and_gap {b b' : List Char} (hb : IsGap b) (hk : IsKeyword "AND" "&&" k)
    (hb' : IsGap b') (ht : IsFlush t) (hc : Accepts p .conjunction c s) (hd : Accepts p .factor d t) :
    Accepts p .conjunction (.and c d) (s ++ (b ++ (k ++ (b' ++ t)))) := fun r hr => by
  obtain ⟨first, rest, m, rfl, hfirst, hrest⟩ := hc (b ++ (k ++ (b' ++ (t ++ r)))) (hb.atBoundary _)
  have hnext : (nextUnary p).Takes (k ++ (b' ++ (t ++ r))) d (Text.skipBlank r) :=
    takes_bind.2 ⟨some (), _, takes_opt.2 (.inl ⟨(), rfl, hk.takes_padded_gap hb' (ht r)⟩), hd r hr⟩
  rw [hb.skipBlank_append (hk.term.skipBlank_append _)] at hrest
  exact ⟨first, rest ++ [d], m, by simp, by simpa using hfirst, hrest.concat hnext⟩

/-- One more clause behind `AND` between spaces. -/
theorem Accepts.and (hk : IsKeyword "AND" "&&" k) (ht : IsFlush t)
    (hc : Accepts p .conjunction c s) (hd : Accepts p .factor d t) :
    Accepts p .conjunction (.and c d) (s ++ ' ' :: (k ++ ' ' :: t)) := by
  simpa using Accepts.and_gap isGap_space hk isGap_space ht hc hd

/-- A disjunction of one conjunction. -/
theorem Accepts.conjunction (hp : IsSound p) (h : Accepts p .conjunction c s) :
    Accepts p .disjunction c s :=
  fun _ hr hnext => ⟨_, [], _, rfl, takes_conjunction_of_accepts hp h hr hnext, .nil _⟩

/-- One more conjunction behind `OR`. -/
theorem Accepts.or_gap {b b' : List Char} (hp : IsSound p) (hb : IsGap b)
    (hk : IsKeyword "OR" "||" k) (hb' : IsGap b') (ht : IsFlush t)
    (hc : Accepts p .disjunction c s) (hd : Accepts p .conjunction d t) :
    Accepts p .disjunction (.or c d) (s ++ (b ++ (k ++ (b' ++ t)))) := fun r hr hnext => by
  have hblank : Text.skipBlank (b ++ (k ++ (b' ++ (t ++ r)))) = k ++ (b' ++ (t ++ r)) :=
    hb.skipBlank_append (hk.term.skipBlank_append _)
  obtain ⟨first, rest, m, rfl, hfirst, hrest⟩ :=
    hc (b ++ (k ++ (b' ++ (t ++ r)))) (hb.atBoundary _)
      (by rw [hblank]; exact fails_nextUnary_of_or_of_atBoundary hk (hb'.atBoundary _))
  have hconj := takes_conjunction_of_accepts hp hd hr hnext
  have hor : (nextConjunction p).Takes (k ++ (b' ++ (t ++ r))) d (Text.skipBlank r) :=
    takes_bind.2 ⟨(), _, hk.takes_padded_gap hb' (ht r), hconj⟩
  rw [hblank] at hrest
  exact ⟨first, rest ++ [d], m, by simp, by simpa using hfirst, hrest.concat hor⟩

/-- One more conjunction behind `OR` between spaces. -/
theorem Accepts.or (hp : IsSound p) (hk : IsKeyword "OR" "||" k) (ht : IsFlush t)
    (hc : Accepts p .disjunction c s) (hd : Accepts p .conjunction d t) :
    Accepts p .disjunction (.or c d) (s ++ ' ' :: (k ++ ' ' :: t)) := by
  simpa using Accepts.or_gap hp isGap_space hk isGap_space ht hc hd

/-- An atom behind a field other than `NOT`. -/
theorem WritesAtom.accepts {field u : List Char} {a : Atom} (h : WritesAtom a u)
    (hf : FieldText field) (hnot : Text.sameWord field ['N', 'O', 'T'] = false) :
    Accepts p .factor (.leaf (some field) a) (field ++ ':' :: u) := by
  refine .unsigned (hf.isTerm.isFlush.append _) (fun r _ => ?_) fun r hr => ?_
  · rw [List.append_assoc]
    exact hf.fails_signPrefix hnot _
  · rw [List.append_assoc, takes_orElse]
    exact .inl (h.takes hf hr)

/-- **A text that is read as a disjunction is a query.** -/
theorem clause?_of_accepts (hs : IsFlush s)
    (h : Accepts (clauseWithin s.length) .disjunction c s) : clause? s = .ok c := by
  have htakes := takes_disjunction_of_accepts (isSound_clauseWithin _) h Query.atBoundary_nil
    (.inl rfl)
  have hskip := hs []
  rw [List.append_nil] at htakes hskip
  refine clause?_eq_ok_iff.2 ⟨[], takes_query.2 ⟨[], ?_, rfl, rfl⟩⟩
  rw [hskip]
  exact htakes

end

/-! ### Written texts -/

/-- What is written starts with no blank. -/
theorem Writes.isFlush {rank : Rank} {c : Clause} {s : List Char} (h : Writes rank c s) :
    IsFlush s := by
  have operand {c : Clause} {s : List Char} (h : Writes .operand c s) (hs : s ≠ []) :
      IsFlush s := by
    obtain ⟨x, t, rfl⟩ := List.exists_cons_of_ne_nil hs
    exact isFlush_cons ((isOpen_append h Query.atBoundary_nil).head x rfl).1 t
  induction h with
  | leaf h =>
    refine operand (.leaf h) ?_
    cases h with
    | word hw => exact hw.ne_nil
    | phrase hu => cases hu; simp
    | fieldWord | fieldPhrase => simp
  | group h => exact operand (.group h) (by simp)
  | fieldGroup hf h => exact operand (.fieldGroup hf h) (by simp)
  | unsigned _ ih | factor _ ih | conjunction _ ih => exact ih
  | signed hx => exact isFlush_cons (isBlank_of_isSign hx) _
  | beside _ _ ih | and _ _ _ ih | or _ _ _ ih => exact ih.append _

/-- In front of a factor no `AND` is read. -/
theorem Writes.fails_and {c : Clause} {s : List Char} (h : Writes .factor c s)
    (hr : AtBoundary r) : (Reader.padded (keyword "AND" "&&")).Fails (s ++ r) := by
  refine Fails.padded ?_
  rw [h.isFlush]
  cases h with
  | unsigned h => exact (isOpen_append h hr).fails_keyword (by simp)
  | signed hx => exact fails_keyword_of_isSign hx (by simp) _

/-- **What is written is read,** rank by rank. -/
theorem accepts_of_writes {rank : Rank} {c : Clause} {s : List Char} (h : Writes rank c s)
    {n : Nat} (hn : s.length ≤ n) : Accepts (clauseWithin n) rank c s := by
  induction h generalizing n with
  | leaf h => exact fun r hr => h.takes hr
  | @group c s hw ih =>
    simp only [List.length_cons, List.length_append] at hn
    obtain ⟨m, rfl⟩ : ∃ m, n = m + 1 := ⟨n - 1, by omega⟩
    exact .group hw.isFlush (ih (by omega))
  | @fieldGroup field c s hf hw ih =>
    simp only [List.length_cons, List.length_append] at hn
    obtain ⟨m, rfl⟩ : ∃ m, n = m + 1 := ⟨n - 1, by omega⟩
    exact .fieldGroup hf.text hw.isFlush (ih (by omega))
  | unsigned hw ih =>
    exact .unsigned hw.isFlush (fun _ hr => (isOpen_append hw hr).fails_signPrefix) (ih hn)
  | @signed q x b c s hx hq hb hw ih =>
    simp only [List.length_cons, List.length_append] at hn
    exact .signed hx hq hb hw.isFlush (fun _ hr => (isOpen_append hw hr).fails_signPrefix)
      (ih (by omega))
  | factor _ ih => exact .factor (ih hn)
  | @beside c d s t hs ht ihs iht =>
    simp only [List.length_cons, List.length_append] at hn
    exact .beside ht.isFlush (fun _ hr => ht.fails_and hr) (ihs (by omega)) (iht (by omega))
  | @and c d s t k hs hk ht ihs iht =>
    simp only [List.length_cons, List.length_append] at hn
    exact .and hk ht.isFlush (ihs (by omega)) (iht (by omega))
  | conjunction _ ih => exact .conjunction (isSound_clauseWithin n) (ih hn)
  | @or c d s t k hs hk ht ihs iht =>
    simp only [List.length_cons, List.length_append] at hn
    exact .or (isSound_clauseWithin n) hk ht.isFlush (ihs (by omega)) (iht (by omega))

/-- **The clause that a text writes is the one that the grammar reads.** -/
theorem clause?_of_writes {c : Clause} {s : List Char} (h : Writes .disjunction c s) :
    clause? s = .ok c :=
  clause?_of_accepts h.isFlush (accepts_of_writes h (Nat.le_refl _))

end Grammar
end SearchFilter
