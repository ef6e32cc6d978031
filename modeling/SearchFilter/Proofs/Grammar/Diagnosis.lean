/-
# The readers of clauses are candid

Reader by reader, and by induction on how deep groups may be nested: whatever text a
clause is to be read from, the note that is picked is in that text and tells why
nothing more was read (`candid_clauseWithin`). Notes that explain nothing are beaten
within the same reader, with one exception: the keyword `OR` counts on the conjunction
before it (`tellsIn_nextConjunction`).
-/

import SearchFilter.Proofs.Grammar.Explanation

namespace SearchFilter
namespace Grammar

open Reader

/-! ### Atoms and suffixes -/

/-- The reader of bounds is candid. -/
theorem candid_bound : Candid bound := (candid_phrase.map _).orElse (candid_term.map _)

/-- In the place of `TO` another word is refused. -/
theorem candid_between {opening closing : Char} {inclusive : Bool}
    (hmem : (opening, closing, inclusive) ∈ [('[', ']', true), ('\x7b', '\x7d', false)]) :
    Candid (between opening closing inclusive) where
  suffix h := by
    obtain ⟨_, _, u, -, -, hs⟩ := takes_between hmem h
    exact suffix_of_eq_append hs
  tells s := by
    have hopening : opening = '[' ∨ opening = '\x7b' := by
      simp only [List.mem_cons, List.not_mem_nil, or_false, Prod.mk.injEq] at hmem
      exact hmem.imp And.left And.left
    refine (candid_just opening).tells s |>.bind fun c s₁ hc => ?_
    obtain ⟨rfl, rfl⟩ := takes_just.1 hc
    have hs₁ : s₁ <:+ c :: s₁ := List.suffix_cons c s₁
    refine (candid_bound.padded.tellsIn hs₁).bind fun min s₂ hmin => ?_
    have hs₂ : s₂ <:+ c :: s₁ := (candid_bound.padded.suffix hmin).trans hs₁
    refine Reader.TellsIn.bind (fun n hn => .inl ?_) fun _ s₃ hto => ?_
    · obtain hn | ⟨-, hrest, -, w, r, hw, hspan, hother⟩ := leaves_keyword hn
      · exact hn.of_suffix hs₂
      · obtain ⟨m, hm, rfl⟩ := takes_padded.1 hmin
        obtain ⟨b, hb, e₁⟩ := exists_blank_append s₁
        obtain ⟨u, hu, e₂⟩ := takes_bound hm
        obtain ⟨b', hb', e₃⟩ := exists_blank_append m
        refine ⟨hrest ▸ hs₂, .inr (hrest ▸ ?_)⟩
        have hrefused := Refused.separator [] hopening hb hu hb' hw hother hspan
        rwa [← e₃, ← e₂, ← e₁] at hrefused
    · exact (candid_bound.padded.bind fun _ => (candid_just closing).bind fun _ =>
        candid_pure _).tellsIn ((keyword_suffix hto).trans hs₂)

/-- The reader of ranges is candid. -/
theorem candid_range : Candid range :=
  ((candid_between (by simp)).orElse (candid_between (by simp))).labelled

/-- The reader of comparisons is candid. -/
theorem candid_comparison : Candid comparison := by
  have hsign : Candid comparisonSign := candid_choice (by
    simp only [List.forall_mem_cons, List.not_mem_nil, false_implies, implies_true, and_true]
    exact ⟨(candid_literal _).map _, (candid_literal _).map _, (candid_just _).map _,
      (candid_just _).map _⟩)
  exact (hsign.bind fun op => ((candid_phrase.map _).orElse (candid_term.map _)).bind fun operand =>
    candid_pure _).labelled

/-- The test for the end of a word is candid. -/
theorem candid_boundary : Candid boundary :=
  (((candid_char _).map _).orElse candid_atEnd).ahead.labelled

/-- Behind `~` a distance is refused that is too large. -/
theorem candid_fuzzySuffix : Candid fuzzySuffix := by
  refine Candid.labelled ⟨fun h => ?_, fun s => ?_⟩
  · obtain ⟨z, -, hs⟩ := takes_fuzzySuffix (takes_labelled.2 h)
    exact suffix_of_eq_append hs
  · refine ((candid_just '~').tells s).bind fun c m hc n hn => .inl ?_
    obtain ⟨rfl, rfl⟩ := takes_just.1 hc
    have hm : m <:+ '~' :: m := List.suffix_cons _ m
    obtain hn | ⟨rfl, ds, r, hspan, hlarge⟩ := leaves_integer (leaves_opt.1 hn)
    · exact hn.of_suffix hm
    · exact ⟨hm, .inr (.distance [] hspan hlarge)⟩

/-- The reader of boosts is candid. -/
theorem candid_boostSuffix : Candid boostSuffix :=
  ((candid_just '^').bind fun _ => candid_decimal).labelled

/-! ### Clauses -/

section
variable {clause : Reader Clause}

/-- The reader of groups is candid, if clauses are. -/
theorem candid_group (hc : Candid clause) : Candid (group clause) :=
  ((candid_just '(').bind fun _ => hc.padded.bind fun c => (candid_just ')').bind fun _ =>
    candid_pure c).labelled

/-- The reader of clauses with a field is candid, if clauses in groups are. -/
theorem candid_fielded (hc : Candid clause) : Candid (fielded clause) :=
  candid_fieldName.bind fun field => (candid_just ':').bind fun _ => candid_choice (by
    simp only [List.forall_mem_cons, List.not_mem_nil, false_implies, implies_true, and_true]
    exact ⟨(candid_group hc).map _, candid_range.map _, candid_comparison.map _,
      candid_phrase.map _, candid_term.map _⟩)

/-- The words `AND`, `OR` and `NOT` are refused as terms, but read as field names before. -/
theorem candid_operand (hc : Candid clause) :
    Candid (Reader.orElse (fielded clause) (unfielded clause)) where
  suffix h := by
    obtain h | ⟨-, h⟩ := takes_orElse.1 h
    · exact (candid_fielded hc).suffix h
    · simp only [unfielded, takes_choice_cons, takes_choice_nil, takes_map, and_false,
        or_false] at h
      rcases h with h | ⟨-, ⟨a, h, -⟩ | ⟨-, ⟨p, h, -⟩ | ⟨-, t, h, -⟩⟩⟩
      · exact (candid_group hc).suffix h
      · exact candid_range.suffix h
      · exact candid_phrase.suffix h
      · exact bareTerm_suffix h
  tells s := by
    have hs : s <:+ s := List.suffix_rfl
    refine ((candid_fielded hc).tells s).orElse fun _ =>
      ((candid_group hc).tellsIn hs).orElse fun _ =>
      ((candid_range.map _).tellsIn hs).orElse fun _ =>
      ((candid_phrase.map _).tellsIn hs).orElse fun _ =>
      Reader.TellsIn.orElse (fun n hn => ?_) fun _ n hn => absurd hn not_leaves_choice_nil
    obtain hn | ⟨hrest, c, t, rfl, hstart⟩ := leaves_bareTerm (leaves_map.1 hn)
    · exact .inl hn
    · obtain ⟨m, hm, hnotes⟩ := exists_notes_fieldName hstart t
      have hname : fieldName.Leaves (c :: t) ⟨m, .unexpected, false⟩ := by
        rw [Leaves, hnotes, stopped, List.mem_singleton]
      have hfielded : (fielded clause).Leaves (c :: t) ⟨m, .unexpected, false⟩ :=
        leaves_bind.2 (.inl hname)
      refine .inr ⟨hrest ▸ hs, ⟨m, .unexpected, false⟩, ?_, .inl ?_⟩
      · simp only [hfielded, or_true, true_or]
      · rw [hrest]
        exact Nat.lt_succ_of_le hm.length_le

/-- The reader of clauses with their suffixes is candid, if clauses in groups are. -/
theorem candid_modified (hc : Candid clause) : Candid (modified clause) :=
  (candid_operand hc).bind fun _ => candid_fuzzySuffix.opt.bind fun _ =>
    candid_boostSuffix.opt.bind fun _ => candid_boundary.bind fun _ => candid_pure _

/-- Where a sign is missing, a test of a single character has failed. -/
theorem leaves_sign_of_fails {c : Char} {q : Prefix} {s : List Char}
    (h : ((fun _ => q) <$> Reader.just c).Fails s) :
    ((fun _ => q) <$> Reader.just c).Leaves s ⟨s, .unexpected, true⟩ :=
  leaves_map.2 (leaves_just.2
    ⟨fails_of_not_takes fun d _ hd => h.not_takes (takes_map.2 ⟨d, hd, rfl⟩), rfl⟩)

/-- The signs are tried in front of `NOT`. -/
theorem candid_signPrefix : Candid signPrefix := by
  refine Candid.padded ⟨fun {s r p} h => ?_, fun s => ?_⟩
  · simp only [takes_choice_cons, takes_choice_nil, takes_map, and_false, or_false] at h
    rcases h with ⟨_, h, -⟩ | ⟨-, ⟨_, h, -⟩ | ⟨-, ⟨_, h, -⟩ | ⟨-, _, h, -⟩⟩⟩
    · exact (candid_just '!').suffix h
    · exact (candid_just '+').suffix h
    · exact (candid_just '-').suffix h
    · exact keyword_suffix h
  · have hs : s <:+ s := List.suffix_rfl
    refine (((candid_just '!').map _).tells s).orElse fun hfails =>
      (((candid_just '+').map _).tellsIn hs).orElse fun _ =>
      (((candid_just '-').map _).tellsIn hs).orElse fun _ =>
      Reader.TellsIn.orElse (fun n hn => ?_) fun _ n hn => absurd hn not_leaves_choice_nil
    obtain hn | ⟨hcause, hrest, -⟩ := leaves_keyword (leaves_map.1 hn)
    · exact .inl hn
    · have hsign := leaves_sign_of_fails hfails
      refine .inr ⟨hrest ▸ hs, ⟨s, .unexpected, true⟩, ?_, .inr ⟨by rw [hrest], hcause, rfl, rfl⟩⟩
      simp only [hsign, or_true, true_or]

/-! ### Clauses side by side -/

/-- The end of a text is no longer without its blanks than the text. -/
theorem length_skipBlank_le_of_suffix {s m : List Char} (h : m <:+ s) :
    (Text.skipBlank m).length ≤ (Text.skipBlank s).length := by
  obtain ⟨u, rfl⟩ := h
  induction u with
  | nil => exact Nat.le_refl _
  | cons c u ih =>
    by_cases hc : Text.isBlank c = true
    · rwa [List.cons_append, Text.skipBlank, Text.skipBlank, List.dropWhile_cons_of_pos hc]
    · rw [List.cons_append, Text.skipBlank, Text.skipBlank, List.dropWhile_cons_of_neg hc,
        ← List.cons_append, List.length_append]
      exact Nat.le_trans (Text.skipBlank_length_le m) (Nat.le_add_left ..)

/-- Where a clause is to start, single characters are tried until one is no sign. -/
theorem probed_signs (s : List Char) :
    Probed ((Reader.many signPrefix).Leaves s) (Text.skipBlank s).length := by
  have hlt (s : List Char) (q : Prefix) (r : List Char) (h : signPrefix.Takes s q r) :=
    length_lt_of_takes_signPrefix h
  obtain ⟨ps, m, hps, hfails⟩ := exists_takesAll hlt s
  have hsign := leaves_sign_of_fails (c := '!') (q := .mustNot) (s := Text.skipBlank m)
    (fails_of_not_takes fun _ r h => hfails.not_takes (takes_padded.2 ⟨r, h.choice _, rfl⟩))
  exact ⟨_, (leaves_many hlt).2 ⟨ps, m, hps, leaves_padded.2 (leaves_choice_cons.2 (.inl hsign))⟩,
    rfl, rfl, length_skipBlank_le_of_suffix (hps.suffix candid_signPrefix.suffix)⟩

/-- The reader of clauses with their prefixes is candid, if clauses in groups are. -/
theorem candid_unary (hc : Candid clause) : Candid (unary clause) :=
  ((candid_signPrefix.many fun _ _ _ h => length_lt_of_takes_signPrefix h).bind fun _ =>
    (candid_modified hc).bind fun _ => candid_pure _).padded

/-- A clause with its prefixes is tried behind the blanks in front of it. -/
theorem probed_unary (clause : Reader Clause) (s : List Char) :
    Probed ((unary clause).Leaves s) (Text.skipBlank s).length :=
  (probed_signs (Text.skipBlank s)).mono (Text.skipBlank_length_le _) fun _ hm =>
    leaves_padded.2 (leaves_bind.2 (.inl hm))

/-- Behind a keyword with its blanks stands the end of the text. -/
theorem padded_keyword_suffix {word symbol : String} {s r : List Char} {u : Unit}
    (h : (Reader.padded (keyword word symbol)).Takes s u r) : r <:+ s := by
  obtain ⟨m, hm, rfl⟩ := takes_padded.1 h
  exact ((skipBlank_suffix m).trans (keyword_suffix hm)).trans (skipBlank_suffix s)

/-- Behind a keyword that may be left out stands the end of the text. -/
theorem opt_keyword_suffix {word symbol : String} {s r : List Char} {u : Option Unit}
    (h : (Reader.opt (Reader.padded (keyword word symbol))).Takes s u r) : r <:+ s := by
  obtain ⟨u, -, hu⟩ | ⟨-, rfl, -⟩ := takes_opt.1 h
  · exact padded_keyword_suffix hu
  · exact List.suffix_rfl

/-- Where `AND` is missing a clause is tried instead. -/
theorem candid_nextUnary (hc : Candid clause) : Candid (nextUnary clause) where
  suffix h := by
    obtain ⟨_, m, hand, h⟩ := takes_bind.1 h
    exact ((candid_unary hc).suffix h).trans (opt_keyword_suffix hand)
  tells s n hn := by
    obtain hn | ⟨a, m, hand, hn⟩ := leaves_bind.1 hn
    · obtain htells | ⟨hcause, hrest, hfails, -⟩ := leaves_keyword (leaves_padded.1 (leaves_opt.1 hn))
      · exact .inl (htells.of_suffix (skipBlank_suffix s))
      · have hmissing : (Reader.opt (Reader.padded (keyword "AND" "&&"))).Takes s none s :=
          takes_opt.2 (.inr ⟨rfl, rfl, hfails.padded⟩)
        have hprobed : Probed (fun m => False ∨ (nextUnary clause).Leaves s m) n.rest.length :=
          (probed_unary clause s).mono (Nat.le_of_eq (by rw [hrest])) fun m hm =>
            .inr (leaves_bind.2 (.inr ⟨none, s, hmissing, hm⟩))
        exact .inr ⟨hrest ▸ skipBlank_suffix s, hprobed.exists_beats hcause⟩
    · exact ((candid_unary hc).tells m n hn).mono (opt_keyword_suffix hand) fun _ hm =>
        hm.imp_right fun hm => leaves_bind.2 (.inr ⟨a, m, hand, hm⟩)

/-- One more clause is tried behind the blanks in front of it. -/
theorem probed_nextUnary (clause : Reader Clause) (s : List Char) :
    Probed ((nextUnary clause).Leaves s) (Text.skipBlank s).length := by
  obtain ⟨a, m, hand⟩ : ∃ a m, (Reader.opt (Reader.padded (keyword "AND" "&&"))).Takes s a m := by
    obtain ⟨u, m, hand⟩ | hfails := takes_or_fails (Reader.padded (keyword "AND" "&&")) s
    · exact ⟨some u, m, takes_opt.2 (.inl ⟨u, rfl, hand⟩)⟩
    · exact ⟨none, s, takes_opt.2 (.inr ⟨rfl, rfl, hfails⟩)⟩
  exact (probed_unary clause m).mono (length_skipBlank_le_of_suffix (opt_keyword_suffix hand))
    fun _ hm => leaves_bind.2 (.inr ⟨a, m, hand, hm⟩)

variable (hsound : IsSound clause) (hc : Candid clause)
include hsound

/-- A conjunction leaves what its first clause leaves, and what is left where one more is tried
behind the others. -/
theorem leaves_conjunction {s : List Char} {n : Note} :
    (conjunction clause).Leaves s n ↔ (unary clause).Leaves s n ∨
      ∃ c m, (unary clause).Takes s c m ∧
        ∃ cs m', (nextUnary clause).TakesAll m cs m' ∧ (nextUnary clause).Leaves m' n := by
  simp only [conjunction_eq, leaves_bind, not_leaves_pure, and_false, exists_false, or_false,
    leaves_many fun _ _ _ h => length_lt_of_takes_nextUnary hsound h]

/-- A disjunction leaves what its first conjunction leaves, and what is left where one more is tried
behind the others. -/
theorem leaves_disjunction {s : List Char} {n : Note} :
    (disjunction clause).Leaves s n ↔ (conjunction clause).Leaves s n ∨
      ∃ c m, (conjunction clause).Takes s c m ∧
        ∃ cs m', (nextConjunction clause).TakesAll m cs m' ∧
          (nextConjunction clause).Leaves m' n := by
  simp only [disjunction_eq, leaves_bind, not_leaves_pure, and_false, exists_false, or_false,
    leaves_many fun _ _ _ h => length_lt_of_takes_nextConjunction hsound h]

/-- The text behind a conjunction was tried for one more clause. -/
theorem probed_conjunction {s r : List Char} {c : Clause}
    (h : (conjunction clause).Takes s c r) :
    Probed ((conjunction clause).Leaves s) (Text.skipBlank r).length := by
  simp only [conjunction_eq, takes_bind, takes_pure] at h
  obtain ⟨first, m, hfirst, rest, _, hrest, -, rfl⟩ := h
  exact (probed_nextUnary clause _).mono (Nat.le_refl _) fun _ hm => (leaves_conjunction hsound).2
    (.inr ⟨first, m, hfirst, rest, _, takesAll_of_takes_many hrest, hm⟩)

/-- So was the text behind conjunctions with `OR` between them. -/
theorem probed_disjunction {s m r : List Char} {c : Clause} {cs : List Clause}
    (h : (conjunction clause).Takes s c m) (hcs : (nextConjunction clause).TakesAll m cs r) :
    Probed ((disjunction clause).Leaves s) (Text.skipBlank r).length := by
  obtain rfl | ⟨ds, m', d, hds, hd⟩ := hcs.eq_or_last
  · exact (probed_conjunction hsound h).mono (Nat.le_refl _) fun _ hm =>
      (leaves_disjunction hsound).2 (.inl hm)
  · obtain ⟨_, m'', hor, hd⟩ := takes_bind.1 hd
    exact (probed_conjunction hsound hd).mono (Nat.le_refl _) fun _ hm =>
      (leaves_disjunction hsound).2 (.inr ⟨c, m, h, ds, m', hds,
        leaves_bind.2 (.inr ⟨_, m'', hor, hm⟩)⟩)

include hc

/-- The reader of conjunctions is candid, if clauses in groups are. -/
theorem candid_conjunction : Candid (conjunction clause) := by
  rw [conjunction_eq]
  exact (candid_unary hc).bind fun _ => ((candid_nextUnary hc).many fun _ _ _ h =>
    length_lt_of_takes_nextUnary hsound h).bind fun _ => candid_pure _

/-- Behind one more conjunction stands the end of the text. -/
theorem nextConjunction_suffix {s r : List Char} {c : Clause}
    (h : (nextConjunction clause).Takes s c r) : r <:+ s := by
  obtain ⟨_, m, hor, h⟩ := takes_bind.1 h
  exact ((candid_conjunction hsound hc).suffix h).trans (padded_keyword_suffix hor)

/-- `OR` counts on what was tried before it. -/
theorem tellsIn_nextConjunction {before : Note → Prop} {s t : List Char} (hs : s <:+ t)
    (hbefore : Probed before (Text.skipBlank s).length) :
    (nextConjunction clause).TellsIn before s t := by
  refine Reader.TellsIn.bind (fun n hn => ?_) fun _ m hor =>
    (candid_conjunction hsound hc).tellsIn ((padded_keyword_suffix hor).trans hs)
  have hblank := (skipBlank_suffix s).trans hs
  obtain htells | ⟨hcause, hrest, -⟩ := leaves_keyword (leaves_padded.1 hn)
  · exact .inl (htells.of_suffix hblank)
  · exact .inr ⟨hrest ▸ hblank, (hbefore.mono (Nat.le_of_eq (by rw [hrest])) fun _ hm =>
      Or.inl hm).exists_beats hcause⟩

/-- The reader of disjunctions is candid, if clauses in groups are. -/
theorem candid_disjunction : Candid (disjunction clause) where
  suffix h := by
    simp only [disjunction_eq, takes_bind, takes_pure] at h
    obtain ⟨first, m, hfirst, rest, _, hrest, -, rfl⟩ := h
    exact ((takesAll_of_takes_many hrest).suffix (nextConjunction_suffix hsound hc)).trans
      ((candid_conjunction hsound hc).suffix hfirst)
  tells s n hn := by
    obtain hn | ⟨c, m, hcm, cs, m', hcs, hn⟩ := (leaves_disjunction hsound).1 hn
    · exact ((candid_conjunction hsound hc).tells s n hn).mono List.suffix_rfl fun _ hm =>
        hm.imp_right fun hm => (leaves_disjunction hsound).2 (.inl hm)
    · have hm' : m' <:+ s := (hcs.suffix (nextConjunction_suffix hsound hc)).trans
        ((candid_conjunction hsound hc).suffix hcm)
      refine (tellsIn_nextConjunction hsound hc hm' (probed_disjunction hsound hcm hcs) n hn).mono
        List.suffix_rfl fun k hk => .inr (hk.elim id fun hk => ?_)
      exact (leaves_disjunction hsound).2 (.inr ⟨c, m, hcm, cs, m', hcs, hk⟩)

end

/-- **Of the notes that are left where a clause is to be read, the best ones tell why.** -/
theorem candid_clauseWithin (bound : Nat) : Candid (clauseWithin bound) := by
  induction bound with
  | zero => exact ⟨fun h => by simp [Takes, clauseWithin] at h, fun s n hn => by
      simp [Leaves, clauseWithin] at hn⟩
  | succ bound ih =>
    rw [show clauseWithin (bound + 1) = disjunction (clauseWithin bound) from rfl]
    exact candid_disjunction (isSound_clauseWithin bound) ih

/-- **The reader of queries is candid**. -/
theorem candid_query : Candid query where
  suffix h := by
    obtain ⟨-, -, -, rfl⟩ := takes_query.1 h
    exact List.nil_suffix
  tells s n hn := by
    have hcandid := (candid_clauseWithin (s.length + 1)).padded.bind fun c =>
      candid_atEnd.bind fun _ => candid_pure c
    rw [Leaves, query_eq] at hn
    refine (hcandid.tells s n hn).mono List.suffix_rfl fun m hm => hm.imp_right fun hm => ?_
    rwa [Leaves, query_eq]

/-- A text is refused where no query can be read off it, with the place of the note that is
picked. -/
theorem clause?_eq_error_iff {text : List Char} {pos : Position} :
    clause? text = .error pos ↔ (query text).result = none ∧
      positionOf text ((Note.furthest (query text).notes).getD ⟨text, .unexpected, false⟩) = pos := by
  unfold clause?
  split <;> rename_i hquery <;> simp [hquery]

/-- **A text that is refused is explained** by a note that stands in it. -/
theorem exists_tells_of_clause? {text : List Char} {pos : Position}
    (h : clause? text = .error pos) : ∃ n : Note, n.Tells text ∧ positionOf text n = pos := by
  refine ⟨_, ?_, (clause?_eq_error_iff.1 h).2⟩
  cases hbest : Note.furthest (query text).notes with
  | none => exact ⟨List.suffix_rfl, .inl rfl⟩
  | some n => exact candid_query.picks hbest

end Grammar
end SearchFilter
