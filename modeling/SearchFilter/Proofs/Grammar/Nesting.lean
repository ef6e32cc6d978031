/-
# How deep a reading nests

The grammar of clauses is put together from a reader for the queries inside of groups.
A text is *nested within* `n` groups when it does not matter which reader is used
inside of `n` groups: whatever it is, the whole text is read as the grammar reads it
(`IsNestedWithin`). So no group is entered there, not even by a reading that is given up.

That a text is nested within the height of its parentheses (`isNestedWithin_of_clause?`)
rests on two facts:

* a reader enters a group only where one is read: where the group fails, nothing else can
  be read at its parenthesis, and then the text is not accepted;
* on the way along a text, the parentheses that are open are counted by its roles.
-/

import SearchFilter.Proofs.Grammar.Fails
import SearchFilter.Proofs.Grammar.Outline
import SearchFilter.Proofs.Query.Height
import SearchFilter.Query.Size

namespace SearchFilter
namespace Grammar

open Query
open Reader

/-! ### Readers that agree -/

namespace Reader

variable {α β : Type} {p q : Reader α} {s : List Char}

/-- Two readers in turn agree, if the first ones do and the second ones do behind what is taken. -/
theorem congr_bind {f g : α → Reader β} (h : p s = q s)
    (hf : ∀ a m, q.Takes s a m → f a m = g a m) : (p >>= f) s = (q >>= g) s := by
  simp only [bind, Reader.bind]
  rw [h]
  rcases hq : q s with ⟨_ | ⟨a, m⟩, notes⟩
  · rfl
  · exact congrArg (fun o : Outcome β => (⟨o.result, notes ++ o.notes⟩ : Outcome β))
      (hf a m (by rw [Takes, hq]))

/-- Readers that agree do so with a function. -/
theorem congr_map {f : α → β} (h : p s = q s) : (f <$> p) s = (f <$> q) s :=
  congr_bind h fun _ _ _ => rfl

/-- The second readers have to agree only where the first ones fail. -/
theorem congr_orElse {p' q' : Reader α} (h : p s = q s) (h' : p.Fails s → p' s = q' s) :
    orElse p p' s = orElse q q' s := by
  simp only [orElse]
  rw [← h]
  rcases hp : p s with ⟨_ | x, notes⟩
  · rw [h' (by rw [Fails, hp])]
  · rfl

/-- Readers that agree do so under a name for what is missing. -/
theorem congr_labelled (h : p s = q s) : labelled p s = labelled q s := by
  rw [labelled, h, labelled]

/-- Readers that agree behind blanks do so with the blanks around them. -/
theorem congr_padded (h : p (Text.skipBlank s) = q (Text.skipBlank s)) :
    padded p s = padded q s := by
  refine congr_bind rfl fun _ m hm => congr_bind ?_ fun _ _ _ => rfl
  rw [takes_blanks.1 hm]
  exact h

/-- Repetitions agree where their readers agree on the way, and at its end. -/
theorem congr_many {I : List Char → Prop} {as : List α} {r : List Char}
    (step : ∀ s a m as, I s → p.Takes s a m → p.TakesAll m as r → q s = p s ∧ I m)
    (stop : p.Fails r → q r = p r) (h : (many p).Takes s as r) (hs : I s) :
    many q s = many p s := by
  have key (bound s : List Char) (as : List α) (hs : I s)
      (h : (manyWithin p bound s).result = some (as, r)) :
      manyWithin q bound s = manyWithin p bound s := by
    induction bound generalizing s as with
    | nil => rfl
    | cons b bound ih =>
      rw [manyWithin] at h ⊢
      rw [manyWithin]
      split at h
      · rename_i a m notes hp
        simp only [Option.map_eq_some_iff, Prod.mk.injEq] at h
        obtain ⟨⟨as, r'⟩, hrest, rfl, rfl⟩ := h
        obtain ⟨heq, hm⟩ := step s a m as hs (by rw [Takes, hp]) (takesAll_of_manyWithin hrest)
        rw [heq, hp]
        simp only [ih m as hm hrest]
      · rename_i notes hp
        obtain ⟨rfl, rfl⟩ : [] = as ∧ s = r := by simpa using h
        rw [stop (by rw [Fails, hp]), hp]
  exact key _ s as hs h

end Reader

/-! ### Where groups are entered -/

variable {p q : Reader Clause} {s : List Char}

/-- Groups are read alike where their insides are. -/
theorem group_congr (h : ∀ m, s = '(' :: m → q (Text.skipBlank m) = p (Text.skipBlank m)) :
    group q s = group p s := by
  refine congr_labelled (congr_bind rfl fun _ m hm => ?_)
  obtain ⟨rfl, rfl⟩ := takes_just.1 hm
  exact congr_bind (congr_padded (h m rfl)) fun _ _ _ => rfl

/-- Clauses with a field are read alike where a group behind the field is. -/
theorem fielded_congr
    (h : ∀ field m, fieldName.Takes s field (':' :: m) → group q m = group p m) :
    fielded q s = fielded p s := by
  refine congr_bind rfl fun field t hfield => congr_bind rfl fun _ m hm => ?_
  obtain ⟨rfl, rfl⟩ := takes_just.1 hm
  exact congr_orElse (congr_map (h field m hfield)) fun _ => rfl

/-- Clauses without a field are read alike where groups are. -/
theorem unfielded_congr (h : group q s = group p s) : unfielded q s = unfielded p s :=
  congr_orElse h fun _ => rfl

/-- Clauses with their suffixes are read alike where they are with a field and groups are. -/
theorem modified_congr (hf : fielded q s = fielded p s) (hu : group q s = group p s) :
    modified q s = modified p s :=
  congr_bind (congr_orElse hf fun _ => unfielded_congr hu) fun _ _ _ => rfl

/-- Clauses with prefixes are read alike where they are behind all prefixes. -/
theorem unary_congr (h : ∀ ps m, (many signPrefix).Takes (Text.skipBlank s) ps m →
    modified q m = modified p m) : unary q s = unary p s :=
  congr_padded (congr_bind rfl fun ps m hps => congr_bind (h ps m hps) fun _ _ _ => rfl)

/-! ### A group that is entered is read -/

/-- **At a parenthesis nothing but a group can be read,** so where a clause is read there, a group
is. -/
theorem takes_group_of_opening {m r : List Char} {c : Clause}
    (h : (modified p).Takes ('(' :: m) c r) : ∃ c r, (group p).Takes ('(' :: m) c r := by
  obtain ⟨hrange, -, hphrase, -, hterm, hname⟩ := fails_of_opening m
  simp only [modified, takes_bind, takes_orElse] at h
  obtain ⟨c, t, hc, -⟩ := h
  rcases hc with hc | ⟨-, hc⟩
  · obtain ⟨_, _, hfield, -⟩ := takes_bind.1 hc
    exact absurd hfield hname.not_takes
  · simp only [unfielded, takes_choice_cons, takes_choice_nil, takes_map, and_false, or_false] at hc
    rcases hc with hc | ⟨-, ⟨_, ha, -⟩ | ⟨-, ⟨_, ha, -⟩ | ⟨-, _, ha, -⟩⟩⟩
    · exact ⟨c, t, hc⟩
    · exact absurd ha hrange.not_takes
    · exact absurd ha hphrase.not_takes
    · exact absurd ha hterm.not_takes

/-- **Behind a field a parenthesis can only open a group,** so where a clause is read there, a group
is; the name alone is no clause, since the colon ends none. -/
theorem takes_group_of_name {field m r : List Char} {c : Clause}
    (hname : fieldName.Takes s field (':' :: '(' :: m)) (h : (modified p).Takes s c r) :
    ∃ c r, (group p).Takes ('(' :: m) c r := by
  obtain ⟨hrange, hcomparison, hphrase, hterm, -, -⟩ := fails_of_opening m
  simp only [modified, takes_bind, takes_orElse] at h
  obtain ⟨c, t, hc, fuzzy, _, hf, boost, _, hb, _, _, hend, -⟩ := h
  rcases hc with hc | ⟨-, hc⟩
  · simp only [fielded, takes_bind, takes_just] at hc
    obtain ⟨field', _, hname', _, m', ⟨rfl, -⟩, hc⟩ := hc
    obtain ⟨rfl, hm⟩ := Prod.mk.inj (Option.some.inj (hname.symm.trans hname'))
    obtain ⟨-, rfl⟩ := List.cons.inj hm
    simp only [takes_choice_cons, takes_choice_nil, takes_map, and_false, or_false] at hc
    rcases hc with ⟨c, hc, -⟩ |
      ⟨-, ⟨_, ha, -⟩ | ⟨-, ⟨_, ha, -⟩ | ⟨-, ⟨_, ha, -⟩ | ⟨-, _, ha, -⟩⟩⟩⟩
    · exact ⟨c, t, hc⟩
    · exact absurd ha hrange.not_takes
    · exact absurd ha hcomparison.not_takes
    · exact absurd ha hphrase.not_takes
    · exact absurd ha hterm.not_takes
  · -- the name alone is read, and the colon ends no clause
    exfalso
    obtain ⟨hfield, rfl⟩ := takes_fieldName hname
    have hterm : t = ':' :: '(' :: m := by
      obtain ⟨d, v, rfl⟩ := List.exists_cons_of_ne_nil hfield.isTerm.ne_nil
      have hne {e : Char} (he : Text.isNameStart e = false) : d ≠ e := by
        rintro rfl
        exact absurd (hfield.isNameStart d rfl) (by simp [he])
      simp only [unfielded, takes_choice_cons, takes_choice_nil, takes_map, and_false,
        or_false] at hc
      rcases hc with hc | ⟨-, ⟨_, ha, -⟩ | ⟨-, ⟨_, ha, -⟩ | ⟨-, _, ha, -⟩⟩⟩
      · exact absurd hc (fails_group (hne (by decide))).not_takes
      · exact absurd ha (fails_range (hne (by decide)) (hne (by decide))).not_takes
      · exact absurd ha (fails_phrase (hne (by decide))).not_takes
      · simp only [bareTerm, takes_accept, takes_term] at ha
        obtain ⟨u, ⟨-, hspan⟩, -⟩ := ha
        rw [hfield.isTerm.spanTerm_append (by rintro _ ⟨⟩; decide)] at hspan
        exact (Prod.mk.inj hspan).2.symm
    obtain ⟨rfl, hend⟩ := takes_boundary hend
    obtain ⟨z, hz, hr⟩ := takes_suffixes hf hb
    rw [hterm] at hr
    rcases hz.eq_nil_or_cons with rfl | ⟨d, z, rfl, hd⟩
    · rw [List.nil_append] at hr
      rw [← hr] at hend
      exact absurd hend (by simp [endsWord]; decide)
    · obtain ⟨rfl, -⟩ := List.cons.inj hr
      exact absurd hd (by decide)

/-! ### Texts of a bounded height -/

/-- Two readers for the queries inside of groups agree on the groups of a text that is not
higher than `n`, seen from inside of `d` groups. -/
def AgreesInside (n d : Nat) (p q : Reader Clause) : Prop :=
  ∀ u c r, Role.height d (.opening :: roles u) ≤ n → p.Takes (Text.skipBlank u) c r →
    Stops r → q (Text.skipBlank u) = p (Text.skipBlank u)

/-- A text that stops, or goes on with another conjunction. -/
def Halts (p : Reader Clause) (s : List Char) : Prop :=
  Stops s ∨ ∃ c r, (nextConjunction p).Takes s c r

/-- Where further conjunctions are read up to where the text stops, it stops or goes on with one. -/
theorem halts_of_takesAll {cs : List Clause} {r : List Char}
    (h : (nextConjunction p).TakesAll s cs r) (hr : Stops r) : Halts p s := by
  cases h with
  | nil => exact .inl hr
  | cons hc => exact .inr ⟨_, _, hc⟩

/-- A further clause is tried in vain where no prefix, name or parenthesis stands. -/
theorem nextUnary_congr (hand : (Reader.padded (keyword "AND" "&&")).Fails s)
    (hsign : signPrefix.Fails (Text.skipBlank s))
    (hname : ∀ field m, ¬ fieldName.Takes (Text.skipBlank s) field (':' :: m))
    (hopening : ∀ m, Text.skipBlank s ≠ '(' :: m) : nextUnary q s = nextUnary p s := by
  refine congr_bind rfl fun _ m hm => ?_
  obtain ⟨_, -, hm⟩ | ⟨-, rfl, -⟩ := takes_opt.1 hm
  · exact absurd hm hand.not_takes
  · refine unary_congr fun ps t ht => ?_
    rw [many_eq_of_fails hsign ht]
    exact modified_congr (fielded_congr fun field u hu => absurd hu (hname field u))
      (group_congr fun u hu => absurd hu (hopening u))

/-- One more clause is tried in vain where a text stops, whatever reads groups. -/
theorem nextUnary_congr_of_stops (h : Stops s) : nextUnary q s = nextUnary p s := by
  refine nextUnary_congr (fails_keyword_of_stops h) ?_ ?_ ?_
  · rcases h with h | ⟨r, h⟩ <;> rw [h] <;> rfl
  · intro field m hname
    rcases h with h | ⟨r, h⟩ <;> rw [h] at hname <;> cases hname
  · intro m hm
    rcases h with h | ⟨r, h⟩ <;> rw [h] at hm <;> cases hm

/-- One more clause is tried in vain in front of `OR`, whatever reads groups. -/
theorem nextUnary_congr_of_next (hp : IsSound p) {c : Clause} {r : List Char}
    (h : (nextConjunction p).Takes s c r) : nextUnary q s = nextUnary p s := by
  obtain ⟨_, m, hor, hc⟩ := takes_bind.1 h
  obtain ⟨t, hkey, rfl⟩ := takes_padded.1 hor
  obtain ⟨k, hk, hs, hspan⟩ := takes_keyword hkey
  refine nextUnary_congr (Reader.Fails.padded ?_) ?_ ?_ ?_ <;> rw [hs]
  · exact hk.fails_keyword hspan (by simp)
  · exact hk.fails_signPrefix hspan
  · intro field u hname
    obtain ⟨hfield, hs'⟩ := takes_fieldName hname
    have hcut := hfield.isTerm.spanTerm_append (r := ':' :: u) (by rintro _ ⟨⟩; decide)
    rw [← hs', hspan] at hcut
    obtain ⟨-, rfl⟩ := Prod.mk.inj hcut
    -- behind the keyword a clause starts, and no clause starts with a colon
    obtain ⟨e, v, he, -, hdelim⟩ := (takes_conjunction hp _ _ _ hc).starts
    obtain ⟨rfl, -⟩ : ':' = e ∧ u = v := List.cons.inj he
    exact absurd (hdelim (by decide)) (by decide)
  · intro u hu
    -- the keyword starts with another character than a group
    obtain ⟨d, k, rfl, hd⟩ := hk.exists_cons
    obtain rfl : d = '(' := (List.cons.inj hu).1
    exact absurd hd (by decide)

/-- What a clause leaves is no higher than the text was. -/
theorem Reads.height_le {n d : Nat} {r : List Char} {c : Clause} (h : Reads c s r)
    (hn : Role.height d (roles s) ≤ n) : Role.height d (roles r) ≤ n := by
  obtain ⟨ρ, hρ, hfits⟩ := h.spans
  exact Role.height_le_of_append (hfits.level d) (hρ ▸ hn)

section
variable {n d : Nat} (hp : IsSound p) (H : AgreesInside n d p q)
include H

/-- A group that is read in a text of bounded height is read alike. -/
theorem group_congr_of_takes {m r : List Char} {c : Clause}
    (hn : Role.height d (roles ('(' :: m)) ≤ n) (h : (group p).Takes ('(' :: m) c r) :
    group q ('(' :: m) = group p ('(' :: m) := by
  refine group_congr fun u hu => ?_
  obtain ⟨-, rfl⟩ := List.cons.inj hu
  simp only [group, takes_labelled, takes_bind, takes_just, takes_padded] at h
  obtain ⟨_, _, ⟨hm, -⟩, c, t, ⟨t, hc, rfl⟩, _, _, ⟨hend, rfl⟩, -⟩ := h
  obtain ⟨-, rfl⟩ := List.cons.inj hm
  rw [roles_opening] at hn
  exact H m c t hn hc (.inr ⟨_, hend⟩)

/-- A clause with its suffixes that is read in a text of bounded height is read alike. -/
theorem modified_congr_of_takes {r : List Char} {c : Clause} (hn : Role.height d (roles s) ≤ n)
    (h : (modified p).Takes s c r) : modified q s = modified p s := by
  refine modified_congr (fielded_congr fun field m hname => ?_) ?_
  · by_cases hm : ∃ t, m = '(' :: t
    · obtain ⟨t, rfl⟩ := hm
      obtain ⟨c, r, hgroup⟩ := takes_group_of_name hname h
      obtain ⟨hfield, rfl⟩ := takes_fieldName hname
      rw [roles_fieldGroup hfield, ← roles_opening] at hn
      exact group_congr_of_takes H hn hgroup
    · exact group_congr fun t ht => absurd ⟨t, ht⟩ hm
  · by_cases hs : ∃ t, s = '(' :: t
    · obtain ⟨t, rfl⟩ := hs
      obtain ⟨c, r, hgroup⟩ := takes_group_of_opening h
      exact group_congr_of_takes H hn hgroup
    · exact group_congr fun t ht => absurd ⟨t, ht⟩ hs

include hp

/-- A clause with its prefixes that is read in a text of bounded height is read alike. -/
theorem unary_congr_of_takes {r : List Char} {c : Clause} (hn : Role.height d (roles s) ≤ n)
    (h : (unary p).Takes s c r) : unary q s = unary p s := by
  refine unary_congr fun ps m hps => ?_
  simp only [unary, takes_padded, takes_bind] at h
  obtain ⟨_, ⟨ps', m', hps', c, t, hc, -⟩, -⟩ := h
  obtain ⟨rfl, rfl⟩ := Prod.mk.inj (Option.some.inj (hps.symm.trans hps'))
  have hfails := fails_of_takes_many (fun _ _ _ h => length_lt_of_takes_signPrefix h) hps
  have hreads := takes_modified hp (isSign_eq_false_of_fails hfails) hc
  have hsigns := signs_of_skipBlank (signs_of_takesAll (takesAll_of_takes_many hps))
  rw [hsigns.roles hreads.starts] at hn
  exact modified_congr_of_takes H hn hc

/-- One more clause that is read in a text of bounded height is read alike, and what it leaves is no
higher. -/
theorem nextUnary_congr_of_takes {r : List Char} {c : Clause} (hn : Role.height d (roles s) ≤ n)
    (h : (nextUnary p).Takes s c r) :
    nextUnary q s = nextUnary p s ∧ Role.height d (roles r) ≤ n := by
  obtain ⟨a, m, hand, hc⟩ := takes_bind.1 h
  have hreads := takes_unary hp _ _ _ hc
  have hroles : roles s = roles m := by
    obtain ⟨_, -, hand⟩ | ⟨-, rfl, -⟩ := takes_opt.1 hand
    · exact (takes_joins hand).roles (by simp) hreads.starts
    · rfl
  rw [hroles] at hn
  refine ⟨congr_bind rfl fun a' m' hand' => ?_, hreads.height_le hn⟩
  obtain ⟨rfl, rfl⟩ := Prod.mk.inj (Option.some.inj (hand.symm.trans hand'))
  exact unary_congr_of_takes hp H hn hc

/-- A conjunction that is read in a text of bounded height is read alike, if the text halts behind
it. -/
theorem conjunction_congr_of_takes {r : List Char} {c : Clause} (hn : Role.height d (roles s) ≤ n)
    (h : (conjunction p).Takes s c r) (hr : Halts p r) : conjunction q s = conjunction p s := by
  rw [conjunction_eq, takes_bind] at h
  obtain ⟨first, m, hfirst, h⟩ := h
  obtain ⟨rest, t, hrest, hpure⟩ := takes_bind.1 h
  obtain ⟨-, rfl⟩ := takes_pure.1 hpure
  rw [conjunction_eq, conjunction_eq]
  refine congr_bind (unary_congr_of_takes hp H hn hfirst) fun first' m' hfirst' => ?_
  obtain ⟨rfl, rfl⟩ := Prod.mk.inj (Option.some.inj (hfirst.symm.trans hfirst'))
  refine congr_bind (congr_many (I := fun u => Role.height d (roles u) ≤ n) ?_ ?_ hrest
    ((takes_unary hp _ _ _ hfirst).height_le hn)) fun _ _ _ => rfl
  · exact fun u e v _ hu he _ => nextUnary_congr_of_takes hp H hu he
  · intro _
    rcases hr with hr | ⟨e, v, hr⟩
    · exact nextUnary_congr_of_stops hr
    · exact nextUnary_congr_of_next hp hr

/-- One more conjunction that is read in a text of bounded height is read alike, and what it leaves
is no higher. -/
theorem nextConjunction_congr_of_takes {r : List Char} {c : Clause}
    (hn : Role.height d (roles s) ≤ n) (h : (nextConjunction p).Takes s c r) (hr : Halts p r) :
    nextConjunction q s = nextConjunction p s ∧ Role.height d (roles r) ≤ n := by
  obtain ⟨a, m, hor, hc⟩ := takes_bind.1 h
  have hreads := takes_conjunction hp _ _ _ hc
  rw [(takes_joins hor).roles (by simp) hreads.starts] at hn
  refine ⟨congr_bind rfl fun a' m' hor' => ?_, hreads.height_le hn⟩
  obtain ⟨rfl, rfl⟩ := Prod.mk.inj (Option.some.inj (hor.symm.trans hor'))
  exact conjunction_congr_of_takes hp H hn hc hr

/-- A disjunction that is read in a text of bounded height is read alike, if the text stops behind
it. -/
theorem disjunction_congr_of_takes {r : List Char} {c : Clause} (hn : Role.height d (roles s) ≤ n)
    (h : (disjunction p).Takes s c r) (hr : Stops r) : disjunction q s = disjunction p s := by
  rw [disjunction_eq, takes_bind] at h
  obtain ⟨first, m, hfirst, h⟩ := h
  obtain ⟨rest, t, hrest, hpure⟩ := takes_bind.1 h
  obtain ⟨-, rfl⟩ := takes_pure.1 hpure
  have hhalts := halts_of_takesAll (takesAll_of_takes_many hrest) hr
  rw [disjunction_eq, disjunction_eq]
  refine congr_bind (conjunction_congr_of_takes hp H hn hfirst hhalts) fun first' m' hfirst' => ?_
  obtain ⟨rfl, rfl⟩ := Prod.mk.inj (Option.some.inj (hfirst.symm.trans hfirst'))
  refine congr_bind (congr_many (I := fun u => Role.height d (roles u) ≤ n) ?_ ?_ hrest
    ((takes_conjunction hp _ _ _ hfirst).height_le hn)) fun _ _ _ => rfl
  · intro u e v cs hu he hcs
    exact nextConjunction_congr_of_takes hp H hu he (halts_of_takesAll hcs hr)
  · refine fun _ => congr_bind rfl fun _ v hor => ?_
    exact absurd hor (fails_keyword_of_stops hr).not_takes

end

/-! ### The grammar up to a depth -/

/-- The grammar with a reader for the queries inside of `n` groups. -/
def clauseAround (inner : Reader Clause) : Nat → Reader Clause
  | 0 => inner
  | n + 1 => disjunction (clauseAround inner n)

/-- The grammar around the grammar is the grammar with both numbers of groups. -/
theorem clauseAround_add (inner : Reader Clause) (m n : Nat) :
    clauseAround (clauseAround inner m) n = clauseAround inner (m + n) := by
  induction n with
  | zero => rfl
  | succ n ih => rw [clauseAround, ih, ← Nat.add_assoc, clauseAround]

/-- Inside of as many groups as a text is high, no group is entered. -/
theorem clauseAround_congr_of_takes (inner : Reader Clause) {m n : Nat} (k : Nat) {d : Nat}
    (hk : d + k = n) (hn : Role.height d (roles s) ≤ n) {c : Clause} {r : List Char}
    (h : (clauseWithin (m + k + 1)).Takes s c r) (hr : Stops r) :
    clauseAround inner (k + 1) s = clauseWithin (m + k + 1) s := by
  induction k generalizing d s c r with
  | zero =>
    refine disjunction_congr_of_takes (isSound_clauseWithin m) (fun u e t hu _ _ => ?_) hn h hr
    rw [Role.height_opening, Nat.max_le] at hu
    exact absurd hu.1 (by omega)
  | succ k ih =>
    refine disjunction_congr_of_takes (isSound_clauseWithin _) (fun u e t hu he ht => ?_) hn h hr
    rw [Role.height_opening, Nat.max_le] at hu
    rw [← roles_skipBlank] at hu
    exact ih (d := d + 1) (by omega) hu.2 he ht

/-- A whole query, with a reader for the queries inside of more than `n` groups. -/
def queryAround (inner : Reader Clause) (n : Nat) : Reader Clause := do
  let c ← Reader.padded (clauseAround inner (n + 1))
  Reader.atEnd
  pure c

/-- Whether no group inside of `n` groups of a text is entered: whatever reads the queries
there, the text is read as the grammar reads it. -/
def IsNestedWithin (n : Nat) (s : List Char) : Prop :=
  ∀ inner, queryAround inner n s = query s

/-- A reader that reads nothing is noticed where it is used. -/
example : ¬ IsNestedWithin 1 ['(', '(', 'a', ')', ')'] := fun h =>
  absurd (congrArg (fun out => out.result.isSome) (h Reader.fail)) (by decide)

/-- **An accepted text is nested no deeper than its parentheses are high.** -/
theorem isNestedWithin_of_clause? {n : Nat} {c : Clause} (h : clause? s = .ok c)
    (hn : Role.height 0 (roles s) ≤ n) : IsNestedWithin n s := by
  intro inner
  obtain ⟨r, htakes⟩ := clause?_eq_ok_iff.1 h
  obtain ⟨m, hc, hend, -⟩ := takes_query.1 htakes
  -- the reader of the grammar stops at the length of the text, which is high enough
  have hlength := height_roles_le_length s 0
  have hk : Role.height 0 (roles (Text.skipBlank s)) ≤ min n s.length := by
    rw [roles_skipBlank]
    omega
  have hsum : s.length - min n s.length + min n s.length = s.length := by omega
  have hcongr := clauseAround_congr_of_takes (clauseAround inner (n - min n s.length))
    (min n s.length) (Nat.zero_add _) hk (hsum.symm ▸ hc) (.inl hend)
  rw [hsum, clauseAround_add] at hcongr
  have hadd : n - min n s.length + (min n s.length + 1) = n + 1 := by omega
  rw [hadd] at hcongr
  exact congr_bind (congr_padded hcongr) fun _ _ _ => rfl

/-! ### Accepted texts -/

/-- **What is accepted is no larger than its size says:** every leaf is a term of the
text, and no group is entered inside of as many groups as the brackets are deep. -/
theorem within_size_of_filter? {column : Option Column} {text : String} {f : Filter}
    (h : filter? column text = .ok (some f)) :
    f.leafCount ≤ (Size.of text).terms ∧ IsNestedWithin (Size.of text).depth text.toList ∧
      f.groupDepth ≤ (Size.of text).depth := by
  obtain ⟨hfinished, -, hfault⟩ := accepted_of_filter? h
  obtain ⟨hleaves, hgroups⟩ := measures_of_filter? h
  obtain ⟨c, hc, -⟩ := exists_clause_of_filter? h
  have hmirrors := mirrors_self hfinished
  refine ⟨?_, isNestedWithin_of_clause? hc (height_roles_le_depth hfinished hfault ⟨0, 0⟩), ?_⟩
  · have hcount := hmirrors.count_le
    rw [Nat.mul_one] at hcount
    exact Nat.le_trans hleaves hcount
  · exact Nat.le_trans hgroups (hmirrors.reach_le hfault ⟨0, 0⟩)

/-- Three leaves, four terms with the suffix, and brackets of depth three, one of them of a
range. -/
theorem within_size_of_group :
    let text := "f:(a (\"b)c\" OR g:[d TO e]))~1"
    ∃ f, filter? none text = .ok (some f) ∧ (Size.of text).terms = 4 ∧ (Size.of text).depth = 3 ∧
      f.leafCount ≤ 4 ∧ IsNestedWithin 3 text.toList ∧ f.groupDepth ≤ 3 := by
  intro text
  obtain ⟨f, hf⟩ : ∃ f, filter? none text = .ok (some f) :=
    exists_of_isSome_join (by decide +kernel)
  have hterms : (Size.of text).terms = 4 := by decide +kernel
  have hdepth : (Size.of text).depth = 3 := by decide +kernel
  have h := within_size_of_filter? hf
  rw [hterms, hdepth] at h
  exact ⟨f, hf, hterms, hdepth, h⟩

end Grammar
end SearchFilter
