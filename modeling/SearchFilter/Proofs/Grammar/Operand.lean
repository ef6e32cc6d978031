/-
# Operands behind runs of signs

A text *stands* for a clause when the grammar reads it as one operand, whatever word boundary
follows (`Stands`). So do simple words, phrases, atoms behind a field, and the copies of a value
behind several fields (`stands_copies`). Any run of signs may be put in front:

| run | clause |
| --- | --- |
| an odd number of `-` and `!` | `mustNot` of the operand |
| an even number of them, and a `+` | `must` of the operand |
| any other | the operand |

Where one of several fields is named as `NOT`, their copies are no clause
(`not_of_clause?_copies`).
-/

import SearchFilter.Proofs.Compiler.Naming
import SearchFilter.Proofs.Grammar.Nesting

namespace SearchFilter

open Grammar

/-- A filter behind a run of prefixes: an odd number of negations negates it, and otherwise any
`+` requires it. -/
def Filter.prefixed (ps : List Prefix) (f : Filter) : Filter :=
  if ps.count .mustNot % 2 = 1 then .mustNot f
  else if ps.contains .must then .must f
  else f

namespace Grammar

open Query (AtBoundary copies endsWord isSign joined_eq_others others others_cons)
open Reader

/-! ### Runs of signs -/

/-- The prefix that a sign is read as. -/
def signOf (x : Char) : Prefix := if x = '+' then .must else .mustNot

/-- Of the signs only `+` requires. -/
theorem signOf_eq_must_iff (x : Char) : signOf x = .must ↔ x = '+' := by
  rw [signOf]
  split <;> simp_all

/-- A run of signs is read as prefixes, one for each. -/
theorem takesAll_signs {g s : List Char} (hg : ∀ x ∈ g, isSign x = true)
    (hs : Text.skipBlank s = s) : signPrefix.TakesAll (g ++ s) (g.map signOf) s := by
  induction g with
  | nil => exact .nil s
  | cons x g ih =>
    obtain ⟨hx, hg⟩ := List.forall_mem_cons.1 hg
    have hskip : Text.skipBlank (g ++ s) = g ++ s := by
      cases g with
      | nil => exact hs
      | cons y g => exact skipBlank_of_head (by rintro _ ⟨⟩; exact isBlank_of_isSign (hg _ (by simp)))
    have hprefix := takes_signPrefix_of_sign hx (signOf_eq_must_iff x) (g ++ s)
    rw [hskip] at hprefix
    exact .cons hprefix (ih hg)

variable {p : Reader Clause} {c : Clause} {s g : List Char}

/-- Prefixes mean the same for a clause and for its filter. -/
theorem Clause.lower_prefixed {column : Option Column} {f : Filter} (ps : List Prefix)
    (h : c.lower column = .ok f) : (c.prefixed ps).lower column = .ok (f.prefixed ps) := by
  rw [Clause.prefixed, Filter.prefixed]
  split
  · rw [Clause.lower, h]
    rfl
  · split
    · rw [Clause.lower, h]
      rfl
    · exact h

/-- A flush text is so behind signs. -/
theorem IsFlush.signs (h : IsFlush s) (hg : ∀ x ∈ g, isSign x = true) : IsFlush (g ++ s) := by
  cases g with
  | nil => exact h
  | cons x g => exact isFlush_cons (isBlank_of_isSign (hg x (by simp))) _

/-- An operand behind a run of signs. -/
theorem Accepts.signs (hg : ∀ x ∈ g, isSign x = true) (hs : IsFlush s)
    (hsign : ∀ r, AtBoundary r → signPrefix.Fails (s ++ r)) (h : Accepts p .operand c s) :
    Accepts p .factor (c.prefixed (g.map signOf)) (g ++ s) := fun r hr => by
  have hflush := hs.signs hg r
  rw [List.append_assoc] at hflush ⊢
  exact takes_unary_of_modified hflush (takesAll_signs hg (hs r)) (hsign r hr)
    (takes_modified_of_operand (h r hr) hr)

/-- The text is read as one operand. -/
structure Stands (c : Clause) (s : List Char) : Prop where
  flush : IsFlush s
  unsigned : ∀ r, AtBoundary r → signPrefix.Fails (s ++ r)
  accepts : ∀ n, Accepts (clauseWithin (n + 1)) .operand c s

/-- What starts with no blank is not empty. -/
theorem IsFlush.exists_length (h : IsFlush s) : ∃ n, s.length = n + 1 := by
  refine Nat.exists_eq_succ_of_ne_zero fun hzero => ?_
  rw [List.length_eq_zero_iff.1 hzero] at h
  exact absurd (h [' ']) (by decide)

/-- **An operand behind a run of signs is read as its clause under their prefixes.** -/
theorem Stands.clause?_signs (h : Stands c s) (hg : ∀ x ∈ g, isSign x = true) :
    clause? (g ++ s) = .ok (c.prefixed (g.map signOf)) := by
  have hflush := h.flush.signs hg
  obtain ⟨n, hn⟩ := hflush.exists_length
  refine clause?_of_accepts hflush (.conjunction (isSound_clauseWithin _) (.factor ?_))
  rw [hn]
  exact (h.accepts n).signs hg h.flush h.unsigned

/-- Signs show no points. -/
theorem shows_signs (h : Shows 0 s) (hg : ∀ x ∈ g, isSign x = true) : Shows 0 (g ++ s) := by
  induction g with
  | nil => exact h
  | cons x g ih =>
    obtain ⟨hx, hg⟩ := List.forall_mem_cons.1 hg
    refine (ih hg).cons (Query.next_of_isSign hx) ?_
    rintro rfl
    exact absurd hx (by decide)

/-! ### Words, phrases and atoms behind a field -/

/-- A letter, a digit, or any other character that means nothing in a query. -/
def isSimple (c : Char) : Bool :=
  !(Text.isBlank c || isDelimiter c || isSign c || ['*', '?', '.', '<', '>', '&', '|'].contains c)

/-- A word of such characters. -/
structure IsSimple (w : List Char) : Prop where
  ne_nil : w ≠ []
  all : ∀ c ∈ w, isSimple c = true

/-- No simple character ends a term. -/
theorem not_delimiter_of_isSimple {x : Char} (h : isSimple x = true) :
    ¬ (Text.isBlank x || isDelimiter x) = true := by
  simp only [isSimple, Bool.not_eq_true', Bool.or_eq_false_iff] at h
  simp [h]

/-- A simple character is none that is not. -/
theorem ne_of_isSimple {x y : Char} (h : isSimple x = true) (hy : isSimple y = false) : x ≠ y := by
  rintro rfl
  exact absurd h (by simp [hy])

/-- No simple character is a sign. -/
theorem isSign_of_isSimple {x : Char} (h : isSimple x = true) : isSign x = false := by
  simp only [isSimple, Bool.not_eq_true', Bool.or_eq_false_iff] at h
  exact h.1.2

section
variable {w r : List Char}

/-- A simple word is a term. -/
theorem IsSimple.isTerm (h : IsSimple w) : IsTerm w :=
  isTerm_of_forall h.ne_nil fun x hx => not_delimiter_of_isSimple (h.all x hx)

/-- A simple word shows no points. -/
theorem IsSimple.shows (h : IsSimple w) : Shows 0 w :=
  shows_of_not_mem (h.isTerm.passes .bare).after fun hpoint => ne_of_isSimple (h.all _ hpoint) rfl rfl

/-- Behind a field it is a term, since no comparison starts with it. -/
theorem IsSimple.writesAtom (h : IsSimple w) : WritesAtom (.term w) w := by
  refine .term h.isTerm fun c hc => ?_
  have hc := h.all c (List.mem_of_mem_head? hc)
  exact ⟨ne_of_isSimple hc (by decide), ne_of_isSimple hc (by decide)⟩

/-- A simple word that is no operator is open in front of the end of a word. -/
theorem IsSimple.isOpen (h : IsSimple w) (hfree : isReserved w = false) (hr : AtBoundary r) :
    IsOpen (w ++ r) where
  head x hx := by
    obtain ⟨y, w, rfl⟩ := List.exists_cons_of_ne_nil h.ne_nil
    obtain rfl : y = x := by simpa using hx
    have hy := h.all y (List.mem_cons_self ..)
    have hnot := not_delimiter_of_isSimple hy
    rw [Bool.not_eq_true, Bool.or_eq_false_iff] at hnot
    exact ⟨hnot.1, isSign_of_isSimple hy⟩
  free := by rw [h.isTerm.spanTerm_append (endsTerm_of_atBoundary hr)]; exact hfree

/-- A simple word that is no operator plays a role. -/
theorem IsSimple.isPlayed (h : IsSimple w) (hfree : isReserved w = false) : IsPlayed w :=
  isPlayed_word h.isTerm hfree fun c hc => isSign_of_isSimple (h.all c (List.mem_of_mem_head? hc))

/-- A simple word that is no operator. -/
theorem IsSimple.stands (h : IsSimple w) (hfree : isReserved w = false) :
    Stands (.leaf none (.term w)) w where
  flush := h.isTerm.isFlush
  unsigned _ hr := (h.isOpen hfree hr).fails_signPrefix
  accepts _ _ hr := h.isTerm.takes_leaf hfree hr

end

/-- A phrase stands for itself. -/
theorem PhraseText.stands {q u : List Char} (h : PhraseText q u) :
    Stands (.leaf none (.phrase q)) u where
  flush := by
    cases h
    exact isFlush_cons (by decide) _
  unsigned r hr := (WritesLeaf.phrase h).isOpen hr |>.fails_signPrefix
  accepts _ _ hr := (WritesLeaf.phrase h).takes hr

/-- A field that is not read as `NOT`. -/
structure IsNameable (field : List Char) : Prop where
  text : FieldText field
  free : Text.sameWord field ['N', 'O', 'T'] = false

/-- A field that is no operator is not read as `NOT`. -/
theorem IsFree.isNameable {field : List Char} (h : IsFree field) : IsNameable field where
  text := h.text
  free := by
    have hfree := h.free
    simp only [isReserved, Bool.or_eq_false_iff] at hfree
    exact hfree.1.1.2

/-- An atom behind a field that is not read as `NOT` stands for itself. -/
theorem WritesAtom.stands {field u : List Char} {a : Atom} (h : WritesAtom a u)
    (hf : IsNameable field) : Stands (.leaf (some field) a) (field ++ ':' :: u) where
  flush := hf.text.isTerm.isFlush.append _
  unsigned r _ := by
    rw [List.append_assoc]
    exact hf.text.fails_signPrefix hf.free _
  accepts _ r hr := by
    rw [List.append_assoc, takes_orElse]
    exact .inl (h.takes hf.text hr)

/-- Without a point in its name and its value an atom shows none. -/
theorem FieldText.shows_zero {field u : List Char} (h : FieldText field) (hpoint : '.' ∉ field)
    (hu : Shows 0 u) : Shows 0 (field ++ ':' :: u) := by
  have hshows := h.shows_append hu
  rwa [List.count_eq_zero.2 hpoint] at hshows

/-! ### Copies -/

section
variable {a : Atom} {value name : List Char} {names : List (List Char)}

/-- Behind an alternative a word ends. -/
theorem atBoundary_others (names : List (List Char)) (r : List Char) :
    AtBoundary (others value names ++ ')' :: r) := by
  cases names with
  | nil => simp [others, endsWord]
  | cons f names =>
    rw [others_cons]
    simp [endsWord]
    decide

/-- No clause starts with a field that is read as `NOT`. -/
theorem FieldText.fails_conjunction {field : List Char} (h : FieldText field)
    (hnot : Text.sameWord field ['N', 'O', 'T'] = true) (t : List Char) :
    (conjunction p).Fails (field ++ ':' :: t) := fails_of_not_takes fun _ _ hr => by
  obtain ⟨_, _, hunary, -⟩ := takes_bind.1 hr
  exact (fails_unary_of_modified (h.isTerm.skipBlank_append _)
    (.cons (h.takes_signPrefix hnot t) (.nil _)) (fails_signPrefix_colon t)
    (fails_modified_colon t)).not_takes hunary

/-- An alternative is read up to the next one, or up to the closing parenthesis. -/
theorem takes_alternative {n : Nat} (ha : WritesAtom a value) (hname : IsNameable name)
    (names : List (List Char)) (r : List Char) :
    (conjunction (clauseWithin n)).Takes
      (name ++ ':' :: (value ++ (others value names ++ ')' :: r))) (.leaf (some name) a)
      (Text.skipBlank (others value names ++ ')' :: r)) := by
  have hnext : (nextUnary (clauseWithin n)).Fails
      (Text.skipBlank (others value names ++ ')' :: r)) := by
    cases names with
    | nil => exact fails_nextUnary_of_stops (.inr ⟨r, rfl⟩)
    | cons f names =>
      rw [others_cons]
      exact fails_nextUnary_of_or isKeyword_or
  have hconjunction := takes_conjunction_of_accepts (isSound_clauseWithin n)
    (.factor (ha.accepts hname.text hname.free)) (atBoundary_others names r) hnext
  rwa [List.append_assoc] at hconjunction

/-- Alternatives are read up to the closing parenthesis, or up to one whose field is read as
`NOT`. -/
theorem exists_takesAll_others {n : Nat} (ha : WritesAtom a value)
    (hnames : ∀ f ∈ names, FieldText f) (r : List Char) :
    ∃ cs m, (nextConjunction (clauseWithin n)).TakesAll
        (Text.skipBlank (others value names ++ ')' :: r)) cs m ∧
      (nextConjunction (clauseWithin n)).Fails m ∧
      ((∀ f ∈ names, IsNameable f) ∧ cs = names.map (fun f => .leaf (some f) a) ∧ m = ')' :: r ∨
        (∃ f ∈ names, ¬ IsNameable f) ∧ (Text.skipBlank m).head? ≠ some ')') := by
  induction names with
  | nil =>
    have hfails : (nextConjunction (clauseWithin n)).Fails (')' :: r) :=
      fails_of_not_takes fun _ _ hr => by
        obtain ⟨_, _, hor, -⟩ := takes_bind.1 hr
        exact (fails_keyword_of_stops (.inr ⟨r, rfl⟩)).not_takes hor
    exact ⟨[], ')' :: r, .nil _, hfails, .inl ⟨by simp, rfl, rfl⟩⟩
  | cons f names ih =>
    obtain ⟨hf, hnames⟩ := List.forall_mem_cons.1 hnames
    have hkeyword := isKeyword_or.takes_padded (t := f ++ ':' :: (value ++ (others value names ++ ')' :: r)))
      (hf.isTerm.skipBlank_append _)
    have hskip : Text.skipBlank (others value (f :: names) ++ ')' :: r) =
        ['O', 'R'] ++ ' ' :: (f ++ ':' :: (value ++ (others value names ++ ')' :: r))) := by
      rw [others_cons]
      simp [Text.skipBlank, show Text.isBlank ' ' = true by decide,
        show Text.isBlank 'O' = false by decide]
    rw [hskip]
    cases hnot : Text.sameWord f ['N', 'O', 'T'] with
    | true =>
      -- the repetition ends in front of a name that is read as a prefix
      have hblocked : ¬ IsNameable f := fun h => by simp [h.free] at hnot
      refine ⟨[], _, .nil _, fails_of_not_takes fun _ _ hr => ?_,
        .inr ⟨⟨f, List.mem_cons_self .., hblocked⟩, ?_⟩⟩
      · obtain ⟨_, _, hor, hc⟩ := takes_bind.1 hr
        obtain ⟨-, rfl⟩ := hkeyword.unique hor
        exact (hf.fails_conjunction hnot _).not_takes hc
      · simp [Text.skipBlank, show Text.isBlank 'O' = false by decide]
    | false =>
      have hname : IsNameable f := ⟨hf, hnot⟩
      obtain ⟨cs, m, htakes, hfails, hm⟩ := ih hnames
      have hfirst : (nextConjunction (clauseWithin n)).Takes _ (.leaf (some f) a) _ :=
        takes_bind.2 ⟨(), _, hkeyword, takes_alternative ha hname names r⟩
      refine ⟨_ :: cs, m, .cons hfirst htakes, hfails, hm.imp ?_ ?_⟩
      · rintro ⟨hfree, rfl, hrest⟩
        exact ⟨List.forall_mem_cons.2 ⟨hname, hfree⟩, rfl, hrest⟩
      · rintro ⟨⟨g, hg, hblocked⟩, hrest⟩
        exact ⟨⟨g, List.mem_cons_of_mem f hg, hblocked⟩, hrest⟩

/-- So is the first one with the others. -/
theorem exists_takes_disjunction {n : Nat} (ha : WritesAtom a value) (hname : IsNameable name)
    (hnames : ∀ f ∈ names, FieldText f) (r : List Char) :
    ∃ c m, (disjunction (clauseWithin n)).Takes
        (name ++ ':' :: (value ++ (others value names ++ ')' :: r))) c m ∧
      ((∀ f ∈ names, IsNameable f) ∧ c = .anyOf a name names ∧ m = ')' :: r ∨
        (∃ f ∈ names, ¬ IsNameable f) ∧ (Text.skipBlank m).head? ≠ some ')') := by
  obtain ⟨cs, m, htakes, hfails, hm⟩ := exists_takesAll_others (n := n) ha hnames r
  have hmany := takes_many
    (fun _ _ _ h => length_lt_of_takes_nextConjunction (isSound_clauseWithin n) h) htakes hfails
  refine ⟨cs.foldl .or (.leaf (some name) a), m, ?_, hm.imp_left ?_⟩
  · rw [disjunction_eq]
    simp only [takes_bind, takes_pure]
    exact ⟨_, _, takes_alternative ha hname names r, cs, m, hmany, rfl, rfl⟩
  · rintro ⟨hfree, rfl, hrest⟩
    exact ⟨hfree, List.foldl_map, hrest⟩

/-- **The copies of a value are read as its alternatives.** -/
theorem stands_copies (ha : WritesAtom a value) (hnames : ∀ f ∈ name :: names, IsNameable f) :
    Stands (.anyOf a name names) (copies (name :: names) value) := by
  obtain ⟨hname, hnames⟩ := List.forall_mem_cons.1 hnames
  cases names with
  | nil => exact ha.stands hname
  | cons f names =>
    rw [Query.copies_eq_joined (by simp), joined_eq_others]
    refine ⟨isFlush_cons (by decide) _, fun _ _ => (isOpen_opening _).fails_signPrefix, fun n r _ => ?_⟩
    obtain ⟨c, m, htakes, ⟨-, rfl, rfl⟩ | ⟨⟨g, hg, hblocked⟩, -⟩⟩ :=
      exists_takes_disjunction (n := n) ha hname (fun g hg => (hnames g hg).text) r
    · have hinner : (clauseWithin (n + 1)).Takes _ _ _ := htakes
      rw [← hname.text.isTerm.skipBlank_append] at hinner
      refine takes_operand_of_group (takes_group_of_inner (m := ')' :: r) ?_ rfl)
      simpa using hinner
    · exact absurd (hnames g hg) hblocked

/-- Where neither the fields nor the value has a point, the copies show none. -/
theorem shows_copies (hvalue : Shows 0 value) (hnames : ∀ f ∈ name :: names, FieldText f ∧ '.' ∉ f) :
    Shows 0 (copies (name :: names) value) := by
  have hothers {names : List (List Char)} (hnames : ∀ f ∈ names, FieldText f ∧ '.' ∉ f) :
      Shows 0 (others value names ++ [')']) := by
    induction names with
    | nil => exact shows_of_not_mem rfl (by simp [others])
    | cons f names ih =>
      obtain ⟨⟨hf, hpoint⟩, hnames⟩ := List.forall_mem_cons.1 hnames
      have hor : Shows 0 [' ', 'O', 'R', ' '] := shows_of_not_mem rfl (by decide)
      simpa [others_cons] using hor.append ((hf.shows_zero hpoint hvalue).append (ih hnames))
  obtain ⟨⟨hname, hpoint⟩, hnames⟩ := List.forall_mem_cons.1 hnames
  cases names with
  | nil => exact hname.shows_zero hpoint hvalue
  | cons f names =>
    rw [Query.copies_eq_joined (by simp), joined_eq_others]
    simpa using ((hname.shows_zero hpoint hvalue).append (hothers hnames)).cons (c := '(') rfl
      (by decide)

/-- **Copies are a clause only where no field is read as `NOT`.** -/
theorem isNameable_of_clause?_copies (ha : WritesAtom a value)
    (hnames : ∀ f ∈ name :: names, FieldText f) (h : clause? (copies (name :: names) value) = .ok c) :
    ∀ f ∈ name :: names, IsNameable f := by
  obtain ⟨hname, hnames⟩ := List.forall_mem_cons.1 hnames
  cases names with
  | nil =>
    have hfree : Text.sameWord name ['N', 'O', 'T'] = false :=
      Bool.eq_false_iff.2 fun hnot => clause?_ne_ok_of_not hname hnot value c h
    exact List.forall_mem_singleton.2 ⟨hname, hfree⟩
  | cons f names =>
    -- several copies stand in a group, so that one was read
    rw [Query.copies_eq_joined (by simp), joined_eq_others] at h
    obtain ⟨_, hquery⟩ := clause?_eq_ok_iff.1 h
    obtain ⟨_, hdisjunction, -⟩ := takes_query.1 hquery
    obtain ⟨_, _, hconjunction, -⟩ := takes_bind.1 hdisjunction
    obtain ⟨_, _, hunary, -⟩ := takes_bind.1 hconjunction
    simp only [unary, takes_padded, takes_bind] at hunary
    obtain ⟨_, ⟨ps, m, hps, _, _, hmodified, -⟩, -⟩ := hunary
    obtain rfl := many_eq_of_fails (isOpen_opening _).fails_signPrefix hps
    obtain ⟨c, r, hgroup⟩ := takes_group_of_opening hmodified
    simp only [group, takes_labelled, takes_bind, takes_just, takes_padded, takes_pure] at hgroup
    obtain ⟨_, _, ⟨hopening, rfl⟩, _, _, ⟨m, hinner, rfl⟩, _, _, ⟨hclosing, rfl⟩, -⟩ := hgroup
    obtain ⟨-, rfl⟩ := List.cons.inj hopening
    have htakes : (disjunction (clauseWithin _)).Takes _ _ m := hinner
    rw [hname.isTerm.skipBlank_append] at htakes
    have hfree : Text.sameWord name ['N', 'O', 'T'] = false := Bool.eq_false_iff.2 fun hnot => by
      obtain ⟨_, _, hconjunction, -⟩ := takes_bind.1 htakes
      exact (hname.fails_conjunction hnot _).not_takes hconjunction
    obtain ⟨_, m', htakes', hm⟩ := exists_takes_disjunction ha ⟨hname, hfree⟩ hnames []
    obtain ⟨-, rfl⟩ := htakes.unique htakes'
    rcases hm with ⟨hothers, -⟩ | ⟨-, hm⟩
    · exact List.forall_mem_cons.2 ⟨⟨hname, hfree⟩, hothers⟩
    · rw [hclosing] at hm
      exact absurd rfl hm

end

end Grammar
end SearchFilter
