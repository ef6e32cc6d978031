/-
# Queries between parentheses

What is a query by itself is read as the same clause between parentheses, whatever follows
them (`takes_group_of_clause?`); so behind a field name it is a group of this field
(`filter?_of_fieldGroup`).

Two texts *fork* below some groups (`Forks`) when they are the same until these groups are
closed, and then the one ends where the other has a parenthesis. The readers of the grammar carry
this along:

| reader | groups before | groups behind |
| --- | --- | --- |
| `(` | `n` | `n + 1` |
| `)` | `n + 1` | `n` |
| everything that stays inside of words | `n` | `n` |
| a clause | `n` | `n` |
-/

import SearchFilter.Proofs.Grammar.Respacing

namespace SearchFilter
namespace Grammar

open Query
open Reader

/-! ### Clauses inside of words -/

section
variable {L : List Char → List Char → Prop} {s t u : List Char} {p : Reader Clause}

/-- A field name with its colon is passed in both texts. -/
theorem SameTail.of_field {field : List Char} (h : SameTail L .bare s t) (hf : FieldText field)
    (hs : s = field ++ ':' :: u) : ∃ u', t = field ++ ':' :: u' ∧ SameTail L .bare u u' := by
  obtain @⟨v, x, y, hv, hx, hy, h⟩ := h
  obtain ⟨w, rfl, rfl, hw⟩ := hv.cut hx hf.passes_colon.unbroken hf.passes_colon.after
    (hs.trans (List.append_cons ..))
  exact ⟨w ++ y, by simp, .mk hw hx hy h⟩

/-- Where a word ends in one text, it ends in the other. -/
theorem boundary_carries : boundary.Carries (SameTail L .bare) (SameTail L .bare) := by
  intro s t _ m hst hp
  obtain ⟨rfl, hs⟩ := takes_boundary hp
  exact ⟨t, takes_boundary_of_atBoundary (hst.head (fun _ => id) hs), hst⟩

variable [Std.Symm L]

/-- A clause behind its prefixes carries along what its groups do. -/
theorem modified_carries (h : (group p).Carries (SameTail L .bare) (SameTail L .bare)) :
    (modified p).Carries (SameTail L .bare) (SameTail L .bare) := by
  have hphrase := carries_phrase (L := L) (.inl rfl)
  have hfielded : (fielded p).Carries (SameTail L .bare) (SameTail L .bare) :=
    fielded_carries (fun hf hst => hst.of_field hf) h carries_range carries_comparison hphrase
      carries_term
  have hunfielded : (unfielded p).Carries (SameTail L .bare) (SameTail L .bare) :=
    unfielded_carries h carries_range hphrase carries_bareTerm
  exact .bind (.orElse hfielded hunfielded) fun _ =>
    .bind (carries_fuzzySuffix.opt fun _ _ => id) fun _ =>
    .bind (carries_boostSuffix.opt fun _ _ => id) fun _ =>
    .bind boundary_carries fun _ => .pure _

end

/-! ### Texts that fork -/

/-- Texts that are the same until as many groups are closed as the number says; then the one ends,
and in the other `r` follows behind a parenthesis. -/
inductive Forks (r : List Char) : Nat → List Char → List Char → Prop
  | left : Forks r 0 [] (')' :: r)
  | right : Forks r 0 (')' :: r) []
  | blank {n : Nat} {c : Char} {s t : List Char} : Text.isBlank c = true → Forks r n s t →
    Forks r n (c :: s) (c :: t)
  | opening {n : Nat} {s t : List Char} : Forks r (n + 1) s t → Forks r n ('(' :: s) ('(' :: t)
  | closing {n : Nat} {s t : List Char} : Forks r n s t → Forks r (n + 1) (')' :: s) (')' :: t)
  | word {n : Nat} {w s t : List Char} : IsWord w → AtBoundary s → AtBoundary t →
    Forks r n s t → Forks r n (w ++ s) (w ++ t)

variable {r s t m : List Char} {n : Nat} {p : Reader Clause}

instance : Std.Symm (Forks r n) where
  symm := by
    intro s t h
    induction h with
    | left => exact .right
    | right => exact .left
    | blank hc _ ih => exact .blank hc ih
    | opening _ ih => exact .opening ih
    | closing _ ih => exact .closing ih
    | word hw hs ht _ ih => exact .word hw ht hs ih

namespace Forks

/-- From every place on, texts that fork go on alike. -/
theorem sameTail (h : Forks r n s t) : SameTail (Forks r n) .bare s t := by
  have nil {s t : List Char} (hs : AtBoundary s) (ht : AtBoundary t) (h : Forks r n s t) :
      SameTail (Forks r n) .bare s t := .mk isTail_nil hs ht h
  cases h with
  | left => exact nil atBoundary_nil (atBoundary_cons.2 rfl) .left
  | right => exact nil (atBoundary_cons.2 rfl) atBoundary_nil .right
  | @blank _ c _ _ hc h =>
    have hends : endsWord c = true := by rw [endsWord, hc, Bool.true_or, Bool.true_or]
    exact nil (atBoundary_cons.2 hends) (atBoundary_cons.2 hends) (.blank hc h)
  | opening h => exact nil (atBoundary_cons.2 rfl) (atBoundary_cons.2 rfl) (.opening h)
  | closing h => exact nil (atBoundary_cons.2 rfl) (atBoundary_cons.2 rfl) (.closing h)
  | word hw hs ht h => exact .mk (isTail_of_isWord hw) hs ht h

/-- Texts with the same rest of a word in front of a fork fork. -/
theorem of_sameTail (h : SameTail (Forks r n) .bare s t) : Forks r n s t := by
  obtain @⟨v, s, t, hv, hs, ht, h⟩ := h
  by_cases hne : v = []
  · rw [hne]
    exact h
  · exact .word ⟨hne, hv.unbroken, hv.finished⟩ hs ht h

/-- What stays inside of words carries along that texts fork. -/
theorem carries {α : Type} {p : Reader α}
    (h : p.Carries (SameTail (Forks r n) .bare) (SameTail (Forks r n) .bare)) :
    p.Carries (Forks r n) (Forks r n) := h.mono (fun _ _ => sameTail) fun _ _ => of_sameTail

/-- If one text starts with an opening parenthesis, so does the other, and they fork below one more
group. -/
theorem of_opening (h : Forks r n s t) (hs : s = '(' :: m) :
    ∃ m', t = '(' :: m' ∧ Forks r (n + 1) m m' := by
  cases h with
  | left => cases hs
  | right | closing => exact absurd (List.cons.inj hs).1 (by decide)
  | blank hc =>
    obtain ⟨rfl, -⟩ := List.cons.inj hs
    exact absurd hc (by decide)
  | @opening _ s t h =>
    obtain ⟨-, rfl⟩ := List.cons.inj hs
    exact ⟨t, rfl, h⟩
  | word hw => exact absurd hs (append_ne_of_isWord hw rfl)

/-- If one text closes a group, so does the other, and they fork below one group less. -/
theorem of_closing (h : Forks r (n + 1) s t) (hs : s = ')' :: m) :
    ∃ m', t = ')' :: m' ∧ Forks r n m m' := by
  cases h with
  | blank hc =>
    obtain ⟨rfl, -⟩ := List.cons.inj hs
    exact absurd hc (by decide)
  | opening => exact absurd (List.cons.inj hs).1 (by decide)
  | @closing _ s t h =>
    obtain ⟨-, rfl⟩ := List.cons.inj hs
    exact ⟨t, rfl, h⟩
  | word hw => exact absurd hs (append_ne_of_isWord hw rfl)

/-- Where the one text has ended, the other one is at the parenthesis. -/
theorem eq_of_nil (h : Forks r 0 s t) (hs : s = []) : t = ')' :: r := by
  cases h with
  | left => rfl
  | right | blank | opening => cases hs
  | word hw => exact absurd (List.append_eq_nil_iff.1 hs).1 hw.ne_nil

/-- Blanks are in both texts. -/
theorem skipBlank (h : Forks r n s t) : Forks r n (Text.skipBlank s) (Text.skipBlank t) := by
  induction h with
  | left => exact .left
  | right => exact .right
  | blank hc _ ih =>
    rw [Text.skipBlank, Text.skipBlank, List.dropWhile_cons_of_pos hc, List.dropWhile_cons_of_pos hc]
    exact ih
  | opening h => exact .opening h
  | closing h => exact .closing h
  | word hw hs ht h =>
    obtain ⟨c, v, rfl, hc⟩ := exists_cons_of_isWord hw
    have hflush := isFlush_cons (isBlank_eq_false_of_not_endsWord hc) v
    rw [hflush, hflush]
    exact .word hw hs ht h

/-- Blanks around a reader play no part where texts fork. -/
theorem carries_padded {α : Type} {p : Reader α} (h : p.Carries (Forks r n) (Forks r n)) :
    (Reader.padded p).Carries (Forks r n) (Forks r n) :=
  (h.padded fun _ _ => skipBlank).mono (fun _ _ => skipBlank) fun _ _ => id

/-- A group is read alike from texts that fork, if clauses are below one more group. -/
theorem carries_group (h : p.Carries (Forks r (n + 1)) (Forks r (n + 1))) :
    (group p).Carries (Forks r n) (Forks r n) := by
  have hopening : (just '(').Carries (Forks r n) (Forks r (n + 1)) := by
    intro s t c m hst hs
    obtain ⟨rfl, rfl⟩ := takes_just.1 hs
    obtain ⟨m', rfl, hm⟩ := hst.of_opening rfl
    exact ⟨m', takes_just.2 ⟨rfl, rfl⟩, hm⟩
  have hclosing : (just ')').Carries (Forks r (n + 1)) (Forks r n) := by
    intro s t c m hst hs
    obtain ⟨rfl, rfl⟩ := takes_just.1 hs
    obtain ⟨m', rfl, hm⟩ := hst.of_closing rfl
    exact ⟨m', takes_just.2 ⟨rfl, rfl⟩, hm⟩
  exact Carries.labelled (.bind hopening fun _ => .bind (carries_padded h) fun _ =>
    .bind hclosing fun _ => .pure _)

/-- A prefix is read alike from texts that fork. -/
theorem carries_signPrefix : signPrefix.Carries (Forks r n) (Forks r n) := by
  refine carries_padded (.choice ?_)
  simp only [List.forall_mem_cons]
  exact ⟨(carries (carries_just rfl rfl)).map _, (carries (carries_just rfl rfl)).map _,
    (carries (carries_just rfl rfl)).map _, (carries (carries_keyword _ _)).map _, by simp⟩

/-- A clause with its prefixes is read alike from texts that fork, if clauses in groups are. -/
theorem carries_unary (h : p.Carries (Forks r (n + 1)) (Forks r (n + 1))) :
    (unary p).Carries (Forks r n) (Forks r n) := by
  have hsigns : (Reader.many signPrefix).Carries (Forks r n) (Forks r n) :=
    (carries_signPrefix.many fun _ _ _ => length_lt_of_takes_signPrefix).mono
      (fun _ _ => id) fun _ _ => And.left
  have hmodified : (modified p).Carries (Forks r n) (Forks r n) :=
    carries (modified_carries ((carries_group h).mono (fun _ _ => of_sameTail) fun _ _ => sameTail))
  exact carries_padded (.bind hsigns fun _ => .bind hmodified fun _ => .pure _)

/-- **Clauses nested to any depth are read alike from texts that fork,** up to where they do. -/
theorem carries_clauseWithin (k n : Nat) : (clauseWithin k).Carries (Forks r n) (Forks r n) := by
  induction k generalizing n with
  | zero => exact fun _ _ _ _ _ h => absurd h (show (clauseWithin 0).Fails _ from rfl).not_takes
  | succ k ih =>
    have hkeyword (word symbol : String) :
        (Reader.padded (keyword word symbol)).Carries (Forks r n) (Forks r n) :=
      carries_padded (carries (carries_keyword word symbol))
    have hp := isSound_clauseWithin k
    exact disjunction_carries hp (hkeyword _ _)
      (conjunction_carries hp (hkeyword _ _) (carries_unary (ih (n + 1))))

end Forks

/-! ### Queries between parentheses -/

/-- A text that closes its groups and leaves nothing open forks from itself behind it. -/
theorem forks_of_level {q : List Char} (hq : IsFinished q)
    (hlevel : Role.level n (roles q) = some 0) : Forks r n q (q ++ ')' :: r) := by
  induction q using word_induction generalizing n with
  | nil =>
    obtain rfl : n = 0 := by simpa using hlevel
    exact .left
  | blank c q hc ih =>
    rw [roles_blank hc] at hlevel
    exact .blank hc (ih ((isFinished_cons (next_of_isBlank hc) q).1 hq) hlevel)
  | opening q ih =>
    rw [roles_opening, Role.level_opening] at hlevel
    exact .opening (ih hq hlevel)
  | closing q ih =>
    rw [roles_closing] at hlevel
    cases n with
    | zero => cases hlevel
    | succ n => exact .closing (ih hq (by rwa [Role.level_closing] at hlevel))
  | word w q hcut ih =>
    obtain ⟨hw, hr⟩ := hcut.isFinished hq
    rw [hcut.roles_eq, Role.level_append, level_wordRoles] at hlevel
    have hboundary : AtBoundary (q ++ ')' :: r) := by
      cases q with
      | nil => exact atBoundary_cons.2 rfl
      | cons c q => exact atBoundary_cons.2 (atBoundary_cons.1 hcut.boundary)
    rw [List.append_assoc]
    exact .word ⟨hcut.ne_nil, hcut.unbroken, hw⟩ hcut.boundary hboundary (ih hr hlevel)

/-- **A query is read as the same clause between parentheses,** whatever stands behind them. -/
theorem takes_group_of_clause? {q : List Char} {c : Clause} (h : clause? q = .ok c) {k : Nat}
    (hk : q.length ≤ k) (r : List Char) :
    (group (clauseWithin (k + 1))).Takes ('(' :: (q ++ ')' :: r)) c r := by
  obtain ⟨ρ, hρ, hfits⟩ := (reads_of_clause? h).spans
  obtain ⟨u, hu, hfinished⟩ := (reads_of_clause? h).closes
  rw [roles_nil, List.append_nil] at hρ
  rw [List.append_nil] at hu
  have hforks : Forks r 0 q (q ++ ')' :: r) := forks_of_level (hu ▸ hfinished) (hρ ▸ hfits.level 0)
  obtain ⟨m, hc, hm⟩ := (clause?_eq_ok_iff_within hk).1 h
  obtain ⟨m', hc', hfork⟩ := Forks.carries_clauseWithin (k + 1) 0 hforks.skipBlank hc
  exact takes_group_of_inner hc' (hfork.skipBlank.eq_of_nil hm)

section
variable {q field : List Char} {c : Clause} {k : Nat}

/-- A query between parentheses is an operand. -/
theorem accepts_group_of_clause? (h : clause? q = .ok c) (hk : q.length ≤ k) :
    Accepts (clauseWithin (k + 1)) .operand c ('(' :: (q ++ [')'])) := fun r _ => by
  have hgroup := takes_group_of_clause? h hk r
  rw [List.cons_append, List.append_assoc]
  exact takes_operand_of_group hgroup

/-- A query between parentheses behind a field is an operand. -/
theorem accepts_fieldGroup_of_clause? (hf : FieldText field) (h : clause? q = .ok c)
    (hk : q.length ≤ k) : Accepts (clauseWithin (k + 1)) .operand (.fieldGroup field c)
      (field ++ ':' :: '(' :: (q ++ [')'])) := fun r _ => by
  have hgroup := takes_group_of_clause? h hk r
  simp only [List.append_assoc, List.cons_append]
  exact takes_fieldGroup_of_group hf hgroup

/-- A query in a group with a field. -/
theorem clause?_fieldGroup (hf : FieldText field)
    (hnot : Text.sameWord field ['N', 'O', 'T'] = false) (h : clause? q = .ok c) :
    clause? (field ++ ':' :: '(' :: (q ++ [')'])) = .ok (.fieldGroup field c) := by
  have hflush : IsFlush (field ++ ':' :: '(' :: (q ++ [')'])) := hf.isTerm.isFlush.append _
  have hlength : (field ++ ':' :: '(' :: (q ++ [')'])).length = field.length + q.length + 2 + 1 := by
    simp only [List.length_append, List.length_cons, List.length_nil]
    omega
  refine clause?_of_accepts hflush ?_
  rw [hlength]
  refine .conjunction (isSound_clauseWithin _) (.factor (.unsigned hflush (fun r _ => ?_)
    (accepts_fieldGroup_of_clause? hf h (by omega))))
  rw [List.append_assoc]
  exact hf.fails_signPrefix hnot _

end

/-! ### What a group binds -/

/-- The clause with a field for each of its leaves that has none and stands in no group with one. -/
def Clause.boundTo (field : List Char) : Clause → Clause
  | .leaf none a => .leaf (some field) a
  | .leaf (some f) a => .leaf (some f) a
  | .fieldGroup f c => .fieldGroup f c
  | .and l r => .and (l.boundTo field) (r.boundTo field)
  | .or l r => .or (l.boundTo field) (r.boundTo field)
  | .must c => .must (c.boundTo field)
  | .mustNot c => .mustNot (c.boundTo field)
  | .fuzzy c distance => .fuzzy (c.boundTo field) distance
  | .boost c power => .boost (c.boundTo field) power

/-- To bind the leaves of a clause is to lower it with their field. -/
theorem Clause.lower_boundTo (field : List Char) (column : Option Column) (c : Clause) :
    (c.boundTo field).lower column = c.lower (some (columnOf field)) := by
  induction c with
  | leaf f a => cases f <;> rfl
  | fieldGroup f c => rfl
  | and l r ihl ihr | or l r ihl ihr => simp only [boundTo, lower, ihl, ihr]
  | must c ih | mustNot c ih | fuzzy c _ ih | boost c _ ih => simp only [boundTo, lower, ih]

/-- **A group gives its field to the query in it:** what a text is with the field as the default
one, it is in a group with this field, whatever the default field is there. That is what it would
be if each of its leaves without a field had this one. -/
theorem filter?_of_fieldGroup {field : List Char} (hf : FieldText field)
    (hnot : Text.sameWord field ['N', 'O', 'T'] = false) {text : String} {f : Filter}
    (h : filter? (some (columnOf field)) text = .ok (some f)) :
    (∀ column, filter? column (String.ofList field ++ ":(" ++ text ++ ")") =
      .ok (some (.equals (columnOf field) (.group f)))) ∧
    ∃ c, clause? text.toList = .ok c ∧ ∀ column, (c.boundTo field).lower column = .ok f := by
  obtain ⟨c, hc, hlower⟩ := exists_clause_of_filter? h
  refine ⟨fun column => ?_, c, hc, fun column => by rw [c.lower_boundTo, hlower]⟩
  have htext : (String.ofList field ++ ":(" ++ text ++ ")").toList =
      field ++ ':' :: '(' :: (text.toList ++ [')']) := by simp
  have hflush : IsFlush (field ++ ':' :: '(' :: (text.toList ++ [')'])) :=
    hf.isTerm.isFlush.append _
  refine filter?_of_clause? (c := .fieldGroup field c) ?_ ?_ ?_
  · rw [htext]
    exact hflush.allBlank_eq
  · rw [htext]
    exact clause?_fieldGroup hf hnot hc
  · rw [Clause.lower, hlower]
    rfl

/-- One leaf is bound to the field of the group, and the others keep theirs. -/
theorem filter?_of_field_in_group :
    filter? (some ⟨"a"⟩) "x OR (b:y -c:(z)) " = .ok (some (.or (.equals ⟨"a"⟩ (.text "x"))
      (.and (.equals ⟨"b"⟩ (.text "y"))
        (.mustNot (.equals ⟨"c"⟩ (.group (.equals ⟨"c"⟩ (.text "z")))))))) ∧
    filter? none "a:(x OR (b:y -c:(z)) )" = .ok (some (.equals ⟨"a"⟩ (.group
      (.or (.equals ⟨"a"⟩ (.text "x")) (.and (.equals ⟨"b"⟩ (.text "y"))
        (.mustNot (.equals ⟨"c"⟩ (.group (.equals ⟨"c"⟩ (.text "z")))))))))) := by
  have hfield : FieldText ['a'] := .plain (by decide)
  have hclause : clause? "x OR (b:y -c:(z)) ".toList = .ok (.or (.leaf none (.term ['x']))
      (.and (.leaf (some ['b']) (.term ['y']))
        (.mustNot (.fieldGroup ['c'] (.leaf none (.term ['z'])))))) :=
    eq_ok_of_toOption (by decide +kernel)
  have h := filter?_of_clause? (by decide +kernel) hclause
    (show Clause.lower (some (columnOf ['a'])) _ = .ok _ from rfl)
  exact ⟨h, (filter?_of_fieldGroup hfield (by decide) h).1 none⟩

end Grammar
end SearchFilter
