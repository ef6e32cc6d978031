/-
# How a refusal is explained

The note that is picked when a text is refused stands in that text. It is about the
character at its place, which was not expected there, except for three kinds of text
that are read and then not accepted (`Refused`):

| refused | stands |
| --- | --- |
| the symbols of `AND` and `OR` | where a clause is to start |
| a word other than `TO` | behind the first bound of a range |
| a distance of `2 ^ 32` or more | behind `~` |

Other words are refused as well, and they leave notes of their own: a keyword wherever
another word stands, and the words `AND`, `OR` and `NOT` where a clause is to start. Such
a note is beaten by another one that is left with it, so that a reader as a whole is
`Candid`:

* at a word, the reader of field names gets further;
* where a clause is to start, the signs are tried in front of `NOT`;
* where `AND` is tried and missing, a clause is tried next;
* where `OR` is tried, the conjunction before has just tried one more clause.
-/

import SearchFilter.Proofs.Grammar.Completeness
import SearchFilter.Proofs.Grammar.Leaves

namespace SearchFilter
namespace Grammar

open Reader

/-- Text, up to the end of a longer one, that is read and then not accepted. -/
inductive Refused : List Char → List Char → Prop
  | operator (before : List Char) {rest w r : List Char} : w = ['&', '&'] ∨ w = ['|', '|'] →
    spanTerm rest = (w, r) → Refused (before ++ rest) rest
  | separator (before : List Char) {b u b' rest w r : List Char} {x : Option (List Char)}
      {opening : Char} :
    opening = '[' ∨ opening = '\x7b' → Text.allBlank b = true → BoundText x u →
    Text.allBlank b' = true → w ≠ [] → Text.sameWord w "TO".toList = false →
    spanTerm rest = (w, r) → Refused (before ++ opening :: (b ++ (u ++ (b' ++ rest)))) rest
  | distance (before : List Char) {rest ds r : List Char} : Decimal.spanDigits rest = (ds, r) →
    Nat.pow 2 32 ≤ Decimal.natOf ds → Refused (before ++ '~' :: rest) rest

/-- What is refused is so whatever stands before. -/
theorem Refused.of_suffix {s t rest : List Char} (h : Refused s rest) (hs : s <:+ t) :
    Refused t rest := by
  obtain ⟨z, rfl⟩ := hs
  cases h with
  | operator _ hw hspan =>
    rw [← List.append_assoc]
    exact .operator _ hw hspan
  | separator _ hopening hb hu hb' hw hto hspan =>
    rw [← List.append_assoc]
    exact .separator _ hopening hb hu hb' hw hto hspan
  | distance _ hds hlarge =>
    rw [← List.append_assoc]
    exact .distance _ hds hlarge

/-- The note stands in a text, and is about a character that was not expected or about text
that is refused there. -/
structure Note.Tells (n : Note) (s : List Char) : Prop where
  rest : n.rest <:+ s
  cause : n.cause = .unexpected ∨ Refused s n.rest

/-- A note that stands in the end of a text stands in the text. -/
theorem Note.Tells.of_suffix {n : Note} {s t : List Char} (h : n.Tells s) (hs : s <:+ t) :
    n.Tells t :=
  ⟨h.rest.trans hs, h.cause.imp_right (·.of_suffix hs)⟩

/-- A note in the place of another one tells what that one did. -/
theorem Note.Tells.of_eq {m n : Note} {s : List Char} (h : m.Tells s) (hrest : n.rest = m.rest)
    (hcause : m.cause = .unexpected → n.cause = .unexpected) : n.Tells s := by
  obtain ⟨hm, hor⟩ := h
  rw [← hrest] at hm hor
  exact ⟨hm, hor.imp_left hcause⟩

/-- The note tells why, or it is in the text and beaten by another one. -/
def Note.TellsAmong (n : Note) (others : Note → Prop) (s : List Char) : Prop :=
  n.Tells s ∨ n.rest <:+ s ∧ ∃ m, others m ∧ m.Beats n

section
variable {others others' : Note → Prop} {n : Note} {s t : List Char}

/-- A note tells among more notes of a longer text what it tells among fewer. -/
theorem Note.TellsAmong.mono (h : n.TellsAmong others s) (hs : s <:+ t)
    (hothers : ∀ m, others m → others' m) : n.TellsAmong others' t :=
  h.imp (·.of_suffix hs) fun ⟨hrest, m, hm, hbeats⟩ => ⟨hrest.trans hs, m, hothers m hm, hbeats⟩

/-- A note that no other one beats tells why. -/
theorem Note.TellsAmong.tells (h : n.TellsAmong others s)
    (hbest : ∀ m, others m → ¬ m.Beats n) : n.Tells s :=
  h.resolve_right fun ⟨_, m, hm, hbeats⟩ => hbest m hm hbeats

end

/-- Some test of a single character failed with at most so many characters left. -/
def Probed (notes : Note → Prop) (left : Nat) : Prop :=
  ∃ m, notes m ∧ m.cause = .unexpected ∧ m.direct = true ∧ m.rest.length ≤ left

/-- A test with few characters left is one with more, among more notes. -/
theorem Probed.mono {notes notes' : Note → Prop} {k l : Nat} (h : Probed notes k) (hl : k ≤ l)
    (hnotes : ∀ m, notes m → notes' m) : Probed notes' l := by
  obtain ⟨m, hm, hcause, hdirect, hleft⟩ := h
  exact ⟨m, hnotes m hm, hcause, hdirect, Nat.le_trans hleft hl⟩

/-- Such a test beats every note there that explains nothing. -/
theorem Probed.exists_beats {notes : Note → Prop} {n : Note} (h : Probed notes n.rest.length)
    (hn : n.cause = .unexplained) : ∃ m, notes m ∧ m.Beats n := by
  obtain ⟨m, hm, hcause, hdirect, hleft⟩ := h
  obtain hlt | heq := Nat.lt_or_eq_of_le hleft
  · exact ⟨m, hm, .inl hlt⟩
  · exact ⟨m, hm, .inr ⟨heq, hn, hcause, hdirect⟩⟩

/-! ### Candid readers -/

/-- Of the notes that the reader leaves at `s`, together with those that were left before,
the best ones tell why in the text `t`. -/
def Reader.TellsIn {α : Type} (p : Reader α) (before : Note → Prop) (s t : List Char) : Prop :=
  ∀ n, p.Leaves s n → n.TellsAmong (fun m => before m ∨ p.Leaves s m) t

/-- The reader takes from the front of a text, and of the notes that it leaves there the
best ones tell why. -/
structure Candid {α : Type} (p : Reader α) : Prop where
  suffix {s r : List Char} {a : α} : p.Takes s a r → r <:+ s
  tells (s : List Char) : p.TellsIn (fun _ => False) s s

section
variable {α β : Type} {p q : Reader α} {f : α → Reader β} {before : Note → Prop}
  {s t : List Char} {n : Note}

/-- What a candid reader leaves tells why in any text that ends so. -/
theorem Candid.tellsIn (hp : Candid p) (hs : s <:+ t) : p.TellsIn before s t := fun n hn =>
  (hp.tells s n hn).mono hs fun _ hm => .inr (hm.resolve_left id)

/-- **The note that is picked of a candid reader tells why**. -/
theorem Candid.picks (hp : Candid p) (h : p.Picks s n) : n.Tells s :=
  (hp.tells s n h.leaves).tells fun _ hm => h.not_beats (hm.resolve_left id)

/-- The notes of each reader count for the readers that are tried behind it. -/
theorem Reader.TellsIn.bind (hp : p.TellsIn before s t)
    (hf : ∀ a m, p.Takes s a m → (f a).TellsIn (fun n => before n ∨ p.Leaves s n) m t) :
    (p >>= f).TellsIn before s t := fun n hn => by
  obtain hn | ⟨a, m, ha, hn⟩ := leaves_bind.1 hn
  · exact (hp n hn).mono (List.suffix_rfl) fun _ hm => hm.imp_right fun hm =>
      leaves_bind.2 (.inl hm)
  · refine (hf a m ha n hn).mono (List.suffix_rfl) ?_
    rintro m' ((hm | hm) | hm)
    · exact .inl hm
    · exact .inr (leaves_bind.2 (.inl hm))
    · exact .inr (leaves_bind.2 (.inr ⟨a, m, ha, hm⟩))

/-- The notes of the first reader count where the second one is tried. -/
theorem Reader.TellsIn.orElse (hp : p.TellsIn before s t)
    (hq : p.Fails s → q.TellsIn (fun n => before n ∨ p.Leaves s n) s t) :
    (orElse p q).TellsIn before s t := fun n hn => by
  obtain hn | ⟨hfails, hn⟩ := leaves_orElse.1 hn
  · exact (hp n hn).mono (List.suffix_rfl) fun _ hm => hm.imp_right fun hm =>
      leaves_orElse.2 (.inl hm)
  · refine (hq hfails n hn).mono (List.suffix_rfl) ?_
    rintro m ((hm | hm) | hm)
    · exact .inl hm
    · exact .inr (leaves_orElse.2 (.inl hm))
    · exact .inr (leaves_orElse.2 (.inr ⟨hfails, hm⟩))

/-- A function of what is read changes no notes. -/
theorem Reader.TellsIn.map (hp : p.TellsIn before s t) (g : α → β) :
    (g <$> p).TellsIn before s t := fun n hn =>
  (hp n (leaves_map.1 hn)).mono (List.suffix_rfl) fun _ hm => hm.imp_right leaves_map.2

/-- A reader whose notes are about unexpected characters only. -/
theorem candid_of_unexpected (hsuffix : ∀ {s r : List Char} {a : α}, p.Takes s a r → r <:+ s)
    (hnote : ∀ {s : List Char} {n : Note}, p.Leaves s n → n.rest <:+ s ∧ n.cause = .unexpected) :
    Candid p where
  suffix := hsuffix
  tells _ _ h := .inl ⟨(hnote h).1, .inl (hnote h).2⟩

/-- A reader that takes nothing off a text is candid. -/
theorem candid_pure (a : α) : Candid (pure a : Reader α) where
  suffix h := by
    obtain ⟨-, rfl⟩ := takes_pure.1 h
    exact List.suffix_rfl
  tells _ _ h := absurd h not_leaves_pure

/-- Candid readers one after the other are candid. -/
theorem Candid.bind (hp : Candid p) (hf : ∀ a, Candid (f a)) : Candid (p >>= f) where
  suffix h := by
    obtain ⟨a, m, ha, hb⟩ := takes_bind.1 h
    exact ((hf a).suffix hb).trans (hp.suffix ha)
  tells s := (hp.tells s).bind fun a _ ha => (hf a).tellsIn (hp.suffix ha)

/-- A candid reader is so with any function. -/
theorem Candid.map (hp : Candid p) (f : α → β) : Candid (f <$> p) where
  suffix h := by
    obtain ⟨a, ha, -⟩ := takes_map.1 h
    exact hp.suffix ha
  tells s := (hp.tells s).map f

/-- A candid reader in place of another one is candid. -/
theorem Candid.orElse (hp : Candid p) (hq : Candid q) : Candid (orElse p q) where
  suffix h := (takes_orElse.1 h).elim hp.suffix fun h => hq.suffix h.2
  tells s := (hp.tells s).orElse fun _ => hq.tellsIn List.suffix_rfl

/-- A choice between candid readers is candid. -/
theorem candid_choice {ps : List (Reader α)} (hps : ∀ p ∈ ps, Candid p) : Candid (choice ps) := by
  induction ps with
  | nil => exact ⟨fun h => absurd h takes_choice_nil, fun _ _ h => absurd h not_leaves_choice_nil⟩
  | cons p ps ih =>
    obtain ⟨hp, hps⟩ := List.forall_mem_cons.1 hps
    exact hp.orElse (ih hps)

/-- A candid reader is so where it may be left out. -/
theorem Candid.opt (hp : Candid p) : Candid (opt p) where
  suffix h := by
    obtain ⟨b, -, hb⟩ | ⟨-, rfl, -⟩ := takes_opt.1 h
    · exact hp.suffix hb
    · exact List.suffix_rfl
  tells s n h :=
    (hp.tells s n (leaves_opt.1 h)).mono List.suffix_rfl fun _ hm => hm.imp_right leaves_opt.2

/-- Behind its blanks a text is its own end. -/
theorem skipBlank_suffix (s : List Char) : Text.skipBlank s <:+ s := List.dropWhile_suffix _

/-- A candid reader is so with blanks around it. -/
theorem Candid.padded (hp : Candid p) : Candid (padded p) where
  suffix h := by
    obtain ⟨m, hm, rfl⟩ := takes_padded.1 h
    exact ((skipBlank_suffix m).trans (hp.suffix hm)).trans (skipBlank_suffix _)
  tells s n h :=
    (hp.tells _ n (leaves_padded.1 h)).mono (skipBlank_suffix s) fun _ hm =>
      hm.imp_right leaves_padded.2

/-- A test of one character is candid. -/
theorem candid_char (f : Char → Bool) : Candid (char f) :=
  candid_of_unexpected
    (fun h => by
      obtain ⟨rfl, -⟩ := takes_char.1 h
      exact List.suffix_cons _ _)
    fun h => by
      obtain ⟨-, rfl⟩ := leaves_char.1 h
      exact ⟨List.suffix_rfl, rfl⟩

/-- A test for one certain character is candid. -/
theorem candid_just (c : Char) : Candid (just c) := candid_char _

/-- A test for a certain text is candid. -/
theorem candid_literal (cs : List Char) : Candid (literal cs) := by
  induction cs with
  | nil => exact candid_pure ()
  | cons c cs ih => exact (candid_just c).bind fun _ => ih

/-- A test for the end of the text is candid. -/
theorem candid_atEnd : Candid atEnd :=
  candid_of_unexpected
    (fun h => by
      obtain ⟨rfl, rfl⟩ := takes_atEnd.1 h
      exact List.suffix_rfl)
    fun h => by
      obtain ⟨-, rfl⟩ := leaves_atEnd.1 h
      exact ⟨List.suffix_rfl, rfl⟩

/-- A candid reader is so under a name for what is missing. -/
theorem Candid.labelled (hp : Candid p) : Candid (labelled p) where
  suffix h := hp.suffix (takes_labelled.1 h)
  tells _ _ h := by
    obtain ⟨m, hm, rfl⟩ := leaves_labelled.1 h
    exact .inl ((hp.picks hm).of_eq rfl fun hcause => by simp [hcause])

/-- A candid reader is so where it looks ahead. -/
theorem Candid.ahead (hp : Candid p) : Candid (ahead p) where
  suffix h := by
    obtain ⟨rfl, -⟩ := takes_ahead.1 h
    exact List.suffix_rfl
  tells _ _ h := by
    obtain ⟨m, hm, rfl⟩ := leaves_ahead h
    exact .inl ((hp.picks hm).of_eq rfl id)

/-- Readings one after the other leave the end of the text. -/
theorem Reader.TakesAll.suffix (hp : ∀ {s r : List Char} {a : α}, p.Takes s a r → r <:+ s)
    {as : List α} {r : List Char} (h : p.TakesAll s as r) : r <:+ s := by
  induction h with
  | nil s => exact List.suffix_rfl
  | cons ha _ ih => exact ih.trans (hp ha)

/-- A candid reader is so over and over, if it takes at least one character each time. -/
theorem Candid.many (hp : Candid p) (hlt : ∀ s a r, p.Takes s a r → r.length < s.length) :
    Candid (many p) where
  suffix h := (takesAll_of_takes_many h).suffix hp.suffix
  tells _ n h := by
    obtain ⟨as, m, has, hn⟩ := (leaves_many hlt).1 h
    exact (hp.tells m n hn).mono (has.suffix hp.suffix) fun _ hm =>
      hm.imp_right fun hm => (leaves_many hlt).2 ⟨as, m, has, hm⟩

end

/-! ### Words -/

section
variable {α : Type} {p : Reader α} {s : List Char}

/-- What stands behind a text is the end of both together. -/
theorem suffix_of_eq_append {u s r : List Char} (h : s = u ++ r) : r <:+ s := ⟨u, h.symm⟩

/-- A reader that leaves one note, at the place where it could not go on. -/
theorem candid_of_stopped (hsuffix : ∀ {s r : List Char} {a : α}, p.Takes s a r → r <:+ s)
    (hnotes : ∀ s, ∃ m, m <:+ s ∧ (p s).notes = stopped m) : Candid p :=
  candid_of_unexpected hsuffix fun {s n} h => by
    obtain ⟨m, hm, hnotes⟩ := hnotes s
    rw [Leaves, hnotes, stopped, List.mem_singleton] at h
    rw [h]
    exact ⟨hm, rfl⟩

/-- The reader of terms leaves one note, where it stopped. -/
theorem exists_notes_term (s : List Char) : ∃ m, m <:+ s ∧ (term s).notes = stopped m := by
  refine ⟨if (spanTerm s).2 = ['\\'] then [] else (spanTerm s).2, ?_, ?_⟩
  · split
    · exact List.nil_suffix
    · exact suffix_of_eq_append (spanTerm_spec rfl).1
  · simp only [term]
    split <;> rfl

/-- The reader of terms is candid. -/
theorem candid_term : Candid term :=
  candid_of_stopped (fun h => suffix_of_eq_append (spanTerm_spec (takes_term.1 h).2).1)
    exists_notes_term

/-- The reader of phrases is candid. -/
theorem candid_phrase : Candid phrase :=
  candid_of_stopped
    (fun h => by
      obtain ⟨u, -, hs⟩ := takes_phrase h
      exact suffix_of_eq_append hs)
    fun s => by
      simp only [phrase]
      split
      · split
        · rename_i r inside rest hspan
          obtain ⟨raw, rfl, -⟩ := spanQuoted_spec hspan
          exact ⟨_, (List.suffix_append raw _).trans (List.suffix_cons _ _), rfl⟩
        · exact ⟨[], List.nil_suffix, rfl⟩
      · exact ⟨_, List.suffix_rfl, rfl⟩

/-- The reader of field names gets past the first character of a name. -/
theorem exists_notes_fieldName {c : Char} (hc : Text.isNameStart c = true) (t : List Char) :
    ∃ m, m <:+ t ∧ (fieldName (c :: t)).notes = stopped m := by
  have hdrop : t.dropWhile Text.isNamePart <:+ t := List.dropWhile_suffix _
  simp only [fieldName, if_pos hc]
  split
  · rename_i rest hrest
    have hrest : rest <:+ t := (List.suffix_cons '.' rest).trans (hrest ▸ hdrop)
    split
    · exact ⟨rest, hrest, rfl⟩
    · exact ⟨_, (List.dropWhile_suffix _).trans hrest, rfl⟩
  · exact ⟨_, hdrop, rfl⟩

/-- The reader of field names is candid. -/
theorem candid_fieldName : Candid fieldName :=
  candid_of_stopped (fun h => suffix_of_eq_append (takes_fieldName h).2) fun s => by
    cases s with
    | nil => exact ⟨[], List.nil_suffix, rfl⟩
    | cons c t =>
      by_cases hc : Text.isNameStart c = true
      · obtain ⟨m, hm, hnotes⟩ := exists_notes_fieldName hc t
        exact ⟨m, hm.trans (List.suffix_cons c t), hnotes⟩
      · exact ⟨c :: t, List.suffix_rfl, by rw [fieldName, if_neg hc]⟩

/-- The reader of decimal numerals is candid. -/
theorem candid_decimal : Candid decimal :=
  candid_of_stopped
    (fun h => by
      obtain ⟨ds, -, -, hs⟩ := takes_decimal h
      exact suffix_of_eq_append hs)
    fun s => by
      rcases hspan : Decimal.spanDigits s with ⟨ds, rest⟩
      have hrest : rest <:+ s := suffix_of_eq_append (spanDigits_spec hspan).2
      simp only [decimal, hspan]
      split
      · exact ⟨s, List.suffix_rfl, rfl⟩
      · split
        · rename_i more
          rcases hmore : Decimal.spanDigits more with ⟨places, after⟩
          have hmore : more <:+ s := (List.suffix_cons '.' more).trans hrest
          have hafter : after <:+ s := (suffix_of_eq_append (spanDigits_spec ‹_›).2).trans hmore
          simp only
          split
          · exact ⟨more, hmore, rfl⟩
          · exact ⟨after, hafter, rfl⟩
        · exact ⟨rest, hrest, rfl⟩

/-- An integer that is too large explains nothing itself. -/
theorem leaves_integer {n : Note} (h : integer.Leaves s n) :
    n.Tells s ∨ n = ⟨s, .unexplained, false⟩ ∧
      ∃ ds r, Decimal.spanDigits s = (ds, r) ∧ Nat.pow 2 32 ≤ Decimal.natOf ds := by
  rcases hspan : Decimal.spanDigits s with ⟨ds, rest⟩
  simp only [Leaves, integer, hspan, stopped] at h
  split at h
  · obtain rfl := List.mem_singleton.1 h
    exact .inl ⟨List.suffix_rfl, .inl rfl⟩
  · split at h
    · obtain rfl := List.mem_singleton.1 h
      exact .inl ⟨suffix_of_eq_append (spanDigits_spec hspan).2, .inl rfl⟩
    · rename_i hlarge
      exact .inr ⟨List.mem_singleton.1 h, ds, rest, rfl, Nat.not_lt.1 hlarge⟩

/-- A keyword explains nothing where another word stands. -/
theorem leaves_keyword {word symbol : String} {n : Note} (h : (keyword word symbol).Leaves s n) :
    n.Tells s ∨ n.cause = .unexplained ∧ n.rest = s ∧ (keyword word symbol).Fails s ∧
      ∃ w r, w ≠ [] ∧ spanTerm s = (w, r) ∧ Text.sameWord w word.toList = false := by
  obtain ⟨m, hm, rfl⟩ := leaves_labelled.1 h
  obtain ⟨m', hm', rfl⟩ | ⟨rfl, w, r, hw, hnone⟩ := leaves_accept hm.leaves
  · exact .inl ((candid_term.picks hm').of_eq rfl fun hcause => by simp [hcause])
  · obtain ⟨hne, hspan⟩ := takes_term.1 hw
    refine .inr ⟨by simp, rfl, ?_, w, r, hne, hspan, ?_⟩
    · refine fails_of_not_takes fun u t hk => ?_
      obtain ⟨w', hw', hsome⟩ := takes_accept.1 (takes_labelled.1 hk)
      obtain ⟨rfl, -⟩ := hw.unique hw'
      rw [hnone] at hsome
      cases hsome
    · split at hnone
      · cases hnone
      · simp_all

/-- Behind a keyword stands the end of the text. -/
theorem keyword_suffix {word symbol : String} {u : Unit} {r : List Char}
    (h : (keyword word symbol).Takes s u r) : r <:+ s := by
  obtain ⟨k, -, hs, -⟩ := takes_keyword h
  exact suffix_of_eq_append hs

/-- A letter starts names in either case. -/
theorem isNameStart_of_toLower {c : Char} (h : Text.isNameStart c.toLower = true) :
    Text.isNameStart c = true := by
  by_cases hc : c.val ≥ 'A'.val ∧ c.val ≤ 'Z'.val
  · have hupper : c.isUpper = true := decide_eq_true hc
    show (c.isUpper || c.isLower || c == '_') = true
    rw [hupper, Bool.true_or, Bool.true_or]
  · have hsame : c.toLower = c := dif_neg hc
    rwa [hsame] at h

/-- An operator in the place of a word is a symbol, which is refused, or starts like a name. -/
theorem leaves_bareTerm {n : Note} (h : bareTerm.Leaves s n) :
    n.Tells s ∨ n.rest = s ∧ ∃ c t, s = c :: t ∧ Text.isNameStart c = true := by
  obtain ⟨m, hm, rfl⟩ | ⟨rfl, w, r, hw, hnone⟩ := leaves_accept h
  · exact .inl ((candid_term.picks hm).of_eq rfl id)
  · obtain ⟨hne, hspan⟩ := takes_term.1 hw
    obtain ⟨c, v, rfl⟩ := List.exists_cons_of_ne_nil hne
    have hword {t : List Char} (ht : (Text.lower t).all Text.isNameStart = true)
        (h : Text.sameWord (c :: v) t = true) : ∃ c t, s = c :: t ∧ Text.isNameStart c = true :=
      ⟨c, v ++ r, (spanTerm_spec hspan).1, isNameStart_of_toLower
        (List.all_eq_true.1 ht _ (Query.toLower_mem_of_sameWord h (List.mem_cons_self ..)))⟩
    have hreserved : isReserved (c :: v) = true := by
      split at hnone
      · assumption
      · cases hnone
    simp only [isReserved, Bool.or_eq_true, beq_iff_eq] at hreserved
    rcases hreserved with (((h | h) | h) | h) | h
    · exact .inr ⟨rfl, hword (by decide) h⟩
    · exact .inr ⟨rfl, hword (by decide) h⟩
    · exact .inr ⟨rfl, hword (by decide) h⟩
    · exact .inl ⟨List.suffix_rfl, .inr (.operator [] (.inl h) hspan)⟩
    · exact .inl ⟨List.suffix_rfl, .inr (.operator [] (.inr h) hspan)⟩

/-- Behind a term that is no operator stands the end of the text. -/
theorem bareTerm_suffix {w r : List Char} (h : bareTerm.Takes s w r) : r <:+ s := by
  obtain ⟨u, hu, -⟩ := takes_accept.1 h
  exact candid_term.suffix hu

end

end Grammar
end SearchFilter
