/-
# Queries that are not finished

Of a query that is not finished, the last word is left open. The expansion can close
it in two ways only:

* the stars around a term take a backslash at its end;
* the copies of a word that opens one phrase, and nothing else, close each other's
  phrases in pairs, if their number is even.

In any other case the expanded text shows that it is not finished: something is open
at its end, or a parenthesis is not closed, or a word of it is at fault
(`completed_of_expandFrom`).
-/

import SearchFilter.Proofs.Query.Spread

namespace SearchFilter
namespace Query

open Grammar (FieldText)

/-- A quote that no backslash precedes. -/
def quotesHere (p : Place) (c : Char) : Bool := !p.escaped && c == '"'

/-- The number of quotes in a text that no backslash precedes. -/
def quotes (s : List Char) : Nat := Place.marks quotesHere .bare s

/-- Whether a value is a single quote and what follows it, perhaps behind the sign of a
comparison: its one phrase goes on to its end. -/
def opensPhrase (value : List Char) : Bool :=
  (dropComparison value).head? == some '"' && quotes value == 1

/-! ### Quotes -/

/-- How many quotes there are depends on the backslash in front of a text alone. -/
theorem quotes_congr {p q : Place} (h : p.escaped = q.escaped) (s : List Char) :
    Place.marks quotesHere p s = Place.marks quotesHere q s := by
  induction s generalizing p q with
  | nil => rfl
  | cons c s ih =>
    have hnext : (p.next c).escaped = (q.next c).escaped := by
      simp only [Place.next, h]
      split
      · rfl
      · split <;> rfl
    rw [Place.marks_cons, Place.marks_cons, quotesHere, quotesHere, h, ih hnext]

/-- A text without quotes has none to count. -/
theorem quotes_of_not_mem {s : List Char} (h : '"' ∉ s) (p : Place) :
    Place.marks quotesHere p s = 0 := by
  induction s generalizing p with
  | nil => rfl
  | cons c s ih =>
    simp only [List.mem_cons, not_or] at h
    rw [Place.marks_cons, ih h.2]
    simp [quotesHere, Ne.symm h.1]

/-- Whether a spot is inside of a phrase. -/
def Spot.inPhrase : Spot → Bool
  | .phrase | .phraseInRange => true
  | .bare | .range => false

/-- A quote leads into a phrase or out of it, and no other character does. -/
theorem Spot.inPhrase_next (p : Place) (c : Char) :
    (p.next c).spot.inPhrase = (p.spot.inPhrase != quotesHere p c) := by
  obtain ⟨spot, escaped⟩ := p
  cases escaped with
  | true => cases spot <;> rfl
  | false =>
    by_cases hq : c = '"'
    · subst hq
      cases spot <;> rfl
    · by_cases hc : c = '\\'
      · subst hc
        cases spot <;> rfl
      · have hnone : quotesHere ⟨spot, false⟩ c = false := by simp [quotesHere, hq]
        rw [Place.next_of_ne hc, hnone]
        cases spot with
        | bare => by_cases hr : c = '[' ∨ c = '\x7b' <;> simp [Spot.next, hq, hr, inPhrase]
        | range => by_cases hr : c = ']' ∨ c = '\x7d' <;> simp [Spot.next, hq, hr, inPhrase]
        | phrase | phraseInRange => simp [Spot.next, hq]

/-- **Quotes lead into phrases and out of them again.** -/
theorem inPhrase_after (p : Place) (s : List Char) :
    (p.after s).spot.inPhrase =
      (p.spot.inPhrase != (Place.marks quotesHere p s % 2 == 1)) := by
  induction s generalizing p with
  | nil => simp
  | cons c s ih =>
    rw [Place.after_cons, ih, Spot.inPhrase_next, Place.marks_cons]
    cases quotesHere p c with
    | false => simp
    | true =>
      rcases Nat.mod_two_eq_zero_or_one (Place.marks quotesHere (p.next c) s) with h | h <;>
        cases p.spot.inPhrase <;> simp [Nat.add_mod, h]

/-! ### Openings -/

/-- Outside of phrases and ranges one gets into them by an opening only. -/
theorem openings_pos {p : Place} (hp : p.spot = .bare) {s : List Char}
    (h : (p.after s).spot ≠ .bare) : 0 < Place.marks opensHere p s := by
  induction s generalizing p with
  | nil => exact absurd hp h
  | cons c s ih =>
    rw [Place.marks_cons]
    by_cases hc : opensHere p c = true
    · rw [if_pos hc]
      omega
    · have hnext : (p.next c).spot = .bare := by
        obtain ⟨spot, escaped⟩ := p
        obtain rfl : spot = .bare := hp
        cases escaped with
        | true => rfl
        | false =>
          by_cases hs : c = '\\'
          · subst hs
            rfl
          · have hc : c ≠ '"' ∧ c ≠ '[' ∧ c ≠ '\x7b' := by
              simpa [opensHere, Place.bare, and_assoc] using hc
            rw [Place.next_of_ne hs]
            simp [Spot.next, hc]
      have := ih hnext h
      omega

/-- A phrase that is closed is followed by an opening, if something is open in the end. -/
theorem openings_pos_of_quotes {p : Place} (hp : p.spot = .phrase) {s : List Char}
    (hq : 0 < Place.marks quotesHere p s) (h : (p.after s).spot ≠ .bare) :
    0 < Place.marks opensHere p s := by
  induction s generalizing p with
  | nil => simp at hq
  | cons c s ih =>
    rw [Place.marks_cons] at hq ⊢
    obtain ⟨spot, escaped⟩ := p
    obtain rfl : spot = .phrase := hp
    by_cases hc : quotesHere ⟨.phrase, escaped⟩ c = true
    · simp only [quotesHere, Bool.and_eq_true, Bool.not_eq_true', beq_iff_eq] at hc
      obtain ⟨rfl, rfl⟩ := hc
      have := openings_pos (p := .bare) rfl h
      exact Nat.lt_of_lt_of_le this (Nat.le_add_left ..)
    · have hnext : (Place.next ⟨.phrase, escaped⟩ c).spot = .phrase := by
        cases escaped with
        | true => rfl
        | false =>
          by_cases hs : c = '\\'
          · subst hs
            rfl
          · rw [Place.next_of_ne hs]
            have hc : c ≠ '"' := by simpa [quotesHere] using hc
            simp [Spot.next, hc]
      have := ih hnext (by simpa [hc] using hq) h
      omega

/-! ### The sign of a comparison -/

/-- The signs of comparisons, and no sign. -/
def comparisonSigns : List (List Char) := [[], ['>'], ['<'], ['>', '='], ['<', '=']]

/-- A text is a sign of a comparison, or none, and what is left without it. -/
theorem dropComparison_spec (s : List Char) :
    ∃ op ∈ comparisonSigns, s = op ++ dropComparison s := by
  fun_cases dropComparison s with
  | case1 r => exact ⟨['>', '='], by decide, rfl⟩
  | case2 r => exact ⟨['<', '='], by decide, rfl⟩
  | case3 r => exact ⟨['>'], by decide, rfl⟩
  | case4 r => exact ⟨['<'], by decide, rfl⟩
  | case5 => exact ⟨[], by decide, rfl⟩

/-- The signs of comparisons open nothing and close nothing. -/
theorem isPlain_of_mem_comparisonSigns {op : List Char} (h : op ∈ comparisonSigns) :
    ∀ c ∈ op, isPlain c = true := by
  have key : (comparisonSigns.all fun op => op.all isPlain) = true := by decide
  exact List.all_eq_true.1 (List.all_eq_true.1 key op h)

/-- In front of a quote a sign of a comparison is dropped in full. -/
theorem dropComparison_quote {op : List Char} (h : op ∈ comparisonSigns) (tail : List Char) :
    dropComparison (op ++ '"' :: tail) = '"' :: tail := by
  simp only [comparisonSigns, List.mem_cons, List.not_mem_nil, or_false] at h
  rcases h with rfl | rfl | rfl | rfl | rfl <;> rfl

/-- The characters of signs of comparisons lead nowhere. -/
theorem after_of_mem_comparisonSigns {op : List Char} (hop : op ∈ comparisonSigns) {u : List Char}
    (hu : ∀ c ∈ u, c ∈ op) : Place.bare.after u = .bare := by
  have hplain := fun c hc => isPlain_of_mem_comparisonSigns hop c (hu c hc)
  exact (passes_of_all_plain hplain .bare).after

section
variable {value rest : List Char}

/-- A value that is left open in a phrase or range, and is proper with what follows it, opens
once: with a quote, right at its start or behind the sign of a comparison. -/
theorem exists_opening_of_isProper (hopen : (Place.bare.after value).spot ≠ .bare)
    (hhead : ∀ c ∈ value.head?, opensHere .bare c = true → c = '"')
    (hproper : isProper (value ++ rest) = true) :
    openings value = 1 ∧ ∃ op ∈ comparisonSigns, ∃ tail, value = op ++ '"' :: tail := by
  have hpos : 0 < openings value := openings_pos rfl hopen
  have hsum : openings (value ++ rest) = openings value + _ := Place.marks_append ..
  simp only [isProper, Bool.or_eq_true, Bool.and_eq_true, beq_iff_eq] at hproper
  rcases hproper with h0 | ⟨h1, hstart⟩
  · omega
  refine ⟨by omega, ?_⟩
  rcases hstart with hstart | hstart
  · cases value with
    | nil => exact absurd rfl hopen
    | cons c tail =>
      obtain rfl : c = '"' := hhead c rfl (by simpa using hstart)
      exact ⟨[], by decide, tail, rfl⟩
  · obtain ⟨op, hop, happ⟩ := dropComparison_spec (value ++ rest)
    obtain ⟨z, hz⟩ : ∃ z, dropComparison (value ++ rest) = '"' :: z := by
      cases hd : dropComparison (value ++ rest) with
      | nil => simp [hd] at hstart
      | cons c z =>
        obtain rfl : c = '"' := by simpa [hd] using hstart
        exact ⟨z, rfl⟩
    rw [hz] at happ
    -- no value that ends within the sign is left open
    have hbeyond {u : List Char} (hu : ∀ c ∈ u, c ∈ op) : value ≠ u := by
      rintro rfl
      exact hopen (by rw [after_of_mem_comparisonSigns hop hu]; rfl)
    rcases List.append_eq_append_iff.1 happ with ⟨b, hb, -⟩ | ⟨a, ha, hq⟩
    · exact absurd rfl (hbeyond (u := value) fun c hc => by rw [hb]; simp [hc])
    · cases a with
      | nil => exact absurd (by simpa using ha) (hbeyond (u := op) fun c hc => hc)
      | cons c tail =>
        obtain rfl : '"' = c := (List.cons.inj hq).1
        exact ⟨op, hop, tail, ha⟩

/-- So it opens one phrase and goes on with it to its end. -/
theorem opensPhrase_of_isProper (hopen : (Place.bare.after value).spot ≠ .bare)
    (hhead : ∀ c ∈ value.head?, opensHere .bare c = true → c = '"')
    (hproper : isProper (value ++ rest) = true) : opensPhrase value = true := by
  obtain ⟨hone, op, hop, tail, rfl⟩ := exists_opening_of_isProper hopen hhead hproper
  have hafter := after_of_mem_comparisonSigns hop fun _ hc => hc
  have hnone : '"' ∉ op := fun h => absurd (isPlain_of_mem_comparisonSigns hop _ h) (by decide)
  -- a second quote would close the phrase, and something else would have to be opened
  have htail : Place.marks quotesHere ⟨.phrase, false⟩ tail = 0 := by
    have hopenings : openings op + (1 + Place.marks opensHere ⟨.phrase, false⟩ tail) = 1 := by
      rw [openings, Place.marks_append, hafter, Place.marks_cons] at hone
      exact hone
    rw [Place.after_append, hafter, Place.after_cons] at hopen
    by_cases hq : 0 < Place.marks quotesHere ⟨.phrase, false⟩ tail
    · have := openings_pos_of_quotes rfl hq hopen
      omega
    · omega
  have hquotes : quotes (op ++ '"' :: tail) = 1 := by
    rw [quotes, Place.marks_append, quotes_of_not_mem hnone, hafter, Place.marks_cons,
      show Place.bare.next '"' = ⟨.phrase, false⟩ from rfl, htail]
    rfl
  rw [opensPhrase, dropComparison_quote hop, hquotes]
  rfl

end

/-! ### Many copies of an open value -/

/-- A field has no quote. -/
theorem quote_not_mem_field {f : List Char} (hf : FieldText f) : '"' ∉ f := by
  have start {name : List Char} (hid : Text.isIdentifier name = true) : '"' ∉ name :=
    Text.not_mem_of_not_isNamePart hid (by decide)
  cases hf with
  | plain hid => exact start hid
  | dotted hid _ hpart =>
    simp only [List.mem_append, List.mem_cons, not_or]
    exact ⟨start hid, by decide, fun h => absurd (List.all_eq_true.1 hpart _ h) (by decide)⟩

/-- Each copy has the quotes of the value. -/
theorem quotes_joined (value : List Char) {fields : List (List Char)}
    (hf : ∀ f ∈ fields, FieldText f) (spot : Spot) :
    Place.marks quotesHere ⟨spot, false⟩ (joined value fields) = fields.length * quotes value := by
  have copy {f : List Char} (hf : FieldText f) (spot : Spot) (rest : List Char) :
      Place.marks quotesHere ⟨spot, false⟩ (f ++ ':' :: (value ++ rest)) = quotes value +
        Place.marks quotesHere (Place.after ⟨spot, false⟩ value) rest := by
    have hafter : Place.after ⟨spot, false⟩ f = ⟨spot, false⟩ := (hf.isTerm.passes spot).after
    have hcolon : Place.next ⟨spot, false⟩ ':' = ⟨spot, false⟩ := by cases spot <;> rfl
    rw [Place.marks_append, quotes_of_not_mem (quote_not_mem_field hf), hafter, Place.marks_cons,
      hcolon, Place.marks_append, quotes, quotes_congr (p := ⟨spot, false⟩) (q := .bare) rfl]
    simp [quotesHere]
  -- what follows a value takes an open backslash with its first character
  have next (p : Place) (c : Char) (hc : c ≠ '\\') : ∃ spot, p.next c = ⟨spot, false⟩ := by
    rw [Place.next, if_neg hc]
    split <;> exact ⟨_, rfl⟩
  induction fields generalizing spot with
  | nil =>
    rw [joined, quotes_of_not_mem (s := [')']) (by decide)]
    simp
  | cons f fields ih =>
    cases fields with
    | nil =>
      rw [joined, copy (hf f (by simp)), quotes_of_not_mem (s := [')']) (by decide)]
      simp
    | cons g fields =>
      obtain ⟨spot', hspot⟩ := next (Place.after ⟨spot, false⟩ value) ' ' (by decide)
      have hsep : (((⟨spot', false⟩ : Place).next 'O').next 'R').next ' ' = ⟨spot', false⟩ := by
        cases spot' <;> rfl
      rw [joined, copy (hf f (by simp)), Place.marks_cons, hspot, Place.marks_cons,
        Place.marks_cons, Place.marks_cons, hsep, ih fun h hh => hf h (List.mem_cons_of_mem _ hh)]
      · simp [quotesHere, Nat.add_mul]
        omega
      · simp

/-- A word has no parenthesis among its roles. -/
theorem closing_not_mem_wordRoles (isName : Bool) (w : List Char) :
    Role.closing ∉ wordRoles isName w := by
  rw [wordRoles, wordRole?]
  split <;> split <;> (try split) <;> simp

/-- Copies that end in a backslash: it takes the character behind each of them, also the
closing parenthesis. -/
theorem closing_not_mem_joined {value : List Char} (hu : IsUnbroken .bare value)
    (hv : Place.bare.after value = ⟨.bare, true⟩) {f : List Char} {fields : List (List Char)}
    (hf : ∀ g ∈ f :: fields, FieldText g) :
    Role.closing ∉ roles (joined value (f :: fields)) := by
  have hescaped : (⟨.bare, true⟩ : Place) ≠ .bare := by decide
  -- the open backslash takes the character behind a copy, which so belongs to the word
  have cut {f : List Char} (hf : FieldText f) {c : Char} {u r : List Char}
      (hu' : IsUnbroken .bare u) (hc : Place.bare.after u = .bare) (hr : AtBoundary r) :
      Cuts (f ++ ':' :: (value ++ c :: u)) r := by
    have hcopy : Place.bare.after (f ++ ':' :: value) = ⟨.bare, true⟩ := by
      rw [after_copy hf, hv]
    have hsplit : f ++ ':' :: (value ++ c :: u) = f ++ ':' :: value ++ c :: u := by simp
    have hnext : Place.next ⟨.bare, true⟩ c = .bare := rfl
    rw [hsplit]
    refine ⟨by simp, isUnbroken_append.2 ⟨isUnbroken_copy hf hu, ?_⟩, hr, fun _ => ?_⟩
    · rw [hcopy, isUnbroken_cons, hnext]
      exact ⟨Place.ends_of_ne hescaped c, hu'⟩
    · rw [IsFinished, Place.after_append, hcopy, Place.after_cons, hnext, hc]
  induction fields generalizing f with
  | nil =>
    have hcut := (cut (hf f (by simp)) (c := ')') (isUnbroken_nil _) rfl atBoundary_nil).roles_eq
    rw [List.append_nil] at hcut
    rw [joined, hcut, roles_nil, List.append_nil]
    exact closing_not_mem_wordRoles _ _
  | cons g fields ih =>
    have hcut := (cut (hf f (by simp)) (c := ' ') (u := ['O', 'R'])
      (r := ' ' :: joined value (g :: fields)) (by decide) rfl (by simp; decide)).roles_eq
    have hsplit : joined value (f :: g :: fields) =
        f ++ ':' :: (value ++ [' ', 'O', 'R']) ++ ' ' :: joined value (g :: fields) := by
      rw [joined]
      · simp
      · simp
    rw [hsplit, hcut, roles_blank (by decide), List.mem_append, not_or]
    exact ⟨closing_not_mem_wordRoles _ _, ih fun h hh => hf h (List.mem_cons_of_mem _ hh)⟩

/-- A text that starts with something unbroken starts with a word that starts with it. -/
theorem exists_cuts_of_isUnbroken {u : List Char} (hne : u ≠ []) (hu : IsUnbroken .bare u)
    (r : List Char) : ∃ v r', r = v ++ r' ∧ Cuts (u ++ v) r' := by
  obtain ⟨c, u, rfl⟩ := List.exists_cons_of_ne_nil hne
  have hcut := cuts_spanWord (c := c) (r := u ++ r) (isUnbroken_cons.1 hu).1
  have happ := spanWord_append .bare (c :: (u ++ r))
  generalize (spanWord .bare (c :: (u ++ r))).1 = w at hcut happ
  generalize (spanWord .bare (c :: (u ++ r))).2 = r' at hcut happ
  rcases List.append_eq_append_iff.1 (show w ++ r' = (c :: u) ++ r from happ) with
    ⟨a, ha, hr⟩ | ⟨v, rfl, hr⟩
  · cases a with
    | nil =>
      rw [List.append_nil] at ha
      exact ⟨[], r', by simpa using hr.symm, by rw [List.append_nil, ha]; exact hcut⟩
    | cons d a =>
      -- the word would end inside of the unbroken text
      have hw : Place.bare.after w = .bare := hcut.finished (by simp [hr])
      have hd : endsWord d = true := by
        have hb := hcut.boundary
        rwa [hr, List.cons_append, atBoundary_cons] at hb
      rw [ha, isUnbroken_append, hw, isUnbroken_cons, Place.ends_bare, hd] at hu
      exact absurd hu.2.1 (by decide)
  · exact ⟨v, r', hr, hcut⟩

/-- The first copy is proper with whatever it runs into, or it is at fault. -/
theorem isProper_of_roles {f value r : List Char} (hf : FieldText f)
    (hu : IsUnbroken .bare value) (h : Role.fault ∉ roles (f ++ ':' :: (value ++ r))) :
    ∃ rest, isProper (value ++ rest) = true := by
  obtain ⟨v, r', rfl, hcut⟩ := exists_cuts_of_isUnbroken (by simp) (isUnbroken_copy hf hu) r
  refine ⟨v, ?_⟩
  have hword : f ++ ':' :: value ++ v = f ++ ':' :: (value ++ v) := by simp
  have happ : f ++ ':' :: (value ++ (v ++ r')) = f ++ ':' :: value ++ v ++ r' := by simp
  rw [happ, hcut.roles_eq, List.mem_append, not_or, hword] at h
  cases hfaulty : isFaulty (f ++ ':' :: (value ++ v)) with
  | true => simp [wordRoles, hfaulty] at h
  | false =>
    rw [isFaulty, (hf.isPlayed _).unsigned, hf.afterColon?, Bool.or_eq_false_iff] at hfaulty
    simpa using hfaulty.2

/-! ### The last token -/

/-- Roles in front of a parenthesis, behind a finished text. -/
theorem roles_before_opening {u : List Char} (hu : IsFinished u) (s : List Char) :
    ∃ ρ, roles (u ++ '(' :: s) = ρ ++ .opening :: roles s := by
  induction u using word_induction with
  | nil => exact ⟨[], roles_opening s⟩
  | blank c r hc ih =>
    obtain ⟨ρ, hρ⟩ := ih ((isFinished_cons (next_of_isBlank hc) r).1 hu)
    exact ⟨ρ, by rw [List.cons_append, roles_blank hc, hρ]⟩
  | opening r ih =>
    obtain ⟨ρ, hρ⟩ := ih hu
    exact ⟨.opening :: ρ, by rw [List.cons_append, roles_opening, hρ]; rfl⟩
  | closing r ih =>
    obtain ⟨ρ, hρ⟩ := ih hu
    exact ⟨.closing :: ρ, by rw [List.cons_append, roles_closing, hρ]; rfl⟩
  | word w r hcut ih =>
    have hw : IsFinished w := by
      by_cases hr : r = []
      · simpa [hr] using hu
      · exact hcut.finished hr
    obtain ⟨ρ, hρ⟩ := ih ((isFinished_append hw r).1 hu)
    have hcut' : Cuts w (r ++ '(' :: s) := by
      refine ⟨hcut.ne_nil, hcut.unbroken, ?_, fun _ => hw⟩
      cases r with
      | nil => simp [endsWord]
      | cons c r => exact hcut.boundary
    exact ⟨_ ++ ρ, by rw [List.append_assoc, hcut'.roles_eq, hρ, List.append_assoc]⟩

/-- The expanded text of tokens is finished up to the last of them, which is not. -/
def EndsOpen (fields : List (List Char)) (left : Option Token.Kind) (groups : List Bool)
    (ts : List Token) : Prop :=
  ∃ u w grouped, IsFinished u ∧ Cuts w [] ∧ ¬ IsFinished w ∧
    expandFrom fields left groups ts = u ++ expandToken fields grouped ⟨classify w [], w⟩ ∧
    lastSpread? left groups ts =
      if Token.isSpread grouped ⟨classify w [], w⟩ then some ⟨classify w [], w⟩ else none

/-- A blank, or nothing, leaves nothing open. -/
theorem isFinished_space (b : Bool) : IsFinished (if b then [' '] else []) := by
  cases b <;> decide

/-- A finished token in front. -/
theorem EndsOpen.cons {fields : List (List Char)} {left : Option Token.Kind} {groups : List Bool}
    {t : Token} {ts : List Token} (ht : IsFinished (expandToken fields (groups.contains true) t))
    (hts : ts ≠ []) (h : EndsOpen fields (some t.kind) (groupsAfter left groups t.kind) ts) :
    EndsOpen fields left groups (t :: ts) := by
  obtain ⟨u, w, grouped, hu, hcut, hw, hexpand, hlast⟩ := h
  refine ⟨(if isSpaced left t.kind then [' '] else []) ++
    (expandToken fields (groups.contains true) t ++ u), w, grouped, ?_, hcut, hw, ?_, ?_⟩
  · exact (isFinished_append (isFinished_space _) _).2 ((isFinished_append ht u).2 hu)
  · rw [expandFrom, hexpand, List.append_assoc, List.append_assoc]
  · rw [lastSpread?, if_neg (by simpa using hts)]
    exact hlast

/-- A query that is not finished is left open by its last token. -/
theorem endsOpen_of_not_isFinished {fields : List (List Char)} (hf : ∀ f ∈ fields, FieldText f)
    {s : List Char} (hs : ¬ IsFinished s) (left : Option Token.Kind) (groups : List Bool) :
    EndsOpen fields left groups (tokens s) := by
  have tokens_ne {r : List Char} (hr : ¬ IsFinished r) : tokens r ≠ [] := fun h =>
    hr (isFinished_of_tokens_eq_nil h)
  induction s using word_induction generalizing left groups with
  | nil => exact absurd rfl hs
  | blank c r hc ih =>
    rw [tokens_blank hc]
    exact ih (fun h => hs ((isFinished_cons (next_of_isBlank hc) r).2 h)) left groups
  | opening r ih =>
    rw [tokens_opening]
    exact (ih hs _ _).cons (t := ⟨.opening, ['(']⟩) rfl (tokens_ne hs)
  | closing r ih =>
    rw [tokens_closing]
    exact (ih hs _ _).cons (t := ⟨.closing, [')']⟩) rfl (tokens_ne hs)
  | word w r hcut ih =>
    rw [hcut.tokens_eq]
    by_cases hr : r = []
    · subst hr
      refine ⟨if isSpaced left (classify w []) then [' '] else [], w, groups.contains true,
        isFinished_space _, hcut, by simpa using hs, ?_, ?_⟩
      · rw [tokens_nil, expandFrom, expandFrom, List.append_nil]
      · rw [tokens_nil, lastSpread?, if_pos (by simp)]
    · have hw := hcut.finished hr
      have hrest : ¬ IsFinished r := fun h => hs ((isFinished_append hw r).2 h)
      exact (ih hrest _ _).cons (t := ⟨classify w r, w⟩)
        (isFinished_expandToken (t := ⟨classify w r, w⟩) hw hf _) (tokens_ne hrest)

/-- A term does not start with an opening, its sign apart, and a phrase with a quote. -/
theorem head_of_classify {w r : List Char}
    (h : classify w r = .term ∨ classify w r = .phrase) :
    ∀ c ∈ (splitSign w).2.head?, opensHere .bare c = true → c = '"' := by
  rw [classify] at h
  intro c hc hopen
  rw [Option.mem_def] at hc
  have hopen : c = '"' ∨ c = '[' ∨ c = '\x7b' := by simpa [opensHere, or_assoc] using hopen
  split at h
  · simp at h
  · split at h
    · simp at h
    · split at h
      · split at h <;> simp at h
      · rcases hopen with rfl | rfl | rfl
        · rfl
        · simp [hc] at h
        · simp [hc] at h

/-- A value starts with a quote, if it starts with an opening at all. -/
theorem head_value {w r : List Char} {grouped : Bool}
    (h : Token.isSpread grouped ⟨classify w r, w⟩ = true) :
    ∀ c ∈ (Token.value ⟨classify w r, w⟩).head?, opensHere .bare c = true → c = '"' := by
  simp only [Token.isSpread, Bool.and_eq_true, Bool.or_eq_true, beq_iff_eq] at h
  rcases (stars_value ⟨classify w r, w⟩).head with hv | hv
  · rw [hv]
    exact head_of_classify h.1
  · rw [hv]
    rintro c ⟨⟩ hopen
    exact absurd hopen (by decide)

/-- An open value that is copied several times: the copies pair up, if the text that
they are in leaves nothing open, closes its parentheses and has no word at fault. -/
theorem opensPhrase_of_joined {value : List Char} (hu : IsUnbroken .bare value)
    (hhead : ∀ c ∈ value.head?, opensHere .bare c = true → c = '"') (hv : ¬ IsFinished value)
    {f : List Char} {fields : List (List Char)} (hne : fields ≠ [])
    (hf : ∀ g ∈ f :: fields, FieldText g)
    (hfinished : IsFinished (joined value (f :: fields))) {ρ : List Role}
    (hlevel : Role.level 0 (ρ ++ .opening :: roles (joined value (f :: fields))) = some 0)
    (hfault : Role.fault ∉ roles (joined value (f :: fields))) :
    (f :: fields).length % 2 = 0 ∧ opensPhrase value = true := by
  have hspot : (Place.bare.after value).spot ≠ .bare := by
    intro hspot
    have hplace : Place.bare.after value = ⟨.bare, true⟩ := by
      rw [IsFinished] at hv
      generalize Place.bare.after value = p at hspot hv
      obtain ⟨spot, escaped⟩ := p
      obtain rfl : spot = .bare := hspot
      cases escaped with
      | true => rfl
      | false => exact absurd rfl hv
    -- the last parenthesis belongs to the last copy
    have hclosing := closing_not_mem_joined hu hplace hf
    rw [Role.level_append, Option.bind_eq_some_iff] at hlevel
    obtain ⟨d, -, hd⟩ := hlevel
    rw [Role.level_opening] at hd
    exact absurd (Role.le_of_level hclosing hd) (by omega)
  have hopens : opensPhrase value = true := by
    obtain ⟨g, fields, rfl⟩ := List.exists_cons_of_ne_nil hne
    rw [joined] at hfault
    · obtain ⟨rest, hproper⟩ := isProper_of_roles (hf f (by simp)) hu hfault
      exact opensPhrase_of_isProper hspot hhead hproper
    · simp
  refine ⟨?_, hopens⟩
  simp only [opensPhrase, Bool.and_eq_true, beq_iff_eq] at hopens
  have hin := inPhrase_after .bare (joined value (f :: fields))
  have hquotes : Place.marks quotesHere .bare (joined value (f :: fields)) = _ :=
    quotes_joined value hf .bare
  rw [hfinished, hquotes, hopens.2, Nat.mul_one] at hin
  simpa [Place.bare, Spot.inPhrase] using hin

/-- **What completes a query that is not finished.** If the expanded text leaves nothing
open, closes its parentheses and has no word at fault, the last token of the query is
spread, and either its value is finished or its copies pair up. -/
theorem completed_of_expandFrom {fields : List (List Char)} (hf : ∀ f ∈ fields, FieldText f)
    (hne : fields ≠ []) {s : List Char} (hs : ¬ IsFinished s)
    (hfinished : IsFinished (expandFrom fields none [] (tokens s)))
    (hlevel : Role.level 0 (roles (expandFrom fields none [] (tokens s))) = some 0)
    (hfault : Role.fault ∉ roles (expandFrom fields none [] (tokens s))) :
    ∃ t, lastSpread? none [] (tokens s) = some t ∧
      (IsFinished t.value ∨ fields.length % 2 = 0 ∧ opensPhrase t.value = true) := by
  obtain ⟨u, w, grouped, hu, hcut, hw, hexpand, hlast⟩ := endsOpen_of_not_isFinished hf hs none []
  rw [hexpand] at hfinished hlevel hfault
  cases hspread : Token.isSpread grouped ⟨classify w [], w⟩ with
  | false =>
    -- a word that is not spread is left open as it was
    rw [expandToken_of_not_isSpread hspread, isFinished_append hu] at hfinished
    exact absurd hfinished hw
  | true =>
    rw [hspread, if_pos rfl] at hlast
    refine ⟨_, hlast, ?_⟩
    rw [expandToken_of_isSpread hspread, ← List.append_assoc] at hfinished hlevel hfault
    have hu : IsFinished (u ++ (splitSign w).1) :=
      (isFinished_append hu _).2 (passes_splitSign w .bare).after
    rw [isFinished_append hu] at hfinished
    by_cases hv : IsFinished (Token.value ⟨classify w [], w⟩)
    · exact .inl hv
    · refine .inr ?_
      obtain ⟨f, fields, rfl⟩ := List.exists_cons_of_ne_nil hne
      -- a single copy is left open as its value is, so there are more
      by_cases hone : (f :: fields).length = 1
      · obtain rfl : fields = [] := by simpa using hone
        rw [copies_singleton, IsFinished, after_copy (hf f (by simp))] at hfinished
        exact absurd hfinished hv
      · rw [copies_eq_joined hone] at hfinished hlevel hfault
        obtain ⟨ρ, hρ⟩ := roles_before_opening hu (joined _ (f :: fields))
        rw [hρ] at hlevel hfault
        exact opensPhrase_of_joined (isUnbroken_value (t := ⟨classify w [], w⟩) hcut.unbroken)
          (head_value hspread) hv (by simpa using hone) hf hfinished hlevel
          fun h => hfault (by simp [h])

end Query
end SearchFilter
