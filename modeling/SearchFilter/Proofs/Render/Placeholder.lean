/-
# Placeholders in order

A dialect that numbers its placeholders does so on the finished text, by counting the
question marks outside apostrophes. On lexemes the same is done placeholder by
placeholder (`placed_spell`), and the placeholders of the text, wherever in it they are
looked for, are the numbers from one on (`placeholders_spell`). Both ask that nothing
else in the text looks like a placeholder (`IsClean`).
-/

import SearchFilter.Proofs.Render.Predicate

namespace SearchFilter
namespace Sql

open Lexeme

namespace Dialect

/-- The placeholder of the given number. -/
def slotAt (d : Dialect) (n : Nat) : Lexeme :=
  match d with
  | postgresql => .numbered (Decimal.ofNat n)
  | _ => slot

/-- The lexemes with their placeholders in the form of the dialect, behind `k` others. -/
def placeFrom (d : Dialect) : Nat → List Lexeme → List Lexeme
  | _, [] => []
  | k, l :: ls =>
    if l.isSlot then d.slotAt (k + 1) :: placeFrom d (k + 1) ls else l :: placeFrom d k ls

/-- Every dollar sign of a text, with the digits behind it. -/
def dollars : List Char → List (List Char)
  | [] => []
  | c :: r => if c = '$' then ('$' :: r.takeWhile Char.isDigit) :: dollars r else dollars r

/-- What a text has of the characters that the placeholders of a dialect are made of. -/
def placeholders (d : Dialect) (text : List Char) : List (List Char) :=
  match d with
  | postgresql => dollars text
  | _ => (text.filter (· == '?')).map fun c => [c]

/-- The placeholder of a number is one. -/
theorem isSlot_slotAt (d : Dialect) (n : Nat) : (d.slotAt n).isSlot = true := by cases d <;> rfl

/-- The placeholders of lexemes behind others take the numbers after theirs. -/
theorem placeFrom_append (d : Dialect) (k : Nat) (ls ms : List Lexeme) :
    d.placeFrom k (ls ++ ms) = d.placeFrom k ls ++ d.placeFrom (k + ls.countP isSlot) ms := by
  induction ls generalizing k with
  | nil => rfl
  | cons l ls ih =>
    rw [List.cons_append, placeFrom, placeFrom]
    split
    · rename_i hslot
      rw [ih, List.countP_cons_of_pos hslot, Nat.add_assoc, Nat.add_comm 1]
      rfl
    · rename_i hslot
      rw [ih, List.countP_cons_of_neg hslot]
      rfl

/-- **The placeholders are numbered without a gap.** -/
theorem filter_isSlot_placeFrom (d : Dialect) (k : Nat) (ls : List Lexeme) :
    (d.placeFrom k ls).filter isSlot = (List.range' (k + 1) (ls.countP isSlot)).map d.slotAt := by
  induction ls generalizing k with
  | nil => rfl
  | cons l ls ih =>
    rw [placeFrom]
    split
    · rename_i hslot
      rw [List.filter_cons_of_pos (d.isSlot_slotAt _), ih, List.countP_cons_of_pos hslot,
        List.range'_succ, List.map_cons]
    · rename_i hslot
      rw [List.filter_cons_of_neg hslot, ih, List.countP_cons_of_neg hslot]

/-- Numbering keeps the number of placeholders. -/
theorem countP_placeFrom (d : Dialect) (k : Nat) (ls : List Lexeme) :
    (d.placeFrom k ls).countP isSlot = ls.countP isSlot := by
  rw [List.countP_eq_length_filter, filter_isSlot_placeFrom, List.length_map, List.length_range']

/-- A part that stands behind `n` placeholders takes the numbers after `n`. -/
theorem stands_placeFrom (d : Dialect) {part ls : List Lexeme} {n : Nat}
    (h : Stands part n ls) : Stands (d.placeFrom n part) n (d.placeFrom 0 ls) := by
  obtain ⟨front, back, rfl, rfl⟩ := h
  have hplaced := d.placeFrom_append 0 front (part ++ back)
  rw [Nat.zero_add, d.placeFrom_append _ part back] at hplaced
  exact ⟨_, _, hplaced, d.countP_placeFrom 0 front⟩

/-- Numbered lexemes are placeholders with a number, or as they were. -/
theorem mem_placeFrom {d : Dialect} {k : Nat} {ls : List Lexeme} {l : Lexeme}
    (h : l ∈ d.placeFrom k ls) : (∃ n, l = d.slotAt n) ∨ l.isSlot = false ∧ l ∈ ls := by
  induction ls generalizing k with
  | nil => exact absurd h List.not_mem_nil
  | cons m ls ih =>
    rw [placeFrom] at h
    split at h
    · rcases List.mem_cons.1 h with rfl | h
      · exact .inl ⟨_, rfl⟩
      · exact (ih h).imp_right fun h => ⟨h.1, List.mem_cons_of_mem m h.2⟩
    · rename_i hslot
      rcases List.mem_cons.1 h with rfl | h
      · exact .inr ⟨by simpa using hslot, by simp⟩
      · exact (ih h).imp_right fun h => ⟨h.1, List.mem_cons_of_mem m h.2⟩

end Dialect

/-- A lexeme in whose text nothing looks like a placeholder, unless it is one that has
no number yet, and no apostrophe like the end of a literal. -/
structure IsClean (l : Lexeme) (q : Char) : Prop where
  slot : l.isSlot = true → l = slot
  question : l.isSlot = false → '?' ∉ l.write q
  apostrophe : (∃ t, l = literal t) ∨ '\'' ∉ l.write q

/-! ### Numbering text -/

/-- Nothing happens without question marks and apostrophes. -/
theorem numbered_append {s : List Char} (hslot : '?' ∉ s) (hapostrophe : '\'' ∉ s)
    (quoted : Bool) (k : Nat) (r : List Char) :
    numbered quoted k (s ++ r) = s ++ numbered quoted k r := by
  induction s with
  | nil => rfl
  | cons c s ih =>
    rw [List.mem_cons, not_or] at hslot hapostrophe
    rw [List.cons_append, numbered, if_neg (Ne.symm hapostrophe.1),
      if_neg (fun h => hslot.1 h.1.symm), ih hslot.2 hapostrophe.2]
    rfl

/-- Nothing happens between apostrophes, doubled ones with them. -/
theorem numbered_doubled (t : List Char) (k : Nat) (r : List Char) :
    numbered true k (Text.doubled '\'' t ++ r) = Text.doubled '\'' t ++ numbered true k r := by
  induction t with
  | nil => rfl
  | cons c t ih =>
    rw [Text.doubled_cons]
    by_cases hc : c = '\''
    · subst hc
      rw [if_pos rfl]
      show numbered true k ('\'' :: '\'' :: (Text.doubled '\'' t ++ r)) = _
      rw [numbered, if_pos rfl, numbered, if_pos rfl, Bool.not_true, Bool.not_false, ih]
      rfl
    · rw [if_neg hc]
      show numbered true k (c :: (Text.doubled '\'' t ++ r)) = _
      rw [numbered, if_neg hc, if_neg (fun h => Bool.noConfusion h.2), ih]
      rfl

/-- Nothing happens to a text between apostrophes. -/
theorem numbered_enclose (t : List Char) (k : Nat) (r : List Char) :
    numbered false k (Text.enclose '\'' t ++ r) = Text.enclose '\'' t ++ numbered false k r := by
  have hinside := numbered_doubled t k ('\'' :: r)
  show numbered false k ('\'' :: (Text.doubled '\'' t ++ ['\''] ++ r)) = _
  rw [numbered, if_pos rfl, Bool.not_false, List.append_assoc, List.singleton_append, hinside,
    numbered, if_pos rfl, Bool.not_true]
  simp [Text.enclose]

/-- **Numbering a text numbers its lexemes.** -/
theorem numbered_spell {q : Char} {ls : List Lexeme} (h : ∀ l ∈ ls, IsClean l q) (k : Nat) :
    numbered false k (spell q ls) = spell q (Dialect.placeFrom .postgresql k ls) := by
  induction ls generalizing k with
  | nil => rfl
  | cons l ls ih =>
    obtain ⟨hl, hls⟩ := List.forall_mem_cons.1 h
    rw [spell_cons, Dialect.placeFrom]
    cases hslot : l.isSlot with
    | true =>
      obtain rfl := hl.slot hslot
      rw [if_pos rfl, spell_cons, ← ih hls]
      rfl
    | false =>
      rw [if_neg Bool.false_ne_true, spell_cons, ← ih hls]
      obtain ⟨t, rfl⟩ | hapostrophe := hl.apostrophe
      · exact numbered_enclose t k _
      · exact numbered_append (hl.question hslot) hapostrophe false k _

/-- Without numbers a placeholder keeps its form. -/
theorem placeFrom_eq_self {d : Dialect} (hd : ∀ n, d.slotAt n = slot) {ls : List Lexeme}
    (h : ∀ l ∈ ls, l.isSlot = true → l = slot) (k : Nat) : d.placeFrom k ls = ls := by
  induction ls generalizing k with
  | nil => rfl
  | cons l ls ih =>
    obtain ⟨hl, hls⟩ := List.forall_mem_cons.1 h
    rw [Dialect.placeFrom, ih hls, ih hls, hd]
    split
    · rename_i hslot
      rw [hl hslot]
    · rfl

/-- The text of a clause has its placeholders in the form of the dialect. -/
theorem placed_spell (d : Dialect) {q : Char} {ls : List Lexeme} (h : ∀ l ∈ ls, IsClean l q) :
    d.placed (spell q ls) = spell q (d.placeFrom 0 ls) := by
  cases d with
  | postgresql => exact numbered_spell h 0
  | mysql => rw [placeFrom_eq_self (fun _ => rfl) fun l hl => (h l hl).slot]; rfl
  | sqlite => rw [placeFrom_eq_self (fun _ => rfl) fun l hl => (h l hl).slot]; rfl

/-! ### Reading numbered text -/

/-- The placeholder of a number can be written. -/
theorem isProper_slotAt (d : Dialect) (n : Nat) : (d.slotAt n).IsProper := by
  cases d with
  | postgresql =>
    refine ⟨Nat.toDigits_ne_nil, List.all_eq_true.2 fun c hc => ?_⟩
    exact Nat.isDigit_of_mem_toDigits (by decide) (by decide) hc
  | _ => trivial

/-- A placeholder can be told apart from what stands before it. -/
theorem apart_slotAt {q : Char} (hq : IsQuote q) (l : Lexeme) (d : Dialect) (n : Nat) :
    Apart q l (d.slotAt n) := by
  have hdollar : ∀ c ∈ ['$', '?'], l.clings q c = false := by
    have hquote : '$' ≠ q ∧ '?' ≠ q := ⟨hq.ne (by decide), hq.ne (by decide)⟩
    cases l <;> (simp [clings, hquote]; try decide)
  cases d with
  | postgresql => rintro c ⟨⟩; exact hdollar '$' (by simp)
  | _ => rintro c ⟨⟩; exact hdollar '?' (by simp)

/-- What can be told apart from a placeholder can be told apart from one with a number. -/
theorem slotAt_apart {q : Char} {l m : Lexeme} (hl : l.isSlot = true) (h : Apart q l m)
    (d : Dialect) (n : Nat) : Apart q (d.slotAt n) m := by
  intro c hc
  have hdigit : c.isDigit = false := by
    cases l <;> first | exact h c hc | cases hl
  cases d <;> exact hdigit

/-- What numbering can make of a lexeme: a placeholder takes a number, and a name can be read as
another. -/
inductive IsVariant (d : Dialect) : Lexeme → Lexeme → Prop
  | same (l : Lexeme) : IsVariant d l l
  | name (s t : List Char) : IsVariant d (quoted s) (quoted t)
  | placed {l : Lexeme} (n : Nat) : l.isSlot = true → IsVariant d l (d.slotAt n)

/-- A variant of what can be written can be written. -/
theorem IsVariant.isProper {d : Dialect} {l l' : Lexeme} (h : IsVariant d l l')
    (hl : l.IsProper) : l'.IsProper := by
  cases h with
  | same => exact hl
  | name => trivial
  | placed n => exact isProper_slotAt d n

/-- Variants do not cling where their lexemes do not. -/
theorem IsVariant.apart {q : Char} (hq : IsQuote q) {d : Dialect} {l l' m m' : Lexeme}
    (hl : IsVariant d l l') (hm : IsVariant d m m') (h : Apart q l m) : Apart q l' m' := by
  have hleft : Apart q l' m := by
    cases hl with
    | same => exact h
    | name => exact h
    | placed n hslot => exact slotAt_apart hslot h d n
  cases hm with
  | same => exact hleft
  | name => exact hleft
  | placed n => exact apart_slotAt hq l' d n

/-- Variants can be told apart like the lexemes that they are made of. -/
theorem isLaid_of_variants {q : Char} (hq : IsQuote q) {d : Dialect} {ls ms : List Lexeme}
    (h : IsLaid q ls) (hv : List.Forall₂ (IsVariant d) ls ms) : IsLaid q ms := by
  induction hv with
  | nil => exact h
  | @cons l l' ls ms hl hrest ih =>
    have htail := ih h.tail
    refine ⟨List.forall_mem_cons.2 ⟨hl.isProper (h.proper l (by simp)), htail.proper⟩, ?_⟩
    cases hrest with
    | nil => exact .singleton _
    | cons hm _ =>
      exact .cons_cons (hl.apart hq hm (List.isChain_cons_cons.1 h.apart).1) htail.apart

/-- Putting numbers makes a variant of each lexeme. -/
theorem variants_placeFrom (d : Dialect) (k : Nat) (ls : List Lexeme) :
    List.Forall₂ (IsVariant d) ls (d.placeFrom k ls) := by
  induction ls generalizing k with
  | nil => exact .nil
  | cons l ls ih =>
    rw [Dialect.placeFrom]
    split
    · rename_i hslot
      exact .cons (.placed _ hslot) (ih _)
    · exact .cons (.same l) (ih k)

/-- Numbered lexemes can be told apart like those without numbers. -/
theorem isLaid_placeFrom {q : Char} (hq : IsQuote q) (d : Dialect) {ls : List Lexeme}
    (h : IsLaid q ls) (k : Nat) : IsLaid q (d.placeFrom k ls) :=
  isLaid_of_variants hq h (variants_placeFrom d k ls)

/-- A text without dollar signs has no placeholders. -/
theorem dollars_append {s : List Char} (h : '$' ∉ s) (r : List Char) :
    Dialect.dollars (s ++ r) = Dialect.dollars r := by
  induction s with
  | nil => rfl
  | cons c s ih =>
    rw [List.mem_cons, not_or] at h
    rw [List.cons_append, Dialect.dollars, if_neg (Ne.symm h.1), ih h.2]

/-- Where only placeholders have dollar signs, these are the placeholders. -/
theorem dollars_spell {q : Char} {ls : List Lexeme} (h : IsLaid q ls)
    (hslot : ∀ l ∈ ls, l.isSlot = true → ∃ ds, l = .numbered ds)
    (hplain : ∀ l ∈ ls, l.isSlot = false → '$' ∉ l.write q) :
    Dialect.dollars (spell q ls) = (ls.filter isSlot).map (write q) := by
  induction ls with
  | nil => rfl
  | cons l ls ih =>
    have hrest := ih h.tail (fun m hm => hslot m (List.mem_cons_of_mem l hm))
      fun m hm => hplain m (List.mem_cons_of_mem l hm)
    cases hl : l.isSlot with
    | true =>
      obtain ⟨ds, rfl⟩ := hslot l (by simp) hl
      have hds : ds.all Char.isDigit = true := (h.proper (.numbered ds) (by simp)).2
      have hdollar : '$' ∉ ds := fun hmem => absurd (List.all_eq_true.1 hds '$' hmem) (by decide)
      rw [List.filter_cons_of_pos hl, List.map_cons, ← hrest]
      show Dialect.dollars ('$' :: (ds ++ spell q ls)) = _
      rw [Dialect.dollars, if_pos rfl, (Decimal.span_append (List.all_eq_true.1 hds) h.head).1, dollars_append hdollar]
      rfl
    | false =>
      rw [List.filter_cons_of_neg (by rw [hl]; exact Bool.false_ne_true), ← hrest]
      exact dollars_append (hplain l (by simp) hl) _

/-- Where only placeholders have question marks, these are the placeholders. -/
theorem filter_spell {q : Char} {ls : List Lexeme} (h : ∀ l ∈ ls, IsClean l q) :
    ((spell q ls).filter (· == '?')).map (fun c => [c]) = (ls.filter isSlot).map (write q) := by
  induction ls with
  | nil => rfl
  | cons l ls ih =>
    obtain ⟨hl, hls⟩ := List.forall_mem_cons.1 h
    rw [spell_cons, List.filter_append, List.map_append, ih hls]
    cases hslot : l.isSlot with
    | true =>
      obtain rfl := hl.slot hslot
      rw [List.filter_cons_of_pos hslot]
      rfl
    | false =>
      have hnone : (l.write q).filter (· == '?') = [] := by
        rw [List.filter_eq_nil_iff]
        intro c hc heq
        exact hl.question hslot (beq_iff_eq.1 heq ▸ hc)
      rw [List.filter_cons_of_neg (by rw [hslot]; exact Bool.false_ne_true), hnone]
      rfl

/-- **The placeholders of a text are the numbers from one on, each once and in order.** -/
theorem placeholders_spell {d : Dialect} {q : Char} (hq : IsQuote q) {ls : List Lexeme}
    (h : IsLaid q ls) (hclean : ∀ l ∈ ls, IsClean l q)
    (hdollar : d = .postgresql → ∀ l ∈ ls, '$' ∉ l.write q) :
    d.placeholders (spell q (d.placeFrom 0 ls)) =
      (List.range' 1 (ls.countP isSlot)).map fun n => (d.slotAt n).write q := by
  have hslots : ((d.placeFrom 0 ls).filter isSlot).map (write q) =
      (List.range' 1 (ls.countP isSlot)).map fun n => (d.slotAt n).write q := by
    rw [d.filter_isSlot_placeFrom, List.map_map]
    rfl
  rw [← hslots]
  cases d with
  | postgresql =>
    refine dollars_spell (isLaid_placeFrom hq _ h 0) ?_ ?_
    · intro l hl hslot
      obtain ⟨n, rfl⟩ | ⟨hplain, -⟩ := Dialect.mem_placeFrom hl
      · exact ⟨_, rfl⟩
      · rw [hslot] at hplain
        exact Bool.noConfusion hplain
    · intro l hl hplain
      obtain ⟨n, rfl⟩ | ⟨-, hmem⟩ := Dialect.mem_placeFrom hl
      · exact Bool.noConfusion hplain
      · exact hdollar rfl l hmem
  | mysql =>
    rw [placeFrom_eq_self (fun _ => rfl) fun l hl => (hclean l hl).slot]
    exact filter_spell hclean
  | sqlite =>
    rw [placeFrom_eq_self (fun _ => rfl) fun l hl => (hclean l hl).slot]
    exact filter_spell hclean

end Sql
end SearchFilter
