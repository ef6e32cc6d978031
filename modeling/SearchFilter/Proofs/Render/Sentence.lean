/-
# Sentences

The boolean structure of a rendered filter, in lexemes, around the predicates that a
target writes in its own way.

| filter | sentence |
| --- | --- |
| `and l r`, `or l r` | `(l) AND (r)`, `(l) OR (r)` |
| `mustNot f` | `NOT (f)` |
| `must f` | as `f` |
| `equals c` of a group `f` | `(f)` |
| a predicate | what the target says |

What holds of the predicates holds of sentences: they can be told apart
(`isLaid_sentence`), they consist of the same lexemes and connectives
(`forall_mem_sentence`), and the predicates stand in them in order
(`exists_sentence_eq`).
-/

import SearchFilter.Proofs.Outcome
import SearchFilter.Proofs.Render.Lexeme
import SearchFilter.Proofs.Tree.Predicates

namespace SearchFilter

open Lexeme

namespace Lexeme

/-- A fixed word. -/
def keyword (s : String) : Lexeme := word s.toList

/-- Whether a lexeme is a placeholder. -/
@[simp] def isSlot : Lexeme → Bool
  | slot => true
  | numbered _ => true
  | _ => false

/-- Lexemes between parentheses. -/
def grouped (ls : List Lexeme) : List Lexeme := mark '(' :: (ls ++ [mark ')'])

/-- Lexemes between parentheses, with an operator between them. -/
def joined (operator : String) (ls ms : List Lexeme) : List Lexeme :=
  grouped ls ++ mark ' ' :: keyword operator :: mark ' ' :: grouped ms

/-- What stands in a sentence beside its predicates. -/
def connectives : List Lexeme :=
  [mark '(', mark ')', mark ' ', keyword "AND", keyword "OR", keyword "NOT"]

/-- A part of the lexemes stands behind `n` placeholders. -/
def Stands (part : List Lexeme) (n : Nat) (ls : List Lexeme) : Prop :=
  ∃ front back, ls = front ++ (part ++ back) ∧ front.countP isSlot = n

/-- What stands in a part of the lexemes stands in the whole, behind the placeholders in front as
well. -/
theorem Stands.within {part ls : List Lexeme} {n : Nat} (h : Stands part n ls)
    (ms ns : List Lexeme) : Stands part (ms.countP isSlot + n) (ms ++ (ls ++ ns)) := by
  obtain ⟨front, back, rfl, rfl⟩ := h
  refine ⟨ms ++ front, back ++ ns, by simp, List.countP_append⟩

variable {q : Char}

/-- A fixed word that is an identifier can be written. -/
theorem isProper_keyword {s : String} (h : Text.isIdentifier s.toList = true) :
    (keyword s).IsProper := isProper_word h

/-! ### Lexemes side by side -/

/-- No mark clings to what stands before it. -/
theorem apart_mark (hq : IsQuote q) {c : Char} (hc : c ∈ marks) (l : Lexeme) :
    Apart q l (mark c) := by
  have hkinds : ∀ d ∈ marks, (d ≠ '"' ∧ d ≠ '\x60') ∧ d ≠ '\'' ∧ d.isDigit = false ∧
      isPathPart d = false ∧ d ≠ '.' := by simp [marks, isPathPart, Text.isNamePart]
  obtain ⟨hquote, hapostrophe, hdigit, hpath, hpoint⟩ := hkinds c hc
  rintro d ⟨⟩
  cases l <;> simp [clings, hq.ne hquote, hapostrophe, hdigit, hpath, hpoint]

/-- Nothing clings to a mark that is no minus sign. -/
theorem mark_apart {c : Char} (hc : c ≠ '-') (l : Lexeme) : Apart q (mark c) l := by
  intro d _
  simp [clings, hc]

/-- No lexemes can be told apart. -/
@[simp] theorem isLaid_nil : IsLaid q [] := ⟨by simp, .nil⟩

/-- A lexeme alone only has to be one that can be written. -/
@[simp] theorem isLaid_singleton {l : Lexeme} : IsLaid q [l] ↔ l.IsProper :=
  ⟨fun h => h.proper l (by simp), fun h => ⟨by simpa using h, .singleton l⟩⟩

/-- Behind a mark anything can stand. -/
@[simp] theorem isLaid_mark_cons {c : Char} (hc : c ≠ '-') {ls : List Lexeme} :
    IsLaid q (mark c :: ls) ↔ c ∈ marks ∧ IsLaid q ls := by
  constructor
  · intro h
    exact ⟨h.proper (mark c) (by simp), fun l hl => h.proper l (by simp [hl]), h.apart.tail⟩
  · rintro ⟨hmark, h⟩
    refine ⟨List.forall_mem_cons.2 ⟨hmark, h.proper⟩, ?_⟩
    cases ls with
    | nil => exact .singleton _
    | cons l ls => exact .cons_cons (mark_apart hc l) h.apart

/-- In front of a mark anything can stand. -/
@[simp] theorem isLaid_append_mark (hq : IsQuote q) {c : Char} {ls ms : List Lexeme} :
    IsLaid q (ls ++ mark c :: ms) ↔ IsLaid q ls ∧ IsLaid q (mark c :: ms) := by
  constructor
  · intro h
    obtain ⟨h₁, h₂, -⟩ := List.isChain_append.1 h.apart
    exact ⟨⟨fun l hl => h.proper l (by simp [hl]), h₁⟩,
      fun l hl => h.proper l (List.mem_append_right _ hl), h₂⟩
  · rintro ⟨h₁, h₂⟩
    refine ⟨fun l hl => (List.mem_append.1 hl).elim (h₁.proper l) (h₂.proper l), ?_⟩
    refine List.isChain_append.2 ⟨h₁.apart, h₂.apart, ?_⟩
    rintro l - m hm
    obtain rfl : mark c = m := by simpa using hm
    exact apart_mark hq (h₂.proper (mark c) (by simp)) l

/-- A lexeme in front of a mark can be told apart from it. -/
@[simp] theorem isLaid_cons_mark (hq : IsQuote q) {c : Char} {l : Lexeme} {ls : List Lexeme} :
    IsLaid q (l :: mark c :: ls) ↔ l.IsProper ∧ IsLaid q (mark c :: ls) := by
  rw [← List.singleton_append, isLaid_append_mark hq, isLaid_singleton]

/-- Parentheses can be told apart from what stands between them. -/
@[simp] theorem isLaid_grouped (hq : IsQuote q) {ls : List Lexeme} :
    IsLaid q (grouped ls) ↔ IsLaid q ls := by
  have hclosing : IsLaid q [mark ')'] := isLaid_singleton.2 (show ')' ∈ marks by decide)
  rw [grouped, isLaid_mark_cons (by decide), isLaid_append_mark hq]
  exact ⟨fun h => h.2.1, fun h => ⟨by decide, h, hclosing⟩⟩

/-- Joined lexemes can be told apart. -/
theorem isLaid_joined (hq : IsQuote q) {operator : String} (hop : (keyword operator).IsProper)
    {ls ms : List Lexeme} (hl : IsLaid q ls) (hm : IsLaid q ms) :
    IsLaid q (joined operator ls ms) := by
  rw [joined, isLaid_append_mark hq, isLaid_mark_cons (by decide), isLaid_cons_mark hq,
    isLaid_mark_cons (by decide), isLaid_grouped hq, isLaid_grouped hq]
  exact ⟨hl, by decide, hop, by decide, hm⟩

end Lexeme

/-! ### Sentences -/

namespace Filter

/-- The sentence of a filter whose predicates are written as `p` says. -/
def sentence (p : Filter → List Lexeme) : Filter → List Lexeme
  | equals _ (.group f) => grouped (f.sentence p)
  | and l r => joined "AND" (l.sentence p) (r.sentence p)
  | or l r => joined "OR" (l.sentence p) (r.sentence p)
  | must f => f.sentence p
  | mustNot f => keyword "NOT" :: mark ' ' :: grouped (f.sentence p)
  | f => p f

/-- The sentence of a predicate is what the target says. -/
theorem sentence_of_isPredicate {f : Filter} (h : f.isPredicate = true)
    (p : Filter → List Lexeme) : f.sentence p = p f := by
  unfold isPredicate at h
  split at h <;> first | exact absurd h (by decide) | exact sentence.eq_6 _ _ ‹_› ‹_› ‹_› ‹_› ‹_›

/-- A sentence can be told apart if its predicates can. -/
theorem isLaid_sentence {q : Char} (hq : IsQuote q) {p : Filter → List Lexeme} {f : Filter}
    (h : ∀ g ∈ f.predicates, IsLaid q (p g)) : IsLaid q (f.sentence p) := by
  induction f using predicate_induction with
  | group c f ih => exact (isLaid_grouped hq).2 (ih h)
  | and l r ihl ihr =>
    rw [predicates, List.forall_mem_append] at h
    exact isLaid_joined hq (isProper_keyword (by decide +kernel)) (ihl h.1) (ihr h.2)
  | or l r ihl ihr =>
    rw [predicates, List.forall_mem_append] at h
    exact isLaid_joined hq (isProper_keyword (by decide +kernel)) (ihl h.1) (ihr h.2)
  | must f ih => exact ih h
  | mustNot f ih =>
    rw [sentence, isLaid_cons_mark hq, isLaid_mark_cons (by decide), isLaid_grouped hq]
    exact ⟨isProper_keyword (by decide +kernel), by decide, ih h⟩
  | predicate f hf =>
    rw [predicates_of_isPredicate hf] at h
    rw [sentence_of_isPredicate hf]
    exact h f (by simp)

/-- What holds of the connectives and within the predicates holds of a sentence. -/
theorem forall_mem_sentence {Q : Lexeme → Prop} (hQ : ∀ l ∈ connectives, Q l)
    {p : Filter → List Lexeme} {f : Filter} (h : ∀ g ∈ f.predicates, ∀ l ∈ p g, Q l) :
    ∀ l ∈ f.sentence p, Q l := by
  simp only [connectives, List.forall_mem_cons] at hQ
  obtain ⟨hopening, hclosing, hblank, hand, hor, hnot, -⟩ := hQ
  have hgrouped {ls : List Lexeme} (hls : ∀ l ∈ ls, Q l) : ∀ l ∈ grouped ls, Q l := by
    simp only [grouped, List.forall_mem_cons, List.forall_mem_append]
    exact ⟨hopening, hls, hclosing, by simp⟩
  have hjoined {operator : String} (hop : Q (keyword operator)) {ls ms : List Lexeme}
      (hls : ∀ l ∈ ls, Q l) (hms : ∀ l ∈ ms, Q l) : ∀ l ∈ joined operator ls ms, Q l := by
    rw [joined, List.forall_mem_append]
    exact ⟨hgrouped hls, by simpa [hblank, hop] using hgrouped hms⟩
  induction f using predicate_induction with
  | group c f ih => exact hgrouped (ih h)
  | and l r ihl ihr =>
    rw [predicates, List.forall_mem_append] at h
    exact hjoined hand (ihl h.1) (ihr h.2)
  | or l r ihl ihr =>
    rw [predicates, List.forall_mem_append] at h
    exact hjoined hor (ihl h.1) (ihr h.2)
  | must f ih => exact ih h
  | mustNot f ih =>
    rw [sentence, List.forall_mem_cons, List.forall_mem_cons]
    exact ⟨hnot, hblank, hgrouped (ih h)⟩
  | predicate f hf =>
    rw [predicates_of_isPredicate hf] at h
    rw [sentence_of_isPredicate hf]
    exact h f (by simp)

/-- Parentheses add no placeholder. -/
theorem countP_grouped (ls : List Lexeme) : (grouped ls).countP isSlot = ls.countP isSlot := by
  simp [grouped, isSlot]

/-- Connectives have no placeholders: those of a sentence are those of its predicates. -/
theorem countP_sentence (p : Filter → List Lexeme) (f : Filter) :
    (f.sentence p).countP isSlot = (f.predicates.flatMap p).countP isSlot := by
  have hjoined (operator : String) (ls ms : List Lexeme) :
      (joined operator ls ms).countP isSlot = ls.countP isSlot + ms.countP isSlot := by
    simp [joined, countP_grouped, isSlot, keyword]
  induction f using predicate_induction with
  | group c f ih => rw [sentence, countP_grouped, ih, predicates]
  | and l r ihl ihr =>
    rw [sentence, hjoined, ihl, ihr, predicates, List.flatMap_append, List.countP_append]
  | or l r ihl ihr =>
    rw [sentence, hjoined, ihl, ihr, predicates, List.flatMap_append, List.countP_append]
  | must f ih => rw [sentence, ih, predicates]
  | mustNot f ih => simp [sentence, predicates, countP_grouped, ih, keyword, isSlot]
  | predicate f hf =>
    rw [predicates_of_isPredicate hf, sentence_of_isPredicate hf]
    simp

/-- What the connectives have nothing of, a sentence has of its predicates. -/
theorem filterMap_sentence {α : Type} {g : Lexeme → Option α} (hg : ∀ l ∈ connectives, g l = none)
    (p : Filter → List Lexeme) (f : Filter) :
    (f.sentence p).filterMap g = (f.predicates.flatMap p).filterMap g := by
  simp only [connectives, List.forall_mem_cons] at hg
  obtain ⟨hopening, hclosing, hblank, hand, hor, hnot, -⟩ := hg
  have hgrouped (ls : List Lexeme) : (grouped ls).filterMap g = ls.filterMap g := by
    simp [grouped, hopening, hclosing]
  have hjoined {operator : String} (hop : g (keyword operator) = none) (ls ms : List Lexeme) :
      (joined operator ls ms).filterMap g = ls.filterMap g ++ ms.filterMap g := by
    simp [joined, hgrouped, hblank, hop]
  induction f using predicate_induction with
  | group c f ih => rw [sentence, hgrouped, ih, predicates]
  | and l r ihl ihr =>
    rw [sentence, hjoined hand, ihl, ihr, predicates, List.flatMap_append, List.filterMap_append]
  | or l r ihl ihr =>
    rw [sentence, hjoined hor, ihl, ihr, predicates, List.flatMap_append, List.filterMap_append]
  | must f ih => rw [sentence, ih, predicates]
  | mustNot f ih => simp [sentence, predicates, hnot, hblank, hgrouped, ih]
  | predicate f hf => rw [predicates_of_isPredicate hf, sentence_of_isPredicate hf]; simp

/-- Of two joined sentences, a predicate of the second stands behind all of the first. -/
theorem stands_joined {p : Filter → List Lexeme} {l r g : Filter} {before after : List Filter}
    (operator : String)
    (ihl : ∀ {before after}, l.predicates = before ++ g :: after →
      Stands (p g) ((before.flatMap p).countP isSlot) (l.sentence p))
    (ihr : ∀ {before after}, r.predicates = before ++ g :: after →
      Stands (p g) ((before.flatMap p).countP isSlot) (r.sentence p))
    (h : l.predicates ++ r.predicates = before ++ g :: after) :
    Stands (p g) ((before.flatMap p).countP isSlot)
      (joined operator (l.sentence p) (r.sentence p)) := by
  have inLeft {before after : List Filter} (h : l.predicates = before ++ g :: after) :
      Stands (p g) ((before.flatMap p).countP isSlot)
        (joined operator (l.sentence p) (r.sentence p)) := by
    have hstands := (ihl h).within [mark '('] ([mark ')'] ++
      mark ' ' :: keyword operator :: mark ' ' :: grouped (r.sentence p))
    simpa [joined, grouped, isSlot] using hstands
  have inRight {before after : List Filter} (h : r.predicates = before ++ g :: after) :
      Stands (p g) (((l.predicates ++ before).flatMap p).countP isSlot)
        (joined operator (l.sentence p) (r.sentence p)) := by
    have hstands := (ihr h).within
      (grouped (l.sentence p) ++ [mark ' ', keyword operator, mark ' ', mark '(']) [mark ')']
    rw [List.countP_append, countP_grouped, countP_sentence] at hstands
    simpa [joined, grouped, isSlot, keyword] using hstands
  -- the first part ends in front of the predicate or behind it
  rcases List.append_eq_append_iff.1 h with ⟨rest, rfl, hr⟩ | ⟨rest, hl, hafter⟩
  · exact inRight hr
  · cases rest with
    | nil =>
      rw [List.append_nil] at hl
      subst hl
      have hright := @inRight [] after hafter.symm
      rwa [List.append_nil] at hright
    | cons g' rest =>
      obtain ⟨rfl, -⟩ := List.cons.inj hafter
      exact inLeft hl

/-- **A predicate stands in the sentence,** behind as many placeholders as the
predicates before it have. -/
theorem stands_sentence (p : Filter → List Lexeme) {f g : Filter} {before after : List Filter}
    (h : f.predicates = before ++ g :: after) :
    Stands (p g) ((before.flatMap p).countP isSlot) (f.sentence p) := by
  induction f using predicate_induction generalizing before after with
  | group c f ih => simpa [sentence, grouped, isSlot] using (ih h).within [mark '('] [mark ')']
  | and l r ihl ihr => exact stands_joined "AND" ihl ihr h
  | or l r ihl ihr => exact stands_joined "OR" ihl ihr h
  | must f ih => exact ih h
  | mustNot f ih =>
    simpa [sentence, grouped, isSlot, keyword] using
      (ih h).within [keyword "NOT", mark ' ', mark '('] [mark ')']
  | predicate f hf =>
    rw [predicates_of_isPredicate hf] at h
    cases before with
    | nil =>
      obtain ⟨rfl, -⟩ := List.cons.inj h
      rw [sentence_of_isPredicate hf]
      exact ⟨[], [], by simp, rfl⟩
    | cons b before => simp at h

end Filter

/-! ### Rendered filters -/

namespace Target

variable {α : Type} {t : Target α}

/-- **What every predicate keeps when it is rendered, and every connective hands on,
holds of every rendered filter.** -/
theorem render_induction {P : Filter → Fragment α → Prop}
    (predicate : ∀ {f a}, f.isPredicate = true → t.render f = .ok a → P f a)
    (group : ∀ {c f a}, P f a → P (.equals c (.group f)) a.grouped)
    (and : ∀ {l r a b}, P l a → P r b → P (.and l r) (.joined " AND " a b))
    (or : ∀ {l r a b}, P l a → P r b → P (.or l r) (.joined " OR " a b))
    (must : ∀ {f a}, P f a → P (.must f) a)
    (mustNot : ∀ {f a}, P f a → P (.mustNot f) (.word "NOT " ++ a.grouped))
    {f : Filter} {a : Fragment α} (h : t.render f = .ok a) : P f a := by
  induction f using Filter.predicate_induction generalizing a with
  | group c f ih =>
    obtain ⟨b, hb, hpure⟩ := bind_eq_ok.1 h
    obtain rfl := pure_eq_ok.1 hpure
    exact group (ih hb)
  | and l r ihl ihr =>
    obtain ⟨b, hb, h⟩ := bind_eq_ok.1 h
    obtain ⟨d, hd, h⟩ := bind_eq_ok.1 h
    obtain rfl := Except.ok.inj h
    exact and (ihl hb) (ihr hd)
  | or l r ihl ihr =>
    obtain ⟨b, hb, h⟩ := bind_eq_ok.1 h
    obtain ⟨d, hd, h⟩ := bind_eq_ok.1 h
    obtain rfl := Except.ok.inj h
    exact or (ihl hb) (ihr hd)
  | must f ih => exact must (ih h)
  | mustNot f ih =>
    obtain ⟨b, hb, hpure⟩ := bind_eq_ok.1 h
    obtain rfl := pure_eq_ok.1 hpure
    exact mustNot (ih hb)
  | predicate f hf => exact predicate hf h

/-- A predicate as a target writes it. -/
inductive Renders (t : Target α) : Filter → Fragment α → Prop
  | equals {c : Column} {v : Value} {b : Fragment α} : (Filter.equals c v).isPredicate = true →
    t.equals c v = .ok b → Renders t (.equals c v) b
  | compare {op : Comparison} {c : Column} {v : Value} {b : Fragment α} :
    t.compare op c v = .ok b → Renders t (.compare op c v) b
  | like {c : Column} {p : String} {b : Fragment α} : t.like c p = .ok b → Renders t (.like c p) b
  | wild {c : Column} {p : String} {b : Fragment α} : t.wild c p = .ok b → Renders t (.wild c p) b
  | range {c : Column} {min max : Option Value} {inclusive : Bool} {b : Fragment α} :
    t.range c min max inclusive = .ok b → Renders t (.range c min max inclusive) b
  | fuzzy {f : Filter} {distance : Option Nat} {b : Fragment α} :
    t.fuzzy f = .ok b → Renders t (.fuzzy f distance) b

/-- No bare value and no boost is rendered. -/
theorem renders_of_render {g : Filter} {b : Fragment α} (hg : g.isPredicate = true)
    (h : t.render g = .ok b) : t.Renders g b := by
  cases g with
  | equals c v =>
    cases v with
    | group f => cases hg
    | text s => exact .equals hg h
    | number x => exact .equals hg h
  | compare op c v => exact .compare h
  | like c p => exact .like h
  | wild c p => exact .wild h
  | range c min max inclusive => exact .range h
  | fuzzy f distance => exact .fuzzy h
  | literal v => cases h
  | boost f power => cases h
  | and l r => cases hg
  | or l r => cases hg
  | must f => cases hg
  | mustNot f => cases hg

/-- A comparison that is rendered: the column, the sign and the value. -/
theorem exists_of_compare {op : Comparison} {c : Column} {v : Value} {b : Fragment α}
    (h : t.compare op c v = .ok b) : ∃ text a, t.column c = .ok text ∧ t.value v = .ok a ∧
      b = .plain text ++ .word (" " ++ op.sign ++ " ") ++ a := by
  unfold compare at h
  split at h
  · cases h
  · obtain ⟨text, hcolumn, h⟩ := bind_eq_ok.1 h
    obtain ⟨a, ha, h⟩ := bind_eq_ok.1 h
    exact ⟨text, a, hcolumn, ha, (Except.ok.inj h).symm⟩

/-- What is written for a range: a column beside its only bound, or between both. -/
inductive Ranges (t : Target α) (text : List Char) :
    Option Value → Option Value → Bool → Fragment α → Prop
  | above {low : Value} {inclusive : Bool} {a : Fragment α} : t.bound low = .ok a →
    Ranges t text (some low) none inclusive
      (.plain text ++ .word (if inclusive then " >= " else " > ") ++ a)
  | below {high : Value} {inclusive : Bool} {a : Fragment α} : t.bound high = .ok a →
    Ranges t text none (some high) inclusive
      (.plain text ++ .word (if inclusive then " <= " else " < ") ++ a)
  | between {low high : Value} {inclusive : Bool} {a b : Fragment α} :
    t.bound low = .ok a → t.bound high = .ok b →
    Ranges t text (some low) (some high) inclusive
      (if inclusive then .plain text ++ .word " BETWEEN " ++ a ++ .word " AND " ++ b
      else .word "(" ++ .plain text ++ .word " > " ++ a ++ .word " AND " ++ .plain text ++
        .word " < " ++ b ++ .word ")")

/-- A range that is rendered has a column and a bound. -/
theorem exists_ranges {c : Column} {min max : Option Value} {inclusive : Bool} {b : Fragment α}
    (h : t.range c min max inclusive = .ok b) :
    ∃ text, t.column c = .ok text ∧ t.Ranges text min max inclusive b := by
  unfold range at h
  split at h
  · cases h
  obtain ⟨text, hcolumn, h⟩ := bind_eq_ok.1 h
  refine ⟨text, hcolumn, ?_⟩
  cases min with
  | none =>
    cases max with
    | none => cases h
    | some high =>
      obtain ⟨a, ha, h⟩ := bind_eq_ok.1 h
      exact Except.ok.inj h ▸ .below ha
  | some low =>
    cases max with
    | none =>
      obtain ⟨a, ha, h⟩ := bind_eq_ok.1 h
      exact Except.ok.inj h ▸ .above ha
    | some high =>
      obtain ⟨a, ha, h⟩ := bind_eq_ok.1 h
      obtain ⟨b, hb, h⟩ := bind_eq_ok.1 h
      have hranges : t.Ranges text (some low) (some high) inclusive _ := .between ha hb
      cases inclusive <;> exact Except.ok.inj h ▸ hranges

/-- A range that is rendered has a bound. -/
theorem isSome_of_range {c : Column} {min max : Option Value} {inclusive : Bool} {b : Fragment α}
    (h : t.range c min max inclusive = .ok b) : min.isSome = true ∨ max.isSome = true := by
  obtain ⟨_, -, h⟩ := exists_ranges h
  cases h with
  | above | between => exact .inl rfl
  | below => exact .inr rfl

end Target

/-- A fragment writes the sentence of its filter and has the values of the predicates,
each of which is as `R` says. -/
structure Fragment.Writes {α : Type} (a : Fragment α) (q : Char) (p : Filter → List Lexeme)
    (v : Filter → List α) (R : Filter → Prop) (f : Filter) : Prop where
  text : a.text = spell q (f.sentence p)
  values : a.values = f.predicates.flatMap v
  each : ∀ g ∈ f.predicates, R g

/-- The text between parentheses is that of the lexemes between them. -/
theorem text_grouped {α : Type} {a : Fragment α} {q : Char} {ls : List Lexeme}
    (h : a.text = spell q ls) : a.grouped.text = spell q (grouped ls) := by
  simp [Fragment.grouped, Fragment.word, Fragment.plain, grouped, write, h]

/-- The text of joined fragments is that of their joined lexemes. -/
theorem text_joined {α : Type} {a b : Fragment α} {q : Char} {ls ms : List Lexeme}
    (operator : String) (ha : a.text = spell q ls) (hb : b.text = spell q ms) :
    (Fragment.joined (" " ++ operator ++ " ") a b).text = spell q (joined operator ls ms) := by
  simp [Fragment.joined, Fragment.word, Fragment.plain, joined, keyword, write, text_grouped ha,
    text_grouped hb]

/-- **A target that writes predicates as `p` says writes sentences of them.** -/
theorem Target.writes_of_render {α : Type} {t : Target α} {q : Char} {p : Filter → List Lexeme}
    {v : Filter → List α} {R : Filter → Prop}
    (predicate : ∀ {g b}, g.isPredicate = true → t.render g = .ok b →
      b.text = spell q (p g) ∧ b.values = v g ∧ R g)
    {f : Filter} {a : Fragment α} (h : t.render f = .ok a) : a.Writes q p v R f := by
  refine render_induction (P := fun f a => a.Writes q p v R f) ?_ ?_ ?_ ?_ ?_ ?_ h
  · intro g b hg hb
    obtain ⟨htext, hvalues, heach⟩ := predicate hg hb
    have hpredicates := Filter.predicates_of_isPredicate hg
    exact ⟨by rw [htext, Filter.sentence_of_isPredicate hg],
      by rw [hvalues, hpredicates, List.flatMap_singleton], by simpa [hpredicates] using heach⟩
  · intro c g b hb
    exact ⟨text_grouped hb.text, by rw [Fragment.values_grouped]; exact hb.values, hb.each⟩
  · intro l r a b ha hb
    refine ⟨text_joined "AND" ha.text hb.text, ?_, ?_⟩
    · rw [Fragment.values_joined, ha.values, hb.values, Filter.predicates, List.flatMap_append]
    · exact List.forall_mem_append.2 ⟨ha.each, hb.each⟩
  · intro l r a b ha hb
    refine ⟨text_joined "OR" ha.text hb.text, ?_, ?_⟩
    · rw [Fragment.values_joined, ha.values, hb.values, Filter.predicates, List.flatMap_append]
    · exact List.forall_mem_append.2 ⟨ha.each, hb.each⟩
  · intro g b hb
    exact ⟨hb.text, hb.values, hb.each⟩
  · intro g b hb
    refine ⟨?_, ?_, hb.each⟩
    · rw [Fragment.text_append, text_grouped hb.text]
      simp [Fragment.word, Fragment.plain, Filter.sentence, keyword, write]
    · show [] ++ b.grouped.values = g.predicates.flatMap v
      rw [List.nil_append, Fragment.values_grouped, hb.values]

end SearchFilter
