/-
# The structure of rendered filters

What a target writes has one reading, and that is the boolean structure of the filter.
Every predicate is read as one test, except that a test of a range without its bounds is
the conjunction of two comparisons, and that PartiQL tests for `null` in two ways:

| predicate | reading |
| --- | --- |
| `range c` with both bounds, exclusive | `c > v` and `c < w` |
| `equals c null` in PartiQL | `c IS NULL` or `c IS MISSING` |
| any other | one test |

Blanks do not count for readings. The numbers of placeholders do, but are left out where a
reading is compared with the predicates of the filter.
-/

import SearchFilter.Proofs.Render.Certainty
import SearchFilter.Proofs.Render.Clause
import SearchFilter.Proofs.Render.Statement
import SearchFilter.Render.Provider

namespace SearchFilter

open Lexeme

namespace Lexeme

/-- The lexemes that are no blanks. -/
def unspaced (ls : List Lexeme) : List Lexeme := ls.filter (· ≠ mark ' ')

/-- A placeholder without its number. -/
def unnumbered : Lexeme → Lexeme
  | numbered _ => slot
  | l => l

/-- No lexemes have no blanks to leave out. -/
@[simp] theorem unspaced_nil : unspaced [] = [] := rfl

/-- Blanks are left out of both parts. -/
@[simp] theorem unspaced_append (ls ms : List Lexeme) :
    unspaced (ls ++ ms) = unspaced ls ++ unspaced ms := by simp [unspaced]

/-- A blank is left out. -/
@[simp] theorem unspaced_space (ls : List Lexeme) : unspaced (mark ' ' :: ls) = unspaced ls := by
  simp [unspaced]

/-- What is no blank stays. -/
theorem unspaced_cons {l : Lexeme} (h : l ≠ mark ' ') (ls : List Lexeme) :
    unspaced (l :: ls) = l :: unspaced ls := by simp [unspaced, h]

/-- A keyword stays. -/
@[simp] theorem unspaced_keyword (s : String) (ls : List Lexeme) :
    unspaced (keyword s :: ls) = keyword s :: unspaced ls := unspaced_cons (by simp [keyword]) ls

/-- Parentheses stay around what is left of the lexemes between them. -/
theorem unspaced_grouped (ls : List Lexeme) : unspaced (grouped ls) = grouped (unspaced ls) := by
  simp [grouped, unspaced]

end Lexeme

/-! ### Sentences -/

/-- A way to put placeholders into lexemes, of which `k` others stand before them. -/
structure IsPlacement (place : Nat → List Lexeme → List Lexeme) : Prop where
  nil : ∀ k, place k [] = []
  plain : ∀ k l ls, l.isSlot = false → place k (l :: ls) = l :: place k ls
  append : ∀ k ls ms, place k (ls ++ ms) = place k ls ++ place (k + ls.countP isSlot) ms

/-- Placeholders are put between parentheses as without them. -/
theorem IsPlacement.grouped {place : Nat → List Lexeme → List Lexeme} (h : IsPlacement place)
    (k : Nat) (ls : List Lexeme) : place k (grouped ls) = grouped (place k ls) := by
  rw [Lexeme.grouped, h.plain _ _ _ rfl, h.append, h.plain _ _ _ rfl, h.nil]
  rfl

/-- Placeholders are put into joined lexemes side by side, those of the second behind those of the
first. -/
theorem IsPlacement.joined {place : Nat → List Lexeme → List Lexeme} (h : IsPlacement place)
    (operator : String) (k : Nat) (ls ms : List Lexeme) :
    place k (joined operator ls ms) =
      joined operator (place k ls) (place (k + ls.countP isSlot) ms) := by
  rw [Lexeme.joined, h.append, h.grouped, Filter.countP_grouped, h.plain _ _ _ rfl, h.plain _ _ _ rfl,
    h.plain _ _ _ rfl, h.grouped]
  rfl

/-- Joined lexemes without their blanks are the parts without theirs, with the operator between
them. -/
theorem unspaced_joined (operator : String) (ls ms : List Lexeme) :
    unspaced (joined operator ls ms) =
      grouped (unspaced ls) ++ keyword operator :: grouped (unspaced ms) := by
  rw [joined, unspaced_append, unspaced_space, unspaced_keyword, unspaced_space, unspaced_grouped,
    unspaced_grouped]

/-- Where there are no numbers, none are left out. -/
theorem map_unnumbered_of_forall {f : Formula (List Lexeme)}
    (h : ∀ ls ∈ f.atoms, ∀ l ∈ ls, unnumbered l = l) : f.map (List.map unnumbered) = f := by
  induction f with
  | atom ls =>
    have hls := (List.map_congr_left (h ls (by simp [Formula.atoms]))).trans (List.map_id ls)
    exact congrArg Formula.atom hls
  | not f ih => exact congrArg Formula.not (ih h)
  | and l r ihl ihr =>
    rw [Formula.atoms, List.forall_mem_append] at h
    exact congrArg₂ Formula.and (ihl h.1) (ihr h.2)
  | or l r ihl ihr =>
    rw [Formula.atoms, List.forall_mem_append] at h
    exact congrArg₂ Formula.or (ihl h.1) (ihr h.2)

/-- Lexemes have one reading, which is a given formula but for the numbers of
placeholders. -/
def ReadsAs (f : Formula (List Lexeme)) (ls : List Lexeme) : Prop :=
  ∃ g, HasReading g ls ∧ g.map (List.map unnumbered) = f

/-- What joins two formulas with new atoms joins the formulas with the old ones. -/
theorem exists_joins_of_map {w : Lexeme} {replace : List Lexeme → List Lexeme}
    {f g h : Formula (List Lexeme)} (hw : Joins w (f.map replace) (g.map replace) h) :
    ∃ r, Joins w f g r ∧ r.map replace = h := by
  obtain ⟨hand, rfl⟩ | ⟨hor, rfl⟩ := hw
  · exact ⟨.and f g, .inl ⟨hand, rfl⟩, rfl⟩
  · exact ⟨.or f g, .inr ⟨hor, rfl⟩, rfl⟩

/-- Joined lexemes are read as both parts are, with the connective of the operator between them. -/
theorem readsAs_joined {place : Nat → List Lexeme → List Lexeme} (hplace : IsPlacement place)
    {operator : String} {f g h : Formula (List Lexeme)} {k : Nat} {ls ms : List Lexeme}
    (hw : Joins (keyword operator) f g h) (hl : ReadsAs f (unspaced (place k ls)))
    (hm : ReadsAs g (unspaced (place (k + ls.countP isSlot) ms))) :
    ReadsAs h (unspaced (place k (joined operator ls ms))) := by
  obtain ⟨u, hu, rfl⟩ := hl
  obtain ⟨v, hv, rfl⟩ := hm
  obtain ⟨r, hr, rfl⟩ := exists_joins_of_map hw
  rw [hplace.joined, unspaced_joined]
  exact ⟨r, hu.joined hv hr, rfl⟩

/-- **A target whose predicates have one reading writes sentences that have one reading,**
the structure of the filter. -/
theorem readsAs_sentence {α : Type} {t : Target α} {p : Filter → List Lexeme}
    {place : Nat → List Lexeme → List Lexeme} (hplace : IsPlacement place)
    {formula : Filter → Formula (List Lexeme)}
    (hp : ∀ {g b}, g.isPredicate = true → t.render g = .ok b →
      ∀ k, ReadsAs (formula g) (unspaced (place k (p g))))
    {f : Filter} {a : Fragment α} (h : t.render f = .ok a) (k : Nat) :
    ReadsAs (f.skeleton.bind formula) (unspaced (place k (f.sentence p))) := by
  -- for every `k`, since a second part stands behind the placeholders of the first
  refine Target.render_induction
    (P := fun f _ => ∀ k, ReadsAs (f.skeleton.bind formula) (unspaced (place k (f.sentence p))))
    ?_ ?_ ?_ ?_ ?_ ?_ h k
  · intro g b hg hb k
    rw [Filter.skeleton_of_isPredicate hg, Filter.sentence_of_isPredicate hg]
    exact hp hg hb k
  · intro c g b ih k
    obtain ⟨r, hr, hmap⟩ := ih k
    rw [Filter.sentence, hplace.grouped, unspaced_grouped]
    exact ⟨r, hr.grouped, hmap⟩
  · intro l r a b ihl ihr k
    rw [Filter.skeleton, Formula.bind, Filter.sentence]
    exact readsAs_joined hplace (.inl ⟨rfl, rfl⟩) (ihl k) (ihr _)
  · intro l r a b ihl ihr k
    rw [Filter.skeleton, Formula.bind, Filter.sentence]
    exact readsAs_joined hplace (.inr ⟨rfl, rfl⟩) (ihl k) (ihr _)
  · intro g b ih k
    exact ih k
  · intro g b ih k
    obtain ⟨r, hr, hmap⟩ := ih k
    rw [Filter.sentence, hplace.plain _ _ _ rfl, hplace.plain _ _ _ rfl, hplace.grouped,
      unspaced_keyword, unspaced_space, unspaced_grouped]
    refine ⟨.not r, hr.negated rfl, ?_⟩
    rw [Filter.skeleton, Formula.bind, ← hmap]
    rfl

/-- What is neither a blank nor a placeholder stays at the front. -/
theorem IsPlacement.unspaced_append {place : Nat → List Lexeme → List Lexeme}
    (h : IsPlacement place) {ls : List Lexeme}
    (hls : ∀ l ∈ ls, l.isSlot = false ∧ l ≠ mark ' ') (k : Nat) (ms : List Lexeme) :
    unspaced (place k (ls ++ ms)) = ls ++ unspaced (place k ms) := by
  induction ls with
  | nil => rfl
  | cons l ls ih =>
    obtain ⟨⟨hslot, hspace⟩, hls⟩ := List.forall_mem_cons.1 hls
    rw [List.cons_append, h.plain _ _ _ hslot, unspaced_cons hspace, ih hls, List.cons_append]

/-! ### Predicates in SQL -/

namespace Sql
namespace Dialect

/-- The formula as which a predicate is read. -/
def formula (d : Dialect) : Filter → Formula (List Lexeme)
  | .range c (some _) (some _) false =>
    .and (.atom (unspaced (d.columnLexemes c ++ tested ">")))
      (.atom (unspaced (d.columnLexemes c ++ tested "<")))
  | g => .atom (unspaced (d.predicate g))

/-- A dialect's numbers are a way to put placeholders into lexemes. -/
theorem isPlacement_placeFrom (d : Dialect) : IsPlacement d.placeFrom where
  nil _ := rfl
  plain k l ls h := by rw [placeFrom, h, if_neg Bool.false_ne_true]
  append := d.placeFrom_append

/-- Without its number a placeholder is as it was before it got one. -/
theorem map_unnumbered (d : Dialect) {ls : List Lexeme} (h : ∀ l ∈ ls, unnumbered l = l) (k : Nat) :
    (unspaced (d.placeFrom k ls)).map unnumbered = unspaced ls := by
  induction ls generalizing k with
  | nil => rfl
  | cons l ls ih =>
    obtain ⟨hl, hls⟩ := List.forall_mem_cons.1 h
    cases l with
    | slot => cases d <;> exact congrArg (slot :: ·) (ih hls (k + 1))
    | numbered ds => cases hl
    | mark c =>
      rw [d.isPlacement_placeFrom.plain _ _ _ rfl]
      by_cases hc : mark c = mark ' '
      · rw [hc, unspaced_space, unspaced_space, ih hls]
      · rw [unspaced_cons hc, unspaced_cons hc, List.map_cons, ih hls]
        rfl
    | _ => exact congrArg (_ :: ·) (ih hls k)

/-- No lexeme of a column is a blank or a placeholder. -/
theorem plain_of_mem_columnLexemes {d : Dialect} {c : Column} :
    ∀ l ∈ d.columnLexemes c, (l.isSlot = false ∧ l ≠ mark ' ') ∧ unnumbered l = l := by
  cases hsplit : c.split with
  | mk base part? =>
    cases part? with
    | none => simp [columnLexemes_plain hsplit, unnumbered]
    | some part =>
      rw [columnLexemes_dotted hsplit]
      cases d <;> simp [access, grouped, keyword, unnumbered]

/-- A column is an operand in which no connective can be read. -/
theorem isLead_columnLexemes (d : Dialect) (c : Column) : IsLead (d.columnLexemes c) := by
  cases hsplit : c.split with
  | mk base part? =>
    cases part? with
    | none =>
      rw [columnLexemes_plain hsplit]
      exact isLead_singleton rfl
    | some part =>
      rw [columnLexemes_dotted hsplit]
      cases d with
      | postgresql => exact isLead_part _ _
      | mysql =>
        exact isLead_call rfl
          ((isBalanced_cons_of_isMark rfl).2 (IsBalanced.grouped rfl))
      | sqlite => exact isLead_call rfl rfl

/-- Placeholders are values. -/
theorem isValue_slotAt (d : Dialect) (n : Nat) : (d.slotAt n).isValue = true := by
  cases d <;> rfl

/-- The lexemes of a column stay as they are when placeholders are put and blanks are left out. -/
theorem unspaced_columnLexemes (d : Dialect) (c : Column) (k : Nat) (ls : List Lexeme) :
    unspaced (d.placeFrom k (d.columnLexemes c ++ ls)) =
      d.columnLexemes c ++ unspaced (d.placeFrom k ls) :=
  d.isPlacement_placeFrom.unspaced_append (fun l hl => (plain_of_mem_columnLexemes l hl).1) k ls

/-- The lexemes of a predicate have no numbers yet. -/
theorem unnumbered_of_mem_predicate {d : Dialect} {g : Filter} :
    ∀ l ∈ d.predicate g, unnumbered l = l := by
  have hvocabulary : ∀ l ∈ vocabulary, unnumbered l = l := by decide +kernel
  exact forall_mem_predicate rfl hvocabulary
    fun c _ l hl => (plain_of_mem_columnLexemes l hl).2

/-- Numbers apart, the atom of placed lexemes is that of the lexemes. -/
theorem map_atom {d : Dialect} {ls ms : List Lexeme} {k : Nat} (hls : ∀ l ∈ ls, unnumbered l = l)
    (heq : unspaced (d.placeFrom k ls) = ms) :
    (Formula.atom ms).map (List.map unnumbered) = .atom (unspaced ls) := by
  rw [← d.map_unnumbered hls k, heq]
  rfl

/-- A predicate that is an operand with a tail. -/
theorem readsAs_atom {d : Dialect} {g : Filter} {k : Nat} {o t : List Lexeme} (ho : IsLead o)
    (ht : IsPlain t) (heq : unspaced (d.placeFrom k (d.predicate g)) = o ++ t) :
    ReadsAs (.atom (unspaced (d.predicate g))) (unspaced (d.placeFrom k (d.predicate g))) :=
  ⟨.atom (o ++ t), heq ▸ hasReading_test ho ht, map_atom unnumbered_of_mem_predicate heq⟩

/-- The signs of orders, in marks. -/
theorem sign_mem {sign : String} (h : sign ∈ ["=", ">", "<", ">=", "<="]) :
    sign.toList.map mark ∈
        [[mark '='], [mark '>'], [mark '<'], [mark '>', mark '='], [mark '<', mark '=']] ∧
      ∀ l ∈ sign.toList.map mark, l.isSlot = false ∧ l ≠ mark ' ' := by
  simp only [List.mem_cons, List.not_mem_nil, or_false] at h
  obtain rfl | rfl | rfl | rfl | rfl := h <;> simp

/-- Behind a column stand a sign and one placeholder. -/
theorem unspaced_tested (d : Dialect) {sign : String} (h : sign ∈ ["=", ">", "<", ">=", "<="])
    (k : Nat) (ls : List Lexeme) :
    unspaced (d.placeFrom k (tested sign ++ ls)) =
      sign.toList.map mark ++ [d.slotAt (k + 1)] ++ unspaced (d.placeFrom (k + 1) ls) := by
  have hslot : unspaced (d.placeFrom k (mark ' ' :: slot :: ls)) =
      d.slotAt (k + 1) :: unspaced (d.placeFrom (k + 1) ls) := by cases d <;> rfl
  rw [tested, List.cons_append, d.isPlacement_placeFrom.plain _ _ _ rfl, unspaced_space,
    List.append_assoc, d.isPlacement_placeFrom.unspaced_append (sign_mem h).2, List.append_assoc]
  exact congrArg _ hslot

/-- A column, a sign and a placeholder. -/
theorem readsAs_tested (sign : String) {d : Dialect} {g : Filter} {c : Column}
    (h : sign ∈ ["=", ">", "<", ">=", "<="])
    (hg : d.predicate g = d.columnLexemes c ++ tested sign) (k : Nat) :
    ReadsAs (.atom (unspaced (d.predicate g))) (unspaced (d.placeFrom k (d.predicate g))) := by
  refine readsAs_atom (d.isLead_columnLexemes c)
    (isPlain_signed (sign_mem h).1 (d.isValue_slotAt (k + 1))) ?_
  have htested := d.unspaced_tested h k []
  rw [List.append_nil] at htested
  rw [hg, d.unspaced_columnLexemes, htested]
  exact congrArg _ (List.append_nil _)

/-- An equality is read as one test, also one with `null`. -/
theorem readsAs_equals (d : Dialect) (c : Column) (v : Value) (k : Nat) :
    ReadsAs (.atom (unspaced (d.predicate (.equals c v))))
      (unspaced (d.placeFrom k (d.predicate (.equals c v)))) := by
  by_cases hnull : v.isNull = true
  · refine readsAs_atom (t := [keyword "IS", keyword "NULL"]) (d.isLead_columnLexemes c)
      ⟨rfl, ends_of_isMark rfl _, rfl, rfl⟩ ?_
    rw [predicate, if_pos hnull, d.unspaced_columnLexemes]
    rfl
  · exact readsAs_tested "=" (by simp) (by rw [predicate, if_neg hnull]) k

/-- A function of a column. -/
theorem unspaced_applied (d : Dialect) {function : String} (c : Column) (k : Nat)
    (ls : List Lexeme) :
    unspaced (d.placeFrom k (keyword function :: grouped (d.columnLexemes c) ++ ls)) =
      keyword function :: grouped (d.columnLexemes c) ++ unspaced (d.placeFrom k ls) := by
  refine d.isPlacement_placeFrom.unspaced_append ?_ k ls
  have hcolumn := fun l hl => (plain_of_mem_columnLexemes (d := d) (c := c) l hl).1
  simp only [grouped, List.forall_mem_cons, List.forall_mem_append]
  exact ⟨by simp [keyword], by simp, hcolumn, by simp⟩

/-- A match with a pattern. -/
theorem readsAs_matched {d : Dialect} {g : Filter} {c : Column} (hg : d.predicate g = d.matched c)
    (k : Nat) :
    ReadsAs (.atom (unspaced (d.predicate g))) (unspaced (d.placeFrom k (d.predicate g))) := by
  have hc := d.isLead_columnLexemes c
  cases d with
  | postgresql =>
    have htail : IsPlain [keyword "ILIKE", slotAt .postgresql (k + 1)] :=
      ⟨rfl, ends_of_isMark rfl _, rfl, rfl⟩
    cases hsplit : c.split with
    | mk base part? =>
      cases part? with
      | some part =>
        refine readsAs_atom hc htail ?_
        rw [hg, matched, hsplit, List.append_assoc, unspaced_columnLexemes]
        rfl
      | none =>
        refine readsAs_atom (o := [quoted base.toList, mark ':', mark ':', keyword "text"])
          (isLead_cast _ rfl) htail ?_
        rw [hg, matched, hsplit, List.append_assoc, unspaced_columnLexemes,
          columnLexemes_plain hsplit]
        rfl
  | mysql =>
    refine readsAs_atom (isLead_call (l := keyword "LOWER") rfl hc.isBalanced)
      (t := keyword "LIKE" :: keyword "LOWER" :: grouped [slot])
      ⟨rfl, ends_of_isMark rfl _, rfl, rfl⟩ ?_
    rw [hg, matched, List.append_assoc, unspaced_applied]
    rfl
  | sqlite =>
    refine readsAs_atom hc (t := [keyword "LIKE", slot, keyword "ESCAPE", literal ['\\']])
      ⟨rfl, ends_of_isMark rfl _, rfl, rfl⟩ ?_
    rw [hg, matched, unspaced_columnLexemes]
    rfl

/-- A likeness to a word. -/
theorem readsAs_likened {d : Dialect} {g : Filter} {c : Column} (hg : d.predicate g = d.likened c)
    (hd : d ≠ .sqlite) (k : Nat) :
    ReadsAs (.atom (unspaced (d.predicate g))) (unspaced (d.placeFrom k (d.predicate g))) := by
  have hc := d.isLead_columnLexemes c
  cases d with
  | postgresql =>
    have hinside : IsBalanced
        (columnLexemes .postgresql c ++ [mark ',', slotAt .postgresql (k + 1)]) :=
      hc.isBalanced.append rfl
    refine readsAs_atom (isLead_call (l := keyword "similarity") rfl hinside)
      (t := [mark '>', number ['0', '.', '3']]) (isPlain_signed (s := [mark '>']) (by simp) rfl) ?_
    rw [hg, likened, List.cons_append, isPlacement_placeFrom _ |>.plain _ _ _ rfl, unspaced_keyword,
      (isPlacement_placeFrom _).append, (isPlacement_placeFrom _).grouped, unspaced_append,
      unspaced_grouped, unspaced_columnLexemes]
    rfl
  | mysql =>
    refine readsAs_atom (isLead_call (l := keyword "SOUNDEX") rfl hc.isBalanced)
      (t := mark '=' :: keyword "SOUNDEX" :: grouped [slot])
      ⟨rfl, by decide, rfl, rfl⟩ ?_
    rw [hg, likened, List.append_assoc, unspaced_applied]
    rfl
  | sqlite => exact absurd rfl hd

/-- A range with both bounds. -/
theorem readsAs_between (d : Dialect) (c : Column) (low high : Value) (k : Nat) :
    ReadsAs (d.formula (.range c (some low) (some high) true))
      (unspaced (d.placeFrom k (d.predicate (.range c (some low) (some high) true)))) := by
  have heq : unspaced (d.placeFrom k (d.predicate (.range c (some low) (some high) true))) =
      d.columnLexemes c ++
        [keyword "BETWEEN", d.slotAt (k + 1), keyword "AND", d.slotAt (k + 2)] := by
    show unspaced (d.placeFrom k (d.columnLexemes c ++ _)) = _
    rw [d.unspaced_columnLexemes]
    cases d <;> rfl
  have hreading := hasReading_between (d.isLead_columnLexemes c) (d.isValue_slotAt (k + 1))
    (d.isValue_slotAt (k + 2))
  exact ⟨_, heq ▸ hreading, map_atom unnumbered_of_mem_predicate heq⟩

/-- A range without its two bounds. -/
theorem readsAs_within (d : Dialect) (c : Column) (low high : Value) (k : Nat) :
    ReadsAs (d.formula (.range c (some low) (some high) false))
      (unspaced (d.placeFrom k (d.predicate (.range c (some low) (some high) false)))) := by
  have hc := d.isLead_columnLexemes c
  have hfirst (k : Nat) : unspaced (d.placeFrom k (d.columnLexemes c ++ tested ">")) =
      d.columnLexemes c ++ [mark '>', d.slotAt (k + 1)] := by
    rw [d.unspaced_columnLexemes]
    cases d <;> rfl
  have hsecond (k : Nat) : unspaced (d.placeFrom k (d.columnLexemes c ++ tested "<")) =
      d.columnLexemes c ++ [mark '<', d.slotAt (k + 1)] := by
    rw [d.unspaced_columnLexemes]
    cases d <;> rfl
  have heq : unspaced (d.placeFrom k (d.predicate (.range c (some low) (some high) false))) =
      grouped (d.columnLexemes c ++ [mark '>', d.slotAt (k + 1)] ++ keyword "AND" ::
        (d.columnLexemes c ++ [mark '<', d.slotAt (k + 2)])) := by
    -- the first comparison has one placeholder, and the second one takes the next number
    have hslots : (d.columnLexemes c ++ tested ">").countP isSlot = 1 := by
      have hnone : (d.columnLexemes c).countP isSlot = 0 := by
        rw [List.countP_eq_zero]
        intro l hl
        rw [(plain_of_mem_columnLexemes l hl).1.1]
        exact Bool.false_ne_true
      rw [List.countP_append, hnone]
      rfl
    have hand : unspaced (d.placeFrom (k + 1)
        (mark ' ' :: keyword "AND" :: mark ' ' :: (d.columnLexemes c ++ tested "<"))) =
          keyword "AND" :: unspaced (d.placeFrom (k + 1) (d.columnLexemes c ++ tested "<")) := by
      cases d <;> rfl
    show unspaced (d.placeFrom k (grouped (d.columnLexemes c ++ tested ">" ++
      [mark ' ', keyword "AND", mark ' '] ++ d.columnLexemes c ++ tested "<"))) = _
    rw [d.isPlacement_placeFrom.grouped, unspaced_grouped, List.append_assoc _ _ (tested "<"),
      List.append_assoc _ [_, _, _] (d.columnLexemes c ++ tested "<"),
      d.placeFrom_append, unspaced_append, hfirst, hslots]
    exact congrArg (fun ls => grouped (_ ++ ls)) (hand.trans (by rw [hsecond]))
  have hunnumbered {sign : String} : ∀ l ∈ d.columnLexemes c ++ tested sign, unnumbered l = l := by
    have hsign : ∀ l ∈ sign.toList.map mark, unnumbered l = l := by
      simp only [List.forall_mem_map]
      exact fun _ _ => rfl
    simp only [tested, List.forall_mem_append, List.forall_mem_cons]
    exact ⟨fun l hl => (plain_of_mem_columnLexemes l hl).2, rfl, hsign, rfl, rfl, by simp⟩
  refine ⟨.and (.atom (d.columnLexemes c ++ [mark '>', d.slotAt (k + 1)]))
    (.atom (d.columnLexemes c ++ [mark '<', d.slotAt (k + 2)])), ?_, ?_⟩
  · rw [heq]
    refine (hasReading_pair hc hc (isPlain_signed (s := [mark '>']) (by simp) (d.isValue_slotAt _))
      (isPlain_signed (s := [mark '<']) (by simp) (d.isValue_slotAt _))
      (.inl ⟨rfl, rfl⟩) fun r => ?_).grouped
    cases d <;> rfl
  · exact congrArg₂ Formula.and (map_atom hunnumbered (hfirst k)) (map_atom hunnumbered (hsecond (k + 1)))

/-- A range is read as its formula, if it has a bound. -/
theorem readsAs_range {d : Dialect} {c : Column} {min max : Option Value} {inclusive : Bool}
    (h : min.isSome = true ∨ max.isSome = true) (k : Nat) :
    ReadsAs (d.formula (.range c min max inclusive))
      (unspaced (d.placeFrom k (d.predicate (.range c min max inclusive)))) := by
  cases min with
  | none =>
    cases max with
    | none => simp at h
    | some high =>
      cases inclusive with
      | true => exact readsAs_tested "<=" (by simp) rfl k
      | false => exact readsAs_tested "<" (by simp) rfl k
  | some low =>
    cases max with
    | none =>
      cases inclusive with
      | true => exact readsAs_tested ">=" (by simp) rfl k
      | false => exact readsAs_tested ">" (by simp) rfl k
    | some high =>
      cases inclusive with
      | true => exact d.readsAs_between c low high k
      | false => exact d.readsAs_within c low high k

end Dialect

/-- **Every predicate that a dialect writes has one reading.** -/
theorem readsAs_of_render {d : Dialect} {g : Filter} {b : Fragment Json}
    (hg : g.isPredicate = true) (h : d.target.render g = .ok b) (k : Nat) :
    ReadsAs (d.formula g) (unspaced (d.placeFrom k (d.predicate g))) := by
  cases Target.renders_of_render hg h with
  | @equals c v => exact d.readsAs_equals c v k
  | @compare op c =>
    refine Dialect.readsAs_tested op.sign (c := c) ?_ rfl k
    cases op <;> simp [Comparison.sign]
  | @like c => exact Dialect.readsAs_matched (c := c) rfl k
  | @wild c => exact Dialect.readsAs_matched (c := c) rfl k
  | range h => exact Dialect.readsAs_range (Target.isSome_of_range h) k
  | fuzzy h =>
    obtain ⟨hd, c, s, rfl⟩ := exists_of_fuzzy h
    exact Dialect.readsAs_likened (c := c) rfl hd k

end Sql

/-! ### Predicates in PartiQL -/

namespace PartiQL

/-- The formula as which a predicate is read. -/
def formula : Filter → Formula (List Lexeme)
  | .range c (some low) (some high) false =>
    .and (.atom (unspaced (tested c ">" low.boundAttribute)))
      (.atom (unspaced (tested c "<" high.boundAttribute)))
  | .equals c v =>
    if v.isNull then
      .or (.atom (unspaced (lacking c "NULL"))) (.atom (unspaced (lacking c "MISSING")))
    else .atom (unspaced (predicate (.equals c v)))
  | g => .atom (unspaced (predicate g))

/-- To leave lexemes as they are is a way to put placeholders into them. -/
theorem isPlacement_id : IsPlacement fun _ ls => ls where
  nil _ := rfl
  plain _ _ _ _ := rfl
  append _ _ _ := rfl

/-- Attributes are values. -/
theorem isValue_lexeme (a : Attribute) : a.lexeme.isValue = true := by cases a <;> rfl

/-- A column is an operand in which no connective can be read. -/
theorem isLead_columnLexeme (c : Column) : IsLead [columnLexeme c] := isLead_singleton rfl

/-- The lexemes of a predicate have no numbers. -/
theorem unnumbered_of_mem_predicate {g : Filter} : ∀ l ∈ predicate g, unnumbered l = l := by
  have hvocabulary : ∀ l ∈ vocabulary, unnumbered l = l := by decide +kernel
  exact forall_mem_predicate (fun a => by cases a <;> rfl) hvocabulary fun _ _ => rfl

/-- PartiQL has no placeholders. -/
theorem unnumbered_of_mem_formula (g : Filter) :
    ∀ ls ∈ (formula g).atoms, ∀ l ∈ ls, unnumbered l = l := by
  have hunspaced {ls : List Lexeme} (h : ∀ l ∈ ls, unnumbered l = l) :
      ∀ l ∈ unspaced ls, unnumbered l = l := fun l hl => h l (List.mem_of_mem_filter hl)
  have hpredicate := hunspaced (unnumbered_of_mem_predicate (g := g))
  have htested (c : Column) (sign : String) (a : Attribute) :
      ∀ l ∈ tested c sign a, unnumbered l = l := by
    have hsign : ∀ l ∈ sign.toList.map mark, unnumbered l = l := by
      simp only [List.forall_mem_map]
      exact fun _ _ => rfl
    have ha : unnumbered a.lexeme = a.lexeme := by cases a <;> rfl
    simp only [tested, List.forall_mem_cons, List.forall_mem_append]
    exact ⟨rfl, rfl, hsign, rfl, ha, by simp⟩
  unfold formula
  split
  · simp only [Formula.atoms, List.forall_mem_append, List.forall_mem_singleton]
    exact ⟨hunspaced (htested _ _ _), hunspaced (htested _ _ _)⟩
  · split
    · simp [Formula.atoms, unspaced, lacking, columnLexeme, keyword, unnumbered]
    · exact List.forall_mem_singleton.2 hpredicate
  · exact List.forall_mem_singleton.2 hpredicate

/-- An order without its blanks is a column, a sign and a value. -/
theorem unspaced_tested (c : Column) (sign : String) (h : sign ∈ ["=", ">", "<", ">=", "<="])
    (a : Attribute) :
    unspaced (tested c sign a) = [columnLexeme c] ++ (sign.toList.map mark ++ [a.lexeme]) := by
  have ha : unspaced [mark ' ', a.lexeme] = [a.lexeme] := by cases a <;> rfl
  have hsign : unspaced (sign.toList.map mark) = sign.toList.map mark :=
    List.filter_eq_self.2 fun l hl => by simpa using ((Sql.Dialect.sign_mem h).2 l hl).2
  rw [tested, unspaced_cons (by simp [columnLexeme]), unspaced_space, unspaced_append, hsign, ha]
  rfl

/-- An order has one reading, as a test. -/
theorem hasReading_tested (c : Column) {sign : String} (h : sign ∈ ["=", ">", "<", ">=", "<="])
    (a : Attribute) :
    HasReading (.atom (unspaced (tested c sign a))) (unspaced (tested c sign a)) := by
  rw [unspaced_tested c sign h]
  exact hasReading_test (isLead_columnLexeme c)
    (isPlain_signed (Sql.Dialect.sign_mem h).1 (isValue_lexeme a))

/-- A test for `null` and for nothing at all. -/
theorem hasReading_lacking (c : Column) :
    HasReading (.or (.atom (unspaced (lacking c "NULL"))) (.atom (unspaced (lacking c "MISSING"))))
      (unspaced (grouped (lacking c "NULL" ++ mark ' ' :: keyword "OR" :: mark ' ' ::
        lacking c "MISSING"))) := by
  have hc := isLead_columnLexeme c
  rw [unspaced_grouped]
  refine (hasReading_pair (m := keyword "IS") (n := keyword "NULL")
    (k := [keyword "IS", keyword "MISSING"]) (w := keyword "OR") hc hc
    ⟨rfl, ends_of_isMark rfl _, rfl, rfl⟩ ⟨rfl, ends_of_isMark rfl _, rfl, rfl⟩
    (.inr ⟨rfl, rfl⟩) fun r => ?_).grouped
  cases r <;> rfl

/-- A match with a pattern of a known shape has one reading, as a test. -/
theorem hasReading_matched (c : Column) (shape : Pattern.Shape) :
    HasReading (.atom (unspaced (matched c (some shape)))) (unspaced (matched c (some shape))) := by
  have happlied {function : String} (h : (keyword function).isFunction = true) (s : String) :
      HasReading (.atom (unspaced (applied function c s))) (unspaced (applied function c s)) := by
    have hcall := hasReading_test (k := [])
      (isLead_call h (show IsBalanced [columnLexeme c, mark ',', literal s.toList] from rfl))
      ⟨rfl, by decide, rfl, rfl⟩
    rw [List.append_nil] at hcall
    rw [applied, unspaced_keyword, unspaced_grouped]
    exact hcall
  cases shape with
  | contains s => exact happlied rfl s
  | beginsWith s => exact happlied rfl s
  | exact s => exact hasReading_tested c (by simp) _
  | any =>
    exact hasReading_test (o := [columnLexeme c])
      (k := [keyword "IS", keyword "NOT", keyword "MISSING"]) (isLead_columnLexeme c)
      ⟨rfl, ends_of_isMark rfl _, rfl, rfl⟩

/-- A range with both bounds. -/
theorem hasReading_between (c : Column) (low high : Value) :
    HasReading (formula (.range c (some low) (some high) true))
      (unspaced (predicate (.range c (some low) (some high) true))) := by
  have heq : unspaced (predicate (.range c (some low) (some high) true)) = [columnLexeme c] ++
      [keyword "BETWEEN", low.boundAttribute.lexeme, keyword "AND",
        high.boundAttribute.lexeme] := by
    show unspaced (ranged c (some low.boundAttribute) (some high.boundAttribute) true) = _
    generalize low.boundAttribute = a, high.boundAttribute = b
    cases a <;> cases b <;> rfl
  show HasReading (.atom (unspaced (predicate (.range c (some low) (some high) true)))) _
  rw [heq]
  exact Lexeme.hasReading_between (isLead_columnLexeme c) (isValue_lexeme _) (isValue_lexeme _)

/-- A range without its two bounds. -/
theorem hasReading_within (c : Column) (low high : Value) :
    HasReading (formula (.range c (some low) (some high) false))
      (unspaced (predicate (.range c (some low) (some high) false))) := by
  have hc := isLead_columnLexeme c
  have hpair := hasReading_pair (w := keyword "AND") hc hc
    (isPlain_signed (s := [mark '>']) (by simp) (isValue_lexeme low.boundAttribute))
    (isPlain_signed (s := [mark '<']) (by simp) (isValue_lexeme high.boundAttribute))
    (.inl ⟨rfl, rfl⟩) fun r => by cases low.boundAttribute <;> rfl
  have hlow := unspaced_tested c ">" (by simp) low.boundAttribute
  have hhigh := unspaced_tested c "<" (by simp) high.boundAttribute
  show HasReading (.and (.atom (unspaced (tested c ">" low.boundAttribute)))
      (.atom (unspaced (tested c "<" high.boundAttribute))))
    (unspaced (grouped (tested c ">" low.boundAttribute ++ mark ' ' :: keyword "AND" :: mark ' ' ::
      tested c "<" high.boundAttribute)))
  rw [unspaced_grouped, unspaced_append, unspaced_space, unspaced_keyword, unspaced_space, hlow,
    hhigh]
  exact hpair.grouped

/-- **Every predicate that PartiQL writes has one reading.** -/
theorem hasReading_of_render {g : Filter} {b : Fragment Attribute} (hg : g.isPredicate = true)
    (h : target.render g = .ok b) : HasReading (formula g) (unspaced (predicate g)) := by
  cases Target.renders_of_render hg h with
  | @equals c v =>
    rw [formula, predicate]
    split
    · exact hasReading_lacking c
    · exact hasReading_tested c (by simp) _
  | @compare op c =>
    refine hasReading_tested c ?_ _
    cases op <;> simp [Comparison.sign]
  | @like c p _ hlike =>
    obtain ⟨_, -, hlike⟩ := bind_eq_ok.1 hlike
    show HasReading (.atom (unspaced (matched c (Pattern.shape? p))))
      (unspaced (matched c (Pattern.shape? p)))
    cases hshape : Pattern.shape? p with
    | none =>
      rw [hshape] at hlike
      cases hlike
    | some shape => exact hasReading_matched c shape
  | @range c _ _ inclusive _ h =>
    obtain ⟨_, -, hranges⟩ := Target.exists_ranges h
    cases hranges with
    | above | below => cases inclusive <;> exact hasReading_tested c (by simp) _
    | @between low high =>
      cases inclusive with
      | true => exact hasReading_between c low high
      | false => exact hasReading_within c low high
  | wild h | fuzzy h => cases h

end PartiQL

/-! ### Targets -/

namespace Provider

/-- The quote of a target's identifiers. -/
def quote : Provider → Char
  | sql d => d.quote
  | dynamodb => '"'

/-- The formula as which a target's predicate is read. -/
def formula : Provider → Filter → Formula (List Lexeme)
  | sql d => d.formula
  | dynamodb => PartiQL.formula

/-- **Every target keeps the boolean structure of a filter.** What is rendered has exactly
one reading, and that is the structure of the filter over its predicates, each of which
is read as the target's formula for it. -/
theorem readsAs_skeleton_of_render {f : Filter}
    (hcolumns : ∀ g ∈ f.predicates, ∀ c ∈ g.column?, c.IsSafe) (hfinite : f.IsFinite) :
    f.skeleton.atoms = f.predicates ∧ ∀ (p : Provider) (r : Rendered), p.render f = .ok r →
      ∃ ls, lexemes? p.quote r.text.toList = some ls ∧
        ReadsAs (f.skeleton.bind p.formula) (unspaced ls) := by
  refine ⟨f.atoms_skeleton, fun p r h => ?_⟩
  cases p with
  | sql d =>
    obtain ⟨clause, hclause, rfl⟩ := map_eq_ok.1 h
    have hspelled := Sql.isSpelled_of_render (fun g hg c hc => (hcolumns g hg c hc).1) hclause
    obtain ⟨a, ha, -⟩ := bind_eq_ok.1 hclause
    exact ⟨_, hspelled.lexemes?_eq,
      readsAs_sentence d.isPlacement_placeFrom (fun hg hb => Sql.readsAs_of_render hg hb) ha 0⟩
  | dynamodb =>
    obtain ⟨condition, hcondition, rfl⟩ := map_eq_ok.1 h
    obtain ⟨hreads, -⟩ := PartiQL.written_of_render (.inl rfl) hfinite hcondition
    obtain ⟨a, ha, -⟩ := bind_eq_ok.1 hcondition
    refine ⟨_, hreads, readsAs_sentence PartiQL.isPlacement_id (fun {g b} hg hb _ => ?_) ha 0⟩
    exact ⟨_, PartiQL.hasReading_of_render hg hb,
      map_unnumbered_of_forall (PartiQL.unnumbered_of_mem_formula g)⟩

/-- A column called `NOT` in a range without its bounds, and a test for `null`. -/
theorem readsAs_skeleton_of_range :
    let f : Filter := .and (.mustNot (.range ⟨"NOT"⟩ (some (.text "a")) (some (.text "b")) false))
      (.equals ⟨"m.x"⟩ (.text "null"))
    ∃ r, dynamodb.render f = .ok r ∧
      r.text = "(NOT ((NOT > 'a' AND NOT < 'b'))) AND ((m.x IS NULL OR m.x IS MISSING))" ∧
      ∃ ls, lexemes? dynamodb.quote r.text.toList = some ls ∧
        ReadsAs (f.skeleton.bind dynamodb.formula) (unspaced ls) := by
  intro f
  have hrender : dynamodb.render f = .ok (.partiql
      ⟨"(NOT ((NOT > 'a' AND NOT < 'b'))) AND ((m.x IS NULL OR m.x IS MISSING))",
        [.text "a", .text "b"]⟩) := by rfl
  have hcolumns : ∀ g ∈ f.predicates, ∀ c ∈ g.column?, c.IsSafe := by decide +kernel
  have hfinite : f.IsFinite := by decide +kernel
  exact ⟨_, hrender, rfl, (readsAs_skeleton_of_render hcolumns hfinite).2 dynamodb _ hrender⟩

end Provider
end SearchFilter
