/-
# Operators between clauses

A query of clauses that hold together, each perhaps with prefixes in front, and with a connector
between any two of them:

| connector | text between the clauses |
| --- | --- |
| `and` | `AND` in any case, or `&&`, between blanks |
| `beside` | blanks |
| `or` | `OR` in any case, or `||`, between blanks |

`and` and `beside` bind alike, and more tightly than `or`; all of them bind to the left
(`joined`). A clause that is read by itself is read as the same clause between connectors
(`IsAtomic.stands`), since

* a leaf is one word, and what is read of a word does not depend on what follows it;
* a group ends at its parenthesis.
-/

import SearchFilter.Proofs.Grammar.Enclosure
import SearchFilter.Proofs.Grammar.Operand

namespace SearchFilter
namespace Grammar

open Query (AtBoundary IsWord atBoundary_nil isSign isUnbroken_append isUnbroken_cons)
open Reader

/-! ### Texts -/

/-- A prefix. -/
inductive PrefixText : Prefix → List Char → Prop
  | sign {x : Char} : isSign x = true → PrefixText (signOf x) [x]
  | word {k : List Char} : IsKeyword "NOT" "!" k → PrefixText .mustNot k

/-- Prefixes, each with blanks behind it. -/
inductive PrefixRun : List Prefix → List Char → Prop
  | nil : PrefixRun [] []
  | cons {q : Prefix} {ps : List Prefix} {k b s : List Char} : PrefixText q k → IsGap b →
    PrefixRun ps s → PrefixRun (q :: ps) (k ++ (b ++ s))

/-- A word or a phrase, a range, one of these or a comparison behind a field that is no operator,
or a query in parentheses, perhaps behind such a field. -/
inductive IsAtomic : List Char → Prop
  | leaf {field : Option (List Char)} {a : Atom} {u : List Char} : LeafText field a u →
    (∀ f ∈ field, isReserved f = false) → IsAtomic u
  | group {q : List Char} {c : Clause} : clause? q = .ok c → IsAtomic ('(' :: (q ++ [')']))
  | fieldGroup {field q : List Char} {c : Clause} : IsFree field → clause? q = .ok c →
    IsAtomic (field ++ ':' :: '(' :: (q ++ [')']))

/-- How two clauses are connected. -/
inductive Connector where
  | and
  | beside
  | or
deriving DecidableEq

/-- What stands between two clauses. -/
inductive ConnectorText : Connector → List Char → Prop
  | and {b k b' : List Char} : IsGap b → IsKeyword "AND" "&&" k → IsGap b' →
    ConnectorText .and (b ++ (k ++ b'))
  | beside {b : List Char} : IsGap b → ConnectorText .beside b
  | or {b k b' : List Char} : IsGap b → IsKeyword "OR" "||" k → IsGap b' →
    ConnectorText .or (b ++ (k ++ b'))

/-- A clause that is read by itself as a filter, with prefixes in front. -/
structure Factor (column : Option Column) where
  prefixes : List Prefix
  run : List Char
  atom : List Char
  filter : Filter
  isRun : PrefixRun prefixes run
  isAtomic : IsAtomic atom
  isRead : filter? column (String.ofList atom) = .ok (some filter)

/-- One more factor, with what connects it to those before. -/
structure Link (column : Option Column) where
  connector : Connector
  between : List Char
  factor : Factor column
  isBetween : ConnectorText connector between

variable {column : Option Column}

def Factor.text (f : Factor column) : List Char := f.run ++ f.atom

def Factor.value (f : Factor column) : Filter := f.filter.prefixed f.prefixes

/-- The text of further factors. -/
def linksText (links : List (Link column)) : List Char :=
  links.flatMap fun l => l.between ++ l.factor.text

/-! ### Values -/

section
variable {α : Type}

/-- The operands that still belong to the first conjunction, and the further conjunctions, each
with its first operand. -/
def conjunctions : List (Connector × α) → List α × List (α × List α)
  | [] => ([], [])
  | (.or, a) :: rest => ([], (a, (conjunctions rest).1) :: (conjunctions rest).2)
  | (_, a) :: rest => (a :: (conjunctions rest).1, (conjunctions rest).2)

/-- Operands joined from the left by `and`, and what comes of this by `or`. -/
def joined (and or : α → α → α) (first : α) (rest : List (Connector × α)) : α :=
  ((conjunctions rest).2.map fun c => c.2.foldl and c.1).foldl or
    ((conjunctions rest).1.foldl and first)

/-- `and` binds more tightly than `or`, and both bind to the left. -/
example :
    joined (fun s t => "(" ++ s ++ " and " ++ t ++ ")") (fun s t => "(" ++ s ++ " or " ++ t ++ ")")
      "a" [(.or, "b"), (.beside, "c"), (.and, "d"), (.or, "e")] =
        "((a or ((b and c) and d)) or e)" := by decide +kernel

end

/-! ### Runs of prefixes -/

variable {ps : List Prefix} {s u t m r b : List Char} {c d : Clause}

/-- A prefix is read with the blanks behind it. -/
theorem PrefixText.takes {q : Prefix} {k : List Char} (h : PrefixText q k) (hb : IsGap b)
    (ht : Text.skipBlank t = t) : signPrefix.Takes (k ++ (b ++ t)) q t := by
  have hskip := hb.skipBlank_append ht
  cases h with
  | @sign x hx =>
    have htakes := takes_signPrefix_of_sign hx (signOf_eq_must_iff x) (b ++ t)
    rwa [hskip] at htakes
  | word hk =>
    have htakes := hk.takes_signPrefix (endsTerm_of_atBoundary (hb.atBoundary t))
    rwa [hskip] at htakes

/-- A prefix starts with no blank. -/
theorem PrefixText.isFlush {q : Prefix} {k : List Char} (h : PrefixText q k) : IsFlush k := by
  cases h with
  | sign hx => exact isFlush_cons (isBlank_of_isSign hx) []
  | word hk => exact hk.term.isFlush

/-- No `AND` is read at a prefix. -/
theorem PrefixText.fails_and {q : Prefix} {k : List Char} (h : PrefixText q k) (hb : IsGap b) :
    (keyword "AND" "&&").Fails (k ++ (b ++ t)) := by
  cases h with
  | sign hx => exact fails_keyword_of_isSign hx (by simp) _
  | word hk =>
    exact hk.fails_other (hk.term.spanTerm_append (endsTerm_of_atBoundary (hb.atBoundary t)))
      (by simp) (by simp) (by decide)

namespace PrefixRun

/-- Prefixes in front of a flush text start with no blank. -/
theorem isFlush_append (h : PrefixRun ps s) (hu : IsFlush u) : IsFlush (s ++ u) := by
  cases h with
  | nil => exact hu
  | cons hk =>
    rw [List.append_assoc]
    exact hk.isFlush.append _

/-- Prefixes are read one after the other, up to the text behind them. -/
theorem takesAll (h : PrefixRun ps s) (hu : IsFlush u) (r : List Char) :
    signPrefix.TakesAll (s ++ (u ++ r)) ps (u ++ r) := by
  induction h with
  | nil => exact .nil _
  | cons hk hb hs ih =>
    have hflush := hs.isFlush_append hu r
    rw [List.append_assoc] at hflush
    rw [List.append_assoc, List.append_assoc]
    exact .cons (hk.takes hb hflush) ih

end PrefixRun

/-! ### Clauses that hold together -/

/-- The text is read as the clause wherever a word may end behind it. -/
structure Stays (c : Clause) (u : List Char) : Prop where
  flush : IsFlush u
  isOpen : ∀ r, AtBoundary r → IsOpen (u ++ r)
  takes : ∀ n, u.length ≤ n → ∀ r, AtBoundary r → (modified (clauseWithin n)).Takes (u ++ r) c r

/-- Behind prefixes it is a factor. -/
theorem Stays.accepts (h : Stays c u) (hs : PrefixRun ps s) {n : Nat} (hn : u.length ≤ n) :
    Accepts (clauseWithin n) .factor (c.prefixed ps) (s ++ u) := fun r hr => by
  have hflush := hs.isFlush_append h.flush r
  rw [List.append_assoc] at hflush ⊢
  exact takes_unary_of_modified hflush (hs.takesAll h.flush r) (h.isOpen r hr).fails_signPrefix
    (h.takes n hn r hr)

/-- A text that holds together is read as its clause by itself. -/
theorem Stays.clause?_eq (h : Stays c u) : clause? u = .ok c := by
  have haccepts := h.accepts .nil (Nat.le_refl _)
  exact clause?_of_accepts h.flush (.conjunction (isSound_clauseWithin _) (.factor haccepts))

/-- In front of a factor no `AND` is read. -/
theorem Stays.fails_and (h : Stays c u) (hs : PrefixRun ps s) (hr : AtBoundary r) :
    (Reader.padded (keyword "AND" "&&")).Fails (s ++ u ++ r) := by
  refine Fails.padded ?_
  rw [hs.isFlush_append h.flush]
  cases hs with
  | nil => exact (h.isOpen r hr).fails_keyword (by simp)
  | cons hk hb =>
    simp only [List.append_assoc]
    exact hk.fails_and hb

/-! ### Leaves -/

section
variable {field : Option (List Char)} {a : Atom}

/-- Phrases and ranges are open. -/
theorem isOpen_of_opens {x : Char} (h : Query.opensHere .bare x = true) (t : List Char) :
    IsOpen (x :: t) := by
  rcases Query.opensHere_bare_iff.1 h with rfl | rfl | rfl <;> exact ⟨by rintro _ ⟨⟩; decide, rfl⟩

/-- A leaf whose field is no operator is open in front of the end of a word. -/
theorem LeafText.isOpen (h : LeafText field a u) (hfree : ∀ f ∈ field, isReserved f = false)
    (hr : AtBoundary r) : IsOpen (u ++ r) := by
  cases h with
  | fielded hf =>
    rw [List.append_assoc]
    exact IsFree.isOpen ⟨hf, hfree _ rfl⟩ _
  | term hu hres hsign =>
    refine ⟨fun x hx => ?_, ?_⟩
    · obtain ⟨y, u, rfl⟩ := List.exists_cons_of_ne_nil hu.ne_nil
      exact ⟨(hu.head x hx).1, hsign x hx⟩
    · rw [hu.spanTerm_append (endsTerm_of_atBoundary hr)]
      exact hres
  | phrase h =>
    obtain ⟨x, t, rfl, hx⟩ := h.opens (.inl ⟨_, rfl⟩)
    exact isOpen_of_opens hx _
  | range h =>
    obtain ⟨x, t, rfl, hx⟩ := h.opens (.inr ⟨_, _, _, rfl⟩)
    exact isOpen_of_opens hx _

/-- No group is read at a leaf, and none behind its field. -/
theorem LeafText.modified_eq (h : LeafText field a u) (hr : AtBoundary r) (p q : Reader Clause) :
    modified q (u ++ r) = modified p (u ++ r) := by
  have hgroup {s : List Char} (hs : ∀ m, s ≠ '(' :: m) : group q s = group p s :=
    group_congr fun m hm => absurd hm (hs m)
  refine modified_congr (fielded_congr fun f m hname => hgroup fun m' hm => ?_)
    (hgroup fun m hm => ?_)
  · -- the field with a parenthesis behind it would be a name
    obtain ⟨hf, hs⟩ := takes_fieldName hname
    have hleaf := roles_leaf h (.mk .none .none) hr
    rw [List.nil_append, List.nil_append, hs, hm, roles_fieldGroup hf] at hleaf
    exact absurd (List.cons.inj hleaf).1 (by decide)
  · obtain ⟨n, hpass⟩ := h.passes
    obtain ⟨x, t, rfl⟩ := List.exists_cons_of_ne_nil h.ne_nil
    obtain ⟨rfl, -⟩ := List.cons.inj hm
    exact absurd (isUnbroken_cons.1 hpass.unbroken).1 (by decide)

end

/-- The one text has ended, and the other one goes on. -/
inductive Extends (r : List Char) : List Char → List Char → Prop
  | left : Extends r [] r
  | right : Extends r r []

instance : Std.Symm (Extends r) where
  symm := by
    rintro _ _ (_ | _)
    · exact .right
    · exact .left

/-- What is read without groups of a whole word is read of it in front of the end of a word. -/
theorem takes_modified_append (hu : IsTail .bare u) (hr : AtBoundary r)
    (h : (modified (clauseWithin 0)).Takes u c []) :
    (modified (clauseWithin 0)).Takes (u ++ r) c r := by
  have hgroup : (group (clauseWithin 0)).Carries (SameTail (Extends r) .bare)
      (SameTail (Extends r) .bare) := by
    intro s t c m _ hp
    simp only [group, takes_labelled, takes_bind, takes_padded] at hp
    obtain ⟨_, _, -, _, _, ⟨_, hinner, -⟩, -⟩ := hp
    exact absurd hinner (show (clauseWithin 0).Fails _ from rfl).not_takes
  have hsame : SameTail (Extends r) .bare (u ++ []) (u ++ r) := .mk hu atBoundary_nil hr .left
  rw [List.append_nil] at hsame
  obtain ⟨m, htakes, hm⟩ := modified_carries hgroup hsame h
  have hend {s t : List Char} (h : SameTail (Extends r) .bare s t) (hs : s = []) : t = r := by
    obtain @⟨v, x, y, -, -, -, hxy⟩ := h
    obtain ⟨rfl, rfl⟩ := List.append_eq_nil_iff.1 hs
    cases hxy <;> rfl
  exact hend hm rfl ▸ htakes

/-- A clause that is read of a word is all of the word. -/
theorem eq_nil_of_takes_modified {p : Reader Clause} (hp : IsSound p) (hu : IsWord u)
    (hsign : ∀ x ∈ u.head?, isSign x = false) (h : (modified p).Takes u c m) : m = [] := by
  have hm : AtBoundary m := by
    simp only [modified, takes_bind, takes_pure] at h
    obtain ⟨_, _, -, _, _, -, _, _, -, _, _, hend, -, rfl⟩ := h
    obtain ⟨rfl, hm⟩ := takes_boundary hend
    exact hm
  obtain ⟨v, rfl, hv⟩ := (takes_modified hp hsign h).closes
  cases m with
  | nil => rfl
  | cons x m =>
    have hunbroken := (isUnbroken_append.1 hu.unbroken).2
    rw [hv] at hunbroken
    have hends : Query.endsWord x = false := (isUnbroken_cons.1 hunbroken).1
    rw [Query.atBoundary_cons.1 hm] at hends
    cases hends

/-- **A leaf that is read by itself is read as the same clause** wherever a word may end. -/
theorem LeafText.stays {field : Option (List Char)} {a : Atom} (h : LeafText field a u)
    (hfree : ∀ f ∈ field, isReserved f = false) (hc : clause? u = .ok c) : Stays c u := by
  have hopen : IsOpen u := by simpa using h.isOpen hfree atBoundary_nil
  have hword : IsWord u := by
    obtain ⟨n, hpass⟩ := h.passes
    exact ⟨h.ne_nil, hpass.unbroken, hpass.after⟩
  have hflush : IsFlush u := by
    obtain ⟨x, t, rfl⟩ := List.exists_cons_of_ne_nil h.ne_nil
    exact isFlush_cons (hopen.head x rfl).1 t
  have heq (p : Reader Clause) : modified p u = modified (clauseWithin 0) u := by
    simpa using h.modified_eq atBoundary_nil (clauseWithin 0) p
  obtain ⟨d, m, hd⟩ | hfails := takes_or_fails (modified (clauseWithin 0)) u
  · obtain rfl := eq_nil_of_takes_modified (isSound_clauseWithin 0) hword
      (fun x hx => (hopen.head x hx).2) hd
    have hstays : Stays d u := ⟨hflush, fun r hr => h.isOpen hfree hr, fun n _ r hr => by
      rw [Takes, h.modified_eq hr (clauseWithin 0)]
      exact takes_modified_append (isTail_of_isWord hword) hr hd⟩
    obtain rfl : d = c := Except.ok.inj (hstays.clause?_eq.symm.trans hc)
    exact hstays
  · -- where no clause is read, no query is
    obtain ⟨m, htakes, -⟩ := (clause?_eq_ok_iff_within (Nat.le_refl _)).1 hc
    rw [hopen.skipBlank_eq] at htakes
    obtain ⟨_, _, hconjunction, -⟩ := takes_bind.1 htakes
    obtain ⟨_, _, hunary, -⟩ := takes_bind.1 hconjunction
    have hmodified : (modified (clauseWithin u.length)).Fails u := by
      rw [Fails, heq]
      exact hfails
    exact absurd hunary (fails_unary_of_modified hopen.skipBlank_eq (.nil _) hopen.fails_signPrefix
      hmodified).not_takes

/-! ### Groups -/

/-- An open operand holds together. -/
theorem stays_of_accepts {k : Nat} (hk : k < u.length) (hflush : IsFlush u)
    (hopen : ∀ r, IsOpen (u ++ r))
    (h : ∀ n, k ≤ n → Accepts (clauseWithin (n + 1)) .operand c u) : Stays c u where
  flush := hflush
  isOpen r _ := hopen r
  takes n hn r hr := by
    obtain ⟨n, rfl⟩ : ∃ m, n = m + 1 := ⟨n - 1, by omega⟩
    exact takes_modified_of_operand (h n (by omega) r hr) hr

/-- **What holds together is read as the same clause** by itself and wherever a word may end. -/
theorem IsAtomic.stays (h : IsAtomic u) (hc : clause? u = .ok c) : Stays c u := by
  cases h with
  | leaf h hfree => exact h.stays hfree hc
  | @group q d hq =>
    have hlength : q.length < ('(' :: (q ++ [')'])).length := by
      rw [List.length_cons, List.length_append]
      omega
    have hstays : Stays d ('(' :: (q ++ [')'])) :=
      stays_of_accepts hlength (isFlush_cons (by decide) _) (fun r => isOpen_opening _)
        fun n hn => accepts_group_of_clause? hq hn
    obtain rfl : d = c := Except.ok.inj (hstays.clause?_eq.symm.trans hc)
    exact hstays
  | @fieldGroup field q d hf hq =>
    have hlength : q.length < (field ++ ':' :: '(' :: (q ++ [')'])).length := by
      rw [List.length_append, List.length_cons, List.length_cons, List.length_append]
      omega
    have hopen (r : List Char) : IsOpen (field ++ ':' :: '(' :: (q ++ [')']) ++ r) := by
      rw [List.append_assoc]
      exact hf.isOpen _
    have hstays : Stays (.fieldGroup field d) (field ++ ':' :: '(' :: (q ++ [')'])) :=
      stays_of_accepts hlength (hf.text.isTerm.isFlush.append _) hopen
        fun n hn => accepts_fieldGroup_of_clause? hf.text hq hn
    obtain rfl : .fieldGroup field d = c := Except.ok.inj (hstays.clause?_eq.symm.trans hc)
    exact hstays

/-! ### Factors and their connectors -/

/-- The reader of a rank takes the text as a clause that stands for the filter. -/
structure Yields (column : Option Column) (n : Nat) (rank : Rank) (f : Filter) (s : List Char) :
    Prop where
  flush : IsFlush s
  accepts : ∃ c : Clause, c.lower column = .ok f ∧ Accepts (clauseWithin n) rank c s

section
variable {n : Nat} {f g : Filter} {x : Factor column}

/-- A factor yields its value, and no `AND` is read at it. -/
theorem Factor.yields (x : Factor column) (hn : x.atom.length ≤ n) :
    Yields column n .factor x.value x.text ∧
      ∀ r, AtBoundary r → (Reader.padded (keyword "AND" "&&")).Fails (x.text ++ r) := by
  obtain ⟨c, hc, hlower⟩ := exists_clause_of_filter? x.isRead
  rw [String.toList_ofList] at hc
  have hstays := x.isAtomic.stays hc
  exact ⟨⟨x.isRun.isFlush_append hstays.flush, _, c.lower_prefixed x.prefixes hlower,
    hstays.accepts x.isRun hn⟩, fun r hr => hstays.fails_and x.isRun hr⟩

namespace Yields

/-- A conjunction of one factor yields its value. -/
theorem factor (h : Yields column n .factor f s) : Yields column n .conjunction f s := by
  obtain ⟨hflush, c, hlower, haccepts⟩ := h
  exact ⟨hflush, c, hlower, haccepts.factor⟩

/-- A disjunction of one conjunction yields its value. -/
theorem conjunction (h : Yields column n .conjunction f s) : Yields column n .disjunction f s := by
  obtain ⟨hflush, c, hlower, haccepts⟩ := h
  exact ⟨hflush, c, hlower, haccepts.conjunction (isSound_clauseWithin n)⟩

/-- One more factor of a conjunction. -/
theorem link {connector : Connector} {between : List Char} (h : Yields column n .conjunction f s)
    (hbetween : ConnectorText connector between) (hne : connector ≠ .or)
    (hn : x.atom.length ≤ n) :
    Yields column n .conjunction (.and f x.value) (s ++ (between ++ x.text)) := by
  obtain ⟨hflush, c, hc, haccepts⟩ := h
  obtain ⟨⟨hflush', d, hd, haccepts'⟩, hand⟩ := x.yields hn
  refine ⟨hflush.append _, .and c d, by rw [Clause.lower, hc, hd]; rfl, ?_⟩
  cases hbetween with
  | and hb hk hb' =>
    rw [List.append_assoc, List.append_assoc]
    exact .and_gap hb hk hb' hflush' haccepts haccepts'
  | beside hb => exact .beside_gap hb hflush' hand haccepts haccepts'
  | or => exact absurd rfl hne

/-- One more conjunction of a disjunction. -/
theorem link_or {between : List Char} (h : Yields column n .disjunction f s)
    (hbetween : ConnectorText .or between) (ht : Yields column n .conjunction g t) :
    Yields column n .disjunction (.or f g) (s ++ (between ++ t)) := by
  obtain ⟨hflush, c, hc, haccepts⟩ := h
  obtain ⟨hflush', d, hd, haccepts'⟩ := ht
  refine ⟨hflush.append _, .or c d, by rw [Clause.lower, hc, hd]; rfl, ?_⟩
  cases hbetween with
  | or hb hk hb' =>
    rw [List.append_assoc, List.append_assoc]
    exact .or_gap (isSound_clauseWithin n) hb hk hb' hflush' haccepts haccepts'

/-- What is put in front of the current conjunction, and what becomes of its value, stays the same
until the next `or`. -/
theorem links {links : List (Link column)} (hn : ∀ l ∈ links, l.factor.atom.length ≤ n)
    {p : List Char} {wrap : Filter → Filter}
    (hwrap : ∀ f s, Yields column n .conjunction f s → Yields column n .disjunction (wrap f) (p ++ s))
    (h : Yields column n .conjunction f s) :
    let runs := conjunctions (links.map fun l => (l.connector, l.factor.value))
    Yields column n .disjunction
      ((runs.2.map fun c => c.2.foldl .and c.1).foldl .or (wrap (runs.1.foldl .and f)))
      (p ++ (s ++ linksText links)) := by
  induction links generalizing p wrap f s with
  | nil => simpa [conjunctions, linksText] using hwrap f s h
  | cons l links ih =>
    obtain ⟨hl, hlinks⟩ := List.forall_mem_cons.1 hn
    obtain ⟨connector, between, x, hbetween⟩ := l
    have htext : linksText (⟨connector, between, x, hbetween⟩ :: links) =
        between ++ (x.text ++ linksText links) := by
      rw [linksText, List.flatMap_cons, ← linksText, List.append_assoc]
    rw [htext]
    cases connector with
    | and | beside =>
      have hrest := ih hlinks hwrap (h.link hbetween (by decide) hl)
      rwa [List.append_assoc, List.append_assoc] at hrest
    | or =>
      have hwrap' (g : Filter) (t : List Char) (ht : Yields column n .conjunction g t) :
          Yields column n .disjunction (.or (wrap f) g) ((p ++ s) ++ between ++ t) := by
        rw [List.append_assoc (p ++ s)]
        exact (hwrap f s h).link_or hbetween ht
      have hrest := ih hlinks hwrap' (x.yields hl).1.factor
      simp only [List.append_assoc] at hrest ⊢
      exact hrest

end Yields
end

/-- **Operators bind as they should:** clauses that are read by themselves are read with prefixes
and connectors as the filters joined from the left, `AND` and clauses side by side before `OR`,
where an odd number of negations negates a filter and otherwise any `+` requires it. -/
theorem filter?_of_links (first : Factor column) (links : List (Link column)) :
    filter? column (String.ofList (first.text ++ linksText links)) =
      .ok (some (joined .and .or first.value (links.map fun l => (l.connector, l.factor.value)))) := by
  have hfirst : first.atom.length ≤ (first.text ++ linksText links).length := by
    rw [Factor.text, List.length_append, List.length_append]
    omega
  have hlinks : ∀ l ∈ links, l.factor.atom.length ≤ (first.text ++ linksText links).length := by
    intro l hl
    obtain ⟨before, behind, rfl⟩ := List.append_of_mem hl
    simp only [linksText, Factor.text, List.flatMap_append, List.flatMap_cons, List.length_append]
    omega
  -- no conjunction stands in front of the first one
  have hstart {n : Nat} (f : Filter) (s : List Char) (h : Yields column n .conjunction f s) :
      Yields column n .disjunction (id f) ([] ++ s) := h.conjunction
  obtain ⟨hflush, c, hlower, haccepts⟩ :=
    Yields.links hlinks hstart (first.yields hfirst).1.factor
  refine filter?_of_clause? ?_ ?_ hlower <;> rw [String.toList_ofList]
  · exact hflush.allBlank_eq
  · exact clause?_of_accepts hflush haccepts

/-- A negated word, and a conjunction of a word behind three prefixes, a field and a group. -/
theorem filter?_of_mixed_operators :
    filter? none "NOT a or - ! + b && f:c (d OR e)" = .ok (some (.or
      (.mustNot (.literal (.text "a")))
      (.and (.and (.must (.literal (.text "b"))) (.equals ⟨"f"⟩ (.text "c")))
        (.or (.literal (.text "d")) (.literal (.text "e")))))) := by
  have read {u : List Char} {c : Clause} {f : Filter} (hc : (clause? u).toOption = some c)
      (hu : Text.allBlank u = false) (hf : c.lower none = .ok f) :
      filter? none (String.ofList u) = .ok (some f) :=
    filter?_of_clause? (by rwa [String.toList_ofList])
      (by rw [String.toList_ofList]; exact eq_ok_of_toOption hc) hf
  have word {x : Char} (hx : IsTerm [x]) (hres : isReserved [x] = false) (hsign : isSign x = false) :
      IsAtomic [x] := .leaf (.term hx hres (by rintro _ ⟨⟩; exact hsign)) nofun
  have ha : IsAtomic ['a'] := word ⟨by decide, by decide⟩ rfl rfl
  have hb : IsAtomic ['b'] := word ⟨by decide, by decide⟩ rfl rfl
  have hc : IsAtomic "f:c".toList := by
    have hname : FieldText ['f'] := .plain (by decide)
    have hvalue : IsTerm ['c'] := ⟨by decide, by decide⟩
    exact .leaf (.fielded hname (.term hvalue)) (by decide)
  have hgroup : (clause? "d OR e".toList).toOption =
      some (.or (.leaf none (.term ['d'])) (.leaf none (.term ['e']))) := by decide +kernel
  have hreada : (clause? ['a']).toOption = some (.leaf none (.term ['a'])) := by decide +kernel
  have hreadb : (clause? ['b']).toOption = some (.leaf none (.term ['b'])) := by decide +kernel
  have hreadc : (clause? "f:c".toList).toOption = some (.leaf (some ['f']) (.term ['c'])) := by
    decide +kernel
  have hreadd : (clause? "(d OR e)".toList).toOption =
      some (.or (.leaf none (.term ['d'])) (.leaf none (.term ['e']))) := by decide +kernel
  have hnot : IsKeyword "NOT" "!" "NOT".toList := ⟨⟨by decide, by decide⟩, .inl (by decide)⟩
  have hand : IsKeyword "AND" "&&" "&&".toList := ⟨⟨by decide, by decide⟩, .inr (by decide)⟩
  have hor : IsKeyword "OR" "||" "or".toList := ⟨⟨by decide, by decide⟩, .inl (by decide)⟩
  have hsigns : PrefixRun [signOf '-', signOf '!', signOf '+'] "- ! + ".toList :=
    .cons (.sign rfl) isGap_space (.cons (.sign rfl) isGap_space (.cons (.sign rfl) isGap_space .nil))
  have hvalue : joined .and .or (Filter.prefixed [.mustNot] (.literal (.text "a")))
      [(.or, Filter.prefixed [signOf '-', signOf '!', signOf '+'] (.literal (.text "b"))),
        (.and, Filter.prefixed [] (.equals ⟨"f"⟩ (.text "c"))),
        (.beside, Filter.prefixed [] (.or (.literal (.text "d")) (.literal (.text "e"))))] =
      .or (.mustNot (.literal (.text "a")))
        (.and (.and (.must (.literal (.text "b"))) (.equals ⟨"f"⟩ (.text "c")))
          (.or (.literal (.text "d")) (.literal (.text "e")))) := rfl
  rw [← hvalue]
  exact filter?_of_links
    ⟨_, _, _, .literal (.text "a"), .cons (.word hnot) isGap_space .nil, ha, read hreada rfl rfl⟩
    [⟨.or, _, ⟨_, _, _, .literal (.text "b"), hsigns, hb, read hreadb rfl rfl⟩,
        .or isGap_space hor isGap_space⟩,
      ⟨.and, _, ⟨_, _, _, .equals ⟨"f"⟩ (.text "c"), .nil, hc, read hreadc rfl rfl⟩,
        .and isGap_space hand isGap_space⟩,
      ⟨.beside, _, ⟨_, _, _, .or (.literal (.text "d")) (.literal (.text "e")), .nil,
        .group (eq_ok_of_toOption hgroup), read hreadd rfl rfl⟩, .beside isGap_space⟩]

end Grammar
end SearchFilter
