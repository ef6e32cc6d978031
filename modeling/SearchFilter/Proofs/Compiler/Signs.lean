/-
# Runs of signs in front of a clause

In the grammar a run of signs collapses: an odd number of `-` and `!` negates the clause behind
it, and otherwise any `+` requires it. A word or a phrase that is spread over implicit fields
loses only the first sign of its token before that, and the others are taken for a part of it:

| clause | implicit fields | what a run of two or more comes to |
| --- | --- | --- |
| `field:word` | any number | the whole run collapses |
| word, phrase | none | the whole run collapses |
| word | some | the first sign, in front of a pattern with the other ones in it |
| phrase | some | a text that is refused |

So the law of signs holds for all runs, or for single signs (`filter?_signed_iff`).
-/

import SearchFilter.Proofs.Compiler.Refusal
import SearchFilter.Proofs.Grammar.Pattern

namespace SearchFilter

/-- A filter behind a run of signs: an odd number of `-` and `!` negates it, and otherwise any
`+` requires it. -/
def Filter.signed (g : List Char) (f : Filter) : Filter :=
  if (g.count '-' + g.count '!') % 2 = 1 then .mustNot f
  else if g.contains '+' then .must f
  else f

/-- A run of signs leaves the predicates as they are. -/
theorem Filter.predicates_signed (g : List Char) (f : Filter) :
    (f.signed g).predicates = f.predicates := by
  rw [signed]
  split
  · rfl
  · split <;> rfl

open Grammar
open Query (AtBoundary Emits Role Token afterColon? classify copies isSign isSign_iff openings roles
  splitSign)

/-! ### The prefixes of a run -/

namespace Grammar

variable {g : List Char}

/-- Signs that negate are `-` and `!`. -/
theorem count_map_signOf (hg : ∀ x ∈ g, isSign x = true) :
    (g.map signOf).count .mustNot = g.count '-' + g.count '!' := by
  induction g with
  | nil => rfl
  | cons x g ih =>
    obtain ⟨hx, hg⟩ := List.forall_mem_cons.1 hg
    rw [List.map_cons, List.count_cons, ih hg, List.count_cons, List.count_cons]
    rcases isSign_iff.1 hx with rfl | rfl | rfl
    · simp [signOf]
    · simp [signOf, Nat.add_right_comm]
    · simp [signOf, Nat.add_assoc]

/-- The sign that requires is `+`. -/
theorem contains_map_signOf (g : List Char) : (g.map signOf).contains .must = g.contains '+' := by
  induction g with
  | nil => rfl
  | cons x g ih =>
    have hx : (.must == signOf x) = ('+' == x) := by
      rw [Bool.eq_iff_iff, beq_iff_eq, beq_iff_eq, eq_comm, signOf_eq_must_iff, eq_comm]
    rw [List.map_cons, List.contains_cons, List.contains_cons, ih, hx]

/-- Signs are prefixes. -/
theorem prefixed_map_signOf (hg : ∀ x ∈ g, isSign x = true) (f : Filter) :
    f.prefixed (g.map signOf) = f.signed g := by
  rw [Filter.prefixed, count_map_signOf hg, contains_map_signOf, Filter.signed]

end Grammar

/-! ### Tokens behind a run -/

namespace Query

variable {g u : List Char}

/-- A word behind a field is one whatever signs stand in front of it. -/
theorem classify_signs_field {field y : List Char} (hg : ∀ x ∈ g, isSign x = true)
    (hf : FieldText field) (hy : y ≠ []) (r : List Char) :
    classify (g ++ (field ++ ':' :: y)) r = .fielded := by
  obtain ⟨hop, hlone⟩ := isPlayed_signs hg (hf.isPlayed y)
  have hnot : ¬ (y = [] ∧ r.head? = some '(') := fun hempty => hy hempty.1
  rw [classify, hop, if_neg (by decide), if_neg hlone, afterColon?_signs hg (hf.isPlayed y).head_ne,
    hf.afterColon?]
  simp only [if_neg hnot]

/-- Behind a field nothing is changed. -/
theorem emits_signs_field {field y : List Char} {a : Atom} (hg : ∀ x ∈ g, isSign x = true)
    (hf : FieldText field) (hy : AtomText a y) (fields : List (List Char)) (grouped : Bool) :
    Emits fields grouped (g ++ (field ++ ':' :: y)) (g ++ (field ++ ':' :: y)) := by
  obtain ⟨n, hpass⟩ := (LeafText.fielded hf hy).passes
  have hemit : Emits fields grouped (g ++ (field ++ ':' :: y)) (expandToken fields grouped _) :=
    emits_word ((passes_signs hg).append hpass) (by simp)
      (fun r => classify_signs_field hg hf hy.ne_nil r) rfl
  rwa [expandToken_of_not_isSpread rfl] at hemit

/-! ### Phrases behind several signs -/

/-- A value in which a phrase stands behind signs is not proper, whatever follows it. -/
theorem isProper_eq_false {body value : List Char} (h : Stars body value)
    (hhead : ∃ x r, isSign x = true ∧ body = x :: r) (hopen : 0 < openings body) (rest : List Char) :
    isProper (value ++ rest) = false := by
  obtain ⟨x, r, hx, rfl⟩ := hhead
  obtain ⟨y, t, hvalue, hy⟩ : ∃ y t, value = y :: t ∧ (isSign y = true ∨ y = '*') := by
    rcases h.head with rfl | hstar
    · exact ⟨x, r, rfl, .inl hx⟩
    · obtain ⟨t, ht⟩ := List.head?_eq_some_iff.1 hstar
      exact ⟨'*', t, ht, .inr rfl⟩
  have hcount : 0 < openings (value ++ rest) := by
    have hmarks : openings value = openings (x :: r) := h.marks (f := opensHere) fun p => by
      simp [opensHere]
    have hsum : openings (value ++ rest) = openings value + _ := Place.marks_append ..
    omega
  have hstart : opensHere .bare y = false ∧ dropComparison (y :: (t ++ rest)) = y :: (t ++ rest) ∧
      y ≠ '"' := by
    rw [isSign_iff] at hy
    rcases hy with (rfl | rfl | rfl) | rfl <;> exact ⟨rfl, rfl, by decide⟩
  have hzero : (openings (y :: (t ++ rest)) == 0) = false := by
    rw [hvalue] at hcount
    simpa using Nat.ne_of_gt hcount
  rw [hvalue, List.cons_append, isProper, hzero, hstart.2.1]
  simp [hstart.1, hstart.2.2]

/-- So a phrase behind several signs is spread as a value that is not proper. -/
theorem exists_emits_signs_phrase {x y : Char} {t : List Char} (hg : ∀ z ∈ x :: y :: g, isSign z = true)
    (hu : PhraseText t u) (fields : List (List Char)) :
    ∃ value, Emits fields false (x :: y :: g ++ u) (x :: copies fields value) ∧
      IsUnbroken .bare value ∧ ∀ rest, isProper (value ++ rest) = false := by
  obtain ⟨hx, hg'⟩ := List.forall_mem_cons.1 hg
  have hy := hg' y (List.mem_cons_self ..)
  have hpass := (passes_signs hg).append hu.passes
  have hcolon : afterColon? true u = none := by
    cases hu
    exact afterColon?_of_opens rfl true _
  have hsplit : splitSign (x :: y :: g ++ u) = ([x], y :: g ++ u) := splitSign_sign hx _
  have hkind := classify_signs hg (WritesLeaf.phrase hu).isPlayed hcolon (by
    rw [hsplit]
    rintro _ ⟨⟩
    have hbody := isBody_of_isSign hy
    exact ⟨ne_of_isBody hbody (by decide), ne_of_isBody hbody (by decide),
      ne_of_isBody hbody (by decide)⟩)
  have hemits : Emits fields false (x :: y :: g ++ u) _ := emits_copies hpass (by simp) hkind rfl rfl
  have hstars := stars_value ⟨.term, x :: y :: g ++ u⟩
  rw [hsplit] at hemits hstars
  have hopen : openings (y :: g ++ u) = 0 + 1 := ((passes_signs hg').append hu.passes).openings
  exact ⟨_, hemits, isUnbroken_value hpass.unbroken,
    isProper_eq_false hstars ⟨y, g ++ u, hy, rfl⟩ (hopen ▸ Nat.succ_pos 0)⟩

end Query

/-! ### Compiling -/

namespace Compiler

variable {k : Compiler} {p q : String} {c : Clause} {f e : Filter} {g s u w : List Char}

/-- A query that is expanded to an operand behind a run of signs has the filter of the operand
behind this run. -/
theorem filter?_of_stands (hs : Stands c s) (hg : ∀ x ∈ g, isSign x = true)
    (hexpand : (k.expand q).toList = g ++ s) (hshows : Shows 0 s)
    (hpoints : c.fields.flatten.count '.' = 0)
    (hfields : k.schema.checkFields c.fields = .ok ()) (hlower : c.lower k.defaultColumn? = .ok f)
    (hsize : k.checkSize q = .ok ()) : k.filter? q = .ok (some (f.signed g)) := by
  have hclause := hs.clause?_signs hg
  have hprefixed := c.lower_prefixed (g.map signOf) hlower
  rw [prefixed_map_signOf hg] at hprefixed
  rw [← hexpand] at hclause
  refine filter?_of_shows hsize (hexpand ▸ hs.flush.signs hg) hclause ?_ ?_ hprefixed
  · rw [Clause.fields_prefixed, hpoints, hexpand]
    exact shows_signs hshows hg
  · rw [Clause.fields_prefixed, hfields]

/-- What the operand of a query is bound to. -/
theorem lower_of_stands (hs : Stands c s) (hexpand : (k.expand p).toList = s)
    (he : k.filter? p = .ok (some e)) : c.lower k.defaultColumn? = .ok e := by
  obtain ⟨c', hclause, hlower⟩ := exists_clause_of_filter? (passed_of_filter? he).grammar
  have hread := hs.clause?_signs (g := []) (by simp)
  rw [hexpand] at hclause
  obtain rfl : c.prefixed [] = c' := Except.ok.inj (hread.symm.trans hclause)
  exact hlower

/-- **The law of signs** for queries whose expanded texts differ by these signs. -/
theorem filter?_signed_of_stands (hs : Stands c s) (hg : ∀ x ∈ g, isSign x = true)
    (hp : (k.expand p).toList = s) (hq : (k.expand q).toList = g ++ s)
    (hshows : Shows 0 s) (hpoints : c.fields.flatten.count '.' = 0)
    (hfields : k.schema.checkFields c.fields = .ok ()) (he : k.filter? p = .ok (some e))
    (hsize : k.checkSize q = .ok ()) : k.filter? q = .ok (some (e.signed g)) :=
  filter?_of_stands hs hg hq hshows hpoints hfields (lower_of_stands hs hp he) hsize

/-! ### Copies over the implicit fields -/

section
variable {a : Atom} {value name : List Char} {names : List (List Char)}

/-- A query that is expanded to the copies of a value has a filter only where no implicit field is
read as `NOT`. -/
theorem isNameable_of_filter? (hnames : k.implicitNames = name :: names) (ha : WritesAtom a value)
    (hp : (k.expand p).toList = copies k.implicitNames value) (he : k.filter? p = .ok (some e)) :
    ∀ f ∈ k.implicitNames, IsNameable f := by
  obtain ⟨c, hclause, -⟩ := exists_clause_of_filter? (passed_of_filter? he).grammar
  have htext : ∀ f ∈ name :: names, FieldText f := hnames ▸ fun f => fieldText_of_mem_implicitNames
  rw [hp, hnames] at hclause
  rw [hnames]
  exact isNameable_of_clause?_copies ha htext hclause

/-- The copies of a value over the implicit fields stand for its alternatives, if a query that
is expanded to them has a filter. -/
theorem stands_implicit (hnames : k.implicitNames = name :: names) (ha : WritesAtom a value)
    (hp : (k.expand p).toList = copies k.implicitNames value) (he : k.filter? p = .ok (some e))
    {b : Atom} {text : List Char} (hb : WritesAtom b text) :
    Stands (.anyOf b name names) (copies k.implicitNames text) := by
  have hnameable := isNameable_of_filter? hnames ha hp he
  rw [hnames] at hnameable ⊢
  exact stands_copies hb hnameable

/-- The filter of copies behind a run of signs. -/
theorem filter?_of_copies (hnames : k.implicitNames = name :: names)
    (hs : Stands (.anyOf a name names) (copies k.implicitNames value))
    (hshows : Shows 0 value) (hg : ∀ x ∈ g, isSign x = true)
    (hq : (k.expand q).toList = g ++ copies k.implicitNames value)
    (hsize : k.checkSize q = .ok ()) :
    k.filter? q = .ok (some ((anyColumn (fun c => a.filter c) name names).signed g)) := by
  refine filter?_of_stands hs hg hq ?_ ?_ ?_ (lower_anyOf a _) hsize
  · rw [hnames]
    exact shows_copies hshows (hnames ▸ fun f hf =>
      ⟨fieldText_of_mem_implicitNames hf, not_mem_implicitNames hf⟩)
  · rw [fields_anyOf, List.count_eq_zero, ← hnames]
    intro hpoint
    obtain ⟨f, hf, hpoint⟩ := List.mem_flatten.1 hpoint
    exact not_mem_implicitNames hf hpoint
  · rw [fields_anyOf, ← hnames]
    exact Schema.checkFields_eq_ok fun f hf => check_of_mem_implicitNames hf

end

/-! ### Words and phrases -/

/-- The signs behind the first one become a part of the pattern that a word is searched for as. -/
theorem expand_word (hnames : k.implicitNames ≠ []) (hg : ∀ x ∈ g, isSign x = true)
    (hw : IsSimple w) (hfree : isReserved w = false) (hq : q.toList = g ++ w) :
    (k.expand q).toList = (splitSign (g ++ w)).1 ++
      copies k.implicitNames ('*' :: ((splitSign (g ++ w)).2 ++ ['*'])) := by
  rw [toList_expand_of_ne_nil hnames, hq]
  exact Query.expandFrom_of_emits
    (emits_body hg (hw.isPlayed hfree) (fun c hc => isBody_of_isSimple (hw.all c hc)) _)

/-- Neither signs nor a simple word has points, nor what ends a term. -/
theorem writesAtom_run (hg : ∀ x ∈ g, isSign x = true) (hw : IsSimple w) :
    WritesAtom (.term ('*' :: (g ++ w ++ ['*']))) ('*' :: (g ++ w ++ ['*'])) ∧
      Shows 0 ('*' :: (g ++ w ++ ['*'])) := by
  have hbody : ∀ c ∈ g ++ w, isBody c = true := fun c hc =>
    (List.mem_append.1 hc).elim (fun h => isBody_of_isSign (hg c h))
      fun h => isBody_of_isSimple (hw.all c h)
  refine ⟨writesAtom_starred hbody, shows_starred hbody fun hpoint => ?_⟩
  rcases List.mem_append.1 hpoint with h | h
  · exact absurd (hg _ h) (by decide)
  · exact ne_of_isSimple (hw.all _ h) (by decide) rfl

/-- Behind at most one sign a phrase is searched for as it stands. -/
theorem expand_phrase {t : List Char} (hnames : k.implicitNames ≠ []) (hg : IsSigns g)
    (hu : PhraseText t u) (hq : q.toList = g ++ u) :
    (k.expand q).toList = g ++ copies k.implicitNames u := by
  have hplayed := (WritesLeaf.phrase hu).isPlayed
  rw [toList_expand_of_ne_nil hnames, hq]
  exact Query.expandFrom_of_emits
    ((WritesLeaf.phrase hu).emits_copies hg rfl (value_of_phrase hg hplayed))

/-- Behind several signs a phrase is refused. -/
theorem filter?_ne_ok_of_phrase {x y : Char} {t : List Char} (hnames : k.implicitNames ≠ [])
    (hg : ∀ z ∈ x :: y :: g, isSign z = true) (hu : PhraseText t u)
    (hq : q.toList = x :: y :: g ++ u) (f : Filter) : k.filter? q ≠ .ok (some f) := fun hf => by
  obtain ⟨-, -, hfault⟩ := accepted_of_filter? (passed_of_filter? hf).grammar
  obtain ⟨value, hemits, hunbroken, hproper⟩ :=
    Query.exists_emits_signs_phrase hg hu k.implicitNames
  obtain ⟨name, names, hcons⟩ := List.exists_cons_of_ne_nil hnames
  have hname : FieldText name :=
    fieldText_of_mem_implicitNames (c := k) (hcons ▸ List.mem_cons_self ..)
  rw [toList_expand_of_ne_nil hnames, hq, Query.expandFrom_of_emits hemits,
    Query.roles_sign (hg x (List.mem_cons_self ..)), hcons] at hfault
  obtain ⟨r, hr⟩ : ∃ r, Role.fault ∉ roles (name ++ ':' :: (value ++ r)) := by
    cases names with
    | nil => exact ⟨[], by rwa [List.append_nil]⟩
    | cons f names =>
      rw [Query.copies_eq_joined (by simp), Query.joined_eq_others, Query.roles_opening] at hfault
      exact ⟨_, fun h => hfault (List.mem_cons_of_mem _ h)⟩
  obtain ⟨rest, hrest⟩ := Query.isProper_of_roles hname hunbroken hr
  rw [hproper rest] at hrest
  cases hrest

/-! ### The law -/

/-- Of the tests on some columns the first one is that on the first column. -/
theorem predicates_anyColumn {test : Column → Filter} (htest : ∀ c, (test c).isPredicate = true)
    (name : List Char) (names : List (List Char)) :
    (anyColumn test name names).predicates.head? = some (test (columnOf name)) := by
  have key (names : List (List Char)) {f : Filter}
      (hf : f.predicates.head? = some (test (columnOf name))) :
      (names.foldl (fun g h => Filter.or g (test (columnOf h))) f).predicates.head? =
        some (test (columnOf name)) := by
    induction names generalizing f with
    | nil => exact hf
    | cons g names ih =>
      refine ih ?_
      rw [Filter.predicates, List.head?_append, hf]
      rfl
  refine key names ?_
  rw [Filter.predicates_of_isPredicate (htest _)]
  rfl

/-- What signs are put in front of; `bound` says that it names its field. -/
inductive Signable (s : Schema) : (bound : Bool) → List Char → Prop
  | word {w : List Char} : IsSimple w → isReserved w = false → Signable s false w
  | phrase {t u : List Char} : PhraseText t u → Signable s false u
  | fielded {f : Field} {w : List Char} : f ∈ s.fields →
    Text.sameWord f.name.toList ['N', 'O', 'T'] = false → IsSimple w →
    Signable s true (f.name.toList ++ ':' :: w)

section
variable {bound : Bool}

/-- The grammar reads it as one operand, whose field is in the schema. -/
theorem Signable.exists_stands (h : Signable k.schema bound u) :
    ∃ c, Stands c u ∧ Shows 0 u ∧ c.fields.flatten.count '.' = 0 ∧
      k.schema.checkFields c.fields = .ok () := by
  cases h with
  | word hw hfree => exact ⟨_, hw.stands hfree, hw.shows, rfl, rfl⟩
  | phrase hu => exact ⟨_, hu.stands, hu.shows, rfl, rfl⟩
  | @fielded f w hf hfree hw =>
    have hid := k.schema.named f hf
    have hpoint := Schema.not_mem_of_isIdentifier hid
    have hname : FieldText f.name.toList := .plain hid
    refine ⟨_, hw.writesAtom.stands ⟨hname, hfree⟩, hname.shows_zero hpoint hw.shows, ?_, ?_⟩
    · simpa [Clause.fields] using List.count_eq_zero.2 hpoint
    · refine Schema.checkFields_eq_ok (List.forall_mem_singleton.2 ?_)
      rw [columnOf_toList]
      exact Schema.check_of_mem hf

/-- Behind its field a word is left as it is. -/
theorem Signable.expand_eq (h : Signable k.schema true u) (hg : ∀ x ∈ g, isSign x = true)
    (hq : q.toList = g ++ u) : k.expand q = q := by
  cases h with
  | fielded hf _ hw =>
    refine expand_of_emits fun fields => ?_
    rw [hq]
    exact Query.emits_signs_field hg (.plain (k.schema.named _ hf)) (.term hw.isTerm) fields false

/-- Without a field it is spread as one value, behind at most one sign. -/
theorem Signable.exists_value (h : Signable k.schema false u) (hnames : k.implicitNames ≠ []) :
    ∃ a value, WritesAtom a value ∧ Shows 0 value ∧
      ∀ (g : List Char) (q : String), IsSigns g → q.toList = g ++ u →
        (k.expand q).toList = g ++ copies k.implicitNames value := by
  cases h with
  | word hw hfree =>
    obtain ⟨ha, hshows⟩ := writesAtom_run (g := []) (by simp) hw
    refine ⟨_, _, ha, hshows, fun g q hg hq => ?_⟩
    have hall : ∀ x ∈ g, isSign x = true := by
      rcases hg with rfl | ⟨x, hx, rfl⟩
      · simp
      · simpa using hx
    have hexpand := expand_word hnames hall hw hfree hq
    rwa [hg.splitSign_append (hw.isPlayed hfree)] at hexpand
  | phrase hu => exact ⟨_, _, .phrase hu, hu.shows, fun g q hg hq => expand_phrase hnames hg hu hq⟩

/-- Behind several signs a word is searched for with all but the first of them, and a phrase is
not searched for at all. -/
theorem Signable.filter?_ne (h : Signable k.schema false p.toList) (hnames : k.implicitNames ≠ [])
    {x y : Char} (hg : ∀ z ∈ x :: y :: g, isSign z = true) (hq : q.toList = x :: y :: g ++ p.toList)
    (hsize : k.checkSize q = .ok ()) (he : k.filter? p = .ok (some e)) :
    k.filter? q ≠ .ok (some (e.signed (x :: y :: g))) := by
  obtain ⟨hx, -⟩ := List.forall_mem_cons.1 hg
  obtain ⟨name, names, hcons⟩ := List.exists_cons_of_ne_nil hnames
  generalize htext : p.toList = u at h hq
  cases h with
  | phrase hu => exact filter?_ne_ok_of_phrase hnames hg hu hq _
  | word hw hfree =>
    intro hf
    have hsplit : splitSign (x :: y :: g ++ u) = ([x], y :: g ++ u) := Query.splitSign_sign hx _
    have hsplit' : splitSign ([] ++ u) = ([], u) := Query.splitSign_of_isPlayed (hw.isPlayed hfree)
    have hexpand := expand_word hnames hg hw hfree hq
    have hexpand' := expand_word (g := []) hnames (by simp) hw hfree htext
    rw [hsplit] at hexpand
    rw [hsplit', List.nil_append] at hexpand'
    obtain ⟨ha, hshows⟩ := writesAtom_run (g := y :: g) (List.forall_mem_cons.1 hg).2 hw
    obtain ⟨ha', -⟩ := writesAtom_run (g := []) (by simp) hw
    have hlong := filter?_of_copies hcons (stands_implicit hcons ha' hexpand' he ha) hshows
      (g := [x]) (by simpa using hx) hexpand hsize
    have hshort := lower_of_stands (stands_implicit hcons ha' hexpand' he ha') hexpand' he
    rw [lower_anyOf] at hshort
    -- both filters test for patterns first, of different lengths
    obtain rfl := Except.ok.inj hshort
    rw [hlong] at hf
    have hsame := congrArg (fun f => f.predicates.head?) (Option.some.inj (Except.ok.inj hf))
    simp only [Filter.predicates_signed, filter_starred] at hsame
    rw [predicates_anyColumn fun _ => rfl, predicates_anyColumn fun _ => rfl] at hsame
    have hpattern := congrArg String.toList (Filter.like.inj (Option.some.inj hsame)).2
    have hlength := congrArg List.length hpattern
    simp only [String.toList_ofList, List.length_cons, List.length_append, List.length_nil] at hlength
    omega

end

/-- **A run of signs collapses exactly where the clause names its field, where there are no
implicit fields, or where it is one sign.** -/
theorem filter?_signed_iff {bound : Bool} (hp : Signable k.schema bound p.toList)
    (hg : ∀ x ∈ g, isSign x = true) (hne : g ≠ []) (hq : q.toList = g ++ p.toList)
    (hsize : k.checkSize q = .ok ()) (he : k.filter? p = .ok (some e)) :
    k.filter? q = .ok (some (e.signed g)) ↔
      bound = true ∨ k.schema.implicitFields = [] ∨ g.length = 1 := by
  -- where both texts are left as they are, the law is that of the grammar
  have kept (hp' : k.expand p = p) (hq' : k.expand q = q) :
      k.filter? q = .ok (some (e.signed g)) := by
    obtain ⟨c, hs, hshows, hpoints, hfields⟩ := hp.exists_stands
    exact filter?_signed_of_stands hs hg (by rw [hp']) (by rw [hq', hq]) hshows hpoints hfields he hsize
  by_cases hnames : k.implicitNames = []
  · exact iff_of_true (kept (expand_of_nil hnames p) (expand_of_nil hnames q))
      (.inr (.inl (implicitNames_eq_nil_iff.1 hnames)))
  cases bound with
  | true => exact iff_of_true (kept (hp.expand_eq (g := []) (by simp) rfl) (hp.expand_eq hg hq)) (.inl rfl)
  | false =>
    have himplicit : k.schema.implicitFields ≠ [] := fun h => hnames (implicitNames_eq_nil_iff.2 h)
    obtain ⟨x, g, rfl⟩ := List.exists_cons_of_ne_nil hne
    cases g with
    | nil =>
      refine iff_of_true ?_ (.inr (.inr rfl))
      obtain ⟨name, names, hcons⟩ := List.exists_cons_of_ne_nil hnames
      obtain ⟨a, value, ha, hshows, hexpand⟩ := hp.exists_value hnames
      have hexpand' := hexpand [] p (.inl rfl) rfl
      have hs := stands_implicit hcons ha hexpand' he ha
      have hlower := lower_of_stands hs hexpand' he
      rw [lower_anyOf] at hlower
      obtain rfl := Except.ok.inj hlower
      exact filter?_of_copies hcons hs hshows hg
        (hexpand [x] q (.inr ⟨x, hg x (List.mem_cons_self ..), rfl⟩) hq) hsize
    | cons y g => exact iff_of_false (hp.filter?_ne hnames hg hq hsize he) (by simp [himplicit])

/-- Three signs in front of a word behind its field, and one in front of a word that is spread
over two fields. -/
theorem filter?_of_sign_run :
    let k := sample 2 ⟨100, 9, 9⟩ (by decide)
    (∃ e, k.filter? "f:a" = .ok (some e) ∧ k.filter? "-+!f:a" = .ok (some (.must e))) ∧
      ∃ e, k.filter? "a" = .ok (some e) ∧ k.filter? "-a" = .ok (some (.mustNot e)) := by
  intro k
  have ha : IsSimple ['a'] := ⟨by decide, List.forall_mem_singleton.2 (by decide)⟩
  have hfield : Signable k.schema true "f:a".toList :=
    .fielded (f := .of "f" .text) (by decide +kernel) (by decide +kernel) ha
  have hword : Signable k.schema false "a".toList := .word ha (by decide +kernel)
  obtain ⟨e, he⟩ : ∃ e, k.filter? "f:a" = .ok (some e) := exists_of_isSome_join (by decide +kernel)
  obtain ⟨e', he'⟩ : ∃ e, k.filter? "a" = .ok (some e) := exists_of_isSome_join (by decide +kernel)
  exact ⟨⟨e, he, (filter?_signed_iff (g := ['-', '+', '!']) hfield
      (List.all_eq_true.1 (by decide)) (by decide) rfl (by decide +kernel) he).2 (.inl rfl)⟩,
    e', he', (filter?_signed_iff (g := ['-']) hword
      (List.all_eq_true.1 (by decide)) (by decide) rfl (by decide +kernel) he').2 (.inr (.inr rfl))⟩

/-- Two signs in front of a word or of a phrase do not collapse where there is an implicit
field. -/
theorem exists_filter?_ne_signed :
    let k := sample 1 ⟨100, 9, 9⟩ (by decide)
    (∃ e, k.filter? "a" = .ok (some e) ∧ k.checkSize "++a" = .ok () ∧
      k.filter? "++a" ≠ .ok (some (.must e))) ∧
    ∃ e, k.filter? "\"a b\"" = .ok (some e) ∧ k.checkSize "--\"a b\"" = .ok () ∧
      k.filter? "--\"a b\"" ≠ .ok (some e) := by
  intro k
  have hnames : k.implicitNames ≠ [] := by decide +kernel
  have hsize : k.checkSize "++a" = .ok () ∧ k.checkSize "--\"a b\"" = .ok () := by decide +kernel
  have hword : Signable k.schema false "a".toList :=
    .word ⟨by decide +kernel, List.forall_mem_singleton.2 (by decide)⟩ (by decide +kernel)
  have hinside : spanQuoted ['a', ' ', 'b'] = (['a', ' ', 'b'], []) := rfl
  have hphrase : Signable k.schema false "\"a b\"".toList := .phrase (.mk hinside)
  obtain ⟨e, he⟩ : ∃ e, k.filter? "a" = .ok (some e) := exists_of_isSome_join (by decide +kernel)
  obtain ⟨e', he'⟩ : ∃ e, k.filter? "\"a b\"" = .ok (some e) :=
    exists_of_isSome_join (by decide +kernel)
  exact ⟨⟨e, he, hsize.1, hword.filter?_ne (x := '+') (y := '+') (g := []) hnames
      (List.all_eq_true.1 (by decide)) rfl hsize.1 he⟩,
    e', he', hsize.2, hphrase.filter?_ne (x := '-') (y := '-') (g := []) hnames
      (List.all_eq_true.1 (by decide)) rfl hsize.2 he'⟩

end Compiler

end SearchFilter
