/-
# The pieces of a text

An accepted text is a row of pieces: the atoms of its clause, each with its field, and the
powers of its boosts, in their order. What stands between them says how the pieces are put
together, and nothing else (`Glue`):

| glue | text |
| --- | --- |
| blanks, prefixes and keywords | as the grammar has them |
| groups | `(`, `)`, and a field with its colon in front of `(` |
| fuzzy suffixes | `~`, perhaps with a distance |

A piece is what the reader of atoms takes where it stands, whatever reads groups
(`atomReader`), or the reader of boosts. So a derivation of a text that is accepted is one
that the order of the readers allows (`exists_holds_of_clause?`).
-/

import Mathlib.Data.List.Forall2
import SearchFilter.Proofs.Grammar.Atom
import SearchFilter.Proofs.Grammar.Outline

namespace SearchFilter

namespace Filter

/-- The leaves of a filter, those of groups included, from left to right. -/
def leaves : Filter → List Filter
  | equals _ (.group f) => f.leaves
  | and l r => l.leaves ++ r.leaves
  | or l r => l.leaves ++ r.leaves
  | must f => f.leaves
  | mustNot f => f.leaves
  | fuzzy f _ => f.leaves
  | boost f _ => f.leaves
  | f => [f]

/-- The powers of the boosts of a filter, those of groups included, each behind those of the
filter that it modifies. -/
def powers : Filter → List Double
  | equals _ (.group f) => f.powers
  | and l r => l.powers ++ r.powers
  | or l r => l.powers ++ r.powers
  | must f => f.powers
  | mustNot f => f.powers
  | fuzzy f _ => f.powers
  | boost f x => f.powers ++ [x]
  | _ => []

end Filter

namespace Grammar

open Query (AtBoundary isSign opensHere opensHere_bare_iff)
open Reader

/-! ### The parts of a clause -/

/-- What a clause is put together from. -/
inductive Part where
  | atom (field : Option (List Char)) (atom : Atom)
  | power (x : Double)
deriving DecidableEq, Repr

namespace Part

/-- Whether a part is an atom. -/
def isAtom : Part → Bool
  | atom .. => true
  | power _ => false

/-- The power of a boost. -/
def power? : Part → Option Double
  | atom .. => none
  | power x => some x

end Part

namespace Clause

/-- The parts of a clause, in the order of its text. -/
def parts : Clause → List Part
  | leaf field a => [.atom field a]
  | fieldGroup _ c => c.parts
  | and l r => l.parts ++ r.parts
  | or l r => l.parts ++ r.parts
  | must c => c.parts
  | mustNot c => c.parts
  | fuzzy c _ => c.parts
  | boost c x => c.parts ++ [.power x]

/-- Of the suffixes a boost is one more part. -/
@[simp] theorem parts_suffixed (c : Clause) (fuzzy : Option (Option Nat)) (boost : Option Double) :
    (c.suffixed fuzzy boost).parts = c.parts ++ (boost.map Part.power).toList := by
  cases fuzzy <;> cases boost <;> simp [suffixed, parts]

/-- Prefixes are no parts. -/
@[simp] theorem parts_prefixed (ps : List Prefix) (c : Clause) :
    (c.prefixed ps).parts = c.parts := by
  rw [prefixed]
  split
  · rfl
  · split <;> rfl

end Clause

/-! ### Rows of pieces -/

/-- A part with the text that it is read from. -/
structure Piece where
  text : List Char
  part : Part

/-- The reader of atoms, with a field or without. -/
def atomReader : Reader Clause := .orElse (fielded .fail) (unfielded .fail)

/-- The text between the pieces, off the front of a text. -/
inductive Glue : List Char → List Char → Prop
  | blank {b : Char} {s : List Char} : Text.isBlank b = true → Glue (b :: s) s
  | signs {ps : List Prefix} {s r : List Char} : Signs ps s r → Glue s r
  | joins {word symbol : String} {s r : List Char} :
    (word, symbol) ∈ [("AND", "&&"), ("OR", "||")] → Joins word symbol s r → Glue s r
  | opening (s : List Char) : Glue ('(' :: s) s
  | field {field s : List Char} : FieldText field → Glue (field ++ ':' :: '(' :: s) ('(' :: s)
  | closing (s : List Char) : Glue (')' :: s) s
  | fuzzy {distance : Option Nat} {z s : List Char} : FuzzyText (some distance) z → Glue (z ++ s) s

/-- The pieces stand in front of the rest of a text, in their order, with nothing but glue
between them. -/
inductive Holds : List Piece → List Char → List Char → Prop
  | refl (s : List Char) : Holds [] s s
  | glue {ps : List Piece} {s m r : List Char} : Glue s m → Holds ps m r → Holds ps s r
  | atom {ps : List Piece} {field : Option (List Char)} {a : Atom} {u m r : List Char} :
    atomReader.Takes (u ++ m) (.leaf field a) m → Holds ps m r →
    Holds (⟨u, .atom field a⟩ :: ps) (u ++ m) r
  | power {ps : List Piece} {x : Double} {u m r : List Char} :
    boostSuffix.Takes (u ++ m) x m → Holds ps m r → Holds (⟨u, .power x⟩ :: ps) (u ++ m) r

/-- Pieces stand in front of the rest one after the other. -/
theorem Holds.trans {ps qs : List Piece} {s m r : List Char} (h : Holds ps s m)
    (hm : Holds qs m r) : Holds (ps ++ qs) s r := by
  induction h with
  | refl s => exact hm
  | glue hg _ ih => exact .glue hg (ih hm)
  | atom ha _ ih => exact .atom ha (ih hm)
  | power hx _ ih => exact .power hx (ih hm)

/-- What a piece is read from, whatever follows. -/
inductive Piece.IsRead : Piece → List Char → Prop
  | atom {field : Option (List Char)} {a : Atom} {u m : List Char} :
    atomReader.Takes (u ++ m) (.leaf field a) m → IsRead ⟨u, .atom field a⟩ m
  | power {x : Double} {u m : List Char} :
    boostSuffix.Takes (u ++ m) x m → IsRead ⟨u, .power x⟩ m

/-- Each piece of a row is read where it stands. -/
theorem Holds.exists_isRead {ps : List Piece} {s r : List Char} (h : Holds ps s r) :
    ∀ p ∈ ps, ∃ m, p.IsRead m := by
  induction h with
  | refl s => simp
  | glue _ _ ih => exact ih
  | atom ha _ ih => exact List.forall_mem_cons.2 ⟨⟨_, .atom ha⟩, ih⟩
  | power hx _ ih => exact List.forall_mem_cons.2 ⟨⟨_, .power hx⟩, ih⟩

/-! ### Clauses -/

/-- The parts of a clause stand in front of the rest of a text. -/
def Spelt (c : Clause) (s r : List Char) : Prop :=
  ∃ ps, Holds ps s r ∧ ps.map Piece.part = c.parts

namespace Spelt

/-- Glue in front of a clause is part of its text. -/
theorem glue {c : Clause} {s m r : List Char} (hg : Glue s m) (h : Spelt c m r) : Spelt c s r := by
  obtain ⟨ps, hps, hparts⟩ := h
  exact ⟨ps, .glue hg hps, hparts⟩

/-- Glue behind a clause is part of its text. -/
theorem glue_behind {c : Clause} {s m r : List Char} (h : Spelt c s m) (hg : Glue m r) :
    Spelt c s r := by
  obtain ⟨ps, hps, hparts⟩ := h
  exact ⟨ps, by simpa using hps.trans (.glue hg (.refl r)), hparts⟩

/-- A clause with the same parts is spelt by the same text. -/
theorem of_parts {c d : Clause} {s r : List Char} (h : Spelt c s r) (hd : d.parts = c.parts) :
    Spelt d s r := by
  obtain ⟨ps, hps, hparts⟩ := h
  exact ⟨ps, hps, hparts.trans hd.symm⟩

/-- Two clauses one behind the other. -/
theorem append {c d e : Clause} {s m r : List Char} (hc : Spelt c s m) (hd : Spelt d m r)
    (he : e.parts = c.parts ++ d.parts) : Spelt e s r := by
  obtain ⟨ps, hps, hparts⟩ := hc
  obtain ⟨qs, hqs, hparts'⟩ := hd
  exact ⟨ps ++ qs, hps.trans hqs, by rw [List.map_append, hparts, hparts', he]⟩

/-- Blanks in front of a clause are part of its text. -/
theorem skipBlank {c : Clause} {s r : List Char} (h : Spelt c (Text.skipBlank s) r) :
    Spelt c s r :=
  Text.of_skipBlank (P := fun s => Spelt c s r) (fun hb h => h.glue (.blank hb)) h

/-- Blanks behind a clause are part of its text. -/
theorem skipBlank_behind {c : Clause} {s r : List Char} (h : Spelt c s r) :
    Spelt c s (Text.skipBlank r) :=
  Text.skipBlank_of (P := Spelt c s) (fun hb h => h.glue_behind (.blank hb)) h

end Spelt

/-! ### Atoms -/

section
variable {clause : Reader Clause} {s r : List Char} {c : Clause}

/-- Without clauses inside of groups no group is read. -/
theorem fails_group_fail (s : List Char) : (group .fail).Fails s := fails_of_not_takes fun _ _ h => by
  simp [group] at h

/-- A choice that its first reader has no part in. -/
theorem takes_choice_replace {α : Type} {p q : Reader α} {ps : List (Reader α)} {a : α}
    (hq : q.Fails s) (h : (choice (p :: ps)).Takes s a r) :
    p.Takes s a r ∨ (choice (q :: ps)).Takes s a r :=
  (takes_choice_cons.1 h).imp id fun h => takes_choice_cons.2 (.inr ⟨hq, h.2⟩)

/-- With a field, a clause is a group or what is read whatever reads groups. -/
theorem takes_fielded_or (h : (fielded clause).Takes s c r) :
    (fielded .fail).Takes s c r ∨ ∃ field inner m, c = .fieldGroup field inner ∧
      FieldText field ∧ s = field ++ ':' :: m ∧ (group clause).Takes m inner r := by
  simp only [fielded, takes_bind, takes_just] at h
  obtain ⟨field, _, hname, _, m, ⟨rfl, rfl⟩, h⟩ := h
  obtain ⟨hfield, rfl⟩ := takes_fieldName hname
  rcases takes_choice_replace ((fails_group_fail m).map _) h with h | h
  · obtain ⟨inner, hinner, rfl⟩ := takes_map.1 h
    exact .inr ⟨field, inner, m, rfl, hfield, rfl, hinner⟩
  · refine .inl ?_
    simp only [fielded, takes_bind, takes_just]
    exact ⟨field, _, hname, ':', m, ⟨rfl, rfl⟩, h⟩

/-- Without a field, a clause is a group or what is read whatever reads groups. -/
theorem takes_unfielded_or (h : (unfielded clause).Takes s c r) :
    (unfielded .fail).Takes s c r ∨ (group clause).Takes s c r :=
  (takes_choice_replace (fails_group_fail s) h).symm

/-- What no clause with a field is read from, is none whatever reads groups. -/
theorem fails_fielded_fail (h : (fielded clause).Fails s) : (fielded .fail).Fails s :=
  fails_of_not_takes fun c r hr => by
    simp only [fielded, takes_bind, takes_just] at hr
    obtain ⟨field, _, hname, _, m, ⟨rfl, rfl⟩, hr⟩ := hr
    have hrest := (takes_choice_cons.1 hr).resolve_left (((fails_group_fail m).map _).not_takes)
    have hclause : ∃ c r, (fielded clause).Takes s c r := by
      simp only [fielded, takes_bind, takes_just]
      rcases takes_or_fails (Clause.fieldGroup field <$> group clause) m with ⟨c', r', hg⟩ | hg
      · exact ⟨c', r', field, _, hname, ':', m, ⟨rfl, rfl⟩, hg.choice _⟩
      · exact ⟨c, r, field, _, hname, ':', m, ⟨rfl, rfl⟩, hg.choice hrest.2⟩
    obtain ⟨c', r', hclause⟩ := hclause
    exact h.not_takes hclause

/-- Behind a field, whatever reads no groups reads an atom. -/
theorem exists_leaf_of_takes_fielded (h : (fielded .fail).Takes s c r) :
    ∃ field a u, c = .leaf (some field) a ∧ FieldText field ∧ AtomText a u ∧
      s = field ++ ':' :: (u ++ r) := by
  obtain ⟨field, m, hfield, rfl, ⟨_, -, hg⟩ | ⟨a, u, rfl, hu, rfl⟩⟩ := takes_fielded_cases h
  · exact absurd hg (fails_group_fail m).not_takes
  · exact ⟨field, a, u, rfl, hfield, hu, rfl⟩

/-- What is read without a field does not start with one. -/
theorem exists_leaf_of_takes_unfielded (h : (unfielded .fail).Takes s c r) :
    ∃ a u, c = .leaf none a ∧ AtomText a u ∧ s = u ++ r ∧
      ∀ name v, FieldText name → u ≠ name ++ ':' :: v := by
  have opened {a : Atom} {u : List Char} (ha : AtomText a u)
      (ha' : (∃ p, a = .phrase p) ∨ ∃ min max inclusive, a = .range min max inclusive)
      (name v : List Char) (hname : FieldText name) : u ≠ name ++ ':' :: v := by
    rintro rfl
    obtain ⟨c, w, hc, hopens⟩ := ha.opens ha'
    obtain ⟨d, name, rfl⟩ := List.exists_cons_of_ne_nil hname.isTerm.ne_nil
    obtain rfl : d = c := (List.cons.inj hc).1
    have hstart := hname.isNameStart d rfl
    rcases opensHere_bare_iff.1 hopens with rfl | rfl | rfl <;> exact absurd hstart (by decide)
  obtain h | ⟨a, u, rfl, hu, rfl, hform⟩ := takes_unfielded_cases h
  · exact absurd h (fails_group_fail s).not_takes
  refine ⟨a, u, rfl, hu, rfl, ?_⟩
  rcases hform with hphrase | hrange | ⟨rfl, -⟩
  · exact opened hu (.inl hphrase)
  · exact opened hu (.inr hrange)
  · rintro name v hname rfl
    obtain ⟨hterm⟩ := hu
    have hcut := hterm.span
    rw [hname.isTerm.spanTerm_append (endsTerm_colon v)] at hcut
    simp at hcut

end

/-! ### Clauses in their texts -/

section
variable {clause : Reader Clause} {s r : List Char} {c : Clause}

/-- What the reader of the clauses inside of groups takes is spelt where it stands. -/
def IsSpelt (clause : Reader Clause) : Prop := ∀ s c r, clause.Takes s c r → Spelt c s r

/-- An atom is spelt where it is read. -/
theorem spelt_atom (h : atomReader.Takes s c r) : Spelt c s r := by
  obtain ⟨field, a, u, rfl, rfl⟩ : ∃ field a u, c = .leaf field a ∧ s = u ++ r := by
    rcases takes_orElse.1 h with h | ⟨-, h⟩
    · obtain ⟨field, a, u, rfl, -, -, rfl⟩ := exists_leaf_of_takes_fielded h
      exact ⟨some field, a, field ++ ':' :: u, rfl, by simp⟩
    · obtain ⟨a, u, rfl, -, rfl, -⟩ := exists_leaf_of_takes_unfielded h
      exact ⟨none, a, u, rfl, rfl⟩
  exact ⟨[⟨u, .atom field a⟩], .atom h (.refl r), rfl⟩

/-- A group is spelt where it is read, if the clauses inside of groups are. -/
theorem spelt_group (hclause : IsSpelt clause) (h : (group clause).Takes s c r) : Spelt c s r := by
  simp only [group, takes_labelled, takes_bind, takes_just, takes_padded, takes_pure] at h
  obtain ⟨_, s, ⟨rfl, rfl⟩, c, _, ⟨m, hc, rfl⟩, _, _, ⟨hm, rfl⟩, rfl, rfl⟩ := h
  have hinner := (hclause _ _ _ hc).skipBlank.skipBlank_behind
  rw [hm] at hinner
  exact (hinner.glue_behind (.closing _)).glue (.opening s)

/-- An operand is spelt where it is read, if the clauses inside of groups are. -/
theorem spelt_operand (hclause : IsSpelt clause)
    (h : (orElse (fielded clause) (unfielded clause)).Takes s c r) : Spelt c s r := by
  rcases takes_orElse.1 h with h | ⟨hfails, h⟩
  · rcases takes_fielded_or h with h | ⟨field, inner, m, rfl, hfield, rfl, hgroup⟩
    · exact spelt_atom (takes_orElse.2 (.inl h))
    · obtain ⟨_, m, hopening, -⟩ := takes_bind.1 (takes_labelled.1 hgroup)
      obtain ⟨rfl, rfl⟩ := takes_just.1 hopening
      exact ((spelt_group hclause hgroup).of_parts rfl).glue (.field hfield)
  · rcases takes_unfielded_or h with h | h
    · exact spelt_atom (takes_orElse.2 (.inr ⟨fails_fielded_fail hfails, h⟩))
    · exact spelt_group hclause h

/-- A clause with its suffixes is spelt where it is read, if the clauses inside of groups are. -/
theorem spelt_modified (hclause : IsSpelt clause) (h : (modified clause).Takes s c r) :
    Spelt c s r := by
  simp only [modified, takes_bind, takes_pure] at h
  obtain ⟨c, m, hc, fuzzy, n, hf, boost, _, hb, _, _, hend, rfl, rfl⟩ := h
  obtain ⟨rfl, -⟩ := takes_boundary hend
  have hoperand : Spelt c s n := by
    rcases takes_opt.1 hf with ⟨distance, -, hfuzzy⟩ | ⟨-, rfl, -⟩
    · obtain ⟨z, hz, rfl⟩ := takes_fuzzySuffix hfuzzy
      exact (spelt_operand hclause hc).glue_behind (.fuzzy hz)
    · exact spelt_operand hclause hc
  rcases takes_opt.1 hb with ⟨x, rfl, hboost⟩ | ⟨rfl, rfl, -⟩
  · obtain ⟨z, -, rfl⟩ := takes_boostSuffix hboost
    obtain ⟨ps, hps, hparts⟩ := hoperand
    refine ⟨ps ++ [⟨z, .power x⟩], hps.trans (.power hboost (.refl _)), ?_⟩
    simp [hparts]
  · exact hoperand.of_parts (by simp)

/-- A clause with its prefixes is spelt where it is read, if the clauses inside of groups are. -/
theorem spelt_unary (hclause : IsSpelt clause) : IsSpelt (unary clause) := by
  intro s c r h
  simp only [unary, takes_padded, takes_bind, takes_pure] at h
  obtain ⟨_, ⟨ps, m, hps, c, _, hc, rfl, rfl⟩, rfl⟩ := h
  have hsigns := signs_of_takesAll (takesAll_of_takes_many hps)
  have hprefixed := ((spelt_modified hclause hc).glue (.signs hsigns)).of_parts (c.parts_prefixed ps)
  exact hprefixed.skipBlank.skipBlank_behind

/-- Clauses that are read one after the other have their parts one after the other. -/
theorem spelt_foldl {mk : Clause → Clause → Clause} {p : Reader Clause}
    (hparts : ∀ c d, (mk c d).parts = c.parts ++ d.parts) (hp : IsSpelt p) {cs : List Clause}
    {m : List Char} (h : p.TakesAll m cs r) (hc : Spelt c s m) : Spelt (cs.foldl mk c) s r := by
  induction h generalizing c with
  | nil => exact hc
  | cons hd _ ih => exact ih (hc.append (hp _ _ _ hd) (hparts _ _))

/-- One more clause is spelt where it is read, if the clauses inside of groups are. -/
theorem spelt_nextUnary (hclause : IsSpelt clause) : IsSpelt (nextUnary clause) := by
  intro s c r h
  obtain ⟨_, m, hand, hc⟩ := takes_bind.1 h
  rcases takes_opt.1 hand with ⟨_, -, hand⟩ | ⟨-, rfl, -⟩
  · exact (spelt_unary hclause _ _ _ hc).glue (.joins (by simp) (takes_joins hand))
  · exact spelt_unary hclause _ _ _ hc

/-- A conjunction is spelt where it is read, if the clauses inside of groups are. -/
theorem spelt_conjunction (hclause : IsSpelt clause) : IsSpelt (conjunction clause) := by
  intro s c r h
  rw [conjunction_eq] at h
  simp only [takes_bind, takes_pure] at h
  obtain ⟨first, m, hfirst, rest, _, hrest, rfl, rfl⟩ := h
  exact spelt_foldl (fun _ _ => rfl) (spelt_nextUnary hclause) (takesAll_of_takes_many hrest)
    (spelt_unary hclause _ _ _ hfirst)

/-- One more conjunction is spelt where it is read, if the clauses inside of groups are. -/
theorem spelt_nextConjunction (hclause : IsSpelt clause) : IsSpelt (nextConjunction clause) := by
  intro s c r h
  obtain ⟨_, m, hor, hc⟩ := takes_bind.1 h
  exact (spelt_conjunction hclause _ _ _ hc).glue (.joins (by simp) (takes_joins hor))

/-- A disjunction is spelt where it is read, if the clauses inside of groups are. -/
theorem spelt_disjunction (hclause : IsSpelt clause) : IsSpelt (disjunction clause) := by
  intro s c r h
  rw [disjunction_eq] at h
  simp only [takes_bind, takes_pure] at h
  obtain ⟨first, m, hfirst, rest, _, hrest, rfl, rfl⟩ := h
  exact spelt_foldl (fun _ _ => rfl) (spelt_nextConjunction hclause) (takesAll_of_takes_many hrest)
    (spelt_conjunction hclause _ _ _ hfirst)

end

/-- **A clause is spelt where it is read,** nested to any depth. -/
theorem isSpelt_clauseWithin (bound : Nat) : IsSpelt (clauseWithin bound) := by
  induction bound with
  | zero => intro s c r h; simp [Takes, clauseWithin] at h
  | succ bound ih => intro s c r h; exact spelt_disjunction ih s c r h

/-- **An accepted text is the row of the parts of its clause,** with nothing but glue between
them. -/
theorem exists_holds_of_clause? {s : List Char} {c : Clause} (h : clause? s = .ok c) :
    ∃ ps, Holds ps s [] ∧ ps.map Piece.part = c.parts := by
  obtain ⟨r, htakes⟩ := clause?_eq_ok_iff.1 h
  obtain ⟨m, hc, hend, -⟩ := takes_query.1 htakes
  exact hend ▸ (isSpelt_clauseWithin _ _ _ _ hc).skipBlank.skipBlank_behind

/-! ### Filters -/

/-- A part and the leaf that it is bound as, with some column or none for words without a
field. -/
inductive Part.Binds : Part → Filter → Prop
  | atom {field : Option (List Char)} {a : Atom} {column : Option Column} {f : Filter} :
    (Clause.leaf field a).lower column = .ok f → Binds (.atom field a) f

/-- A leaf is bound as one leaf, without a power. -/
theorem Clause.Lowers.leaves {field : Option (List Char)} {a : Atom} {column : Option Column}
    {f : Filter} (h : (Clause.leaf field a).Lowers column f) : f.leaves = [f] ∧ f.powers = [] := by
  cases h with
  | own ha | given ha => cases ha <;> exact ⟨rfl, rfl⟩
  | bareTerm | barePhrase => exact ⟨rfl, rfl⟩

/-- **Binding a clause to columns binds its atoms and keeps its powers,** in their order. -/
theorem Clause.parts_of_lower {c : Clause} {column : Option Column} {f : Filter}
    (h : c.lower column = .ok f) :
    List.Forall₂ Part.Binds (c.parts.filter Part.isAtom) f.leaves ∧
      f.powers = c.parts.filterMap Part.power? := by
  have hleaf {field : Option (List Char)} {a : Atom} {column : Option Column} {f : Filter}
      (h : (leaf field a).Lowers column f) :
      List.Forall₂ Part.Binds ((leaf field a).parts.filter Part.isAtom) f.leaves ∧
        f.powers = (leaf field a).parts.filterMap Part.power? := by
    rw [h.leaves.1, h.leaves.2]
    exact ⟨.cons (.atom (lower_eq_ok_iff.2 h)) .nil, rfl⟩
  rw [lower_eq_ok_iff] at h
  induction h with
  | @own column _ _ _ ha => exact hleaf (@Lowers.own column _ _ _ ha)
  | given ha => exact hleaf (.given ha)
  | bareTerm => exact hleaf .bareTerm
  | barePhrase => exact hleaf .barePhrase
  | fieldGroup _ ih | must _ ih | mustNot _ ih | fuzzy _ ih => exact ih
  | and _ _ ihl ihr | or _ _ ihl ihr =>
    obtain ⟨hleaves, hpowers⟩ := ihl
    obtain ⟨hleaves', hpowers'⟩ := ihr
    simp only [parts, Filter.leaves, Filter.powers, List.filter_append, List.filterMap_append,
      hpowers, hpowers', and_true]
    exact List.rel_append hleaves hleaves'
  | boost _ ih =>
    obtain ⟨hleaves, hpowers⟩ := ih
    simp only [parts, Filter.leaves, Filter.powers, List.filter_append, List.filterMap_append, hpowers]
    exact ⟨by simpa [Part.isAtom] using hleaves, rfl⟩

/-- **The text of a filter is the row of its leaves and powers.** -/
theorem exists_holds_of_filter? {column : Option Column} {text : String} {f : Filter}
    (h : filter? column text = .ok (some f)) :
    ∃ ps, Holds ps text.toList [] ∧
      List.Forall₂ (fun p g => p.part.Binds g) (ps.filter (·.part.isAtom)) f.leaves ∧
      f.powers = ps.filterMap (·.part.power?) := by
  obtain ⟨c, hc, hl⟩ := exists_clause_of_filter? h
  obtain ⟨ps, hps, hparts⟩ := exists_holds_of_clause? hc
  obtain ⟨hleaves, hpowers⟩ := Clause.parts_of_lower hl
  refine ⟨ps, hps, ?_, ?_⟩
  · rw [← hparts, List.filter_map, List.forall₂_map_left_iff] at hleaves
    exact hleaves
  · rw [hpowers, ← hparts, List.filterMap_map]
    rfl

end Grammar
end SearchFilter
