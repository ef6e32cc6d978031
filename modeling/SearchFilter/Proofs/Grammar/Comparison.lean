/-
# Comparisons behind a field

Behind a field and its colon a value that starts with `<` or `>` is compared with, unless
nothing that could be compared with follows the sign. There the grammar goes on to terms, and
the sign itself becomes the value:

| text | filter |
| --- | --- |
| `f:>5`, `f:>=5`, `f:>"a b"` | a comparison with what stands behind the sign |
| `f:>`, `f:>=`, `f:> 5`, `f:>^2` | `equals` with `>` or `>=` |

So in an accepted text each value that starts with a sign is a comparison or a bare sign
(`comparisons_of_filter?`), and a bare sign is accepted behind any field that is not read as
`NOT` (`filter?_of_bare_sign`).
-/

import SearchFilter.Proofs.Grammar.Operand
import SearchFilter.Proofs.Grammar.Pieces

namespace SearchFilter
namespace Grammar

open Query (AtBoundary)
open Reader

/-- A text that starts as a comparison does. -/
def OpensComparison (v : List Char) : Prop := ∃ c ∈ v.head?, c = '<' ∨ c = '>'

/-- A reader fails where it does so with a function. -/
theorem Reader.Fails.of_map {α β : Type} {p : Reader α} {f : α → β} {s : List Char}
    (h : (f <$> p).Fails s) : p.Fails s :=
  fails_of_not_takes fun a _ ha => h.not_takes (takes_map.2 ⟨a, ha, rfl⟩)

/-! ### Signs -/

section
variable {s v m : List Char}

/-- It starts with one of the signs, and with no longer one. -/
theorem OpensComparison.exists_sign (h : OpensComparison s) : ∃ (op : Comparison) (t : List Char),
    s = op.sign.toList ++ t ∧ (op.sign.length = 1 → t.head? ≠ some '=') := by
  obtain ⟨c, hc, hsign⟩ := h
  obtain ⟨t, rfl⟩ := List.head?_eq_some_iff.1 hc
  by_cases heq : t.head? = some '='
  · obtain ⟨u, rfl⟩ := List.head?_eq_some_iff.1 heq
    rcases hsign with rfl | rfl
    · exact ⟨.lessEq, u, rfl, fun h => by cases h⟩
    · exact ⟨.greaterEq, u, rfl, fun h => by cases h⟩
  · rcases hsign with rfl | rfl
    · exact ⟨.less, t, rfl, fun _ => heq⟩
    · exact ⟨.greater, t, rfl, fun _ => heq⟩

/-- What starts as a comparison does so with more behind it. -/
theorem OpensComparison.append (h : OpensComparison v) (m : List Char) :
    OpensComparison (v ++ m) := by
  obtain ⟨c, hc, hsign⟩ := h
  exact ⟨c, by rw [List.head?_append, hc]; rfl, hsign⟩

/-- The signs of comparisons start as comparisons do. -/
theorem opensComparison_sign (op : Comparison) : OpensComparison op.sign.toList := by
  cases op <;> exact ⟨_, rfl, by decide⟩

/-- Neither a group nor a range nor a phrase starts so. -/
theorem OpensComparison.fails {p : Reader Clause} (h : OpensComparison s) :
    (group p).Fails s ∧ range.Fails s ∧ phrase.Fails s := by
  obtain ⟨c, hc, hsign⟩ := h
  obtain ⟨t, rfl⟩ := List.head?_eq_some_iff.1 hc
  have hne {d : Char} (hd : d ∉ ['<', '>']) : c ≠ d := by
    rintro rfl
    simp [hsign] at hd
  exact ⟨fails_group (hne (by decide)), fails_range (hne (by decide)) (hne (by decide)),
    fails_phrase (hne (by decide))⟩

/-- No character of a sign ends a term. -/
theorem not_delimiter_of_mem_sign {op : Comparison} :
    ∀ c ∈ op.sign.toList, ¬ (Text.isBlank c || isDelimiter c) = true := by
  have h : op.sign.toList.all (fun c => !(Text.isBlank c || isDelimiter c)) = true := by
    cases op <;> decide
  simpa using h

/-- In front of what ends no term, more is cut off. -/
theorem spanTerm_append {u : List Char} (hu : ∀ c ∈ u, ¬ (Text.isBlank c || isDelimiter c) = true)
    (t : List Char) : spanTerm (u ++ t) = (u ++ (spanTerm t).1, (spanTerm t).2) := by
  induction u with
  | nil => rfl
  | cons c u ih =>
    obtain ⟨hc, hu⟩ := List.forall_mem_cons.1 hu
    rw [List.cons_append, spanTerm_char hc, ih hu]
    rfl

/-- What a comparison compares with. -/
def operand : Reader Operand := .orElse (Operand.quoted <$> phrase) (Operand.raw <$> term)

/-- A comparison is a sign and what is compared with. -/
theorem comparison_eq : comparison = .labelled (do
    let op ← comparisonSign
    let a ← operand
    pure (.compare op a)) := rfl

/-- What is read behind a sign is something to compare with. -/
theorem exists_text_of_takes_operand {x : Operand} (h : operand.Takes s x m) :
    ∃ u, OperandText x u ∧ s = u ++ m := by
  simp only [operand, takes_orElse, takes_map, takes_term] at h
  rcases h with ⟨p, hp, rfl⟩ | ⟨-, u, ⟨hu, hspan⟩, rfl⟩
  · obtain ⟨u, hu, rfl⟩ := takes_phrase hp
    exact ⟨u, .quoted hu, rfl⟩
  · exact ⟨u, .raw (isTerm_of_spanTerm hu hspan), (spanTerm_spec hspan).1⟩

/-- What is read as a comparison is the longest sign and what is compared with. -/
theorem exists_operand_of_takes_comparison {a : Atom} (hs : OpensComparison s)
    (h : comparison.Takes s a m) : ∃ op x u, OperandText x u ∧
      (op.sign.length = 1 → u.head? ≠ some '=') ∧ s = op.sign.toList ++ (u ++ m) ∧
      a = .compare op x := by
  obtain ⟨op, t, rfl, hlongest⟩ := hs.exists_sign
  rw [comparison_eq] at h
  simp only [takes_labelled, takes_bind, takes_pure] at h
  obtain ⟨op', _, hop, x, _, hx, rfl, rfl⟩ := h
  obtain ⟨rfl, rfl⟩ := hop.unique (takes_comparisonSign op hlongest)
  obtain ⟨u, hu, rfl⟩ := exists_text_of_takes_operand hx
  refine ⟨op', x, u, hu, fun hone hhead => hlongest hone ?_, rfl, rfl⟩
  rw [List.head?_append, hhead]
  rfl

/-- Where a comparison is not read though a sign stands there, the term is that sign. -/
theorem exists_sign_of_fails_comparison (hs : OpensComparison s) (hfails : comparison.Fails s)
    (hterm : spanTerm s = (v, m)) : ∃ op : Comparison, v = op.sign.toList := by
  obtain ⟨op, t, rfl, hlongest⟩ := hs.exists_sign
  refine ⟨op, ?_⟩
  have hsign := takes_comparisonSign op hlongest
  have hnone : (spanTerm t).1 = [] := Classical.byContradiction fun hne => by
    obtain ⟨x, r, hx⟩ : ∃ x r, operand.Takes t x r := by
      rcases takes_or_fails (Operand.quoted <$> phrase) t with ⟨x, r, hx⟩ | hx
      · exact ⟨x, r, takes_orElse.2 (.inl hx)⟩
      · exact ⟨_, _, takes_orElse.2 (.inr ⟨hx, takes_map.2 ⟨_, takes_term.2 ⟨hne, rfl⟩, rfl⟩⟩)⟩
    refine hfails.not_takes (a := .compare op x) (r := r) ?_
    rw [comparison_eq]
    simp only [takes_labelled, takes_bind, takes_pure]
    exact ⟨op, t, hsign, x, r, hx, rfl, rfl⟩
  rw [spanTerm_append not_delimiter_of_mem_sign, hnone, List.append_nil] at hterm
  exact (Prod.mk.inj hterm).1.symm

end

/-! ### Atoms behind a field -/

/-- What a value that starts with a sign is in a column: a comparison with what follows the
sign, or a test for the sign where nothing does. -/
inductive Ordered (c : Column) : List Char → Filter → Prop
  | compare {op : Comparison} {x : Operand} {u : List Char} : OperandText x u →
    (op.sign.length = 1 → u.head? ≠ some '=') → Ordered c (op.sign.toList ++ u) (.compare op c x.value)
  | bare (op : Comparison) : Ordered c op.sign.toList (.equals c (.text op.sign))

/-- A sign as a term is tested for. -/
theorem filter_sign (op : Comparison) (c : Column) :
    (Atom.term op.sign.toList).filter c = .equals c (.text op.sign) := by
  cases op <;> rfl

/-- It is a comparison exactly where it is no bare sign. -/
theorem Ordered.compare_iff {c : Column} {v : List Char} {f : Filter} (h : Ordered c v f) :
    (∃ op x, f = .compare op c x) ↔ ∀ op : Comparison, v ≠ op.sign.toList := by
  cases h with
  | @compare op x u hu hlongest =>
    obtain ⟨d, u, rfl⟩ := List.exists_cons_of_ne_nil hu.ne_nil
    refine iff_of_true ⟨op, _, rfl⟩ fun op' hop => ?_
    have hd : op.sign.length = 1 → d ≠ '=' := by simpa using hlongest
    cases op <;> cases op' <;> simp [Comparison.sign] at hop <;> exact hd rfl hop.1
  | bare op =>
    refine iff_of_false ?_ fun h => h op rfl
    rintro ⟨_, _, h⟩
    cases h

/-- **A value that starts with a sign is a comparison or a bare sign,** whatever follows it. -/
theorem ordered_of_takes {name v m : List Char} {field : Option (List Char)} {a : Atom}
    (hname : FieldText name) (hv : OpensComparison v)
    (h : atomReader.Takes (name ++ ':' :: v ++ m) (.leaf field a) m) :
    field = some name ∧ ∀ c, Ordered c v (a.filter c) := by
  rcases takes_orElse.1 h with h | ⟨-, h⟩
  · simp only [fielded, takes_bind, takes_just, takes_choice_cons, takes_choice_nil, takes_map,
      and_false, or_false] at h
    obtain ⟨field', _, hfield, _, t, ⟨rfl, rfl⟩, h⟩ := h
    rw [List.append_assoc, List.cons_append] at hfield
    obtain ⟨rfl, hcolon⟩ := hfield.unique (hname.takes (v ++ m))
    obtain rfl := (List.cons.inj hcolon).2
    obtain ⟨-, hrange, hphrase⟩ := (hv.append m).fails (p := .fail)
    rcases h with ⟨_, h, -⟩ | ⟨-, ⟨_, h, -⟩ | ⟨-, ⟨b, hb, ha⟩ | ⟨hfails, ⟨_, h, -⟩ | ⟨-, t, ht, ha⟩⟩⟩⟩
    · exact absurd h (fails_group_fail _).not_takes
    · exact absurd h hrange.not_takes
    · obtain ⟨rfl, rfl⟩ := Clause.leaf.inj ha
      obtain ⟨op, x, u, hu, hlongest, hs, rfl⟩ := exists_operand_of_takes_comparison (hv.append m) hb
      rw [← List.append_assoc] at hs
      rw [List.append_cancel_right hs]
      exact ⟨rfl, fun c => .compare hu hlongest⟩
    · exact absurd h hphrase.not_takes
    · obtain ⟨rfl, rfl⟩ := Clause.leaf.inj ha
      obtain ⟨-, hspan⟩ := takes_term.1 ht
      obtain rfl := List.append_cancel_right (spanTerm_spec hspan).1
      obtain ⟨op, hop⟩ := exists_sign_of_fails_comparison (hv.append m) hfails.of_map hspan
      rw [hop]
      exact ⟨rfl, fun c => filter_sign op c ▸ .bare op⟩
  · obtain ⟨a', u, -, -, hu, hne⟩ := exists_leaf_of_takes_unfielded h
    exact absurd (List.append_cancel_right hu).symm (hne name v hname)

/-! ### Bare signs -/

section
variable {name : List Char}

/-- Nothing can be compared with at the end of a word. -/
theorem fails_operand {r : List Char} (hr : AtBoundary r) : operand.Fails r :=
  fails_of_not_takes fun x m hx => by
    obtain ⟨u, hu, rfl⟩ := exists_text_of_takes_operand hx
    cases hu with
    | quoted hu =>
      cases hu
      exact absurd (hr '"' rfl) (by decide)
    | raw hu =>
      obtain ⟨c, v, rfl⟩ := List.exists_cons_of_ne_nil hu.ne_nil
      obtain ⟨hends, hne⟩ := endsTerm_of_atBoundary hr c rfl
      obtain ⟨hblank, hdelim⟩ := hu.head c rfl
      rw [hblank, Bool.false_or] at hends
      exact hne (hdelim hends)

/-- Behind a field a bare sign is read as a term, up to the end of the word. -/
theorem takes_bare_sign {p : Reader Clause} {r : List Char} (op : Comparison)
    (hname : FieldText name) (hr : AtBoundary r) :
    (fielded p).Takes (name ++ ':' :: (op.sign.toList ++ r))
      (.leaf (some name) (.term op.sign.toList)) r := by
  have hstart := (opensComparison_sign op).append r
  obtain ⟨hgroup, hrange, hphrase⟩ := hstart.fails (p := p)
  have hsign : comparisonSign.Takes (op.sign.toList ++ r) op r :=
    takes_comparisonSign op fun _ hequal => by
      obtain ⟨t, rfl⟩ := List.head?_eq_some_iff.1 hequal
      exact absurd hr (by simp; decide)
  have hcomparison : comparison.Fails (op.sign.toList ++ r) := fails_of_not_takes fun a m ha => by
    rw [comparison_eq] at ha
    simp only [takes_labelled, takes_bind] at ha
    obtain ⟨_, _, hop, x, t, hx, -⟩ := ha
    obtain ⟨-, rfl⟩ := hop.unique hsign
    exact (fails_operand hr).not_takes hx
  have hterm : IsTerm op.sign.toList :=
    isTerm_of_forall (by cases op <;> decide) not_delimiter_of_mem_sign
  have hterm := hterm.takes (endsTerm_of_atBoundary hr)
  simp only [fielded, takes_bind, takes_just]
  refine ⟨name, _, hname.takes _, ':', _, ⟨rfl, rfl⟩, ?_⟩
  exact (hgroup.map _).choice ((hrange.map _).choice ((hcomparison.map _).choice
    ((hphrase.map _).choice (Takes.choice (takes_map.2 ⟨_, hterm, rfl⟩) _))))

/-- So a field with a bare sign is an operand wherever it stands. -/
theorem stands_bare_sign (op : Comparison) (hname : IsNameable name) :
    Stands (.leaf (some name) (.term op.sign.toList)) (name ++ ':' :: op.sign.toList) where
  flush := hname.text.isTerm.isFlush.append _
  unsigned r _ := by
    rw [List.append_assoc]
    exact hname.text.fails_signPrefix hname.free _
  accepts _ r hr := by
    rw [List.append_assoc, takes_orElse]
    exact .inl (takes_bare_sign op hname.text hr)

/-- **A field with a bare sign is a query for that sign.** -/
theorem filter?_of_bare_sign (op : Comparison) (hname : IsNameable name) (text : String)
    (htext : text.toList = name ++ ':' :: op.sign.toList) (column : Option Column) :
    filter? column text = .ok (some (.equals (columnOf name) (.text op.sign))) := by
  have hclause := (stands_bare_sign op hname).clause?_signs (g := []) (by simp)
  rw [List.nil_append, ← htext] at hclause
  have hflush : IsFlush text.toList := htext ▸ hname.text.isTerm.isFlush.append _
  refine filter?_of_clause? hflush.allBlank_eq hclause ?_
  simp [Clause.prefixed, Clause.lower, filter_sign]

end

/-! ### Accepted texts -/

/-- If a piece is a field and a value that starts with a sign, then its leaf is a comparison of
the field, exactly where the value is no bare sign, and a test for the sign otherwise. -/
def Piece.IsOrdered (p : Piece) (g : Filter) : Prop :=
  ∀ name v, FieldText name → p.text = name ++ ':' :: v → OpensComparison v →
    Ordered (columnOf name) v g ∧
      ((∃ op x, g = .compare op (columnOf name) x) ↔ ∀ op : Comparison, v ≠ op.sign.toList)

/-- **In an accepted text a value that starts with a sign is a comparison,** unless it is a bare
sign. -/
theorem comparisons_of_filter? {column : Option Column} {text : String} {f : Filter}
    (h : filter? column text = .ok (some f)) :
    ∃ ps, Holds ps text.toList [] ∧
      List.Forall₂ Piece.IsOrdered (ps.filter (·.part.isAtom)) f.leaves := by
  obtain ⟨ps, hps, hleaves, -⟩ := exists_holds_of_filter? h
  refine ⟨ps, hps, ?_⟩
  have hread : ∀ p ∈ ps.filter (·.part.isAtom), ∃ m, p.IsRead m :=
    fun p hp => hps.exists_isRead p (List.mem_filter.1 hp).1
  refine ((List.forall₂_and_left _ _).2 ⟨hread, hleaves⟩).imp ?_
  rintro p g ⟨⟨m, hp⟩, hg⟩ name v hname hv hopens
  suffices hordered : Ordered (columnOf name) v g from ⟨hordered, hordered.compare_iff⟩
  cases hp with
  | power => cases hg
  | atom ha =>
    obtain rfl := hv
    obtain ⟨rfl, hordered⟩ := ordered_of_takes hname hopens ha
    obtain ⟨hlower⟩ := hg
    obtain rfl := Except.ok.inj hlower
    exact hordered _

/-- A comparison, and a sign with nothing to compare with. -/
theorem comparisons_of_two_signs :
    ∃ f, filter? none "f:>5 -f:>=" = .ok (some f) ∧ ∃ ps, Holds ps "f:>5 -f:>=".toList [] ∧
      List.Forall₂ Piece.IsOrdered (ps.filter (·.part.isAtom)) f.leaves := by
  obtain ⟨f, hf⟩ : ∃ f, filter? none "f:>5 -f:>=" = .ok (some f) :=
    exists_of_isSome_join (by decide +kernel)
  exact ⟨f, hf, comparisons_of_filter? hf⟩

/-- A field with the sign alone is accepted, and is no comparison. -/
theorem filter?_sign_alone :
    filter? none "f:>" = .ok (some (.equals ⟨"f"⟩ (.text ">"))) ∧
      ∀ op x, filter? none "f:>" ≠ .ok (some (.compare op ⟨"f"⟩ x)) := by
  have hname : IsNameable ['f'] := ⟨.plain (by decide), by decide⟩
  have hf := filter?_of_bare_sign .greater hname "f:>" (by decide +kernel) none
  refine ⟨hf, fun op x h => ?_⟩
  rw [hf] at h
  cases h

end Grammar
end SearchFilter
