/-
# The powers of boosts

A word that is compared with is a number only where the nearest double is finite. The power of
a boost is always one: digits, perhaps with a point and more of them, are read as the nearest
double, and from `2 ^ 1024 - 2 ^ 970` on this is an infinity, which is written as `null`:

| text | power |
| --- | --- |
| `a^2.5` | `2.5` |
| `a^1000...0` with 308 zeros | `1e308` |
| `a^1000...0` with 309 zeros | infinite |

So the numbers of an accepted text are finite exactly where the powers in it are below this
bound (`numbers_of_filter?`).
-/

import SearchFilter.Proofs.Grammar.Pieces
import SearchFilter.Proofs.Tree.Numbers

namespace SearchFilter

open Decimal (Numeral numeral?)

namespace Grammar

open Reader

/-- The text of a power, with the numeral that it writes. -/
inductive PowerText : Numeral → List Char → Prop
  | whole {ds : List Char} : ds ≠ [] → ds.all Char.isDigit = true → PowerText ⟨false, ds, 0⟩ ('^' :: ds)
  | places {ds ps : List Char} : ds ≠ [] → ds.all Char.isDigit = true → ps ≠ [] →
    ps.all Char.isDigit = true →
    PowerText ⟨false, ds ++ ps, -(ps.length : Int)⟩ ('^' :: (ds ++ '.' :: ps))

/-- The digits of a power are digits. -/
theorem PowerText.isDigit {n : Numeral} {u : List Char} (h : PowerText n u) :
    n.digits.all Char.isDigit = true := by
  cases h with
  | whole _ hds => exact hds
  | places _ hds _ hps => rw [List.all_append, hds, hps]; rfl

/-- Digits with no or some decimal places are a numeral. -/
theorem numeral?_of_powerText {n : Numeral} {u : List Char} (h : PowerText n ('^' :: u)) :
    numeral? u = some n := by
  cases h with
  | whole hne hds => exact Decimal.numeral?_whole false hne hds
  | places hne hds _ hps => exact Decimal.numeral?_places false hne hds hps

/-- **A power is the double nearest to the numeral behind `^`.** -/
theorem exists_powerText_of_takes {s r : List Char} {x : Double} (h : boostSuffix.Takes s x r) :
    ∃ n u, PowerText n u ∧ s = u ++ r ∧ x = n.toDouble := by
  simp only [boostSuffix, takes_labelled, takes_bind, takes_just] at h
  obtain ⟨_, s, ⟨rfl, rfl⟩, h⟩ := h
  obtain ⟨u, hu, rfl, rfl⟩ := takes_decimal h
  obtain ⟨n, hn⟩ : ∃ n, PowerText n ('^' :: u) := by
    cases hu with
    | whole hne hds => exact ⟨_, .whole hne hds⟩
    | places hne hds hne' hps => exact ⟨_, .places hne hds hne' hps⟩
  exact ⟨n, _, hn, rfl, by rw [Decimal.read?, numeral?_of_powerText hn]; rfl⟩

/-- There is one way to write a numeral behind `^`. -/
theorem PowerText.unique {n n' : Numeral} {u : List Char} (h : PowerText n u) (h' : PowerText n' u) :
    n = n' := by
  obtain ⟨v, rfl⟩ : ∃ v, u = '^' :: v := by cases h <;> exact ⟨_, rfl⟩
  exact Option.some.inj ((numeral?_of_powerText h).symm.trans (numeral?_of_powerText h'))

/-! ### The numbers of a filter -/

/-- Where a word is compared with as a number, that number is finite. -/
theorem Operand.isFinite_of_mem_numbers {o : Operand} {x : Double} (h : x ∈ o.value.numbers) :
    x.isFinite = true := by
  obtain ⟨s, hs⟩ | ⟨w, y, hy, hvalue⟩ := o.value_cases
  · simp [hs, textValue, Value.numbers] at h
  · obtain rfl : x = y := by simpa [hvalue, Value.numbers] using h
    exact Decimal.isFinite_of_finite? hy

/-- The numbers that an atom brings are finite. -/
theorem Atom.Tests.isFinite_of_mem_numbers {a : Atom} {k : Column} {f : Filter}
    (h : a.Tests k f) {x : Double} (hx : x ∈ f.numbers) : x.isFinite = true := by
  have hbound (b : Option (List Char)) : boundNumbers (b.map textValue) = [] := by
    cases b <;> simp [boundNumbers, textValue, Value.numbers]
  cases h with
  | like | wild => simp [Filter.numbers] at hx
  | equals | phrase => simp [Filter.numbers, textValue, Value.numbers] at hx
  | range => simp [Filter.numbers, hbound] at hx
  | compare => exact Operand.isFinite_of_mem_numbers hx

/-- **In the filter of a clause only powers may be infinite.** -/
theorem Clause.mem_powers_or_isFinite {c : Clause} {column : Option Column} {f : Filter}
    (h : c.lower column = .ok f) : ∀ x ∈ f.numbers, x ∈ f.powers ∨ x.isFinite = true := by
  rw [lower_eq_ok_iff] at h
  induction h with
  | own ha | given ha => exact fun x hx => .inr (ha.isFinite_of_mem_numbers hx)
  | bareTerm | barePhrase => exact nofun
  | fieldGroup _ ih => simpa only [Filter.numbers, Value.numbers, Filter.powers] using ih
  | and _ _ ihl ihr | or _ _ ihl ihr =>
    simp only [Filter.numbers, Filter.powers, List.mem_append]
    rintro x (hx | hx)
    · exact (ihl x hx).imp_left .inl
    · exact (ihr x hx).imp_left .inr
  | must _ ih | mustNot _ ih | fuzzy _ ih => exact ih
  | boost _ ih =>
    simp only [Filter.numbers, Filter.powers, List.mem_append, List.mem_singleton]
    rintro x (hx | rfl)
    · exact (ih x hx).imp_left .inl
    · exact .inl (.inr rfl)

/-- Powers are numbers of the filter. -/
theorem mem_numbers_of_mem_powers {f : Filter} {x : Double} (h : x ∈ f.powers) :
    x ∈ f.numbers := by
  induction f using Filter.powers.induct with
  | case1 c f ih => rw [Filter.numbers, Value.numbers]; exact ih h
  | case2 l r ihl ihr | case3 l r ihl ihr =>
    rw [Filter.numbers, List.mem_append]
    exact (List.mem_append.1 h).imp ihl ihr
  | case4 f ih | case5 f ih | case6 f n ih => rw [Filter.numbers]; exact ih h
  | case7 f y ih =>
    rw [Filter.numbers, List.mem_append]
    exact (List.mem_append.1 h).imp_left ih
  | case8 f h₁ h₂ h₃ h₄ h₅ h₆ h₇ => simp [Filter.powers, *] at h

/-! ### Accepted texts -/

/-- The text of a power and what it is read as. -/
def Piece.Raises (p : Piece) (x : Double) : Prop := ∃ n, PowerText n p.text ∧ x = n.toDouble

/-- What is read as a power is a numeral behind `^`, and its value. -/
theorem Piece.IsRead.raises {u m : List Char} {x : Double}
    (h : IsRead ⟨u, .power x⟩ m) : Raises ⟨u, .power x⟩ x := by
  cases h with
  | power h =>
    obtain ⟨n, v, hn, hv, rfl⟩ := exists_powerText_of_takes h
    obtain rfl := List.append_cancel_right hv
    exact ⟨n, hn, rfl⟩

/-- The powers of a row of pieces are those of its power texts, in order. -/
theorem forall₂_raises {ps : List Piece} (h : ∀ p ∈ ps, ∃ m, p.IsRead m) :
    List.Forall₂ Piece.Raises (ps.filter (!·.part.isAtom)) (ps.filterMap (·.part.power?)) := by
  induction ps with
  | nil => exact .nil
  | cons p ps ih =>
    obtain ⟨⟨m, hp⟩, hps⟩ := List.forall_mem_cons.1 h
    obtain ⟨u, ⟨field, a⟩ | x⟩ := p
    · exact ih hps
    · exact .cons hp.raises (ih hps)

/-- A power is finite exactly where its text writes a number below the bound. -/
theorem Piece.Raises.isFinite_iff {p : Piece} {x : Double} (h : p.Raises x) :
    x.isFinite = true ↔ ∀ n, PowerText n p.text → n.magnitude < 2 ^ 1024 - 2 ^ 970 := by
  obtain ⟨n, hn, rfl⟩ := h
  rw [Numeral.isFinite_toDouble_iff hn.isDigit]
  exact ⟨fun h n' hn' => hn'.unique hn ▸ h, fun h => h n hn⟩

/-- Powers are finite exactly where all their numerals are below the bound. -/
theorem forall_isFinite_iff {ps : List Piece} {xs : List Double}
    (h : List.Forall₂ Piece.Raises ps xs) : (∀ x ∈ xs, x.isFinite = true) ↔
      ∀ p ∈ ps, ∀ n, PowerText n p.text → n.magnitude < 2 ^ 1024 - 2 ^ 970 := by
  induction h with
  | nil => simp
  | cons hp _ ih => rw [List.forall_mem_cons, List.forall_mem_cons, hp.isFinite_iff, ih]

/-- **The numbers of an accepted text are finite exactly where its powers are small,** and just
then none of them is written as `null`. -/
theorem numbers_of_filter? {column : Option Column} {text : String} {f : Filter}
    (h : filter? column text = .ok (some f)) :
    ∃ ps, Holds ps text.toList [] ∧
      List.Forall₂ Piece.Raises (ps.filter (!·.part.isAtom)) f.powers ∧
      ((∀ x ∈ f.numbers, x.isFinite = true) ↔ ∀ p ∈ ps.filter (!·.part.isAtom),
        ∀ n, PowerText n p.text → n.magnitude < 2 ^ 1024 - 2 ^ 970) ∧
      ((∀ x ∈ f.toJson.reals, (Json.Number.real x).write ≠ ['n', 'u', 'l', 'l']) ↔
        ∀ x ∈ f.numbers, x.isFinite = true) := by
  obtain ⟨ps, hps, -, hpowers⟩ := exists_holds_of_filter? h
  obtain ⟨c, -, hlower⟩ := exists_clause_of_filter? h
  have hraises := forall₂_raises hps.exists_isRead
  rw [← hpowers] at hraises
  refine ⟨ps, hps, hraises, ?_, ?_⟩
  · rw [← forall_isFinite_iff hraises]
    exact ⟨fun h x hx => h x (mem_numbers_of_mem_powers hx),
      fun h x hx => (Clause.mem_powers_or_isFinite hlower x hx).elim (h x) id⟩
  · rw [f.reals_toJson]
    refine forall₂_congr fun x _ => ?_
    rw [Ne, Json.write_real_eq_null_iff, Bool.not_eq_false]

/-- Two small powers, and a number that is compared with. -/
theorem numbers_of_two_powers :
    ∃ f, filter? none "(f:a^2 g:>1e999)^0.5" = .ok (some f) ∧
      ∃ ps, Holds ps "(f:a^2 g:>1e999)^0.5".toList [] ∧
        List.Forall₂ Piece.Raises (ps.filter (!·.part.isAtom)) f.powers ∧
        ((∀ x ∈ f.numbers, x.isFinite = true) ↔ ∀ p ∈ ps.filter (!·.part.isAtom),
          ∀ n, PowerText n p.text → n.magnitude < 2 ^ 1024 - 2 ^ 970) ∧
        ((∀ x ∈ f.toJson.reals, (Json.Number.real x).write ≠ ['n', 'u', 'l', 'l']) ↔
          ∀ x ∈ f.numbers, x.isFinite = true) := by
  obtain ⟨f, hf⟩ : ∃ f, filter? none "(f:a^2 g:>1e999)^0.5" = .ok (some f) :=
    exists_of_isSome_join (by decide +kernel)
  exact ⟨f, hf, numbers_of_filter? hf⟩

/-- A word with a power of one and 309 zeros. -/
def boosted : List Char := ['f', ':', 'a', '^', '1'] ++ List.replicate 309 '0'

/-- It is accepted, with a power that is infinite and is written as `null`. -/
theorem filter?_boosted :
    let f := Filter.boost (.equals ⟨"f"⟩ (.text "a")) (.infinite false)
    filter? none (String.ofList boosted) = .ok (some f) ∧ .infinite false ∈ f.numbers ∧
      ∃ x ∈ f.toJson.reals, (Json.Number.real x).write = ['n', 'u', 'l', 'l'] := by
  intro f
  let c := Clause.boost (.leaf (some ['f']) (.term ['a'])) (.infinite false)
  have hclause : clause? boosted = .ok c := by decide +kernel
  have hlower : c.lower none = .ok f := rfl
  have hmem : .infinite false ∈ f.numbers := mem_numbers_of_mem_powers (by simp [f, Filter.powers])
  refine ⟨filter?_of_clause? ?_ ?_ hlower, hmem, .infinite false, f.reals_toJson ▸ hmem, rfl⟩
  · rw [String.toList_ofList]
    decide
  · rw [String.toList_ofList, hclause]

end Grammar
end SearchFilter
