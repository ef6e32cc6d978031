/-
# The numbers of a filter

Numbers stand in a filter as values and as the powers of boosts. The written form of a filter
has the same ones in the same order (`reals_toJson`), and of these only the finite ones are
written as numbers: `null` stands for all others (`write_real_eq_null_iff`).
-/

import SearchFilter.Json.Printer
import SearchFilter.Proofs.Number.Notation
import SearchFilter.Tree.Json

namespace SearchFilter

mutual

/-- The numbers of a filter, those of groups included, from left to right. -/
def Filter.numbers : Filter → List Double
  | .literal v => v.numbers
  | .equals _ v => v.numbers
  | .compare _ _ v => v.numbers
  | .and l r => l.numbers ++ r.numbers
  | .or l r => l.numbers ++ r.numbers
  | .must f => f.numbers
  | .mustNot f => f.numbers
  | .like .. => []
  | .wild .. => []
  | .fuzzy f _ => f.numbers
  | .range _ min max _ => boundNumbers min ++ boundNumbers max
  | .boost f x => f.numbers ++ [x]

/-- The numbers of a value. -/
def Value.numbers : Value → List Double
  | .text _ => []
  | .number x => [x]
  | .group f => f.numbers

/-- The numbers of a bound. -/
def boundNumbers : Option Value → List Double
  | none => []
  | some v => v.numbers

end

namespace Json

mutual

/-- The doubles of a JSON value, in the order in which they are written. -/
def reals : Json → List Double
  | .number (.real x) => [x]
  | .array items => realsOfItems items
  | .object members => realsOfMembers members
  | _ => []

/-- The doubles of some elements. -/
def realsOfItems : List Json → List Double
  | [] => []
  | v :: rest => v.reals ++ realsOfItems rest

/-- The doubles of some members. -/
def realsOfMembers : List (String × Json) → List Double
  | [] => []
  | (_, v) :: rest => v.reals ++ realsOfMembers rest

end

end Json

/-! ### The written form -/

/-- An object of its operator and other members has the numbers of these. -/
theorem Json.reals_object (op : String) (members : List (String × Json)) :
    (Json.object (("op", .string op) :: members)).reals = realsOfMembers members := by
  simp [reals, realsOfMembers]

mutual

/-- **The written form of a filter has its numbers.** -/
theorem Filter.reals_toJson (f : Filter) : f.toJson.reals = f.numbers := by
  cases f with
  | literal v | equals c v | compare op c v =>
    simp [Filter.toJson, Filter.numbers, Json.reals_object, Json.realsOfMembers, Json.reals,
      v.reals_toJson]
  | and l r | or l r =>
    simp [Filter.toJson, Filter.numbers, Json.reals_object, Json.realsOfMembers, l.reals_toJson,
      r.reals_toJson]
  | must f | mustNot f | boost f x =>
    simp [Filter.toJson, Filter.numbers, Json.reals_object, Json.realsOfMembers, Json.reals,
      f.reals_toJson]
  | fuzzy f distance =>
    cases distance <;>
      simp [Filter.toJson, Filter.numbers, Json.reals_object, Json.realsOfMembers, Json.reals,
        Json.ofNat, f.reals_toJson]
  | like c p | wild c p =>
    simp [Filter.toJson, Filter.numbers, Json.reals_object, Json.realsOfMembers, Json.reals]
  | range c min max inclusive =>
    simp [Filter.toJson, Filter.numbers, Json.reals_object, Json.realsOfMembers, Json.reals,
      reals_boundToJson min, reals_boundToJson max]

/-- The written form of a value has its numbers. -/
theorem Value.reals_toJson (v : Value) : v.toJson.reals = v.numbers := by
  cases v with
  | text s | number x => simp [Value.toJson, Value.numbers, Json.reals]
  | group f => simp [Value.toJson, Value.numbers, f.reals_toJson]

/-- The written form of a bound has its numbers. -/
theorem reals_boundToJson (b : Option Value) : (boundToJson b).reals = boundNumbers b := by
  cases b with
  | none => simp [boundToJson, boundNumbers, Json.reals]
  | some v => simp [boundToJson, boundNumbers, v.reals_toJson]

end

/-! ### The text of a number -/

/-- **A number is written as `null` exactly where it is not finite.** -/
theorem Json.write_real_eq_null_iff (x : Double) :
    (Number.real x).write = ['n', 'u', 'l', 'l'] ↔ x.isFinite = false := by
  cases x with
  | finite negative m e =>
    refine iff_of_false (fun h => ?_) (by simp)
    have hall := Decimal.all_write layout negative m e
    rw [Number.write] at h
    rw [h] at hall
    exact absurd hall (by decide)
  | infinite | nan => exact iff_of_true rfl rfl

end SearchFilter
