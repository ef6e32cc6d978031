/-
# Well-formed filters

The renderers rely on more than the type of filters says. What they rely on, node by
node, for the filters over a schema:

| node | what it needs |
| --- | --- |
| `literal` | text, and a schema without fields |
| `equals` | a column that resolves, and text or a group |
| `compare` | a column that resolves, and text or a finite number |
| `like` | a column that resolves, and a pattern with a bare `*` |
| `wild` | a column that resolves, and a pattern with a bare `?` and no bare `*` |
| `range` | a column that resolves, and bounds that are text |
| all others | nothing of their own |

A column resolves when it is a field of the schema, or a part of a structured one; the
part consists of name characters, but may start with a digit.
-/

import SearchFilter.Proofs.Tree.Predicates
import SearchFilter.Text.Escape

namespace SearchFilter

/-- A column of the schema whose part, where it has one, consists of name characters. -/
structure Schema.Resolves (s : Schema) (c : Column) : Prop where
  names : s.Names c
  part : ∀ part ∈ c.split.2, part.toList ≠ [] ∧ part.toList.all Text.isNamePart = true

/-- What a comparison can compare with. -/
inductive Value.IsOperand : Value → Prop
  | text (t : String) : IsOperand (.text t)
  | number {x : Double} : x.isFinite = true → IsOperand (.number x)

namespace Filter

/-- The columns of a filter, those of groups included, from left to right. -/
def columns : Filter → List Column
  | literal _ => []
  | equals c (.group f) => c :: f.columns
  | equals c _ => [c]
  | compare _ c _ => [c]
  | and l r => l.columns ++ r.columns
  | or l r => l.columns ++ r.columns
  | must f => f.columns
  | mustNot f => f.columns
  | like c _ => [c]
  | wild c _ => [c]
  | fuzzy f _ => f.columns
  | range c _ _ _ => [c]
  | boost f _ => f.columns

/-- The filters over a schema that have the form which the renderers rely on. -/
inductive WellFormed (s : Schema) : Filter → Prop
  | literal {t : String} : s.fields = [] → WellFormed s (literal (.text t))
  | equals {c : Column} {t : String} : s.Resolves c → WellFormed s (equals c (.text t))
  | group {c : Column} {f : Filter} : s.Resolves c → WellFormed s f →
    WellFormed s (Filter.equals c (.group f))
  | compare {op : Comparison} {c : Column} {v : Value} : s.Resolves c → v.IsOperand →
    WellFormed s (compare op c v)
  | and {l r : Filter} : WellFormed s l → WellFormed s r → WellFormed s (and l r)
  | or {l r : Filter} : WellFormed s l → WellFormed s r → WellFormed s (or l r)
  | must {f : Filter} : WellFormed s f → WellFormed s (must f)
  | mustNot {f : Filter} : WellFormed s f → WellFormed s (mustNot f)
  | like {c : Column} {p : String} : s.Resolves c → Text.hasBare '*' p.toList = true →
    WellFormed s (like c p)
  | wild {c : Column} {p : String} : s.Resolves c → Text.hasBare '?' p.toList = true →
    Text.hasBare '*' p.toList = false → WellFormed s (wild c p)
  | fuzzy {f : Filter} {distance : Option Nat} : WellFormed s f → WellFormed s (fuzzy f distance)
  | range {c : Column} {min max : Option Value} {inclusive : Bool} : s.Resolves c →
    (∀ v ∈ min, ∃ t, v = .text t) → (∀ v ∈ max, ∃ t, v = .text t) →
    WellFormed s (range c min max inclusive)
  | boost {f : Filter} {power : Double} : WellFormed s f → WellFormed s (boost f power)

/-- All columns of a well-formed filter resolve. -/
theorem WellFormed.resolves {s : Schema} {f : Filter} (h : f.WellFormed s) :
    ∀ c ∈ f.columns, s.Resolves c := by
  induction h with
  | literal => simp [columns]
  | equals hc | compare hc | like hc | wild hc | range hc => simpa [columns] using hc
  | group hc _ ih => simpa [columns] using ⟨hc, ih⟩
  | and _ _ ihl ihr | or _ _ ihl ihr => exact List.forall_mem_append.2 ⟨ihl, ihr⟩
  | must _ ih | mustNot _ ih | fuzzy _ ih | boost _ ih => exact ih

end Filter

/-- A column that resolves is safe, unless its part starts with a digit. -/
theorem Schema.Resolves.isSafe_or {s : Schema} {c : Column} (h : s.Resolves c) :
    c.IsSafe ∨ ∃ part ∈ c.split.2, ∃ d ∈ part.toList.head?, d.isDigit = true := by
  have hbase : Text.isIdentifier c.split.1.toList = true := by
    cases h.names with
    | field hmem hsplit => rw [hsplit]; exact s.named _ hmem
    | part hmem _ hsplit => rw [hsplit]; exact s.named _ hmem
  cases hsplit : c.split.2 with
  | none => exact .inl ⟨hbase, by simp [hsplit]⟩
  | some part =>
    obtain ⟨hne, hpart⟩ := h.part part hsplit
    obtain ⟨d, r, hd⟩ := List.exists_cons_of_ne_nil hne
    rw [hd, List.all_cons, Bool.and_eq_true] at hpart
    cases hdigit : d.isDigit with
    | true => exact .inr ⟨part, rfl, d, by rw [hd]; rfl, hdigit⟩
    | false =>
      have hstart : Text.isNameStart d = true := by
        simpa [Text.isNamePart, Text.isNameStart, Char.isAlphanum, hdigit] using hpart.1
      have hid : Text.isIdentifier part.toList = true := by
        rw [hd, Text.isIdentifier, hstart, hpart.2]
        rfl
      exact .inl ⟨hbase, by simpa [hsplit] using hid⟩

end SearchFilter
