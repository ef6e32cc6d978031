/-
# Schemas behind references and unions

A JSON schema can stand for another one (`Wraps`), and each such wrapping takes one of the nine
schemas that are looked at:

| wrapping | written |
| --- | --- |
| a reference | `{"$ref": "#/$defs/A"}`, where `A` is defined as the schema |
| a union with `null` | `{"anyOf": [schema, {"type": "null"}]}`, or `oneOf`, in either order |

What is found behind `m` wrappings is what is found at once with `m` schemas less to look at
(`kindOfSchema_add`). A schema that states its type needs a single look, so up to eight wrappings
keep its kind; behind nine, and in a circle of wrappings, there is no kind
(`kindOfSchema_of_wrapped`).
-/

import Mathlib.Logic.Function.Iterate
import SearchFilter.Schema.Inference

namespace SearchFilter
namespace Schema

/-! ### Wrappings -/

/-- The schema of `null`. -/
def nullSchema : Json := .object [("type", .string "null")]

/-- The second schema stands for the first one and has no type of its own. Whatever else is written
in it plays no part. -/
inductive Wraps (defs : Json) : Json → Json → Prop
  /-- by a reference whose last segment is the name of a definition -/
  | reference {v w : Json} {path name : String} (htype : w.get? "type" = none)
      (href : w.get? "$ref" = some (.string (path ++ name)))
      (hpath : path = "" ∨ ∃ front, path = front ++ "/") (hname : '/' ∉ name.toList)
      (hdef : defs.get? name = some v) : Wraps defs v w
  /-- by a union with `null` -/
  | union {v w : Json} {key : String} {options : List Json} (htype : w.get? "type" = none)
      (href : w.get? "$ref" = none)
      (hkey : key = "anyOf" ∨ key = "oneOf" ∧ w.get? "anyOf" = none)
      (hunion : w.get? key = some (.array options))
      (hoptions : options = [v, nullSchema] ∨ options = [nullSchema, v]) : Wraps defs v w

/-- A schema, wrapped a number of times in any mixture of ways. -/
inductive Wrapped (defs s : Json) : Nat → Json → Prop
  | self : Wrapped defs s 0 s
  | wrap {m : Nat} {v w : Json} (hv : Wrapped defs s m v) (hw : Wraps defs v w) :
      Wrapped defs s (m + 1) w

/-- A schema that is no reference and states one of the six types of values other than `null`. -/
structure IsTyped (s : Json) : Prop where
  ref : s.get? "$ref" = none
  type : ∃ t ∈ ["string", "integer", "number", "boolean", "object", "array"],
    s.get? "type" = some (.string t)

/-- Whether a schema is passed over in a union. -/
def isNullType (s : Json) : Bool := (s.get? "type").bind Json.text? == some "null"

variable {defs s v w : Json} {m n : Nat}

/-- Wrappings of what is wrapped are as many together. -/
theorem Wrapped.trans {r : Json} (hs : Wrapped defs r m s) (hw : Wrapped defs s n w) :
    Wrapped defs r (m + n) w := by
  induction hw with
  | self => exact hs
  | wrap _ hw ih => exact ih.wrap hw

/-- The outermost wrappings of many are wrappings of something. -/
theorem Wrapped.exists_outer (hw : Wrapped defs s (m + n) w) :
    ∃ v, Wrapped defs s m v ∧ Wrapped defs v n w := by
  induction n generalizing w with
  | zero => exact ⟨w, hw, .self⟩
  | succ n ih =>
    obtain _ | ⟨hv, hw⟩ := hw
    obtain ⟨u, hu, hv⟩ := ih hv
    exact ⟨u, hu, hv.wrap hw⟩

/-- What wraps a schema is passed over in no union. -/
theorem Wraps.isNullType_eq (hw : Wraps defs v w) : isNullType w = false := by
  have htype : w.get? "type" = none := by
    cases hw with
    | reference htype => exact htype
    | union htype => exact htype
  rw [isNullType, htype]
  rfl

/-- What wraps a schema any number of times is passed over in no union, if the schema is not. -/
theorem Wrapped.isNullType_eq (hs : isNullType s = false) (hw : Wrapped defs s m w) :
    isNullType w = false := by
  cases hw with
  | self => exact hs
  | wrap _ hw => exact hw.isNullType_eq

/-- A schema that states its type is passed over in no union. -/
theorem IsTyped.isNullType_eq (hs : IsTyped s) : isNullType s = false := by
  obtain ⟨t, ht, htype⟩ := hs.type
  have hne : t ≠ "null" := by
    rintro rfl
    exact absurd ht (by decide)
  rw [isNullType, htype]
  exact beq_eq_false_iff_ne.2 fun h => hne (Option.some.inj h)

/-! ### One wrapping -/

/-- A reference is resolved by its last segment. -/
theorem definition?_append {path name : String} (hpath : path = "" ∨ ∃ front, path = front ++ "/")
    (hname : '/' ∉ name.toList) : definition? defs (path ++ name) = defs.get? name := by
  have hsegment : ∀ c ∈ name.toList.reverse, (c != '/') = true := by
    intro c hc
    rw [List.mem_reverse] at hc
    exact bne_iff_ne.2 fun h => hname (h ▸ hc)
  have htake : ((path ++ name).toList.reverse.takeWhile (· != '/')).reverse = name.toList := by
    rw [String.toList_append, List.reverse_append, List.takeWhile_append_of_pos hsegment]
    rcases hpath with rfl | ⟨front, rfl⟩ <;> simp
  rw [definition?, htake, String.ofList_toList]

/-- Beside `null` a union has one option. -/
theorem option?_of_union {key : String} {options : List Json}
    (hunion : w.get? key = some (.array options)) (hv : isNullType v = false)
    (hoptions : options = [v, nullSchema] ∨ options = [nullSchema, v]) :
    option? w key = some v := by
  have hkeep : ((v.get? "type").bind Json.text? != some "null") = true := by
    rw [bne, Bool.not_eq_true']
    exact hv
  have hskip : ((nullSchema.get? "type").bind Json.text? != some "null") = false := by
    decide +kernel
  rw [option?, hunion]
  rcases hoptions with rfl | rfl <;> simp [Json.items?, hkeep, hskip]

/-- A wrapping takes one look. -/
theorem kindOfSchema_of_wraps (hv : isNullType v = false) (hw : Wraps defs v w) (bound : Nat) :
    kindOfSchema defs (bound + 1) w = kindOfSchema defs bound v := by
  cases hw with
  | reference htype href hpath hname hdef =>
    rw [kindOfSchema, href]
    simp only [Option.bind_some, Json.text?]
    rw [definition?_append hpath hname, hdef]
    rfl
  | union htype href hkey hunion hoptions =>
    have hoption := option?_of_union hunion hv hoptions
    have hfirst : (option? w "anyOf").or (option? w "oneOf") = some v := by
      rcases hkey with rfl | ⟨rfl, hany⟩
      · rw [hoption, Option.some_or]
      · rw [show option? w "anyOf" = none by rw [option?, hany]; rfl, Option.none_or, hoption]
    have hstated : statedType? w = none := by rw [statedType?, htype]
    rw [kindOfSchema, href, hstated]
    simp only [Option.bind_none, hfirst]

/-! ### Chains of wrappings -/

/-- **Behind wrappings there are as many schemas less to look at.** -/
theorem kindOfSchema_add (hs : isNullType s = false) (hw : Wrapped defs s m w) (bound : Nat) :
    kindOfSchema defs (bound + m) w = kindOfSchema defs bound s := by
  induction hw with
  | self => rfl
  | wrap hv hw ih =>
    rw [← Nat.add_assoc, kindOfSchema_of_wraps (hv.isNullType_eq hs) hw, ih]

/-- Behind as many wrappings as there are schemas to look at nothing is found. -/
theorem kindOfSchema_of_le (hs : isNullType s = false) (hw : Wrapped defs s m w) {bound : Nat}
    (hm : bound ≤ m) : kindOfSchema defs bound w = .unknown := by
  obtain ⟨k, rfl⟩ := Nat.exists_eq_add_of_le' hm
  obtain ⟨v, hv, hw⟩ := hw.exists_outer
  rw [← Nat.zero_add bound, kindOfSchema_add (hv.isNullType_eq hs) hw, kindOfSchema]

/-- A schema that states its type states one of the six. -/
theorem IsTyped.statedType?_eq (hs : IsTyped s) :
    ∃ t ∈ ["string", "integer", "number", "boolean", "object", "array"],
      statedType? s = some t := by
  obtain ⟨t, ht, htype⟩ := hs.type
  exact ⟨t, ht, by rw [statedType?, htype]⟩

/-- A schema that states its type takes a single look, without any definition. -/
theorem IsTyped.kindOfSchema_eq (hs : IsTyped s) (defs : Json) (bound : Nat) :
    kindOfSchema defs (bound + 1) s = kindOfSchema .null 1 s := by
  obtain ⟨t, ht, hstated⟩ := hs.statedType?_eq
  simp only [List.mem_cons, List.not_mem_nil, or_false] at ht
  rcases ht with rfl | rfl | rfl | rfl | rfl | rfl <;>
    simp only [kindOfSchema, hs.ref, Option.bind_none, hstated]

/-- A schema that states its type has a known kind. -/
theorem IsTyped.kindOfSchema_ne (hs : IsTyped s) : kindOfSchema .null 1 s ≠ .unknown := by
  obtain ⟨t, ht, hstated⟩ := hs.statedType?_eq
  simp only [List.mem_cons, List.not_mem_nil, or_false] at ht
  rcases ht with rfl | rfl | rfl | rfl | rfl | rfl <;>
    simp only [kindOfSchema, hs.ref, Option.bind_none, hstated]
  case inl => split <;> simp
  all_goals simp

/-- A circle of wrappings is as long as one likes. -/
theorem Wrapped.exists_of_circle {c : Json} (hm : 0 < m) (hc : Wrapped defs c m c) (k : Nat) :
    ∃ n, k ≤ n ∧ Wrapped defs c n c := by
  induction k with
  | zero => exact ⟨0, Nat.le_refl 0, .self⟩
  | succ k ih =>
    obtain ⟨n, hk, hn⟩ := ih
    exact ⟨n + m, by omega, hn.trans hc⟩

/-- **Indirection does not change an inferred kind.** A schema that states its type has a known
kind; behind at most eight wrappings the same one is inferred, and behind more none; and none is
inferred in a circle of wrappings and behind one. -/
theorem kindOfSchema_of_wrapped (defs : Json) :
    (∀ s w m, IsTyped s → Wrapped defs s m w → kindOfSchema defs 9 s ≠ .unknown ∧
      (m ≤ 8 → kindOfSchema defs 9 w = kindOfSchema defs 9 s) ∧
      (9 ≤ m → kindOfSchema defs 9 w = .unknown)) ∧
    ∀ c w m n, 0 < m → Wrapped defs c m c → Wrapped defs c n w →
      kindOfSchema defs 9 w = .unknown := by
  refine ⟨fun s w m hs hw => ?_, fun c w m n hm hc hw => ?_⟩
  · rw [hs.kindOfSchema_eq defs 8]
    refine ⟨hs.kindOfSchema_ne, fun hm => ?_, kindOfSchema_of_le hs.isNullType_eq hw⟩
    obtain ⟨rest, hrest⟩ := Nat.exists_eq_add_of_le' hm
    have hadd := kindOfSchema_add hs.isNullType_eq hw (rest + 1)
    rwa [show rest + 1 + m = 9 by omega, hs.kindOfSchema_eq] at hadd
  · have hnull : isNullType c = false := by
      obtain _ | ⟨-, hc⟩ := hc
      · omega
      · exact hc.isNullType_eq
    obtain ⟨k, hk, hcircle⟩ := hc.exists_of_circle hm 9
    exact kindOfSchema_of_le hnull (hcircle.trans hw) (Nat.le_add_right_of_le hk)

/-! ### A chain and a circle -/

/-- A reference to a definition. -/
def referTo (name : String) : Json := .object [("$ref", .string ("#/$defs/" ++ name))]

/-- A schema or `null`. -/
def optional (s : Json) : Json := .object [("anyOf", .array [s, nullSchema])]

/-- A reference stands for what is defined under its name. -/
theorem wraps_referTo {name : String} (hname : '/' ∉ name.toList) (hdef : defs.get? name = some v) :
    Wraps defs v (referTo name) :=
  @Wraps.reference _ _ _ "#/$defs/" name (by simp [referTo, Json.get?])
    (by simp [referTo, Json.get?]) (.inr ⟨"#/$defs", by decide⟩) hname hdef

/-- An optional schema stands for the schema. -/
theorem wraps_optional (defs v : Json) : Wraps defs v (optional v) :=
  .union (by simp [optional, Json.get?]) (by simp [optional, Json.get?]) (.inl rfl)
    (by simp [optional, Json.get?]) (.inl rfl)

/-- The schema of a time. -/
def timeSchema : Json := .object [("type", .string "string"), ("format", .string "date-time")]

/-- A time, and something that is optional without end. -/
def sampleDefinitions : Json :=
  .object [("When", timeSchema), ("Loop", optional (referTo "Loop"))]

/-- A time that is optional seven times over is still a time, one that is so eight times has no
kind, and neither has what is optional without end. -/
theorem kindOfSchema_of_optional_time :
    kindOfSchema sampleDefinitions 9 (optional^[7] (referTo "When")) = .timestamp ∧
    kindOfSchema sampleDefinitions 9 (optional^[8] (referTo "When")) = .unknown ∧
    kindOfSchema sampleDefinitions 9 (referTo "Loop") = .unknown := by
  have htime : IsTyped timeSchema :=
    ⟨by simp [timeSchema, Json.get?], "string", by simp, by simp [timeSchema, Json.get?]⟩
  have hmany (m : Nat) :
      Wrapped sampleDefinitions timeSchema (m + 1) (optional^[m] (referTo "When")) := by
    induction m with
    | zero => exact .wrap .self (wraps_referTo (by decide) (by simp [sampleDefinitions, Json.get?]))
    | succ m ih =>
      rw [Function.iterate_succ_apply']
      exact ih.wrap (wraps_optional _ _)
  have hloop : Wrapped sampleDefinitions (referTo "Loop") 2 (referTo "Loop") :=
    .wrap (.wrap .self (wraps_optional _ _))
      (wraps_referTo (by decide) (by simp [sampleDefinitions, Json.get?]))
  obtain ⟨hchain, hcircle⟩ := kindOfSchema_of_wrapped sampleDefinitions
  refine ⟨?_, (hchain _ _ 9 htime (hmany 8)).2.2 (by decide),
    hcircle _ _ 2 0 (by decide) hloop .self⟩
  rw [(hchain _ _ 8 htime (hmany 7)).2.1 (by decide)]
  decide +kernel

end Schema
end SearchFilter
