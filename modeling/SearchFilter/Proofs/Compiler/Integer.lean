/-
# Integers in queries

An integer behind a field can be compared with, or be the lower bound of a range. Among the
values of what is rendered stands the nearest double for it, or its text (`Value.ofNumeral`):

| query | target | integers that arrive unchanged |
| --- | --- | --- |
| `f:>d` and the like | SQL | those that are doubles |
| `f:>d` and the like, `f:[d TO *]` | PartiQL | of these the ones below `2 ^ 63` |
| | | those beyond that are the fewest digits of a double |
| all of them | both | those that are too large for any double |

No other integer does, and none at all behind a field that is read as `NOT`
(`denotes_integer_iff`): `2 ^ 53 + 1` is bound as `2 ^ 53` (`binds_next_double`).
-/

import SearchFilter.Proofs.Compiler.Literal
import SearchFilter.Proofs.Compiler.Naming
import SearchFilter.Proofs.Grammar.Printed
import SearchFilter.Proofs.Render.Failure
import SearchFilter.Proofs.Render.Integer

namespace SearchFilter

open Decimal (WritesInteger)
open Grammar

/-! ### The texts of integers -/

/-- What a text is compared with can be rendered. -/
theorem Value.isOperand_ofNumeral (s : String) : (ofNumeral s).IsOperand := by
  rw [ofNumeral]
  cases h : Decimal.finite? s.toList with
  | some x => exact .number (Decimal.isFinite_of_finite? h)
  | none => exact .text s

namespace Decimal.WritesInteger

variable {i : Int} {s : String} {d : List Char}

/-- An integer is written with digits and perhaps a minus sign. -/
theorem forall_mem (h : WritesInteger i d) : ∀ c ∈ d, c.isDigit = true ∨ c = '-' := by
  obtain ⟨negative, ds, ⟨-, hall⟩, rfl, -⟩ := h.exists_digits
  intro c hc
  rcases List.mem_append.1 hc with hc | hc
  · cases negative with
    | true => exact .inr (by simpa using hc)
    | false => cases hc
  · exact .inl (List.all_eq_true.1 hall c hc)

/-- The text of an integer is a term without a backslash, and does not start with `=`. -/
theorem isTerm (h : WritesInteger i d) : IsTerm d ∧ '\\' ∉ d ∧ d.head? ≠ some '=' := by
  obtain ⟨n, hn, -⟩ := h.denotes
  exact isTerm_of_numeral? hn

/-- It does not spell a word. -/
theorem isNull (h : WritesInteger i s.toList) : (Value.text s).isNull = false := by
  refine Bool.eq_false_iff.2 fun hnull => ?_
  obtain ⟨c, t, ht⟩ := List.exists_cons_of_ne_nil h.isTerm.1.ne_nil
  have hc : c ∈ s.toList := ht ▸ List.mem_cons_self
  have hlower := Query.toLower_mem_of_sameWord hnull hc
  rcases h.forall_mem c hc with hdigit | rfl
  · have hletters : (Text.lower ['n', 'u', 'l', 'l']).all (fun c => !c.isDigit) = true := by decide
    rw [Text.toLower_of_isDigit hdigit] at hlower
    simpa [hdigit] using List.all_eq_true.1 hletters c hlower
  · exact absurd hlower (by decide)

/-- An integer is not `null`. -/
theorem isNull_ofNumeral (h : WritesInteger i s.toList) : (Value.ofNumeral s).isNull = false := by
  rw [Value.ofNumeral]
  split
  · rfl
  · exact h.isNull

/-- Behind the sign of a comparison it is the number that it writes. -/
theorem value_raw (h : WritesInteger i s.toList) :
    (Operand.raw s.toList).value = Value.ofNumeral s := by
  obtain ⟨-, hbackslash, -⟩ := h.isTerm
  cases hread : Decimal.finite? s.toList with
  | some x => simp [Operand.value, Value.ofNumeral, hbackslash, hread]
  | none => simp [Operand.value, Value.ofNumeral, hbackslash, hread, unescape_of_not_mem]

/-- The text of a comparison with it, which shows no point. -/
theorem writesAtom_compare (h : WritesInteger i d) (op : Comparison) :
    WritesAtom (.compare op (.raw d)) (op.sign.toList ++ d) ∧ Shows 0 (op.sign.toList ++ d) := by
  obtain ⟨hterm, -, hhead⟩ := h.isTerm
  have ha : WritesAtom (.compare op (.raw d)) (op.sign.toList ++ d) :=
    .compare (.raw hterm) fun _ => hhead
  obtain ⟨_, hpass, -⟩ := ha.atomText.passes
  refine ⟨ha, shows_of_not_mem hpass.after fun hmem => ?_⟩
  rcases List.mem_append.1 hmem with hsign | hdigits
  · cases op <;> exact absurd hsign (by decide)
  · exact absurd (h.forall_mem _ hdigits) (by decide)

/-- The text of the range from it on, which shows none either. -/
theorem writesAtom_range (h : WritesInteger i d) :
    WritesAtom (.range (some d) none true) ('[' :: (d ++ " TO *]".toList)) ∧
      Shows 0 ('[' :: (d ++ " TO *]".toList)) := by
  obtain ⟨hterm, hbackslash, -⟩ := h.isTerm
  have hbound : BoundText (some d) d := by
    have hstar : d ≠ ['*'] := by
      rintro rfl
      exact absurd (h.forall_mem _ (List.mem_singleton_self _)) (by decide)
    have hbound := BoundText.term hterm hstar
    rwa [unescape_of_not_mem hbackslash] at hbound
  have hinclusive : ('[', ']', true) ∈ [('[', ']', true), ('\x7b', '\x7d', false)] := by simp
  have ha : WritesAtom (.range (some d) none true) ('[' :: (d ++ " TO *]".toList)) :=
    .range hinclusive hbound .unlimited
  obtain ⟨_, hpass, -⟩ := ha.atomText.passes
  refine ⟨ha, shows_of_not_mem hpass.after fun hmem => ?_⟩
  rcases List.mem_append.1 (List.mem_of_ne_of_mem (by decide) hmem) with hdigits | hto
  · exact absurd (h.forall_mem _ hdigits) (by decide)
  · exact absurd hto (by decide)

end Decimal.WritesInteger

/-! ### Rendering orders -/

section
variable {c : Column} {v : Value}

/-- A comparison, once the column and the value are written. -/
theorem Target.compare_eq {α : Type} {t : Target α} {text : List Char} {b : Fragment α}
    (op : Comparison) (hnull : v.isNull = false) (hcolumn : t.column c = .ok text)
    (hvalue : t.value v = .ok b) :
    t.compare op c v = .ok (.plain text ++ .word (" " ++ op.sign ++ " ") ++ b) := by
  simp only [compare, hnull, hcolumn, hvalue, bind, Except.bind]
  rfl

/-- A dialect renders a comparison with a value, which is the only parameter. -/
theorem Sql.exists_render_compare (d : Dialect) (op : Comparison) (hc : c.IsSafe) (hv : v.IsOperand)
    (hnull : v.isNull = false) :
    ∃ clause, render d (.compare op c v) = .ok clause ∧ clause.params = [v.parameter] := by
  obtain ⟨text, hcolumn⟩ := exists_column d hc
  obtain ⟨b, hvalue⟩ := exists_bind hv
  have hcompare : d.target.render (.compare op c v) = .ok _ :=
    Target.compare_eq op hnull hcolumn hvalue
  rw [bind_eq hvalue] at hcompare
  rw [render, hcompare]
  exact ⟨_, rfl, rfl⟩

namespace PartiQL

/-- A condition that tests the order of a column against one value. -/
def orderCondition (c : Column) (sign : String) (a : Attribute) : Condition :=
  ⟨c.name ++ " " ++ sign ++ " " ++ String.ofList (a.lexeme.write '"'), [a]⟩

/-- A column, a sign and a value make such a condition. -/
theorem render_order {f : Filter} {sign : String} {a : Attribute}
    (h : target.render f =
      .ok (.plain c.name.toList ++ .word (" " ++ sign ++ " ") ++ a.fragment)) :
    render f = .ok (orderCondition c sign a) := by
  rw [render, h, orderCondition]
  simp [Attribute.fragment, Fragment.plain, Fragment.word, bind, Except.bind, ← String.toList_inj]

/-- PartiQL renders a comparison as a condition on the order. -/
theorem render_compare (op : Comparison) (hc : c.IsSafe) (hv : v.IsOperand)
    (hnull : v.isNull = false) :
    render (.compare op c v) = .ok (orderCondition c op.sign v.attribute) := by
  obtain ⟨b, hvalue⟩ := exists_value hv
  obtain rfl := value_eq hvalue
  exact render_order (Target.compare_eq op hnull hc.path_eq hvalue)

/-- A range without an upper bound. -/
theorem render_atLeast {s : String} (hc : c.IsSafe) (hnull : (Value.text s).isNull = false) :
    render (.range c (some (.text s)) none true) =
      .ok (orderCondition c ">=" (Value.text s).boundAttribute) := by
  obtain ⟨b, hvalue⟩ := exists_bound s
  obtain rfl := bound_eq hvalue
  refine render_order ?_
  simp only [Target.render, Target.range, Target.isNullBound, hnull, target, hc.path_eq, hvalue,
    bind, Except.bind]
  rfl

end PartiQL

end

/-! ### Compiling integers -/

namespace Compiler

variable {k : Compiler} {q : String} {i : Int}

/-- The query is compiled to a clause with one parameter, which denotes the integer. -/
def Binds (k : Compiler) (dialect : Sql.Dialect) (q : String) (i : Int) : Prop :=
  ∃ clause p, k.compile (.sql dialect) q = .ok (some (.sql clause)) ∧ clause.params = [p] ∧
    p.Denotes i

/-- The query is compiled to the order of a column against one value, which stands in the
statement as it is listed and denotes the integer. -/
def Records (k : Compiler) (c : Column) (sign q : String) (i : Int) : Prop :=
  ∃ a, k.compile .dynamodb q = .ok (some (.partiql (PartiQL.orderCondition c sign a))) ∧
    a.Denotes i

/-- A field that is read as `NOT` has no atoms. -/
theorem compile_ne_of_not {f : Field} {a : Atom} {u : List Char} (hf : f ∈ k.schema.fields)
    (hnot : Text.sameWord f.name.toList ['N', 'O', 'T'] = true) (ha : WritesAtom a u)
    (hq : q.toList = f.name.toList ++ ':' :: u) (p : Provider) (r : Rendered) :
    k.compile p q ≠ .ok (some r) := fun h => by
  obtain ⟨g, hg, -⟩ := exists_of_compile h
  have hfield : FieldText f.name.toList := .plain (k.schema.named f hf)
  refine filter?_ne_ok_of_clause? (expand_of_emits fun fields => ?_) (fun c => ?_) g hg
  · rw [hq]
    exact ha.atomText.emits hfield fields false
  · rw [hq]
    exact clause?_ne_ok_of_not hfield hnot u c

section
variable {c : Column} {d : String}

/-- An integer behind the sign of an order is compared with as the number that it writes. -/
theorem filter?_of_compare (hc : k.schema.Admits c) (hd : WritesInteger i d.toList)
    (op : Comparison) (hq : q.toList = c.name.toList ++ ':' :: (op.sign.toList ++ d.toList))
    (hsize : k.checkSize q = .ok ()) :
    k.filter? q = .ok (some (.compare op c (.ofNumeral d))) := by
  obtain ⟨ha, hshows⟩ := hd.writesAtom_compare op
  have hfilter := filter?_of_writesAtom hc ha hshows hq hsize
  rwa [Atom.filter, hd.value_raw] at hfilter

/-- An integer as the lower bound of a range is kept as its text. -/
theorem filter?_of_range (hc : k.schema.Admits c) (hd : WritesInteger i d.toList)
    (hq : q.toList = c.name.toList ++ ':' :: '[' :: (d.toList ++ " TO *]".toList))
    (hsize : k.checkSize q = .ok ()) :
    k.filter? q = .ok (some (.range c (some (.text d)) none true)) := by
  obtain ⟨ha, hshows⟩ := hd.writesAtom_range
  have hfilter := filter?_of_writesAtom hc ha hshows hq hsize
  rwa [Atom.filter, Option.map_some, textValue_toList] at hfilter

/-- What a comparison with an integer binds. -/
theorem binds_iff_of_filter? {v : Value} {op : Comparison} (hc : c.IsSafe) (hv : v.IsOperand)
    (hnull : v.isNull = false) (h : k.filter? q = .ok (some (.compare op c v)))
    (dialect : Sql.Dialect) : k.Binds dialect q i ↔ v.parameter.Denotes i := by
  obtain ⟨clause, hrender, hparams⟩ := Sql.exists_render_compare dialect op hc hv hnull
  have hcompile : k.compile (.sql dialect) q = .ok (some (.sql clause)) := by
    rw [compile_of_filter? h, Provider.render, hrender]
    rfl
  constructor
  · rintro ⟨clause', p, hclause, hp, hdenotes⟩
    obtain rfl := Rendered.sql.inj (Option.some.inj (Except.ok.inj (hcompile.symm.trans hclause)))
    obtain rfl := List.singleton_inj.1 (hparams.symm.trans hp)
    exact hdenotes
  · exact fun hdenotes => ⟨clause, _, hcompile, hparams, hdenotes⟩

/-- What an order lists. -/
theorem records_iff_of_render {f : Filter} {sign : String} {a : PartiQL.Attribute}
    (h : k.filter? q = .ok (some f))
    (hrender : PartiQL.render f = .ok (PartiQL.orderCondition c sign a)) :
    k.Records c sign q i ↔ a.Denotes i := by
  have hcompile :
      k.compile .dynamodb q = .ok (some (.partiql (PartiQL.orderCondition c sign a))) := by
    rw [compile_of_filter? h, Provider.render, hrender]
    rfl
  constructor
  · rintro ⟨a', hcondition, hdenotes⟩
    have hsame := Rendered.partiql.inj
      (Option.some.inj (Except.ok.inj (hcompile.symm.trans hcondition)))
    obtain rfl := List.singleton_inj.1 (congrArg PartiQL.Condition.attributes hsame)
    exact hdenotes
  · exact fun hdenotes => ⟨a, hcompile, hdenotes⟩

end

/-- **An integer that is compared with arrives unchanged exactly where it is a double,** or is too
large for any. In PartiQL, from `2 ^ 63` on, it has to be the fewest digits of the nearest double
instead. -/
theorem denotes_integer_iff {f : Field} {d : String} (hf : f ∈ k.schema.fields)
    (hd : WritesInteger i d.toList) :
    let free := Text.sameWord f.name.toList ['N', 'O', 'T'] = false
    let beyond := (2 : ℚ) ^ 1024 - 2 ^ 970 ≤ i.natAbs
    let listed := beyond ∨ i.natAbs < 2 ^ 63 ∧ Double.Fits i.natAbs ∨ Double.IsShortest i.natAbs
    let compared (op : Comparison) := f.name ++ ":" ++ op.sign ++ d
    let ranged := f.name ++ ":[" ++ d ++ " TO *]"
    (∀ op, k.checkSize (compared op) = .ok () →
        (∀ dialect, k.Binds dialect (compared op) i ↔ free ∧ (beyond ∨ Double.Fits i.natAbs)) ∧
          (k.Records ⟨f.name⟩ op.sign (compared op) i ↔ free ∧ listed)) ∧
      (k.checkSize ranged = .ok () → (k.Records ⟨f.name⟩ ">=" ranged i ↔ free ∧ listed)) := by
  intro free beyond listed compared ranged
  have hranged : ranged.toList =
      f.name.toList ++ ':' :: '[' :: (d.toList ++ " TO *]".toList) := by
    simp [ranged]
  have hcompared (op : Comparison) : (compared op).toList =
      f.name.toList ++ ':' :: (op.sign.toList ++ d.toList) := by
    simp [compared]
  have hbinds : (Value.ofNumeral d).parameter.Denotes i ↔ beyond ∨ Double.Fits i.natAbs :=
    denotes_parameter_iff hd
  have hlists : (Value.ofNumeral d).attribute.Denotes i ↔ listed := denotes_attribute_iff hd
  have hoperand := Value.isOperand_ofNumeral d
  have hnull := hd.isNull_ofNumeral
  by_cases hfree : free
  · have hc : k.schema.Admits ⟨f.name⟩ := Schema.admits_field hf hfree
    refine ⟨fun op hsize => ⟨fun dialect => ?_, ?_⟩, fun hsize => ?_⟩
    · have hfilter := filter?_of_compare hc hd op (hcompared op) hsize
      rw [binds_iff_of_filter? hc.safe hoperand hnull hfilter, hbinds, and_iff_right hfree]
    · have hfilter := filter?_of_compare hc hd op (hcompared op) hsize
      rw [records_iff_of_render hfilter (PartiQL.render_compare op hc.safe hoperand hnull), hlists,
        and_iff_right hfree]
    · have hfilter := filter?_of_range hc hd hranged hsize
      rw [records_iff_of_render hfilter (PartiQL.render_atLeast hc.safe hd.isNull),
        Value.boundAttribute_text, hlists, and_iff_right hfree]
  · -- the field is read as a prefix
    have hnot : Text.sameWord f.name.toList ['N', 'O', 'T'] = true := by simpa [free] using hfree
    have hcompare (op : Comparison) :=
      compile_ne_of_not hf hnot (hd.writesAtom_compare op).1 (hcompared op)
    have hrange := compile_ne_of_not hf hnot hd.writesAtom_range.1 hranged
    refine ⟨fun op _ => ⟨fun dialect => ?_, ?_⟩, fun _ => ?_⟩ <;>
      refine iff_of_false ?_ fun h => hfree h.1
    · rintro ⟨_, _, h, -⟩
      exact hcompare op _ _ h
    · rintro ⟨_, h, -⟩
      exact hcompare op _ _ h
    · rintro ⟨_, h, -⟩
      exact hrange _ _ h

/-- An integer beyond `2 ^ 53` that is a double. -/
theorem binds_of_double :
    let k := sample 4 ⟨100, 9, 9⟩ (by decide)
    k.Binds .mysql "f:<=-9007199254740994" (-9007199254740994) ∧
      k.Records ⟨"f"⟩ "<=" "f:<=-9007199254740994" (-9007199254740994) ∧
      k.Records ⟨"f"⟩ ">=" "f:[-9007199254740994 TO *]" (-9007199254740994) := by
  intro k
  have hd : WritesInteger (-9007199254740994) "-9007199254740994".toList :=
    @WritesInteger.minus "9007199254740994".toList ⟨by decide, by decide⟩
  have hfits : Double.Fits 9007199254740994 := ⟨4503599627370497, 1, by decide, by decide⟩
  have hf : Field.of "f" .text ∈ k.schema.fields := by decide +kernel
  obtain ⟨hcompared, hranged⟩ := denotes_integer_iff hf hd
  obtain ⟨hbinds, hrecords⟩ := hcompared .lessEq (by decide +kernel)
  exact ⟨(hbinds .mysql).2 ⟨by decide +kernel, .inr hfits⟩,
    hrecords.2 ⟨by decide +kernel, .inr (.inl ⟨by decide, hfits⟩)⟩,
    (hranged (by decide +kernel)).2 ⟨by decide +kernel, .inr (.inl ⟨by decide, hfits⟩)⟩⟩

/-- The integer behind `2 ^ 53` is bound as `2 ^ 53`. -/
theorem binds_next_double :
    let k := sample 4 ⟨100, 9, 9⟩ (by decide)
    WritesInteger 9007199254740993 "9007199254740993".toList ∧
      k.checkSize "f:>9007199254740993" = .ok () ∧
      k.Binds .postgresql "f:>9007199254740993" 9007199254740992 ∧
      ¬ k.Binds .postgresql "f:>9007199254740993" 9007199254740993 := by
  intro k
  have hd : WritesInteger 9007199254740993 "9007199254740993".toList :=
    @WritesInteger.plain "9007199254740993".toList ⟨by decide, by decide⟩
  have hsize : k.checkSize "f:>9007199254740993" = .ok () := by decide +kernel
  have hc : k.schema.Admits ⟨"f"⟩ :=
    Schema.admits_field (f := .of "f" .text) (by decide +kernel) (by decide +kernel)
  have hfilter := filter?_of_compare hc hd .greater (q := "f:>9007199254740993") rfl hsize
  have hbinds (i : Int) := binds_iff_of_filter? (i := i) hc.safe (Value.isOperand_ofNumeral _)
    hd.isNull_ofNumeral hfilter .postgresql
  have hparameter : (Value.ofNumeral "9007199254740993").parameter =
      .number (.integer 9007199254740992) := by
    have hread : Decimal.finite? "9007199254740993".toList =
        some (.finite false 4503599627370496 1) := by decide +kernel
    rw [Value.ofNumeral, hread]
    rfl
  rw [hparameter] at hbinds
  refine ⟨hd, hsize, (hbinds _).2 rfl, fun h => ?_⟩
  have heq : (9007199254740992 : Int) = 9007199254740993 := (hbinds _).1 h
  exact absurd heq (by decide)

end Compiler
end SearchFilter
