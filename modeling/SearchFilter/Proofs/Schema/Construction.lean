/-
# What makes a schema

A list of fields is a schema exactly when its names are identifiers and no two of them are
alike. Otherwise it has the fault of the first field that has one (`DefectAt`):

| the field | fault |
| --- | --- |
| has nothing but blanks for a name | `emptyFieldName` |
| has another name that is no identifier | `invalidFieldName` |
| has the name of an earlier field | `duplicateField`, with the kind of the first such field |

A table of the places of the names that have come so far finds the same faults as a search among
the earlier fields does, and in the end the same fields (`alike_places`).
-/

import Mathlib.Data.List.AList
import SearchFilter.Proofs.Outcome
import SearchFilter.Schema.Basic

namespace SearchFilter

/-! ### Names -/

namespace Text

/-- The characters that a name can start with. -/
def IsLetter (c : Char) : Prop := ('A' ≤ c ∧ c ≤ 'Z') ∨ ('a' ≤ c ∧ c ≤ 'z') ∨ c = '_'

/-- The names `[A-Za-z_][A-Za-z0-9_]*`. -/
inductive IsName : List Char → Prop
  | cons {c : Char} {r : List Char} :
    IsLetter c → (∀ d ∈ r, IsLetter d ∨ ('0' ≤ d ∧ d ≤ '9')) → IsName (c :: r)

/-- Names start with a letter or an underscore. -/
theorem isNameStart_iff {c : Char} : isNameStart c = true ↔ IsLetter c := by
  delta isNameStart Char.isAlpha Char.isUpper Char.isLower
  simp only [IsLetter, Bool.or_eq_true, Bool.and_eq_true, decide_eq_true_eq, beq_iff_eq, or_assoc]
  exact Iff.rfl

/-- Names go on with these or digits. -/
theorem isNamePart_iff {c : Char} :
    isNamePart c = true ↔ IsLetter c ∨ ('0' ≤ c ∧ c ≤ '9') := by
  rw [← isNameStart_iff]
  simp only [isNamePart, isNameStart, Char.isAlphanum, Char.isDigit, Bool.or_eq_true,
    Bool.and_eq_true, decide_eq_true_eq]
  rw [or_right_comm]
  exact Iff.rfl

/-- The identifiers are the names. -/
theorem isIdentifier_iff {s : List Char} : isIdentifier s = true ↔ IsName s := by
  constructor
  · intro h
    cases s with
    | nil => cases h
    | cons c r =>
      obtain ⟨hc, hr⟩ := Bool.and_eq_true_iff.1 h
      exact .cons (isNameStart_iff.1 hc) fun d hd =>
        isNamePart_iff.1 (List.all_eq_true.1 hr d hd)
  · rintro ⟨hc, hr⟩
    exact Bool.and_eq_true_iff.2 ⟨isNameStart_iff.2 hc,
      List.all_eq_true.2 fun d hd => isNamePart_iff.2 (hr d hd)⟩

/-- Nothing is left between the blanks at both ends exactly where there is nothing else. -/
theorem trim_eq_nil_iff {s : List Char} : trim s = [] ↔ allBlank s = true := by
  rw [trim, List.reverse_eq_nil_iff, skipBlank_eq_nil_iff]
  constructor
  · intro h
    -- the first character that is not blank would stand at the end of the reversed text
    refine skipBlank_eq_nil_iff.1 (List.eq_nil_iff_forall_not_mem.2 fun c hc => ?_)
    have hhead := List.head?_dropWhile_not isBlank s
    cases hskip : skipBlank s with
    | nil => rw [hskip] at hc; cases hc
    | cons d r =>
      rw [skipBlank] at hskip
      rw [hskip] at hhead
      have hd : isBlank d = true := allBlank_iff.1 h d (by simp [skipBlank, hskip])
      simp [hd] at hhead
  · intro h
    rw [skipBlank_eq_nil_iff.2 h]
    rfl

end Text

namespace Schema

/-! ### Accepted fields -/

/-- A schema has the fields that it is made of. -/
theorem ofFields_eq_ok_iff {fs : List Field} {s : Schema} : ofFields fs = .ok s ↔ s.fields = fs := by
  constructor
  · intro h
    rw [ofFields] at h
    split at h
    · cases h
    · rw [← Except.ok.inj h]
  · rintro rfl
    have hnone : firstDefect? [] s.fields = none :=
      firstDefect?_eq_none_iff.2 ⟨s.named, s.distinct, by simp⟩
    rw [ofFields]
    split
    · rename_i h
      rw [hnone] at h
      cases h
    · rfl

/-- Fields that make no schema have a first defect. -/
theorem ofFields_eq_error_iff {fs : List Field} {e : SetupError} :
    ofFields fs = .error e ↔ firstDefect? [] fs = some e := by
  rw [ofFields]
  split
  · rename_i e' h
    rw [h, Except.error.injEq, Option.some_inj]
  · rename_i hnone
    refine ⟨nofun, fun h => ?_⟩
    rw [hnone] at h
    cases h

/-- **A name finds the one field that has it.** -/
theorem get?_eq_some_iff {s : Schema} {n : String} {f : Field} :
    s.get? n = some f ↔ f ∈ s.fields ∧ f.name = n := by
  constructor
  · exact fun h => ⟨mem_of_get? h, name_of_get? h⟩
  · rintro ⟨hf, rfl⟩
    have hfound : (s.get? f.name).isSome = true := List.find?_isSome.2 ⟨f, hf, beq_self_eq_true _⟩
    obtain ⟨g, hg⟩ := Option.isSome_iff_exists.1 hfound
    rw [hg, List.inj_on_of_nodup_map s.distinct (mem_of_get? hg) hf (name_of_get? hg)]

/-! ### The first defective field -/

/-- What is wrong with the field at a place of a list. -/
inductive DefectAt (fs : List Field) (i : Nat) : SetupError → Prop
  | blank {f : Field} : fs[i]? = some f → Text.trim f.name.toList = [] →
    DefectAt fs i .emptyFieldName
  | malformed {f : Field} : fs[i]? = some f → Text.trim f.name.toList ≠ [] →
    ¬ Text.IsName f.name.toList → DefectAt fs i (.invalidFieldName f.name)
  | repeated {f g : Field} {j : Nat} : fs[i]? = some f → Text.IsName f.name.toList → j < i →
    fs[j]? = some g → g.name = f.name → (∀ k < j, ∀ h ∈ fs[k]?, h.name ≠ f.name) →
    DefectAt fs i (.duplicateField f.name g.kind f.kind)

/-- A field that is found among those in front of a place is the first one of its name. -/
theorem find?_take_eq_some_iff {fs : List Field} {i : Nat} {n : String} {g : Field} :
    (fs.take i).find? (fun g => g.name == n) = some g ↔
      ∃ j < i, fs[j]? = some g ∧ g.name = n ∧ ∀ k < j, ∀ h ∈ fs[k]?, h.name ≠ n := by
  rw [List.find?_eq_some_iff_getElem]
  constructor
  · rintro ⟨hg, j, hj, rfl, hbefore⟩
    obtain ⟨hji, hjlen⟩ := Nat.lt_min.1 (List.length_take ▸ hj)
    refine ⟨j, hji, by simp [hjlen], by simpa using hg, fun k hk h hh => ?_⟩
    have hklen : k < fs.length := Nat.lt_trans hk hjlen
    obtain rfl : fs[k] = h := by simpa [hklen] using hh
    simpa using hbefore k hk
  · rintro ⟨j, hji, hg, hn, hbefore⟩
    obtain ⟨hjlen, rfl⟩ := List.getElem?_eq_some_iff.1 hg
    have hj : j < (fs.take i).length := List.length_take ▸ Nat.lt_min.2 ⟨hji, hjlen⟩
    refine ⟨by simpa using hn, j, hj, by simp, fun k hk => ?_⟩
    have hklen : k < fs.length := Nat.lt_trans hk hjlen
    simpa using hbefore k hk fs[k] (by simp [hklen])

/-- The search among the fields in front of a place tells what is wrong with the field there. -/
theorem defect?_take_eq_some_iff {fs : List Field} {i : Nat} {f : Field} (hf : fs[i]? = some f)
    {e : SetupError} : defect? (fs.take i) f = some e ↔ DefectAt fs i e := by
  have hfield {g : Field} (hg : fs[i]? = some g) : g = f := Option.some.inj (hg.symm.trans hf)
  rw [defect?]
  by_cases hblank : Text.allBlank f.name.toList = true
  · have htrim := Text.trim_eq_nil_iff.2 hblank
    rw [if_pos hblank, Option.some_inj]
    constructor
    · rintro rfl
      exact .blank hf htrim
    · rintro (⟨-, -⟩ | ⟨hg, hne, -⟩ | ⟨hg, hname, -⟩)
      · rfl
      · exact absurd htrim (hfield hg ▸ hne)
      · rw [hfield hg, ← Text.isIdentifier_iff] at hname
        have hfine : defect? [] f = none := defect?_eq_none_iff.2 ⟨hname, by simp⟩
        simp [defect?, hblank] at hfine
  · have htrim := mt Text.trim_eq_nil_iff.1 hblank
    rw [if_neg hblank]
    by_cases hname : Text.isIdentifier f.name.toList = true
    · have hname' := Text.isIdentifier_iff.1 hname
      simp only [hname, Bool.not_true, Bool.false_eq_true, if_false, Option.map_eq_some_iff,
        find?_take_eq_some_iff]
      constructor
      · rintro ⟨g, ⟨j, hji, hg, hn, hfirst⟩, rfl⟩
        exact .repeated hf hname' hji hg hn hfirst
      · rintro (⟨hg, hnil⟩ | ⟨hg, -, hno⟩ | ⟨hg, -, hji, hfound, hn, hfirst⟩)
        · exact absurd (hfield hg ▸ hnil) htrim
        · exact absurd hname' (hfield hg ▸ hno)
        · obtain rfl := hfield hg
          exact ⟨_, ⟨_, hji, hfound, hn, hfirst⟩, rfl⟩
    · have hname' := mt Text.isIdentifier_iff.2 hname
      simp only [hname, Bool.not_false, if_true, Option.some_inj]
      constructor
      · rintro rfl
        exact .malformed hf htrim hname'
      · rintro (⟨hg, hnil⟩ | ⟨hg, -⟩ | ⟨hg, hyes, -⟩)
        · exact absurd (hfield hg ▸ hnil) htrim
        · rw [hfield hg]
        · exact absurd (hfield hg ▸ hyes) hname'

/-- **The fault of a list is that of its first defective field,** behind any fields that have
come before. -/
theorem firstDefect?_eq_some_iff {before fs : List Field} {e : SetupError} :
    firstDefect? before fs = some e ↔
      ∃ i, (∃ f, fs[i]? = some f ∧ defect? (before ++ fs.take i) f = some e) ∧
        ∀ j < i, ∀ g ∈ fs[j]?, defect? (before ++ fs.take j) g = none := by
  induction fs generalizing before with
  | nil => simp [firstDefect?]
  | cons f rest ih =>
    have hstep (i : Nat) : before ++ (f :: rest).take (i + 1) = before ++ [f] ++ rest.take i := by
      simp
    rw [firstDefect?, Option.or_eq_some_iff, ih]
    constructor
    · rintro (h | ⟨hnone, i, ⟨g, hg, hdefect⟩, hbefore⟩)
      · exact ⟨0, ⟨f, rfl, by simpa using h⟩, fun j hj => absurd hj (Nat.not_lt_zero j)⟩
      · refine ⟨i + 1, ⟨g, hg, by rw [hstep, hdefect]⟩, fun j hj g' hg' => ?_⟩
        cases j with
        | zero =>
          obtain rfl : f = g' := Option.some.inj hg'
          simpa using hnone
        | succ j => rw [hstep, hbefore j (Nat.lt_of_succ_lt_succ hj) g' hg']
    · rintro ⟨i, ⟨g, hg, hdefect⟩, hbefore⟩
      cases i with
      | zero =>
        obtain rfl : f = g := Option.some.inj hg
        exact .inl (by simpa using hdefect)
      | succ i =>
        refine .inr ⟨by simpa using hbefore 0 (Nat.succ_pos i) f rfl, i, ⟨g, hg, ?_⟩, ?_⟩
        · rw [← hstep, hdefect]
        · intro j hj g' hg'
          rw [← hstep, hbefore (j + 1) (Nat.succ_lt_succ hj) g' hg']

/-- The fault of fields that make no schema is that of the first defective one. -/
theorem ofFields_eq_error_iff_defectAt {fs : List Field} {e : SetupError} :
    ofFields fs = .error e ↔ ∃ i, DefectAt fs i e ∧ ∀ j < i, ∀ e', ¬ DefectAt fs j e' := by
  have hat {i : Nat} {f : Field} (hf : fs[i]? = some f) :
      defect? (fs.take i) f = none ↔ ∀ e', ¬ DefectAt fs i e' := by
    simp only [Option.eq_none_iff_forall_ne_some, ne_eq, defect?_take_eq_some_iff hf]
  have hplace {i : Nat} {e' : SetupError} (h : DefectAt fs i e') : ∃ f, fs[i]? = some f := by
    cases h <;> exact ⟨_, ‹_›⟩
  rw [ofFields_eq_error_iff, firstDefect?_eq_some_iff]
  simp only [List.nil_append]
  refine exists_congr fun i => and_congr ⟨?_, ?_⟩ ⟨?_, ?_⟩
  · rintro ⟨f, hf, h⟩
    exact (defect?_take_eq_some_iff hf).1 h
  · intro h
    obtain ⟨f, hf⟩ := hplace h
    exact ⟨f, hf, (defect?_take_eq_some_iff hf).2 h⟩
  · intro h j hj e' hdefect
    obtain ⟨g, hg⟩ := hplace hdefect
    exact (hat hg).1 (h j hj g hg) e' hdefect
  · exact fun h j hj g hg => (hat hg).2 (h j hj)

/-! ### A table of places -/

/-- Where the names of fields stand. -/
abbrev Places (fs : List Field) : Type := AList fun _ : String => Fin fs.length

/-- Enters the name of the field at a place, unless the field is defective. -/
def Places.enter (fs : List Field) (ps : Places fs) (i : Fin fs.length) :
    Except SetupError (Places fs) :=
  if Text.trim fs[i].name.toList = [] then .error .emptyFieldName
  else if !Text.isIdentifier fs[i].name.toList then .error (.invalidFieldName fs[i].name)
  else
    match ps.lookup fs[i].name with
    | some j => .error (.duplicateField fs[i].name fs[j].kind fs[i].kind)
    | none => .ok (ps.insert fs[i].name i)

/-- The places of all names, entered one after another. -/
def places (fs : List Field) : Except SetupError (Places fs) :=
  (List.finRange fs.length).foldlM (Places.enter fs) ∅

/-- A table finds the fields in front of a place by their names. -/
def Places.Holds {fs : List Field} (ps : Places fs) (k : Nat) : Prop :=
  ∀ n, (ps.lookup n).map fs.get = (fs.take k).find? fun f => f.name == n

/-- One field is entered exactly where the search finds nothing wrong with it, and the table holds
it then. -/
theorem Places.Holds.enter {fs : List Field} {ps : Places fs} {i : Fin fs.length}
    (h : ps.Holds i) :
    match defect? (fs.take i) fs[i] with
    | some e => Places.enter fs ps i = .error e
    | none => ∃ ps', Places.enter fs ps i = .ok ps' ∧ ps'.Holds (i + 1) := by
  have hlookup := h fs[i].name
  rw [Places.enter, defect?, ← hlookup]
  by_cases hblank : Text.allBlank fs[i].name.toList = true
  · rw [if_pos hblank, if_pos (Text.trim_eq_nil_iff.2 hblank)]
  rw [if_neg hblank, if_neg (mt Text.trim_eq_nil_iff.1 hblank)]
  by_cases hname : Text.isIdentifier fs[i].name.toList = true
  · simp only [hname, Bool.not_true, Bool.false_eq_true, if_false]
    cases hfound : ps.lookup fs[i].name with
    | some j => rfl
    | none =>
      refine ⟨_, rfl, fun n => ?_⟩
      have htake : fs.take (i + 1) = fs.take i ++ [fs[i]] := List.take_succ_eq_append_getElem i.isLt
      rw [htake, List.find?_append, ← h n, List.find?_singleton]
      by_cases hn : n = fs[i].name
      · rw [hn, hfound, AList.lookup_insert, if_pos (beq_self_eq_true _)]
        rfl
      · rw [AList.lookup_insert_ne hn, if_neg (by simpa using Ne.symm hn), Option.or_none]
  · simp only [hname, Bool.not_false, if_true]

/-- From any place on, entering the names finds the fault that the search finds there; if it finds
none, the table holds all fields in the end. -/
theorem Places.Holds.foldlM_enter {fs : List Field} (m : Nat) : ∀ {k : Nat} {ps : Places fs},
    k + m = fs.length → ps.Holds k →
    match firstDefect? (fs.take k) (fs.drop k) with
    | some e => ((List.finRange fs.length).drop k).foldlM (Places.enter fs) ps = .error e
    | none => ∃ ps', ((List.finRange fs.length).drop k).foldlM (Places.enter fs) ps = .ok ps' ∧
        ps'.Holds fs.length := by
  -- on the number of places that are left; the table holds the fields in front of them
  induction m with
  | zero =>
    rintro k ps hk h
    obtain rfl : k = fs.length := hk
    have hend : (List.finRange fs.length).drop fs.length = [] := by simp
    rw [List.drop_length, hend]
    exact ⟨ps, rfl, h⟩
  | succ m ih =>
    intro k ps hk h
    have hlt : k < fs.length := by omega
    have hplace : (List.finRange fs.length).drop k =
        ⟨k, hlt⟩ :: (List.finRange fs.length).drop (k + 1) := by
      rw [List.drop_eq_getElem_cons (by simpa using hlt)]
      simp
    have henter := Places.Holds.enter (i := ⟨k, hlt⟩) h
    have htake : fs.take k ++ [fs[k]] = fs.take (k + 1) :=
      (List.take_succ_eq_append_getElem hlt).symm
    rw [hplace, List.drop_eq_getElem_cons hlt, firstDefect?, htake, List.foldlM_cons]
    simp only [Fin.getElem_fin] at henter
    cases hdefect : defect? (fs.take k) fs[k] with
    | some e =>
      rw [hdefect] at henter
      rw [henter]
      rfl
    | none =>
      rw [hdefect] at henter
      obtain ⟨ps', hps', hholds⟩ := henter
      rw [hps']
      exact ih (by omega) hholds

/-- **A table of places finds the faults that the search finds, and the same fields.** -/
theorem alike_places (fs : List Field) :
    Alike (fun ps s => s.fields = fs ∧ ∀ n, (ps.lookup n).map fs.get = s.get? n)
      (places fs) (ofFields fs) := by
  have hempty : (∅ : Places fs).Holds 0 := by intro n; simp
  have hrun := hempty.foldlM_enter fs.length (Nat.zero_add _)
  simp only [List.take_zero, List.drop_zero] at hrun
  rw [ofFields, places]
  split
  · rename_i e he
    rw [he] at hrun
    rw [hrun]
    exact .error e
  · rename_i hnone
    rw [hnone] at hrun
    obtain ⟨ps, hps, hholds⟩ := hrun
    rw [hps]
    refine .ok ⟨rfl, fun n => ?_⟩
    rw [hholds n, List.take_length]
    rfl

/-! ### Schemas -/

/-- **A list of fields is a schema exactly when its names are identifiers and no two are alike.**
Then the schema has these fields in this order and finds each by its name, as a table of the places
of the names does; otherwise it has the fault of the first field that has one. -/
theorem ofFields_exact (fs : List Field) :
    ((∃ s, ofFields fs = .ok s) ↔
        (∀ f ∈ fs, Text.IsName f.name.toList) ∧ (fs.map Field.name).Nodup) ∧
      (∀ s, ofFields fs = .ok s →
        s.fields = fs ∧ ∀ n f, s.get? n = some f ↔ f ∈ fs ∧ f.name = n) ∧
      (∀ e, ofFields fs = .error e ↔
        ∃ i, DefectAt fs i e ∧ ∀ j < i, ∀ e', ¬ DefectAt fs j e') ∧
      Alike (fun ps s => s.fields = fs ∧ ∀ n, (ps.lookup n).map fs.get = s.get? n)
        (places fs) (ofFields fs) := by
  refine ⟨⟨?_, ?_⟩, ?_, fun e => ofFields_eq_error_iff_defectAt, alike_places fs⟩
  · rintro ⟨s, hs⟩
    obtain rfl := ofFields_eq_ok_iff.1 hs
    exact ⟨fun f hf => Text.isIdentifier_iff.1 (s.named f hf), s.distinct⟩
  · rintro ⟨hnamed, hdistinct⟩
    exact ⟨⟨fs, fun f hf => Text.isIdentifier_iff.2 (hnamed f hf), hdistinct⟩,
      ofFields_eq_ok_iff.2 rfl⟩
  · intro s hs
    obtain rfl := ofFields_eq_ok_iff.1 hs
    exact ⟨rfl, fun n f => get?_eq_some_iff⟩

/-- Of three defective fields the second of all four decides, and its fault names the kind of the
first; names that differ in case are not alike. -/
theorem ofFields_of_repeated_name :
    ofFields [.of "id" .text, .of "id" .number, .of " " .text, .of "2fa" .text] =
        .error (.duplicateField "id" .text .number) ∧
      ∃ s, ofFields [.of "id" .text, .of "Id" .number] = .ok s ∧
        s.get? "Id" = some (.of "Id" .number) := by
  have hname : Text.IsName "id".toList := Text.isIdentifier_iff.1 (by decide +kernel)
  constructor
  · refine ((ofFields_exact _).2.2.1 _).2 ⟨1, .repeated (f := .of "id" .number)
      (g := .of "id" .text) rfl hname Nat.zero_lt_one rfl rfl ?_, ?_⟩
    · exact fun k hk => absurd hk (Nat.not_lt_zero k)
    · intro j hj e he
      obtain rfl : j = 0 := Nat.lt_one_iff.1 hj
      have hfine : defect? [] (.of "id" .text) = none := by decide +kernel
      have hdefect := (defect?_take_eq_some_iff (i := 0) rfl).2 he
      rw [List.take_zero, hfine] at hdefect
      cases hdefect
  · have hname' : Text.IsName "Id".toList := Text.isIdentifier_iff.1 (by decide +kernel)
    obtain ⟨s, hs⟩ := (ofFields_exact [.of "id" .text, .of "Id" .number]).1.2
      ⟨by simpa [Field.of] using ⟨hname, hname'⟩, by decide⟩
    exact ⟨s, hs, (((ofFields_exact _).2.1 s hs).2 _ _).2 ⟨by simp, rfl⟩⟩

end Schema
end SearchFilter
