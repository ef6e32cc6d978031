/-
# Parts with blanks beside their point

A part of a field is named with a point, as in `m.s:v`. Where blanks stand beside the point the
text still has a reference, and it is refused for its blanks. But references are looked up after
the query has been expanded, and then the words in front of the point may have been spread:

| query | implicit fields | expanded text | |
| --- | --- | --- | --- |
| `m . s:v` | none | `m . s:v` | a reference with blanks |
| `m .s:v` | `f` | `f:*m* .s:v` | no query |
| `m. s:v` | `f` | `f:*m.* s:v` | a query, if `s` is a field |
| `m . s:v` | `f` | `f:*m* f:*.* s:v` | a query, if `s` is a field |

So such a query passes where there are implicit fields, blanks behind the point and a field with
the name of the part, and nowhere else (`filter?_spaced_part`).
-/

import SearchFilter.Proofs.Compiler.Refusal
import SearchFilter.Proofs.Grammar.Pattern
import SearchFilter.Proofs.Query.Mention

namespace SearchFilter

open Grammar
open Query (AtBoundary Emits IsFinished Place Reference Token afterColon? checkReferences citations
  citations_copies citations_field citations_opens citations_skip classify copies expandToken
  isOperator isOvert isSign opensReference)

/-! ### Characters of names and values -/

/-- Name characters can stand in simple values. -/
theorem isBody_of_isNamePart {c : Char} (h : Text.isNamePart c = true) : isBody c = true := by
  have hnot := not_delimiter_of_isNamePart h
  have hne {d : Char} (hd : Text.isNamePart d = false) : c ≠ d := by
    rintro rfl
    rw [hd] at h
    cases h
  rw [isBody, Bool.eq_false_iff.2 hnot]
  simp [hne (d := '*') (by decide), hne (d := '?') (by decide)]

/-- What is not a delimiter hides nothing. -/
theorem isOvert_of_not_delimiter {c : Char} (h : isDelimiter c = false) : isOvert c = true := by
  rw [isOvert, Bool.not_eq_true', List.contains_eq_mem, decide_eq_false_iff_not]
  intro hmem
  have hdelimiter : ∀ d ∈ ['\\', '"', '[', '\x7b', ']', '\x7d'], isDelimiter d = true :=
    List.all_eq_true.1 (by decide)
  rw [hdelimiter c hmem] at h
  cases h

/-- The characters of simple values hide nothing. -/
theorem isOvert_of_isBody {c : Char} (h : isBody c = true) : isOvert c = true := by
  simp only [isBody, Bool.not_eq_true', Bool.or_eq_false_iff] at h
  exact isOvert_of_not_delimiter h.1.1.2

/-- Blanks hide nothing. -/
theorem isOvert_of_isBlank {c : Char} (h : Text.isBlank c = true) : isOvert c = true :=
  isOvert_of_not_delimiter (isDelimiter_of_isBlank h)

/-- Neither a name nor a simple value, nor stars around them, opens a reference. -/
theorem not_opensReference {c : Char} (h : isBody c = true) (hsign : isSign c = false) :
    opensReference c = false := by
  have hnot := not_delimiter_of_isBody h
  rw [Bool.not_eq_true, Bool.or_eq_false_iff] at hnot
  have hparen : c ≠ '(' := ne_of_isBody h (by decide)
  simp only [isSign, Bool.or_eq_false_iff, beq_eq_false_iff_ne] at hsign
  simp [opensReference, hnot.1, hparen, hsign]

/-! ### Words in front of the point -/

/-- A word that is spread or is an operator: characters of a body that are no signs. -/
structure IsWordBody (w : List Char) : Prop where
  ne_nil : w ≠ []
  all : ∀ c ∈ w, isBody c = true
  unsigned : ∀ c ∈ w, isSign c = false

section
variable {w r : List Char}

/-- An identifier is a word that is spread or is an operator. -/
theorem isWordBody_of_isIdentifier {name : List Char} (h : Text.isIdentifier name = true) :
    IsWordBody name where
  ne_nil := Text.isIdentifier_ne_nil h
  all _ hc := isBody_of_isNamePart (Text.isNamePart_of_mem h hc)
  unsigned _ hc := isSign_of_isNamePart (Text.isNamePart_of_mem h hc)

/-- So is a point. -/
theorem isWordBody_point : IsWordBody ['.'] :=
  ⟨by simp, List.forall_mem_singleton.2 (by decide), List.forall_mem_singleton.2 (by decide)⟩

/-- Two such words side by side are one. -/
theorem IsWordBody.append (h : IsWordBody w) (hr : IsWordBody r) : IsWordBody (w ++ r) where
  ne_nil := by simp [h.ne_nil]
  all := List.forall_mem_append.2 ⟨h.all, hr.all⟩
  unsigned := List.forall_mem_append.2 ⟨h.unsigned, hr.unsigned⟩

/-- Such a word is a term. -/
theorem IsWordBody.isTerm (h : IsWordBody w) : IsTerm w := isTerm_of_body h.ne_nil h.all

/-- Such a word is spread, unless it is an operator. -/
theorem IsWordBody.isPlayed (h : IsWordBody w) (hfree : isReserved w = false) : IsPlayed w :=
  isPlayed_word h.isTerm hfree fun c hc => h.unsigned c (List.mem_of_mem_head? hc)

/-- A word that is no operator becomes its copies. -/
theorem IsWordBody.emits (h : IsWordBody w) (hfree : isReserved w = false)
    (fields : List (List Char)) : Emits fields false w (copies fields ('*' :: (w ++ ['*']))) := by
  have hemit := emits_body (g := []) (by simp) (h.isPlayed hfree) h.all fields
  rwa [List.nil_append, Query.splitSign_of_isPlayed (h.isPlayed hfree), List.nil_append] at hemit

/-- An operator stays as it is; in both cases nothing is left open. -/
theorem IsWordBody.exists_emits (h : IsWordBody w) {fields : List (List Char)}
    (hfields : ∀ f ∈ fields, FieldText f) : ∃ e, Emits fields false w e ∧ IsFinished e := by
  cases hop : isReserved w with
  | false =>
    refine ⟨_, h.emits hop fields, Query.isFinished_copies ?_ hfields⟩
    cases writesAtom_starred h.all with
    | term hterm => exact (hterm.passes .bare).after
  | true =>
    have hkind (r : List Char) : classify w r = .operator := by
      rw [classify, isOperator, ← isReserved, hop]
      rfl
    have hemit : Emits fields false w (expandToken fields false ⟨.operator, w⟩) :=
      Query.emits_word (h.isTerm.passes .bare) h.ne_nil hkind rfl
    rw [Query.expandToken_of_not_isSpread rfl] at hemit
    exact ⟨w, hemit, (h.isTerm.passes .bare).after⟩

/-- A word with a colon behind its name stays as it is. -/
theorem IsWordBody.emits_fielded {t v : List Char} (ht : IsWordBody t) (hv : IsTerm v)
    (fields : List (List Char)) : Emits fields false (t ++ ':' :: v) (t ++ ':' :: v) := by
  have hcolon : afterColon? true (t ++ ':' :: v) = some v := by
    rw [ht.isTerm.afterColon?_append, afterColon?]
    · simp
    · simp
  have hop : isOperator (t ++ ':' :: v) = false :=
    isOperator_eq_false_of_mem (c := ':') (by simp) (by decide)
  have hlone : ¬ (t ++ ':' :: v = ['+'] ∨ t ++ ':' :: v = ['-']) := by
    have hmem : ':' ∈ t ++ ':' :: v := by simp
    rintro (h | h) <;> rw [h] at hmem <;> exact absurd hmem (by decide)
  have hkind (r : List Char) : classify (t ++ ':' :: v) r = .fielded := by
    rw [classify, hop, if_neg (by decide), if_neg hlone, hcolon]
    simp [hv.ne_nil]
  have hpass := (ht.isTerm.passes .bare).append
    ((Query.passes_plain (c := ':') (by decide) .bare).append (hv.passes .bare))
  have hemit : Emits fields false (t ++ ':' :: v) (expandToken fields false ⟨.fielded, t ++ ':' :: v⟩) :=
    Query.emits_word hpass (by simp) hkind rfl
  rwa [Query.expandToken_of_not_isSpread rfl] at hemit

end

namespace Compiler

variable {k : Compiler} {q : String} {base part v w₁ w₂ : List Char}

/-! ### Refusals -/

/-- A field that stands behind finished text is looked up. -/
theorem check_of_filter? {f : Option Filter} {e t : List Char} (h : k.filter? q = .ok f)
    (hq : (k.expand q).toList = e ++ ' ' :: (t ++ ':' :: v)) (he : IsFinished e)
    (ht : IsWordBody t) (hv : ∀ c ∈ v, isBody c = true) :
    FieldText t ∧ (columnOf t).check k.schema = .ok () := by
  have hpassed := passed_of_filter? h
  cases f with
  | none =>
    -- a text with a colon is not blank, and has a filter
    have hgrammar := hpassed.grammar
    rw [Grammar.filter?] at hgrammar
    split at hgrammar
    · rename_i hblank
      have hmem : ':' ∈ (k.expand q).toList := by simp [hq]
      exact absurd (Text.allBlank_iff.1 hblank _ hmem) (by decide)
    · split at hgrammar
      · cases hgrammar
      · split at hgrammar <;> cases hgrammar
  | some f =>
    obtain ⟨c, hclause, hlower⟩ := exists_clause_of_filter? hpassed.grammar
    obtain ⟨w, opened, hshown, hcites, -⟩ := (reads_of_clause? hclause).quotes true (.inl rfl)
    have htail : Place.bare.shown (' ' :: (t ++ ':' :: v)) = ' ' :: (t ++ ':' :: v) := by
      refine Query.shown_of_overt fun c hc => ?_
      simp only [List.mem_cons, List.mem_append] at hc
      rcases hc with rfl | hc | rfl | hc
      · decide
      · exact isOvert_of_isBody (ht.all c hc)
      · decide
      · exact isOvert_of_isBody (hv c hc)
    rw [hq, Place.shown_append, he, htail, Place.shown_nil, List.append_nil] at hshown
    obtain ⟨hfield, hmem⟩ := hcites.mem_of_append hshown.symm (by decide) fun c hc =>
      ⟨not_opensReference (ht.all c hc) (ht.unsigned c hc), ne_of_isBody (ht.all c hc) (by decide)⟩
    refine ⟨hfield, Schema.check_of_checkFields ?_ t hmem⟩
    rw [← Schema.checkColumns_of_lower hlower fun _ => Schema.check_defaultField]
    exact hpassed.columns f rfl

/-- The words in front of the point, and the point, leave nothing open. -/
theorem exists_emits_pointed (hbase : Text.isIdentifier base = true)
    (hw₁ : Text.allBlank w₁ = true) {fields : List (List Char)} (hfields : ∀ f ∈ fields, FieldText f) :
    ∃ e, Emits fields false (base ++ (w₁ ++ ['.'])) e ∧ IsFinished e := by
  have hword := isWordBody_of_isIdentifier hbase
  by_cases hnil : w₁ = []
  · rw [hnil, List.nil_append]
    exact (hword.append isWordBody_point).exists_emits hfields
  · obtain ⟨e, he, hfinished⟩ := hword.exists_emits hfields
    obtain ⟨d, hd, hfinished'⟩ := isWordBody_point.exists_emits hfields
    refine ⟨e ++ ' ' :: d, he.apart hw₁ hnil hd, ?_⟩
    rw [Query.isFinished_append hfinished, Query.isFinished_cons rfl]
    exact hfinished'

section
variable (hbase : Text.isIdentifier base = true) (hpart : Text.isIdentifier part = true)
  (hv : IsSimple v) (hw₁ : Text.allBlank w₁ = true) (hw₂ : Text.allBlank w₂ = true)
  (hq : q.toList = base ++ (w₁ ++ '.' :: (w₂ ++ (part ++ ':' :: v))))
include hbase hpart hv hw₁ hw₂ hq

/-- In the query itself there is a reference with blanks in it. -/
theorem checkReferences_spaced (hne : w₁ ≠ [] ∨ w₂ ≠ []) :
    k.checkReferences q = k.schema.refuse
      (String.ofList (base ++ (w₁ ++ '.' :: (w₂ ++ part)))) .whitespace := by
  have hname {name : List Char} (h : Text.isIdentifier name = true) :
      ∀ c ∈ name, isOvert c = true := fun c hc =>
    isOvert_of_isBody ((isWordBody_of_isIdentifier h).all c hc)
  have hblank {w : List Char} (h : Text.allBlank w = true) : ∀ c ∈ w, isOvert c = true :=
    fun c hc => isOvert_of_isBlank (Text.allBlank_iff.1 h c hc)
  have hovert : ∀ c ∈ q.toList, isOvert c = true := by
    rw [hq]
    intro c hc
    simp only [List.mem_append, List.mem_cons] at hc
    rcases hc with hc | hc | rfl | hc | hc | rfl | hc
    · exact hname hbase c hc
    · exact hblank hw₁ c hc
    · decide
    · exact hblank hw₂ c hc
    · exact hname hpart c hc
    · decide
    · exact isOvert_of_isBody (isBody_of_isSimple (hv.all c hc))
  have hany : (w₁ ++ '.' :: (w₂ ++ part)).any Text.isBlank = true := by
    rw [List.any_eq_true]
    rcases hne with hne | hne
    · obtain ⟨c, w₁, rfl⟩ := List.exists_cons_of_ne_nil hne
      exact ⟨c, by simp, Text.allBlank_iff.1 hw₁ c (by simp)⟩
    · obtain ⟨c, w₂, rfl⟩ := List.exists_cons_of_ne_nil hne
      exact ⟨c, by simp, Text.allBlank_iff.1 hw₂ c (by simp)⟩
  rw [checkReferences, Query.checkReferences_of_overt _ hovert, hq,
    Query.citations_of_reference (Query.referenceAt?_spaced hbase hpart hw₁ hw₂ v)]
  have hcheck : Reference.check k.schema ⟨base, w₁ ++ '.' :: (w₂ ++ part), []⟩ =
      k.schema.refuse (String.ofList (base ++ (w₁ ++ '.' :: (w₂ ++ part)))) .whitespace := by
    rw [Reference.check, hany, List.append_nil]
    rfl
  show (Reference.check k.schema _ >>= fun _ => _) = _
  rw [hcheck]
  rfl

/-- **Such a query passes only** where words are spread, blanks stand behind the point, and the
part is named as a field. -/
theorem exists_field_of_filter?_spaced (hne : w₁ ≠ [] ∨ w₂ ≠ []) {f : Option Filter}
    (h : k.filter? q = .ok f) :
    k.schema.implicitFields ≠ [] ∧ w₂ ≠ [] ∧ ∃ g ∈ k.schema.fields, g.name.toList = part := by
  have hnames : k.implicitNames ≠ [] := fun hnil => by
    have hreferences := checkReferences_of_filter? h
    rw [expand_of_nil hnil, checkReferences_spaced hbase hpart hv hw₁ hw₂ hq hne] at hreferences
    cases hreferences
  have hbody : ∀ c ∈ v, isBody c = true := fun c hc => isBody_of_isSimple (hv.all c hc)
  have hterm := isWordBody_of_isIdentifier hpart
  have hnameTexts : ∀ f ∈ k.implicitNames, FieldText f := fun f hf => fieldText_of_mem_implicitNames hf
  by_cases hnil : w₂ = []
  · -- the last token starts with the point, and is no field
    have hw₁ne : w₁ ≠ [] := hne.resolve_right fun h => h hnil
    obtain ⟨e, he, hfinished⟩ := (isWordBody_of_isIdentifier hbase).exists_emits hnameTexts
    have htail : IsWordBody ('.' :: part) := isWordBody_point.append hterm
    have hemits := he.apart hw₁ hw₁ne (htail.emits_fielded hv.isTerm k.implicitNames)
    have hexpand : (k.expand q).toList = e ++ ' ' :: ('.' :: part ++ ':' :: v) := by
      rw [toList_expand_of_ne_nil hnames, hq, hnil]
      exact Query.expandFrom_of_emits hemits
    obtain ⟨hfield, -⟩ := check_of_filter? h hexpand hfinished htail hbody
    exact absurd (hfield.isNameStart '.' rfl) (by decide)
  · -- the last token is the part, which is looked up as a field of its own
    obtain ⟨e, he, hfinished⟩ := exists_emits_pointed hbase hw₁ hnameTexts
    have hemits := he.apart hw₂ hnil (hterm.emits_fielded hv.isTerm k.implicitNames)
    have hexpand : (k.expand q).toList = e ++ ' ' :: (part ++ ':' :: v) := by
      rw [toList_expand_of_ne_nil hnames, hq]
      have hsplit : base ++ (w₁ ++ '.' :: (w₂ ++ (part ++ ':' :: v))) =
          base ++ (w₁ ++ ['.']) ++ (w₂ ++ (part ++ ':' :: v)) := by simp
      rw [hsplit]
      exact Query.expandFrom_of_emits hemits
    obtain ⟨-, hcheck⟩ := check_of_filter? h hexpand hfinished hterm hbody
    refine ⟨fun h => hnames (implicitNames_eq_nil_iff.2 h), hnil, ?_⟩
    have hsplit := Schema.split_columnOf (Schema.not_mem_of_isIdentifier hpart)
    cases names_of_check hcheck with
    | @field g hmem hname =>
      rw [hsplit] at hname
      exact ⟨g, hmem, by rw [← (Prod.mk.inj hname).1, String.toList_ofList]⟩
    | part _ _ hname =>
      rw [hsplit] at hname
      cases (Prod.mk.inj hname).2

end

/-! ### Queries that pass -/

/-- A text that is read as a conjunction, and names in front of its colons what the clause
names. -/
structure Poses (k : Compiler) (c : Clause) (x : List Char) : Prop where
  flush : IsFlush x
  accepts : ∀ n, Accepts (clauseWithin (n + 1)) .conjunction c x
  overt : ∀ d ∈ x, isOvert d = true
  cites : ∀ r, citations true (x ++ r) = c.fields.map .to ++ citations false r
  names : ∀ f ∈ c.fields, FieldText f ∧ (columnOf f).check k.schema = .ok ()

/-- A query that is expanded to such a text passes. -/
theorem Poses.filter? {c : Clause} {f : Filter} (h : Poses k c (k.expand q).toList)
    (hsize : k.checkSize q = .ok ()) (hlower : c.lower k.defaultColumn? = .ok f) :
    k.filter? q = .ok (some f) := by
  have hclause : clause? (k.expand q).toList = .ok c := by
    obtain ⟨n, hn⟩ := h.flush.exists_length
    refine clause?_of_accepts h.flush (.conjunction (isSound_clauseWithin _) ?_)
    rw [hn]
    exact h.accepts n
  have hfields := Schema.checkFields_eq_ok fun f hf => (h.names f hf).2
  have hcites := h.cites []
  rw [List.append_nil, citations, List.append_nil] at hcites
  refine filter?_of_references hsize h.flush hclause ?_ hfields hlower
  rw [← Query.shown_of_overt h.overt] at hcites
  rw [checkReferences, Schema.checkReferences_of_citations (Query.isFinished_of_overt h.overt)
    (fun f hf => (h.names f hf).1) hcites, hfields]

/-- Such a text that is one operand. -/
structure PosesOperand (k : Compiler) (c : Clause) (x : List Char) : Prop where
  stands : Stands c x
  isOpen : ∀ r, AtBoundary r → IsOpen (x ++ r)
  overt : ∀ d ∈ x, isOvert d = true
  cites : ∀ r, citations true (x ++ r) = c.fields.map .to ++ citations false r
  names : ∀ f ∈ c.fields, FieldText f ∧ (columnOf f).check k.schema = .ok ()

section
variable {c d : Clause} {x y : List Char}

/-- Such a text is read as a factor. -/
theorem PosesOperand.accepts (h : PosesOperand k c x) (n : Nat) :
    Accepts (clauseWithin (n + 1)) .factor c x :=
  .unsigned h.stands.flush h.stands.unsigned (h.stands.accepts n)

/-- A text that is one operand is a conjunction. -/
theorem PosesOperand.poses (h : PosesOperand k c x) : Poses k c x where
  flush := h.stands.flush
  accepts n := .factor (h.accepts n)
  overt := h.overt
  cites := h.cites
  names := h.names

/-- A blank makes a conjunction of two such texts. -/
theorem Poses.beside (hx : Poses k c x) (hy : PosesOperand k d y) :
    Poses k (.and c d) (x ++ ' ' :: y) where
  flush := hx.flush.append _
  accepts n := by
    refine .beside hy.stands.flush (fun r hr => Reader.Fails.padded ?_) (hx.accepts n) (hy.accepts n)
    rw [hy.stands.flush]
    exact (hy.isOpen r hr).fails_keyword (by simp)
  overt := List.forall_mem_append.2 ⟨hx.overt, List.forall_mem_cons.2 ⟨by decide, hy.overt⟩⟩
  cites r := by
    rw [List.append_assoc, List.cons_append, hx.cites, citations_opens (by decide), hy.cites,
      Clause.fields, List.map_append, List.append_assoc]
  names := List.forall_mem_append.2 ⟨hx.names, hy.names⟩

end

/-- The characters of a field name hide nothing. -/
theorem isOvert_of_mem_field {f : List Char} (hf : FieldText f) : ∀ c ∈ f, isOvert c = true := by
  intro c hc
  rcases Query.isNamePart_of_mem_field hf hc with hc | rfl
  · exact isOvert_of_isBody (isBody_of_isNamePart hc)
  · decide

/-- The copies that a word becomes. -/
theorem posesOperand_copies {w name : List Char} {names : List (List Char)} (hw : IsWordBody w)
    (hnames : ∀ f ∈ name :: names, IsFree f ∧ (columnOf f).check k.schema = .ok ()) :
    PosesOperand k (.anyOf (.term ('*' :: (w ++ ['*']))) name names)
      (copies (name :: names) ('*' :: (w ++ ['*']))) where
  stands := stands_copies (writesAtom_starred hw.all) fun f hf => (hnames f hf).1.isNameable
  isOpen r hr := by
    cases names with
    | nil =>
      rw [Query.copies_singleton, List.append_assoc]
      exact (hnames name (by simp)).1.isOpen _
    | cons f names =>
      rw [Query.copies_eq_joined (by simp)]
      exact isOpen_opening _
  overt := by
    refine Query.forall_mem_copies (List.all_eq_true.1 (by decide))
      (fun f hf => isOvert_of_mem_field (hnames f hf).1.text) ?_
    simp only [List.forall_mem_cons, List.forall_mem_append]
    exact ⟨by decide, fun c hc => isOvert_of_isBody (hw.all c hc), by decide,
      List.forall_mem_nil _⟩
  cites r := by
    rw [fields_anyOf]
    have hcolon : ':' ∉ '*' :: (w ++ ['*']) := by
      simp only [List.mem_cons, List.mem_append, List.not_mem_nil, or_false, not_or]
      exact ⟨by decide, fun h => ne_of_isBody (hw.all _ h) (by decide) rfl, by decide⟩
    refine citations_copies (by simp) (fun f hf => (hnames f hf).1.text) hcolon ?_ r
    simp only [List.forall_mem_cons, List.forall_mem_append]
    exact ⟨by decide, fun c hc => not_opensReference (hw.all c hc) (hw.unsigned c hc), by decide,
      List.forall_mem_nil _⟩
  names := by
    rw [fields_anyOf]
    exact fun f hf => ⟨(hnames f hf).1.text, (hnames f hf).2⟩

/-- The word behind a field. -/
theorem posesOperand_field (hv : IsSimple v) {field : List Char} (hf : IsFree field)
    (hcheck : (columnOf field).check k.schema = .ok ()) :
    PosesOperand k (.leaf (some field) (.term v)) (field ++ ':' :: v) where
  stands := hv.writesAtom.stands hf.isNameable
  isOpen r hr := by
    rw [List.append_assoc]
    exact hf.isOpen _
  overt := List.forall_mem_append.2 ⟨isOvert_of_mem_field hf.text, List.forall_mem_cons.2
    ⟨by decide, fun c hc => isOvert_of_isBody (isBody_of_isSimple (hv.all c hc))⟩⟩
  cites r := by
    rw [List.append_assoc, List.cons_append, citations_field hf.text fun c hc =>
      not_opensReference (isBody_of_isSimple (hv.all c hc)) (isSign_of_isSimple (hv.all c hc))]
    rfl
  names := List.forall_mem_singleton.2 ⟨hf.text, hcheck⟩

/-- A conjunction is lowered side by side. -/
theorem lower_and {column : Option Column} {c d : Clause} {f g : Filter}
    (hc : c.lower column = .ok f) (hd : d.lower column = .ok g) :
    (Clause.and c d).lower column = .ok (.and f g) := by
  rw [Clause.lower, hc, hd]
  rfl

/-- The words in front of the point, and the point, become one or two clauses. -/
theorem exists_poses_pointed (hbase : Text.isIdentifier base = true) (hfree : isReserved base = false)
    (hw₁ : Text.allBlank w₁ = true) {name : List Char} {names : List (List Char)}
    (hnames : ∀ f ∈ name :: names, IsFree f ∧ (columnOf f).check k.schema = .ok ())
    (column : Option Column) :
    ∃ c g e, Emits (name :: names) false (base ++ (w₁ ++ ['.'])) e ∧ Poses k c e ∧
      c.lower column = .ok g := by
  have hword := isWordBody_of_isIdentifier hbase
  by_cases hnil : w₁ = []
  · have hpointed := hword.append isWordBody_point
    have hpointedFree : isReserved (base ++ ['.']) = false := by
      have hop : isOperator (base ++ ['.']) = false :=
        isOperator_eq_false_of_mem (c := '.') (by simp) (by decide)
      rw [isOperator, ← isReserved, Bool.or_eq_false_iff] at hop
      exact hop.1
    rw [hnil, List.nil_append]
    exact ⟨_, _, _, hpointed.emits hpointedFree _, (posesOperand_copies hpointed hnames).poses,
      lower_anyOf _ column⟩
  · have hpoint : isReserved ['.'] = false := by decide +kernel
    have hposes := (posesOperand_copies hword hnames).poses.beside
      (posesOperand_copies (k := k) isWordBody_point hnames)
    exact ⟨_, _, _, (hword.emits hfree _).apart hw₁ hnil (isWordBody_point.emits hpoint _),
      hposes, lower_and (lower_anyOf _ column) (lower_anyOf _ column)⟩

/-- **It does pass there,** where no field is named as an operator, and then the part is tested
as a field of its own. -/
theorem exists_filter?_spaced (hbase : Text.isIdentifier base = true) (hv : IsSimple v)
    (hw₁ : Text.allBlank w₁ = true) (hw₂ : Text.allBlank w₂ = true) (hne : w₂ ≠ [])
    (hq : q.toList = base ++ (w₁ ++ '.' :: (w₂ ++ (part ++ ':' :: v))))
    (himplicit : k.schema.implicitFields ≠ []) (hpart : ∃ g ∈ k.schema.fields, g.name.toList = part)
    (hfree : ∀ g ∈ k.schema.fields, isReserved g.name.toList = false)
    (hbaseFree : isReserved base = false) (hsize : k.checkSize q = .ok ()) :
    ∃ g, k.filter? q = .ok (some (.and g ((Atom.term v).filter (columnOf part)))) := by
  obtain ⟨field, hmem, rfl⟩ := hpart
  have hnames : k.implicitNames ≠ [] := fun h => himplicit (implicitNames_eq_nil_iff.1 h)
  obtain ⟨name, names, hcons⟩ := List.exists_cons_of_ne_nil hnames
  have hchecks : ∀ f ∈ name :: names, IsFree f ∧ (columnOf f).check k.schema = .ok () := by
    rw [← hcons]
    refine fun f hf => ⟨⟨fieldText_of_mem_implicitNames hf, ?_⟩, check_of_mem_implicitNames hf⟩
    obtain ⟨g, hg, rfl⟩ := exists_field_of_mem_implicitNames hf
    exact hfree g hg
  have hfield : IsFree field.name.toList := ⟨.plain (k.schema.named field hmem), hfree field hmem⟩
  have hcheck : (columnOf field.name.toList).check k.schema = .ok () := by
    rw [columnOf_toList]
    exact Schema.check_of_mem hmem
  obtain ⟨c, g, e, hemits, hposes, hlower⟩ :=
    exists_poses_pointed hbase hbaseFree hw₁ hchecks k.defaultColumn?
  have htail := (isWordBody_of_isIdentifier (k.schema.named field hmem)).emits_fielded hv.isTerm
    (name :: names)
  have hexpand : (k.expand q).toList = e ++ ' ' :: (field.name.toList ++ ':' :: v) := by
    have hsplit : q.toList = base ++ (w₁ ++ ['.']) ++ (w₂ ++ (field.name.toList ++ ':' :: v)) := by
      rw [hq]
      simp
    rw [toList_expand_of_ne_nil hnames, hcons, hsplit]
    exact Query.expandFrom_of_emits (hemits.apart hw₂ hne htail)
  have hlast : (Clause.leaf (some field.name.toList) (.term v)).lower k.defaultColumn? =
      .ok ((Atom.term v).filter (columnOf field.name.toList)) := rfl
  exact ⟨g, Poses.filter? (hexpand ▸ hposes.beside (posesOperand_field hv hfield hcheck)) hsize
    (lower_and hlower hlast)⟩

/-! ### The law -/

/-- **A part with blanks beside its point is refused** where there are no implicit fields, where
no blank stands behind the point, and where no field has the name of the part. Everywhere else
the query passes, as far as no name in it is an operator. -/
theorem filter?_spaced_part (hbase : Text.isIdentifier base = true)
    (hpart : Text.isIdentifier part = true) (hv : IsSimple v) (hw₁ : Text.allBlank w₁ = true)
    (hw₂ : Text.allBlank w₂ = true) (hne : w₁ ≠ [] ∨ w₂ ≠ [])
    (hq : q.toList = base ++ (w₁ ++ '.' :: (w₂ ++ (part ++ ':' :: v)))) :
    (k.schema.implicitFields = [] ∨ w₂ = [] ∨ (∀ g ∈ k.schema.fields, g.name.toList ≠ part) →
      ∃ e, k.filter? q = .error e) ∧
    (k.schema.implicitFields ≠ [] → w₂ ≠ [] → (∃ g ∈ k.schema.fields, g.name.toList = part) →
      isReserved base = false → (∀ g ∈ k.schema.fields, isReserved g.name.toList = false) →
      k.checkSize q = .ok () →
      ∃ g, k.filter? q = .ok (some (.and g ((Atom.term v).filter (columnOf part))))) := by
  constructor
  · intro hcases
    cases h : k.filter? q with
    | error e => exact ⟨e, rfl⟩
    | ok f =>
      obtain ⟨himplicit, hw₂ne, g, hg, hname⟩ :=
        exists_field_of_filter?_spaced hbase hpart hv hw₁ hw₂ hq hne h
      rcases hcases with hnone | hnil | hundeclared
      · exact absurd hnone himplicit
      · exact absurd hnil hw₂ne
      · exact absurd hname (hundeclared g hg)
  · intro himplicit hw₂ne hdeclared hbaseFree hfree hsize
    exact exists_filter?_spaced hbase hv hw₁ hw₂ hw₂ne hq himplicit hdeclared hfree hbaseFree hsize

/-- Three fields and the parts of a fourth: `m .f:a` is refused, and `m. f:a` tests `f`. -/
theorem filter?_of_spaced_point :
    let k := sample 4 ⟨100, 9, 9⟩ (by decide)
    (∃ e, k.filter? "m .f:a" = .error e) ∧
      ∃ g, k.filter? "m. f:a" = .ok (some (.and g (.equals ⟨"f"⟩ (.text "a")))) := by
  intro k
  have ha : IsSimple ['a'] := ⟨by decide, List.forall_mem_singleton.2 (by decide)⟩
  have hbefore : "m .f:a".toList = ['m'] ++ ([' '] ++ '.' :: ([] ++ (['f'] ++ ':' :: ['a']))) := rfl
  have hbehind : "m. f:a".toList = ['m'] ++ ([] ++ '.' :: ([' '] ++ (['f'] ++ ':' :: ['a']))) := rfl
  have hrefused := (filter?_spaced_part (k := k) (by decide) (by decide) ha (by decide) (by decide)
    (.inl (by decide)) hbefore).1
  have hpasses := (filter?_spaced_part (k := k) (by decide) (by decide) ha (by decide) (by decide)
    (.inr (by decide)) hbehind).2
  exact ⟨hrefused (.inr (.inl rfl)), hpasses (by decide +kernel) (by decide) (by decide +kernel)
    (by decide +kernel) (by decide +kernel) (by decide +kernel)⟩

/-- With blanks on both sides of the point the query passes as well. -/
theorem exists_filter?_spaced_part :
    let k := sample 4 ⟨100, 9, 9⟩ (by decide)
    (∃ f ∈ k.schema.fields, f.hasParts = true ∧ f.name = "m") ∧
      ∃ e, k.filter? "m . f:a" = .ok (some e) := by
  intro k
  exact ⟨by decide +kernel, exists_of_isSome_join (by decide +kernel)⟩

end Compiler

end SearchFilter
