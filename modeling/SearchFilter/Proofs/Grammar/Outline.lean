/-
# The outline of a clause

A clause is measured as its filter is: by its leaves, and by the depth of its groups
with a field. Both measures can be read off the roles of the text that it is derived
from, without looking at the grammar (`Reads.spans`): every leaf of the clause is a
leaf of the text, groups are between parentheses that match, and no word is at fault.
-/

import SearchFilter.Proofs.Grammar.Binding
import SearchFilter.Proofs.Grammar.Lexeme
import SearchFilter.Proofs.Grammar.Soundness
import SearchFilter.Proofs.Outcome
import SearchFilter.Proofs.Tree.Measure

namespace SearchFilter
namespace Grammar

open Query

/-! ### The measures of clauses -/

namespace Clause

/-- The number of atoms in a clause. -/
def leafCount : Clause → Nat
  | leaf .. => 1
  | fieldGroup _ c => c.leafCount
  | and l r => l.leafCount + r.leafCount
  | or l r => l.leafCount + r.leafCount
  | must c => c.leafCount
  | mustNot c => c.leafCount
  | fuzzy c _ => c.leafCount
  | boost c _ => c.leafCount

/-- The greatest number of groups with a field on a path from the root. -/
def groupDepth : Clause → Nat
  | leaf .. => 0
  | fieldGroup _ c => c.groupDepth + 1
  | and l r => max l.groupDepth r.groupDepth
  | or l r => max l.groupDepth r.groupDepth
  | must c => c.groupDepth
  | mustNot c => c.groupDepth
  | fuzzy c _ => c.groupDepth
  | boost c _ => c.groupDepth

/-- Suffixes bring no leaves. -/
@[simp] theorem leafCount_suffixed (c : Clause) (fuzzy : Option (Option Nat))
    (boost : Option Double) : (c.suffixed fuzzy boost).leafCount = c.leafCount := by
  cases fuzzy <;> cases boost <;> rfl

/-- Suffixes bring no groups. -/
@[simp] theorem groupDepth_suffixed (c : Clause) (fuzzy : Option (Option Nat))
    (boost : Option Double) : (c.suffixed fuzzy boost).groupDepth = c.groupDepth := by
  cases fuzzy <;> cases boost <;> rfl

/-- Prefixes bring no leaves. -/
@[simp] theorem leafCount_prefixed (ps : List Prefix) (c : Clause) :
    (c.prefixed ps).leafCount = c.leafCount := by
  rw [prefixed]
  split
  · rfl
  · split <;> rfl

/-- Prefixes bring no groups. -/
@[simp] theorem groupDepth_prefixed (ps : List Prefix) (c : Clause) :
    (c.prefixed ps).groupDepth = c.groupDepth := by
  rw [prefixed]
  split
  · rfl
  · split <;> rfl

/-- **Binding a clause to columns keeps its measures.** -/
theorem measures_of_lower {column : Option Column} {c : Clause} {f : Filter}
    (h : c.lower column = .ok f) : f.leafCount = c.leafCount ∧ f.groupDepth = c.groupDepth := by
  rw [lower_eq_ok_iff] at h
  induction h with
  | own ha | given ha => cases ha <;> exact ⟨rfl, rfl⟩
  | bareTerm | barePhrase => exact ⟨rfl, rfl⟩
  | fieldGroup _ ih =>
    obtain ⟨h1, h2⟩ := ih
    exact ⟨h1, congrArg (· + 1) h2⟩
  | and _ _ ihl ihr | or _ _ ihl ihr =>
    obtain ⟨h1, h2⟩ := ihl
    obtain ⟨h3, h4⟩ := ihr
    simp only [Filter.leafCount, Filter.groupDepth, leafCount, groupDepth, h1, h2, h3, h4,
      and_self]
  | must _ ih | mustNot _ ih | fuzzy _ ih | boost _ ih => exact ih

end Clause

/-! ### Clauses and roles -/

/-- What the roles of its text say about a clause. -/
structure Fits (c : Clause) (ρ : List Role) : Prop where
  leaves : c.leafCount ≤ ρ.count .leaf
  level : ∀ d, Role.level d ρ = some d
  deep : ∀ d, c.groupDepth = 0 ∨ d + c.groupDepth ≤ Role.reach d ρ
  sound : Role.fault ∉ ρ

/-- The clause fits the part of a text in front of the rest. -/
def Spans (c : Clause) (s r : List Char) : Prop := ∃ ρ, roles s = ρ ++ roles r ∧ Fits c ρ

/-- Clauses of the same measures fit the same roles. -/
theorem Fits.of_eq {c d : Clause} {ρ : List Role} (h : Fits c ρ) (hl : d.leafCount = c.leafCount)
    (hd : d.groupDepth = c.groupDepth) : Fits d ρ :=
  ⟨hl ▸ h.leaves, h.level, hd ▸ h.deep, h.sound⟩

/-- Two clauses that are joined. -/
theorem Fits.append {c d e : Clause} {ρ σ : List Role} (hc : Fits c ρ) (hd : Fits d σ)
    (hl : e.leafCount = c.leafCount + d.leafCount)
    (hg : e.groupDepth = max c.groupDepth d.groupDepth) : Fits e (ρ ++ σ) where
  leaves := by
    have h₁ := hc.leaves
    have h₂ := hd.leaves
    rw [hl, List.count_append]
    omega
  level n := by rw [Role.level_append, hc.level]; exact hd.level n
  deep n := by
    rw [Role.reach_append (hc.level n), hg]
    have h₁ := hc.deep n
    have h₂ := hd.deep n
    omega
  sound := by simp [hc.sound, hd.sound]

/-- A clause between parentheses, with at most one leaf behind them. -/
theorem Fits.group {c : Clause} {ρ τ : List Role} (h : Fits c ρ) (hτ : τ = [] ∨ τ = [.leaf]) :
    Fits c (.opening :: (ρ ++ .closing :: τ)) where
  leaves := by
    have := h.leaves
    rcases hτ with rfl | rfl <;> simp [List.count_append] <;> omega
  level d := by
    rw [Role.level_opening, Role.level_append, h.level]
    rcases hτ with rfl | rfl <;> simp
  deep d := by
    rw [Role.reach, Role.reach_append (h.level (d + 1))]
    have := h.deep (d + 1)
    omega
  sound := by rcases hτ with rfl | rfl <;> simp [h.sound]

/-- A field with a clause between parentheses. -/
theorem Fits.fieldGroup {c : Clause} {ρ τ : List Role} (h : Fits c ρ)
    (hτ : τ = [] ∨ τ = [.leaf]) (field : List Char) :
    Fits (.fieldGroup field c) (.name :: .opening :: (ρ ++ .closing :: τ)) where
  leaves := by simpa [Clause.leafCount] using (h.group hτ).leaves
  level d := by rw [Role.level_name, (h.group hτ).level]
  deep d := by
    rw [Role.reach, Role.reach, Role.reach_append (h.level (d + 1)), Clause.groupDepth]
    have := h.deep (d + 1)
    omega
  sound := by simpa using (h.group hτ).sound

/-! ### Derivations -/

/-- Two clauses that are joined span the texts of both. -/
theorem Spans.append {c d e : Clause} {s m r : List Char} (hc : Spans c s m) (hd : Spans d m r)
    (hl : e.leafCount = c.leafCount + d.leafCount)
    (hg : e.groupDepth = max c.groupDepth d.groupDepth) : Spans e s r := by
  obtain ⟨ρ, hρ, hc⟩ := hc
  obtain ⟨σ, hσ, hd⟩ := hd
  exact ⟨ρ ++ σ, by rw [hρ, hσ, List.append_assoc], hc.append hd hl hg⟩

/-- The inside of a group, up to its closing parenthesis, and what follows. -/
theorem Spans.group_roles {c : Clause} {fuzzy : Option (Option Nat)} {boost : Option Double}
    {s z r : List Char} (h : Spans c s (')' :: (z ++ r))) (hz : SuffixText fuzzy boost z)
    (hr : AtBoundary r) : ∃ ρ τ, (τ = [] ∨ τ = [.leaf]) ∧ Fits c ρ ∧
      roles s = ρ ++ .closing :: τ ++ roles r := by
  obtain ⟨ρ, hρ, hfits⟩ := h
  rw [roles_closing] at hρ
  rcases roles_suffix hz hr with hz | hz
  · exact ⟨ρ, [], .inl rfl, hfits, by rw [hρ, hz]; simp⟩
  · exact ⟨ρ, [.leaf], .inr rfl, hfits, by rw [hρ, hz]; simp⟩

/-- A keyword can stand in front of a character that is no delimiter. -/
theorem starts_of_not_delimiter {c : Char} (h : isDelimiter c = false) (t : List Char) :
    Starts (c :: t) := by
  refine ⟨c, t, rfl, ?_, fun hd => absurd hd (by simp [h])⟩
  rintro rfl
  exact absurd h (by decide)

/-- A keyword can stand in front of a term. -/
theorem IsTerm.starts {u : List Char} (h : IsTerm u) (r : List Char) : Starts (u ++ r) := by
  obtain ⟨hne, hspan⟩ := h
  fun_cases spanTerm u with
  | case1 => exact absurd rfl hne
  | case2 c t => exact ⟨'\\', c :: t ++ r, rfl, by simp, fun _ => .inl rfl⟩
  | case3 c t hpair hb => rw [spanTerm, if_pos hb] at hspan; cases hspan; exact hpair
  | case4 c t hpair hb =>
    rw [Bool.not_eq_true, Bool.or_eq_false_iff] at hb
    exact starts_of_not_delimiter hb.2 _

/-- A keyword can stand in front of an atom. -/
theorem LeafText.starts {field : Option (List Char)} {a : Atom} {u : List Char}
    (h : LeafText field a u) (r : List Char) : Starts (u ++ r) := by
  have opened {c : Char} {v : List Char} (hc : opensHere .bare c = true) : Starts (c :: v) := by
    refine ⟨c, v, rfl, ?_, fun _ => .inr (.inr hc)⟩
    rintro rfl
    exact absurd hc (by decide)
  cases h with
  | @fielded field u a hf ha =>
    rw [List.append_assoc]
    exact hf.isTerm.starts _
  | term hu => exact hu.starts r
  | phrase ha =>
    obtain ⟨c, v, rfl, hc⟩ := ha.opens (.inl ⟨_, rfl⟩)
    exact opened hc
  | range ha =>
    obtain ⟨c, v, rfl, hc⟩ := ha.opens (.inr ⟨_, _, _, rfl⟩)
    exact opened hc

/-- A keyword can stand in front of a sign. -/
theorem starts_of_isSign {c : Char} (h : isSign c = true) (t : List Char) : Starts (c :: t) := by
  rcases isSign_iff.1 h with rfl | rfl | rfl <;> exact starts_of_not_delimiter (by decide) t

/-- A keyword can stand in front of prefixes, if it can in front of what they stand before. -/
theorem Signs.starts {ps : List Prefix} {s r : List Char} (h : Signs ps s r) (hr : Starts r) :
    Starts s := by
  induction h with
  | nil s => exact hr
  | blank hb => exact starts_of_not_delimiter (isDelimiter_of_isBlank hb) _
  | sign hc => exact starts_of_isSign hc _
  | word hk => exact hk.term.starts _

/-- A clause starts with nothing that could not stand behind a keyword. -/
theorem Reads.starts {c : Clause} {s r : List Char} (h : Reads c s r) : Starts s := by
  induction h with
  | leaf hu => exact hu.starts _
  | group => exact ⟨'(', _, rfl, by simp, fun _ => .inr (.inl rfl)⟩
  | fieldGroup hf => exact hf.isTerm.starts _
  | prefixed hps _ ih => exact hps.starts ih
  | before hb => exact starts_of_not_delimiter (isDelimiter_of_isBlank hb) _
  | behind _ _ ih => exact ih
  | beside _ _ ih | and _ _ _ ih | or _ _ _ ih => exact ih

/-- A keyword of the grammar is an operator. -/
theorem IsKeyword.isOperator {word symbol : String} {k : List Char}
    (hmem : (word, symbol) ∈ [("AND", "&&"), ("OR", "||"), ("NOT", "!")])
    (h : IsKeyword word symbol k) : isOperator k = true := by
  simp only [List.mem_cons, List.not_mem_nil, or_false, Prod.mk.injEq] at hmem
  rcases hmem with ⟨rfl, rfl⟩ | ⟨rfl, rfl⟩ | ⟨rfl, rfl⟩ <;> rcases h.same with h | rfl <;>
    simp_all [Query.isOperator]

/-- Prefixes play no role. -/
theorem Signs.roles {ps : List Prefix} {s r : List Char} (h : Signs ps s r) (hr : Starts r) :
    roles s = roles r := by
  induction h with
  | nil s => rfl
  | blank hb _ ih => rw [roles_blank hb, ih hr]
  | sign hc _ _ ih => rw [roles_sign hc, ih hr]
  | word hk hspan hps ih =>
    rw [roles_keyword (hk.isOperator (by simp)) hk.term hspan (hps.starts hr), ih hr]

/-- Blanks play no role. -/
theorem roles_of_allBlank {b : List Char} (h : Text.allBlank b = true) (s : List Char) :
    roles (b ++ s) = roles s := by
  induction b with
  | nil => rfl
  | cons c b ih =>
    simp only [Text.allBlank, List.all_cons, Bool.and_eq_true] at h
    rw [List.cons_append, roles_blank h.1, ih h.2]

/-- A text has its roles behind the blanks in front of it. -/
theorem roles_skipBlank (s : List Char) : roles (Text.skipBlank s) = roles s := by
  obtain ⟨b, hb, hs⟩ := exists_blank_append s
  have h := roles_of_allBlank hb (Text.skipBlank s)
  rw [← hs] at h
  exact h.symm

/-- A keyword plays no role, with the blanks around it. -/
theorem Joins.roles {word symbol : String} {s r : List Char}
    (hmem : (word, symbol) ∈ [("AND", "&&"), ("OR", "||"), ("NOT", "!")])
    (h : Joins word symbol s r) (hr : Starts r) : roles s = roles r := by
  obtain ⟨hb₁, hk, hspan, hb₂⟩ := h
  rw [roles_of_allBlank hb₁, roles_keyword (hk.isOperator hmem) hk.term hspan, roles_of_allBlank hb₂]
  rename_i b₁ b₂ k
  cases b₂ with
  | nil => exact hr
  | cons b b₂ =>
    simp only [Text.allBlank, List.all_cons, Bool.and_eq_true] at hb₂
    exact starts_of_not_delimiter (isDelimiter_of_isBlank hb₂.1) _

/-- **A clause fits the text that it is derived from.** -/
theorem Reads.spans {c : Clause} {s r : List Char} (h : Reads c s r) : Spans c s r := by
  induction h with
  | leaf hu hz hr =>
    refine ⟨[.leaf], by rw [roles_leaf hu hz hr]; rfl, ?_, fun d => by simp, ?_, by simp⟩
    · simp [Clause.leafCount]
    · simp [Clause.groupDepth]
  | group _ hz hr ih =>
    obtain ⟨ρ, τ, hτ, hfits, hroles⟩ := ih.group_roles hz hr
    refine ⟨.opening :: (ρ ++ .closing :: τ), by rw [roles_opening, hroles]; rfl, ?_⟩
    exact (hfits.group hτ).of_eq (by simp) (by simp)
  | @fieldGroup field c _ _ _ _ _ hf _ hz hr ih =>
    obtain ⟨ρ, τ, hτ, hfits, hroles⟩ := ih.group_roles hz hr
    refine ⟨.name :: .opening :: (ρ ++ .closing :: τ),
      by rw [roles_fieldGroup hf, hroles]; rfl, ?_⟩
    exact (hfits.fieldGroup hτ field).of_eq (by simp) (by simp)
  | prefixed hps hc ih =>
    obtain ⟨ρ, hρ, hfits⟩ := ih
    exact ⟨ρ, by rw [hps.roles hc.starts, hρ], hfits.of_eq (by simp) (by simp)⟩
  | before hb _ ih =>
    obtain ⟨ρ, hρ, hfits⟩ := ih
    exact ⟨ρ, by rw [roles_blank hb, hρ], hfits⟩
  | behind hb _ ih =>
    obtain ⟨ρ, hρ, hfits⟩ := ih
    exact ⟨ρ, by rw [hρ, roles_blank hb], hfits⟩
  | beside _ _ ihc ihd => exact ihc.append ihd rfl rfl
  | and _ hj hd ihc ihd =>
    obtain ⟨σ, hσ, hfits⟩ := ihd
    exact ihc.append ⟨σ, by rw [hj.roles (by simp) hd.starts, hσ], hfits⟩ rfl rfl
  | or _ hj hd ihc ihd =>
    obtain ⟨σ, hσ, hfits⟩ := ihd
    exact ihc.append ⟨σ, by rw [hj.roles (by simp) hd.starts, hσ], hfits⟩ rfl rfl

/-! ### Derived texts are finished -/

/-- What stands in front of the rest of a text leaves nothing open. -/
def Closes (s r : List Char) : Prop := ∃ u, s = u ++ r ∧ IsFinished u

/-- A text up to itself leaves nothing open. -/
theorem Closes.refl (s : List Char) : Closes s s := ⟨[], rfl, rfl⟩

/-- A finished text in front leaves nothing open. -/
theorem Closes.append {u s r : List Char} (hu : IsFinished u) (h : Closes s r) :
    Closes (u ++ s) r := by
  obtain ⟨v, rfl, hv⟩ := h
  refine ⟨u ++ v, by rw [List.append_assoc], ?_⟩
  rw [IsFinished] at hu hv ⊢
  rw [Place.after_append, hu, hv]

/-- A character that leads nowhere leaves nothing open in front. -/
theorem Closes.cons {c : Char} {s r : List Char} (hc : Place.bare.next c = .bare)
    (h : Closes s r) : Closes (c :: s) r := h.append (u := [c]) hc

/-- Texts that leave nothing open do so one after the other. -/
theorem Closes.trans {s m r : List Char} (h : Closes s m) (hm : Closes m r) : Closes s r := by
  obtain ⟨u, rfl, hu⟩ := h
  exact hm.append hu

/-- Blanks leave nothing open. -/
theorem closes_of_allBlank {b : List Char} (h : Text.allBlank b = true) (s : List Char) :
    Closes (b ++ s) s := by
  induction b with
  | nil => exact .refl s
  | cons c b ih =>
    simp only [Text.allBlank, List.all_cons, Bool.and_eq_true] at h
    exact (ih h.2).cons (next_of_isBlank h.1)

/-- Prefixes leave nothing open. -/
theorem Signs.closes {ps : List Prefix} {s r : List Char} (h : Signs ps s r) : Closes s r := by
  induction h with
  | nil s => exact .refl s
  | blank hb _ ih => exact ih.cons (next_of_isBlank hb)
  | sign hc _ _ ih => exact ih.cons (next_of_isSign hc)
  | word hk _ _ ih => exact ih.append (hk.term.passes .bare).after

/-- A keyword leaves nothing open, with the blanks around it. -/
theorem Joins.closes {word symbol : String} {s r : List Char} (h : Joins word symbol s r) :
    Closes s r := by
  obtain ⟨hb₁, hk, hspan, hb₂⟩ := h
  exact (closes_of_allBlank hb₁ _).trans
    ((closes_of_allBlank hb₂ _).append (hk.term.passes .bare).after)

/-- Suffixes leave nothing open. -/
theorem SuffixText.closes {fuzzy : Option (Option Nat)} {boost : Option Double} {z : List Char}
    (h : SuffixText fuzzy boost z) (r : List Char) : Closes (z ++ r) r :=
  (Closes.refl r).append (h.passes .bare).after

/-- **A clause leaves nothing open** in the text that it is derived from. -/
theorem Reads.closes {c : Clause} {s r : List Char} (h : Reads c s r) : Closes s r := by
  induction h with
  | leaf hu hz =>
    obtain ⟨n, hn⟩ := hu.passes
    exact (hz.closes _).append hn.after
  | group _ hz _ ih => exact (ih.trans ((hz.closes _).cons rfl)).cons rfl
  | fieldGroup hf _ hz _ ih =>
    have h := ((ih.trans ((hz.closes _).cons rfl)).cons (c := '(') rfl).append hf.passes_colon.after
    simpa using h
  | prefixed hps _ ih => exact hps.closes.trans ih
  | before hb _ ih => exact ih.cons (next_of_isBlank hb)
  | behind hb _ ih => exact ih.trans ((Closes.refl _).cons (next_of_isBlank hb))
  | beside _ _ ihc ihd => exact ihc.trans ihd
  | and _ hj _ ihc ihd | or _ hj _ ihc ihd => exact ihc.trans (hj.closes.trans ihd)

/-! ### Accepted texts -/

/-- A text that is accepted, as a filter or as none, leaves nothing open, closes all its
parentheses, and has no word at fault. -/
theorem accepted_of_filter? {column : Option Column} {text : String} {f : Option Filter}
    (h : filter? column text = .ok f) :
    IsFinished text.toList ∧ Role.level 0 (roles text.toList) = some 0 ∧
      Role.fault ∉ roles text.toList := by
  rw [filter?] at h
  split at h
  · rename_i hblank
    have hroles := roles_of_allBlank hblank []
    obtain ⟨u, hu, hfinished⟩ := closes_of_allBlank hblank []
    rw [List.append_nil] at hroles hu
    rw [List.append_nil] at hu
    rw [hroles, hu]
    exact ⟨hfinished, by simp, by simp⟩
  · cases hc : clause? text.toList with
    | error p => rw [hc] at h; cases h
    | ok c =>
      have hreads := reads_of_clause? hc
      obtain ⟨ρ, hρ, hfits⟩ := hreads.spans
      obtain ⟨u, hu, hfinished⟩ := hreads.closes
      rw [roles_nil, List.append_nil] at hρ
      rw [List.append_nil] at hu
      rw [hρ, hu]
      exact ⟨hfinished, hfits.level 0, hfits.sound⟩

/-- A filter is the clause of its text, bound to columns. -/
theorem exists_clause_of_filter? {column : Option Column} {text : String} {f : Filter}
    (h : filter? column text = .ok (some f)) :
    ∃ c, clause? text.toList = .ok c ∧ c.lower column = .ok f := by
  rw [filter?] at h
  split at h
  · cases h
  · cases hc : clause? text.toList with
    | error p => rw [hc] at h; cases h
    | ok c =>
      cases hl : c.lower column with
      | error u => rw [hc] at h; simp only [hl] at h; cases h
      | ok g =>
        rw [hc] at h
        simp only [hl] at h
        cases h
        exact ⟨c, rfl, hl⟩

/-- The clause of a text that is not blank, bound to columns, is its filter. -/
theorem filter?_of_clause? {column : Option Column} {text : String} {c : Clause} {f : Filter}
    (htext : Text.allBlank text.toList = false) (hc : clause? text.toList = .ok c)
    (hf : c.lower column = .ok f) : filter? column text = .ok (some f) := by
  rw [filter?, htext, if_neg (by decide), hc]
  simp only [hf]

/-- **The measures of a filter are within the roles of its text.** -/
theorem measures_of_filter? {column : Option Column} {text : String} {f : Filter}
    (h : filter? column text = .ok (some f)) :
    f.leafCount ≤ (roles text.toList).count .leaf ∧
      f.groupDepth ≤ Role.reach 0 (roles text.toList) := by
  obtain ⟨c, hc, hl⟩ := exists_clause_of_filter? h
  obtain ⟨ρ, hρ, hfits⟩ := (reads_of_clause? hc).spans
  rw [roles_nil, List.append_nil] at hρ
  obtain ⟨hleaves, hdepth⟩ := Clause.measures_of_lower hl
  rw [hρ, hleaves, hdepth]
  have := hfits.deep 0
  exact ⟨hfits.leaves, by omega⟩

end Grammar
end SearchFilter
