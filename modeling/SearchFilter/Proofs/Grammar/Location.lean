/-
# Where a query is said to be wrong

The position of a refused text is a line and a column. There is exactly one place in the
text with that line and that column (`Position.Designates.unique`), and the character that
was found is the one that stands there, none at the end of the text. Only at text that is
read and then not accepted is no character given, wherever it stands
(`designates_of_filter?`).
-/

import SearchFilter.Proofs.Grammar.Diagnosis

namespace SearchFilter
namespace Grammar

/-- The position is that of the place behind `p` characters of a text: its line counts the
line feeds before that place, and its column the characters since the last of them or since
the start of the text, both from 1. -/
structure Position.Designates (pos : Position) (text : List Char) (p : Nat) : Prop where
  inside : p ≤ text.length
  line : pos.line = (text.take p).count '\n' + 1
  column : ∃ above line, text.take p = above ++ line ∧ (above = [] ∨ ∃ u, above = u ++ ['\n']) ∧
    '\n' ∉ line ∧ pos.column = line.length + 1

/-- Of two texts that end with a line feed, or are empty, one goes on with the other only by
further line feeds. -/
theorem eq_of_prefix_of_count {above above' : List Char} (h : above <+: above')
    (hcount : above.count '\n' = above'.count '\n')
    (hend : above' = [] ∨ ∃ u, above' = u ++ ['\n']) : above = above' := by
  obtain ⟨x, rfl⟩ := h
  have hx : '\n' ∉ x := by
    rw [List.count_append] at hcount
    exact List.count_eq_zero.1 (by omega)
  obtain h | ⟨u, h⟩ := hend
  · rw [(List.append_eq_nil_iff.1 h).2, List.append_nil]
  · obtain rfl | ⟨y, c, rfl⟩ := List.eq_nil_or_concat x
    · rw [List.append_nil]
    · rw [List.concat_eq_append, ← List.append_assoc] at h
      obtain rfl : c = '\n' := by simpa using (List.append_inj' h rfl).2
      exact absurd (by simp) hx

/-- **There is one place with the line and the column of a position.** -/
theorem Position.Designates.unique {pos : Position} {text : List Char} {p q : Nat}
    (hp : pos.Designates text p) (hq : pos.Designates text q) : p = q := by
  obtain ⟨hpin, hpline, a, l, hpa, haend, hl, hcol⟩ := hp
  obtain ⟨hqin, hqline, a', l', hqa, haend', hl', hcol'⟩ := hq
  have hcount : a.count '\n' = a'.count '\n' := by
    have hcount : (text.take p).count '\n' = (text.take q).count '\n' := by omega
    rwa [hpa, hqa, List.count_append, List.count_append, List.count_eq_zero.2 hl,
      List.count_eq_zero.2 hl'] at hcount
  have hprefix : a <+: text := (hpa ▸ List.prefix_append a l).trans (List.take_prefix p text)
  have hprefix' : a' <+: text := (hqa ▸ List.prefix_append a' l').trans (List.take_prefix q text)
  have habove : a = a' := by
    obtain h | h := List.prefix_or_prefix_of_prefix hprefix hprefix'
    · exact eq_of_prefix_of_count h hcount haend'
    · exact (eq_of_prefix_of_count h hcount.symm haend).symm
  have hlength := congrArg List.length hpa
  have hlength' := congrArg List.length hqa
  rw [List.length_append, List.length_take] at hlength hlength'
  rw [habove] at hlength
  omega

/-- A place is designated by the line and the column behind the text before it. -/
theorem designates_of_lineAndColumn {pos : Position} {text : List Char} {p : Nat}
    (hp : p ≤ text.length) (h : lineAndColumn (text.take p) = (pos.line, pos.column)) :
    pos.Designates text p := by
  obtain ⟨hline, hcolumn⟩ := Prod.mk.inj h
  have hsplit := List.takeWhile_append_dropWhile (p := (· != '\n')) (l := (text.take p).reverse)
  refine ⟨hp, hline.symm, ((text.take p).reverse.dropWhile (· != '\n')).reverse,
    ((text.take p).reverse.takeWhile (· != '\n')).reverse, ?_, ?_, ?_, ?_⟩
  · rw [← List.reverse_append, hsplit, List.reverse_reverse]
  · have hhead := List.head?_dropWhile_not (· != '\n') (text.take p).reverse
    cases hdrop : (text.take p).reverse.dropWhile (· != '\n') with
    | nil => exact .inl rfl
    | cons c u =>
      obtain rfl : c = '\n' := by simpa [hdrop] using hhead
      exact .inr ⟨u.reverse, List.reverse_cons⟩
  · intro h
    have hall := List.all_eq_true.1 (List.all_takeWhile ..) _ (List.mem_reverse.1 h)
    simp at hall
  · rw [← hcolumn, List.length_reverse]

/-- A note of a text is placed where it stands. -/
theorem designates_positionOf {text : List Char} {n : Note} (h : n.rest <:+ text) :
    (positionOf text n).Designates text (text.length - n.rest.length) ∧
      text.drop (text.length - n.rest.length) = n.rest :=
  ⟨designates_of_lineAndColumn (Nat.sub_le ..) rfl, (List.suffix_iff_eq_drop.1 h).symm⟩

/-- A text is refused with a position where no clause can be read off it. -/
theorem filter?_eq_unreadable_iff {column : Option Column} {text : String} {pos : Position} :
    filter? column text = .error (.unreadable pos) ↔
      Text.allBlank text.toList = false ∧ clause? text.toList = .error pos := by
  unfold filter?
  split
  · simp_all
  · split
    · simp_all
    · split <;> simp_all

/-- **A position points into the text.** Where the grammar refuses a text, exactly one place
has the line and the column that are given, and what was found is the character there, none
exactly at the end, unless text is refused there. -/
theorem designates_of_filter? {column : Option Column} {text : String} {pos : Position}
    (h : filter? column text = .error (.unreadable pos)) :
    ∃ p, pos.Designates text.toList p ∧ (∀ q, pos.Designates text.toList q → q = p) ∧
      (pos.found = text.toList[p]? ∧ (pos.found = none ↔ p = text.toList.length) ∨
        pos.found = none ∧ Refused text.toList (text.toList.drop p)) := by
  obtain ⟨n, htells, rfl⟩ := exists_tells_of_clause? (filter?_eq_unreadable_iff.1 h).2
  obtain ⟨hdesignates, hdrop⟩ := designates_positionOf htells.rest
  refine ⟨_, hdesignates, fun q hq => hq.unique hdesignates, ?_⟩
  by_cases hcause : n.cause = .unexpected
  · have hfound : (positionOf text.toList n).found =
        text.toList[text.toList.length - n.rest.length]? := by
      rw [← List.head?_drop, hdrop]
      exact if_pos hcause
    refine .inl ⟨hfound, ?_⟩
    rw [hfound, List.getElem?_eq_none_iff]
    omega
  · rw [hdrop]
    exact .inr ⟨if_neg hcause, htells.cause.resolve_left hcause⟩

/-- A parenthesis that closes nothing, in the second line. -/
theorem designates_of_stray_parenthesis :
    filter? none "é\n f:ü)" = .error (.unreadable ⟨2, 5, some ')'⟩) ∧
      ∃ p, (⟨2, 5, some ')'⟩ : Position).Designates "é\n f:ü)".toList p ∧
        (∀ q, (⟨2, 5, some ')'⟩ : Position).Designates "é\n f:ü)".toList q → q = p) ∧
        (some ')' = "é\n f:ü)".toList[p]? ∧ (some ')' = none ↔ p = "é\n f:ü)".toList.length) ∨
          some ')' = none ∧ Refused "é\n f:ü)".toList ("é\n f:ü)".toList.drop p)) :=
  have h : filter? none "é\n f:ü)" = .error (.unreadable ⟨2, 5, some ')'⟩) :=
    filter?_eq_unreadable_iff.2 ⟨by decide, clause?_eq_error_iff.2 (by decide +kernel)⟩
  ⟨h, designates_of_filter? h⟩

/-- A bound in the place of `TO`: no character is said to be found, and one stands there. -/
theorem exists_filter?_not_found :
    ∃ pos, filter? none "[1 2]" = .error (.unreadable pos) ∧ pos.found = none ∧
      ∀ p, pos.Designates "[1 2]".toList p → "[1 2]".toList[p]? = some '2' := by
  have hclause : clause? "[1 2]".toList = .error ⟨1, 4, none⟩ :=
    clause?_eq_error_iff.2 (by decide +kernel)
  refine ⟨_, filter?_eq_unreadable_iff.2 ⟨by decide, hclause⟩, rfl, fun p hp => ?_⟩
  have hplace : (⟨1, 4, none⟩ : Position).Designates "[1 2]".toList 3 :=
    designates_of_lineAndColumn (by decide) (by decide)
  rw [hp.unique hplace]
  rfl

end Grammar
end SearchFilter
