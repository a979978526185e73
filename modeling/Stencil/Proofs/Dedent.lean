import Stencil.Proofs.Settled
import Stencil.Proofs.Spacing
import Stencil.Whitespace.Dedent
import Mathlib.Data.List.DropRight

/-! Dedenting, line by line. A text that is not blank keeps its lines but for a line break in front
and the blank lines at the end, and each of them loses as many spaces and tabs as the least
indented one has. Main statement: this is all that happens, so no other character is lost or
moved, and a text that was dedented stays as it is. -/
namespace Stencil

namespace Text

lemma isBlank_append (a b : Text) : isBlank (a ++ b) = (isBlank a && isBlank b) := List.all_append

lemma isBlank_unlines (ls : List Text) : isBlank (unlines ls) = ls.all isBlank := by
  induction ls with
  | nil => rfl
  | cons a ls ih =>
    cases ls with
    | nil => simp [unlines]
    | cons b ls =>
      have hbreak : isBlank ('\n' :: unlines (b :: ls)) = isBlank (unlines (b :: ls)) := rfl
      rw [unlines_cons_cons, isBlank_append, hbreak, ih]
      rfl

lemma isBlank_eq_all_lines (s : Text) : s.isBlank = s.lines.all isBlank := by
  rw [← isBlank_unlines, unlines_lines]

lemma unlines_cons {ls : List Text} (hne : ls ≠ []) (line : Text) :
    unlines (line :: ls) = line ++ '\n' :: unlines ls := by
  cases ls with
  | nil => exact absurd rfl hne
  | cons next ls => exact unlines_cons_cons line next ls

lemma unlines_concat_append (init : List Text) (last t : Text) :
    unlines (init ++ [last ++ t]) = unlines (init ++ [last]) ++ t := by
  induction init with
  | nil => simp [unlines]
  | cons line init ih =>
    rw [List.cons_append, List.cons_append, unlines_cons (by simp), unlines_cons (by simp), ih,
      List.append_assoc, List.cons_append]

/-- A text without a line break goes on the last line. -/
lemma exists_lines_append {t : Text} (ht : '\n' ∉ t) (s : Text) :
    ∃ init last, s.lines = init ++ [last] ∧ (s ++ t).lines = init ++ [last ++ t] := by
  have hne : s.lines ≠ [] := List.splitOn_ne_nil '\n' s
  refine ⟨_, _, (List.dropLast_append_getLast hne).symm, ?_⟩
  have htext : s ++ t = unlines (s.lines.dropLast ++ [s.lines.getLast hne ++ t]) := by
    rw [unlines_concat_append, List.dropLast_append_getLast, unlines_lines]
  rw [htext, lines_unlines (by simp)]
  intro line hline
  rcases List.mem_append.mp hline with hline | hline
  · exact not_mem_of_mem_splitOn (List.mem_of_mem_dropLast hline)
  · rw [List.mem_singleton.mp hline, List.mem_append, not_or]
    exact ⟨not_mem_of_mem_splitOn (List.getLast_mem _), ht⟩

end Text

namespace Whitespace

/-- A text that is not blank ends with white space up to a line break, and blank lines may
follow. -/
lemma exists_dropTrailingBlank {s : Text} (h : s.isBlank = false) : ∃ front last,
    dropTrailingBlank s = front ++ last ∧ last.isBlank = false ∧ '\n' ∉ last ∧
      (s = front ++ last ∨
        ∃ rest : Text, rest.isBlank = true ∧ s = front ++ last ++ '\n' :: rest) := by
  obtain ⟨b, hb⟩ := Text.exists_trimEnd_append s
  have hend : s.trimEnd ≠ [] := by
    intro hnil
    rw [hb, hnil, List.nil_append, Text.isBlank, List.all_eq_true.mpr b.white] at h
    cases h
  obtain ⟨front, c, hcore⟩ := (List.eq_nil_or_concat s.trimEnd).resolve_left hend
  rw [List.concat_eq_append] at hcore
  have hc : Text.isWhite c = false := Text.getLast?_trimEnd s c (by simp [hcore])
  have hdrop : s.drop s.trimEnd.length = b.text := by
    have hleft : (s.trimEnd ++ b.text).drop s.trimEnd.length = b.text := List.drop_left
    rwa [← hb] at hleft
  let w := b.text.takeWhile (· != '\n')
  have hs : s = front ++ c :: w ++ b.text.dropWhile (· != '\n') := by
    calc s = front ++ [c] ++ b.text := by rw [← hcore, ← hb]
      _ = front ++ [c] ++ (w ++ b.text.dropWhile (· != '\n')) := by
        rw [List.takeWhile_append_dropWhile]
      _ = _ := by simp
  refine ⟨front, c :: w, ?_, ?_, ?_, ?_⟩
  · rw [dropTrailingBlank, hdrop, hcore, List.append_assoc, List.singleton_append]
  · rw [Text.isBlank, List.all_cons, hc, Bool.false_and]
  · rw [List.mem_cons, not_or]
    refine ⟨fun hbreak => ?_, fun hmem => by simpa using List.mem_takeWhile_imp hmem⟩
    rw [← hbreak] at hc
    cases hc
  · cases hrest : b.text.dropWhile (· != '\n') with
    | nil => exact .inl (by rwa [hrest, List.append_nil] at hs)
    | cons d rest =>
      have hd : d = '\n' := by
        have := List.head?_dropWhile_not (· != '\n') b.text
        rw [hrest] at this
        simpa using this
      refine .inr ⟨rest, List.all_eq_true.mpr fun x hx => b.white x ?_, by rwa [hrest, hd] at hs⟩
      exact (List.dropWhile_suffix _).subset (hrest ▸ List.mem_cons_of_mem d hx)

/-- The blank lines at the end are dropped. -/
lemma lines_dropTrailingBlank {s : Text} (h : s.isBlank = false) :
    (dropTrailingBlank s).lines = s.lines.rdropWhile Text.isBlank := by
  obtain ⟨front, last, hkept, hlast, hbreak, hs⟩ := exists_dropTrailingBlank h
  obtain ⟨init, first, -, hlines⟩ := Text.exists_lines_append hbreak front
  have hself :
      (Text.lines (front ++ last)).rdropWhile Text.isBlank = Text.lines (front ++ last) := by
    rw [hlines, List.rdropWhile_concat_neg]
    rw [Text.isBlank_append, hlast, Bool.and_false]
    exact Bool.false_ne_true
  rw [hkept]
  obtain rfl | ⟨rest, hrest, rfl⟩ := hs
  · exact hself.symm
  · have hblank : ∀ line ∈ Text.lines rest, Text.isBlank line = true := by
      rw [Text.isBlank_eq_all_lines] at hrest
      exact List.all_eq_true.mp hrest
    have hsplit : Text.lines (front ++ last ++ '\n' :: rest) =
        Text.lines (front ++ last) ++ Text.lines rest := List.splitOn_append_cons_self _ _
    rw [hsplit, List.rdropWhile, List.reverse_append, List.dropWhile_append_of_pos,
      ← List.rdropWhile, hself]
    exact fun line hline => hblank line (List.mem_reverse.mp hline)

/-- The lines of a text without a line break in front and without the blank lines at the end. -/
def keptLines (s : Text) : List Text := (dropLeadingBreak s).lines.rdropWhile Text.isBlank

lemma dropLeadingBreak_eq_self {s : Text} (h : s.head? ≠ some '\n') : dropLeadingBreak s = s := by
  unfold dropLeadingBreak
  split
  · exact absurd rfl h
  · rfl

lemma isBlank_dropLeadingBreak (s : Text) : (dropLeadingBreak s).isBlank = s.isBlank := by
  unfold dropLeadingBreak
  split <;> rfl

lemma exists_mem_keptLines {s : Text} (h : s.isBlank = false) :
    ∃ line ∈ keptLines s, line.isBlank = false := by
  have hne : keptLines s ≠ [] := by
    intro hnil
    rw [keptLines, List.rdropWhile_eq_nil_iff] at hnil
    rw [← isBlank_dropLeadingBreak, Text.isBlank_eq_all_lines, List.all_eq_true.mpr hnil] at h
    cases h
  exact ⟨_, List.getLast_mem hne, eq_false_of_ne_true (List.rdropWhile_last_not _ _ hne)⟩

/-- The smallest indentation of the lines that are not blank. -/
lemma commonIndent?_eq_some_iff {ls : List Text} {width : ℕ} : commonIndent? ls = some width ↔
    (∃ line ∈ ls, line.isBlank = false ∧ indentWidth line = width) ∧
      ∀ line ∈ ls, line.isBlank = false → width ≤ indentWidth line := by
  have hmem {w : ℕ} : w ∈ (ls.filter fun line => !line.isBlank).map indentWidth ↔
      ∃ line ∈ ls, line.isBlank = false ∧ indentWidth line = w := by
    simp [and_assoc]
  rw [commonIndent?, List.min?_eq_some_iff, hmem]
  refine and_congr_right fun _ => ⟨fun h line hline hblank => ?_, fun h w hw => ?_⟩
  · exact h _ (hmem.mpr ⟨line, hline, hblank, rfl⟩)
  · obtain ⟨line, hline, hblank, rfl⟩ := hmem.mp hw
    exact h line hline hblank

lemma exists_commonIndent? {ls : List Text} (h : ∃ line ∈ ls, line.isBlank = false) :
    ∃ width, commonIndent? ls = some width := by
  rw [← Option.isSome_iff_exists, commonIndent?, List.isSome_min?_iff]
  simpa using h

/-- A line that is blank stays so, and one that is not loses an indentation of a given width. -/
structure Dedents (width : ℕ) (line out : Text) : Prop where
  blank : line.isBlank = true → out.isBlank = true
  indent : line.isBlank = false →
    ∃ w : Text, w.length = width ∧ (∀ c ∈ w, Text.isIndent c = true) ∧ line = w ++ out

lemma isBlank_of_isIndent {w : Text} (h : ∀ c ∈ w, Text.isIndent c = true) : w.isBlank = true :=
  List.all_eq_true.mpr fun c hc => Text.isWhite_of_isIndent (h c hc)

lemma filter_eq_nil_of_isBlank {s : Text} (h : s.isBlank = true) :
    s.filter (!Text.isWhite ·) = [] :=
  List.filter_eq_nil_iff.mpr fun c hc => by
    rw [List.all_eq_true.mp h c hc]
    exact Bool.false_ne_true

namespace Dedents
variable {width : ℕ} {line out : Text}

lemma isBlank_eq (h : Dedents width line out) : out.isBlank = line.isBlank := by
  cases hline : line.isBlank with
  | true => exact h.blank hline
  | false =>
    obtain ⟨w, -, hw, rfl⟩ := h.indent hline
    rwa [Text.isBlank_append, isBlank_of_isIndent hw, Bool.true_and] at hline

/-- Lines that are not blank keep their place relative to each other. -/
lemma indentWidth_eq (h : Dedents width line out) (hline : line.isBlank = false) :
    indentWidth line = width + indentWidth out := by
  obtain ⟨w, rfl, hw, rfl⟩ := h.indent hline
  rw [indentWidth, List.takeWhile_append_of_pos hw, List.length_append, indentWidth]

lemma filter_eq (h : Dedents width line out) :
    out.filter (!Text.isWhite ·) = line.filter (!Text.isWhite ·) := by
  cases hline : line.isBlank with
  | true => rw [filter_eq_nil_of_isBlank hline, filter_eq_nil_of_isBlank (h.blank hline)]
  | false =>
    obtain ⟨w, -, hw, rfl⟩ := h.indent hline
    rw [List.filter_append, filter_eq_nil_of_isBlank (isBlank_of_isIndent hw), List.nil_append]

end Dedents

lemma dedents_drop {ls : List Text} {width : ℕ} (h : commonIndent? ls = some width) {line : Text}
    (hline : line ∈ ls) : Dedents width line (line.drop width) := by
  refine ⟨fun hblank => ?_, fun hblank => ?_⟩
  · rw [Text.isBlank, List.all_eq_true] at hblank ⊢
    exact fun c hc => hblank c (List.mem_of_mem_drop hc)
  · have hle := (commonIndent?_eq_some_iff.mp h).2 line hline hblank
    have htake : line.take width <+: line.takeWhile Text.isIndent :=
      List.prefix_of_prefix_length_le (List.take_prefix _ _) (List.takeWhile_prefix _)
        ((List.length_take_le _ _).trans hle)
    refine ⟨line.take width, ?_, fun c hc => List.mem_takeWhile_imp (htake.subset hc),
      (List.take_append_drop width line).symm⟩
    rw [List.length_take]
    have := (List.takeWhile_prefix (l := line) Text.isIndent).length_le
    rw [indentWidth] at hle
    omega

/-- Of a text that is not blank the lines that are kept are left, without what they have in
common. -/
lemma exists_dedent_eq {s : Text} (h : s.isBlank = false) :
    ∃ width, commonIndent? (keptLines s) = some width ∧
      dedent s = Text.unlines ((keptLines s).map (·.drop width)) := by
  obtain ⟨width, hwidth⟩ := exists_commonIndent? (exists_mem_keptLines h)
  have hlines : (dropTrailingBlank (dropLeadingBreak s)).lines = keptLines s :=
    lines_dropTrailingBlank ((isBlank_dropLeadingBreak s).trans h)
  refine ⟨width, hwidth, ?_⟩
  simp only [dedent, hlines, hwidth]

lemma isBlank_dropTrailingBlank {s : Text} (h : s.isBlank = true) :
    (dropTrailingBlank s).isBlank = true := by
  obtain ⟨b, hb⟩ := Text.exists_trimEnd_append s
  have hwhite := List.all_eq_true.mp h
  refine List.all_eq_true.mpr fun c hc => hwhite c ?_
  rcases List.mem_append.mp hc with hc | hc
  · exact hb ▸ List.mem_append_left _ hc
  · exact List.mem_of_mem_drop ((List.takeWhile_prefix _).subset hc)

lemma dedent_of_isBlank {s : Text} (h : s.isBlank = true) : dedent s = s := by
  have hblank := isBlank_dropTrailingBlank ((isBlank_dropLeadingBreak s).trans h)
  have hnone : commonIndent? (dropTrailingBlank (dropLeadingBreak s)).lines = none := by
    rw [Text.isBlank_eq_all_lines, List.all_eq_true] at hblank
    rw [commonIndent?, List.min?_eq_none_iff, List.map_eq_nil_iff, List.filter_eq_nil_iff]
    exact fun line hline => by rw [hblank line hline]; exact Bool.false_ne_true
  simp only [dedent, hnone]

lemma lines_unlines_drop {s : Text} (h : keptLines s ≠ []) (width : ℕ) :
    (Text.unlines ((keptLines s).map (·.drop width))).lines = (keptLines s).map (·.drop width) := by
  refine Text.lines_unlines (List.map_eq_nil_iff.not.mpr h) fun out hout hbreak => ?_
  obtain ⟨line, hline, rfl⟩ := List.mem_map.mp hout
  have hmem := (List.rdropWhile_prefix _ (l := (dropLeadingBreak s).lines)).subset hline
  exact not_mem_of_mem_splitOn hmem (List.mem_of_mem_drop hbreak)

lemma filter_unlines {p : Char → Bool} (hp : p '\n' = false) (ls : List Text) :
    (Text.unlines ls).filter p = ls.flatMap (·.filter p) := by
  induction ls with
  | nil => rfl
  | cons a ls ih =>
    cases ls with
    | nil => simp [Text.unlines]
    | cons b ls =>
      rw [Text.unlines_cons_cons, List.filter_append, List.filter_cons_of_neg (by simp [hp]), ih]
      rfl

/-- What is not white space stands on the lines that are kept. -/
lemma filter_keptLines (s : Text) :
    (keptLines s).flatMap (·.filter (!Text.isWhite ·)) = s.filter (!Text.isWhite ·) := by
  have hbreak : (!Text.isWhite '\n') = false := rfl
  have hrest : ((dropLeadingBreak s).lines.rtakeWhile Text.isBlank).flatMap
      (·.filter (!Text.isWhite ·)) = [] := by
    refine List.flatMap_eq_nil_iff.mpr fun line hline => ?_
    have hblank : line.isBlank = true := List.mem_rtakeWhile_imp hline
    exact filter_eq_nil_of_isBlank hblank
  have hlead : (dropLeadingBreak s).filter (!Text.isWhite ·) = s.filter (!Text.isWhite ·) := by
    unfold dropLeadingBreak
    split
    · exact (List.filter_cons_of_neg (by simp [hbreak])).symm
    · rfl
  rw [← hlead, ← Text.unlines_lines (dropLeadingBreak s), filter_unlines hbreak,
    ← List.rdropWhile_append_rtakeWhile (p := Text.isBlank) (l := (dropLeadingBreak s).lines),
    List.flatMap_append, hrest, List.append_nil]
  rfl

/-- Lines that end with one that is not blank and of which one is not indented are kept as they
are. -/
lemma dedent_of_lines {s : Text} (hstart : s.head? ≠ some '\n')
    (hlast : s.lines.rdropWhile Text.isBlank = s.lines)
    (hflush : ∃ line ∈ s.lines, line.isBlank = false ∧ indentWidth line = 0) : dedent s = s := by
  have hkept : keptLines s = s.lines := by rw [keptLines, dropLeadingBreak_eq_self hstart, hlast]
  have hblank : s.isBlank = false := by
    obtain ⟨line, hline, hblank, -⟩ := hflush
    rw [Text.isBlank_eq_all_lines, List.all_eq_false]
    exact ⟨line, hline, ne_true_of_eq_false hblank⟩
  have hnone : commonIndent? s.lines = some 0 :=
    commonIndent?_eq_some_iff.mpr ⟨hflush, fun _ _ _ => Nat.zero_le _⟩
  obtain ⟨width, hwidth, hdedent⟩ := exists_dedent_eq hblank
  rw [hkept, hnone] at hwidth
  obtain rfl := Option.some.inj hwidth
  rw [hdedent, hkept]
  simp

/-- Each line that is kept and what is left of it. -/
lemma forall₂_keptLines {s : Text} {width : ℕ} {R : Text → Text → Prop} (hne : keptLines s ≠ [])
    (h : ∀ line ∈ keptLines s, R line (line.drop width)) :
    List.Forall₂ R (keptLines s) (Text.unlines ((keptLines s).map (·.drop width))).lines := by
  rw [lines_unlines_drop hne, List.forall₂_map_right_iff, List.forall₂_same]
  exact h

lemma head?_of_indentWidth {line : Text} (h : indentWidth line = 0) :
    ∀ c ∈ line.head?, Text.isIndent c = false := by
  cases line with
  | nil => simp
  | cons c line =>
    rw [indentWidth, List.length_eq_zero_iff, List.takeWhile_eq_nil_iff] at h
    rintro _ ⟨⟩
    exact eq_false_of_ne_true (h (Nat.zero_lt_succ _))

/-- What is left of the last line that is kept is not blank either. -/
lemma rdropWhile_map_keptLines {s : Text} {f : Text → Text}
    (h : ∀ line ∈ keptLines s, (f line).isBlank = line.isBlank) :
    ((keptLines s).map f).rdropWhile Text.isBlank = (keptLines s).map f := by
  refine List.rdropWhile_eq_self_iff.mpr fun hmap hblank => ?_
  have hne : keptLines s ≠ [] := fun hnil => hmap (by rw [hnil, List.map_nil])
  rw [List.getLast_map hmap, h _ (List.getLast_mem hne)] at hblank
  exact List.rdropWhile_last_not _ _ hne hblank

open Text in
/-- Dedenting takes away a line break in front, the blank lines at the end and the same number of
spaces and tabs from every line that is left and is not blank, as many as the least indented one
has. Nothing else is lost, and nothing more is found when it is done again, unless a blank line
comes first. -/
theorem dedent_lines (s : Text) :
    ((∃ line ∈ s.lines, line.isBlank = false) →
      ∃ width, List.Forall₂ (Dedents width) (keptLines s) (dedent s).lines ∧
        List.Forall₂
          (fun line out => line.isBlank = false → indentWidth line = width + indentWidth out)
          (keptLines s) (dedent s).lines ∧
        ∃ out ∈ (dedent s).lines, out.isBlank = false ∧ ∀ c ∈ out.head?, isIndent c = false) ∧
    (dedent s).filter (!isWhite ·) = s.filter (!isWhite ·) ∧
    ((∀ line ∈ s.lines, line.isBlank = true) → dedent s = s) ∧
    ((dedent s).head? ≠ some '\n' → dedent (dedent s) = dedent s) := by
  cases hblank : s.isBlank with
  | true =>
    have hself := dedent_of_isBlank hblank
    rw [isBlank_eq_all_lines, List.all_eq_true] at hblank
    refine ⟨fun ⟨line, hline, hnot⟩ => ?_, by rw [hself], fun _ => hself, fun _ => ?_⟩
    · rw [hblank line hline] at hnot
      cases hnot
    · rw [hself, hself]
  | false =>
    obtain ⟨line, hline, -⟩ := exists_mem_keptLines hblank
    have hne := List.ne_nil_of_mem hline
    obtain ⟨width, hwidth, hdedent⟩ := exists_dedent_eq hblank
    have hdrop : ∀ line ∈ keptLines s, Dedents width line (line.drop width) :=
      fun line => dedents_drop hwidth
    -- one of the least indented lines starts without an indentation
    obtain ⟨least, hleast, hnot, hleastWidth⟩ := (commonIndent?_eq_some_iff.mp hwidth).1
    have hflush : indentWidth (least.drop width) = 0 := by
      have := (hdrop least hleast).indentWidth_eq hnot
      omega
    have hlines : (dedent s).lines = (keptLines s).map (·.drop width) := by
      rw [hdedent, lines_unlines_drop hne]
    have hmem : least.drop width ∈ (dedent s).lines := hlines ▸ List.mem_map_of_mem hleast
    have hmemNot := (hdrop least hleast).isBlank_eq.trans hnot
    refine ⟨fun _ => ⟨width, ?_, ?_, _, hmem, hmemNot, head?_of_indentWidth hflush⟩, ?_,
      fun hall => ?_, fun hstart => ?_⟩
    · exact hdedent ▸ forall₂_keptLines hne hdrop
    · exact hdedent ▸ forall₂_keptLines hne fun line hline => (hdrop line hline).indentWidth_eq
    · rw [← filter_keptLines s, hdedent, filter_unlines rfl, List.flatMap_map]
      exact List.flatMap_congr fun line hline => (hdrop line hline).filter_eq
    · rw [isBlank_eq_all_lines, List.all_eq_true.mpr hall] at hblank
      cases hblank
    · refine dedent_of_lines hstart ?_ ⟨_, hmem, hmemNot, hflush⟩
      rw [hlines, rdropWhile_map_keptLines fun line hline => (hdrop line hline).isBlank_eq]

/-- One line is indented by a tab, and a blank one is shorter than the others are indented. -/
def ragged : Text := "\n  a\n \n\t  b \n   \n".toList

theorem dedent_lines_ragged :
    (∃ line ∈ ragged.lines, line.isBlank = false) ∧
      (∃ width, List.Forall₂ (Dedents width) (keptLines ragged) (dedent ragged).lines) ∧
      dedent ragged = "a\n\n b ".toList ∧ (dedent ragged).head? ≠ some '\n' ∧
      dedent (dedent ragged) = dedent ragged ∧
      (∀ line ∈ Text.lines ['\n', ' '], line.isBlank = true) ∧
      dedent ['\n', ' '] = ['\n', ' '] := by
  have hline : ∃ line ∈ ragged.lines, line.isBlank = false := ⟨"  a".toList, by decide, rfl⟩
  have hblank : ∀ line ∈ Text.lines ['\n', ' '], line.isBlank = true := by decide
  have hstart : (dedent ragged).head? ≠ some '\n' := by decide
  obtain ⟨hdedents, -, -, hagain⟩ := dedent_lines ragged
  obtain ⟨width, hwidth, -⟩ := hdedents hline
  exact ⟨hline, ⟨width, hwidth⟩, rfl, hstart, hagain hstart, hblank, (dedent_lines _).2.2.1 hblank⟩

end Whitespace
end Stencil
