import Stencil.Proofs.Hole.Whitespace
import Stencil.Proofs.Spacing
import Stencil.BlockTable

/-! Dedenting a filled list takes away characters of the list only. -/
namespace Stencil

def dropBreakSymbol : List Symbol → List Symbol
  | .char '\n' :: l => l
  | l => l

lemma mem_of_mem_dropBreakSymbol {l : List Symbol} {y : Symbol} (h : y ∈ dropBreakSymbol l) :
    y ∈ l := by
  unfold dropBreakSymbol at h
  split at h
  · exact List.mem_cons_of_mem _ h
  · exact h

/-- A list ends with white characters behind a part that ends with none. -/
lemma exists_trailing (l : List Symbol) :
    ∃ (core : List Symbol) (t : Text), l = core ++ t.map .char ∧
      (∀ c ∈ t, Text.isWhite c = true) ∧ ∀ y ∈ core.getLast?, isWhiteSymbol y = false := by
  induction l using List.reverseRecOn with
  | nil => exact ⟨[], [], rfl, by simp, by simp⟩
  | append_singleton l y ih =>
    cases hy : isWhiteSymbol y with
    | false => exact ⟨l ++ [y], [], by simp, by simp, by simpa using hy⟩
    | true =>
      obtain ⟨core, t, rfl, ht, hcore⟩ := ih
      cases y with
      | tag => cases hy
      | char c =>
        refine ⟨core, t ++ [c], by simp, fun d hd => ?_, hcore⟩
        rcases List.mem_append.mp hd with hd | hd
        · exact ht d hd
        · rw [List.mem_singleton.mp hd]
          exact hy

def indentOf (line : List Symbol) : ℕ := (line.takeWhile isIndentSymbol).length

/-- The common indentation of the lines of a list. -/
def commonIndentOf? (lines : List (List Symbol)) : Option ℕ :=
  ((lines.filter fun line => !line.all isWhiteSymbol).map indentOf).min?

lemma drop_fillText (w : Text) {n : ℕ} {line : List Symbol}
    (h : ∀ y ∈ line.take n, ∃ c, y = .char c) :
    (fillText w line).drop n = fillText w (line.drop n) := by
  induction n generalizing line with
  | zero => rfl
  | succ n ih =>
    cases line with
    | nil => rfl
    | cons y line =>
      obtain ⟨c, rfl⟩ := h y (by simp)
      rw [fillText_char, List.drop_succ_cons, List.drop_succ_cons]
      exact ih fun z hz => h z (by simp [hz])

/-- Only characters stand where the common indentation is taken away. -/
lemma exists_char_of_take {lines : List (List Symbol)} {width : ℕ}
    (hwidth : commonIndentOf? lines = some width) {line : List Symbol} (hline : line ∈ lines) :
    ∀ y ∈ line.take width, ∃ c, y = .char c := by
  intro y hy
  cases hblank : line.all isWhiteSymbol with
  | true =>
    have hwhite := List.all_eq_true.mp hblank y (List.mem_of_mem_take hy)
    cases y with
    | char c => exact ⟨c, rfl⟩
    | tag => cases hwhite
  | false =>
    have hle : width ≤ indentOf line := by
      apply (List.min?_eq_some_iff.mp hwidth).2
      exact List.mem_map.mpr ⟨line, List.mem_filter.mpr ⟨hline, by simp [hblank]⟩, rfl⟩
    have hstart : line.take width <+: line.takeWhile isIndentSymbol := by
      have htake : line.takeWhile isIndentSymbol <+: line := List.takeWhile_prefix _
      exact List.prefix_of_prefix_length_le (List.take_prefix _ _) htake
        ((List.length_take_le _ _).trans hle)
    have hindent := List.mem_takeWhile_imp (hstart.subset hy)
    cases y with
    | char c => exact ⟨c, rfl⟩
    | tag => cases hindent

section
variable {options : WhitespaceOptions} (hon : options ≠ .disabled) {w : Text}
  (hw : Inert options w)
include hon hw

lemma dropLeadingBreak_fillText {l : List Symbol} (hl : ∀ y ∈ l, Sealed options y) :
    Whitespace.dropLeadingBreak (fillText w l) = fillText w (dropBreakSymbol l) := by
  unfold Whitespace.dropLeadingBreak
  split
  · rename_i heq
    obtain ⟨tail, rfl, rfl⟩ := eq_char_of_head? hon hw hl (by decide) heq
    rfl
  · rename_i hno
    unfold dropBreakSymbol
    split
    · rename_i rest
      exact absurd (fillText_char w '\n' rest) (hno _)
    · rfl

lemma getLast?_fillText {core : List Symbol} (hl : ∀ y ∈ core, Sealed options y)
    (hlast : ∀ y ∈ core.getLast?, isWhiteSymbol y = false) :
    ∀ c ∈ (fillText w core).getLast?, Text.isWhite c = false := by
  rcases List.eq_nil_or_concat core with rfl | ⟨init, y, rfl⟩
  · simp
  · rw [List.concat_eq_append] at hl hlast ⊢
    have hy : Sealed options y := hl y (by simp)
    have hwhite : isWhiteSymbol y = false := hlast y (by simp)
    rw [fillText_append]
    rcases hy with rfl | ⟨c, rfl, -, -⟩ | htag
    · obtain ⟨hne, -, htrim⟩ := hw.solid hon
      have hhole : fillText w [hole] = w := by simp
      rw [hhole]
      intro c hc
      rw [List.getLast?_append, List.getLast?_eq_getLast_of_ne_nil hne] at hc
      apply htrim.2
      rw [List.getLast?_eq_getLast_of_ne_nil hne]
      simpa using hc
    · simpa [isWhiteSymbol] using hwhite
    · obtain ⟨d, content, -, htext⟩ := htag.text_eq
      have hend : (y.text ++ fillText w []).getLast? = some '}' := by
        rw [htext, fillText_nil, List.append_nil, List.getLast?_append]
        rfl
      rw [fillText_of_ne w htag.ne_hole, List.getLast?_append, hend]
      rintro c ⟨rfl⟩
      decide

lemma dropTrailingBlank_fillText {core : List Symbol} {t : Text}
    (hl : ∀ y ∈ core, Sealed options y) (ht : ∀ c ∈ t, Text.isWhite c = true)
    (hlast : ∀ y ∈ core.getLast?, isWhiteSymbol y = false) :
    Whitespace.dropTrailingBlank (fillText w (core ++ t.map .char)) =
      fillText w (core ++ (t.takeWhile (· != '\n')).map .char) := by
  have hend := getLast?_fillText hon hw hl hlast
  rw [Whitespace.dropTrailingBlank, fillText_append, fillText_append, fillText_map_char,
    fillText_map_char, Text.trimEnd_append hend ht, List.drop_left]

lemma isBlank_fillText {line : List Symbol} (hl : ∀ y ∈ line, Sealed options y) :
    Text.isBlank (fillText w line) = line.all isWhiteSymbol := by
  induction line with
  | nil => rfl
  | cons y line ih =>
    have hrest := ih fun z hz => hl z (List.mem_cons_of_mem y hz)
    rcases hl y List.mem_cons_self with rfl | ⟨c, rfl, -, -⟩ | htag
    · obtain ⟨a, s, hfill, ha⟩ := exists_fillText_hole hon hw line
      rw [List.all_cons, show isWhiteSymbol hole = false from rfl, Bool.false_and, hfill]
      simp [Text.isBlank, ha]
    · rw [fillText_char, Text.isBlank, List.all_cons, List.all_cons, ← Text.isBlank, hrest]
      rfl
    · obtain ⟨d, content, hy, htext⟩ := htag.text_eq
      rw [fillText_of_ne w htag.ne_hole, htext, List.all_cons,
        show isWhiteSymbol y = false by rw [hy]; rfl, Bool.false_and]
      rfl

lemma indentWidth_fillText {line : List Symbol} (hl : ∀ y ∈ line, Sealed options y) :
    Whitespace.indentWidth (fillText w line) = indentOf line := by
  induction line with
  | nil => rfl
  | cons y line ih =>
    have hrest := ih fun z hz => hl z (List.mem_cons_of_mem y hz)
    rcases hl y List.mem_cons_self with rfl | ⟨c, rfl, -, -⟩ | htag
    · obtain ⟨a, s, hfill, ha⟩ := exists_fillText_hole hon hw line
      have hindent : Text.isIndent a = false := by
        rw [← Bool.not_eq_true] at ha ⊢
        exact fun h => ha (Text.isWhite_of_isIndent h)
      rw [show indentOf (hole :: line) = 0 from rfl, Whitespace.indentWidth, hfill]
      simp [hindent]
    · rw [fillText_char, Whitespace.indentWidth, indentOf, List.takeWhile_cons,
        List.takeWhile_cons]
      by_cases hc : Text.isIndent c = true
      · rw [if_pos hc, if_pos (by exact hc), List.length_cons, List.length_cons]
        rw [Whitespace.indentWidth, indentOf] at hrest
        rw [hrest]
      · rw [if_neg hc, if_neg (by exact hc)]
        rfl
    · obtain ⟨d, content, hy, htext⟩ := htag.text_eq
      rw [fillText_of_ne w htag.ne_hole, htext, hy]
      rfl

lemma commonIndent?_fillText {lines : List (List Symbol)}
    (hl : ∀ line ∈ lines, ∀ y ∈ line, Sealed options y) :
    Whitespace.commonIndent? (lines.map (fillText w)) = commonIndentOf? lines := by
  have hlist : ((lines.map (fillText w)).filter fun line => !Text.isBlank line).map
        Whitespace.indentWidth =
      (lines.filter fun line => !line.all isWhiteSymbol).map indentOf := by
    induction lines with
    | nil => rfl
    | cons line lines ih =>
      have hrest := ih fun m hm => hl m (List.mem_cons_of_mem line hm)
      have hline := hl line List.mem_cons_self
      rw [List.map_cons, List.filter_cons, List.filter_cons, isBlank_fillText hon hw hline]
      split
      · rw [List.map_cons, List.map_cons, hrest, indentWidth_fillText hon hw hline]
      · exact hrest
  rw [Whitespace.commonIndent?, hlist, commonIndentOf?]

end

/-- What is left when the line break in front and the blank lines at the end are dropped. -/
lemma exists_unpadded {options : WhitespaceOptions} (hon : options ≠ .disabled)
    {l : List Symbol} (hl : ∀ y ∈ l, Sealed options y) :
    ∃ m, (∀ y ∈ m, y ∈ l) ∧ ∀ w, Inert options w →
      Whitespace.dropTrailingBlank (Whitespace.dropLeadingBreak (fillText w l)) =
        fillText w m := by
  obtain ⟨core, t, hcore, ht, hlast⟩ := exists_trailing (dropBreakSymbol l)
  refine ⟨core ++ (t.takeWhile (· != '\n')).map .char, fun y hy => ?_, fun w hw => ?_⟩
  · apply mem_of_mem_dropBreakSymbol
    rw [hcore]
    rcases List.mem_append.mp hy with hy | hy
    · exact List.mem_append_left _ hy
    · obtain ⟨c, hc, rfl⟩ := List.mem_map.mp hy
      exact List.mem_append_right _
        (List.mem_map.mpr ⟨c, (List.takeWhile_prefix _).subset hc, rfl⟩)
  · rw [dropLeadingBreak_fillText hon hw hl, hcore]
    refine dropTrailingBlank_fillText hon hw (fun y hy => ?_) ht hlast
    apply hl y (mem_of_mem_dropBreakSymbol _)
    rw [hcore]
    exact List.mem_append_left _ hy

/-- Dedenting a filled list. -/
lemma exists_dedentIf {options : WhitespaceOptions} {l : List Symbol}
    (hl : ∀ y ∈ l, Sealed options y) :
    ∃ m, (∀ y ∈ m, y ∈ l ∨ y = .char '\n') ∧
      ∀ w, Inert options w → dedentIf options.dedentBlocks (fillText w l) = fillText w m := by
  cases hdedent : options.dedentBlocks with
  | false => exact ⟨l, fun y hy => .inl hy, fun _ _ => rfl⟩
  | true =>
    have hon : options ≠ .disabled := by
      rintro rfl
      cases hdedent
    obtain ⟨m, hm, heq⟩ := exists_unpadded hon hl
    have hparts : ∀ part ∈ m.splitOn (.char '\n'), ∀ y ∈ part, y ∈ l :=
      fun part hpart y hy => hm y (mem_of_mem_splitOn hpart hy)
    have hsealed : ∀ part ∈ m.splitOn (.char '\n'), ∀ y ∈ part, Sealed options y :=
      fun part hpart y hy => hl y (hparts part hpart y hy)
    have hlines (w : Text) (hw : Inert options w) : Text.lines (Whitespace.dropTrailingBlank
        (Whitespace.dropLeadingBreak (fillText w l))) =
          (m.splitOn (.char '\n')).map (fillText w) := by
      rw [heq w hw, lines_fillText hon hw fun y hy => hl y (hm y hy)]
    cases hwidth : commonIndentOf? (m.splitOn (.char '\n')) with
    | none =>
      refine ⟨l, fun y hy => .inl hy, fun w hw => ?_⟩
      rw [dedentIf, if_pos rfl, Whitespace.dedent]
      simp only [hlines w hw, commonIndent?_fillText hon hw hsealed, hwidth]
    | some width =>
      refine ⟨[.char '\n'].intercalate ((m.splitOn (.char '\n')).map (·.drop width)),
        fun y hy => ?_, fun w hw => ?_⟩
      · rcases mem_intercalate hy with rfl | ⟨line, hline, hy⟩
        · exact .inr rfl
        · obtain ⟨part, hpart, rfl⟩ := List.mem_map.mp hline
          exact .inl (hparts part hpart y (List.mem_of_mem_drop hy))
      · rw [dedentIf, if_pos rfl, Whitespace.dedent]
        simp only [hlines w hw, commonIndent?_fillText hon hw hsealed, hwidth]
        rw [← unlines_map_fillText, List.map_map, List.map_map]
        congr 1
        refine List.map_congr_left fun part hpart => ?_
        exact drop_fillText w (exists_char_of_take hwidth hpart)

end Stencil
