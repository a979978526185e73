import Stencil.Proofs.Markers
import Mathlib.Data.List.TakeWhile

/-! White space control on a text in two parts. What it does to the second part does not depend on
the first one but for the line and the tag that end it. -/
namespace Stencil

namespace Text

lemma isWhite_of_isIndent {c : Char} (h : isIndent c = true) : isWhite c = true := by
  simp only [isIndent, Bool.or_eq_true, beq_iff_eq] at h
  rcases h with rfl | rfl <;> decide

lemma lines_append {a : Text} (ha : '\n' ∉ a) (s : Text) :
    lines (a ++ s) = (lines s).modifyHead (a ++ ·) := by
  induction a with
  | nil =>
    cases h : lines s <;> simp [h]
  | cons c a ih =>
    simp only [List.mem_cons, not_or] at ha
    have hc : (c == '\n') = false := by simpa using Ne.symm ha.1
    have hcons := List.splitOn_cons_eq_if_modifyHead (a := '\n') c (a ++ s)
    rw [hc] at hcons
    change lines (c :: (a ++ s)) = (lines (a ++ s)).modifyHead (List.cons c) at hcons
    rw [List.cons_append, hcons, ih ha.2, List.modifyHead_modifyHead]
    rfl

lemma unlines_append (a line : Text) (rest : List Text) :
    unlines ((a ++ line) :: rest) = a ++ unlines (line :: rest) := by
  cases rest with
  | nil => simp [unlines]
  | cons next rest => simp [unlines, List.intercalate_cons_cons]

end Text

namespace Whitespace

namespace Mark

lemma trimAfter_append (s : Text) (l : List Mark) :
    trimAfter .full (s.map .char ++ l) = s.map .char ++ trimAfter .full l := by
  induction s with
  | nil => rfl
  | cons c s ih =>
    rw [List.map_cons, List.cons_append, trimAfter, ih] <;> simp

lemma trimBefore_append {s : Text} {c : Char} (hc : Text.isIndent c = false) (l : List Mark) :
    trimBefore ((s ++ [c]).map .char ++ l) = (s ++ [c]).map .char ++ trimBefore l := by
  induction s with
  | nil => simp [trimBefore, hc]
  | cons a s ih =>
    have hstart : startsWithOpener ((s ++ [c]).map .char ++ trimBefore l) = false := by
      cases s <;> rfl
    rw [List.cons_append, List.map_cons, List.cons_append, trimBefore, ih, hstart, Bool.and_false]
    rfl

end Mark

/-- A text without markers that ends with no indentation keeps the markers behind it apart. -/
lemma applyMarkers_append {a s : Text} {c : Char} (ha : a = s ++ [c])
    (hc : Text.isIndent c = false)
    (hscan : ∀ rest, Mark.scan (a ++ rest) = a.map .char ++ Mark.scan rest) (rest : Text) :
    applyMarkers (a ++ rest) = a ++ applyMarkers rest := by
  rw [applyMarkers, hscan, Mark.trimAfter_append]
  subst ha
  rw [Mark.trimBefore_append hc, List.flatMap_append, Mark.flatMap_text_map_char]
  rfl

lemma exists_stripIndent (line : Text) :
    ∃ w : Text, (∀ c ∈ w, Text.isIndent c = true) ∧ line = w ++ stripIndent line := by
  unfold stripIndent
  split
  · refine ⟨line.takeWhile Text.isIndent, fun c hc => List.mem_takeWhile_imp hc, by simp⟩
  · exact ⟨[], by simp, rfl⟩

/-- Behind a text on the same line an indentation is not stripped. -/
lemma stripIndents_append {a : Text} (hstart : ∀ c ∈ a.head?, Text.isIndent c = false)
    (hne : a ≠ []) (hline : '\n' ∉ a) (s : Text) :
    ∃ w : Text, (∀ c ∈ w, Text.isIndent c = true) ∧
      stripIndents (a ++ s) = a ++ w ++ stripIndents s := by
  obtain ⟨first, others, hs⟩ := List.exists_cons_of_ne_nil (List.splitOn_ne_nil '\n' s)
  change Text.lines s = first :: others at hs
  obtain ⟨w, hw, hfirst⟩ := exists_stripIndent first
  refine ⟨w, hw, ?_⟩
  have hkeep : stripIndent (a ++ first) = a ++ first := by
    cases a with
    | nil => exact absurd rfl hne
    | cons c a =>
      have hc : Text.isIndent c = false := hstart c rfl
      simp [stripIndent, hc]
  rw [stripIndents, Text.lines_append hline, hs, List.modifyHead_cons, List.map_cons, hkeep,
    stripIndents, hs, List.map_cons, Text.unlines_append]
  conv_lhs => rw [hfirst, Text.unlines_append]
  rw [List.append_assoc]

lemma trimBreaksFrom_append {s : Text} (h : '%' ∉ s) (rest : Text) :
    trimBreaksFrom false (s ++ rest) = s ++ trimBreaksFrom false rest := by
  induction s with
  | nil => rfl
  | cons c s ih =>
    simp only [List.mem_cons, not_or] at h
    rw [List.cons_append, trimBreaksFrom, ih h.2]
    · rfl
    · rintro t rfl
      exact absurd rfl h.1

lemma trimBreaksFrom_controlTag (inner : Text) (h : '%' ∉ inner) (rest : Text) :
    trimBreaksFrom false (writeTag .control inner ++ rest) =
      writeTag .control inner ++ trimBreaksFrom (breakFollows rest) rest := by
  have hinner : '%' ∉ ' ' :: inner ++ [' '] := by simp [h]
  have happ : writeTag .control inner ++ rest =
      '{' :: '%' :: ((' ' :: inner ++ [' ']) ++ '%' :: '}' :: rest) := by
    simp [writeTag, Delimiter.openChar, Delimiter.closeChar]
  have hopen (s : Text) : trimBreaksFrom false ('{' :: '%' :: ' ' :: s) =
      '{' :: '%' :: trimBreaksFrom false (' ' :: s) := by
    simp [trimBreaksFrom]
  rw [happ]
  change trimBreaksFrom false ('{' :: '%' :: ' ' :: ((inner ++ [' ']) ++ '%' :: '}' :: rest)) = _
  rw [hopen]
  change '{' :: '%' :: trimBreaksFrom false ((' ' :: inner ++ [' ']) ++ '%' :: '}' :: rest) = _
  rw [trimBreaksFrom_append hinner, trimBreaksFrom]
  simp [writeTag, Delimiter.openChar, Delimiter.closeChar]

lemma mem_of_dropWhile_indent {w : Text} (hw : ∀ c ∈ w, Text.isIndent c = true) (s : Text) :
    (w ++ s).dropWhile Text.isIndent = s.dropWhile Text.isIndent := by
  rw [List.dropWhile_append, List.dropWhile_eq_nil_iff.mpr hw]
  rfl

lemma breakFollows_append {w : Text} (hw : ∀ c ∈ w, Text.isIndent c = true) (s : Text) :
    breakFollows (w ++ s) = breakFollows s := by
  rw [breakFollows, breakFollows, mem_of_dropWhile_indent hw]

/-- Up to the line break everything goes. -/
lemma trimBreaksFrom_true {s : Text} (h : '\n' ∉ s) (rest : Text) :
    trimBreaksFrom true (s ++ '\n' :: rest) = trimBreaks rest := by
  induction s with
  | nil => rfl
  | cons c s ih =>
    simp only [List.mem_cons, not_or] at h
    have hc : (c != '\n') = true := by simpa using Ne.symm h.1
    rw [List.cons_append, trimBreaksFrom, hc, ih h.2]

/-- A line break that follows stands behind white space. -/
lemma eq_of_breakFollows {s : Text} (h : breakFollows s = true) :
    ∃ w rest, s = w ++ '\n' :: rest ∧ '\n' ∉ w ∧ '%' ∉ w ∧ '{' ∉ w := by
  have hindent : ∀ c ∈ s.takeWhile Text.isIndent, Text.isIndent c = true :=
    fun c hc => List.mem_takeWhile_imp hc
  have hnot {c : Char} (hc : Text.isIndent c = false) : c ∉ s.takeWhile Text.isIndent := by
    intro hmem
    rw [hindent c hmem] at hc
    cases hc
  have hs := List.takeWhile_append_dropWhile (p := Text.isIndent) (l := s)
  unfold breakFollows at h
  split at h
  · rename_i rest hrest
    rw [hrest] at hs
    exact ⟨_, rest, hs.symm, hnot (by decide), hnot (by decide), hnot (by decide)⟩
  · rename_i rest hrest
    rw [hrest] at hs
    refine ⟨s.takeWhile Text.isIndent ++ ['\r'], rest, by simpa using hs.symm, ?_, ?_, ?_⟩ <;>
      simp [hnot (c := '\n') (by decide), hnot (c := '%') (by decide),
        hnot (c := '{') (by decide)]
  · cases h

/-- The line break behind a control tag goes, or else nothing does; without the tag it stays. -/
lemma exists_trimBreaks {w : Text} (hw : ∀ c ∈ w, Text.isIndent c = true) (s : Text) :
    ∃ lost kept z : Text, '{' ∉ lost ∧ '{' ∉ kept ∧ trimBreaks s = lost ++ z ∧
      trimBreaksFrom (breakFollows (w ++ s)) (w ++ s) = kept ++ z := by
  have hnot {c : Char} (hc : Text.isIndent c = false) : c ∉ w := by
    intro hmem
    rw [hw c hmem] at hc
    cases hc
  rw [breakFollows_append hw]
  cases hb : breakFollows s with
  | false =>
    exact ⟨[], w, trimBreaks s, by simp, hnot (by decide), rfl,
      trimBreaksFrom_append (hnot (by decide)) s⟩
  | true =>
    obtain ⟨v, rest, rfl, hline, hpercent, hbrace⟩ := eq_of_breakFollows hb
    refine ⟨v ++ ['\n'], [], trimBreaks rest, by simpa using hbrace, by simp, ?_, ?_⟩
    · have := trimBreaksFrom_append (s := v ++ ['\n']) (by simpa using hpercent) rest
      simpa [trimBreaks] using this
    · rw [← List.append_assoc, trimBreaksFrom_true]
      · rfl
      · simp [hnot (c := '\n') (by decide), hline]

end Whitespace

end Stencil
