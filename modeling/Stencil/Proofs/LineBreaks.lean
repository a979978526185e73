import Stencil.Proofs.Dedent
import Stencil.Proofs.Settling

/-! Line breaks with a carriage return. A text without carriage returns can be written with one
before each line break, and a stage of white space control that does not tell the two forms apart
comes to the same for both. Main statement: trim markers and the white space around control tags
are handled alike in both forms, and dedenting a text that is not blank comes to the same exactly
when no line break comes first and the last line is not blank. -/
namespace Stencil

namespace Text

def crlfChar (c : Char) : Text := if c = '\n' then ['\r', '\n'] else [c]

/-- The text with a carriage return before every line break. -/
def crlf (s : Text) : Text := s.flatMap crlfChar

/-- The text without the carriage returns that stand before a line break. -/
def uncrlf : Text → Text
  | '\r' :: '\n' :: s => '\n' :: uncrlf s
  | c :: s => c :: uncrlf s
  | [] => []

lemma crlf_break (s : Text) : crlf ('\n' :: s) = '\r' :: '\n' :: crlf s := rfl

lemma crlf_cons {c : Char} (hc : c ≠ '\n') (s : Text) : crlf (c :: s) = c :: crlf s := by
  rw [crlf, List.flatMap_cons, crlfChar, if_neg hc]
  rfl

lemma crlf_append (a b : Text) : crlf (a ++ b) = crlf a ++ crlf b := List.flatMap_append

lemma crlf_of_not_mem {s : Text} (h : '\n' ∉ s) : crlf s = s := by
  induction s with
  | nil => rfl
  | cons c s ih =>
    rw [List.mem_cons, not_or] at h
    rw [crlf_cons (Ne.symm h.1), ih h.2]

/-- A carriage return apart, the first character is that of the text as it was. -/
lemma exists_of_crlf_eq_cons {s t : Text} {c : Char} (hc : c ≠ '\r') (h : crlf s = c :: t) :
    ∃ rest, s = c :: rest ∧ t = crlf rest := by
  cases s with
  | nil => cases h
  | cons d s =>
    by_cases hd : d = '\n'
    · rw [hd, crlf_break] at h
      exact absurd (List.cons.inj h).1.symm hc
    · rw [crlf_cons hd] at h
      obtain ⟨rfl, rfl⟩ := List.cons.inj h
      exact ⟨s, rfl, rfl⟩

lemma uncrlf_cons {c : Char} (hc : c ≠ '\r') (s : Text) : uncrlf (c :: s) = c :: uncrlf s := by
  rw [uncrlf]
  rintro t rfl
  exact absurd rfl hc

lemma uncrlf_append {a : Text} (ha : '\r' ∉ a) (s : Text) : uncrlf (a ++ s) = a ++ uncrlf s := by
  induction a with
  | nil => rfl
  | cons c a ih =>
    rw [List.mem_cons, not_or] at ha
    rw [List.cons_append, uncrlf_cons (Ne.symm ha.1), ih ha.2, List.cons_append]

lemma uncrlf_crlf {s : Text} (h : '\r' ∉ s) : uncrlf (crlf s) = s := by
  induction s with
  | nil => rfl
  | cons c s ih =>
    rw [List.mem_cons, not_or] at h
    by_cases hc : c = '\n'
    · rw [hc, crlf_break, uncrlf, ih h.2]
    · rw [crlf_cons hc, uncrlf_cons (Ne.symm h.1), ih h.2]

/-- A line as it stands before a line break of the longer form. -/
def withReturn (line : Text) : Text := line ++ ['\r']

lemma crlf_unlines {init : List Text} {last : Text} (h : ∀ line ∈ init ++ [last], '\n' ∉ line) :
    crlf (unlines (init ++ [last])) = unlines (init.map withReturn ++ [last]) := by
  induction init with
  | nil => simpa [unlines] using crlf_of_not_mem (h last (by simp))
  | cons line init ih =>
    rw [List.cons_append, List.forall_mem_cons] at h
    rw [List.map_cons, List.cons_append, List.cons_append, unlines_cons (by simp),
      unlines_cons (by simp), crlf_append, crlf_break, crlf_of_not_mem h.1, ih h.2, withReturn,
      List.append_assoc, List.singleton_append]

/-- Every line but the last one ends with a carriage return. -/
lemma lines_crlf {s last : Text} {init : List Text} (h : s.lines = init ++ [last]) :
    (crlf s).lines = init.map withReturn ++ [last] := by
  have hline : ∀ line ∈ init ++ [last], '\n' ∉ line := fun line hline =>
    not_mem_of_mem_splitOn (h ▸ hline : line ∈ s.lines)
  rw [← unlines_lines s, h, crlf_unlines hline, lines_unlines (by simp)]
  intro line hmem
  rcases List.mem_append.mp hmem with hmem | hmem
  · obtain ⟨line, hinit, rfl⟩ := List.mem_map.mp hmem
    rw [withReturn, List.mem_append, not_or]
    exact ⟨hline line (List.mem_append_left _ hinit), by simp⟩
  · exact hline line (List.mem_append_right _ hmem)

end Text

namespace Whitespace
open Text

namespace Mark

/-- A mark in the longer form: only line breaks are written with two characters. -/
def crlf : Mark → List Mark
  | .char c => (crlfChar c).map .char
  | m => [m]

lemma crlf_char {c : Char} (hc : c ≠ '\n') : crlf (.char c) = [.char c] := by
  rw [crlf, crlfChar, if_neg hc]
  rfl

/-- The characters of a mark other than a line break stay together. -/
lemma crlf_written_append {m : Mark} (hm : m.isProper = true) (hbreak : m ≠ .char '\n')
    (rest : Text) : Text.crlf (m.written ++ rest) = m.written ++ Text.crlf rest := by
  rw [crlf_append, crlf_of_not_mem]
  cases m with
  | char c => simpa [written] using Ne.symm hbreak
  | opener d | closer d =>
    have hd : d ≠ '\n' := by rintro rfl; cases hm
    simpa [written] using Ne.symm hd

lemma scan_crlf (s : Text) : scan (Text.crlf s) = (scan s).flatMap crlf := by
  induction hl : scan s generalizing s with
  | nil =>
    rw [eq_nil_of_scan hl]
    rfl
  | cons m l ih =>
    obtain ⟨hm, rest, rfl, hrest⟩ := eq_written_append_of_scan hl
    rw [List.flatMap_cons, ← ih rest hrest]
    by_cases hbreak : m = .char '\n'
    · subst hbreak
      have hscan {c : Char} (hopen : c ≠ '{') (hclose : c ≠ '-') (s : Text) :
          scan (c :: s) = .char c :: scan s :=
        scan_cons (fun _ _ _ _ h => hopen h.1) (fun _ _ _ _ h => hclose h.1)
      change scan ('\r' :: '\n' :: Text.crlf rest) =
        .char '\r' :: .char '\n' :: scan (Text.crlf rest)
      rw [hscan (by decide) (by decide), hscan (by decide) (by decide)]
    · rw [crlf_written_append hm hbreak]
      cases m with
      | opener d => exact scan_opener hm _
      | closer d => exact scan_closer hm _
      | char c =>
        -- a marker in the longer form would be one in the text as it was
        have hopens {d : Char} (hd : opens d = true) : d ≠ '\r' := by rintro rfl; cases hd
        have hcloses {d : Char} (hd : closes d = true) : d ≠ '\r' := by rintro rfl; cases hd
        rw [crlf_char (mt (congrArg Mark.char) hbreak)]
        refine scan_cons ?_ ?_
        · rintro b _ t ht ⟨rfl, hb, rfl⟩
          obtain ⟨u, rfl, hu⟩ := exists_of_crlf_eq_cons (hopens hb) ht
          obtain ⟨v, rfl, -⟩ := exists_of_crlf_eq_cons (by decide) hu.symm
          cases (scan_opener hb v).symm.trans hl
        · rintro b _ t ht ⟨rfl, hb, rfl⟩
          obtain ⟨u, rfl, hu⟩ := exists_of_crlf_eq_cons (hcloses hb) ht
          obtain ⟨v, rfl, -⟩ := exists_of_crlf_eq_cons (by decide) hu.symm
          cases (scan_closer hb v).symm.trans hl

lemma not_mem_scan {s : Text} {c : Char} (h : c ∉ s) : .char c ∉ scan s := by
  intro hmem
  refine h ?_
  rw [← flatMap_written_scan s]
  exact List.mem_flatMap.mpr ⟨.char c, hmem, by simp [written]⟩

lemma isProper_of_mem_scan {s : Text} : ∀ m ∈ scan s, m.isProper = true := by
  induction hl : scan s generalizing s with
  | nil => simp
  | cons m l ih =>
    obtain ⟨hm, rest, -, hrest⟩ := eq_written_append_of_scan hl
    exact List.forall_mem_cons.mpr ⟨hm, ih hrest⟩

lemma trimAfter_crlf {l : List Mark} (hl : .char '\r' ∉ l) :
    trimAfter .full (l.flatMap crlf) = (trimAfter .full l).flatMap crlf ∧
      trimAfter .blanks (l.flatMap crlf) = (trimAfter .blanks l).flatMap crlf := by
  induction l with
  | nil => exact ⟨rfl, rfl⟩
  | cons m l ih =>
    rw [List.mem_cons, not_or] at hl
    obtain ⟨hfull, hblanks⟩ := ih hl.2
    cases m with
    | opener d | closer d => simp [trimAfter, crlf, hfull, hblanks]
    | char c =>
      have hc : c ≠ '\r' := fun h => hl.1 (congrArg _ h.symm)
      by_cases hbreak : c = '\n'
      · subst hbreak
        simp [trimAfter, crlf, crlfChar, hfull, Text.isIndent]
      · have hsingle := crlf_char hbreak
        rw [List.flatMap_cons, hsingle]
        constructor
        · simp [trimAfter, hfull, hsingle]
        · simp only [List.singleton_append, trimAfter]
          split
          · exact hblanks
          · simp [hc, hbreak, hfull, hsingle]

lemma startsWithOpener_crlf (l : List Mark) :
    startsWithOpener (l.flatMap crlf) = startsWithOpener l := by
  cases l with
  | nil => rfl
  | cons m l =>
    cases m with
    | opener d | closer d => rfl
    | char c => by_cases hc : c = '\n' <;> simp [crlf, crlfChar, hc, startsWithOpener]

lemma trimBefore_crlf (l : List Mark) :
    trimBefore (l.flatMap crlf) = (trimBefore l).flatMap crlf := by
  induction l with
  | nil => rfl
  | cons m l ih =>
    cases m with
    | opener d | closer d => simp [trimBefore, crlf, ih]
    | char c =>
      by_cases hbreak : c = '\n'
      · subst hbreak
        simp [trimBefore, crlf, crlfChar, ih, Text.isIndent]
      · have hsingle := crlf_char hbreak
        rw [List.flatMap_cons, hsingle, List.singleton_append, trimBefore, trimBefore, ih,
          startsWithOpener_crlf]
        split
        · rfl
        · rw [List.flatMap_cons, hsingle]
          rfl

lemma flatMap_text_crlf {l : List Mark} (hl : ∀ m ∈ l, m.isProper = true) :
    (l.flatMap crlf).flatMap text = Text.crlf (l.flatMap text) := by
  rw [Text.crlf, List.flatMap_assoc, List.flatMap_assoc]
  refine List.flatMap_congr fun m hm => ?_
  have hproper := hl m hm
  cases m with
  | char c => by_cases hc : c = '\n' <;> simp [crlf, crlfChar, text, hc]
  | opener d | closer d =>
    have hd : d ≠ '\n' := by rintro rfl; cases hproper
    simp [crlf, crlfChar, text, hd]

end Mark

lemma applyMarkers_crlf {s : Text} (h : '\r' ∉ s) :
    applyMarkers (crlf s) = crlf (applyMarkers s) := by
  have hproper : ∀ m ∈ Mark.trimBefore (Mark.trimAfter .full (Mark.scan s)), m.isProper = true :=
    fun m hm => Mark.isProper_of_mem_scan m
      (((Mark.trimBefore_sublist _).trans (Mark.trimAfter_sublist _ _)).subset hm)
  rw [applyMarkers, Mark.scan_crlf, (Mark.trimAfter_crlf (Mark.not_mem_scan h)).1,
    Mark.trimBefore_crlf, Mark.flatMap_text_crlf hproper, applyMarkers]

lemma dropWhile_withReturn (line : Text) :
    (withReturn line).dropWhile Text.isIndent = withReturn (line.dropWhile Text.isIndent) := by
  induction line with
  | nil => rfl
  | cons c line ih =>
    cases hc : Text.isIndent c with
    | true => simpa [withReturn, hc] using ih
    | false => simp [withReturn, hc]

lemma startsControlTag_withReturn (line : Text) :
    startsControlTag (withReturn line) = startsControlTag line := by
  match line with
  | [] => rfl
  | [c] => by_cases hc : c = '{' <;> simp [withReturn, startsControlTag, hc]
  | c :: d :: line =>
    rw [withReturn, List.cons_append, List.cons_append, startsControlTag_cons_cons,
      startsControlTag_cons_cons]

lemma stripIndent_withReturn (line : Text) :
    stripIndent (withReturn line) = withReturn (stripIndent line) := by
  rw [stripIndent, stripIndent, dropWhile_withReturn, startsControlTag_withReturn]
  split <;> rfl

lemma stripIndents_crlf (s : Text) : stripIndents (crlf s) = crlf (stripIndents s) := by
  obtain ⟨init, last, hlines, -⟩ := exists_lines_append List.not_mem_nil s
  have hstrip : ∀ line ∈ init.map stripIndent ++ [stripIndent last], '\n' ∉ line := by
    have hmap := lines_stripIndents s
    rw [hlines, List.map_append, List.map_singleton] at hmap
    rw [← hmap]
    exact fun line => not_mem_of_mem_splitOn
  rw [stripIndents, stripIndents, lines_crlf hlines, hlines, List.map_append, List.map_append,
    List.map_singleton, crlf_unlines hstrip, List.map_map, List.map_map]
  congr 2
  exact List.map_congr_left fun line _ => stripIndent_withReturn line

lemma dropWhile_crlf (s : Text) :
    (crlf s).dropWhile Text.isIndent = crlf (s.dropWhile Text.isIndent) := by
  induction s with
  | nil => rfl
  | cons c s ih =>
    by_cases hbreak : c = '\n'
    · subst hbreak
      rfl
    · cases hc : Text.isIndent c with
      | true => simpa [crlf_cons hbreak, hc] using ih
      | false => simp [crlf_cons hbreak, hc]

lemma breakFollows_crlf {s : Text} (h : '\r' ∉ s) : breakFollows (crlf s) = breakFollows s := by
  rw [breakFollows, breakFollows, dropWhile_crlf]
  have hrest : '\r' ∉ s.dropWhile Text.isIndent :=
    fun hmem => h ((List.dropWhile_suffix _).subset hmem)
  cases hs : s.dropWhile Text.isIndent with
  | nil => rfl
  | cons c rest =>
    rw [hs, List.mem_cons, not_or] at hrest
    by_cases hbreak : c = '\n'
    · subst hbreak
      rfl
    · rw [crlf_cons hbreak]
      simp [hbreak, Ne.symm hrest.1]

lemma trimBreaksFrom_crlf {s : Text} {skipping : Bool} (h : '\r' ∉ s) :
    trimBreaksFrom skipping (crlf s) = crlf (trimBreaksFrom skipping s) := by
  fun_induction trimBreaksFrom skipping s with
  | case1 skipping => cases skipping <;> rfl
  | case2 c s ih =>
    rw [List.mem_cons, not_or] at h
    by_cases hbreak : c = '\n'
    · subst hbreak
      exact ih h.2
    · rw [crlf_cons hbreak, trimBreaksFrom, ih h.2]
  | case3 s ih =>
    have hs : '\r' ∉ s := by simpa using h
    rw [crlf_cons (by decide), crlf_cons (by decide), trimBreaksFrom, breakFollows_crlf hs, ih hs,
      crlf_cons (by decide), crlf_cons (by decide)]
  | case4 c s hcloser ih =>
    rw [List.mem_cons, not_or] at h
    by_cases hbreak : c = '\n'
    · subst hbreak
      rw [crlf_break, crlf_break, ← ih h.2]
      rfl
    · rw [crlf_cons hbreak, crlf_cons hbreak, trimBreaksFrom, ih h.2]
      rintro t rfl ht
      obtain ⟨rest, rfl, -⟩ := exists_of_crlf_eq_cons (by decide) ht
      exact hcloser rest rfl rfl

lemma applyGlobal_crlf (options : WhitespaceOptions) {s : Text} (h : '\r' ∉ s) :
    applyGlobal options (crlf s) = crlf (applyGlobal options s) := by
  have hstrip : '\r' ∉ stripIndents s := fun hmem => h ((stripIndents_sublist s).subset hmem)
  obtain ⟨trim, strip, _⟩ := options
  cases trim <;> cases strip
  · rfl
  · exact stripIndents_crlf s
  · exact trimBreaksFrom_crlf h
  · change trimBreaks (stripIndents (crlf s)) = _
    rw [stripIndents_crlf]
    exact trimBreaksFrom_crlf hstrip

lemma isBlank_withReturn (line : Text) : (withReturn line).isBlank = line.isBlank := by
  rw [withReturn, isBlank_append]
  exact Bool.and_true _

lemma indentWidth_withReturn (line : Text) : indentWidth (withReturn line) = indentWidth line := by
  rw [indentWidth, indentWidth, withReturn, List.takeWhile_append]
  split
  · rename_i hall
    rw [List.length_append, hall]
    rfl
  · rfl

/-- Carriage returns are no indentation, whether the last line has one or not. -/
lemma commonIndent?_withReturn (ls : List Text) (last : Text) (p : Prop) [Decidable p] :
    commonIndent? (ls.map withReturn ++ [last ++ if p then ['\r'] else []]) =
      commonIndent? (ls ++ [last]) := by
  have hfilter : (fun line => !Text.isBlank line) ∘ withReturn = fun line => !Text.isBlank line :=
    funext fun line => congrArg _ (isBlank_withReturn line)
  have hindent : indentWidth ∘ withReturn = indentWidth := funext indentWidth_withReturn
  have hmap (ls : List Text) : commonIndent? (ls.map withReturn) = commonIndent? ls := by
    rw [commonIndent?, List.filter_map, hfilter, List.map_map, hindent, commonIndent?]
  split
  · rw [← hmap (ls ++ [last]), List.map_append]
    rfl
  · rw [List.append_nil, commonIndent?, List.filter_append, List.filter_map, hfilter,
      List.map_append, List.map_map, hindent, ← List.map_append, ← List.filter_append,
      commonIndent?]

/-- The last line is blank, as where a line break ends the text. -/
def endsBlank (s : Text) : Bool := s.lines.getLast?.any Text.isBlank

lemma rdropWhile_append {α : Type} {p : α → Bool} {l : List α} (h : l.rdropWhile p ≠ [])
    (a : List α) : (a ++ l).rdropWhile p = a ++ l.rdropWhile p := by
  have hrest : (l.reverse.dropWhile p).isEmpty = false := by
    simpa [List.rdropWhile] using h
  rw [List.rdropWhile, List.reverse_append, List.dropWhile_append, hrest]
  simp [List.rdropWhile]

/-- Without the blank lines at the end, what is kept is preceded by an empty line if a line break
comes first. -/
lemma rdropWhile_lines {s : Text} (h : s.isBlank = false) : s.lines.rdropWhile Text.isBlank =
    (if s.head? = some '\n' then [[]] else []) ++ keptLines s := by
  split
  · rename_i hstart
    obtain ⟨t, rfl⟩ : ∃ t, s = '\n' :: t := by
      cases s with
      | nil => cases hstart
      | cons c t => exact ⟨t, by rw [Option.some.inj hstart]⟩
    obtain ⟨line, hline, -⟩ := exists_mem_keptLines h
    rw [Text.lines_cons, if_pos rfl]
    exact rdropWhile_append (List.ne_nil_of_mem hline) [[]]
  · rename_i hstart
    rw [keptLines, dropLeadingBreak_eq_self hstart, List.nil_append]

lemma unlines_rdropWhile_lines {s : Text} (h : s.isBlank = false) (width : ℕ) :
    unlines ((s.lines.rdropWhile Text.isBlank).map (·.drop width)) =
      (if s.head? = some '\n' then ['\n'] else []) ++
        unlines ((keptLines s).map (·.drop width)) := by
  obtain ⟨line, hline, -⟩ := exists_mem_keptLines h
  rw [rdropWhile_lines h]
  split
  · rw [List.singleton_append, List.map_cons, List.drop_nil,
      unlines_cons (List.ne_nil_of_mem (List.mem_map_of_mem hline)), List.nil_append,
      List.singleton_append]
  · rfl

lemma head?_crlf_ne (s : Text) : (crlf s).head? ≠ some '\n' := by
  cases s with
  | nil => simp [crlf]
  | cons c s =>
    by_cases hc : c = '\n'
    · subst hc
      simp [crlf_break]
    · simp [crlf_cons hc, hc]

lemma rdropWhile_map_withReturn (ls : List Text) :
    (ls.map withReturn).rdropWhile Text.isBlank =
      (ls.rdropWhile Text.isBlank).map withReturn := by
  have hcomp : Text.isBlank ∘ withReturn = Text.isBlank := funext isBlank_withReturn
  rw [List.rdropWhile, ← List.map_reverse, List.dropWhile_map, hcomp, List.rdropWhile,
    List.map_reverse]

/-- In the longer form an empty line in front is kept, and the last line that is kept ends with a
carriage return if there is a line behind it. -/
lemma exists_keptLines_crlf {s : Text} (h : s.isBlank = false) : ∃ (init : List Text) (last : Text),
    s.lines.rdropWhile Text.isBlank = init ++ [last] ∧ last.isBlank = false ∧
      keptLines (crlf s) =
        init.map withReturn ++ [last ++ if endsBlank s then ['\r'] else []] := by
  obtain ⟨init, last, hlines, -⟩ := exists_lines_append List.not_mem_nil s
  rw [keptLines, dropLeadingBreak_eq_self (head?_crlf_ne s), lines_crlf hlines, endsBlank, hlines,
    List.getLast?_concat, Option.any_some]
  cases hlast : Text.isBlank last with
  | false =>
    refine ⟨init, last, ?_, hlast, ?_⟩
    · exact List.rdropWhile_concat_neg _ _ _ (by simp [hlast])
    · rw [List.rdropWhile_concat_neg _ _ _ (by simp [hlast])]
      simp
  | true =>
    have hrest : s.lines.rdropWhile Text.isBlank = init.rdropWhile Text.isBlank := by
      rw [hlines, List.rdropWhile_concat_pos _ _ _ hlast]
    have hne : init.rdropWhile Text.isBlank ≠ [] := by
      intro hnil
      rw [← hrest, List.rdropWhile_eq_nil_iff] at hnil
      rw [isBlank_eq_all_lines, List.all_eq_true.mpr hnil] at h
      cases h
    have hkept := List.dropLast_append_getLast hne
    refine ⟨_, _, hlines ▸ hrest.trans hkept.symm,
      eq_false_of_ne_true (List.rdropWhile_last_not _ _ hne), ?_⟩
    rw [List.rdropWhile_concat_pos _ _ _ hlast, rdropWhile_map_withReturn, if_pos rfl]
    conv_lhs => rw [← hkept, List.map_append]
    rfl

/-- A line that is not blank is longer than the indentation it loses. -/
lemma length_of_commonIndent? {ls : List Text} {width : ℕ} (h : commonIndent? ls = some width)
    {line : Text} (hline : line ∈ ls) (hblank : line.isBlank = false) : width ≤ line.length :=
  ((commonIndent?_eq_some_iff.mp h).2 line hline hblank).trans
    (List.takeWhile_prefix Text.isIndent).length_le

lemma uncrlf_of_not_mem {s : Text} (h : '\n' ∉ s) : uncrlf s = s := by
  fun_induction uncrlf s with
  | case1 s ih => simp at h
  | case2 c s hbreak ih => rw [ih (fun hmem => h (List.mem_cons_of_mem c hmem))]
  | case3 => rfl

/-- Whether the carriage return goes with the indentation or with the line break, of a line in the
longer form is left what is left of it in the shorter one. -/
lemma uncrlf_unlines_drop {init : List Text} {last : Text} (width : ℕ)
    (hinit : ∀ line ∈ init, '\r' ∉ line) (hlast : '\n' ∉ last) :
    uncrlf (unlines (init.map (fun line => (withReturn line).drop width) ++ [last])) =
      unlines (init.map (·.drop width) ++ [last]) := by
  induction init with
  | nil => simpa [unlines] using uncrlf_of_not_mem hlast
  | cons line init ih =>
    rw [List.forall_mem_cons] at hinit
    have hline : '\r' ∉ line.drop width := fun hmem => hinit.1 (List.mem_of_mem_drop hmem)
    have hreturn (s : Text) :
        uncrlf (['\r'].drop (width - line.length) ++ '\n' :: s) = '\n' :: uncrlf s := by
      cases width - line.length with
      | zero => rfl
      | succ n =>
        rw [List.drop_succ_cons, List.drop_nil, List.nil_append]
        exact uncrlf_cons (by decide) s
    rw [List.map_cons, List.map_cons, List.cons_append, List.cons_append, unlines_cons (by simp),
      unlines_cons (by simp), withReturn, List.drop_append, List.append_assoc,
      uncrlf_append hline, hreturn, ih hinit.2]

lemma isBlank_crlf (s : Text) : (crlf s).isBlank = s.isBlank := by
  induction s with
  | nil => rfl
  | cons c s ih =>
    by_cases hc : c = '\n'
    · subst hc
      exact ih
    · rw [crlf_cons hc, Text.isBlank, List.all_cons, Text.isBlank, List.all_cons]
      exact congrArg _ ih

/-- In the longer form the line break in front stays, and of the first one of the blank lines at
the end the carriage return does. -/
lemma uncrlf_dedent_crlf {s : Text} (h : '\r' ∉ s) (hblank : s.isBlank = false) :
    uncrlf (dedent (crlf s)) = (if s.head? = some '\n' then ['\n'] else []) ++ dedent s ++
      (if endsBlank s then ['\r'] else []) := by
  obtain ⟨init, last, hlines, hlast, hkept⟩ := exists_keptLines_crlf hblank
  obtain ⟨width, hwidth, hdedent⟩ := exists_dedent_eq hblank
  obtain ⟨width', hwidth', hdedentCrlf⟩ := exists_dedent_eq ((isBlank_crlf s).trans hblank)
  have hmem : ∀ line ∈ init ++ [last], line ∈ s.lines := fun line hline =>
    (List.rdropWhile_prefix Text.isBlank (l := s.lines)).subset (hlines ▸ hline)
  have hwidths : commonIndent? (init ++ [last]) = some width := by
    rw [← hlines, rdropWhile_lines hblank, ← hwidth]
    split <;> rfl
  obtain rfl : width' = width := by
    rw [hkept, commonIndent?_withReturn, hwidths] at hwidth'
    exact (Option.some.inj hwidth').symm
  have hlength := length_of_commonIndent? hwidths (by simp) hlast
  have hinit : ∀ line ∈ init, '\r' ∉ line := fun line hline hreturn =>
    h ((infix_of_mem_lines (hmem line (List.mem_append_left _ hline))).subset hreturn)
  have hbreak : '\n' ∉ last.drop width' ++ if endsBlank s then ['\r'] else [] := by
    rw [List.mem_append, not_or]
    refine ⟨fun hdrop => ?_, by split <;> decide⟩
    exact not_mem_of_mem_splitOn (hmem last (by simp)) (List.mem_of_mem_drop hdrop)
  calc uncrlf (dedent (crlf s))
      = uncrlf (unlines (init.map (fun line => (withReturn line).drop width') ++
          [last.drop width' ++ if endsBlank s then ['\r'] else []])) := by
        rw [hdedentCrlf, hkept, List.map_append, List.map_map, List.map_singleton,
          List.drop_append_of_le_length hlength]
        rfl
    _ = unlines ((init ++ [last]).map (·.drop width')) ++
          if endsBlank s then ['\r'] else [] := by
        rw [uncrlf_unlines_drop width' hinit hbreak, unlines_concat_append, List.map_append,
          List.map_singleton]
    _ = (if s.head? = some '\n' then ['\n'] else []) ++ dedent s ++
          if endsBlank s then ['\r'] else [] := by
        rw [← hlines, unlines_rdropWhile_lines hblank, hdedent]

/-- A text without carriage returns and its longer form come to the same under trim markers and
white space control, for every setting of the options. Under dedenting they do exactly when all
lines are blank, or when no line break comes first and the last line is not blank: the longer form
keeps its line break in front, and the carriage return of the one behind its last line. -/
theorem crlf_irrelevant_iff {s : Text} (h : '\r' ∉ s) (options : WhitespaceOptions) :
    uncrlf (applyMarkers (crlf s)) = applyMarkers s ∧
    uncrlf (applyGlobal options (crlf s)) = applyGlobal options s ∧
    (uncrlf (dedent (crlf s)) = dedent s ↔
      s.isBlank = true ∨ s.head? ≠ some '\n' ∧ endsBlank s = false) ∧
    (s.isBlank = false →
      uncrlf (dedent (crlf s)) = (if s.head? = some '\n' then ['\n'] else []) ++ dedent s ++
        if endsBlank s then ['\r'] else []) := by
  refine ⟨?_, ?_, ?_, uncrlf_dedent_crlf h⟩
  · rw [applyMarkers_crlf h, uncrlf_crlf fun hmem => h ((applyMarkers_sublist s).subset hmem)]
  · rw [applyGlobal_crlf options h,
      uncrlf_crlf fun hmem => h ((applyGlobal_sublist options s).subset hmem)]
  · cases hblank : s.isBlank with
    | true =>
      rw [dedent_of_isBlank ((isBlank_crlf s).trans hblank), dedent_of_isBlank hblank]
      exact iff_of_true (uncrlf_crlf h) (.inl rfl)
    | false =>
      rw [uncrlf_dedent_crlf h hblank, or_iff_right Bool.false_ne_true]
      constructor
      · intro hsame
        have hlength := congrArg List.length hsame
        rw [List.length_append, List.length_append] at hlength
        constructor
        · intro hstart
          rw [if_pos hstart, List.length_singleton] at hlength
          omega
        · refine eq_false_of_ne_true fun hend => ?_
          rw [if_pos hend, List.length_singleton] at hlength
          omega
      · rintro ⟨hstart, hend⟩
        rw [if_neg hstart, hend, List.nil_append]
        exact List.append_nil _

/-- A body between line breaks, with a trim marker and a tag that ends its line. -/
def framed : Text := "\n    {{- a -}}  \n  {% if b %} \n    c\n".toList

theorem crlf_irrelevant_framed :
    '\r' ∉ framed ∧ uncrlf (applyMarkers (crlf framed)) = "\n{{ a }}  {% if b %} \n    c\n".toList ∧
      uncrlf (applyGlobal {} (crlf framed)) = "\n    {{- a -}}  \n{% if b %}    c\n".toList ∧
      framed.isBlank = false ∧
      uncrlf (dedent (crlf framed)) = "\n  {{- a -}}  \n{% if b %} \n  c\r".toList := by
  have hreturn : '\r' ∉ framed := by decide
  have hblank : framed.isBlank = false := rfl
  obtain ⟨hmarkers, hglobal, -, hdedent⟩ := crlf_irrelevant_iff hreturn {}
  exact ⟨hreturn, hmarkers.trans rfl, hglobal.trans (by decide), hblank,
    (hdedent hblank).trans (by decide)⟩

/-- The line break in front is taken away only if it is written with one character. -/
theorem dedent_breakInFront :
    '\r' ∉ ['\n', 'a'] ∧ dedent ['\n', 'a'] = ['a'] ∧
      dedent (crlf ['\n', 'a']) = ['\r', '\n', 'a'] ∧
      uncrlf (dedent (crlf ['\n', 'a'])) ≠ dedent ['\n', 'a'] := by
  decide

end Whitespace
end Stencil
