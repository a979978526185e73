import Stencil.Proofs.Dedent
import Stencil.Proofs.Settling

/-! What the options of white space control take from a text, as rules over the text from left to
right. Main statement: the rules leave exactly the text that the two passes make. -/
namespace Stencil.Whitespace

/-- Spaces, tabs and the characters of line breaks. -/
def isSpacing (c : Char) : Bool := Text.isIndent c || c == '\r' || c == '\n'

/-- The characters that white space control has to keep. -/
def solid (s : Text) : Text := s.filter (!isSpacing ·)

section Rules

/-- Whether a line starts behind a text. -/
def startsLine (before : Text) : Bool := before.getLast?.all (· == '\n')

/-- Whether a control tag ends at the end of a text. -/
def endsTag (before : Text) : Bool := ['%', '}'].isSuffixOf before

/-- What is left of a text behind another one when indentation and line breaks are removed. An
indentation goes at the start of a line whose first mark is a control tag. A line break goes right
behind a control tag, with the spaces and tabs between them. Every other character stays. -/
inductive Thins (options : WhitespaceOptions) : (before s t : Text) → Prop
  | nil {before : Text} : Thins options before [] []
  | keep {before s t : Text} {c : Char}
      (indent : ¬(options.lstripBlocks = true ∧ startsLine before = true ∧
        Text.isIndent c = true ∧ startsControlTag (s.dropWhile Text.isIndent) = true))
      (ends : ¬(options.trimBlocks = true ∧ endsTag before = true ∧ breakFollows (c :: s) = true))
      (rest : Thins options (before ++ [c]) s t) : Thins options before (c :: s) (c :: t)
  | indentation {before w s t : Text} (on : options.lstripBlocks = true)
      (line : startsLine before = true) (nonempty : w ≠ [])
      (blank : ∀ c ∈ w, Text.isIndent c = true) (tag : startsControlTag s = true)
      (rest : Thins options (before ++ w) s t) : Thins options before (w ++ s) t
  | lineEnd {before w b s t : Text} (on : options.trimBlocks = true) (tag : endsTag before = true)
      (blank : ∀ c ∈ w, Text.isIndent c = true) (lineBreak : b = ['\n'] ∨ b = ['\r', '\n'])
      (rest : Thins options (before ++ (w ++ b)) s t) : Thins options before (w ++ b ++ s) t

end Rules

section Lines
variable {line : Text}

/-- The text behind the first character of a line, without the indentation of the lines below. -/
def stripRest : Text → Text
  | [] => []
  | c :: s => c :: if c = '\n' then stripIndents s else stripRest s

lemma stripRest_of_line (h : '\n' ∉ line) : stripRest line = line := by
  induction line with
  | nil => rfl
  | cons c line ih =>
    obtain ⟨hc, hline⟩ := not_or.mp (List.mem_cons.not.mp h)
    rw [stripRest, if_neg (Ne.symm hc), ih hline]

lemma stripRest_append (h : '\n' ∉ line) (s : Text) :
    stripRest (line ++ '\n' :: s) = line ++ '\n' :: stripIndents s := by
  induction line with
  | nil => rfl
  | cons c line ih =>
    obtain ⟨hc, hline⟩ := not_or.mp (List.mem_cons.not.mp h)
    rw [List.cons_append, stripRest, if_neg (Ne.symm hc), ih hline]
    rfl

lemma stripIndents_of_line (h : '\n' ∉ line) : stripIndents line = stripIndent line := by
  have hlines : Text.lines line = [line] := List.splitOn_eq_singleton h
  rw [stripIndents, hlines]
  simp [Text.unlines]

lemma stripIndents_line_append (h : '\n' ∉ line) (s : Text) :
    stripIndents (line ++ '\n' :: s) = stripIndent line ++ '\n' :: stripIndents s := by
  have hlines : Text.lines (line ++ '\n' :: s) = line :: s.lines := by
    rw [Text.lines_append h, Text.lines_cons, if_pos rfl, List.modifyHead_cons, List.append_nil]
  have hne : s.lines.map stripIndent ≠ [] :=
    List.map_eq_nil_iff.not.mpr (List.splitOn_ne_nil '\n' s)
  rw [stripIndents, hlines, List.map_cons, Text.unlines_cons hne]
  rfl

lemma startsControlTag_iff {s : Text} :
    startsControlTag s = true ↔ ∃ rest, s = '{' :: '%' :: rest := by
  unfold startsControlTag
  split <;> simp_all

lemma startsControlTag_append (line s : Text) :
    startsControlTag (line ++ '\n' :: s) = startsControlTag line := by
  rw [Bool.eq_iff_iff, startsControlTag_iff, startsControlTag_iff]
  rcases line with _ | ⟨a, _ | ⟨b, line⟩⟩ <;> simp

lemma dropWhile_line_append (line s : Text) :
    (line ++ '\n' :: s).dropWhile Text.isIndent = line.dropWhile Text.isIndent ++ '\n' :: s := by
  rw [List.dropWhile_append]
  split
  · rename_i h
    rw [List.isEmpty_iff.mp h]
    rfl
  · rfl

/-- At the start of a line its indentation goes when a control tag follows. -/
lemma stripIndents_eq (s : Text) : stripIndents s = stripRest
    (if startsControlTag (s.dropWhile Text.isIndent) then s.dropWhile Text.isIndent else s) := by
  by_cases h : '\n' ∈ s
  · obtain ⟨line, rest, rfl, hline⟩ := List.eq_append_cons_of_mem h
    have hdrop : '\n' ∉ line.dropWhile Text.isIndent :=
      fun hmem => hline ((List.dropWhile_suffix _).subset hmem)
    rw [dropWhile_line_append, startsControlTag_append, stripIndents_line_append hline, stripIndent]
    split
    · rw [stripRest_append hdrop]
    · rw [stripRest_append hline]
  · have hdrop : '\n' ∉ s.dropWhile Text.isIndent :=
      fun hmem => h ((List.dropWhile_suffix _).subset hmem)
    rw [stripIndents_of_line h, stripIndent]
    split
    · rw [stripRest_of_line hdrop]
    · rw [stripRest_of_line h]

end Lines

section Context
variable {before w : Text} {c : Char}

@[simp] lemma startsLine_concat (before : Text) (c : Char) :
    startsLine (before ++ [c]) = (c == '\n') := by
  simp [startsLine]

lemma endsTag_concat (before : Text) (c : Char) :
    endsTag (before ++ [c]) = (before.getLast? == some '%' && c == '}') := by
  rw [Bool.eq_iff_iff, endsTag, List.isSuffixOf_iff_suffix, Bool.and_eq_true, beq_iff_eq,
    beq_iff_eq]
  constructor
  · rintro ⟨x, hx⟩
    rw [show x ++ ['%', '}'] = (x ++ ['%']) ++ ['}'] by simp] at hx
    obtain ⟨rfl, hc⟩ := List.append_inj' hx rfl
    exact ⟨List.getLast?_concat, (List.singleton_inj.mp hc).symm⟩
  · rintro ⟨hlast, rfl⟩
    obtain ⟨x, rfl⟩ := List.getLast?_eq_some_iff.mp hlast
    exact ⟨x, by simp⟩

lemma endsTag_concat_of_ne (hc : c ≠ '}') (before : Text) : endsTag (before ++ [c]) = false := by
  rw [endsTag_concat, beq_eq_false_iff_ne.mpr hc, Bool.and_false]

/-- No control tag ends where a line starts. -/
lemma endsTag_of_startsLine (h : startsLine before = true) : endsTag before = false := by
  cases before using List.reverseRecOn with
  | nil => rfl
  | append_singleton x c =>
    rw [startsLine_concat, beq_iff_eq] at h
    exact endsTag_concat_of_ne (h ▸ by decide) x

lemma context_append_blank (before : Text) (hw : w ≠ []) (blank : ∀ c ∈ w, Text.isIndent c = true) :
    startsLine (before ++ w) = false ∧ endsTag (before ++ w) = false := by
  obtain ⟨x, c, rfl⟩ := List.eq_nil_or_concat w |>.resolve_left hw
  have hc : Text.isIndent c = true := blank c (by simp)
  rw [List.concat_eq_append, ← List.append_assoc, startsLine_concat]
  refine ⟨beq_eq_false_iff_ne.mpr ?_, endsTag_concat_of_ne ?_ _⟩ <;>
  · rintro rfl
    exact absurd hc (by decide)

lemma context_append_break (before w : Text) {b : Text} (hb : b = ['\n'] ∨ b = ['\r', '\n']) :
    startsLine (before ++ (w ++ b)) = true ∧ endsTag (before ++ (w ++ b)) = false := by
  obtain ⟨x, hx⟩ : ∃ x, before ++ (w ++ b) = x ++ ['\n'] := by
    rcases hb with rfl | rfl
    · exact ⟨before ++ w, by simp⟩
    · exact ⟨before ++ w ++ ['\r'], by simp⟩
  rw [hx]
  exact ⟨startsLine_concat x '\n', endsTag_concat_of_ne (by decide) x⟩

end Context

section Breaks
variable {s w b : Text} {c : Char}

lemma breakFollows_indent (hc : Text.isIndent c = true) (s : Text) :
    breakFollows (c :: s) = breakFollows s :=
  breakFollows_append (w := [c]) (by simpa using hc) s

lemma exists_of_breakFollows (h : breakFollows s = true) :
    ∃ w b rest, s = w ++ b ++ rest ∧ (∀ c ∈ w, Text.isIndent c = true) ∧
      (b = ['\n'] ∨ b = ['\r', '\n']) := by
  have hs := List.takeWhile_append_dropWhile (p := Text.isIndent) (l := s)
  unfold breakFollows at h
  split at h
  · rename_i rest hrest
    rw [hrest] at hs
    exact ⟨_, ['\n'], rest, by simpa using hs.symm, fun c hc => List.mem_takeWhile_imp hc, .inl rfl⟩
  · rename_i rest hrest
    rw [hrest] at hs
    exact ⟨_, ['\r', '\n'], rest, by simpa using hs.symm, fun c hc => List.mem_takeWhile_imp hc,
      .inr rfl⟩
  · cases h

lemma breakFollows_lineEnd (blank : ∀ c ∈ w, Text.isIndent c = true)
    (hb : b = ['\n'] ∨ b = ['\r', '\n']) (s : Text) : breakFollows (w ++ b ++ s) = true := by
  rw [List.append_assoc, breakFollows_append blank]
  rcases hb with rfl | rfl <;> rfl

lemma head?_stripRest (s : Text) : (stripRest s).head? = s.head? := by
  cases s <;> rfl

/-- Removing the indentation below a line leaves the break at its end where it is. -/
lemma breakFollows_stripRest (s : Text) : breakFollows (stripRest s) = breakFollows s := by
  induction s with
  | nil => rfl
  | cons c s ih =>
    cases hc : Text.isIndent c with
    | true =>
      have hne : c ≠ '\n' := by
        rintro rfl
        exact absurd hc (by decide)
      rw [stripRest, if_neg hne, breakFollows_indent hc, breakFollows_indent hc, ih]
    | false =>
      rw [stripRest, breakFollows_cons hc, breakFollows_cons hc]
      split
      · rename_i hbreak
        rw [hbreak]
        rfl
      · rw [head?_stripRest]

end Breaks

section Passes
variable {options : WhitespaceOptions} {before s w b u : Text} {c : Char} {line tag : Bool}

/-- What the first pass makes of a text, at the start of a line or behind it. -/
def stripFrom (options : WhitespaceOptions) (line : Bool) (s : Text) : Text :=
  if options.lstripBlocks then if line then stripIndents s else stripRest s else s

/-- What the second pass makes of a text, right behind a control tag or not. -/
def trimFrom (options : WhitespaceOptions) (tag : Bool) (s : Text) : Text :=
  if options.trimBlocks then trimBreaksFrom (tag && breakFollows s) s else s

/-- What both passes make of a text behind another one. -/
def thinned (options : WhitespaceOptions) (before s : Text) : Text :=
  trimFrom options (endsTag before) (stripFrom options (startsLine before) s)

lemma thinned_start (options : WhitespaceOptions) (s : Text) :
    thinned options [] s = applyGlobal options s := rfl

lemma stripFrom_keep (h : ¬(options.lstripBlocks = true ∧ line = true ∧
    Text.isIndent c = true ∧ startsControlTag (s.dropWhile Text.isIndent) = true)) :
    stripFrom options line (c :: s) = c :: stripFrom options (c == '\n') s := by
  have hrest : stripRest (c :: s) = c :: if c = '\n' then stripIndents s else stripRest s := rfl
  unfold stripFrom
  cases hon : options.lstripBlocks with
  | false => rfl
  | true =>
    have hkeep : (if line then stripIndents (c :: s) else stripRest (c :: s)) =
        stripRest (c :: s) := by
      cases line with
      | false => rfl
      | true =>
        rw [if_pos rfl, stripIndents_eq]
        split
        · rename_i htag
          cases hc : Text.isIndent c with
          | false => simp [hc]
          | true =>
            rw [List.dropWhile_cons_of_pos hc] at htag
            exact absurd ⟨hon, rfl, hc, htag⟩ h
        · rfl
    rw [if_pos rfl, hkeep, hrest]
    simp

lemma stripFrom_indentation (on : options.lstripBlocks = true)
    (blank : ∀ c ∈ w, Text.isIndent c = true) (tag : startsControlTag s = true) :
    stripFrom options true (w ++ s) = stripFrom options false s := by
  obtain ⟨rest, rfl⟩ := startsControlTag_iff.mp tag
  have hdrop : (w ++ '{' :: '%' :: rest).dropWhile Text.isIndent = '{' :: '%' :: rest :=
    mem_of_dropWhile_indent blank _
  rw [stripFrom, stripFrom, if_pos on, if_pos on, if_pos rfl, stripIndents_eq, hdrop, if_pos tag]
  rfl

lemma stripFrom_lineEnd (blank : ∀ c ∈ w, Text.isIndent c = true)
    (hb : b = ['\n'] ∨ b = ['\r', '\n']) (s : Text) :
    stripFrom options false (w ++ b ++ s) = w ++ b ++ stripFrom options true s := by
  have hw : '\n' ∉ w := fun h => absurd (blank _ h) (by decide)
  unfold stripFrom
  cases options.lstripBlocks with
  | false => rfl
  | true =>
    rcases hb with rfl | rfl
    · have := stripRest_append hw s
      simpa using this
    · have hreturn : '\n' ∉ w ++ ['\r'] := by simpa using hw
      have := stripRest_append hreturn s
      simpa using this

lemma breakFollows_stripFrom (s : Text) :
    breakFollows (stripFrom options false s) = breakFollows s := by
  unfold stripFrom
  cases options.lstripBlocks with
  | false => rfl
  | true => exact breakFollows_stripRest s

lemma trimFrom_lineEnd (on : options.trimBlocks = true) (blank : ∀ c ∈ w, Text.isIndent c = true)
    (hb : b = ['\n'] ∨ b = ['\r', '\n']) (u : Text) :
    trimFrom options true (w ++ b ++ u) = trimFrom options false u := by
  have hw : '\n' ∉ w := fun h => absurd (blank _ h) (by decide)
  rw [trimFrom, trimFrom, if_pos on, if_pos on, breakFollows_lineEnd blank hb]
  rcases hb with rfl | rfl
  · have := trimBreaksFrom_true hw u
    simpa [trimBreaks] using this
  · have := trimBreaksFrom_true (s := w ++ ['\r']) (by simpa using hw) u
    simpa [trimBreaks] using this

lemma trimFrom_keep
    (ends : ¬(options.trimBlocks = true ∧ tag = true ∧ breakFollows (c :: u) = true))
    (pair : ¬(c = '%' ∧ u.head? = some '}')) :
    trimFrom options tag (c :: u) = c :: trimFrom options false u := by
  unfold trimFrom
  cases hon : options.trimBlocks with
  | false => rfl
  | true =>
    have hskip : (tag && breakFollows (c :: u)) = false := by
      rw [Bool.eq_false_iff, Ne, Bool.and_eq_true]
      exact fun h => ends ⟨hon, h⟩
    rw [if_pos rfl, if_pos rfl, hskip, trimBreaksFrom]
    · rfl
    · rintro rest rfl rfl
      exact pair ⟨rfl, rfl⟩

lemma trimFrom_closer (u : Text) :
    trimFrom options tag ('%' :: '}' :: u) = '%' :: '}' :: trimFrom options true u := by
  unfold trimFrom
  cases options.trimBlocks with
  | false => rfl
  | true =>
    have hskip : breakFollows ('%' :: '}' :: u) = false := rfl
    rw [if_pos rfl, if_pos rfl, hskip, Bool.and_false, trimBreaksFrom]
    rfl

lemma head?_stripFrom (s : Text) : (stripFrom options false s).head? = s.head? := by
  unfold stripFrom
  cases options.lstripBlocks with
  | false => rfl
  | true => exact head?_stripRest s

lemma thinned_indentation (on : options.lstripBlocks = true) (hline : startsLine before = true)
    (nonempty : w ≠ []) (blank : ∀ c ∈ w, Text.isIndent c = true)
    (htag : startsControlTag s = true) :
    thinned options before (w ++ s) = thinned options (before ++ w) s := by
  obtain ⟨hstarts, hends⟩ := context_append_blank before nonempty blank
  rw [thinned, thinned, hline, stripFrom_indentation on blank htag, endsTag_of_startsLine hline,
    hstarts, hends]

lemma thinned_lineEnd (on : options.trimBlocks = true) (htag : endsTag before = true)
    (blank : ∀ c ∈ w, Text.isIndent c = true) (hb : b = ['\n'] ∨ b = ['\r', '\n']) (s : Text) :
    thinned options before (w ++ b ++ s) = thinned options (before ++ (w ++ b)) s := by
  obtain ⟨hstarts, hends⟩ := context_append_break before w hb
  have hline : startsLine before = false := by
    rw [Bool.eq_false_iff]
    intro h
    rw [endsTag_of_startsLine h] at htag
    cases htag
  rw [thinned, thinned, hline, stripFrom_lineEnd blank hb, htag, trimFrom_lineEnd on blank hb,
    hstarts, hends]

section Keep
variable (hindent : ¬(options.lstripBlocks = true ∧ startsLine before = true ∧
    Text.isIndent c = true ∧ startsControlTag (s.dropWhile Text.isIndent) = true))
include hindent

lemma thinned_keep
    (hends : ¬(options.trimBlocks = true ∧ endsTag before = true ∧ breakFollows (c :: s) = true))
    (hpair : ¬(before.getLast? = some '%' ∧ c = '}')) (hclose : ¬(c = '%' ∧ s.head? = some '}')) :
    thinned options before (c :: s) = c :: thinned options (before ++ [c]) s := by
  have hstrip := stripFrom_keep hindent
  have htag : endsTag (before ++ [c]) = false := by
    rw [endsTag_concat, Bool.eq_false_iff, Ne, Bool.and_eq_true, beq_iff_eq, beq_iff_eq]
    exact hpair
  rw [thinned, thinned, hstrip, startsLine_concat, htag]
  refine trimFrom_keep (fun ⟨on, hbefore, hbreak⟩ => hends ⟨on, hbefore, ?_⟩)
    fun ⟨hc, hhead⟩ => hclose ⟨hc, ?_⟩
  · have hline : startsLine before = false := by
      rw [Bool.eq_false_iff]
      intro h
      rw [endsTag_of_startsLine h] at hbefore
      cases hbefore
    rw [← hstrip, hline, breakFollows_stripFrom] at hbreak
    exact hbreak
  · rw [hc] at hhead
    rwa [show ('%' == '\n') = false by decide, head?_stripFrom] at hhead

end Keep

lemma thinned_closer (before s : Text) : thinned options before ('%' :: '}' :: s) =
    '%' :: '}' :: thinned options (before ++ ['%'] ++ ['}']) s := by
  have htag : endsTag (before ++ ['%'] ++ ['}']) = true := by
    rw [endsTag_concat, List.getLast?_concat]
    rfl
  rw [thinned, stripFrom_keep (by simp [Text.isIndent]), stripFrom_keep (by simp [Text.isIndent]),
    trimFrom_closer, thinned, htag, startsLine_concat]

/-- Both passes follow the rules, unless the text starts in the middle of a closer. -/
lemma thins_thinned (hpair : ¬(before.getLast? = some '%' ∧ s.head? = some '}')) :
    Thins options before s (thinned options before s) := by
  induction hn : s.length using Nat.strong_induction_on generalizing before s with
  | _ n ih =>
    subst hn
    cases s with
    | nil =>
      have hnil : thinned options before [] = [] := by
        simp [thinned, stripFrom, trimFrom, stripIndents_eq, stripRest, startsControlTag,
          trimBreaksFrom]
      rw [hnil]
      exact .nil
    | cons c s =>
      by_cases hindent : options.lstripBlocks = true ∧ startsLine before = true ∧
          Text.isIndent c = true ∧ startsControlTag (s.dropWhile Text.isIndent) = true
      · obtain ⟨on, hline, hc, htag⟩ := hindent
        have hs := List.takeWhile_append_dropWhile (p := Text.isIndent) (l := s)
        have blank : ∀ d ∈ c :: s.takeWhile Text.isIndent, Text.isIndent d = true := by
          rw [List.forall_mem_cons]
          exact ⟨hc, fun d hd => List.mem_takeWhile_imp hd⟩
        have hlen := (List.dropWhile_suffix (l := s) Text.isIndent).length_le
        rw [← hs, ← List.cons_append, thinned_indentation on hline (by simp) blank htag]
        refine .indentation on hline (by simp) blank htag (ih _ ?_ ?_ rfl)
        · rw [List.length_cons]
          omega
        · obtain ⟨rest, hrest⟩ := startsControlTag_iff.mp htag
          simp [hrest]
      by_cases hends : options.trimBlocks = true ∧ endsTag before = true ∧
          breakFollows (c :: s) = true
      · obtain ⟨on, htag, hbreak⟩ := hends
        obtain ⟨w, b, rest, hs, blank, hb⟩ := exists_of_breakFollows hbreak
        have hlen := congrArg List.length hs
        have hstarts := (context_append_break before w hb).1
        rw [hs, thinned_lineEnd on htag blank hb]
        refine .lineEnd on htag blank hb (ih _ ?_ ?_ rfl)
        · rcases hb with rfl | rfl <;> simp at hlen ⊢ <;> omega
        · rintro ⟨hlast, -⟩
          rw [startsLine, hlast] at hstarts
          cases hstarts
      by_cases hclose : c = '%' ∧ s.head? = some '}'
      · obtain ⟨rfl, hhead⟩ := hclose
        obtain ⟨s, rfl⟩ := List.head?_eq_some_iff.mp hhead
        rw [thinned_closer]
        refine .keep hindent hends (.keep ?_ ?_ (ih _ ?_ ?_ rfl))
        · simp [Text.isIndent]
        · simp [endsTag_concat]
        · simp only [List.length_cons]
          omega
        · simp
      · have hmiddle : ¬(before.getLast? = some '%' ∧ c = '}') := by simpa using hpair
        rw [thinned_keep hindent hends hmiddle hclose]
        exact .keep hindent hends (ih _ (by simp) (by simpa using hclose) rfl)

end Passes

/-- The rules give the result of both passes. -/
lemma thins_applyGlobal (options : WhitespaceOptions) (s : Text) :
    Thins options [] s (applyGlobal options s) :=
  thinned_start options s ▸ thins_thinned (by simp)

section Solid

lemma solid_append (s t : Text) : solid (s ++ t) = solid s ++ solid t := List.filter_append ..

lemma solid_of_spacing {s : Text} (h : ∀ c ∈ s, isSpacing c = true) : solid s = [] :=
  List.filter_eq_nil_iff.mpr fun c hc => by simp [h c hc]

lemma isSpacing_of_isIndent {c : Char} (h : Text.isIndent c = true) : isSpacing c = true := by
  simp [isSpacing, h]

lemma solid_of_blank {w : Text} (blank : ∀ c ∈ w, Text.isIndent c = true) : solid w = [] :=
  solid_of_spacing fun c hc => isSpacing_of_isIndent (blank c hc)

lemma solid_of_break {b : Text} (hb : b = ['\n'] ∨ b = ['\r', '\n']) : solid b = [] := by
  rcases hb with rfl | rfl <;> rfl

/-- No rule takes anything but spaces, tabs and line breaks. -/
lemma Thins.solid_eq {options : WhitespaceOptions} {before s t : Text}
    (h : Thins options before s t) : solid t = solid s := by
  induction h with
  | nil => rfl
  | @keep _ s t c _ _ _ ih =>
    rw [← List.singleton_append, ← List.singleton_append (l := s), solid_append, solid_append, ih]
  | indentation _ _ _ blank _ _ ih => rw [solid_append, solid_of_blank blank, ih, List.nil_append]
  | lineEnd _ _ blank lineBreak _ ih =>
    rw [solid_append, solid_append, solid_of_blank blank, solid_of_break lineBreak, ih,
      List.nil_append, List.nil_append]

end Solid

section Unique
variable {options : WhitespaceOptions} {before s s' t t' w w' b b' : Text} {c : Char}

/-- Where a blank run ends is seen from the text. -/
lemma blank_append_inj (blank : ∀ c ∈ w, Text.isIndent c = true)
    (blank' : ∀ c ∈ w', Text.isIndent c = true) (hs : ∀ c ∈ s.head?, Text.isIndent c = false)
    (hs' : ∀ c ∈ s'.head?, Text.isIndent c = false) (h : w ++ s = w' ++ s') :
    w = w' ∧ s = s' := by
  have hdrop {u : Text} (hu : ∀ c ∈ u.head?, Text.isIndent c = false) :
      u.dropWhile Text.isIndent = u := by
    cases u with
    | nil => rfl
    | cons c u => simp [hu c rfl]
  have heq := congrArg (List.dropWhile Text.isIndent) h
  rw [mem_of_dropWhile_indent blank, mem_of_dropWhile_indent blank', hdrop hs, hdrop hs'] at heq
  subst heq
  exact ⟨List.append_cancel_right h, rfl⟩

lemma startsControlTag_dropWhile (blank : ∀ c ∈ w, Text.isIndent c = true)
    (tag : startsControlTag s = true) :
    startsControlTag ((w ++ s).dropWhile Text.isIndent) = true := by
  obtain ⟨rest, rfl⟩ := startsControlTag_iff.mp tag
  rw [mem_of_dropWhile_indent blank]
  rfl

lemma isIndent_of_startsControlTag (tag : startsControlTag s = true) :
    ∀ c ∈ s.head?, Text.isIndent c = false := by
  obtain ⟨rest, rfl⟩ := startsControlTag_iff.mp tag
  simp [Text.isIndent]

lemma isIndent_of_break (hb : b = ['\n'] ∨ b = ['\r', '\n']) :
    ∀ c ∈ (b ++ s).head?, Text.isIndent c = false := by
  rcases hb with rfl | rfl <;> simp [Text.isIndent]

namespace Thins

lemma inv_keep (indent : ¬(options.lstripBlocks = true ∧ startsLine before = true ∧
      Text.isIndent c = true ∧ startsControlTag (s.dropWhile Text.isIndent) = true))
    (ends : ¬(options.trimBlocks = true ∧ endsTag before = true ∧ breakFollows (c :: s) = true))
    (h : Thins options before (c :: s) t) :
    ∃ u, t = c :: u ∧ Thins options (before ++ [c]) s u := by
  generalize hs : c :: s = x at h
  cases h with
  | nil => cases hs
  | keep _ _ rest =>
    obtain ⟨rfl, rfl⟩ := List.cons.inj hs
    exact ⟨_, rfl, rest⟩
  | @indentation _ w s' _ on line nonempty blank tag _ =>
    cases w with
    | nil => exact absurd rfl nonempty
    | cons d w =>
      obtain ⟨rfl, rfl⟩ := List.cons.inj hs
      obtain ⟨hc, hw⟩ := List.forall_mem_cons.mp blank
      exact absurd ⟨on, line, hc, startsControlTag_dropWhile hw tag⟩ indent
  | @lineEnd _ w b s' _ on tag blank lineBreak _ =>
    exact absurd ⟨on, tag, hs ▸ breakFollows_lineEnd blank lineBreak s'⟩ ends

lemma inv_indentation (line : startsLine before = true) (nonempty : w ≠ [])
    (blank : ∀ c ∈ w, Text.isIndent c = true) (tag : startsControlTag s = true)
    (on : options.lstripBlocks = true) (h : Thins options before (w ++ s) t) :
    Thins options (before ++ w) s t := by
  generalize hs : w ++ s = x at h
  cases h with
  | nil => exact absurd (List.append_eq_nil_iff.mp hs).1 nonempty
  | @keep _ x _ c indent _ _ =>
    obtain ⟨d, w, rfl⟩ := List.exists_cons_of_ne_nil nonempty
    obtain ⟨rfl, rfl⟩ := List.cons.inj hs
    obtain ⟨hc, hw⟩ := List.forall_mem_cons.mp blank
    exact absurd ⟨on, line, hc, startsControlTag_dropWhile hw tag⟩ indent
  | indentation _ _ _ blank' tag' rest =>
    obtain ⟨rfl, rfl⟩ := blank_append_inj blank blank' (isIndent_of_startsControlTag tag)
      (isIndent_of_startsControlTag tag') hs
    exact rest
  | lineEnd _ tag' _ _ _ =>
    rw [endsTag_of_startsLine line] at tag'
    cases tag'

lemma inv_lineEnd (on : options.trimBlocks = true) (tag : endsTag before = true)
    (blank : ∀ c ∈ w, Text.isIndent c = true) (hb : b = ['\n'] ∨ b = ['\r', '\n'])
    (h : Thins options before (w ++ b ++ s) t) : Thins options (before ++ (w ++ b)) s t := by
  generalize hs : w ++ b ++ s = x at h
  cases h with
  | nil => rcases hb with rfl | rfl <;> simp at hs
  | keep _ ends _ => exact absurd ⟨on, tag, hs ▸ breakFollows_lineEnd blank hb s⟩ ends
  | indentation _ line _ _ _ _ =>
    rw [endsTag_of_startsLine line] at tag
    cases tag
  | lineEnd _ _ blank' hb' rest =>
    rw [List.append_assoc, List.append_assoc] at hs
    obtain ⟨rfl, hbreak⟩ := blank_append_inj blank blank' (isIndent_of_break hb)
      (isIndent_of_break hb') hs
    rcases hb with rfl | rfl <;> rcases hb' with rfl | rfl <;> simp at hbreak
    · exact hbreak ▸ rest
    · exact hbreak ▸ rest

/-- The rules leave one text only. -/
lemma unique (h : Thins options before s t) (h' : Thins options before s t') : t' = t := by
  induction h generalizing t' with
  | nil =>
    generalize hs : ([] : Text) = x at h'
    cases h' with
    | nil => rfl
    | keep => cases hs
    | indentation _ _ nonempty => exact absurd (List.append_eq_nil_iff.mp hs.symm).1 nonempty
    | lineEnd _ _ _ hb => rcases hb with rfl | rfl <;> simp at hs
  | keep indent ends _ ih =>
    obtain ⟨u, rfl, hrest⟩ := inv_keep indent ends h'
    rw [ih hrest]
  | indentation on line nonempty blank tag _ ih =>
    exact ih (inv_indentation line nonempty blank tag on h')
  | lineEnd on tag blank hb _ ih => exact ih (inv_lineEnd on tag blank hb h')

end Thins

lemma thins_iff : Thins options [] s t ↔ t = applyGlobal options s :=
  ⟨fun h => (thins_applyGlobal options s).unique h, fun h => h ▸ thins_applyGlobal options s⟩

end Unique

end Stencil.Whitespace
