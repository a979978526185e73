import Stencil.Proofs.Thinning

/-! What trim markers take from a text, as rules over the text from left to right. Main statement:
white space control follows its rules on every text, and takes no character but spaces, tabs, line
breaks and the dashes of the markers. -/
namespace Stencil.Whitespace

section Rules

def startsOpener : Text → Bool
  | '{' :: d :: '-' :: _ => Mark.opens d
  | _ => false

def startsCloser : Text → Bool
  | '-' :: d :: '}' :: _ => Mark.closes d
  | _ => false

/-- The text behind one character, if it starts with it. -/
def dropOne (c : Char) : Text → Text
  | [] => []
  | d :: s => if d = c then s else d :: s

/-- What a closing marker leaves of the text behind it: the run of spaces and tabs goes, then at
most one carriage return, then at most one line feed. -/
def behindMarker (s : Text) : Text := dropOne '\n' (dropOne '\r' (s.dropWhile Text.isIndent))

/-- What is left of a text when its markers are carried out. An opening marker loses its dash and
takes the run of spaces and tabs before it, a closing marker loses its dash and takes what stands
directly behind it, and every other character stays. -/
inductive Trims : (s t : Text) → Prop
  | nil : Trims [] []
  | keep {c : Char} {s t : Text}
      (opener : startsOpener ((c :: s).dropWhile Text.isIndent) = false)
      (closer : startsCloser (c :: s) = false) (rest : Trims s t) : Trims (c :: s) (c :: t)
  | opener {w s t : Text} {d : Char} (blank : ∀ c ∈ w, Text.isIndent c = true)
      (kind : Mark.opens d = true) (rest : Trims s t) :
      Trims (w ++ '{' :: d :: '-' :: s) ('{' :: d :: t)
  | closer {s t : Text} {d : Char} (kind : Mark.closes d = true) (rest : Trims (behindMarker s) t) :
      Trims ('-' :: d :: '}' :: s) (d :: '}' :: t)

end Rules

section Marks
variable {s w : Text} {c d : Char}

lemma startsOpener_iff :
    startsOpener s = true ↔ ∃ d rest, s = '{' :: d :: '-' :: rest ∧ Mark.opens d = true := by
  unfold startsOpener
  split
  · simp
  · rename_i h
    refine iff_of_false (by simp) ?_
    rintro ⟨d, rest, rfl, -⟩
    exact h d rest rfl

lemma startsCloser_iff :
    startsCloser s = true ↔ ∃ d rest, s = '-' :: d :: '}' :: rest ∧ Mark.closes d = true := by
  unfold startsCloser
  split
  · simp
  · rename_i h
    refine iff_of_false (by simp) ?_
    rintro ⟨d, rest, rfl, -⟩
    exact h d rest rfl

namespace Mark

lemma scan_char (hopen : startsOpener (c :: s) = false) (hclose : startsCloser (c :: s) = false) :
    scan (c :: s) = .char c :: scan s := by
  refine scan_cons ?_ ?_
  · rintro b _ rest rfl ⟨rfl, hb, rfl⟩
    exact Bool.false_ne_true (hopen.symm.trans hb)
  · rintro b _ rest rfl ⟨rfl, hb, rfl⟩
    exact Bool.false_ne_true (hclose.symm.trans hb)

lemma scan_indent (hc : Text.isIndent c = true) (s : Text) : scan (c :: s) = .char c :: scan s := by
  refine scan_cons ?_ ?_ <;>
  · rintro b _ rest rfl ⟨rfl, -, -⟩
    exact absurd hc (by decide)

lemma scan_blank (blank : ∀ c ∈ w, Text.isIndent c = true) (s : Text) :
    scan (w ++ s) = w.map .char ++ scan s := by
  induction w with
  | nil => rfl
  | cons c w ih =>
    obtain ⟨hc, hw⟩ := List.forall_mem_cons.mp blank
    rw [List.cons_append, scan_indent hc, ih hw]
    rfl

lemma trimBefore_blank (blank : ∀ c ∈ w, Text.isIndent c = true) (d : Char) (l : List Mark) :
    trimBefore (w.map .char ++ .opener d :: l) = .opener d :: trimBefore l := by
  induction w with
  | nil => rfl
  | cons c w ih =>
    obtain ⟨hc, hw⟩ := List.forall_mem_cons.mp blank
    rw [List.map_cons, List.cons_append, trimBefore, ih hw, hc]
    rfl

@[simp] lemma trimAfter_full_char (c : Char) (l : List Mark) :
    trimAfter .full (.char c :: l) = .char c :: trimAfter .full l := by simp [trimAfter]

@[simp] lemma trimAfter_full_opener (d : Char) (l : List Mark) :
    trimAfter .full (.opener d :: l) = .opener d :: trimAfter .full l := by simp [trimAfter]

@[simp] lemma trimAfter_closer (appetite : Appetite) (d : Char) (l : List Mark) :
    trimAfter appetite (.closer d :: l) = .closer d :: trimAfter .blanks l := by
  cases appetite <;> rfl

@[simp] lemma trimBefore_opener (d : Char) (l : List Mark) :
    trimBefore (.opener d :: l) = .opener d :: trimBefore l := rfl

@[simp] lemma trimBefore_closer (d : Char) (l : List Mark) :
    trimBefore (.closer d :: l) = .closer d :: trimBefore l := rfl

/-- Whether an opening marker comes first behind spaces and tabs. -/
lemma startsWithOpener_trimmed (s : Text) :
    startsWithOpener (trimBefore (trimAfter .full (scan s))) =
      startsOpener (s.dropWhile Text.isIndent) := by
  induction s with
  | nil => rfl
  | cons c s ih =>
    cases hc : Text.isIndent c with
    | true =>
      rw [scan_indent hc, List.dropWhile_cons_of_pos hc, ← ih, trimAfter_full_char, trimBefore, hc,
        Bool.true_and]
      split
      · rfl
      · rename_i h
        exact (Bool.eq_false_iff.mpr h).symm
    | false =>
      have hdrop : (c :: s).dropWhile Text.isIndent = c :: s := by simp [hc]
      rw [hdrop]
      cases hopen : startsOpener (c :: s) with
      | true =>
        obtain ⟨d, rest, hs, hd⟩ := startsOpener_iff.mp hopen
        rw [hs, scan_opener hd, trimAfter_full_opener]
        rfl
      | false =>
        cases hclose : startsCloser (c :: s) with
        | true =>
          obtain ⟨d, rest, hs, hd⟩ := startsCloser_iff.mp hclose
          rw [hs, scan_closer hd, trimAfter_closer]
          rfl
        | false =>
          rw [scan_char hopen hclose, trimAfter_full_char, trimBefore, hc, Bool.false_and]
          rfl

/-- A character that the appetite is not for ends it. -/
lemma trimAfter_scan_cons (appetite : Appetite)
    (hchar : ∀ l, trimAfter appetite (.char c :: l) = .char c :: trimAfter .full l) (s : Text) :
    trimAfter appetite (scan (c :: s)) = trimAfter .full (scan (c :: s)) := by
  obtain ⟨m, rest, -, hs, hscan⟩ := scan_cases c s
  rw [hscan]
  cases m with
  | char x =>
    obtain rfl : c = x := (List.cons.inj hs).1
    rw [hchar, trimAfter_full_char]
  | opener d => cases appetite <;> simp [trimAfter]
  | closer d => rw [trimAfter_closer, trimAfter_closer]

lemma trimAfter_feed (s : Text) :
    trimAfter .feed (scan s) = trimAfter .full (scan (dropOne '\n' s)) := by
  cases s with
  | nil => rfl
  | cons c s =>
    rw [dropOne]
    split
    · rename_i hfeed
      rw [hfeed, scan_char rfl rfl]
      rfl
    · rename_i hfeed
      exact trimAfter_scan_cons .feed (fun l => by simp [trimAfter, hfeed]) s

/-- The passes take behind a closing marker what the rule takes. -/
lemma trimAfter_blanks (s : Text) :
    trimAfter .blanks (scan s) = trimAfter .full (scan (behindMarker s)) := by
  induction s with
  | nil => rfl
  | cons c s ih =>
    cases hc : Text.isIndent c with
    | true =>
      have hbehind : behindMarker (c :: s) = behindMarker s := by
        rw [behindMarker, List.dropWhile_cons_of_pos hc, behindMarker]
      rw [scan_indent hc, hbehind, ← ih, trimAfter, if_pos hc]
    | false =>
      have hdrop : (c :: s).dropWhile Text.isIndent = c :: s := by simp [hc]
      rw [behindMarker, hdrop, dropOne]
      split
      · rename_i hreturn
        rw [hreturn, scan_char rfl rfl, ← trimAfter_feed]
        rfl
      · rename_i hreturn
        rw [dropOne]
        split
        · rename_i hfeed
          rw [hfeed, scan_char rfl rfl]
          rfl
        · rename_i hfeed
          exact trimAfter_scan_cons .blanks (fun l => by simp [trimAfter, hc, hreturn, hfeed]) s

end Mark

section Steps

lemma applyMarkers_keep (opener : startsOpener ((c :: s).dropWhile Text.isIndent) = false)
    (closer : startsCloser (c :: s) = false) : applyMarkers (c :: s) = c :: applyMarkers s := by
  have hopen : startsOpener (c :: s) = false := by
    rw [Bool.eq_false_iff]
    intro h
    obtain ⟨d, rest, hs, hd⟩ := startsOpener_iff.mp h
    have hdrop : ('{' :: d :: '-' :: rest).dropWhile Text.isIndent = '{' :: d :: '-' :: rest := rfl
    rw [hs, hdrop, ← hs, h] at opener
    cases opener
  have hkeep : (Text.isIndent c && Mark.startsWithOpener
      (Mark.trimBefore (Mark.trimAfter .full (Mark.scan s)))) = false := by
    rw [Mark.startsWithOpener_trimmed]
    cases hc : Text.isIndent c with
    | false => rfl
    | true => rwa [List.dropWhile_cons_of_pos hc] at opener
  rw [applyMarkers, Mark.scan_char hopen closer, Mark.trimAfter_full_char, Mark.trimBefore, hkeep]
  rfl

lemma applyMarkers_opener (blank : ∀ c ∈ w, Text.isIndent c = true) (kind : Mark.opens d = true)
    (s : Text) : applyMarkers (w ++ '{' :: d :: '-' :: s) = '{' :: d :: applyMarkers s := by
  rw [applyMarkers, Mark.scan_blank blank, Mark.scan_opener kind, Mark.trimAfter_append,
    Mark.trimAfter_full_opener, Mark.trimBefore_blank blank]
  rfl

lemma applyMarkers_closer (kind : Mark.closes d = true) (s : Text) :
    applyMarkers ('-' :: d :: '}' :: s) = d :: '}' :: applyMarkers (behindMarker s) := by
  rw [applyMarkers, Mark.scan_closer kind, Mark.trimAfter_closer, Mark.trimAfter_blanks]
  rfl

end Steps

end Marks

section Trims
variable {s t t' w : Text} {c d : Char}

lemma length_dropOne_le (c : Char) (s : Text) : (dropOne c s).length ≤ s.length := by
  cases s with
  | nil => exact le_rfl
  | cons d s =>
    rw [dropOne]
    split <;> simp

lemma length_behindMarker_le (s : Text) : (behindMarker s).length ≤ s.length :=
  calc (behindMarker s).length
      ≤ (dropOne '\r' (s.dropWhile Text.isIndent)).length := length_dropOne_le _ _
    _ ≤ (s.dropWhile Text.isIndent).length := length_dropOne_le _ _
    _ ≤ s.length := (List.dropWhile_suffix _).length_le

/-- White space control carries out the markers by the rules. -/
lemma trims_applyMarkers (s : Text) : Trims s (applyMarkers s) := by
  induction hn : s.length using Nat.strong_induction_on generalizing s with
  | _ n ih =>
    subst hn
    cases s with
    | nil => exact .nil
    | cons c s =>
      cases hopener : startsOpener ((c :: s).dropWhile Text.isIndent) with
      | true =>
        obtain ⟨d, rest, hrest, hd⟩ := startsOpener_iff.mp hopener
        have hs := List.takeWhile_append_dropWhile (p := Text.isIndent) (l := c :: s)
        rw [hrest] at hs
        have hlen := congrArg List.length hs
        rw [← hs, applyMarkers_opener (fun x hx => List.mem_takeWhile_imp hx) hd]
        refine .opener (fun x hx => List.mem_takeWhile_imp hx) hd (ih _ ?_ rest rfl)
        simp only [List.length_append, List.length_cons] at hlen ⊢
        omega
      | false =>
        cases hcloser : startsCloser (c :: s) with
        | true =>
          obtain ⟨d, rest, hs, hd⟩ := startsCloser_iff.mp hcloser
          have hlen := length_behindMarker_le rest
          rw [hs, applyMarkers_closer hd]
          refine .closer hd (ih _ ?_ _ rfl)
          rw [hs, List.length_cons, List.length_cons, List.length_cons]
          omega
        | false =>
          rw [applyMarkers_keep hopener hcloser]
          exact .keep hopener hcloser (ih _ (by simp) s rfl)

namespace Trims

lemma inv_keep (opener : startsOpener ((c :: s).dropWhile Text.isIndent) = false)
    (closer : startsCloser (c :: s) = false) (h : Trims (c :: s) t) :
    ∃ u, t = c :: u ∧ Trims s u := by
  generalize hs : c :: s = x at h
  cases h with
  | nil => cases hs
  | keep _ _ rest =>
    obtain ⟨rfl, rfl⟩ := List.cons.inj hs
    exact ⟨_, rfl, rest⟩
  | opener blank kind _ =>
    rw [hs, mem_of_dropWhile_indent blank] at opener
    exact absurd kind (Bool.eq_false_iff.mp opener)
  | closer kind _ =>
    rw [hs] at closer
    exact absurd kind (Bool.eq_false_iff.mp closer)

lemma inv_opener (blank : ∀ c ∈ w, Text.isIndent c = true) (kind : Mark.opens d = true)
    (h : Trims (w ++ '{' :: d :: '-' :: s) t) : ∃ u, t = '{' :: d :: u ∧ Trims s u := by
  generalize hs : w ++ '{' :: d :: '-' :: s = x at h
  cases h with
  | nil => simp at hs
  | keep opener _ _ =>
    rw [← hs, mem_of_dropWhile_indent blank] at opener
    exact absurd kind (Bool.eq_false_iff.mp opener)
  | opener blank' _ rest =>
    obtain ⟨-, heq⟩ := blank_append_inj blank blank' (by simp [Text.isIndent])
      (by simp [Text.isIndent]) hs
    simp only [List.cons.injEq, true_and] at heq
    obtain ⟨rfl, rfl⟩ := heq
    exact ⟨_, rfl, rest⟩
  | closer =>
    cases w with
    | nil => simp at hs
    | cons c w =>
      obtain ⟨rfl, -⟩ := List.cons.inj hs
      exact absurd (blank '-' List.mem_cons_self) (by decide)

lemma inv_closer (kind : Mark.closes d = true) (h : Trims ('-' :: d :: '}' :: s) t) :
    ∃ u, t = d :: '}' :: u ∧ Trims (behindMarker s) u := by
  generalize hs : '-' :: d :: '}' :: s = x at h
  cases h with
  | nil => cases hs
  | keep _ closer _ =>
    rw [← hs] at closer
    exact absurd kind (Bool.eq_false_iff.mp closer)
  | @opener w _ _ _ blank _ _ =>
    cases w with
    | nil => simp at hs
    | cons c w =>
      obtain ⟨rfl, -⟩ := List.cons.inj hs
      exact absurd (blank '-' List.mem_cons_self) (by decide)
  | closer _ rest =>
    simp only [List.cons.injEq, true_and] at hs
    obtain ⟨rfl, rfl⟩ := hs
    exact ⟨_, rfl, rest⟩

/-- The rules leave one text only. -/
lemma unique (h : Trims s t) (h' : Trims s t') : t' = t := by
  induction h generalizing t' with
  | nil =>
    generalize hs : ([] : Text) = x at h'
    cases h' with
    | nil => rfl
    | keep => cases hs
    | opener => simp at hs
    | closer => cases hs
  | keep opener closer _ ih =>
    obtain ⟨u, rfl, hrest⟩ := inv_keep opener closer h'
    rw [ih hrest]
  | opener blank kind _ ih =>
    obtain ⟨u, rfl, hrest⟩ := inv_opener blank kind h'
    rw [ih hrest]
  | closer kind _ ih =>
    obtain ⟨u, rfl, hrest⟩ := inv_closer kind h'
    rw [ih hrest]

end Trims

lemma trims_iff : Trims s t ↔ t = applyMarkers s :=
  ⟨fun h => (trims_applyMarkers s).unique h, fun h => h ▸ trims_applyMarkers s⟩

end Trims

section Solid
open Mark

lemma solid_flatMap_cons (m : Mark) (l : List Mark) :
    solid ((m :: l).flatMap text) = solid m.text ++ solid (l.flatMap text) := by
  rw [List.flatMap_cons, solid_append]

/-- A spacing character does not count. -/
lemma solid_flatMap_spacing {c : Char} (hc : isSpacing c = true) (l : List Mark) :
    solid ((.char c :: l).flatMap text) = solid (l.flatMap text) := by
  rw [solid_flatMap_cons, text, solid_of_spacing (by simpa using hc), List.nil_append]

lemma solid_trimAfter (appetite : Appetite) (l : List Mark) :
    solid ((trimAfter appetite l).flatMap text) = solid (l.flatMap text) := by
  fun_induction trimAfter appetite l with
  | case1 => rfl
  | case2 c rest hc ih => rw [ih, solid_flatMap_spacing (isSpacing_of_isIndent hc)]
  | case3 c rest _ hc ih => rw [ih, solid_flatMap_spacing (by simp [isSpacing, beq_iff_eq.mp hc])]
  | case4 c rest _ _ hc ih => rw [ih, solid_flatMap_spacing (by simp [isSpacing, beq_iff_eq.mp hc])]
  | case6 c rest hc ih => rw [ih, solid_flatMap_spacing (by simp [isSpacing, beq_iff_eq.mp hc])]
  | case5 _ _ _ _ _ ih | case7 _ _ _ ih | case8 _ _ _ ih | case9 _ _ _ _ _ _ ih =>
    rw [solid_flatMap_cons, solid_flatMap_cons, ih]

lemma solid_trimBefore (l : List Mark) :
    solid ((trimBefore l).flatMap text) = solid (l.flatMap text) := by
  induction l with
  | nil => rfl
  | cons m l ih =>
    cases m with
    | char c =>
      rw [trimBefore]
      split
      · rename_i h
        rw [ih, solid_flatMap_spacing (isSpacing_of_isIndent (Bool.and_eq_true_iff.mp h).1)]
      · rw [solid_flatMap_cons, solid_flatMap_cons, ih]
    | opener d => rw [trimBefore_opener, solid_flatMap_cons, solid_flatMap_cons, ih]
    | closer d => rw [trimBefore_closer, solid_flatMap_cons, solid_flatMap_cons, ih]

end Solid

/-- White space control follows its rules on every text, and takes no character but spaces, tabs,
line breaks and the dash of each marker. -/
theorem removals_exact (options : WhitespaceOptions) (s : Text) :
    (∀ t, Thins options [] s t ↔ t = applyGlobal options s) ∧
    solid (applyGlobal options s) = solid s ∧
    (∀ t, Trims s t ↔ t = applyMarkers s) ∧
    (Mark.scan s).flatMap Mark.written = s ∧
    solid (applyMarkers s) = solid ((Mark.scan s).flatMap Mark.text) :=
  ⟨fun _ => thins_iff, (thins_applyGlobal options s).solid_eq, fun _ => trims_iff,
    Mark.flatMap_written_scan s, by
      rw [applyMarkers, solid_trimBefore, solid_trimAfter]⟩

end Stencil.Whitespace
