import Stencil.Proofs.Dashes

/-! White space control twice. Trim markers that are apart from other dashes leave no markers, and
line breaks that are taken away leave no indentation before a control tag, so that a second pass
has only to do with the line breaks behind tags. Main statement: a second pass changes nothing
exactly when no control tag ends its line before a blank line. -/
namespace Stencil

namespace Text

lemma infix_of_mem_lines {s line : Text} (h : line ∈ s.lines) : line <:+: s := by
  have hmem (ls : List Text) (h : line ∈ ls) : line <:+: unlines ls := by
    induction ls with
    | nil => cases h
    | cons a ls ih =>
      cases ls with
      | nil =>
        obtain rfl := List.mem_singleton.mp h
        simp [unlines]
      | cons b ls =>
        rw [unlines_cons_cons]
        rcases List.mem_cons.mp h with rfl | h
        · exact (List.prefix_append _ _).isInfix
        · have hrest := (List.suffix_cons '\n' (unlines (b :: ls))).trans (List.suffix_append a _)
          exact (ih h).trans hrest.isInfix
  simpa using hmem s.lines h

lemma lines_cons (c : Char) (s : Text) :
    lines (c :: s) = if c = '\n' then [] :: s.lines else s.lines.modifyHead (c :: ·) := by
  simp [lines, List.splitOn_cons_eq_if_modifyHead]

/-- Behind its first line a text at the end of another has the lines of that one. -/
lemma tail_lines_subset_of_suffix {s t : Text} (h : t <:+ s) : t.lines.tail ⊆ s.lines.tail := by
  induction s with
  | nil =>
    rw [List.suffix_nil.mp h]
    exact fun _ => id
  | cons c s ih =>
    rcases List.suffix_cons_iff.mp h with rfl | h
    · exact fun _ => id
    · refine fun line hline => ?_
      have := ih h hline
      rw [lines_cons]
      split
      · exact List.mem_of_mem_tail this
      · rwa [List.tail_modifyHead]

/-- The lines of a text at the start of another begin as the lines of that one do. -/
lemma exists_lines_of_prefix {s t : Text} (h : t <+: s) :
    ∃ first others first' others', t.lines = first :: others ∧ s.lines = first' :: others' ∧
      first <+: first' ∧ ∀ line ∈ others, ∃ whole ∈ others', line <+: whole := by
  obtain ⟨rest, rfl⟩ := h
  induction t with
  | nil =>
    obtain ⟨first, others, hs⟩ := List.exists_cons_of_ne_nil (List.splitOn_ne_nil '\n' rest)
    exact ⟨[], [], first, others, rfl, hs, List.nil_prefix, by simp⟩
  | cons c t ih =>
    obtain ⟨first, others, first', others', ht, hs, hfirst, hothers⟩ := ih
    rw [List.cons_append, lines_cons, lines_cons, ht, hs]
    split
    · refine ⟨[], first :: others, [], first' :: others', rfl, rfl, List.prefix_rfl, ?_⟩
      refine List.forall_mem_cons.mpr ⟨⟨first', List.mem_cons_self, hfirst⟩, fun line hline => ?_⟩
      obtain ⟨whole, hwhole, hpre⟩ := hothers line hline
      exact ⟨whole, List.mem_cons_of_mem first' hwhole, hpre⟩
    · exact ⟨c :: first, others, c :: first', others', rfl, rfl,
        List.cons_prefix_cons.mpr ⟨rfl, hfirst⟩, hothers⟩

end Text

lemma Delimiter.length_of_mem_markers {d : Delimiter} {m : Text} (h : m ∈ d.markers) :
    m.length = 3 := by
  simp only [markers, List.mem_cons, List.not_mem_nil, or_false] at h
  rcases h with rfl | rfl <;> rfl

namespace Whitespace

namespace MarkerFree

lemma unlines {ls : List Text} (h : ∀ line ∈ ls, MarkerFree line) :
    MarkerFree (Text.unlines ls) := by
  induction ls with
  | nil => exact nil
  | cons a ls ih =>
    obtain ⟨ha, hls⟩ := List.forall_mem_cons.mp h
    cases ls with
    | nil => simpa [Text.unlines] using ha
    | cons b ls =>
      rw [Text.unlines_cons_cons]
      exact ha.append_cons (ih hls) (by rintro (_ | _ | _) <;> decide)

lemma stripIndents {s : Text} (h : MarkerFree s) : MarkerFree (stripIndents s) := by
  refine unlines fun line hline => ?_
  obtain ⟨whole, hwhole, rfl⟩ := List.mem_map.mp hline
  exact h.of_infix ((stripIndent_suffix whole).isInfix.trans (Text.infix_of_mem_lines hwhole))

end MarkerFree

lemma head?_trimBreaksFrom (s : Text) : (trimBreaksFrom false s).head? = s.head? := by
  unfold trimBreaksFrom
  split
  · rfl
  · contradiction
  · rfl
  · rfl

lemma take_trimBreaksFrom (s : Text) : (trimBreaksFrom false s).take 2 = s.take 2 := by
  unfold trimBreaksFrom
  split
  · rfl
  · contradiction
  · rfl
  · rename_i s _
    rw [List.take_succ_cons, List.take_succ_cons, List.take_one, List.take_one,
      head?_trimBreaksFrom]

/-- What is taken away stands behind a closer, which begins no marker. -/
lemma MarkerFree.trimBreaksFrom {s : Text} (h : MarkerFree s) (skipping : Bool) :
    MarkerFree (trimBreaksFrom skipping s) := by
  fun_induction Whitespace.trimBreaksFrom skipping s with
  | case1 => exact h
  | case2 c s ih => exact ih h.tail
  | case3 s ih =>
    exact ((ih h.tail.tail).cons_of_ne (by decide) (by decide)).cons_of_ne (by decide) (by decide)
  | case4 c s _ ih =>
    refine (ih h.tail).cons fun d m hm hpre => ?_
    rw [List.prefix_iff_eq_take, Delimiter.length_of_mem_markers hm, List.take_succ_cons,
      take_trimBreaksFrom, ← List.take_succ_cons] at hpre
    exact h d m hm (hpre ▸ (List.take_prefix 3 (c :: s)).isInfix)

lemma breakFollows_cons {c : Char} (hc : Text.isIndent c = false) (s : Text) :
    breakFollows (c :: s) = (c == '\n' || c == '\r' && s.head? == some '\n') := by
  simp only [breakFollows, List.dropWhile_cons, hc, Bool.false_eq_true, if_false]
  split
  · simp_all
  · simp_all
  · rename_i hfeed hreturn
    cases s <;> simp_all

lemma breakFollows_trimBreaksFrom (s : Text) :
    breakFollows (trimBreaksFrom false s) = breakFollows s := by
  have hindent : ∀ c ∈ s.takeWhile Text.isIndent, Text.isIndent c = true :=
    fun c hc => List.mem_takeWhile_imp hc
  have hpercent : '%' ∉ s.takeWhile Text.isIndent := fun hmem => by cases hindent _ hmem
  rw [← List.takeWhile_append_dropWhile (p := Text.isIndent) (l := s),
    trimBreaksFrom_append hpercent, breakFollows_append hindent, breakFollows_append hindent]
  cases hrest : s.dropWhile Text.isIndent with
  | nil => rfl
  | cons c rest =>
    have hc : Text.isIndent c = false := by
      have := List.head?_dropWhile_not Text.isIndent s
      simpa [hrest] using this
    have hhead := head?_trimBreaksFrom (c :: rest)
    have htake := take_trimBreaksFrom (c :: rest)
    obtain ⟨rest', hrest'⟩ := List.head?_eq_some_iff.mp hhead
    rw [hrest'] at htake ⊢
    have : rest'.head? = rest.head? := by
      simpa [List.take_one] using congrArg (fun t => (t.drop 1).head?) htake
    rw [breakFollows_cons hc, breakFollows_cons hc, this]

variable {options : WhitespaceOptions} {s : Text}

/-- On no line an indentation stands before a control tag. -/
def Unindented (s : Text) : Prop := ∀ line ∈ s.lines, opensIndented line = false

lemma unindented_stripIndents (s : Text) : Unindented (stripIndents s) := by
  intro line hline
  rw [lines_stripIndents] at hline
  obtain ⟨whole, -, rfl⟩ := List.mem_map.mp hline
  rw [stripIndent]
  split
  · have hhead := List.head?_dropWhile_not Text.isIndent whole
    cases h : whole.dropWhile Text.isIndent with
    | nil => rfl
    | cons c line =>
      rw [h] at hhead
      simp_all [opensIndented]
  · rename_i hstart
    rw [opensIndented, eq_false_of_ne_true hstart, Bool.and_false]

lemma startsControlTag_cons_cons (a b : Char) (s : Text) :
    startsControlTag (a :: b :: s) = (a == '{' && b == '%') := by
  unfold startsControlTag
  split
  · simp_all
  · rename_i hne
    rw [eq_comm, Bool.and_eq_false_iff, beq_eq_false_iff_ne, beq_eq_false_iff_ne]
    by_contra h
    simp_all

/-- Behind a closer the rest of the line does not matter. -/
lemma opensIndented_append_closer (a s : Text) :
    opensIndented (a ++ '%' :: '}' :: s) = opensIndented (a ++ ['%', '}']) := by
  have hstart (a : Text) : startsControlTag ((a ++ '%' :: '}' :: s).dropWhile Text.isIndent) =
      startsControlTag ((a ++ ['%', '}']).dropWhile Text.isIndent) := by
    induction a with
    | nil => rfl
    | cons c a ih =>
      rw [List.cons_append, List.cons_append, List.dropWhile_cons, List.dropWhile_cons]
      split
      · exact ih
      · cases a with
        | nil => rw [List.nil_append, startsControlTag_cons_cons, List.nil_append,
            startsControlTag_cons_cons]
        | cons b a => rw [List.cons_append, startsControlTag_cons_cons, List.cons_append,
            startsControlTag_cons_cons]
  have hhead : (a ++ '%' :: '}' :: s).head? = (a ++ ['%', '}']).head? := by
    cases a <;> rfl
  rw [opensIndented, opensIndented, hstart, hhead]

namespace Unindented
variable {a : Text} (ha : '\n' ∉ a)
include ha

lemma append_break_iff : Unindented (a ++ '\n' :: s) ↔ opensIndented a = false ∧ Unindented s := by
  rw [Unindented, Text.lines_append ha, Text.lines_cons, if_pos rfl, List.modifyHead_cons,
    List.append_nil, List.forall_mem_cons]
  rfl

lemma append_closer_iff : Unindented (a ++ '%' :: '}' :: s) ↔
    opensIndented (a ++ ['%', '}']) = false ∧
      ∀ line ∈ s.lines.tail, opensIndented line = false := by
  obtain ⟨first, others, hs⟩ := List.exists_cons_of_ne_nil (List.splitOn_ne_nil '\n' s)
  change s.lines = first :: others at hs
  have hcloser : '\n' ∉ a ++ ['%', '}'] := by simpa using ha
  have hlines := Text.lines_append hcloser s
  rw [hs, List.modifyHead_cons, List.append_assoc, List.append_assoc] at hlines
  change Text.lines (a ++ '%' :: '}' :: s) = (a ++ '%' :: '}' :: first) :: others at hlines
  rw [Unindented, hlines, hs, List.forall_mem_cons, opensIndented_append_closer, List.tail_cons]

lemma of_append_closer {c : Char} (h : Unindented (a ++ '%' :: '}' :: c :: s)) :
    Unindented (a ++ '%' :: '}' :: s) := by
  rw [append_closer_iff ha] at h ⊢
  exact h.imp_right fun h line hline =>
    h line (Text.tail_lines_subset_of_suffix (List.suffix_cons c s) hline)

omit ha in
/-- A line that loses its break goes on behind a closer. -/
lemma append_trimBreaksFrom {skipping : Bool} (ha : '\n' ∉ a)
    (hskip : skipping = true → ∃ b, a = b ++ ['%', '}']) (h : Unindented (a ++ s)) :
    Unindented (a ++ trimBreaksFrom skipping s) := by
  fun_induction Whitespace.trimBreaksFrom skipping s generalizing a with
  | case1 => exact h
  | case2 c s ih =>
    obtain ⟨b, rfl⟩ := hskip rfl
    rw [List.append_assoc] at h
    have := of_append_closer (by simpa using ha) h
    exact ih ha (fun _ => ⟨b, rfl⟩) (by simpa using this)
  | case3 s ih =>
    have := ih (a := a ++ ['%', '}']) (by simpa using ha) (fun _ => ⟨a, rfl⟩) (by simpa using h)
    simpa using this
  | case4 c s _ ih =>
    by_cases hc : c = '\n'
    · subst hc
      rw [append_break_iff ha] at h ⊢
      exact h.imp_right fun h => ih (a := []) (by simp) (by simp) h
    · have := ih (a := a ++ [c]) (by simpa [Ne.symm hc] using ha) (by simp) (by simpa using h)
      simpa using this

end Unindented

lemma unindented_trimBreaks (h : Unindented s) : Unindented (trimBreaks s) :=
  h.append_trimBreaksFrom (a := []) (by simp) (by simp)

/-- What follows the first line break. -/
def nextLine (s : Text) : Text := (s.dropWhile (· != '\n')).tail

/-- A control tag's closer starts the text, and behind its line comes a blank line. -/
def closesTwice : Text → Bool := behindCloser fun s => breakFollows s && breakFollows (nextLine s)

lemma nextLine_append {w : Text} (hw : '\n' ∉ w) (rest : Text) :
    nextLine (w ++ '\n' :: rest) = rest := by
  have hdrop : w.dropWhile (· != '\n') = [] := by
    refine List.dropWhile_eq_nil_iff.mpr fun c hc => ?_
    simpa using fun h : c = '\n' => hw (h ▸ hc)
  rw [nextLine, List.dropWhile_append, hdrop]
  rfl

/-- Behind a closer the next line break comes up when the first one is gone. -/
lemma breakFollows_skipped (s : Text) : breakFollows (trimBreaksFrom (breakFollows s) s) =
    (breakFollows s && breakFollows (nextLine s)) := by
  cases hb : breakFollows s with
  | false => rw [breakFollows_trimBreaksFrom, hb, Bool.false_and]
  | true =>
    obtain ⟨w, rest, rfl, hw, -, -⟩ := eq_of_breakFollows hb
    rw [trimBreaksFrom_true hw, nextLine_append hw, trimBreaks, breakFollows_trimBreaksFrom,
      Bool.true_and]

/-- A tag still ends its line when the line breaks behind tags are gone if it ended two. -/
lemma closesLine_trimBreaksFrom_iff {skipping : Bool}
    (hskip : skipping = true → ∃ w rest, s = w ++ '\n' :: rest ∧ '%' ∉ w) :
    (∀ t ∈ (trimBreaksFrom skipping s).tails, closesLine t = false) ↔
      ∀ t ∈ s.tails, closesTwice t = false := by
  fun_induction trimBreaksFrom skipping s with
  | case1 => simp [closesLine, closesTwice, behindCloser]
  | case2 c s ih =>
    obtain ⟨w, rest, heq, hw⟩ := hskip rfl
    have hc : c ≠ '%' ∧ ((c != '\n') = true → ∃ w rest, s = w ++ '\n' :: rest ∧ '%' ∉ w) := by
      cases w with
      | nil =>
        obtain ⟨rfl, -⟩ := List.cons.inj heq
        simp
      | cons b w =>
        obtain ⟨rfl, rfl⟩ := List.cons.inj heq
        simp only [List.mem_cons, not_or] at hw
        exact ⟨Ne.symm hw.1, fun _ => ⟨w, rest, rfl, hw.2⟩⟩
    have hfirst : closesTwice (c :: s) = false :=
      behindCloser_cons_eq_false _ fun t h => absurd h hc.1
    rw [ih hc.2, List.tails_cons, List.forall_mem_cons, hfirst, eq_self, true_and]
  | case3 s ih =>
    have hrest := ih fun h => by
      obtain ⟨w, rest, heq, -, hw, -⟩ := eq_of_breakFollows h
      exact ⟨w, rest, heq, hw⟩
    have hline : closesLine ('%' :: '}' :: trimBreaksFrom (breakFollows s) s) =
        closesTwice ('%' :: '}' :: s) := breakFollows_skipped s
    have hbrace : closesLine ('}' :: trimBreaksFrom (breakFollows s) s) = false :=
      behindCloser_cons_eq_false _ (by simp)
    have hbrace' : closesTwice ('}' :: s) = false := behindCloser_cons_eq_false _ (by simp)
    simp only [List.tails_cons, List.forall_mem_cons, hrest, hline, hbrace, hbrace']
  | case4 c s hne ih =>
    have hne' (t : Text) (hc : c = '%') (h : trimBreaksFrom false s = '}' :: t) : False := by
      have hhead := head?_trimBreaksFrom s
      rw [h] at hhead
      obtain ⟨rest, hrest⟩ := List.head?_eq_some_iff.mp hhead.symm
      exact hne rest hc hrest
    have hfirst : closesLine (c :: trimBreaksFrom false s) = false :=
      behindCloser_cons_eq_false _ hne'
    have hfirst' : closesTwice (c :: s) = false := behindCloser_cons_eq_false _ hne
    simp only [List.tails_cons, List.forall_mem_cons, ih (by simp), hfirst, hfirst']

/-- White space control is settled in one pass but for the line breaks behind tags. -/
lemma settled_control_iff (h : DashesApart s) : Settled options (control options s) ↔
    (options.trimBlocks = true →
      ∀ t ∈ (control { options with trimBlocks := false } s).tails, closesTwice t = false) := by
  have hmarkers : MarkerFree (control { options with trimBlocks := false } s) := by
    rw [control, applyGlobal]
    have := markerFree_applyMarkers h
    cases options.lstripBlocks
    · exact this
    · exact this.stripIndents
  have hindents (hstrip : options.lstripBlocks = true) :
      Unindented (control { options with trimBlocks := false } s) := by
    rw [control, applyGlobal, if_pos hstrip]
    exact unindented_stripIndents _
  cases htrim : options.trimBlocks with
  | false =>
    have heq : options = { options with trimBlocks := false } := by rw [← htrim]
    refine iff_of_true ?_ (by simp)
    rw [heq]
    exact ⟨hmarkers, hindents, by simp⟩
  | true =>
    have heq : control options s =
        trimBreaks (control { options with trimBlocks := false } s) := by
      rw [control, applyGlobal, if_pos htrim]
      rfl
    rw [heq]
    refine ⟨fun hsettled _ => ?_, fun hlines => ?_⟩
    · exact (closesLine_trimBreaksFrom_iff (by simp)).mp (hsettled.breaks htrim)
    · exact ⟨hmarkers.trimBreaksFrom false, fun hstrip => unindented_trimBreaks (hindents hstrip),
        fun _ => (closesLine_trimBreaksFrom_iff (by simp)).mpr (hlines rfl)⟩

lemma opensIndented_of_prefix {line whole : Text} (h : line <+: whole)
    (hline : opensIndented line = true) : opensIndented whole = true := by
  obtain ⟨rest, rfl⟩ := h
  obtain ⟨hhead, hstart⟩ := Bool.and_eq_true_iff.mp hline
  unfold startsControlTag at hstart
  split at hstart
  · rename_i tag htag
    rw [opensIndented, List.dropWhile_append, htag]
    cases line with
    | nil => cases hhead
    | cons c line => exact Bool.and_eq_true_iff.mpr ⟨hhead, rfl⟩
  · cases hstart

lemma breakFollows_append_right {s : Text} (h : breakFollows s = true) (rest : Text) :
    breakFollows (s ++ rest) = true := by
  unfold breakFollows at h ⊢
  rw [List.dropWhile_append]
  split at h
  · simp_all
  · simp_all
  · cases h

lemma Unindented.of_infix {t : Text} (h : Unindented s) (ht : t <:+: s)
    (hstart : ∀ line ∈ t.lines.head?, opensIndented line = false) : Unindented t := by
  obtain ⟨u, hu, hs⟩ := List.infix_iff_prefix_suffix.mp ht
  obtain ⟨first, others, first', others', htlines, hulines, -, hothers⟩ :=
    Text.exists_lines_of_prefix hu
  rw [Unindented, htlines]
  rw [htlines] at hstart
  refine List.forall_mem_cons.mpr ⟨hstart first rfl, fun line hline => ?_⟩
  obtain ⟨whole, hwhole, hpre⟩ := hothers line hline
  have hmem : whole ∈ s.lines := by
    refine List.mem_of_mem_tail (Text.tail_lines_subset_of_suffix hs ?_)
    rwa [hulines]
  rw [Bool.eq_false_iff]
  intro hopen
  have := opensIndented_of_prefix hpre hopen
  cases (h whole hmem).symm.trans this

lemma closesLine_of_prefix {t u : Text} (h : t <+: u) (ht : closesLine t = true) :
    closesLine u = true := by
  obtain ⟨rest, rfl⟩ := h
  unfold closesLine behindCloser at ht
  split at ht
  · exact breakFollows_append_right ht rest
  · cases ht

lemma closesLine_of_infix {t : Text} (h : ∀ u ∈ s.tails, closesLine u = false) (ht : t <:+: s) :
    ∀ u ∈ t.tails, closesLine u = false := by
  obtain ⟨v, ⟨rest, rfl⟩, hs⟩ := List.infix_iff_prefix_suffix.mp ht
  intro u hu
  obtain ⟨front, rfl⟩ := (List.mem_tails _ _).mp hu
  rw [List.append_assoc] at hs
  have hsuffix : u ++ rest <:+ s := (List.suffix_append _ _).trans hs
  rw [Bool.eq_false_iff]
  intro hline
  have := closesLine_of_prefix (List.prefix_append u rest) hline
  cases (h _ ((List.mem_tails _ _).mpr hsuffix)).symm.trans this

/-- A text cut out of a settled one is settled, unless it starts with an indentation that was none
before. -/
lemma Settled.of_infix {t : Text} (h : Settled options s) (ht : t <:+: s)
    (hstart : options.lstripBlocks = true → ∀ line ∈ t.lines.head?, opensIndented line = false) :
    Settled options t where
  markers := h.markers.of_infix ht
  indents hstrip := Unindented.of_infix (h.indents hstrip) ht (hstart hstrip)
  breaks htrim := closesLine_of_infix (h.breaks htrim) ht

end Whitespace

namespace Renderer
open Whitespace

/-- A second preprocessing changes nothing exactly when the first one leaves a settled text without
comments. After markers that are apart from other dashes it does so unless a tag ends its line
before a blank line. A body that is cut out of a settled text is left as it is. -/
theorem preprocess_preprocess_iff (r : Renderer) (s : Text) :
    (r.preprocess (r.preprocess s) = r.preprocess s ↔
      Settled r.options.whitespace (r.preprocess s) ∧
        ∀ y ∈ Scan.symbols (r.preprocess s), y.tag? ≠ some .comment) ∧
    (DashesApart s →
      (∀ y ∈ Scan.symbols (control r.options.whitespace s), y.tag? ≠ some .comment) →
      (r.preprocess (r.preprocess s) = r.preprocess s ↔
        (r.options.whitespace.trimBlocks = true →
          ∀ t ∈ (control { r.options.whitespace with trimBlocks := false } s).tails,
            closesTwice t = false))) ∧
    (Settled r.options.whitespace (r.preprocess s) → ∀ t : Text, t <:+: r.preprocess s →
      (r.options.whitespace.lstripBlocks = true →
        ∀ line ∈ t.lines.head?, opensIndented line = false) →
      (∀ y ∈ Scan.symbols t, y.tag? ≠ some .comment) → r.preprocess t = t) := by
  refine ⟨preprocess_eq_self_iff, fun hdashes hcomments => ?_, fun hsettled t ht hstart hcomments =>
    preprocess_eq_self_iff.mpr ⟨hsettled.of_infix ht hstart, hcomments⟩⟩
  have hpre : r.preprocess s = control r.options.whitespace s := by
    change Symbol.textWithout isComment (Scan.symbols (control r.options.whitespace s)) = _
    rw [Symbol.textWithout_of_none, Scan.textOf_symbols]
    refine List.any_eq_false.mpr fun y hy => ?_
    have := hcomments y hy
    cases hy : y.tag? <;> simp_all [isComment]
  rw [hpre, preprocess_eq_self_iff, and_iff_left hcomments, settled_control_iff hdashes]

def marked : Text := "a\n  {%- if x -%}  \n b{% endif %}\nc\n".toList

theorem preprocess_preprocess_marked :
    let r : Renderer := {}
    r.preprocess marked = "a\n{% if x %} b{% endif %}c\n".toList ∧
      r.preprocess (r.preprocess marked) = r.preprocess marked ∧
      r.preprocess " b".toList = " b".toList := by
  intro r
  have hpre : r.preprocess marked = "a\n{% if x %} b{% endif %}c\n".toList := by decide +kernel
  have htwice : r.preprocess (r.preprocess marked) = r.preprocess marked := by
    refine ((preprocess_preprocess_iff r marked).2.1 ?_ (by decide +kernel)).mpr ?_
    · rintro (_ | _ | _) <;> decide +kernel
    · decide +kernel
  refine ⟨hpre, htwice, ?_⟩
  refine (preprocess_preprocess_iff r marked).2.2
    ((preprocess_preprocess_iff r marked).1.mp htwice).1 _ ?_ (by decide) (by decide +kernel)
  rw [hpre]
  decide +kernel

/-- The second line break behind the inner `endif` goes when its tag is read again inside the outer
branch. -/
theorem render_twoBreaks :
    let r : Renderer := {}
    let store : Store := .ofList []
    let s := "{% if true %}{% if true %}y{% endif %}\n\nx{% endif %}".toList
    (∀ d : Delimiter, ∀ m ∈ d.doubledMarkers, ¬m <:+: s) ∧
      r.preprocess s = "{% if true %}{% if true %}y{% endif %}\nx{% endif %}".toList ∧
      r.preprocess (r.preprocess s) ≠ r.preprocess s ∧
      store.render s = .ok ⟨"yx".toList, []⟩ := by
  refine ⟨?_, by decide +kernel, by decide +kernel, by decide +kernel⟩
  rintro (_ | _ | _) <;> decide +kernel

end Renderer
end Stencil
