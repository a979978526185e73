import Stencil.Proofs.FailOpen
import Stencil.Proofs.FilePath
import Stencil.Proofs.InMemory
import Stencil.Proofs.Whitespace

/-! Settled texts. Every stage of the preprocessing only takes characters away, so that a text comes
out as it went in exactly when each stage finds nothing to take: no trim marker, no indentation
before a control tag, no line break behind one, no comment. Main statement: all that happens to a
text without tags is that it loses what white space control takes from it. -/
namespace Stencil

namespace Text

lemma lines_unlines {ls : List Text} (hne : ls ≠ []) (h : ∀ line ∈ ls, '\n' ∉ line) :
    lines (unlines ls) = ls := List.splitOn_intercalate '\n' h hne

lemma unlines_cons_cons (a b : Text) (ls : List Text) :
    unlines (a :: b :: ls) = a ++ '\n' :: unlines (b :: ls) := by
  simp [unlines, List.intercalate_cons_cons]

/-- Lines that lose characters make up a text that does. -/
lemma unlines_map_sublist {f : Text → Text} (h : ∀ line, (f line).Sublist line) (ls : List Text) :
    (unlines (ls.map f)).Sublist (unlines ls) := by
  induction ls with
  | nil => exact .slnil
  | cons a ls ih =>
    cases ls with
    | nil => simpa [unlines] using h a
    | cons b ls =>
      simp only [List.map_cons] at ih ⊢
      rw [unlines_cons_cons, unlines_cons_cons]
      exact (h a).append (ih.cons_cons '\n')

/-- A part of a text that lacks a character lies on one side of it. -/
lemma infix_append_cons {a b m : Text} {c : Char} (h : m <:+: a ++ c :: b) (hc : c ∉ m) :
    m <:+: a ∨ m <:+: b := by
  induction a with
  | nil =>
    rcases List.infix_cons_iff.mp h with hpre | hin
    · cases m with
      | nil => exact .inl List.infix_rfl
      | cons x m =>
        obtain ⟨rfl, -⟩ := List.cons_prefix_cons.mp hpre
        exact absurd List.mem_cons_self hc
    · exact .inr hin
  | cons x a ih =>
    rcases List.infix_cons_iff.mp h with hpre | hin
    · have ha := List.prefix_append (x :: a) (c :: b)
      rcases List.prefix_or_prefix_of_prefix hpre ha with hm | ⟨t, rfl⟩
      · exact .inl hm.isInfix
      · have ht : t <+: c :: b := (List.prefix_append_right_inj (x :: a)).mp hpre
        cases t with
        | nil => exact .inl (by simp)
        | cons y t =>
          obtain ⟨rfl, -⟩ := List.cons_prefix_cons.mp ht
          simp at hc
    · exact (ih hin).imp_left fun h => h.trans (List.suffix_cons x a).isInfix

end Text

namespace Whitespace

namespace MarkerFree

lemma of_infix {s t : Text} (h : MarkerFree s) (ht : t <:+: s) : MarkerFree t :=
  fun d m hm hin => h d m hm (hin.trans ht)

/-- Beside a character that belongs to no marker nothing is joined to one. -/
lemma append_cons {a b : Text} {c : Char} (ha : MarkerFree a) (hb : MarkerFree b)
    (hc : ∀ d : Delimiter, ∀ m ∈ d.markers, c ∉ m) : MarkerFree (a ++ c :: b) := by
  intro d m hm hin
  cases Text.infix_append_cons hin (hc d m hm) with
  | inl hin => exact ha d m hm hin
  | inr hin => exact hb d m hm hin

lemma nil : MarkerFree [] := by
  rintro (_ | _ | _) <;> decide

lemma cons {c : Char} {s : Text} (h : MarkerFree s)
    (hc : ∀ d : Delimiter, ∀ m ∈ d.markers, ¬m <+: c :: s) : MarkerFree (c :: s) := by
  intro d m hm hin
  cases List.infix_cons_iff.mp hin with
  | inl hpre => exact hc d m hm hpre
  | inr hin => exact h d m hm hin

/-- A marker begins with a brace or with a dash. -/
lemma cons_of_ne {c : Char} {s : Text} (h : MarkerFree s) (hbrace : c ≠ '{')
    (hdash : c ≠ '-') : MarkerFree (c :: s) := by
  refine h.cons fun d m hm hpre => ?_
  simp only [Delimiter.markers, List.mem_cons, List.not_mem_nil, or_false] at hm
  rcases hm with rfl | rfl
  · exact hbrace (List.cons_prefix_cons.mp hpre).1.symm
  · exact hdash (List.cons_prefix_cons.mp hpre).1.symm

end MarkerFree

namespace Mark

/-- A mark as it stood in the text that was scanned. -/
def written : Mark → Text
  | .char c => [c]
  | .opener d => ['{', d, '-']
  | .closer d => ['-', d, '}']

/-- A character, or a delimiter of one of the three kinds. -/
def isProper : Mark → Bool
  | .char _ => true
  | .opener d => opens d
  | .closer d => closes d

lemma scan_opener {b : Char} (hb : opens b = true) (s : Text) :
    scan ('{' :: b :: '-' :: s) = .opener b :: scan s := by
  simp [scan, hb]

lemma scan_closer {b : Char} (hb : closes b = true) (s : Text) :
    scan ('-' :: b :: '}' :: s) = .closer b :: scan s := by
  simp [scan, hb]

/-- What is scanned first: a marker, or else a character. -/
lemma scan_cases (a : Char) (s : Text) : ∃ m rest, m.isProper = true ∧
    a :: s = m.written ++ rest ∧ scan (a :: s) = m :: scan rest := by
  by_cases hopen : ∃ b rest, a = '{' ∧ opens b = true ∧ s = b :: '-' :: rest
  · obtain ⟨b, rest, rfl, hb, rfl⟩ := hopen
    exact ⟨.opener b, rest, hb, rfl, scan_opener hb rest⟩
  by_cases hclose : ∃ b rest, a = '-' ∧ closes b = true ∧ s = b :: '}' :: rest
  · obtain ⟨b, rest, rfl, hb, rfl⟩ := hclose
    exact ⟨.closer b, rest, hb, rfl, scan_closer hb rest⟩
  refine ⟨.char a, s, rfl, rfl, scan_cons ?_ ?_⟩
  · rintro b _ rest rfl ⟨rfl, hb, rfl⟩
    exact hopen ⟨b, rest, rfl, hb, rfl⟩
  · rintro b _ rest rfl ⟨rfl, hb, rfl⟩
    exact hclose ⟨b, rest, rfl, hb, rfl⟩

lemma eq_nil_of_scan {s : Text} (h : scan s = []) : s = [] := by
  cases s with
  | nil => rfl
  | cons a s =>
    obtain ⟨m, rest, -, -, hscan⟩ := scan_cases a s
    cases h.symm.trans hscan

/-- The first mark of a text, as it is written there. -/
lemma eq_written_append_of_scan {s : Text} {m : Mark} {l : List Mark} (h : scan s = m :: l) :
    m.isProper = true ∧ ∃ rest, s = m.written ++ rest ∧ scan rest = l := by
  cases s with
  | nil => cases h
  | cons a s =>
    obtain ⟨n, rest, hn, hs, hscan⟩ := scan_cases a s
    obtain ⟨rfl, rfl⟩ := List.cons.inj (h.symm.trans hscan)
    exact ⟨hn, rest, hs, rfl⟩

lemma flatMap_written_scan (s : Text) : (scan s).flatMap written = s := by
  induction hl : scan s generalizing s with
  | nil => rw [eq_nil_of_scan hl, List.flatMap_nil]
  | cons m l ih =>
    obtain ⟨-, rest, rfl, hrest⟩ := eq_written_append_of_scan hl
    rw [List.flatMap_cons, ih rest hrest]

lemma text_sublist_written (m : Mark) : m.text.Sublist m.written := by
  cases m <;> simp [text, written]

lemma flatMap_text_sublist (l : List Mark) : (l.flatMap text).Sublist (l.flatMap written) := by
  induction l with
  | nil => exact .slnil
  | cons m l ih =>
    rw [List.flatMap_cons, List.flatMap_cons]
    exact m.text_sublist_written.append ih

/-- Only characters are written as what they stand for. -/
lemma exists_char_of_flatMap_eq {l : List Mark} (h : l.flatMap text = l.flatMap written) :
    ∀ m ∈ l, ∃ c, m = .char c := by
  induction l with
  | nil => simp
  | cons m l ih =>
    have hlen := congrArg List.length h
    have hrest := (flatMap_text_sublist l).length_le
    simp only [List.flatMap_cons, List.length_append] at hlen h
    cases m with
    | char c => exact List.forall_mem_cons.mpr ⟨⟨c, rfl⟩, ih (List.append_cancel_left h)⟩
    | opener d | closer d =>
      simp only [text, written, List.length_cons] at hlen
      omega

lemma trimAfter_sublist (appetite : Appetite) (l : List Mark) :
    (trimAfter appetite l).Sublist l := by
  fun_induction trimAfter appetite l with
  | case1 => exact .slnil
  | case2 _ _ _ ih | case3 _ _ _ _ ih | case4 _ _ _ _ _ ih | case6 _ _ _ ih => exact ih.cons _
  | case5 _ _ _ _ _ ih | case7 _ _ _ ih | case8 _ _ _ ih | case9 _ _ _ _ _ _ ih =>
    exact ih.cons_cons _

lemma trimBefore_sublist (l : List Mark) : (trimBefore l).Sublist l := by
  fun_induction trimBefore l with
  | case1 => exact .slnil
  | case2 _ _ _ _ ih => exact ih.cons _
  | case3 _ _ _ _ ih | case4 _ _ _ ih => exact ih.cons_cons _

/-- A text that is scanned as characters holds no marker. -/
lemma markerFree_of_scan {s : Text} (h : ∀ m ∈ scan s, ∃ c, m = .char c) : MarkerFree s := by
  induction hl : scan s generalizing s with
  | nil => exact eq_nil_of_scan hl ▸ .nil
  | cons m l ih =>
    rw [hl] at h
    obtain ⟨⟨c, rfl⟩, hrest⟩ := List.forall_mem_cons.mp h
    obtain ⟨-, rest, rfl, rfl⟩ := eq_written_append_of_scan hl
    refine (ih hrest rfl).cons fun d m hm hpre => ?_
    obtain ⟨t, ht⟩ := hpre
    change scan (c :: rest) = _ at hl
    rw [← ht] at hl
    simp only [Delimiter.markers, List.mem_cons, List.not_mem_nil, or_false] at hm
    rcases hm with rfl | rfl
    · cases (scan_opener (by cases d <;> rfl) t).symm.trans hl
    · cases (scan_closer (by cases d <;> rfl) t).symm.trans hl

end Mark

variable {options : WhitespaceOptions} {s : Text}

lemma applyMarkers_sublist (s : Text) : (applyMarkers s).Sublist s := by
  have hmarks := (Mark.trimBefore_sublist _).trans (Mark.trimAfter_sublist .full (Mark.scan s))
  have htext := (hmarks.flatMap Mark.text).trans (Mark.flatMap_text_sublist _)
  rwa [Mark.flatMap_written_scan] at htext

lemma applyMarkers_eq_self_iff : applyMarkers s = s ↔ MarkerFree s := by
  refine ⟨fun h => Mark.markerFree_of_scan (Mark.exists_char_of_flatMap_eq ?_), fun h => ?_⟩
  · have hmarks := (Mark.trimBefore_sublist _).trans (Mark.trimAfter_sublist .full (Mark.scan s))
    refine (Mark.flatMap_text_sublist _).antisymm ?_
    rw [Mark.flatMap_written_scan]
    conv_lhs => rw [← h]
    exact hmarks.flatMap Mark.text
  · exact applyMarkers_of_scan (Mark.scan_of_markerFree h)

/-- White space stands before a control tag at the start of the line. -/
def opensIndented (line : Text) : Bool :=
  line.head?.any Text.isIndent && startsControlTag (line.dropWhile Text.isIndent)

lemma stripIndent_suffix (line : Text) : stripIndent line <:+ line := by
  obtain ⟨w, -, h⟩ := exists_stripIndent line
  exact ⟨w, h.symm⟩

lemma stripIndent_eq_self_iff {line : Text} :
    stripIndent line = line ↔ opensIndented line = false := by
  cases line with
  | nil => simp [stripIndent, opensIndented, startsControlTag]
  | cons c line =>
    cases hc : Text.isIndent c with
    | false => simp [stripIndent, opensIndented, hc]
    | true =>
      have hlen := (List.dropWhile_suffix (l := line) Text.isIndent).length_le
      have hne : line.dropWhile Text.isIndent ≠ c :: line := by
        intro h
        rw [h, List.length_cons] at hlen
        omega
      simp [stripIndent, opensIndented, hc, hne]

lemma lines_stripIndents (s : Text) : (stripIndents s).lines = s.lines.map stripIndent := by
  refine Text.lines_unlines ?_ ?_
  · exact List.map_eq_nil_iff.not.mpr (List.splitOn_ne_nil '\n' s)
  · intro line hline hbreak
    obtain ⟨whole, hwhole, rfl⟩ := List.mem_map.mp hline
    exact not_mem_of_mem_splitOn hwhole ((stripIndent_suffix whole).subset hbreak)

lemma stripIndents_sublist (s : Text) : (stripIndents s).Sublist s := by
  have := Text.unlines_map_sublist (fun line => (stripIndent_suffix line).sublist) s.lines
  rwa [Text.unlines_lines] at this

lemma stripIndents_eq_self_iff :
    stripIndents s = s ↔ ∀ line ∈ s.lines, opensIndented line = false := by
  calc stripIndents s = s
      ↔ s.lines.map stripIndent = s.lines :=
        ⟨fun h => by rw [← lines_stripIndents, h],
          fun h => by rw [stripIndents, h, Text.unlines_lines]⟩
    _ ↔ ∀ line ∈ s.lines, stripIndent line = line := by
        simpa using List.map_inj_left (l := s.lines) (f := stripIndent) (g := id)
    _ ↔ _ := forall₂_congr fun _ _ => stripIndent_eq_self_iff

/-- A control tag's closer starts the text, and what follows is as asked for. -/
def behindCloser (p : Text → Bool) : Text → Bool
  | '%' :: '}' :: s => p s
  | _ => false

/-- A control tag's closer starts the text, with only spaces and tabs between it and the end of
its line. -/
def closesLine : Text → Bool := behindCloser breakFollows

lemma behindCloser_cons_eq_false (p : Text → Bool) {c : Char} {s : Text}
    (h : ∀ t, c = '%' → s = '}' :: t → False) : behindCloser p (c :: s) = false := by
  unfold behindCloser
  split
  · rename_i t heq
    cases heq
    exact absurd rfl (h t rfl)
  · rfl

lemma trimBreaksFrom_sublist (skipping : Bool) (s : Text) :
    (trimBreaksFrom skipping s).Sublist s := by
  fun_induction trimBreaksFrom skipping s with
  | case1 => exact .slnil
  | case2 _ _ ih => exact ih.cons _
  | case3 _ ih => exact (ih.cons_cons _).cons_cons _
  | case4 _ _ _ ih => exact ih.cons_cons _

lemma trimBreaksFrom_eq_self_iff (skipping : Bool) (s : Text) : trimBreaksFrom skipping s = s ↔
    (skipping = true → s = []) ∧ ∀ t ∈ s.tails, closesLine t = false := by
  fun_induction trimBreaksFrom skipping s with
  | case1 => simp [closesLine, behindCloser]
  | case2 c s ih =>
    have hlen := (trimBreaksFrom_sublist (c != '\n') s).length_le
    refine iff_of_false (fun h => ?_) (by simp)
    rw [h, List.length_cons] at hlen
    omega
  | case3 s ih =>
    have hnil : (breakFollows s = true → s = []) ↔ breakFollows s = false := by
      cases s with
      | nil => simp [breakFollows]
      | cons c s => simp
    simp [ih, hnil, closesLine, behindCloser]
  | case4 c s hne ih => simp [ih, closesLine, behindCloser_cons_eq_false breakFollows hne]

/-- Nothing is skipped exactly when no tag ends its line. -/
lemma trimBreaks_eq_self_iff : trimBreaks s = s ↔ ∀ t ∈ s.tails, closesLine t = false := by
  simp [trimBreaks, trimBreaksFrom_eq_self_iff]

/-- A text from which white space control takes nothing. -/
structure Settled (options : WhitespaceOptions) (s : Text) : Prop where
  markers : MarkerFree s
  indents : options.lstripBlocks = true → ∀ line ∈ s.lines, opensIndented line = false
  breaks : options.trimBlocks = true → ∀ t ∈ s.tails, closesLine t = false

/-- White space control: the trim markers, then what the options take away. -/
def control (options : WhitespaceOptions) (s : Text) : Text :=
  applyGlobal options (applyMarkers s)

lemma applyGlobal_sublist (options : WhitespaceOptions) (s : Text) :
    (applyGlobal options s).Sublist s := by
  have hindents : (if options.lstripBlocks then stripIndents s else s).Sublist s := by
    split
    · exact stripIndents_sublist s
    · exact .refl s
  rw [applyGlobal]
  split
  · exact (trimBreaksFrom_sublist false _).trans hindents
  · exact hindents

/-- Two passes that only take away leave a text as it is when each of them does. -/
lemma comp_eq_self_iff {f g : Text → Text} (hf : ∀ s, (f s).Sublist s)
    (hg : ∀ s, (g s).Sublist s) : f (g s) = s ↔ g s = s ∧ f s = s := by
  refine ⟨fun h => ?_, fun h => by rw [h.1, h.2]⟩
  have hgs : g s = s := (hg s).antisymm (by simpa only [h] using hf (g s))
  exact ⟨hgs, by rwa [hgs] at h⟩

lemma applyGlobal_eq_self_iff : applyGlobal options s = s ↔
    (options.lstripBlocks = true → ∀ line ∈ s.lines, opensIndented line = false) ∧
      (options.trimBlocks = true → ∀ t ∈ s.tails, closesLine t = false) := by
  have hcomp := comp_eq_self_iff (s := s) (trimBreaksFrom_sublist false) stripIndents_sublist
  rw [← stripIndents_eq_self_iff, ← trimBreaks_eq_self_iff]
  cases hstrip : options.lstripBlocks <;> cases htrim : options.trimBlocks <;>
    simp [applyGlobal, hstrip, htrim, hcomp, trimBreaks]

/-- White space control leaves the settled texts as they are, and no others. -/
theorem control_eq_self_iff : control options s = s ↔ Settled options s := by
  rw [control, comp_eq_self_iff (applyGlobal_sublist options) applyMarkers_sublist,
    applyMarkers_eq_self_iff, applyGlobal_eq_self_iff]
  exact ⟨fun ⟨hm, hi, hb⟩ => ⟨hm, hi, hb⟩, fun h => ⟨h.markers, h.indents, h.breaks⟩⟩

end Whitespace

namespace Symbol

lemma eq_map_char_of_forall {l : List Symbol} (h : ∀ y ∈ l, y.tag? = none) :
    l = (textOf l).map .char := by
  induction l with
  | nil => rfl
  | cons y l ih =>
    obtain ⟨hy, hl⟩ := List.forall_mem_cons.mp h
    cases y with
    | char c => simpa [text] using ih hl
    | tag t written => cases hy

lemma textWithout_sublist (p : Tag → Bool) (l : List Symbol) :
    (textWithout p l).Sublist (textOf l) := by
  induction l with
  | nil => exact .slnil
  | cons y l ih =>
    cases y with
    | char c => exact ih.cons_cons c
    | tag t written =>
      have hhere : ((if p t then some [] else none).getD written).Sublist written := by
        split
        · exact List.nil_sublist written
        · exact .refl written
      exact hhere.append ih

/-- Dropping tags that are written as something leaves a text alone when there are none of
them. -/
lemma textWithout_eq_textOf_iff {p : Tag → Bool} {l : List Symbol} (hne : ∀ y ∈ l, y.text ≠ []) :
    textWithout p l = textOf l ↔ (l.any fun y => y.tag?.any p) = false := by
  refine ⟨fun h => ?_, textWithout_of_none⟩
  induction l with
  | nil => rfl
  | cons y l ih =>
    obtain ⟨hy, hl⟩ := List.forall_mem_cons.mp hne
    cases y with
    | char c => exact ih hl (List.cons.inj h).2
    | tag t written =>
      have happ : (if p t then some [] else none).getD written ++ textWithout p l =
          written ++ textOf l := h
      cases hp : p t with
      | true =>
        have hlen := congrArg List.length happ
        have hrest := (textWithout_sublist p l).length_le
        have hpos := List.length_pos_iff.mpr hy
        simp only [hp, text, if_true, Option.getD_some, List.nil_append,
          List.length_append] at hlen hpos
        omega
      | false =>
        rw [hp] at happ
        simpa [tag?, hp] using ih hl (List.append_cancel_left happ)

end Symbol

/-- The scanner finds no tag in the text. -/
def Text.IsTagless (s : Text) : Prop := ∀ y ∈ Scan.symbols s, y.tag? = none

instance : DecidablePred Text.IsTagless :=
  fun s => List.decidableBAll (fun y : Symbol => y.tag? = none) (Scan.symbols s)

namespace Text.IsTagless
variable {s : Text} (h : s.IsTagless)
include h

lemma any_eq_false (p : Tag → Bool) : ((Scan.symbols s).any fun y => y.tag?.any p) = false := by
  refine List.any_eq_false.mpr fun y hy => ?_
  rw [h y hy]
  simp

lemma symbols_eq : Scan.symbols s = s.map .char := by
  have := Symbol.eq_map_char_of_forall h
  rwa [Scan.textOf_symbols] at this

lemma idle : Idle (Scan.symbols s) where
  ordinary t written ht := by cases h _ ht
  unclosed p before y after heq hopen := by
    have hy : y.tag? = none := h y (by simp [heq])
    cases y with
    | char c => cases hopen
    | tag t written => cases hy

lemma flatMap_printed (vars : Fields) :
    (Scan.symbols s).flatMap (Renderer.printed vars) = s := by
  rw [h.symbols_eq, List.flatMap_map]
  exact List.flatMap_singleton' s

end Text.IsTagless

namespace Renderer
open Whitespace
variable {r : Renderer} {s : Text}

/-- Preprocessing leaves a text as it is when white space control does and there is no comment. -/
theorem preprocess_eq_self_iff : r.preprocess s = s ↔
    Settled r.options.whitespace s ∧ ∀ y ∈ Scan.symbols s, y.tag? ≠ some .comment := by
  have hcomments : Symbol.textWithout isComment (Scan.symbols s) = s ↔
      ((Scan.symbols s).any fun y => y.tag?.any isComment) = false := by
    have := Symbol.textWithout_eq_textOf_iff (p := isComment) (l := Scan.symbols s)
      fun y => Scan.text_ne_nil_of_mem_symbols
    rwa [Scan.textOf_symbols] at this
  have hdrop (t : Text) : (Symbol.textWithout isComment (Scan.symbols t)).Sublist t := by
    simpa using Symbol.textWithout_sublist isComment (Scan.symbols t)
  have hcontrol (t : Text) : (control r.options.whitespace t).Sublist t :=
    (applyGlobal_sublist _ _).trans (applyMarkers_sublist t)
  have hany : ((Scan.symbols s).any fun y => y.tag?.any isComment) = false ↔
      ∀ y ∈ Scan.symbols s, y.tag? ≠ some .comment := by
    rw [List.any_eq_false]
    refine forall₂_congr fun y _ => ?_
    cases y.tag? <;> simp [isComment]
  rw [← control_eq_self_iff, ← hany, ← hcomments]
  exact comp_eq_self_iff hdrop hcontrol

/-- What white space control makes of a text is rendered as itself if it holds no tag. -/
lemma run_renderText_of_control (h : (control r.options.whitespace s).IsTagless)
    (vars : Fields) (directory : Option Text) (read : Text → Except Text Text) :
    (r.renderText s vars directory).run read = ⟨[], .ok (control r.options.whitespace s)⟩ := by
  have hpre : r.preprocess s = control r.options.whitespace s := by
    change Symbol.textWithout isComment (Scan.symbols (control r.options.whitespace s)) = _
    rw [Symbol.textWithout_of_none (h.any_eq_false _), Scan.textOf_symbols]
  have hparent : parent? (Scan.symbols (control r.options.whitespace s)) = none := by
    rw [h.symbols_eq, parent?, List.findSome?_map]
    exact List.findSome?_eq_none_iff.mpr fun c _ => rfl
  rw [renderText, topLevel, template, Renderer.read, hpre]
  simp only [hparent]
  rw [expandBody_of_idle h.idle, h.flatMap_printed, Rendering.run_done]

/-- A text without tags is rendered as itself when it is settled. Otherwise it loses what white
space control takes from it, and is rendered as what is left if that holds no tag either. -/
theorem run_renderText_tagless (h : s.IsTagless) (vars : Fields) (directory : Option Text)
    (read : Text → Except Text Text) :
    (Settled r.options.whitespace s →
        (r.renderText s vars directory).run read = ⟨[], .ok s⟩) ∧
      (control r.options.whitespace s = s ↔ Settled r.options.whitespace s) ∧
      ((control r.options.whitespace s).IsTagless →
        (r.renderText s vars directory).run read =
          ⟨[], .ok (control r.options.whitespace s)⟩) := by
  refine ⟨fun hsettled => ?_, control_eq_self_iff, fun hleft => ?_⟩
  · have hcontrol := control_eq_self_iff.mpr hsettled
    have := run_renderText_of_control (hcontrol.symm ▸ h) vars directory read
    rwa [hcontrol] at this
  · exact run_renderText_of_control hleft vars directory read

/-- A text with closers, openers without a closer, and dashes beside braces. -/
def looseBraces : Text :=
  "50%\x7d of \x7b x \x7d - \x7d\x7d \x7b# a -\x7d b -\x7b\n  c \x7b% d".toList

theorem run_renderText_looseBraces :
    looseBraces.IsTagless ∧ Settled {} looseBraces ∧
      (({} : Renderer).renderText looseBraces [] none).run (fun _ => .error []) =
        ⟨[], .ok looseBraces⟩ := by
  have htagless : looseBraces.IsTagless := by decide +kernel
  have hsettled : Settled {} looseBraces :=
    ⟨by rintro (_ | _ | _) <;> decide +kernel, by decide +kernel, by decide +kernel⟩
  exact ⟨htagless, hsettled,
    (run_renderText_tagless htagless [] none fun _ => .error []).1 hsettled⟩

/-- Tagless texts that are not settled: a marker without its tag, a lone closer at the end of a
line, an indented opener without closer, and a comment that is only there when a marker has lost
its dash. -/
theorem render_unsettled :
    let store : Store := .ofList []
    ∀ entry ∈ [("a  \x7b\x7b- b", "a\x7b\x7b b"), ("100%\x7d\nx", "100%\x7dx"),
        ("  \x7b% a", "\x7b% a"), ("\x7b-#\x7dsecret#\x7dx", "x")],
      Text.IsTagless entry.1.toList ∧
        store.render entry.1.toList = .ok ⟨entry.2.toList, []⟩ := by
  decide +kernel

end Renderer
end Stencil
