import Stencil.Proofs.Closed
import Stencil.Proofs.Hole.Dedent
import Stencil.Proofs.Trimming

/-! Tags on a string: a text of given tags in a given order, with plain text around them. White
space control and dedenting take from the plain text and leave the tags and their order alone. Main
statement: what a template makes of such a text before it expands it is such a text with the same
tags. -/
namespace Stencil

/-- The tags in this order with plain text before, between and behind them. A brace in the plain
text has an ordinary character of the same line behind it, so that it can become part of no tag and
no trim marker. -/
inductive Laced (options : WhitespaceOptions) : List Symbol → Text → Prop
  | nil : Laced options [] []
  | char {c tags s} (hc : c ≠ '{') (h : Laced options tags s) : Laced options tags (c :: s)
  | brace {c tags s} (hopen : Delimiter.ofOpenChar? c = none) (hdash : c ≠ '-') (hline : c ≠ '\n')
    (h : Laced options tags s) : Laced options tags ('{' :: c :: s)
  | tag {y tags s} (hy : SealedTag options y) (h : Laced options tags s) :
    Laced options (y :: tags) (y.text ++ s)

section
variable {options : WhitespaceOptions} {y : Symbol} {tags tags' : List Symbol} {s t : Text}

lemma SealedTag.exists_text_cons (h : SealedTag options y) : ∃ rest, y.text = '{' :: rest := by
  obtain ⟨d, content, -, htext⟩ := h.text_eq
  exact ⟨_, htext⟩

lemma SealedTag.exists_text_concat (h : SealedTag options y) :
    ∃ front, y.text = front ++ ['}'] := by
  obtain ⟨d, content, -, htext⟩ := h.text_eq
  exact ⟨'{' :: d.openChar :: content ++ [d.closeChar], by rw [htext]; simp⟩

namespace Laced

lemma append (hs : Laced options tags s) (ht : Laced options tags' t) :
    Laced options (tags ++ tags') (s ++ t) := by
  induction hs with
  | nil => exact ht
  | char hc _ ih => exact .char hc ih
  | brace hopen hdash hline _ ih => exact .brace hopen hdash hline ih
  | tag hy _ ih =>
    rw [List.append_assoc]
    exact .tag hy ih

lemma of_not_mem (h : '{' ∉ s) : Laced options [] s := by
  induction s with
  | nil => exact .nil
  | cons c s ih =>
    simp only [List.mem_cons, not_or] at h
    exact .char (Ne.symm h.1) (ih h.2)

lemma single (hy : SealedTag options y) : Laced options [y] y.text := by
  simpa using Laced.tag hy .nil

lemma of_cons {c : Char} (h : Laced options tags (c :: s)) (hc : c ≠ '{') :
    Laced options tags s := by
  generalize ht : c :: s = t at h
  cases h with
  | nil => cases ht
  | char _ h =>
    obtain ⟨-, rfl⟩ := List.cons.inj ht
    exact h
  | brace => exact absurd (List.cons.inj ht).1 hc
  | tag hy =>
    obtain ⟨rest, htext⟩ := hy.exists_text_cons
    rw [htext] at ht
    exact absurd (List.cons.inj ht).1 hc

/-- No brace opens in what is cut off, so it is plain text. -/
lemma drop {a : Text} (h : Laced options tags (a ++ s)) (ha : '{' ∉ a) : Laced options tags s := by
  induction a with
  | nil => exact h
  | cons c a ih =>
    simp only [List.mem_cons, not_or] at ha
    exact ih (h.of_cons (Ne.symm ha.1)) ha.2

lemma tags_eq_nil (h : Laced options tags s) (hs : '{' ∉ s) : tags = [] := by
  have hnil := drop (s := []) (by simpa using h) hs
  generalize ht : ([] : Text) = t at hnil
  cases hnil with
  | nil => rfl
  | char | brace => cases ht
  | tag hy =>
    obtain ⟨rest, htext⟩ := hy.exists_text_cons
    rw [htext] at ht
    cases ht

/-- The first tag with the plain text before it. -/
lemma exists_uncons (h : Laced options (y :: tags) s) : SealedTag options y ∧
    ∃ a rest, s = a ++ (y.text ++ rest) ∧ Laced options [] a ∧ Laced options tags rest := by
  generalize hl : y :: tags = l at h
  induction h with
  | nil => cases hl
  | char hc _ ih =>
    obtain ⟨hy, a, rest, rfl, ha, hrest⟩ := ih hl
    exact ⟨hy, _, rest, rfl, .char hc ha, hrest⟩
  | brace hopen hdash hline _ ih =>
    obtain ⟨hy, a, rest, rfl, ha, hrest⟩ := ih hl
    exact ⟨hy, _, rest, rfl, .brace hopen hdash hline ha, hrest⟩
  | tag hy h =>
    obtain ⟨rfl, rfl⟩ := List.cons.inj hl
    exact ⟨hy, [], _, rfl, .nil, h⟩

lemma exists_split (h : Laced options (tags ++ tags') s) :
    ∃ u v, s = u ++ v ∧ Laced options tags u ∧ Laced options tags' v := by
  induction tags generalizing s with
  | nil => exact ⟨[], s, rfl, .nil, h⟩
  | cons y tags ih =>
    obtain ⟨hy, a, rest, rfl, ha, hrest⟩ := exists_uncons h
    obtain ⟨u, v, rfl, hu, hv⟩ := ih hrest
    exact ⟨a ++ (y.text ++ u), v, by simp, ha.append (.tag hy hu), hv⟩

/-- The outermost tags, with what stands between them and the plain text around them. -/
lemma exists_enclosed {opener closer : Symbol}
    (h : Laced options (opener :: (tags ++ [closer])) s) :
    SealedTag options opener ∧ SealedTag options closer ∧ ∃ a body b,
      s = a ++ (opener.text ++ (body ++ (closer.text ++ b))) ∧
      Laced options [] a ∧ Laced options tags body ∧ Laced options [] b := by
  obtain ⟨hopener, a, rest, rfl, ha, hrest⟩ := h.exists_uncons
  obtain ⟨body, v, rfl, hbody, hv⟩ := hrest.exists_split
  obtain ⟨hcloser, a', b, rfl, ha', hb⟩ := hv.exists_uncons
  refine ⟨hopener, hcloser, a, body ++ a', b, by simp, ha, ?_, hb⟩
  simpa using hbody.append ha'

section Reading

/-- The scanner finds the tags and plain characters, whatever follows. -/
lemma exists_reads (h : Laced options tags s) :
    ∃ l, Scan.Reads s l ∧ ∀ y ∈ l, (∃ c, y = .char c) ∨ y ∈ tags := by
  induction h with
  | nil => exact ⟨[], .nil, by simp⟩
  | @char c tags s hc _ ih =>
    obtain ⟨l, hl, hmem⟩ := ih
    refine ⟨.char c :: l, fun rest => ?_, ?_⟩
    · rw [List.cons_append, Scan.symbols_cons_of_ne hc, hl]
      rfl
    · exact List.forall_mem_cons.mpr ⟨.inl ⟨c, rfl⟩, hmem⟩
  | @brace c tags s hopen _ _ _ ih =>
    obtain ⟨l, hl, hmem⟩ := ih
    refine ⟨.char '{' :: .char c :: l, fun rest => ?_, ?_⟩
    · rw [List.cons_append, List.cons_append, Scan.symbols_brace hopen,
        Scan.symbols_cons_of_ne (Scan.ne_brace_of_ofOpenChar? hopen), hl]
      rfl
    · simp only [List.forall_mem_cons]
      exact ⟨.inl ⟨_, rfl⟩, .inl ⟨_, rfl⟩, hmem⟩
  | @tag y tags s hy _ ih =>
    obtain ⟨l, hl, hmem⟩ := ih
    refine ⟨y :: l, hy.reads.append hl, List.forall_mem_cons.mpr ⟨.inr List.mem_cons_self, ?_⟩⟩
    exact fun z hz => (hmem z hz).imp_right (List.mem_cons_of_mem y)

lemma reads (h : Laced options tags s) : Scan.Reads s (Scan.symbols s) := by
  obtain ⟨l, hl, -⟩ := h.exists_reads
  rwa [hl.symbols_eq]

lemma forall_symbols (h : Laced options tags s) {P : Symbol → Prop} (hchar : ∀ c, P (.char c))
    (htags : ∀ y ∈ tags, P y) : ∀ y ∈ Scan.symbols s, P y := by
  obtain ⟨l, hl, hmem⟩ := h.exists_reads
  rw [hl.symbols_eq]
  intro y hy
  rcases hmem y hy with ⟨c, rfl⟩ | hy
  · exact hchar c
  · exact htags y hy

lemma isTagless (h : Laced options [] s) : s.IsTagless :=
  h.forall_symbols (fun _ => rfl) (by simp)

end Reading

section Markers
open Whitespace

lemma not_startsOpener (h : Laced options tags s) : startsOpener s = false := by
  rw [Bool.eq_false_iff]
  intro hstart
  obtain ⟨d, rest, hs, hd⟩ := startsOpener_iff.mp hstart
  cases h with
  | nil => cases hs
  | char hc => exact hc (List.cons.inj hs).1
  | brace hopen =>
    obtain rfl := (List.cons.inj (List.cons.inj hs).2).1
    simp only [Mark.opens, Bool.or_eq_true, beq_iff_eq] at hd
    rcases hd with (rfl | rfl) | rfl <;> cases hopen
  | tag hy =>
    have hscan := hy.scan_append
    obtain ⟨front, htext⟩ := hy.exists_text_cons
    simp only [htext, List.cons_append] at hs hscan
    rename_i s _
    have := hscan s
    rw [hs, Mark.scan_opener hd] at this
    cases this

lemma dropWhile_indent (h : Laced options tags s) :
    Laced options tags (s.dropWhile Text.isIndent) := by
  refine drop (a := s.takeWhile Text.isIndent) (by simpa using h) fun hmem => ?_
  cases List.mem_takeWhile_imp hmem

/-- What a closing marker takes is plain text. -/
lemma behindMarker (h : Laced options tags s) : Laced options tags (behindMarker s) := by
  have hone {c : Char} (hc : c ≠ '{') {s : Text} (h : Laced options tags s) :
      Laced options tags (dropOne c s) := by
    cases s with
    | nil => exact h
    | cons d s =>
      rw [dropOne]
      split
      · rename_i hd
        exact h.of_cons (hd ▸ hc)
      · exact h
  exact hone (by decide) (hone (by decide) h.dropWhile_indent)

lemma applyMarkers_cons {c : Char} (h : Laced options tags (c :: s))
    (hclose : startsCloser (c :: s) = false) :
    Whitespace.applyMarkers (c :: s) = c :: Whitespace.applyMarkers s :=
  applyMarkers_keep h.dropWhile_indent.not_startsOpener hclose

/-- Markers in the plain text are carried out, and there are none in the tags. -/
lemma applyMarkers (h : Laced options tags s) : Laced options tags (applyMarkers s) := by
  induction hn : s.length using Nat.strong_induction_on generalizing tags s with
  | _ n ih =>
    cases h with
    | nil => exact .nil
    | @char c _ s hc h =>
      cases hclose : startsCloser (c :: s) with
      | false =>
        rw [applyMarkers_cons (.char hc h) hclose]
        exact .char hc (ih _ (by rw [← hn]; simp) h rfl)
      | true =>
        obtain ⟨d, rest, hs, hd⟩ := startsCloser_iff.mp hclose
        obtain ⟨rfl, rfl⟩ := List.cons.inj hs
        have hbrace : d ≠ '{' := by
          rintro rfl
          cases hd
        have hrest := ((h.of_cons hbrace).of_cons (by decide)).behindMarker
        have hlength := length_behindMarker_le rest
        rw [applyMarkers_closer hd]
        refine .char hbrace (.char (by decide) (ih _ ?_ hrest rfl))
        simp only [List.length_cons] at hn
        omega
    | @brace c _ s hopen hdash hline h =>
      have hc := Scan.ne_brace_of_ofOpenChar? hopen
      have hclose : startsCloser (c :: s) = false := by
        rw [Bool.eq_false_iff]
        intro hclose
        obtain ⟨d, rest, hs, -⟩ := startsCloser_iff.mp hclose
        exact hdash (List.cons.inj hs).1
      rw [applyMarkers_cons (.brace hopen hdash hline h) rfl, applyMarkers_cons (.char hc h) hclose]
      refine .brace hopen hdash hline (ih _ ?_ h rfl)
      rw [← hn, List.length_cons, List.length_cons]
      omega
    | @tag y tags s hy h =>
      obtain ⟨front, htext⟩ := hy.exists_text_concat
      have hlength : s.length < n := by
        rw [← hn, htext]
        simp only [List.length_append, List.length_singleton]
        omega
      rw [applyMarkers_append htext rfl hy.scan_append]
      exact .tag hy (ih _ hlength h rfl)

end Markers

section Lines
open Whitespace

/-- The texts of a list, each laced with tags of its own. -/
abbrev All (options : WhitespaceOptions) (tagss : List (List Symbol)) (ls : List Text) : Prop :=
  List.Forall₂ (Laced options) tagss ls

/-- The lines of a text share out its tags, since no tag reaches over a line break. -/
lemma exists_lines (hon : options ≠ .disabled) (h : Laced options tags s) :
    ∃ tagss, tagss.flatten = tags ∧ All options tagss s.lines := by
  have hfront {a : Text} (ha : '\n' ∉ a) {s : Text} {here tags : List Symbol}
      (hhere : Laced options here a)
      (hs : ∃ tagss, tagss.flatten = tags ∧ All options tagss s.lines) :
      ∃ tagss, tagss.flatten = here ++ tags ∧ All options tagss (a ++ s).lines := by
    obtain ⟨tagss, rfl, hall⟩ := hs
    rw [Text.lines_append ha]
    cases hlines : s.lines with
    | nil => exact absurd hlines (List.splitOn_ne_nil '\n' s)
    | cons line ls =>
      rw [hlines] at hall
      cases hall with
      | cons hline hrest =>
        exact ⟨_ :: _, List.append_assoc _ _ _, .cons (hhere.append hline) hrest⟩
  induction h with
  | nil => exact ⟨[[]], rfl, .cons .nil .nil⟩
  | @char c tags s hc _ ih =>
    by_cases hbreak : c = '\n'
    · obtain ⟨tagss, rfl, hall⟩ := ih
      rw [hbreak, Text.lines_cons, if_pos rfl]
      exact ⟨[] :: tagss, rfl, .cons .nil hall⟩
    · exact hfront (a := [c]) (by simpa using Ne.symm hbreak) (.char hc .nil) ih
  | @brace c tags s hopen hdash hline _ ih =>
    exact hfront (a := ['{', c]) (by simp [Ne.symm hline]) (.brace hopen hdash hline .nil) ih
  | @tag y tags s hy _ ih =>
    exact hfront (hy.oneLine hon) (.single hy) ih

lemma unlines {tagss : List (List Symbol)} {ls : List Text} (h : All options tagss ls) :
    Laced options tagss.flatten (Text.unlines ls) := by
  induction h with
  | nil => exact .nil
  | @cons here line tagss ls hline hrest ih =>
    cases ls with
    | nil =>
      cases hrest
      simpa [Text.unlines] using hline
    | cons next ls =>
      rw [Text.unlines_cons_cons, List.flatten_cons]
      exact hline.append (.char (by decide) ih)

lemma All.map {tagss : List (List Symbol)} {ls : List Text} (h : All options tagss ls)
    {f : Text → Text}
    (hf : ∀ tags, ∀ line ∈ ls, Laced options tags line → Laced options tags (f line)) :
    All options tagss (ls.map f) := by
  induction h with
  | nil => exact .nil
  | cons hline _ ih =>
    refine .cons (hf _ _ List.mem_cons_self hline) (ih fun tags line hmem => ?_)
    exact hf tags line (List.mem_cons_of_mem _ hmem)

lemma not_mem_of_isBlank (h : s.isBlank = true) : '{' ∉ s := by
  intro hmem
  have := List.all_eq_true.mp h _ hmem
  revert this
  decide

lemma All.flatten_eq_nil {tagss : List (List Symbol)} {ls : List Text} (h : All options tagss ls)
    (hblank : ∀ line ∈ ls, line.isBlank = true) : tagss.flatten = [] := by
  induction h with
  | nil => rfl
  | cons hline _ ih =>
    obtain ⟨hhere, hrest⟩ := List.forall_mem_cons.mp hblank
    rw [List.flatten_cons, hline.tags_eq_nil (not_mem_of_isBlank hhere), ih hrest]
    rfl

lemma stripIndents (hon : options ≠ .disabled) (h : Laced options tags s) :
    Laced options tags (stripIndents s) := by
  obtain ⟨tagss, rfl, hall⟩ := h.exists_lines hon
  refine unlines (hall.map fun tags line _ hline => ?_)
  unfold stripIndent
  split
  · exact hline.dropWhile_indent
  · exact hline

/-- Only plain text stands before a line break that goes. -/
lemma trimBreaksFrom (hon : options ≠ .disabled) (h : Laced options tags s) {skipping : Bool}
    (hskip : skipping = true → breakFollows s = true) :
    Laced options tags (trimBreaksFrom skipping s) := by
  induction hn : s.length using Nat.strong_induction_on generalizing tags s skipping with
  | _ n ih =>
    cases skipping with
    | true =>
      obtain ⟨w, rest, rfl, hline, -, hbrace⟩ := eq_of_breakFollows (hskip rfl)
      rw [trimBreaksFrom_true hline]
      have hrest : Laced options tags rest := (h.drop hbrace).of_cons (by decide)
      refine ih rest.length ?_ hrest (by simp) rfl
      rw [← hn]
      simp only [List.length_append, List.length_cons]
      omega
    | false =>
      cases h with
      | nil => exact .nil
      | @char c _ s hc h =>
        by_cases hclose : c = '%' ∧ s.head? = some '}'
        · obtain ⟨rfl, hhead⟩ := hclose
          obtain ⟨rest, rfl⟩ := List.head?_eq_some_iff.mp hhead
          rw [Whitespace.trimBreaksFrom]
          refine .char hc (.char (by decide) ?_)
          refine ih rest.length ?_ (h.of_cons (by decide)) id rfl
          rw [← hn, List.length_cons, List.length_cons]
          omega
        · rw [trimBreaksFrom_cons fun hpercent hhead => hclose ⟨hpercent, hhead⟩]
          exact .char hc (ih s.length (by rw [← hn]; simp) h (by simp) rfl)
      | @brace c _ s hopen hdash hline h =>
        have hpercent : c ≠ '%' := by
          rintro rfl
          cases hopen
        rw [trimBreaksFrom_cons (by simp), trimBreaksFrom_cons fun hc => absurd hc hpercent]
        refine .brace hopen hdash hline (ih s.length ?_ h (by simp) rfl)
        rw [← hn, List.length_cons, List.length_cons]
        omega
      | @tag y tags s hy h =>
        obtain ⟨d, hstep⟩ := hy.exists_trimBreaksFrom hon
        obtain ⟨front, htext⟩ := hy.exists_text_concat
        rw [hstep]
        refine .tag hy (ih s.length ?_ h (fun hbreak => ?_) rfl)
        · rw [← hn, htext]
          simp only [List.length_append, List.length_singleton]
          omega
        · exact (Bool.and_eq_true_iff.mp hbreak).2

/-- The lines that are left have all the tags, and lose an indentation at most. -/
lemma dedent (hon : options ≠ .disabled) (h : Laced options tags s) :
    Laced options tags (dedent s) := by
  cases hblank : s.isBlank with
  | true => rwa [dedent_of_isBlank hblank]
  | false =>
    obtain ⟨width, hwidth, heq⟩ := exists_dedent_eq hblank
    have hbreak : Laced options tags (dropLeadingBreak s) := by
      unfold dropLeadingBreak
      split
      · exact h.of_cons (by decide)
      · exact h
    obtain ⟨tagss, rfl, hall⟩ := hbreak.exists_lines hon
    rw [← List.rdropWhile_append_rtakeWhile (p := Text.isBlank) (l := (dropLeadingBreak s).lines)]
      at hall
    change All options tagss (keptLines s ++ _) at hall
    have hkept := List.forall₂_take_append _ _ _ hall
    have hlost := All.flatten_eq_nil (List.forall₂_drop_append _ _ _ hall) fun line hline =>
      List.mem_rtakeWhile_imp hline
    have hout := unlines <| All.map hkept (f := (·.drop width)) fun tags line hmem hline => ?_
    · rw [heq, ← List.take_append_drop (keptLines s).length tagss, List.flatten_append, hlost,
        List.append_nil]
      exact hout
    · have hdedents := dedents_drop hwidth hmem
      cases hblank : line.isBlank with
      | true =>
        rw [hline.tags_eq_nil (not_mem_of_isBlank hblank)]
        exact of_not_mem (not_mem_of_isBlank (hdedents.blank hblank))
      | false =>
        obtain ⟨w, -, hw, heq⟩ := hdedents.indent hblank
        rw [heq] at hline
        refine hline.drop fun hbrace => ?_
        cases hw _ hbrace

end Lines

section Preprocessing
variable {r : Renderer}

lemma body (h : Laced r.options.whitespace tags s) :
    Laced r.options.whitespace tags (r.body (Scan.symbols s)) := by
  rw [Renderer.body, Scan.textOf_symbols, dedentIf]
  split
  · rename_i hdedent
    refine h.dedent fun hoff => ?_
    rw [hoff] at hdedent
    cases hdedent
  · exact h

/-- No comment is among the tags, so that there is nothing to remove but white space. -/
lemma preprocess (h : Laced r.options.whitespace tags s)
    (hcomment : ∀ y ∈ tags, y.tag?.any Renderer.isComment = false) :
    Laced r.options.whitespace tags (r.preprocess s) := by
  have hstrip : Laced r.options.whitespace tags
      (if r.options.whitespace.lstripBlocks then
        Whitespace.stripIndents (Whitespace.applyMarkers s) else Whitespace.applyMarkers s) := by
    split
    · rename_i hon
      refine h.applyMarkers.stripIndents fun hoff => ?_
      rw [hoff] at hon
      cases hon
    · exact h.applyMarkers
  have hcontrol : Laced r.options.whitespace tags
      (Whitespace.applyGlobal r.options.whitespace (Whitespace.applyMarkers s)) := by
    unfold Whitespace.applyGlobal
    dsimp only
    split
    · rename_i hon
      refine hstrip.trimBreaksFrom (fun hoff => ?_) (by simp)
      rw [hoff] at hon
      cases hon
    · exact hstrip
  have hnone : ((Scan.symbols (Whitespace.applyGlobal r.options.whitespace
      (Whitespace.applyMarkers s))).any fun y => y.tag?.any Renderer.isComment) = false :=
    List.any_eq_false.mpr fun y hy => by
      simpa using hcontrol.forall_symbols
        (P := fun y => y.tag?.any Renderer.isComment = false) (fun _ => rfl) hcomment y hy
  rwa [Renderer.preprocess, Symbol.textWithout_of_none hnone, Scan.textOf_symbols]

end Preprocessing

end Laced
end
end Stencil
