import Stencil.Proofs.Matching
import Stencil.Proofs.Markers

/-! Texts on which no directive acts. Openers without a closer, stray closers and unknown tags are
plain text for every pass, so that only the placeholders are replaced. -/
namespace Stencil

/-- The two trim markers of a kind of tag. -/
def Delimiter.markers (d : Delimiter) : List Text :=
  [['{', d.openChar, '-'], ['-', d.closeChar, '}']]

namespace Whitespace

/-- None of the six trim markers stands anywhere in the text. -/
def MarkerFree (s : Text) : Prop := ∀ d : Delimiter, ∀ m ∈ d.markers, ¬m <:+: s

lemma MarkerFree.tail {c : Char} {s : Text} (h : MarkerFree (c :: s)) : MarkerFree s :=
  fun d m hm hs => h d m hm (hs.trans (List.suffix_cons c s).isInfix)

namespace Mark

lemma exists_of_opens {c : Char} (h : opens c = true) : ∃ d : Delimiter, c = d.openChar := by
  simp only [opens, Bool.or_eq_true, beq_iff_eq] at h
  rcases h with (rfl | rfl) | rfl
  · exact ⟨.value, rfl⟩
  · exact ⟨.control, rfl⟩
  · exact ⟨.comment, rfl⟩

lemma exists_of_closes {c : Char} (h : closes c = true) : ∃ d : Delimiter, c = d.closeChar := by
  simp only [closes, Bool.or_eq_true, beq_iff_eq] at h
  rcases h with (rfl | rfl) | rfl
  · exact ⟨.value, rfl⟩
  · exact ⟨.control, rfl⟩
  · exact ⟨.comment, rfl⟩

lemma scan_of_markerFree {s : Text} (h : MarkerFree s) : scan s = s.map .char := by
  induction s with
  | nil => rfl
  | cons a s ih =>
    rw [scan_cons, ih h.tail, List.map_cons]
    · rintro b c rest rfl ⟨rfl, hb, rfl⟩
      obtain ⟨d, rfl⟩ := exists_of_opens hb
      exact h d _ List.mem_cons_self (List.prefix_append _ rest).isInfix
    · rintro b c rest rfl ⟨rfl, hb, rfl⟩
      obtain ⟨d, rfl⟩ := exists_of_closes hb
      exact h d ['-', d.closeChar, '}'] (by simp [Delimiter.markers])
        (List.prefix_append _ rest).isInfix

end Mark
end Whitespace

namespace Pair

/-- No matching closer stands in the symbols behind an opener: nowhere have more constructs been
closed than opened. -/
def Unclosed (p : Pair) (after : List Symbol) : Prop :=
  ∀ l, l <+: after → l.countP p.closes ≤ l.countP p.opens

/-- An opener is unclosed when the search for its closer fails. -/
lemma splitClose?_eq_none_iff {p : Pair} {depth : ℕ} {after : List Symbol} :
    splitClose? p depth after = none ↔
      ∀ l, l <+: after → l.countP p.closes ≤ l.countP p.opens + depth := by
  induction after generalizing depth with
  | nil => simp
  | cons y after ih =>
    have hprefixes (n : ℕ) : (∀ l, l <+: y :: after →
        l.countP p.closes ≤ l.countP p.opens + n) ↔ ∀ l, l <+: after →
          (y :: l).countP p.closes ≤ (y :: l).countP p.opens + n := by
      constructor
      · exact fun h l hl => h (y :: l) (List.cons_prefix_cons.mpr ⟨rfl, hl⟩)
      · intro h l hl
        cases l with
        | nil => simp
        | cons z l =>
          obtain ⟨rfl, hrest⟩ := List.cons_prefix_cons.mp hl
          exact h l hrest
    rw [hprefixes, splitClose?_cons]
    by_cases hopen : p.opens y = true
    · have hclose : p.closes y = false := by
        by_contra hclose
        rw [opens_of_closes (by simpa using hclose)] at hopen
        cases hopen
      simp only [hopen, if_true, Option.map_eq_none_iff, ih, List.countP_cons, hclose]
      refine forall₂_congr fun l _ => ?_
      simp only [Bool.false_eq_true, if_false]
      omega
    · by_cases hclose : p.closes y = true
      · simp only [hopen, hclose, if_true, List.countP_cons]
        cases depth with
        | zero =>
          refine iff_of_false (by simp) fun h => ?_
          have := h [] List.nil_prefix
          simp at this
        | succ depth =>
          simp only [Bool.false_eq_true, if_false, Option.map_eq_none_iff, ih]
          refine forall₂_congr fun l _ => ?_
          omega
      · simp [hopen, hclose, ih]

lemma unclosed_iff {p : Pair} {after : List Symbol} :
    p.Unclosed after ↔ splitClose? p 0 after = none := by
  simp [Unclosed, splitClose?_eq_none_iff]

end Pair

/-- Without matched constructs there is nothing to cut. -/
lemma Piece.split_of_unclosed {p : Pair} {l : List Symbol}
    (h : ∀ before y after, l = before ++ y :: after → p.opens y = true → p.Unclosed after) :
    split p l = l.map .single := by
  induction l with
  | nil => simp
  | cons y l ih =>
    have hnone (hopen : p.opens y = true) : splitClose? p 0 l = none :=
      Pair.unclosed_iff.mp (h [] y l rfl hopen)
    have hrest := ih fun before z after hl => h (y :: before) z after (by rw [hl]; rfl)
    rw [split_cons, hrest]
    by_cases hopen : p.opens y = true
    · rw [if_pos hopen, hnone hopen]
      rfl
    · rw [if_neg hopen]
      rfl

lemma Pair.unclosed_of_allConstructs {p : Pair} {l : List Symbol} (h : allConstructs p l = []) :
    ∀ before y after, l = before ++ y :: after → p.opens y = true → p.Unclosed after := by
  rintro before y after rfl hopen
  have hsub := allConstructs_subset_append (p := p) before (y :: after) []
  rw [List.append_nil, h, List.subset_nil, allConstructs_cons, if_pos hopen] at hsub
  rw [unclosed_iff]
  cases hfound : splitClose? p 0 after with
  | none => rfl
  | some found =>
    rw [hfound] at hsub
    cases hsub

/-- A value, a tag that is not known, or a tag of a construct; it names no template. -/
def Tag.isOrdinary : Tag → Bool
  | .placeholder .. | .other | .openIf _ | .elseIf _ | .orElse | .closeIf | .openFor .. | .closeFor
  | .openBlock _ | .closeBlock => true
  | .superCall | .insert .. | .inherit _ | .mixin _ | .comment => false

lemma Tag.isComment_of_isOrdinary {t : Tag} (h : t.isOrdinary = true) :
    Renderer.isComment t = false := by
  cases t <;> first | rfl | cases h

lemma Tag.isAncestry_of_isOrdinary {t : Tag} (h : t.isOrdinary = true) :
    Renderer.isAncestry t = false := by
  cases t <;> first | rfl | cases h

lemma Tag.isSuper_of_isOrdinary {t : Tag} (h : t.isOrdinary = true) :
    Renderer.isSuper t = false := by
  cases t <;> first | rfl | cases h

section
variable {l : List Symbol} (h : ∀ t written, .tag t written ∈ l → t.isOrdinary = true)
include h

lemma tag?_any_of_ordinary {p : Tag → Bool} (hp : ∀ {t}, t.isOrdinary = true → p t = false) :
    ∀ y ∈ l, y.tag?.any p = false := by
  intro y hy
  cases y with
  | char c => rfl
  | tag t written => exact hp (h t written hy)

lemma any_of_ordinary {p : Tag → Bool} (hp : ∀ {t}, t.isOrdinary = true → p t = false) :
    (l.any fun y => y.tag?.any p) = false :=
  List.any_eq_false.mpr fun y hy => by simp [tag?_any_of_ordinary h hp y hy]

lemma any_isInsert_of_ordinary : l.any Renderer.isInsert = false := by
  refine List.any_eq_false.mpr fun y hy hinsert => ?_
  unfold Renderer.isInsert at hinsert
  split at hinsert
  · cases h _ _ hy
  · cases hinsert

lemma parent?_of_ordinary : Renderer.parent? l = none := by
  refine List.findSome?_eq_none_iff.mpr fun y hy => ?_
  split
  · cases h _ _ hy
  · rfl

end

/-- Symbols among which there are only ordinary tags and no matched constructs. -/
structure Idle (symbols : List Symbol) : Prop where
  ordinary : ∀ t written, .tag t written ∈ symbols → t.isOrdinary = true
  unclosed : ∀ p : Pair, ∀ before y after, symbols = before ++ y :: after → p.opens y = true →
    p.Unclosed after

namespace Idle
variable {l : List Symbol} (h : Idle l)
include h

lemma split_eq (p : Pair) : Piece.split p l = l.map .single :=
  Piece.split_of_unclosed (h.unclosed p)

lemma hideLoops_eq : hideLoops l = l := by
  rw [Stencil.hideLoops_eq, h.split_eq, List.flatMap_map]
  exact List.flatMap_singleton' l

/-- A pass that drops tags finds none. -/
lemma any_eq_false {p : Tag → Bool} (hp : ∀ {t}, t.isOrdinary = true → p t = false) :
    (l.any fun y => y.tag?.any p) = false :=
  any_of_ordinary h.ordinary hp

end Idle

namespace Renderer

/-- What is put in the place of a placeholder: the text of a value, or, where the path has none or
null, the default, or nothing. -/
def valueOrDefault (vars : Fields) (path : Text) (fallback : Option Text) : Text :=
  match vars.valueAt? path, fallback with
  | none, none | some .null, none => []
  | none, some default | some .null, some default => default
  | some v, _ => v.text

/-- What a symbol of a text without matched constructs becomes. -/
def printed (vars : Fields) : Symbol → Text
  | .tag (.placeholder path fallback) _ => valueOrDefault vars path fallback
  | y => y.text

lemma placeholderText_eq (vars : Fields) (path : Text) (fallback : Option Text) :
    placeholderText vars path fallback = valueOrDefault vars path fallback := by
  unfold placeholderText valueOrDefault
  cases vars.valueAt? path with
  | none => cases fallback <;> rfl
  | some v => cases v <;> cases fallback <;> rfl

lemma interpolate_eq_flatMap (vars : Fields) (l : List Symbol) :
    interpolate vars l = l.flatMap (printed vars) := by
  rw [interpolate]
  induction l with
  | nil => rfl
  | cons y l ih =>
    rw [List.flatMap_cons, ← ih]
    cases y with
    | char c => rfl
    | tag t written =>
      cases t with
      | placeholder path fallback => exact congrArg (· ++ _) (placeholderText_eq vars path fallback)
      | _ => rfl

variable {r : Renderer} {s : Text}

lemma read_of_idle (hr : r.options.whitespace = .disabled) (hs : Whitespace.MarkerFree s)
    (h : Idle (Scan.symbols s)) : r.read s = Scan.symbols s := by
  have hcomment := h.any_eq_false Tag.isComment_of_isOrdinary
  rw [read, preprocess, Whitespace.applyMarkers_of_scan (Whitespace.Mark.scan_of_markerFree hs), hr,
    Whitespace.applyGlobal_disabled, Symbol.textWithout_of_none hcomment, Scan.textOf_symbols]

/-- Nothing is put in the place of constructs where there are none. -/
lemma expandConstructs_of_idle (h : Idle (Scan.symbols s)) (p : Pair)
    (expand : Construct → Rendering Text) :
    expandConstructs p expand (Scan.symbols s) (Scan.symbols s) = .done (Scan.symbols s) := by
  have htext : Rendering.concatMap (expandPiece expand) (Piece.split p (Scan.symbols s)) =
      .done s := by
    rw [h.split_eq, Rendering.concatMap_map]
    refine (Rendering.concatMap_pure Symbol.text _).trans ?_
    rw [← Symbol.textOf_eq_flatMap, Scan.textOf_symbols]
  rw [expandConstructs_symbols p expand (Scan.textOf_symbols s), htext]
  rfl

lemma expandBody_of_idle (h : Idle (Scan.symbols s)) (template fragment : Expansion)
    (ctx : Context) : r.expandBody template fragment ctx (Scan.symbols s) =
      .done ((Scan.symbols s).flatMap (printed ctx.vars)) := by
  have hancestry := h.any_eq_false Tag.isAncestry_of_isOrdinary
  have hsuper := h.any_eq_false Tag.isSuper_of_isOrdinary
  have hinserts : r.expandInserts template ctx (Scan.symbols s) = .done (Scan.symbols s) := by
    rw [expandInserts, h.hideLoops_eq, any_isInsert_of_ordinary h.ordinary,
      if_neg Bool.false_ne_true]
  have hblocks : r.expandBlocks fragment ctx (Scan.symbols s) = .done (Scan.symbols s) := by
    rw [expandBlocks, h.hideLoops_eq]
    exact expandConstructs_of_idle h .block _
  have hconditionals : r.expandConditionals fragment ctx (Scan.symbols s) =
      .done (Scan.symbols s) := by
    rw [expandConditionals, h.hideLoops_eq]
    exact expandConstructs_of_idle h .conditional _
  have hloops : r.expandLoops fragment ctx (Scan.symbols s) = .done (Scan.symbols s) :=
    expandConstructs_of_idle h .loop _
  rw [expandBody, dropTags, hancestry, if_neg Bool.false_ne_true, hinserts, Rendering.done_bind,
    hblocks, Rendering.done_bind, hconditionals, Rendering.done_bind, hloops, Rendering.done_bind,
    dropTags, hsuper, if_neg Bool.false_ne_true, interpolate_eq_flatMap]
  rfl

/-- A text on which no directive acts renders, without resolver and loader and on every level, to
itself with values in the place of its placeholders. -/
theorem run_renderText_idle (read : Text → Except Text Text)
    (hr : r.options.whitespace = .disabled) (hs : Whitespace.MarkerFree s)
    (h : Idle (Scan.symbols s)) (vars : Fields) (directory : Option Text) :
    (Scan.symbols s).flatMap Symbol.text = s ∧
      (r.renderText s vars directory).run read =
        ⟨[], .ok ((Scan.symbols s).flatMap (printed vars))⟩ := by
  refine ⟨by rw [← Symbol.textOf_eq_flatMap, Scan.textOf_symbols], ?_⟩
  have hparent := parent?_of_ordinary h.ordinary
  rw [renderText, topLevel, template, read_of_idle hr hs h]
  simp only [hparent]
  rw [expandBody_of_idle h, Rendering.run_done]

/-- A line with an opener and closers that find no partner, an unknown tag, placeholders with and
without a default and a tag that is not finished. -/
def draft : Text :=
  writeTag .control "if a".toList ++ "x {{ v }}{% endfor %} {{ 1 + 2 }}".toList ++
    writeTag .value "n | default(\"none\")".toList ++ writeTag .value "n".toList ++
    writeTag .value "v | default('none')".toList ++ writeTag .value "m | default('-')".toList ++
    ['{', '%', ' ']

/-- The value, which looks like a tag, is not read again; null takes the default, or leaves
nothing. -/
theorem run_renderText_draft :
    (({ options := { whitespace := .disabled } } : Renderer).renderText draft
      [("v".toList, .string "{{ w }}".toList), ("n".toList, .null)] none).run
        (fun _ => .error []) =
        ⟨[], .ok (writeTag .control "if a".toList ++
          "x {{ w }}{% endfor %} {{ 1 + 2 }}none{{ w }}-".toList ++ ['{', '%', ' '])⟩ := by
  have hmarkers : Whitespace.MarkerFree draft := by
    rintro (_ | _ | _) <;> decide +kernel
  have hidle : Idle (Scan.symbols draft) := by
    constructor
    · intro t written ht
      have hall : ∀ y ∈ Scan.symbols draft, ∀ t ∈ y.tag?, t.isOrdinary = true := by decide +kernel
      exact hall _ ht t rfl
    · intro p
      apply Pair.unclosed_of_allConstructs
      cases p <;> decide +kernel
  rw [(run_renderText_idle _ rfl hmarkers hidle _ none).2]
  refine congrArg (fun s => Rendering.Outcome.mk [] (.ok s)) ?_
  decide +kernel

end Renderer
end Stencil
