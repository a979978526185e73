import Stencil.Proofs.Hole.Dedent
import Stencil.Proofs.Mention
import Stencil.Proofs.Outcome
import Stencil.Proofs.Table
import Stencil.Renderer

/-! What depends on a value only as a list depends on the value in its holes. Texts, contexts and
outcomes are taken as functions of the value. -/
namespace Stencil

/-- The tags in `Good` use the variable `x` as a whole placeholder at most. Among the variables in
`Scope` no value that they print holds a brace, and loops and inclusions do not leave `Scope`. -/
structure Insulates (x : Text) (Good : Tag → Prop) (Scope : Fields → Prop) : Prop where
  simple : '.' ∉ x
  spares : ∀ t, Good t → t.spares x = true
  printed : ∀ path fallback, Good (.placeholder path fallback) → ∀ vars, Scope vars →
    '{' ∉ Renderer.placeholderText vars path fallback ∧
      '}' ∉ Renderer.placeholderText vars path fallback
  scope_openFor : ∀ item source, Good (.openFor item source) → ∀ vars, Scope vars →
    ∀ items, LoopSource.items source vars = .ok items → ∀ v ∈ items, Scope (vars.insert item v)
  scope_insert : ∀ reference literal, Good (.insert reference (some literal)) →
    ∀ vars, Scope vars → Scope (vars.overlay (Locals.read literal vars))

namespace Insulates
variable {x : Text} {Good : Tag → Prop} {Scope : Fields → Prop} (hG : Insulates x Good Scope)
include hG

lemma openIf {condition : Text} (h : Good (.openIf condition)) :
    Ignores x (conditionHolds condition) := ignores_conditionHolds (hG.spares _ h)

lemma elseIf {condition : Text} (h : Good (.elseIf condition)) :
    Ignores x (conditionHolds condition) := ignores_conditionHolds (hG.spares _ h)

lemma openFor {item source : Text} (h : Good (.openFor item source)) :
    Ignores x (LoopSource.items source) := ignores_items (hG.spares _ h)

lemma insert {reference literal : Text} (h : Good (.insert reference (some literal))) :
    Ignores x (Locals.read literal) := Locals.ignores_read (hG.spares _ h)

lemma placeholder {path : Text} {fallback : Option Text} (h : Good (.placeholder path fallback)) :
    path = x ∨ Ignores x fun vars => vars.valueAt? path := by
  have hspares := hG.spares _ h
  rw [Tag.spares, Bool.or_eq_true, decide_eq_true_iff] at hspares
  exact hspares.imp_right ignores_valueAt?

end Insulates

/-- A sealed symbol whose tag, if it is one, is in `Good`. -/
def Fit (options : WhitespaceOptions) (Good : Tag → Prop) (y : Symbol) : Prop :=
  y = hole ∨ (∃ c, y = .char c ∧ c ≠ '{' ∧ c ≠ '}') ∨
    (SealedTag options y ∧ ∀ t, y.tag? = some t → Good t)

section
variable {options : WhitespaceOptions} {Good : Tag → Prop}

lemma Fit.sealed {y : Symbol} (h : Fit options Good y) : Sealed options y := by
  rcases h with h | h | ⟨h, -⟩
  · exact .inl h
  · exact .inr (.inl h)
  · exact .inr (.inr h)

lemma fit_hole : Fit options Good hole := .inl rfl

lemma fit_char {c : Char} (hopen : c ≠ '{') (hclose : c ≠ '}') : Fit options Good (.char c) :=
  .inr (.inl ⟨c, rfl, hopen, hclose⟩)

lemma Fit.good {y : Symbol} (h : Fit options Good y) (hy : y ≠ hole) {t : Tag}
    (ht : y.tag? = some t) : Good t := by
  rcases h with rfl | ⟨c, rfl, -, -⟩ | ⟨-, hgood⟩
  · exact absurd rfl hy
  · cases ht
  · exact hgood t ht

lemma fit_map_char {s : Text} (hopen : '{' ∉ s) (hclose : '}' ∉ s) :
    ∀ y ∈ s.map Symbol.char, Fit options Good y := by
  intro y hy
  obtain ⟨c, hc, rfl⟩ := List.mem_map.mp hy
  apply fit_char
  · rintro rfl
    exact hopen hc
  · rintro rfl
    exact hclose hc

end

/-- One value that is inert under all options. -/
lemma inert_letter (options : WhitespaceOptions) : Inert options ['m'] := by
  refine ⟨by decide, by decide, fun _ => ⟨by simp, by decide, ?_, ?_⟩⟩ <;>
    · simp
      decide

/-- A text that depends on a value as a filled list does. -/
def UniformText (options : WhitespaceOptions) (Good : Tag → Prop) (f : Text → Text) : Prop :=
  ∃ l, (∀ y ∈ l, Fit options Good y) ∧ ∀ w, Inert options w → f w = fillText w l

namespace UniformText
variable {options : WhitespaceOptions} {Good : Tag → Prop} {f g : Text → Text}

lemma of_list {l : List Symbol} (hl : ∀ y ∈ l, Fit options Good y) :
    UniformText options Good fun w => fillText w l := ⟨l, hl, fun _ _ => rfl⟩

lemma congr (hf : UniformText options Good f) (h : ∀ w, Inert options w → g w = f w) :
    UniformText options Good g := by
  obtain ⟨l, hl, heq⟩ := hf
  exact ⟨l, hl, fun w hw => (h w hw).trans (heq w hw)⟩

lemma const {s : Text} (hopen : '{' ∉ s) (hclose : '}' ∉ s) :
    UniformText options Good fun _ => s :=
  ⟨s.map .char, fit_map_char hopen hclose, fun w _ => (fillText_map_char w s).symm⟩

lemma value : UniformText options Good fun w => w :=
  ⟨[hole], by simp [fit_hole], fun w _ => by simp⟩

lemma append (hf : UniformText options Good f) (hg : UniformText options Good g) :
    UniformText options Good fun w => f w ++ g w := by
  obtain ⟨l, hl, hf⟩ := hf
  obtain ⟨m, hm, hg⟩ := hg
  refine ⟨l ++ m, fun y hy => ?_, fun w hw => ?_⟩
  · rcases List.mem_append.mp hy with hy | hy
    · exact hl y hy
    · exact hm y hy
  · change f w ++ g w = _
    rw [hf w hw, hg w hw, fillText_append]

/-- Tags are replaced by texts that depend on the value in the same way. -/
lemma replace {F : Text → Tag → Option Text}
    (hF : ∀ t, Good t → (∀ w, Inert options w → F w t = none) ∨
      ∃ g, UniformText options Good g ∧ ∀ w, Inert options w → F w t = some (g w))
    {l : List Symbol} (hl : ∀ y ∈ l, Fit options Good y) :
    UniformText options Good fun w => Symbol.replace (F w) (fill w l) := by
  induction l with
  | nil => exact const (s := []) (by simp) (by simp)
  | cons y l ih =>
    have hrest := ih fun z hz => hl z (List.mem_cons_of_mem y hz)
    rcases hl y List.mem_cons_self with rfl | ⟨c, rfl, hopen, hclose⟩ | ⟨htag, hgood⟩
    · refine (value.append hrest).congr fun w _ => ?_
      rw [fill_hole, Symbol.replace_append, Symbol.replace_map_char]
    · refine ((const (s := [c]) (by simpa using Ne.symm hopen)
        (by simpa using Ne.symm hclose)).append hrest).congr fun w _ => ?_
      rw [fill_char]
      rfl
    · obtain ⟨d, content, hy⟩ := htag.finished
      have hne := htag.ne_hole
      have hone (w : Text) : Symbol.replace (F w) (fill w (y :: l)) =
          (F w (Tag.ofContent d content)).getD y.text ++ Symbol.replace (F w) (fill w l) := by
        rw [fill_of_ne w hne, hy]
        rfl
      rcases hF _ (hgood (Tag.ofContent d content) (by rw [hy]; rfl)) with hnone | ⟨g, hg, hsome⟩
      · have htext : UniformText options Good fun w => fillText w [y] :=
          of_list (by simpa using .inr (.inr ⟨htag, hgood⟩))
        refine (htext.append hrest).congr fun w hw => ?_
        rw [hone, hnone w hw, fillText_of_ne w hne, fillText_nil, List.append_nil]
        rfl
      · refine (hg.append hrest).congr fun w hw => ?_
        rw [hone, hsome w hw]
        rfl

lemma textWithout (p : Tag → Bool) {l : List Symbol} (hl : ∀ y ∈ l, Fit options Good y) :
    UniformText options Good fun w => Symbol.textWithout p (fill w l) := by
  apply replace (F := fun _ t => if p t then some [] else none) _ hl
  intro t _
  cases hp : p t with
  | false => exact .inl fun _ _ => rfl
  | true => exact .inr ⟨fun _ => [], const (by simp) (by simp), fun _ _ => rfl⟩

lemma dedentIf (hf : UniformText options Good f) :
    UniformText options Good fun w => Stencil.dedentIf options.dedentBlocks (f w) := by
  obtain ⟨l, hl, hf⟩ := hf
  obtain ⟨m, hm, heq⟩ := exists_dedentIf fun y hy => (hl y hy).sealed
  refine ⟨m, fun y hy => ?_, fun w hw => ?_⟩
  · rcases hm y hy with hy | rfl
    · exact hl y hy
    · exact fit_char (by decide) (by decide)
  · change Stencil.dedentIf options.dedentBlocks (f w) = _
    rw [hf w hw, heq w hw]

lemma preprocess {r : Renderer} (hr : r.options.whitespace = options)
    (hf : UniformText options Good f) : UniformText options Good fun w => r.preprocess (f w) := by
  obtain ⟨l, hl, hf⟩ := hf
  obtain ⟨m, hm, heq⟩ := exists_applyGlobal fun y hy => (hl y hy).sealed
  have hfit : ∀ y ∈ m, Fit options Good y := by
    intro y hy
    rcases hm y hy with hy | rfl
    · exact hl y hy
    · exact fit_char (by decide) (by decide)
  refine (textWithout Renderer.isComment hfit).congr fun w hw => ?_
  rw [Renderer.preprocess, hf w hw, applyMarkers_fillText (fun y hy => (hl y hy).sealed) hw, hr,
    heq w hw, symbols_fillText (fun y hy => (hfit y hy).sealed) hw]

/-- The symbols of such a text are those of the list. -/
lemma exists_symbols (hf : UniformText options Good f) :
    ∃ l, (∀ y ∈ l, Fit options Good y) ∧
      ∀ w, Inert options w → Scan.symbols (f w) = fill w l := by
  obtain ⟨l, hl, hf⟩ := hf
  refine ⟨l, hl, fun w hw => ?_⟩
  rw [hf w hw, symbols_fillText (fun y hy => (hl y hy).sealed) hw]

end UniformText

/-- Variables as a function of the value: `x` is the value, unless it is bound to something else,
and all others stay the same. -/
structure UniformFields (options : WhitespaceOptions) (x : Text) (Scope : Fields → Prop)
    (V : Text → Fields) : Prop where
  agree : ∀ v w, Inert options v → Inert options w → AgreeOff x (V v) (V w)
  at_x : (∀ w, Inert options w → (V w).get? x = some (.string w)) ∨
    ∀ v w, Inert options v → Inert options w → (V v).get? x = (V w).get? x
  scope : ∀ w, Inert options w → Scope (V w)

lemma Entries.get?_overlay_cases {α : Type} (upper : Entries α) (key : Text) :
    (∃ v, ∀ entries : Entries α, (entries.overlay upper).get? key = some v) ∨
      ∀ entries : Entries α, (entries.overlay upper).get? key = entries.get? key := by
  simp only [get?_overlay_reverse]
  cases get? upper.reverse key with
  | none => exact .inr fun _ => rfl
  | some v => exact .inl ⟨v, fun _ => rfl⟩

namespace UniformFields
variable {options : WhitespaceOptions} {x : Text} {Scope : Fields → Prop} {V : Text → Fields}

/-- What makes no use of `x` is the same for all values. -/
lemma eq_of_ignores (hV : UniformFields options x Scope V) {α : Type} {f : Fields → α}
    (hf : Ignores x f) {w : Text} (hw : Inert options w) : f (V w) = f (V ['m']) :=
  hf _ _ (hV.agree w ['m'] hw (inert_letter options))

lemma insert (hV : UniformFields options x Scope V) (item : Text) (v : Value)
    (hscope : ∀ w, Inert options w → Scope ((V w).insert item v)) :
    UniformFields options x Scope fun w => (V w).insert item v := by
  refine ⟨fun a b ha hb key hkey => ?_, ?_, hscope⟩
  · rw [Entries.get?_insert, Entries.get?_insert, hV.agree a b ha hb key hkey]
  · by_cases hitem : item = x
    · refine .inr fun a b _ _ => ?_
      rw [Entries.get?_insert, Entries.get?_insert, if_pos hitem, if_pos hitem]
    · simp only [Entries.get?_insert, if_neg hitem]
      exact hV.at_x

lemma overlay (hV : UniformFields options x Scope V) (upper : Fields)
    (hscope : ∀ w, Inert options w → Scope ((V w).overlay upper)) :
    UniformFields options x Scope fun w => (V w).overlay upper := by
  refine ⟨fun a b ha hb key hkey => ?_, ?_, hscope⟩
  · rcases Entries.get?_overlay_cases upper key with ⟨v, hv⟩ | hsame
    · rw [hv, hv]
    · rw [hsame, hsame, hV.agree a b ha hb key hkey]
  · rcases Entries.get?_overlay_cases upper x with ⟨v, hv⟩ | hsame
    · exact .inr fun a b _ _ => by rw [hv, hv]
    · simp only [hsame]
      exact hV.at_x

/-- What a good placeholder leaves is the value itself or the same text for all values. -/
lemma placeholderText (hV : UniformFields options x Scope V) {Good : Tag → Prop}
    (hG : Insulates x Good Scope) {path : Text} {fallback : Option Text}
    (hgood : Good (.placeholder path fallback)) :
    UniformText options Good fun w => Renderer.placeholderText (V w) path fallback := by
  have hprinted (w : Text) (hw : Inert options w) := hG.printed path fallback hgood _ (hV.scope w hw)
  have hsame (h : ∀ w, Inert options w → (V w).valueAt? path = (V ['m']).valueAt? path) :
      UniformText options Good fun w => Renderer.placeholderText (V w) path fallback := by
    have hm := hprinted ['m'] (inert_letter options)
    refine (UniformText.const hm.1 hm.2).congr fun w hw => ?_
    rw [Renderer.placeholderText, Renderer.placeholderText, h w hw]
  rcases hG.placeholder hgood with rfl | hignores
  · have hvalue (vars : Fields) : vars.valueAt? path = vars.get? path := by
      rw [Fields.valueAt?, List.splitOn_eq_singleton hG.simple]
      rfl
    rcases hV.at_x with hx | hx
    · refine UniformText.value.congr fun w hw => ?_
      rw [Renderer.placeholderText, hvalue, hx w hw]
      rfl
    · apply hsame
      intro w hw
      rw [hvalue, hvalue, hx w ['m'] hw (inert_letter options)]
  · exact hsame fun w hw => hV.eq_of_ignores hignores hw

end UniformFields

open Rendering (Outcome)

/-- An outcome as a function of the value: the same files are used, and then it is the same
error for all values, or a result that depends on the value as `R` says. -/
def Uniformly {α : Type} (options : WhitespaceOptions) (R : (Text → α) → Prop)
    (o : Text → Outcome α) : Prop :=
  (∃ used e, ∀ w, Inert options w → o w = ⟨used, .error e⟩) ∨
    ∃ used a, R a ∧ ∀ w, Inert options w → o w = ⟨used, .ok (a w)⟩

namespace Uniformly
variable {α β : Type} {options : WhitespaceOptions} {R : (Text → α) → Prop}
  {R' : (Text → β) → Prop} {o : Text → Outcome α}

lemma ok {a : Text → α} (ha : R a) : Uniformly options R fun w => ⟨[], .ok (a w)⟩ :=
  .inr ⟨[], a, ha, fun _ _ => rfl⟩

lemma error (e : TemplateError) : Uniformly options R fun _ => ⟨[], .error e⟩ :=
  .inl ⟨[], e, fun _ _ => rfl⟩

lemma congr {o' : Text → Outcome α} (h : Uniformly options R o)
    (heq : ∀ w, Inert options w → o' w = o w) : Uniformly options R o' := by
  rcases h with ⟨used, e, h⟩ | ⟨used, a, ha, h⟩
  · exact .inl ⟨used, e, fun w hw => (heq w hw).trans (h w hw)⟩
  · exact .inr ⟨used, a, ha, fun w hw => (heq w hw).trans (h w hw)⟩

lemma behind (h : Uniformly options R o) (used : List Text) :
    Uniformly options R fun w => (o w).behind used := by
  rcases h with ⟨later, e, h⟩ | ⟨later, a, ha, h⟩
  · exact .inl ⟨used ++ later, e, fun w hw => congrArg (Outcome.behind used) (h w hw)⟩
  · exact .inr ⟨used ++ later, a, ha, fun w hw => congrArg (Outcome.behind used) (h w hw)⟩

lemma andThen {g : Text → α → Outcome β} (h : Uniformly options R o)
    (hg : ∀ a, R a → Uniformly options R' fun w => g w (a w)) :
    Uniformly options R' fun w => (o w).andThen (g w) := by
  rcases h with ⟨used, e, h⟩ | ⟨used, a, ha, h⟩
  · exact .inl ⟨used, e, fun w hw => congrArg (Outcome.andThen · (g w)) (h w hw)⟩
  · exact ((hg a ha).behind used).congr fun w hw => congrArg (Outcome.andThen · (g w)) (h w hw)

/-- What does not depend on the value comes first. -/
lemma const_andThen {o : Outcome α} {g : Text → α → Outcome β}
    (hg : ∀ a, o.result = .ok a → Uniformly options R' fun w => g w a) :
    Uniformly options R' fun w => o.andThen (g w) := by
  rcases o with ⟨used, e | a⟩
  · exact .inl ⟨used, e, fun _ _ => rfl⟩
  · exact ((hg a rfl).behind used).congr fun _ _ => rfl

end Uniformly
end Stencil
