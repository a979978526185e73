import Stencil.Proofs.Hole.Inheritance
import Stencil.Proofs.InMemory
import Stencil.Proofs.Quiet

/-! Values as data. A template that uses a variable as a whole placeholder at most leaves every
inert value of it in the same places, whatever blocks, branches, loops, inclusions and parents
stand around the placeholder. A value with a brace is not inert: inside a branch it is read again
as a template. -/
namespace Stencil

open Rendering (Outcome)

lemma fillText_eq_intercalate (w : Text) (l : List Symbol) :
    fillText w l = w.intercalate ((l.splitOnP (· = hole)).map Symbol.textOf) := by
  induction l with
  | nil => simp
  | cons y l ih =>
    obtain ⟨part, parts, hparts⟩ := List.exists_cons_of_ne_nil (List.splitOnP_ne_nil (· = hole) l)
    rw [hparts] at ih
    rw [List.splitOnP_cons_eq_if_modifyHead, hparts]
    by_cases hy : y = hole
    · subst hy
      rw [fillText_hole, ih]
      simp [List.intercalate_cons_cons]
    · rw [fillText_of_ne w hy, ih]
      cases parts with
      | nil => simp [hy]
      | cons next parts => simp [hy, List.intercalate_cons_cons]

namespace Symbol

/-- A character that is no brace, or a tag in `Good` without a marker of white space control and,
unless white space control is off, without a line break. -/
def Tidy (options : WhitespaceOptions) (Good : Tag → Prop) : Symbol → Prop
  | .char c => c ≠ '{' ∧ c ≠ '}'
  | .tag t content =>
    Whitespace.Mark.scan content = content.map .char ∧
      (options ≠ .disabled → '\n' ∉ content) ∧ Good t

instance (options : WhitespaceOptions) (Good : Tag → Prop) [DecidablePred Good] :
    DecidablePred (Tidy options Good)
  | .char c => inferInstanceAs (Decidable (c ≠ '{' ∧ c ≠ '}'))
  | .tag t content => inferInstanceAs (Decidable (Whitespace.Mark.scan content =
      content.map .char ∧ (options ≠ .disabled → '\n' ∉ content) ∧ Good t))

end Symbol

/-- A template of which nothing but tidy symbols is left after its preprocessing. -/
def Renderer.IsTidy (r : Renderer) (Good : Tag → Prop) (source : Text) : Prop :=
  ∀ y ∈ r.read source, y.Tidy r.options.whitespace Good

instance (r : Renderer) (Good : Tag → Prop) [DecidablePred Good] (source : Text) :
    Decidable (r.IsTidy Good source) :=
  inferInstanceAs (Decidable (∀ y ∈ r.read source, y.Tidy r.options.whitespace Good))

lemma Renderer.IsTidy.clean {r : Renderer} {Good : Tag → Prop} {source : Text}
    (h : r.IsTidy Good source) : Clean r Good source := by
  intro y hy
  have htidy := h y hy
  rcases Scan.mem_symbols hy with ⟨c, rfl⟩ | ⟨d, content, rfl, hreads⟩
  · exact fit_char htidy.1 htidy.2
  · obtain ⟨hunmarked, honeLine, hgood⟩ := htidy
    refine .inr (.inr ⟨⟨⟨d, content, rfl⟩, hreads, hunmarked, honeLine⟩, fun t ht => ?_⟩)
    obtain rfl := Option.some.inj ht
    exact hgood

/-- Either the rendering fails alike for all inert values of `x`, or the same parts stand around
the value in all its places, and the same templates are used. -/
theorem Store.render_insulated {store : Store} {template x : Text} {vars : Fields}
    {options : Options} {Good : Tag → Prop} {Scope : Fields → Prop} (hG : Insulates x Good Scope)
    (htemplate : (Renderer.inMemory options).IsTidy Good template)
    (hstore : ∀ entry ∈ store.templates, (Renderer.inMemory options).IsTidy Good entry.2)
    (hscope : ∀ w, Inert options.whitespace w → Scope (vars.insert x (.string w))) :
    (∃ e, ∀ w, Inert options.whitespace w →
      store.render template (vars.insert x (.string w)) options = .error e) ∨
    ∃ parts files, ∀ w, Inert options.whitespace w →
      store.render template (vars.insert x (.string w)) options =
        .ok ⟨w.intercalate parts, files⟩ := by
  set r := Renderer.inMemory options with hr
  have hread : ∀ identifier source, store.read identifier = .ok source → Clean r Good source := by
    intro identifier source hsource
    rw [Store.read, Store.get?] at hsource
    cases hget : store.templates.get? identifier with
    | none => simp [hget] at hsource
    | some content =>
      obtain rfl : content = source := by simpa [hget] using hsource
      exact (hstore _ (Entries.mem_of_get? hget)).clean
  have hV : UniformFields r.options.whitespace x Scope fun w => vars.insert x (.string w) := by
    refine ⟨fun v w _ _ key hkey => ?_, .inl fun w _ => ?_, hscope⟩
    · rw [Entries.get?_insert, Entries.get?_insert, if_neg (Ne.symm hkey), if_neg (Ne.symm hkey)]
    · rw [Entries.get?_insert, if_pos rfl]
  have hrender := (uniformLevel hG hread r.topLevel).template _
    ((none : Option Text).getD r.baseDirectory) template hV htemplate.clean
  rcases hrender with ⟨used, e, h⟩ | ⟨used, f, ⟨l, -, hl⟩, h⟩
  · exact .inl ⟨e, fun w hw => congrArg Rendered.ofOutcome (h w hw)⟩
  · refine .inr ⟨(l.splitOnP (· = hole)).map Symbol.textOf, Rendered.sorted used, fun w hw => ?_⟩
    rw [← fillText_eq_intercalate, ← hl w hw]
    exact congrArg Rendered.ofOutcome (h w hw)

/-- A page with a block, a branch, a loop and an inclusion around places of one variable. -/
def roster : Store := .ofList
  [("page.yapl".toList, "<{% block main %}{% endblock %}>".toList),
    ("cell.yapl".toList, "[{{ member }}: {{ name }}]".toList)]

def rosterPage : Text :=
  writeTag .control "extends \"page\"".toList ++
    "{% block main %}{% if open %}{{ name }}{% endif %}{% for member in members %}".toList ++
    writeTag .control "include \"cell\"".toList ++ "{% endfor %}{% endblock %}".toList

def rosterFields : Fields :=
  [("open".toList, .bool true),
    ("members".toList, .array [.string "Ann".toList, .string "Bo".toList])]

theorem render_roster : ∃ parts files, ∀ w, Inert {} w →
    roster.render rosterPage (rosterFields.insert "name".toList (.string w)) =
      .ok ⟨w.intercalate parts, files⟩ := by
  have hquiet : Quiet rosterFields := by
    have hcalm : ∀ entry ∈ rosterFields, entry.2.Calm := by decide
    exact fun key v hv => hcalm (key, v) (Entries.mem_of_get? hv)
  have hG := insulates_quiet (show '.' ∉ "name".toList by decide)
  have h := @Store.render_insulated roster rosterPage _ rosterFields {} _ _ hG (by decide +kernel)
    (by decide +kernel) fun w hw => hquiet.insert _ ⟨hw.no_open, hw.no_close⟩
  refine h.resolve_left ?_
  rintro ⟨e, he⟩
  have hok : roster.render rosterPage (rosterFields.insert "name".toList (.string ['m'])) =
      .ok ⟨"<m[Ann: m][Bo: m]>".toList, ["cell.yapl".toList, "page.yapl".toList]⟩ := by
    decide +kernel
  have herror := he ['m'] (inert_letter {})
  rw [hok] at herror
  cases herror

/-- A value with braces is read again as a template where its placeholder stands in a branch. -/
theorem render_branch_braces :
    let render (value : Text) := Store.empty.render "{% if true %}{{ x }}{% endif %}".toList
      [("x".toList, .string value), ("y".toList, .string "secret".toList)]
    render "m".toList = .ok ⟨"m".toList, []⟩ ∧
      render "{{ y }}".toList = .ok ⟨"secret".toList, []⟩ := by
  constructor <;> decide +kernel

end Stencil
