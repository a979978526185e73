import Stencil.Proofs.Hole.Passes
import Stencil.Proofs.Table

/-! Expansion of texts that depend on a value as a list does. Main statement: if the templates of
a line and what they load use the value as a whole placeholder at most, the expansion of all of
them is such a text. -/
namespace Stencil

open Rendering (Outcome)

section
variable {r : Renderer} {read : Text → Except Text Text} {x : Text} {Good : Tag → Prop}
  {Scope : Fields → Prop}

/-- A template that reads as characters that are no brace and sealed tags in `Good`. -/
def Clean (r : Renderer) (Good : Tag → Prop) (source : Text) : Prop :=
  ∀ y ∈ r.read source, Fit r.options.whitespace Good y

/-- An expansion of clean templates in contexts that depend on a value. -/
def PreservesClean (r : Renderer) (read : Text → Except Text Text) (x : Text)
    (Good : Tag → Prop) (Scope : Fields → Prop) (expand : Renderer.Expansion) : Prop :=
  ∀ V directory source, UniformFields r.options.whitespace x Scope V → Clean r Good source →
    Uniformly r.options.whitespace (UniformText r.options.whitespace Good) fun w =>
      (expand ⟨V w, directory⟩ source).run read

variable {V : Text → Fields} (hV : UniformFields r.options.whitespace x Scope V)
  (hG : Insulates x Good Scope) (hread : ∀ identifier source, read identifier = .ok source →
    Clean r Good source) (directory : Text)

/-- The bindings that an inclusion passes on. -/
def bindings (locals : Option Text) (vars : Fields) : Fields :=
  match locals with
  | some literal => Locals.read literal vars
  | none => []

lemma run_expandInsert (template : Renderer.Expansion) (ctx : Context) (reference content : Text)
    (locals : Option Text) :
    (r.expandInsert template ctx (.tag (.insert reference locals) content)).run read =
      ((r.fetch reference ctx.directory).run read).andThen fun found =>
        ((template ⟨ctx.vars.overlay (bindings locals ctx.vars), Location.directory found.1⟩
          found.2).run read).behind [found.1] :=
  Rendering.run_bind read _ _

section
variable {template : Renderer.Expansion} (hT : PreservesClean r read x Good Scope template)
include hV hG hread hT

lemma uniformly_expandInsert {t : Tag} {content : Text}
    (h : Fit r.options.whitespace Good (.tag t content)) (hne : Symbol.tag t content ≠ hole) :
    Uniformly r.options.whitespace (UniformText r.options.whitespace Good) fun w =>
      (r.expandInsert template ⟨V w, directory⟩ (.tag t content)).run read := by
  by_cases hinsert : ∃ reference locals, t = .insert reference locals
  · obtain ⟨reference, locals, rfl⟩ := hinsert
    have hgood : Good (.insert reference locals) := h.good hne rfl
    have hbindings : ∃ upper, ∀ w, Inert r.options.whitespace w →
        bindings locals (V w) = upper ∧ Scope ((V w).overlay upper) := by
      cases locals with
      | none => exact ⟨[], fun w hw => ⟨rfl, hV.scope w hw⟩⟩
      | some literal =>
        refine ⟨Locals.read literal (V ['m']), fun w hw => ?_⟩
        have hsame := hV.eq_of_ignores (hG.insert hgood) hw
        exact ⟨hsame, hsame ▸ hG.scope_insert reference literal hgood _ (hV.scope w hw)⟩
    obtain ⟨upper, hupper⟩ := hbindings
    have hV' := hV.overlay upper fun w hw => (hupper w hw).2
    have hfetched : Uniformly r.options.whitespace (UniformText r.options.whitespace Good)
        fun w => ((r.fetch reference directory).run read).andThen fun found =>
          ((template ⟨(V w).overlay upper, Location.directory found.1⟩ found.2).run read).behind
            [found.1] :=
      Uniformly.const_andThen fun found hfetch =>
        (hT _ _ found.2 hV' (hread found.1 found.2 (Renderer.fetch_eq_ok hfetch).2)).behind _
    refine hfetched.congr fun w hw => ?_
    rw [run_expandInsert]
    dsimp only
    rw [(hupper w hw).1]
  · refine (Uniformly.ok (.text h hne)).congr fun w _ => ?_
    have hdone : r.expandInsert template ⟨V w, directory⟩ (.tag t content) =
        .done (Symbol.tag t content).text := by
      cases t <;> first | exact absurd ⟨_, _, rfl⟩ hinsert | rfl
    rw [hdone]
    rfl

lemma UniformSymbols.expandInserts {S : Text → List Symbol}
    (hS : UniformSymbols r.options.whitespace Good S) :
    Uniformly r.options.whitespace (UniformSymbols r.options.whitespace Good) fun w =>
      (r.expandInserts template ⟨V w, directory⟩ (S w)).run read := by
  obtain ⟨f, hf, hS⟩ := hS
  obtain ⟨l, hl, hsymbols⟩ := hf.exists_symbols
  have hpass := uniformly_concatMap (fun w c => rfl)
    (fun t content => uniformly_expandInsert hV hG hread directory hT)
    (Piece.split .loop l) (by simpa using hl)
  refine hpass.symbols.congr fun w hw => ?_
  rw [hS w hw, r.expandInserts_symbols, hsymbols w hw, hideLoops_fill]

end

lemma UniformSymbols.expandConstructs {p : Pair} {E : Text → Construct → Rendering Text}
    (hE : ∀ opener closer body, p.opens opener = true → Fit r.options.whitespace Good opener →
      (∀ y ∈ body.flatMap Piece.symbols, Fit r.options.whitespace Good y) →
      Uniformly r.options.whitespace (UniformText r.options.whitespace Good) fun w =>
        (E w ⟨opener, fill w (veil body), closer⟩).run read)
    {S : Text → List Symbol} (hS : UniformSymbols r.options.whitespace Good S) :
    Uniformly r.options.whitespace (UniformSymbols r.options.whitespace Good) (fun w =>
      (Renderer.expandConstructs p (E w) (S w) (hideLoops (S w))).run read) ∧
    Uniformly r.options.whitespace (UniformSymbols r.options.whitespace Good) fun w =>
      (Renderer.expandConstructs p (E w) (S w) (S w)).run read := by
  obtain ⟨f, hf, hS⟩ := hS
  obtain ⟨l, hl, hsymbols⟩ := hf.exists_symbols
  have hhidden := uniformly_expandPiece hE (Piece.split .loop l) (by simpa using hl)
  have hplain := uniformly_expandPiece hE (l.map .single)
    (by rwa [flatMap_symbols_single])
  refine ⟨hhidden.symbols.congr fun w hw => ?_, hplain.symbols.congr fun w hw => ?_⟩
  · rw [hS w hw, Renderer.expandConstructs_symbols p _ (by simp), hsymbols w hw, hideLoops_fill]
  · rw [hS w hw, Renderer.expandConstructs_symbols p _ (by simp), hsymbols w hw, veil_map_single]

include hV hG in
lemma UniformSymbols.interpolate {S : Text → List Symbol}
    (hS : UniformSymbols r.options.whitespace Good S) :
    UniformText r.options.whitespace Good fun w => Renderer.interpolate (V w) (S w) := by
  obtain ⟨f, hf, hsymbols⟩ := hS
  obtain ⟨l, hl, hfill⟩ := hf.exists_symbols
  have htext : UniformText r.options.whitespace Good fun w =>
      Renderer.interpolate (V w) (fill w l) := by
    refine UniformText.replace (fun t ht => ?_) hl
    cases t with
    | placeholder path fallback => exact .inr ⟨_, hV.placeholderText hG ht, fun w _ => rfl⟩
    | _ => exact .inl fun w _ => rfl
  refine htext.congr fun w hw => ?_
  rw [hsymbols w hw, hfill w hw]

section
variable {template fragment : Renderer.Expansion}
  (hT : PreservesClean r read x Good Scope template) (hF : Preserves r read x Good Scope fragment)
include hV hG hread hT hF

/-- One pass after the other keeps texts that depend on a value as lists do. -/
lemma UniformSymbols.expandBody {S : Text → List Symbol}
    (hS : UniformSymbols r.options.whitespace Good S) :
    Uniformly r.options.whitespace (UniformText r.options.whitespace Good) fun w =>
      (r.expandBody template fragment ⟨V w, directory⟩ (S w)).run read := by
  have hpasses : Uniformly r.options.whitespace (UniformText r.options.whitespace Good) fun w =>
      ((r.expandInserts template ⟨V w, directory⟩
        (Renderer.dropTags Renderer.isAncestry (S w))).run read).andThen fun symbols =>
      ((r.expandBlocks fragment ⟨V w, directory⟩ symbols).run read).andThen fun symbols =>
      ((r.expandConditionals fragment ⟨V w, directory⟩ symbols).run read).andThen fun symbols =>
      ((r.expandLoops fragment ⟨V w, directory⟩ symbols).run read).andThen fun symbols =>
        ⟨[], .ok (Renderer.interpolate (V w) (Renderer.dropTags Renderer.isSuper symbols))⟩ := by
    refine (UniformSymbols.expandInserts hV hG hread directory hT
      (hS.dropTags Renderer.isAncestry)).andThen fun S hS => ?_
    refine (hS.expandConstructs ?_).1.andThen fun S hS => ?_
    · intro opener closer body hopen hopener hbody
      exact hF V directory _ hV (uniformText_body hbody)
    refine (hS.expandConstructs ?_).1.andThen fun S hS => ?_
    · intro opener closer body hopen hopener hbody
      exact uniformly_expandConditional hV hG hF directory hopener hbody hopen
    refine (hS.expandConstructs ?_).2.andThen fun S hS => ?_
    · intro opener closer body hopen hopener hbody
      exact uniformly_expandLoop hV hG hF directory hopener hbody hopen
    exact .ok ((hS.dropTags Renderer.isSuper).interpolate hV hG)
  refine hpasses.congr fun w _ => ?_
  simp only [Renderer.expandBody, Rendering.run_bind]
  rfl

end
end
end Stencil
