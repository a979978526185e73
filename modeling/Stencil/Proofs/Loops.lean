import Stencil.Proofs.Levels
import Stencil.Proofs.Pieces
import Stencil.Proofs.Steady

/-! Loops as parts that no other construct looks into. A text that is cut at its loops has the same
blocks and conditionals, and these the same branches, whatever text stands in the place of the
loops. -/
namespace Stencil
open Rendering (Gives)

lemma Symbol.textOf_flatMap {α : Type} (f : α → List Symbol) (as : List α) :
    textOf (as.flatMap f) = as.flatMap fun a => textOf (f a) := by
  induction as with
  | nil => rfl
  | cons a as ih => rw [List.flatMap_cons, textOf_append, ih, List.flatMap_cons]

lemma flatMap_withoutTags_single (l : List Symbol) :
    (l.map Piece.single).flatMap Piece.withoutTags = l := by
  rw [List.flatMap_map]
  exact List.flatMap_singleton' l

lemma WellMatched.hideLoops_eq {U : List Piece} (h : WellMatched .loop U) :
    hideLoops (U.flatMap Piece.symbols) = U.flatMap Piece.withoutTags := by
  rw [Stencil.hideLoops_eq, h.split_eq]

namespace Piece

/-- The symbol that a piece begins with. -/
def head : Piece → Symbol
  | .single y => y
  | .construct c => c.opener

def construct? : Piece → Option Construct
  | .single _ => none
  | .construct c => some c

/-- The piece with a text in the place of its loop. -/
def withText (f : Construct → Text) : Piece → List Symbol
  | .single y => [y]
  | .construct c => (f c).map .char

/-- The same as pieces of which none is a loop. -/
def opened (f : Construct → Text) (u : Piece) : List Piece := (u.withText f).map .single

lemma withText_text : withText Construct.text = withoutTags := by
  funext u
  cases u <;> rfl

lemma flatMap_withText_single (f : Construct → Text) (l : List Symbol) :
    (l.map single).flatMap (withText f) = l := by
  rw [List.flatMap_map]
  exact List.flatMap_singleton' l

lemma flatMap_symbols_opened (f : Construct → Text) (U : List Piece) :
    (U.flatMap (opened f)).flatMap symbols = U.flatMap (withText f) := by
  rw [List.flatMap_assoc]
  congr 1
  funext u
  exact flatMap_symbols_single _

lemma flatMap_opened (f : Construct → Text) (U : List Piece) :
    U.flatMap (opened f) = (U.flatMap (withText f)).map .single := by
  rw [List.map_flatMap]
  rfl

end Piece

/-- The matched constructs of one kind that stand inside no other one. -/
def constructs (p : Pair) (symbols : List Symbol) : List Construct :=
  (Piece.split p symbols).filterMap Piece.construct?

lemma mem_constructs {p : Pair} {symbols : List Symbol} {c : Construct} :
    c ∈ constructs p symbols ↔ .construct c ∈ Piece.split p symbols := by
  rw [constructs, List.mem_filterMap]
  constructor
  · rintro ⟨u, hu, hc⟩
    cases u with
    | single y => cases hc
    | construct d =>
      cases hc
      exact hu
  · exact fun hc => ⟨_, hc, rfl⟩

lemma Pair.isNeutral_of_opens_loop {p : Pair} (hp : p ≠ .loop) {y : Symbol}
    (h : Pair.opens .loop y = true) : p.IsNeutral y := by
  unfold Pair.opens at h
  split at h
  · cases h
  · exact ⟨by simpa [Pair.opens] using hp, rfl⟩
  · cases h
  · cases h

namespace WellMatched
variable {U : List Piece} (hU : WellMatched .loop U)
include hU

lemma opened (f : Construct → Text) : WellMatched .loop (U.flatMap (Piece.opened f)) := by
  refine WellMatched.rework (f := fun u => [u]) (by rwa [List.flatMap_singleton']) fun u _ => ?_
  cases u with
  | single y => exact .inl (.refl _)
  | construct c =>
    exact .inr fun piece hpiece => Piece.isNeutral_of_mem_singles _ hpiece

lemma split_withText (f : Construct → Text) :
    Piece.split .loop (U.flatMap (Piece.withText f)) =
      (U.flatMap (Piece.withText f)).map .single := by
  have := (hU.opened f).split_eq
  rwa [Piece.flatMap_symbols_opened, Piece.flatMap_opened] at this

/-- With texts in the place of the loops there is nothing to hide. -/
lemma hideLoops_withText (f : Construct → Text) :
    hideLoops (U.flatMap (Piece.withText f)) = U.flatMap (Piece.withText f) := by
  rw [Stencil.hideLoops_eq, hU.split_withText, flatMap_withoutTags_single]

lemma spreads_withText {p : Pair} (hp : p ≠ .loop) (f : Construct → Text) :
    ∀ u ∈ U, Part.Spreads p Piece.head (Piece.withText f) u := by
  intro u hu
  cases u with
  | single y => exact .inl rfl
  | construct c =>
    exact .inr ⟨Pair.isNeutral_of_opens_loop hp (hU.constructs c hu).1,
      fun y hy => p.isNeutral_of_mem_map_char hy⟩

/-- The constructs of another kind stand where they stand, whatever is in the place of the
loops. -/
lemma split_withText_of_ne {p : Pair} (hp : p ≠ .loop) (f : Construct → Text) :
    Piece.split p (U.flatMap (Piece.withText f)) =
      (Part.parts p Piece.head U).flatMap (Part.pieces Piece.head (Piece.withText f)) :=
  Part.split_flatMap (hU.spreads_withText hp f)

end WellMatched

namespace Part
variable {p : Pair} {U : List Piece}

lemma mem_of_mem_parts {part : Part Piece} (h : part ∈ parts p Piece.head U) {u : Piece}
    (hu : u ∈ part.items) : u ∈ U := by
  rw [← @flatMap_items_parts _ p Piece.head U]
  exact List.mem_flatMap.mpr ⟨part, h, hu⟩

lemma sublist_of_mem_parts {opener closer : Piece} {body : List Piece}
    (h : .closed opener body closer ∈ parts p Piece.head U) : body.Sublist U := by
  have hitems : body.Sublist (items (.closed opener body closer)) :=
    (List.sublist_append_left body [closer]).trans (List.sublist_cons_self opener _)
  have hpart : (items (.closed opener body closer)).Sublist
      ((parts p Piece.head U).flatMap items) :=
    List.sublist_flatten_of_mem (List.mem_map_of_mem h)
  rw [flatMap_items_parts] at hpart
  exact hitems.trans hpart

/-- The construct that a closed part is, with texts in the place of its loops. -/
def construct (f : Construct → Text) (opener : Piece) (body : List Piece) (closer : Piece) :
    Construct :=
  ⟨opener.head, body.flatMap (Piece.withText f), closer.head⟩

/-- A part with a text in the place of a closed construct. -/
def replaced (put : Part Piece → Text) : Part Piece → List Piece
  | .single u => [u]
  | .closed opener body closer =>
    ((put (.closed opener body closer)).map Symbol.char).map .single

end Part

/-- A text with texts in the place of its constructs of one kind. -/
def replaceParts (p : Pair) (put : Part Piece → Text) (U : List Piece) : List Piece :=
  (Part.parts p Piece.head U).flatMap (Part.replaced put)

section
variable {p : Pair} {put : Part Piece → Text} {U : List Piece}

lemma wellMatched_replaceParts (hU : WellMatched .loop U) (p : Pair) (put : Part Piece → Text) :
    WellMatched .loop (replaceParts p put U) := by
  refine WellMatched.rework (f := Part.items) (by rwa [Part.flatMap_items_parts]) fun part _ => ?_
  cases part with
  | single u => exact .inl (.refl _)
  | closed opener body closer =>
    exact .inr fun piece hpiece => Piece.isNeutral_of_mem_singles _ hpiece

lemma mem_of_construct_mem_replaceParts {c : Construct} (h : .construct c ∈ replaceParts p put U) :
    .construct c ∈ U := by
  obtain ⟨part, hpart, hc⟩ := List.mem_flatMap.mp h
  cases part with
  | single u =>
    obtain rfl := List.mem_singleton.mp hc
    exact Part.mem_of_mem_parts hpart (List.mem_singleton_self _)
  | closed opener body closer =>
    obtain ⟨z, -, heq⟩ := List.mem_map.mp hc
    cases heq

lemma steady_replaceParts (hl : Steady (U.flatMap Piece.symbols))
    (hput : ∀ opener body closer, .closed opener body closer ∈ Part.parts p Piece.head U →
      (put (.closed opener body closer)).IsBraceless) :
    Steady ((replaceParts p put U).flatMap Piece.symbols) := by
  rw [replaceParts, List.flatMap_assoc]
  refine .flatMap fun part hpart => ?_
  cases part with
  | single u =>
    refine hl.subset fun y hy => List.mem_flatMap.mpr ⟨u, ?_, by simpa [Part.replaced] using hy⟩
    exact Part.mem_of_mem_parts hpart (List.mem_singleton_self u)
  | closed opener body closer =>
    rw [Part.replaced, flatMap_symbols_single]
    exact .map_char (hput _ _ _ hpart)

end

/-- A branch of a conditional in pieces that are cut at the loops. -/
structure Branch where
  header : Symbol
  condition : Option Text
  body : List Piece

namespace Branch

/-- The branch with texts in the place of its loops. -/
def clause (f : Construct → Text) (branch : Branch) : Clause :=
  ⟨branch.header, branch.condition, branch.body.flatMap (Piece.withText f)⟩

/-- The branches are the same whatever stands in the place of the loops. -/
lemma exists_split (pieces : List Piece) (depth : ℕ) (final : Bool) :
    ∃ (first : List Piece) (later : List Branch), first.Sublist pieces ∧
      (∀ branch ∈ later, branch.body.Sublist pieces) ∧
      ∀ f, Clause.split depth final (pieces.flatMap (Piece.withText f)) =
        (first.flatMap (Piece.withText f), later.map (clause f)) := by
  induction pieces generalizing depth final with
  | nil => exact ⟨[], [], .slnil, by simp, fun _ => rfl⟩
  | cons u pieces ih =>
    cases u with
    | construct c =>
      obtain ⟨first, later, hfirst, hlater, hsplit⟩ := ih depth final
      refine ⟨.construct c :: first, later, hfirst.cons_cons _,
        fun branch hbranch => (hlater branch hbranch).cons _, fun f => ?_⟩
      rw [List.flatMap_cons, Piece.withText,
        Clause.Passes.map_char 0 (f c) depth (Nat.zero_le depth), hsplit]
      rfl
    | single y =>
      cases hheader : if depth = 0 && !final then Clause.header? y else none with
      | some condition =>
        obtain ⟨first, later, hfirst, hlater, hsplit⟩ := ih 0 condition.isNone
        refine ⟨[], ⟨y, condition, first⟩ :: later, List.nil_sublist _, ?_, fun f => ?_⟩
        · intro branch hbranch
          cases hbranch with
          | head => exact hfirst.cons _
          | tail _ hbranch => exact (hlater branch hbranch).cons _
        · rw [List.flatMap_cons, Piece.withText, List.singleton_append, Clause.split, hheader]
          simp only [hsplit]
          rfl
      | none =>
        obtain ⟨first, later, hfirst, hlater, hsplit⟩ := ih (Clause.depthAfter depth y) final
        refine ⟨.single y :: first, later, hfirst.cons_cons _,
          fun branch hbranch => (hlater branch hbranch).cons _, fun f => ?_⟩
        rw [List.flatMap_cons, Piece.withText, List.singleton_append, Clause.split, hheader]
        simp only [hsplit]
        rfl

end Branch

/-- The first branch of a conditional has the condition of its opener. -/
lemma Clause.exists_ofConstruct_eq (opener : Symbol) :
    ∃ condition, ∀ body closer, ofConstruct ⟨opener, body, closer⟩ =
      ⟨opener, condition, (split 0 false body).1⟩ :: (split 0 false body).2 := by
  simp only [ofConstruct]
  exact ⟨_, fun _ _ => rfl⟩

/-- The branch that is chosen is the same whatever stands in the place of the loops. -/
lemma Renderer.exists_chosen? (vars : Fields) (opener closer : Piece) (body : List Piece) :
    ∃ choice : Option Branch, (∀ branch ∈ choice, branch.body.Sublist body) ∧
      ∀ f, chosen? vars (Clause.ofConstruct (Part.construct f opener body closer)) =
        choice.map (Branch.clause f) := by
  obtain ⟨first, later, hfirst, hlater, hsplit⟩ := Branch.exists_split body 0 false
  obtain ⟨condition, hcondition⟩ := Clause.exists_ofConstruct_eq opener.head
  let branches : List Branch := ⟨opener.head, condition, first⟩ :: later
  refine ⟨branches.find? fun branch => branch.condition.all fun s => conditionHolds s vars,
    fun branch hbranch => ?_, fun f => ?_⟩
  · rcases List.mem_cons.mp (List.mem_of_find?_eq_some hbranch) with rfl | hmem
    · exact hfirst
    · exact hlater branch hmem
  · have hclauses : Clause.ofConstruct (Part.construct f opener body closer) =
        branches.map (Branch.clause f) := by
      rw [Part.construct, hcondition, hsplit]
      rfl
    rw [hclauses, chosen?, List.find?_map]
    rfl

lemma Piece.textOf_flatMap_withText_text (U : List Piece) :
    Symbol.textOf (U.flatMap (Piece.withText Construct.text)) =
      Symbol.textOf (U.flatMap Piece.symbols) := by
  rw [Piece.withText_text, Symbol.textOf_flatMap, Symbol.textOf_flatMap]
  congr 1
  funext u
  exact Piece.textOf_withoutTags u

/-- What is expanded of steady symbols is read again as one text. -/
lemma Steady.expandConstructs_eq {l visible : List Symbol} (hl : Steady l)
    (hvisible : Symbol.textOf visible = Symbol.textOf l) (p : Pair)
    (expand : Construct → Rendering Text) :
    Renderer.expandConstructs p expand l visible = (do
      let s ← Rendering.concatMap (Renderer.expandPiece expand) (Piece.split p visible)
      return Scan.symbols s) := by
  have := Renderer.expandConstructs_symbols p expand hvisible
  rwa [hl.symbols_eq] at this

section
variable {p : Pair} {expand : Construct → Rendering Text} {put : Part Piece → Text}
variable {U : List Piece} {read : Text → Except Text Text} {faults : List TemplateError}

/-- Constructs that give their texts leave these and everything else, whatever text stands in the
place of the loops. -/
lemma WellMatched.gives_concatMap (hU : WellMatched .loop U) (hp : p ≠ .loop)
    (f : Construct → Text)
    (h : ∀ opener body closer, .closed opener body closer ∈ Part.parts p Piece.head U →
      Gives read faults (expand (Part.construct f opener body closer))
        (put (.closed opener body closer))) :
    Gives read faults
      (Rendering.concatMap (Renderer.expandPiece expand)
        (Piece.split p (U.flatMap (Piece.withText f))))
      (Symbol.textOf ((replaceParts p put U).flatMap (Piece.withText f))) := by
  rw [hU.split_withText_of_ne hp, replaceParts, List.flatMap_assoc, Symbol.textOf_flatMap]
  refine .concatMap_flatMap fun part hpart => ?_
  cases part with
  | single u =>
    rw [Part.pieces, Part.replaced, List.flatMap_singleton, Rendering.concatMap_map,
      Symbol.textOf_eq_flatMap]
    exact .of_result (congrArg (fun x => (x.run read).result) (Rendering.concatMap_pure _ _))
  | closed opener body closer =>
    rw [Part.replaced, Piece.flatMap_withText_single, Symbol.textOf_map_char]
    have hone : Gives read faults
        (Rendering.concatMap (Renderer.expandPiece expand)
          [.construct (Part.construct f opener body closer)])
        ([Piece.construct (Part.construct f opener body closer)].flatMap fun _ =>
          put (.closed opener body closer)) := .concatMap fun piece hpiece => by
      obtain rfl := List.mem_singleton.mp hpiece
      exact h opener body closer hpart
    rwa [List.flatMap_singleton] at hone

/-- If the constructs are expanded at all, so is each of them. -/
lemma WellMatched.exists_of_result_concatMap (hU : WellMatched .loop U) (hp : p ≠ .loop)
    {f : Construct → Text} {s : Text}
    (h : ((Rendering.concatMap (Renderer.expandPiece expand)
      (Piece.split p (U.flatMap (Piece.withText f)))).run read).result = .ok s)
    {opener closer : Piece} {body : List Piece}
    (hpart : .closed opener body closer ∈ Part.parts p Piece.head U) :
    ∃ t, ((expand (Part.construct f opener body closer)).run read).result = .ok t := by
  rw [hU.split_withText_of_ne hp] at h
  refine Rendering.exists_of_result_concatMap h (.construct (Part.construct f opener body closer)) ?_
  exact List.mem_flatMap.mpr ⟨_, hpart, List.mem_singleton_self _⟩

end

/-- The pieces of a text, with a text for each of its loops that is read as it stands. -/
structure Unrollable (it : Construct → Text) (U : List Piece) : Prop where
  wellMatched : WellMatched .loop U
  steady : Steady (U.flatMap Piece.symbols)
  braceless : ∀ c, .construct c ∈ U → (it c).IsBraceless

namespace Unrollable
variable {it : Construct → Text} {U : List Piece} (h : Unrollable it U)
include h

lemma sublist {part : List Piece} (hsub : part.Sublist U) : Unrollable it part :=
  ⟨h.wellMatched.sublist hsub,
    h.steady.subset fun _ hy =>
      let ⟨u, hu, hy⟩ := List.mem_flatMap.mp hy
      List.mem_flatMap.mpr ⟨u, hsub.subset hu, hy⟩,
    fun c hc => h.braceless c (hsub.subset hc)⟩

lemma steady_withText : Steady (U.flatMap (Piece.withText it)) := by
  refine .flatMap fun u hu => ?_
  cases u with
  | single y => exact h.steady.subset fun z hz => List.mem_flatMap.mpr ⟨_, hu, hz⟩
  | construct c => exact .map_char (h.braceless c hu)

lemma replaceParts {p : Pair} {put : Part Piece → Text}
    (hput : ∀ opener body closer, .closed opener body closer ∈ Part.parts p Piece.head U →
      (put (.closed opener body closer)).IsBraceless) :
    Unrollable it (replaceParts p put U) :=
  ⟨wellMatched_replaceParts h.wellMatched p put, steady_replaceParts h.steady hput,
    fun c hc => h.braceless c (mem_of_construct_mem_replaceParts hc)⟩

/-- A pass over the constructs of one kind does the same to the text as it is written and to the
text with the texts of its loops, if it does the same to each of the constructs. -/
lemma exists_expandConstructs {read : Text → Except Text Text} {p : Pair} (hp : p ≠ .loop)
    {expand : Construct → Rendering Text} {l : List Symbol}
    (hexpand : ∀ opener body closer t, .closed opener body closer ∈ Part.parts p Piece.head U →
      ((expand (Part.construct Construct.text opener body closer)).run read).result = .ok t →
      t.IsBraceless ∧ ((expand (Part.construct it opener body closer)).run read).result = .ok t)
    (hl : ((Renderer.expandConstructs p expand (U.flatMap Piece.symbols)
      (hideLoops (U.flatMap Piece.symbols))).run read).result = .ok l) :
    ∃ V, Unrollable it V ∧ l = V.flatMap Piece.symbols ∧
      ((Renderer.expandConstructs p expand (U.flatMap (Piece.withText it))
        (hideLoops (U.flatMap (Piece.withText it)))).run read).result =
          .ok (V.flatMap (Piece.withText it)) := by
  rw [h.steady.expandConstructs_eq (textOf_hideLoops _), h.wellMatched.hideLoops_eq,
    ← Piece.withText_text, Rendering.run_bind] at hl
  obtain ⟨s, hs, hl⟩ := Rendering.Outcome.exists_of_result_andThen hl
  let put : Part Piece → Text
    | .single _ => []
    | .closed opener body closer =>
      (expand (Part.construct Construct.text opener body closer)).text read
  have hput opener body closer
      (hpart : .closed opener body closer ∈ Part.parts p Piece.head U) :
      ((expand (Part.construct Construct.text opener body closer)).run read).result =
        .ok (put (.closed opener body closer)) := by
    obtain ⟨t, ht⟩ := h.wellMatched.exists_of_result_concatMap hp hs hpart
    rw [ht, ← Rendering.text_eq ht]
  have hV := h.replaceParts fun opener body closer hpart =>
    (hexpand _ _ _ _ hpart (hput opener body closer hpart)).1
  refine ⟨_, hV, ?_, ?_⟩
  · have hgives : Gives read [] _ _ := h.wellMatched.gives_concatMap hp Construct.text
      fun opener body closer hpart => .of_result (hput opener body closer hpart)
    obtain rfl := hgives.eq_of_result hs
    rw [Piece.textOf_flatMap_withText_text, hV.steady.symbols_eq] at hl
    exact (Except.ok.inj hl).symm
  · have hgives : Gives read [] _ _ := h.wellMatched.gives_concatMap hp it
      fun opener body closer hpart =>
        .of_result (hexpand _ _ _ _ hpart (hput opener body closer hpart)).2
    rw [h.steady_withText.expandConstructs_eq (textOf_hideLoops _),
      h.wellMatched.hideLoops_withText, ← hV.steady_withText.symbols_eq]
    exact Rendering.gives_nil.mp (hgives.map Scan.symbols)

end Unrollable

end Stencil
