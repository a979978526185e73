import Stencil.Proofs.EmptyHeir
import Stencil.Proofs.Loops
import Stencil.Proofs.Tree

/-! Loops and their iterations. No pass before the loops looks into a loop, so that its iterations
may stand in its place from the beginning. Main statement: a text gives the same with the
iterations in the place of its outermost loops, wherever these stand, if nothing that is put in the
place of a tag has a brace. -/
namespace Stencil
open Rendering (Gives Outcome)

namespace Renderer

section
variable (r : Renderer) (read : Text → Except Text Text)

/-- The text of a loop: what its body renders to, once for every item in turn, with the loop's
variable bound to the item. -/
def iterations (ctx : Context) (c : Construct) : Text :=
  match c.opener with
  | .tag (.openFor item source) _ =>
    (Tree.itemsOf source ctx.vars).flatMap fun v =>
      (r.fragment r.topLevel { ctx with vars := ctx.vars.insert item v }
        (Symbol.textOf c.body)).text read
  | _ => c.text

/-- A text with their iterations in the place of its outermost loops. -/
def unrolled (ctx : Context) (s : Text) : Text :=
  Symbol.textOf ((Piece.split .loop (r.read s)).flatMap (Piece.withText (r.iterations read ctx)))

/-- The bodies of blocks and the chosen branches that are expanded for a text, one level further
down. -/
def bodies (level : ℕ) (ctx : Context) (symbols : List Symbol) : List Text :=
  let included := ((r.expandInserts (r.template level) ctx symbols).run read).result.toOption.getD []
  let filled := ((r.expandBlocks (r.fragment level) ctx included).run read).result.toOption.getD []
  (constructs .block (hideLoops included)).map (fun c => r.body c.body) ++
    (constructs .conditional (hideLoops filled)).filterMap fun c =>
      (chosen? ctx.vars (Clause.ofConstruct c)).map fun clause => r.body clause.body

/-- No inclusion, block or branch outside the loops of a text prints a brace. -/
structure PrintsNoBrace (level : ℕ) (ctx : Context) (symbols : List Symbol) : Prop where
  inserts : ∀ y ∈ hideLoops symbols, isInsert y = true →
    (r.expandInsert (r.template level) ctx y).IsBraceless read
  bodies : ∀ s ∈ r.bodies read level ctx symbols, (r.fragment level ctx s).IsBraceless read

instance (level : ℕ) (ctx : Context) (symbols : List Symbol) :
    Decidable (r.PrintsNoBrace read level ctx symbols) :=
  decidable_of_iff ((∀ y ∈ hideLoops symbols, isInsert y = true →
      (r.expandInsert (r.template level) ctx y).IsBraceless read) ∧
    ∀ s ∈ r.bodies read level ctx symbols, (r.fragment level ctx s).IsBraceless read)
    ⟨fun h => ⟨h.1, h.2⟩, fun h => ⟨h.inserts, h.bodies⟩⟩

/-- The same for the text and for all bodies that are expanded for it. -/
def PrintsNoBraceBelow : (level : ℕ) → Context → List Symbol → Prop
  | 0, ctx, symbols => r.PrintsNoBrace read 0 ctx symbols
  | level + 1, ctx, symbols => r.PrintsNoBrace read (level + 1) ctx symbols ∧
    ∀ s ∈ r.bodies read (level + 1) ctx symbols, PrintsNoBraceBelow level ctx (r.read s)

instance decidablePrintsNoBraceBelow : (level : ℕ) → (ctx : Context) → (symbols : List Symbol) →
    Decidable (r.PrintsNoBraceBelow read level ctx symbols)
  | 0, ctx, symbols => inferInstanceAs (Decidable (r.PrintsNoBrace read 0 ctx symbols))
  | level + 1, ctx, symbols =>
    have (s : Text) := decidablePrintsNoBraceBelow level ctx (r.read s)
    inferInstanceAs (Decidable (r.PrintsNoBrace read (level + 1) ctx symbols ∧
      ∀ s ∈ r.bodies read (level + 1) ctx symbols,
        r.PrintsNoBraceBelow read level ctx (r.read s)))

end

variable {r : Renderer} {read : Text → Except Text Text} {ctx : Context}

/-- A loop that succeeds on some level gives its iterations. -/
lemma eq_iterations (hr : r.options.whitespace = .disabled) (hflat : r.ResolvesFlat) {level : ℕ}
    (hlevel : level ≤ r.topLevel) {c : Construct} {s : Text}
    (h : ((r.expandLoop (r.fragment level) ctx c).run read).result = .ok s) :
    s = r.iterations read ctx c := by
  by_cases hopener : ∃ item source written, c.opener = .tag (.openFor item source) written
  · obtain ⟨item, source, written, hopener⟩ := hopener
    simp only [expandLoop, hopener, Rendering.run_bind, body_of_disabled hr] at h
    obtain ⟨items, hitems, hs⟩ := Outcome.exists_of_result_andThen h
    have hsource : Tree.itemsOf source ctx.vars = items := by
      unfold Tree.itemsOf
      cases hread : LoopSource.items source ctx.vars with
      | ok found =>
        rw [hread] at hitems
        exact Except.ok.inj hitems
      | error e =>
        rw [hread] at hitems
        cases hitems
    have htext v (hv : v ∈ items) : Gives read []
        (r.fragment level { ctx with vars := ctx.vars.insert item v } (Symbol.textOf c.body))
        ((r.fragment r.topLevel { ctx with vars := ctx.vars.insert item v }
          (Symbol.textOf c.body)).text read) := by
      obtain ⟨t, ht⟩ := Rendering.exists_of_result_concatMap hs v hv
      have htop := ((levelsRelated_self hflat read hlevel).fragment _ _).result_eq_ok ht
      rw [Rendering.text_eq htop]
      exact .of_result ht
    simp only [iterations, hopener, hsource]
    exact ((Gives.concatMap htext).eq_of_result hs).symm
  · have hloop : r.expandLoop (r.fragment level) ctx c = pure c.text := by
      unfold expandLoop
      split
      · exact absurd ⟨_, _, _, ‹_›⟩ hopener
      · rfl
    have htext : r.iterations read ctx c = c.text := by
      unfold iterations
      split
      · exact absurd ⟨_, _, _, ‹_›⟩ hopener
      · rfl
    rw [hloop] at h
    rw [htext]
    exact (Except.ok.inj h).symm

lemma expandConditional_eq (fragment : Expansion) (c : Construct) :
    r.expandConditional fragment ctx c =
      match chosen? ctx.vars (Clause.ofConstruct c) with
      | some clause => fragment ctx (r.body clause.body)
      | none => .done [] := rfl

/-- A body gives the same, and no brace, as it is written and with the texts of its loops. -/
def Alike (read : Text → Except Text Text) (expand : Text → Rendering Text)
    (it : Construct → Text) (body : List Piece) : Prop :=
  ∀ s, ((expand (Symbol.textOf (body.flatMap Piece.symbols))).run read).result = .ok s →
    s.IsBraceless ∧
      ((expand (Symbol.textOf (body.flatMap (Piece.withText it)))).run read).result = .ok s

/-- What is brought to a text is brought to the text with the texts of its loops. -/
lemma Brings.opened {faults : List TemplateError} {template : Expansion} {got : Symbol → Text}
    {U : List Piece} (h : Brings r read faults template ctx got U) (it : Construct → Text) :
    Brings r read faults template ctx got (U.flatMap (Piece.opened it)) := by
  have hmem {y : Symbol} (hy : .single y ∈ U.flatMap (Piece.opened it))
      (hinsert : isInsert y = true) : .single y ∈ U := by
    obtain ⟨u, hu, hy⟩ := List.mem_flatMap.mp hy
    obtain ⟨z, hz, heq⟩ := List.mem_map.mp hy
    cases heq
    cases u with
    | single y =>
      obtain rfl := List.mem_singleton.mp hz
      exact hu
    | construct c =>
      obtain ⟨a, -, rfl⟩ := List.mem_map.mp hz
      cases hinsert
  exact ⟨fun y hy hinsert => h.gives y (hmem hy hinsert) hinsert,
    fun y hy hinsert => h.braceless y (hmem hy hinsert) hinsert⟩

end Renderer

namespace Piece
variable {got : Symbol → Text} {U : List Piece}

lemma flatMap_symbols_flatMap_includedPieces :
    (U.flatMap (includedPieces got)).flatMap symbols = U.flatMap (included got) := by
  rw [List.flatMap_assoc]
  simp only [flatMap_symbols_includedPieces]

lemma mem_of_construct_mem_includedPieces {c : Construct}
    (h : .construct c ∈ U.flatMap (includedPieces got)) : .construct c ∈ U := by
  obtain ⟨u, hu, hc⟩ := List.mem_flatMap.mp h
  cases u with
  | construct d =>
    cases List.mem_singleton.mp hc
    exact hu
  | single y =>
    obtain ⟨z, -, heq⟩ := List.mem_map.mp hc
    cases heq

/-- Inclusions and the texts of loops are put in their places in either order. -/
lemma flatMap_included_opened (it : Construct → Text) :
    (U.flatMap (opened it)).flatMap (included got) =
      (U.flatMap (includedPieces got)).flatMap (withText it) := by
  rw [List.flatMap_assoc, List.flatMap_assoc]
  congr 1
  funext u
  cases u with
  | single y =>
    rw [includedPieces, flatMap_withText_single]
    exact List.append_nil _
  | construct c =>
    rw [opened, includedPieces, List.flatMap_singleton, List.flatMap_map]
    exact Symbol.flatMap_included_map_char (it c)

end Piece

namespace Unrollable
variable {r : Renderer} {read : Text → Except Text Text} {ctx : Context}
variable {it : Construct → Text} {U : List Piece} (h : Unrollable it U)
include h
open Renderer

/-- The inclusions outside the loops do the same to both texts. -/
lemma exists_expandInserts {template : Expansion} {l : List Symbol}
    (hbraceless : ∀ y ∈ hideLoops (U.flatMap Piece.symbols), isInsert y = true →
      (r.expandInsert template ctx y).IsBraceless read)
    (hl : ((r.expandInserts template ctx (U.flatMap Piece.symbols)).run read).result = .ok l) :
    ∃ V, Unrollable it V ∧ l = V.flatMap Piece.symbols ∧
      ((r.expandInserts template ctx (U.flatMap (Piece.withText it))).run read).result =
        .ok (V.flatMap (Piece.withText it)) := by
  have hbrings := brings_of_result h.wellMatched h.steady (fun y s hy hinsert hs => by
    refine hbraceless y ?_ hinsert s (by rw [hs]; rfl)
    rw [h.wellMatched.hideLoops_eq]
    exact List.mem_flatMap.mpr ⟨.single y, hy, List.mem_singleton_self y⟩) hl
  generalize (fun y => (r.expandInsert template ctx y).text read) = got at hbrings
  refine ⟨U.flatMap (Piece.includedPieces got), ⟨h.wellMatched.flatMap_includedPieces got, ?_,
    fun c hc => h.braceless c (Piece.mem_of_construct_mem_includedPieces hc)⟩, ?_, ?_⟩
  · rw [Piece.flatMap_symbols_flatMap_includedPieces]
    exact hbrings.steady h.steady
  · rw [Piece.flatMap_symbols_flatMap_includedPieces]
    exact ((hbrings.gives_expandInserts h.wellMatched h.steady).eq_of_result hl).symm
  · have hopened : Steady ((U.flatMap (Piece.opened it)).flatMap Piece.symbols) := by
      rw [Piece.flatMap_symbols_opened]
      exact h.steady_withText
    have hgives := (hbrings.opened it).gives_expandInserts (h.wellMatched.opened it) hopened
    rw [Piece.flatMap_symbols_opened, Piece.flatMap_included_opened] at hgives
    exact Rendering.gives_nil.mp hgives

section
variable (hr : r.options.whitespace = .disabled) {fragment : Expansion} {l : List Symbol}
include hr

/-- The blocks outside the loops do the same to both texts, if their bodies give the same. -/
lemma exists_expandBlocks
    (hbodies : ∀ opener body closer, .closed opener body closer ∈ Part.parts .block Piece.head U →
      Alike read (fragment ctx) it body)
    (hl : ((r.expandBlocks fragment ctx (U.flatMap Piece.symbols)).run read).result = .ok l) :
    ∃ V, Unrollable it V ∧ l = V.flatMap Piece.symbols ∧
      ((r.expandBlocks fragment ctx (U.flatMap (Piece.withText it))).run read).result =
        .ok (V.flatMap (Piece.withText it)) := by
  refine h.exists_expandConstructs (by decide) (fun opener body closer t hpart ht => ?_) hl
  rw [body_of_disabled hr, Part.construct, Piece.textOf_flatMap_withText_text] at ht
  rw [body_of_disabled hr]
  exact hbodies opener body closer hpart t ht

/-- The conditionals outside the loops do the same to both texts, if their chosen branches give the
same. -/
lemma exists_expandConditionals
    (hbodies : ∀ opener body closer (branch : Branch),
      .closed opener body closer ∈ Part.parts .conditional Piece.head U →
      branch.body.Sublist body →
      chosen? ctx.vars (Clause.ofConstruct (Part.construct Construct.text opener body closer)) =
        some (branch.clause Construct.text) → Alike read (fragment ctx) it branch.body)
    (hl : ((r.expandConditionals fragment ctx (U.flatMap Piece.symbols)).run read).result =
      .ok l) :
    ∃ V, Unrollable it V ∧ l = V.flatMap Piece.symbols ∧
      ((r.expandConditionals fragment ctx (U.flatMap (Piece.withText it))).run read).result =
        .ok (V.flatMap (Piece.withText it)) := by
  refine h.exists_expandConstructs (by decide) (fun opener body closer t hpart ht => ?_) hl
  obtain ⟨choice, hsub, hchosen⟩ := exists_chosen? ctx.vars opener closer body
  rw [expandConditional_eq, hchosen] at ht
  rw [expandConditional_eq, hchosen]
  cases choice with
  | none =>
    obtain rfl := Except.ok.inj ht
    exact ⟨⟨List.not_mem_nil, List.not_mem_nil⟩, rfl⟩
  | some branch =>
    simp only [Option.map_some, body_of_disabled hr, Branch.clause,
      Piece.textOf_flatMap_withText_text] at ht ⊢
    exact hbodies opener body closer branch hpart (hsub branch rfl) (hchosen _) t ht

end

/-- Loops that give their texts leave the text with the texts of its loops. -/
lemma expandLoops_of_result {fragment : Expansion} {l : List Symbol}
    (hit : ∀ c s, .construct c ∈ U →
      ((r.expandLoop fragment ctx c).run read).result = .ok s → s = it c)
    (hl : ((r.expandLoops fragment ctx (U.flatMap Piece.symbols)).run read).result = .ok l) :
    l = U.flatMap (Piece.withText it) := by
  rw [expandLoops, h.steady.expandConstructs_eq rfl, h.wellMatched.split_eq,
    Rendering.run_bind] at hl
  obtain ⟨s, hs, hl⟩ := Outcome.exists_of_result_andThen hl
  have htext : Gives read [] (Rendering.concatMap (expandPiece (r.expandLoop fragment ctx)) U)
      (U.flatMap fun u => Symbol.textOf (u.withText it)) := .concatMap fun u hu => by
    obtain ⟨t, ht⟩ := Rendering.exists_of_result_concatMap hs u hu
    cases u with
    | single y =>
      rw [Piece.withText, Symbol.textOf_cons, Symbol.textOf_nil, List.append_nil]
      exact .done _
    | construct c =>
      rw [Piece.withText, Symbol.textOf_map_char, ← hit c t hu ht]
      exact .of_result ht
  obtain rfl := htext.eq_of_result hs
  rw [← Symbol.textOf_flatMap, h.steady_withText.symbols_eq] at hl
  exact (Except.ok.inj hl).symm

/-- No loop is left. -/
lemma expandLoops_withText (fragment : Expansion) :
    r.expandLoops fragment ctx (U.flatMap (Piece.withText it)) =
      .done (U.flatMap (Piece.withText it)) := by
  have htext : Rendering.concatMap (expandPiece (r.expandLoop fragment ctx))
      ((U.flatMap (Piece.withText it)).map .single) =
        .done (Symbol.textOf (U.flatMap (Piece.withText it))) := by
    rw [Rendering.concatMap_map, Symbol.textOf_eq_flatMap]
    exact Rendering.concatMap_pure Symbol.text _
  rw [expandLoops, h.steady_withText.expandConstructs_eq rfl, h.wellMatched.split_withText, htext]
  exact congrArg Rendering.done h.steady_withText.symbols_eq

end Unrollable

namespace Renderer
variable {r : Renderer} {read : Text → Except Text Text} {ctx : Context}

/-- The closed parts of the visible symbols of a text are constructs of it. -/
lemma construct_mem_hideLoops {p : Pair} (hp : p ≠ .loop) {U : List Piece}
    (hU : WellMatched .loop U) {opener closer : Piece} {body : List Piece}
    (hpart : .closed opener body closer ∈ Part.parts p Piece.head U) :
    Part.construct Construct.text opener body closer ∈
      constructs p (hideLoops (U.flatMap Piece.symbols)) := by
  rw [mem_constructs, hU.hideLoops_eq, ← Piece.withText_text, hU.split_withText_of_ne hp]
  exact List.mem_flatMap.mpr ⟨_, hpart, List.mem_singleton_self _⟩

section
variable (hr : r.options.whitespace = .disabled) {level : ℕ} {symbols : List Symbol}
variable {V W : List Piece} {opener closer : Piece} {body : List Piece}
  (hincluded : ((r.expandInserts (r.template level) ctx symbols).run read).result =
    .ok (V.flatMap Piece.symbols))
include hr hincluded

lemma mem_bodies_of_block (hV : WellMatched .loop V)
    (hpart : .closed opener body closer ∈ Part.parts .block Piece.head V) :
    Symbol.textOf (body.flatMap Piece.symbols) ∈ r.bodies read level ctx symbols := by
  rw [bodies, hincluded]
  refine List.mem_append_left _ (List.mem_map.mpr
    ⟨_, construct_mem_hideLoops (by decide) hV hpart, ?_⟩)
  rw [body_of_disabled hr, Part.construct, Piece.textOf_flatMap_withText_text]

lemma mem_bodies_of_branch (hW : WellMatched .loop W)
    (hfilled : ((r.expandBlocks (r.fragment level) ctx (V.flatMap Piece.symbols)).run read).result =
      .ok (W.flatMap Piece.symbols))
    (hpart : .closed opener body closer ∈ Part.parts .conditional Piece.head W) {branch : Branch}
    (hbranch : chosen? ctx.vars
      (Clause.ofConstruct (Part.construct Construct.text opener body closer)) =
        some (branch.clause Construct.text)) :
    Symbol.textOf (branch.body.flatMap Piece.symbols) ∈ r.bodies read level ctx symbols := by
  rw [bodies, hincluded]
  simp only [Except.toOption, Option.getD_some, hfilled]
  refine List.mem_append_right _ (List.mem_filterMap.mpr
    ⟨_, construct_mem_hideLoops (by decide) hW hpart, ?_⟩)
  rw [hbranch, Option.map_some, body_of_disabled hr, Branch.clause,
    Piece.textOf_flatMap_withText_text]

end

/-- On one level, a text and the text with the texts of its loops give the same, if the bodies that
are expanded for them do. -/
lemma result_expandBody_withText (hr : r.options.whitespace = .disabled) {it : Construct → Text}
    {level : ℕ} {U : List Piece} {content : Text} (h : Unrollable it U)
    (hprints : r.PrintsNoBrace read level ctx (U.flatMap Piece.symbols))
    (hit : ∀ c s, ((r.expandLoop (r.fragment level) ctx c).run read).result = .ok s → s = it c)
    (hbodies : ∀ V s, Unrollable it V →
      Symbol.textOf (V.flatMap Piece.symbols) ∈ r.bodies read level ctx (U.flatMap Piece.symbols) →
      ((r.fragment level ctx (Symbol.textOf (V.flatMap Piece.symbols))).run read).result = .ok s →
      ((r.fragment level ctx (Symbol.textOf (V.flatMap (Piece.withText it)))).run read).result =
        .ok s)
    (hcontent : ((r.expandBody (r.template level) (r.fragment level) ctx
      (U.flatMap Piece.symbols)).run read).result = .ok content) :
    ((r.expandBody (r.template level) (r.fragment level) ctx
      (U.flatMap (Piece.withText it))).run read).result = .ok content := by
  have halike V (hV : Unrollable it V)
      (hmem : Symbol.textOf (V.flatMap Piece.symbols) ∈
        r.bodies read level ctx (U.flatMap Piece.symbols)) :
      Alike read (r.fragment level ctx) it V :=
    fun s hs => ⟨hprints.bodies _ hmem s (by rw [hs]; rfl), hbodies V s hV hmem hs⟩
  rw [expandBody_eq, h.steady.dropTags_eq, Rendering.run_bind] at hcontent
  obtain ⟨included, hincluded, hcontent⟩ := Outcome.exists_of_result_andThen hcontent
  rw [Rendering.run_bind] at hcontent
  obtain ⟨filled, hfilled, hcontent⟩ := Outcome.exists_of_result_andThen hcontent
  rw [finish, Rendering.run_bind] at hcontent
  obtain ⟨branched, hbranched, hcontent⟩ := Outcome.exists_of_result_andThen hcontent
  rw [Rendering.run_bind] at hcontent
  obtain ⟨looped, hlooped, hcontent⟩ := Outcome.exists_of_result_andThen hcontent
  -- each pass leaves pieces, and the same pieces with the texts of their loops
  obtain ⟨V, hV, rfl, hincluded'⟩ := h.exists_expandInserts hprints.inserts hincluded
  obtain ⟨W, hW, rfl, hfilled'⟩ := hV.exists_expandBlocks hr (fun opener body closer hpart =>
    halike body (hV.sublist (Part.sublist_of_mem_parts hpart))
      (mem_bodies_of_block hr hincluded hV.wellMatched hpart)) hfilled
  obtain ⟨X, hX, rfl, hbranched'⟩ := hW.exists_expandConditionals hr
    (fun opener body closer branch hpart hsub hchosen =>
      halike branch.body (hW.sublist (hsub.trans (Part.sublist_of_mem_parts hpart)))
        (mem_bodies_of_branch hr hincluded hW.wellMatched hfilled hpart hchosen)) hbranched
  obtain rfl := hX.expandLoops_of_result (fun c s _ => hit c s) hlooped
  rw [expandBody_eq, h.steady_withText.dropTags_eq, Rendering.run_bind,
    Outcome.result_andThen hincluded', Rendering.run_bind, Outcome.result_andThen hfilled', finish,
    Rendering.run_bind, Outcome.result_andThen hbranched', hX.expandLoops_withText]
  exact hcontent

/-- A text and the text with its iterations in the place of its loops give the same. -/
lemma result_expandBody_iterations (hr : r.options.whitespace = .disabled)
    (hflat : r.ResolvesFlat) {level : ℕ} (hlevel : level ≤ r.topLevel) {U : List Piece}
    {content : Text} (h : Unrollable (r.iterations read ctx) U)
    (hprints : r.PrintsNoBraceBelow read level ctx (U.flatMap Piece.symbols))
    (hcontent : ((r.expandBody (r.template level) (r.fragment level) ctx
      (U.flatMap Piece.symbols)).run read).result = .ok content) :
    ((r.expandBody (r.template level) (r.fragment level) ctx
      (U.flatMap (Piece.withText (r.iterations read ctx)))).run read).result = .ok content := by
  have hit (level : ℕ) (hlevel : level ≤ r.topLevel) c s
      (hs : ((r.expandLoop (r.fragment level) ctx c).run read).result = .ok s) :
      s = r.iterations read ctx c := eq_iterations hr hflat hlevel hs
  -- the bodies that a level expands are texts of the level below
  induction level generalizing U content with
  | zero =>
    exact result_expandBody_withText hr h hprints (hit 0 hlevel)
      (fun V s _ _ hs => by cases hs) hcontent
  | succ level ih =>
    refine result_expandBody_withText hr h hprints.1 (hit _ hlevel) (fun V s hV hmem hs => ?_)
      hcontent
    have hbelow := hprints.2 _ hmem
    rw [hV.steady.read_eq hr] at hbelow
    rw [fragment, hV.steady.read_eq hr] at hs
    rw [fragment, hV.steady_withText.read_eq hr]
    exact ih (by omega) hV hbelow hs

/-- A tidy text whose loops print no brace. -/
structure PlainLoops (r : Renderer) (read : Text → Except Text Text) (ctx : Context) (s : Text) :
    Prop where
  tidy : r.IsTidy Tag.Lasts s
  iterations : ∀ c ∈ constructs .loop (r.read s), (r.iterations read ctx c).IsBraceless

namespace PlainLoops
variable {s : Text} (h : r.PlainLoops read ctx s) (hr : r.options.whitespace = .disabled)
include h hr

lemma unrollable : Unrollable (r.iterations read ctx) (Piece.split .loop (r.read s)) := by
  refine ⟨wellMatched_split .loop _, ?_, fun c hc => h.iterations c (mem_constructs.mpr hc)⟩
  rw [Piece.flatMap_symbols_split]
  exact .of_isTidy hr h.tidy

lemma read_unrolled_eq : r.read (r.unrolled read ctx s) =
    (Piece.split .loop (r.read s)).flatMap (Piece.withText (r.iterations read ctx)) := by
  rw [unrolled, (h.unrollable hr).steady_withText.read_eq hr]

/-- A tidy text has no parent. -/
lemma template_eq (level : ℕ) : r.template (level + 1) ctx s = r.fragment (level + 1) ctx s := by
  rw [template, fragment]
  simp only [(Steady.of_isTidy hr h.tidy).parent?_eq_none]

lemma template_unrolled_eq (level : ℕ) : r.template (level + 1) ctx (r.unrolled read ctx s) =
    r.fragment (level + 1) ctx (r.unrolled read ctx s) := by
  rw [template, fragment, h.read_unrolled_eq hr]
  simp only [(h.unrollable hr).steady_withText.parent?_eq_none]

/-- Every loop of the text, wherever it stands, is its body expanded once for every item with the
loop's variable bound to the item, blocks, inclusions and conditionals included. -/
theorem fragment_unrolled (hflat : r.ResolvesFlat) {level : ℕ} (hlevel : level ≤ r.options.maxDepth)
    (hprints : r.PrintsNoBraceBelow read level ctx (r.read s)) {content : Text}
    (hcontent : ((r.fragment (level + 1) ctx s).run read).result = .ok content) :
    ((r.fragment (level + 1) ctx (r.unrolled read ctx s)).run read).result = .ok content := by
  rw [← Piece.flatMap_symbols_split .loop (r.read s)] at hprints
  rw [fragment, ← Piece.flatMap_symbols_split .loop (r.read s)] at hcontent
  rw [fragment, h.read_unrolled_eq hr]
  exact result_expandBody_iterations hr hflat (by rw [topLevel]; omega) (h.unrollable hr) hprints
    hcontent

end PlainLoops

end Renderer
end Stencil
