import Stencil.Proofs.Loops
import Stencil.Proofs.Table

/-! Inclusions and blocks of one text, cut at its loops. Whether the inclusions are expanded first
and then the blocks, or the blocks are filled in first, the same symbols are left, if loops hold no
blocks and nothing that is put in the place of a tag has a brace. -/
namespace Stencil
open Rendering (Gives cutOff)

lemma Pair.isNeutral_of_isInsert (p : Pair) {y : Symbol} (h : Renderer.isInsert y = true) :
    p.IsNeutral y := by
  unfold Renderer.isInsert at h
  split at h
  · exact ⟨rfl, rfl⟩
  · cases h

namespace Symbol

/-- The symbols in the place of an inclusion, when its text is given. -/
def included (got : Symbol → Text) (y : Symbol) : List Symbol :=
  if Renderer.isInsert y then (got y).map .char else [y]

variable {got : Symbol → Text} {y : Symbol}

lemma included_of_isInsert (h : Renderer.isInsert y = true) :
    y.included got = (got y).map .char := if_pos h

lemma included_of_not (h : ¬Renderer.isInsert y = true) : y.included got = [y] := if_neg h

lemma flatMap_included_map_char (s : Text) :
    (s.map Symbol.char).flatMap (included got) = s.map .char := by
  rw [List.flatMap_map]
  exact List.flatMap_pure_eq_map Symbol.char s

end Symbol

namespace Piece

variable (got : Symbol → Text)

/-- The piece after the inclusions outside loops. -/
def included : Piece → List Symbol
  | .single y => y.included got
  | .construct c => c.symbols

/-- The piece after the inclusions outside loops, with its loop hidden. -/
def shown : Piece → List Symbol
  | .single y => y.included got
  | .construct c => c.text.map .char

/-- The pieces that a piece becomes with the inclusions outside loops. -/
def includedPieces : Piece → List Piece
  | .single y => (y.included got).map .single
  | .construct c => [.construct c]

variable {got}

lemma flatMap_symbols_includedPieces (u : Piece) :
    (u.includedPieces got).flatMap symbols = u.included got := by
  cases u with
  | single y => exact flatMap_symbols_single _
  | construct c => exact List.append_nil _

lemma flatMap_withoutTags_includedPieces (u : Piece) :
    (u.includedPieces got).flatMap withoutTags = u.shown got := by
  cases u with
  | single y => exact flatMap_withoutTags_single _
  | construct c => exact List.append_nil _

lemma textOf_shown (u : Piece) : Symbol.textOf (u.shown got) = Symbol.textOf (u.included got) := by
  cases u with
  | single y => rfl
  | construct c => exact Symbol.textOf_map_char _

lemma textOf_flatMap_shown (U : List Piece) :
    Symbol.textOf (U.flatMap (shown got)) = Symbol.textOf (U.flatMap (included got)) := by
  rw [Symbol.textOf_flatMap, Symbol.textOf_flatMap]
  congr 1
  funext u
  exact textOf_shown u

end Piece

lemma WellMatched.flatMap_includedPieces {U : List Piece} (hU : WellMatched .loop U)
    (got : Symbol → Text) : WellMatched .loop (U.flatMap (Piece.includedPieces got)) := by
  refine WellMatched.rework (f := fun u => [u]) (by rwa [List.flatMap_singleton']) fun u _ => ?_
  cases u with
  | construct c => exact .inl (.refl _)
  | single y =>
    rw [Piece.includedPieces]
    by_cases hy : Renderer.isInsert y = true
    · rw [Symbol.included_of_isInsert hy]
      exact .inr fun piece hpiece => Piece.isNeutral_of_mem_singles _ hpiece
    · rw [Symbol.included_of_not hy]
      exact .inl (.refl _)

lemma WellMatched.hideLoops_included {U : List Piece} (hU : WellMatched .loop U)
    (got : Symbol → Text) :
    hideLoops (U.flatMap (Piece.included got)) = U.flatMap (Piece.shown got) := by
  have hpieces := (hU.flatMap_includedPieces got).hideLoops_eq
  rw [List.flatMap_assoc, List.flatMap_assoc] at hpieces
  simpa only [Piece.flatMap_symbols_includedPieces, Piece.flatMap_withoutTags_includedPieces]
    using hpieces

namespace Renderer
variable {r : Renderer} {read : Text → Except Text Text} {faults : List TemplateError}

section Inclusions
variable {template : Expansion} {ctx : Context} {got : Symbol → Text} {U : List Piece}

/-- What the inclusions among the pieces of a text bring, unless they end with a fault. -/
structure Brings (r : Renderer) (read : Text → Except Text Text) (faults : List TemplateError)
    (template : Expansion) (ctx : Context) (got : Symbol → Text) (U : List Piece) : Prop where
  gives : ∀ y, .single y ∈ U → isInsert y = true →
    Gives read faults (r.expandInsert template ctx y) (got y)
  braceless : ∀ y, .single y ∈ U → isInsert y = true → (got y).IsBraceless

namespace Brings

lemma subset {part : List Piece} (h : Brings r read faults template ctx got U)
    (hsub : ∀ u ∈ part, u ∈ U) : Brings r read faults template ctx got part :=
  ⟨fun y hy => h.gives y (hsub _ hy), fun y hy => h.braceless y (hsub _ hy)⟩

lemma steady (h : Brings r read faults template ctx got U)
    (hl : Steady (U.flatMap Piece.symbols)) : Steady (U.flatMap (Piece.included got)) := by
  refine .flatMap fun u hu => ?_
  have hsymbols : Steady u.symbols := hl.subset fun y hy => List.mem_flatMap.mpr ⟨u, hu, hy⟩
  cases u with
  | construct c => exact hsymbols
  | single y =>
    rw [Piece.included]
    by_cases hy : isInsert y = true
    · rw [Symbol.included_of_isInsert hy]
      exact .map_char (h.braceless y hu hy)
    · rw [Symbol.included_of_not hy]
      exact hsymbols

/-- The text of a visible symbol after the inclusions. -/
lemma gives_expandInsert (h : Brings r read faults template ctx got U) {y : Symbol}
    (hy : y ∈ U.flatMap Piece.withoutTags) :
    Gives read faults (r.expandInsert template ctx y) (Symbol.textOf (y.included got)) := by
  by_cases hinsert : isInsert y = true
  · rw [Symbol.included_of_isInsert hinsert, Symbol.textOf_map_char]
    obtain ⟨u, hu, hy⟩ := List.mem_flatMap.mp hy
    cases u with
    | single z =>
      obtain rfl := List.mem_singleton.mp hy
      exact h.gives y hu hinsert
    | construct c =>
      obtain ⟨a, -, rfl⟩ := List.mem_map.mp hy
      cases hinsert
  · rw [Symbol.included_of_not hinsert, Symbol.textOf_cons, Symbol.textOf_nil, List.append_nil]
    unfold expandInsert
    split
    · exact absurd rfl hinsert
    · exact .done _

lemma textOf_included (U : List Piece) :
    (U.flatMap Piece.withoutTags).flatMap (fun y => Symbol.textOf (y.included got)) =
      Symbol.textOf (U.flatMap (Piece.included got)) := by
  rw [List.flatMap_assoc, Symbol.textOf_flatMap]
  congr 1
  funext u
  cases u with
  | single y => exact List.append_nil _
  | construct c =>
    rw [Piece.withoutTags, List.flatMap_map]
    exact List.flatMap_singleton' _

/-- Inclusions leave what they bring, and everything else. -/
lemma gives_expandInserts (h : Brings r read faults template ctx got U)
    (hU : WellMatched .loop U) (hl : Steady (U.flatMap Piece.symbols)) :
    Gives read faults (r.expandInserts template ctx (U.flatMap Piece.symbols))
      (U.flatMap (Piece.included got)) := by
  have htext := Gives.concatMap fun y hy => h.gives_expandInsert hy
  rw [textOf_included] at htext
  have hmap := htext.map Scan.symbols
  rw [(h.steady hl).symbols_eq] at hmap
  conv in U.flatMap Piece.symbols => rw [← hl.symbols_eq]
  rw [expandInserts_symbols, hl.symbols_eq, hU.hideLoops_eq]
  exact hmap

/-- What is brought on a level is brought on every lower level that is not cut off. -/
lemma lower (hflat : r.ResolvesFlat) {m n : ℕ} (hmn : m ≤ n)
    (h : Brings r read [] (r.template n) ctx got U) :
    Brings r read [cutOff r.options.maxDepth] (r.template m) ctx got U := by
  refine ⟨fun y hy hinsert => ?_, h.braceless⟩
  have hlevels := (levelsRelated_self hflat read hmn).template
  exact ((related_self hflat read).expandInsert hlevels ctx y).gives
    (Rendering.gives_nil.mp (h.gives y hy hinsert))

end Brings

/-- No inclusion is left outside the loops. -/
lemma expandInserts_included (hU : WellMatched .loop U) (template : Expansion) (ctx : Context) :
    r.expandInserts template ctx (U.flatMap (Piece.included got)) =
      .done (U.flatMap (Piece.included got)) := by
  have hnone : (hideLoops (U.flatMap (Piece.included got))).any isInsert = false := by
    rw [hU.hideLoops_included, List.any_eq_false]
    intro y hy
    obtain ⟨u, -, hy⟩ := List.mem_flatMap.mp hy
    cases u with
    | construct c =>
      obtain ⟨a, -, rfl⟩ := List.mem_map.mp hy
      simp [isInsert]
    | single z =>
      rw [Piece.shown] at hy
      by_cases hz : isInsert z = true
      · rw [Symbol.included_of_isInsert hz] at hy
        obtain ⟨a, -, rfl⟩ := List.mem_map.mp hy
        simp [isInsert]
      · rw [Symbol.included_of_not hz] at hy
        obtain rfl := List.mem_singleton.mp hy
        exact hz
  rw [expandInserts, hnone]
  rfl

/-- Inclusions that succeed bring their texts. -/
lemma brings_of_result {l : List Symbol} (hU : WellMatched .loop U)
    (hl : Steady (U.flatMap Piece.symbols))
    (hbraceless : ∀ y s, .single y ∈ U → isInsert y = true →
      ((r.expandInsert template ctx y).run read).result = .ok s → s.IsBraceless)
    (h : ((r.expandInserts template ctx (U.flatMap Piece.symbols)).run read).result = .ok l) :
    Brings r read [] template ctx (fun y => (r.expandInsert template ctx y).text read) U := by
  rw [← hl.symbols_eq, expandInserts_symbols, hl.symbols_eq, hU.hideLoops_eq,
    Rendering.run_bind] at h
  obtain ⟨s, hs, -⟩ := Rendering.Outcome.exists_of_result_andThen h
  have hresult y (hy : .single y ∈ U) : ∃ t,
      ((r.expandInsert template ctx y).run read).result = .ok t := by
    refine Rendering.exists_of_result_concatMap hs y ?_
    exact List.mem_flatMap.mpr ⟨.single y, hy, List.mem_singleton_self y⟩
  constructor
  · intro y hy _
    obtain ⟨t, ht⟩ := hresult y hy
    rw [Rendering.text_eq ht]
    exact .of_result ht
  · intro y hy hinsert
    obtain ⟨t, ht⟩ := hresult y hy
    rw [Rendering.text_eq ht]
    exact hbraceless y t hy hinsert ht

end Inclusions

/-- No loop holds a tag of a block. -/
def Blockless (U : List Piece) : Prop :=
  ∀ c, .construct c ∈ U → ∀ y ∈ c.symbols, Pair.block.IsNeutral y

/-- The blocks of a text whose pieces are cut at the loops. -/
def blockParts (U : List Piece) : List (Part Piece) := Part.parts .block Piece.head U

/-- The construct of a block. -/
def blockOfParts (opener : Piece) (body : List Piece) (closer : Piece) : Construct :=
  ⟨opener.head, body.flatMap Piece.symbols, closer.head⟩

section
variable (got : Symbol → Text) (put : Text → Text)

/-- The body of a block after the inclusions outside loops. -/
def bodyText (body : List Piece) : Text := Symbol.textOf (body.flatMap (Piece.included got))

/-- The pieces of a part whose block is filled in. -/
def filledPart : Part Piece → List Piece
  | .single u => [u]
  | .closed _ body _ => ((put (bodyText got body)).map Symbol.char).map .single

/-- The pieces of a text whose blocks are filled in. -/
def filled (U : List Piece) : List Piece := (blockParts U).flatMap (filledPart got put)

end

section Blocks
variable {ctx : Context} {got : Symbol → Text} {put : Text → Text} {U : List Piece}

namespace Blockless

lemma subset {part : List Piece} (hU : Blockless U) (hsub : ∀ u ∈ part, u ∈ U) : Blockless part :=
  fun c hc => hU c (hsub _ hc)

lemma isNeutral_head (hU : Blockless U) {c : Construct} (hc : .construct c ∈ U) :
    Pair.block.IsNeutral c.opener := hU c hc c.opener List.mem_cons_self

lemma spreads_symbols (hU : Blockless U) :
    ∀ u ∈ U, Part.Spreads .block Piece.head Piece.symbols u := by
  intro u hu
  cases u with
  | single y => exact .inl rfl
  | construct c => exact .inr ⟨hU.isNeutral_head hu, hU c hu⟩

lemma spreads_shown (hU : Blockless U) :
    ∀ u ∈ U, Part.Spreads .block Piece.head (Piece.shown got) u := by
  intro u hu
  have hchars (s : Text) : ∀ y ∈ s.map Symbol.char, Pair.block.IsNeutral y :=
    fun y hy => Pair.block.isNeutral_of_mem_map_char hy
  cases u with
  | construct c => exact .inr ⟨hU.isNeutral_head hu, hchars _⟩
  | single y =>
    by_cases hy : isInsert y = true
    · refine .inr ⟨Pair.isNeutral_of_isInsert _ hy, ?_⟩
      rw [Piece.shown, Symbol.included_of_isInsert hy]
      exact hchars _
    · exact .inl (Symbol.included_of_not hy)

/-- The blocks of the text as it is written. -/
lemma split_symbols (hU : Blockless U) : Piece.split .block (U.flatMap Piece.symbols) =
    (blockParts U).flatMap (Part.pieces Piece.head Piece.symbols) :=
  Part.split_flatMap hU.spreads_symbols

/-- The blocks that are visible after the inclusions. -/
lemma split_shown (hU : Blockless U) (got : Symbol → Text) :
    Piece.split .block (U.flatMap (Piece.shown got)) =
      (blockParts U).flatMap (Part.pieces Piece.head (Piece.shown got)) :=
  Part.split_flatMap hU.spreads_shown

/-- A block of the text is one of its matched constructs. -/
lemma mem_allConstructs (hU : Blockless U) {opener closer : Piece} {body : List Piece}
    (h : .closed opener body closer ∈ blockParts U) :
    blockOfParts opener body closer ∈ allConstructs .block (U.flatMap Piece.symbols) := by
  apply mem_allConstructs_of_mem_split
  rw [hU.split_symbols]
  exact List.mem_flatMap.mpr ⟨_, h, List.mem_singleton_self _⟩

end Blockless

lemma filled_eq (got : Symbol → Text) (put : Text → Text) (U : List Piece) :
    filled got put U = replaceParts .block (fun
      | .single _ => []
      | .closed _ body _ => put (bodyText got body)) U := rfl

lemma wellMatched_filled (hU : WellMatched .loop U) (got : Symbol → Text) (put : Text → Text) :
    WellMatched .loop (filled got put U) := by
  rw [filled_eq]
  exact wellMatched_replaceParts hU _ _

lemma Brings.in_filled {template : Expansion} (hb : Brings r read faults template ctx got U)
    (put : Text → Text) :
    Brings r read faults template ctx got (filled got put U) := by
  have hmem {y : Symbol} (hy : .single y ∈ filled got put U) (hinsert : isInsert y = true) :
      .single y ∈ U := by
    obtain ⟨part, hpart, hy⟩ := List.mem_flatMap.mp hy
    cases part with
    | single u =>
      obtain rfl := List.mem_singleton.mp hy
      exact Part.mem_of_mem_parts hpart (List.mem_singleton_self _)
    | closed opener body closer =>
      obtain ⟨z, hz, heq⟩ := List.mem_map.mp hy
      obtain ⟨c, -, rfl⟩ := List.mem_map.mp hz
      cases heq
      cases hinsert
  exact ⟨fun y hy hinsert => hb.gives y (hmem hy hinsert) hinsert,
    fun y hy hinsert => hb.braceless y (hmem hy hinsert) hinsert⟩

/-- What the blocks among the pieces of a text bring after its inclusions. -/
structure Puts (read : Text → Except Text Text) (faults : List TemplateError)
    (fragment : Expansion) (ctx : Context) (got : Symbol → Text) (put : Text → Text)
    (U : List Piece) : Prop where
  gives : ∀ opener body closer, .closed opener body closer ∈ blockParts U →
    Gives read faults (fragment ctx (bodyText got body)) (put (bodyText got body))
  braceless : ∀ opener body closer, .closed opener body closer ∈ blockParts U →
    (put (bodyText got body)).IsBraceless

namespace Puts
variable {fragment : Expansion} (h : Puts read faults fragment ctx got put U)
include h

lemma steady_filled (hl : Steady (U.flatMap Piece.symbols)) :
    Steady ((filled got put U).flatMap Piece.symbols) := by
  rw [filled_eq]
  exact steady_replaceParts hl h.braceless

end Puts

/-- The text in the place of a piece. -/
def putText (put : Text → Text) : Piece → Text
  | .single y => y.text
  | .construct c => put (Symbol.textOf c.body)

lemma flatMap_putText (got : Symbol → Text) (put : Text → Text) (U : List Piece) :
    ((blockParts U).flatMap (Part.pieces Piece.head (Piece.shown got))).flatMap (putText put) =
      Symbol.textOf ((filled got put U).flatMap (Piece.included got)) := by
  rw [filled, List.flatMap_assoc, List.flatMap_assoc, Symbol.textOf_flatMap]
  congr 1
  funext part
  cases part with
  | single u =>
    have hsingle : (Part.pieces Piece.head (Piece.shown got) (.single u)).flatMap (putText put) =
        Symbol.textOf (u.shown got) := by
      rw [Part.pieces, List.flatMap_map, Symbol.textOf_eq_flatMap]
      rfl
    rw [hsingle, Piece.textOf_shown, filledPart, List.flatMap_singleton]
  | closed opener body closer =>
    rw [Part.pieces, List.flatMap_singleton, putText, Piece.textOf_flatMap_shown, filledPart,
      List.flatMap_map]
    change _ = Symbol.textOf
      (((put (bodyText got body)).map Symbol.char).flatMap (Symbol.included got))
    rw [Symbol.flatMap_included_map_char, Symbol.textOf_map_char]
    rfl

section
variable {fragment : Expansion} (hr : r.options.whitespace = .disabled)
include hr

lemma expandBlocks_eq (fragment : Expansion) (ctx : Context) {l : List Symbol} (hl : Steady l) :
    r.expandBlocks fragment ctx l = (do
      let s ← Rendering.concatMap (expandPiece fun c => fragment ctx (Symbol.textOf c.body))
        (Piece.split .block (hideLoops l))
      return Scan.symbols s) := by
  rw [expandBlocks, hl.expandConstructs_eq (textOf_hideLoops l)]
  simp only [body_of_disabled hr]

/-- Blocks leave what they put, and everything else. -/
lemma Puts.gives_expandBlocks (h : Puts read faults fragment ctx got put U)
    (hU : WellMatched .loop U) (hb : Blockless U)
    (hM : Steady (U.flatMap (Piece.included got)))
    (hX : Steady ((filled got put U).flatMap (Piece.included got))) :
    Gives read faults (r.expandBlocks fragment ctx (U.flatMap (Piece.included got)))
      ((filled got put U).flatMap (Piece.included got)) := by
  have htext : Gives read faults
      (Rendering.concatMap (expandPiece fun c => fragment ctx (Symbol.textOf c.body))
        ((blockParts U).flatMap (Part.pieces Piece.head (Piece.shown got))))
      (((blockParts U).flatMap (Part.pieces Piece.head (Piece.shown got))).flatMap
        (putText put)) := by
    refine .concatMap fun piece hpiece => ?_
    obtain ⟨part, hpart, hpiece⟩ := List.mem_flatMap.mp hpiece
    cases part with
    | single u =>
      obtain ⟨y, -, rfl⟩ := List.mem_map.mp hpiece
      exact .done _
    | closed opener body closer =>
      obtain rfl := List.mem_singleton.mp hpiece
      have := h.gives _ _ _ hpart
      rwa [bodyText, ← Piece.textOf_flatMap_shown] at this
  rw [flatMap_putText] at htext
  have hmap := htext.map Scan.symbols
  rw [hX.symbols_eq] at hmap
  rw [expandBlocks_eq hr fragment ctx hM, hU.hideLoops_included, hb.split_shown]
  exact hmap

/-- No block is left outside the loops. -/
lemma expandBlocks_filled (hU : WellMatched .loop U) (hb : Blockless U)
    (hX : Steady ((filled got put U).flatMap (Piece.included got))) (fragment : Expansion)
    (ctx : Context) :
    r.expandBlocks fragment ctx ((filled got put U).flatMap (Piece.included got)) =
      .done ((filled got put U).flatMap (Piece.included got)) := by
  have hsingles : Piece.split .block ((filled got put U).flatMap (Piece.shown got)) =
      ((filled got put U).flatMap (Piece.shown got)).map .single := by
    have hsplit := wellMatched_split .block (U.flatMap (Piece.shown got))
    rw [hb.split_shown] at hsplit
    have hfilled : WellMatched .block ((blockParts U).flatMap fun part =>
        ((filledPart got put part).flatMap (Piece.shown got)).map .single) := by
      refine hsplit.rework fun part _ => ?_
      cases part with
      | single u =>
        rw [filledPart, List.flatMap_singleton]
        exact .inl (.refl _)
      | closed opener body closer =>
        refine .inr fun piece hpiece => ?_
        obtain ⟨y, hy, rfl⟩ := List.mem_map.mp hpiece
        rw [filledPart, List.flatMap_map] at hy
        change y ∈ ((put (bodyText got body)).map Symbol.char).flatMap (Symbol.included got) at hy
        rw [Symbol.flatMap_included_map_char] at hy
        exact ⟨y, rfl, Pair.isNeutral_of_mem_map_char _ hy⟩
    have heq := hfilled.split_eq
    rw [← List.map_flatMap, flatMap_symbols_single, ← List.flatMap_assoc] at heq
    exact heq
  have htext : Rendering.concatMap (expandPiece fun c => fragment ctx (Symbol.textOf c.body))
      (((filled got put U).flatMap (Piece.shown got)).map .single) =
        .done (Symbol.textOf ((filled got put U).flatMap (Piece.included got))) := by
    rw [Rendering.concatMap_map, ← Piece.textOf_flatMap_shown, Symbol.textOf_eq_flatMap]
    exact Rendering.concatMap_pure Symbol.text _
  rw [expandBlocks_eq hr fragment ctx hX, (wellMatched_filled hU got put).hideLoops_included,
    hsingles, htext]
  exact congrArg Rendering.done hX.symbols_eq

/-- Blocks that succeed bring their texts. -/
lemma puts_of_result {l : List Symbol} (hU : WellMatched .loop U) (hb : Blockless U)
    (hM : Steady (U.flatMap (Piece.included got)))
    (hbraceless : ∀ opener body closer s, .closed opener body closer ∈ blockParts U →
      ((fragment ctx (bodyText got body)).run read).result = .ok s → s.IsBraceless)
    (h : ((r.expandBlocks fragment ctx (U.flatMap (Piece.included got))).run read).result =
      .ok l) :
    Puts read [] fragment ctx got (fun s => (fragment ctx s).text read) U := by
  rw [expandBlocks_eq hr fragment ctx hM, hU.hideLoops_included, hb.split_shown,
    Rendering.run_bind] at h
  obtain ⟨s, hs, -⟩ := Rendering.Outcome.exists_of_result_andThen h
  have hresult opener body closer (hpart : .closed opener body closer ∈ blockParts U) :
      ∃ t, ((fragment ctx (bodyText got body)).run read).result = .ok t := by
    have hmem : Piece.construct ⟨opener.head, body.flatMap (Piece.shown got), closer.head⟩ ∈
        (blockParts U).flatMap (Part.pieces Piece.head (Piece.shown got)) :=
      List.mem_flatMap.mpr ⟨_, hpart, List.mem_singleton_self _⟩
    have := Rendering.exists_of_result_concatMap hs _ hmem
    rwa [expandPiece, Piece.textOf_flatMap_shown] at this
  constructor
  · intro opener body closer hpart
    obtain ⟨t, ht⟩ := hresult _ _ _ hpart
    rw [Rendering.text_eq ht]
    exact .of_result ht
  · intro opener body closer hpart
    obtain ⟨t, ht⟩ := hresult _ _ _ hpart
    rw [Rendering.text_eq ht]
    exact hbraceless _ _ _ t hpart ht

end

/-- Filling in gives the text whose blocks are filled in, if every block gives what is put. -/
lemma exists_gives_fillPieces {faults : List TemplateError} {put : Text → Text}
    {filling : Filling} {fragment : Expansion} (table : BlockTable) (parts : List (Part Piece))
    (h : ∀ opener body closer, .closed opener body closer ∈ parts → ∃ names,
      Gives read faults (renderBlock filling fragment table ctx.vars
        ((table.get? (blockName (blockOfParts opener body closer))).getD
          ⟨r.body (body.flatMap Piece.symbols), ctx.directory⟩)) (put (bodyText got body), names)) :
    ∃ names, Gives read faults (r.fillPieces filling fragment table ctx
      (parts.flatMap (Part.pieces Piece.head Piece.symbols)))
      (Symbol.textOf ((parts.flatMap (filledPart got put)).flatMap Piece.symbols), names) := by
  induction parts with
  | nil => exact ⟨[], .done _⟩
  | cons part parts ih =>
    obtain ⟨names, hrest⟩ := ih fun opener body closer hmem =>
      h opener body closer (List.mem_cons_of_mem part hmem)
    rw [List.flatMap_cons, List.flatMap_cons, List.flatMap_append, Symbol.textOf_append]
    cases part with
    | closed opener body closer =>
      obtain ⟨inner, hblock⟩ := h opener body closer List.mem_cons_self
      rw [filledPart, flatMap_symbols_single, Symbol.textOf_map_char]
      refine ⟨blockName (blockOfParts opener body closer) :: inner ++ names, hblock.bind ?_⟩
      exact hrest.bind (.done _)
    | single u =>
      refine ⟨names, ?_⟩
      rw [filledPart, List.flatMap_singleton, Part.pieces]
      induction u.symbols with
      | nil => exact hrest
      | cons y l ih =>
        rw [Symbol.textOf_cons, List.append_assoc]
        exact ih.bind (.done _)

end Blocks

end Renderer
end Stencil
