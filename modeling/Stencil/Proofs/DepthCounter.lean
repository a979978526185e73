import Mathlib.Data.Nat.Notation
import Mathlib.Tactic.Lemma
import Stencil.Renderer

/-! Renderings that carry their depth. Each expansion gets the depth at which it runs, checks it
against the ceiling before anything else, and hands one more to what it calls; the skeleton of a
line of parents is filled and expanded at the depth of its last parent. Main statement: the
expansion at a depth is the one on the level that is as far below the topmost, so that the depth in
an error is the one that was reached. -/
namespace Stencil.Renderer
variable (r : Renderer)

/-- Goes on within the ceiling. -/
def within {α : Type} (depth : ℕ) (next : depth ≤ r.options.maxDepth → Rendering α) : Rendering α :=
  if h : depth ≤ r.options.maxDepth then next h
  else .failed (.depthExceeded depth r.options.maxDepth)

mutual

/-- A whole template at a depth. -/
def templateAt (depth : ℕ) : Expansion := fun ctx s =>
  r.within depth fun _h =>
    let symbols := r.read s
    match parent? symbols with
    | some parent =>
      inheritAt (depth + 1) ctx.vars
        ⟨symbols, ctx.directory, r.extract ctx.directory symbols, parent⟩
    | none => r.expandBody (templateAt (depth + 1)) (fragmentAt (depth + 1)) ctx symbols
termination_by (r.options.maxDepth + 1 - depth, 0)

/-- The body of a block, a branch or a loop at a depth. -/
def fragmentAt (depth : ℕ) : Expansion := fun ctx s =>
  r.within depth fun _h =>
    r.expandBody (templateAt (depth + 1)) (fragmentAt (depth + 1)) ctx (r.read s)
termination_by (r.options.maxDepth + 1 - depth, 0)

/-- An heir whose parent is at a depth. -/
def inheritAt (depth : ℕ) : Fields → Heir → Rendering Text := fun vars heir =>
  r.within depth fun _h => do
    let (identifier, source) ← r.fetch heir.parent heir.directory
    Rendering.use identifier
    let directory := Location.directory identifier
    let symbols := r.read source
    let blocks := r.extract directory symbols
    let mixed ← r.collectMixins heir.directory (mixins heir.symbols) []
    let merged := BlockTable.mergeOver heir.blocks (BlockTable.mergeOver mixed blocks)
    match parent? symbols with
    | some parent => inheritAt (depth + 1) vars ⟨symbols, directory, merged, parent⟩
    | none =>
      let (filled, declared) ← fillAt depth merged ⟨vars, directory⟩ (r.preprocess source)
      let content ← fragmentAt depth ⟨vars, directory⟩ filled
      let added ← additions (fillAt (depth + 1)) (fragmentAt (depth + 1)) blocks merged vars
        declared merged
      return if added.isEmpty then content else content ++ '\n' :: Text.unlines added
termination_by (r.options.maxDepth + 1 - depth, 1)

/-- The blocks of a text at a depth. -/
def fillAt (depth : ℕ) : Filling := fun table ctx s =>
  r.within depth fun _h =>
    r.fillPieces (fillAt (depth + 1)) (fragmentAt (depth + 1)) table ctx
      (Piece.split .block (Scan.symbols s))
termination_by (r.options.maxDepth + 1 - depth, 0)

end

section
variable {r} {level depth : ℕ}

section
variable (h : depth ≤ r.options.maxDepth)
include h

lemma within_of_le {α : Type} (next : depth ≤ r.options.maxDepth → Rendering α) :
    r.within depth next = next h :=
  dif_pos h

lemma templateAt_of_le (ctx : Context) (s : Text) : r.templateAt depth ctx s =
    match parent? (r.read s) with
    | some parent =>
      r.inheritAt (depth + 1) ctx.vars
        ⟨r.read s, ctx.directory, r.extract ctx.directory (r.read s), parent⟩
    | none =>
      r.expandBody (r.templateAt (depth + 1)) (r.fragmentAt (depth + 1)) ctx (r.read s) := by
  rw [templateAt]
  exact within_of_le h _

lemma fragmentAt_of_le (ctx : Context) (s : Text) : r.fragmentAt depth ctx s =
    r.expandBody (r.templateAt (depth + 1)) (r.fragmentAt (depth + 1)) ctx (r.read s) := by
  rw [fragmentAt, within_of_le h]

lemma fillAt_of_le (table : BlockTable) (ctx : Context) (s : Text) : r.fillAt depth table ctx s =
    r.fillPieces (r.fillAt (depth + 1)) (r.fragmentAt (depth + 1)) table ctx
      (Piece.split .block (Scan.symbols s)) := by
  rw [fillAt, within_of_le h]

end

/-- The counter passes the ceiling where the levels end. -/
lemma within_eq_tooDeep {α : Type} (h : 0 + depth = r.topLevel)
    (next : depth ≤ r.options.maxDepth → Rendering α) : r.within depth next = r.tooDeep := by
  have hdepth : depth = r.options.maxDepth + 1 := (Nat.zero_add depth).symm.trans h
  subst hdepth
  exact dif_neg (Nat.not_succ_le_self _)

/-- Levels are counted down from the topmost as depths are counted up. -/
structure Aligned (r : Renderer) (level depth : ℕ) : Prop where
  template : r.template level = r.templateAt depth
  fragment : r.fragment level = r.fragmentAt depth
  inherit : r.inherit level = r.inheritAt depth
  fill : r.fill level = r.fillAt depth

lemma aligned_zero (h : 0 + depth = r.topLevel) : r.Aligned 0 depth where
  template := by
    funext ctx s
    rw [template, templateAt, within_eq_tooDeep h]
  fragment := by
    funext ctx s
    rw [fragment, fragmentAt, within_eq_tooDeep h]
  inherit := by
    funext vars heir
    rw [inherit, inheritAt, within_eq_tooDeep h]
  fill := by
    funext table ctx s
    rw [fill, fillAt, within_eq_tooDeep h]

lemma Aligned.up (next : r.Aligned level (depth + 1)) (h : depth ≤ r.options.maxDepth) :
    r.Aligned (level + 1) depth where
  template := by
    funext ctx s
    simp only [Renderer.template, next.template, next.fragment, next.inherit]
    exact (templateAt_of_le h ctx s).symm
  fragment := by
    funext ctx s
    rw [Renderer.fragment, fragmentAt_of_le h, next.template, next.fragment]
  inherit := by
    funext vars heir
    -- the skeleton does not take a level of its own
    rw [Renderer.inherit, inheritAt, within_of_le h]
    simp only [splice, next.template, next.fragment, next.inherit, next.fill, fillAt_of_le h,
      fragmentAt_of_le h]
    rfl
  fill := by
    funext table ctx s
    rw [Renderer.fill, fillAt_of_le h, next.fill, next.fragment]

/-- A level and a depth that make up the topmost level are those of the same expansions. -/
theorem aligned (h : level + depth = r.topLevel) : r.Aligned level depth := by
  induction level generalizing depth with
  | zero => exact aligned_zero h
  | succ level ih =>
    have hdepth : depth ≤ r.options.maxDepth := by
      rw [topLevel] at h
      omega
    exact (ih (by rw [← h]; omega)).up hdepth

end

/-- A text is expanded from depth zero on. -/
theorem renderText_eq_templateAt (source : Text) (vars : Fields) (directory : Option Text) :
    r.renderText source vars directory =
      r.templateAt 0 ⟨vars, directory.getD r.baseDirectory⟩ source := by
  rw [renderText, (aligned (Nat.add_zero _)).template]

theorem renderFile_eq_templateAt (reference : Text) (vars : Fields) :
    r.renderFile reference vars = (do
      let (identifier, source) ← r.fetch reference r.baseDirectory
      Rendering.use identifier
      r.templateAt 0 ⟨vars, Location.directory identifier⟩ source) := by
  rw [renderFile, (aligned (Nat.add_zero _)).template]

end Stencil.Renderer
