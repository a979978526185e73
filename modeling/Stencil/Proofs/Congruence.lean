import Stencil.Proofs.InMemory
import Mathlib

/-! Relations between renderings that sequences keep. If two renderers fetch their templates and
enter them into the set of used files in related ways, and being too deep is related to everything,
then all that the first one renders is related to what the second one renders on a level as high or
higher. -/
namespace Stencil

namespace Rendering

abbrev Relation := (α : Type) → Rendering α → Rendering α → Prop

/-- A relation that holds between results and themselves and that sequences keep. -/
structure Congruence (R : Relation) : Prop where
  done : ∀ {α : Type} (a : α), R α (.done a) (.done a)
  bind : ∀ {α β : Type} {x x' : Rendering α} {f f' : α → Rendering β}, R α x x' →
    (∀ a, R β (f a) (f' a)) → R β (x >>= f) (x' >>= f')

namespace Congruence
variable {R : Relation} (hR : Congruence R) {α : Type}
include hR

lemma concatMapOnto {f f' : α → Rendering Text} (hf : ∀ a, R Text (f a) (f' a)) (seen : Text)
    (as : List α) :
    R Text (Rendering.concatMapOnto f seen as) (Rendering.concatMapOnto f' seen as) := by
  induction as generalizing seen with
  | nil => exact hR.done _
  | cons a as ih => exact hR.bind (hf a) fun text => ih (text.reverseAux seen)

lemma concatMap {f f' : α → Rendering Text} (hf : ∀ a, R Text (f a) (f' a)) (as : List α) :
    R Text (Rendering.concatMap f as) (Rendering.concatMap f' as) :=
  hR.concatMapOnto hf [] as

end Congruence
end Rendering

namespace Renderer
open Rendering (Relation Congruence)

/-- Goes on with a template that is fetched and entered into the set of used files. -/
def consult {α : Type} (r : Renderer) (reference directory : Text)
    (f : Text × Text → Rendering α) : Rendering α := do
  let found ← r.fetch reference directory
  Rendering.use found.1
  f found

/-- The passes behind the blocks. -/
def finish (r : Renderer) (fragment : Expansion) (ctx : Context) (symbols : List Symbol) :
    Rendering Text := do
  let symbols ← r.expandConditionals fragment ctx symbols
  let symbols ← r.expandLoops fragment ctx symbols
  return interpolate ctx.vars (dropTags isSuper symbols)

lemma expandBody_eq (r : Renderer) (template fragment : Expansion) (ctx : Context)
    (symbols : List Symbol) :
    r.expandBody template fragment ctx symbols =
      r.expandInserts template ctx (dropTags isAncestry symbols) >>= fun symbols =>
        r.expandBlocks fragment ctx symbols >>= r.finish fragment ctx := rfl

/-- Renderers that treat white space alike and whose questions are related. -/
structure Related (R : Relation) (r r' : Renderer) : Prop where
  congruence : Congruence R
  whitespace : r'.options.whitespace = r.options.whitespace
  consult : ∀ {α : Type} {f f' : Text × Text → Rendering α} (reference directory : Text),
    (∀ found, R α (f found) (f' found)) →
      R α (r.consult reference directory f) (r'.consult reference directory f')
  /-- A loop over something that has no items may fail. -/
  items : ∀ source vars, R _ (.ofExcept (LoopSource.items source vars))
    (.ofExcept (LoopSource.items source vars))
  tooDeep : ∀ {α : Type} (x : Rendering α), R α r.tooDeep x

def RelatedExpansions (R : Relation) (E E' : Expansion) : Prop := ∀ ctx s, R _ (E ctx s) (E' ctx s)

def RelatedFillings (R : Relation) (fill fill' : Filling) : Prop :=
  ∀ table ctx s, R _ (fill table ctx s) (fill' table ctx s)

namespace Related
variable {R : Relation} {r r' : Renderer} (h : Related R r r')
include h

lemma read_eq (s : Text) : r'.read s = r.read s := by
  rw [read, read, preprocess, preprocess, h.whitespace]

lemma body_eq (symbols : List Symbol) : r'.body symbols = r.body symbols := by
  rw [body, body, h.whitespace]

lemma extract_eq (directory : Text) (symbols : List Symbol) :
    r'.extract directory symbols = r.extract directory symbols := by
  rw [extract, extract, h.whitespace]

lemma collectMixins (directory : Text) (references : List Text) (table : BlockTable) :
    R _ (r.collectMixins directory references table)
      (r'.collectMixins directory references table) := by
  induction references generalizing table with
  | nil => exact h.congruence.done table
  | cons reference rest ih =>
    refine h.consult reference directory fun found => ?_
    simp only [h.extract_eq, h.read_eq]
    exact ih _

section
variable {template template' fragment fragment' : Expansion}

lemma expandConstructs {p : Pair} {E E' : Construct → Rendering Text}
    (hE : ∀ c, R _ (E c) (E' c)) (symbols visible : List Symbol) :
    R _ (Renderer.expandConstructs p E symbols visible)
      (Renderer.expandConstructs p E' symbols visible) := by
  unfold Renderer.expandConstructs
  split
  · refine h.congruence.bind (h.congruence.concatMap (fun piece => ?_) _) fun s =>
      h.congruence.done _
    cases piece with
    | single y => exact h.congruence.done _
    | construct c => exact hE c
  · exact h.congruence.done symbols

lemma expandInsert (hT : RelatedExpansions R template template') (ctx : Context) (y : Symbol) :
    R _ (r.expandInsert template ctx y) (r'.expandInsert template' ctx y) := by
  unfold Renderer.expandInsert
  split
  · exact h.consult _ _ fun found => hT _ _
  · exact h.congruence.done _

lemma expandInserts (hT : RelatedExpansions R template template') (ctx : Context)
    (symbols : List Symbol) :
    R _ (r.expandInserts template ctx symbols) (r'.expandInserts template' ctx symbols) := by
  unfold Renderer.expandInserts
  split
  · exact h.congruence.bind (h.congruence.concatMap (h.expandInsert hT ctx) _) fun s =>
      h.congruence.done _
  · exact h.congruence.done symbols

variable (hF : RelatedExpansions R fragment fragment')
include hF

lemma expandConditional (ctx : Context) (c : Construct) :
    R _ (r.expandConditional fragment ctx c) (r'.expandConditional fragment' ctx c) := by
  unfold Renderer.expandConditional
  split
  · rw [h.body_eq]
    exact hF _ _
  · exact h.congruence.done _

lemma expandLoop (ctx : Context) (c : Construct) :
    R _ (r.expandLoop fragment ctx c) (r'.expandLoop fragment' ctx c) := by
  unfold Renderer.expandLoop
  split
  · rw [h.body_eq]
    exact h.congruence.bind (h.items _ _) fun items => h.congruence.concatMap (fun v => hF _ _) items
  · exact h.congruence.done _

lemma finish (ctx : Context) (symbols : List Symbol) :
    R _ (r.finish fragment ctx symbols) (r'.finish fragment' ctx symbols) := by
  refine h.congruence.bind (h.expandConstructs (h.expandConditional hF ctx) symbols _)
    fun symbols => ?_
  refine h.congruence.bind (h.expandConstructs (h.expandLoop hF ctx) symbols _) fun symbols => ?_
  exact h.congruence.done _

lemma expandBody (hT : RelatedExpansions R template template') (ctx : Context)
    (symbols : List Symbol) :
    R _ (r.expandBody template fragment ctx symbols)
      (r'.expandBody template' fragment' ctx symbols) := by
  rw [expandBody_eq, expandBody_eq]
  refine h.congruence.bind (h.expandInserts hT ctx _) fun symbols => ?_
  refine h.congruence.bind (h.expandConstructs (fun c => ?_) symbols _) fun symbols => ?_
  · rw [h.body_eq]
    exact hF _ _
  · exact h.finish hF ctx symbols

variable {fill fill' : Filling} (hfill : RelatedFillings R fill fill')
include hfill

lemma renderBlock (table : BlockTable) (vars : Fields) (block : Block) :
    R _ (Renderer.renderBlock fill fragment table vars block)
      (Renderer.renderBlock fill' fragment' table vars block) :=
  h.congruence.bind (hfill _ _ _) fun _ => h.congruence.bind (hF _ _) fun _ => h.congruence.done _

lemma fillPieces (table : BlockTable) (ctx : Context) (pieces : List Piece) :
    R _ (r.fillPieces fill fragment table ctx pieces)
      (r'.fillPieces fill' fragment' table ctx pieces) := by
  induction pieces with
  | nil => exact h.congruence.done _
  | cons piece rest ih =>
    cases piece with
    | single y => exact h.congruence.bind ih fun _ => h.congruence.done _
    | construct c =>
      rw [Renderer.fillPieces, Renderer.fillPieces, h.body_eq]
      exact h.congruence.bind (h.renderBlock hF hfill table ctx.vars _) fun _ =>
        h.congruence.bind ih fun _ => h.congruence.done _

lemma additions (skeleton table : BlockTable) (vars : Fields) (declared : List Text)
    (entries : Entries Block) :
    R _ (Renderer.additions fill fragment skeleton table vars declared entries)
      (Renderer.additions fill' fragment' skeleton table vars declared entries) := by
  induction entries generalizing declared with
  | nil => exact h.congruence.done _
  | cons entry rest ih =>
    unfold Renderer.additions
    split
    · exact ih declared
    · exact h.congruence.bind (h.renderBlock hF hfill table vars entry.2) fun _ =>
        h.congruence.bind (ih _) fun _ => h.congruence.done _

lemma splice (hT : RelatedExpansions R template template') (skeleton table : BlockTable)
    (ctx : Context) (symbols : List Symbol) :
    R _ (r.splice template fragment fill skeleton table ctx symbols)
      (r'.splice template' fragment' fill' skeleton table ctx symbols) := by
  refine h.congruence.bind (h.fillPieces hF hfill table ctx _) fun filled => ?_
  simp only [h.read_eq]
  refine h.congruence.bind (h.expandBody hF hT ctx _) fun content => ?_
  exact h.congruence.bind (h.additions hF hfill skeleton table ctx.vars _ table) fun added =>
    h.congruence.done _

end

end Related

/-- Everything that is rendered on a level is related to the same on another level. -/
structure LevelsRelated (R : Relation) (r r' : Renderer) (level level' : ℕ) : Prop where
  template : RelatedExpansions R (r.template level) (r'.template level')
  fragment : RelatedExpansions R (r.fragment level) (r'.fragment level')
  inherit : ∀ vars heir, R _ (r.inherit level vars heir) (r'.inherit level' vars heir)
  fill : RelatedFillings R (r.fill level) (r'.fill level')

namespace Related
variable {R : Relation} {r r' : Renderer} (h : Related R r r')
include h

lemma levelsRelated_succ {level level' : ℕ} (hlevel : LevelsRelated R r r' level level') :
    LevelsRelated R r r' (level + 1) (level' + 1) where
  template ctx s := by
    rw [Renderer.template, Renderer.template]
    simp only [h.read_eq, h.extract_eq]
    split
    · exact hlevel.inherit _ _
    · exact h.expandBody hlevel.fragment hlevel.template ctx _
  fragment ctx s := by
    rw [Renderer.fragment, Renderer.fragment, h.read_eq]
    exact h.expandBody hlevel.fragment hlevel.template ctx _
  inherit vars heir := by
    rw [Renderer.inherit, Renderer.inherit]
    refine h.consult heir.parent heir.directory fun found => ?_
    refine h.congruence.bind (h.collectMixins heir.directory _ []) fun mixed => ?_
    simp only [h.read_eq, h.extract_eq]
    split
    · exact hlevel.inherit _ _
    · exact h.splice hlevel.fragment hlevel.fill hlevel.template _ _ _ _
  fill table ctx s := by
    rw [Renderer.fill, Renderer.fill]
    exact h.fillPieces hlevel.fragment hlevel.fill table ctx _

/-- What is rendered on a level is related to what is rendered on a level as high or higher. -/
theorem levelsRelated (level gap : ℕ) : LevelsRelated R r r' level (level + gap) := by
  induction level with
  | zero =>
    exact ⟨fun _ _ => h.tooDeep _, fun _ _ => h.tooDeep _, fun _ _ => h.tooDeep _,
      fun _ _ _ => h.tooDeep _⟩
  | succ level ih =>
    rw [Nat.succ_add]
    exact h.levelsRelated_succ ih

/-- What renderers of one base directory make of a call is related if the second one has as many
levels or more. -/
theorem perform (hbase : r'.baseDirectory = r.baseDirectory)
    (hdepth : r.options.maxDepth ≤ r'.options.maxDepth) (vars : Fields) (call : Call) :
    R _ (r.perform vars call) (r'.perform vars call) := by
  obtain ⟨gap, hgap⟩ := Nat.exists_eq_add_of_le hdepth
  have htop : r'.topLevel = r.topLevel + gap := by
    rw [topLevel, topLevel, hgap]
    omega
  have htemplate := (h.levelsRelated r.topLevel gap).template
  rw [← htop] at htemplate
  cases call with
  | text source directory =>
    rw [Renderer.perform, Renderer.perform, renderText, renderText, hbase]
    exact htemplate _ _
  | file reference =>
    rw [Renderer.perform, Renderer.perform, renderFile, renderFile, hbase]
    exact h.consult _ _ fun found => htemplate _ _

end Related
end Renderer
end Stencil
