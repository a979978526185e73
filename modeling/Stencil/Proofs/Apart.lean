import Stencil.Proofs.FailOpen
import Stencil.Proofs.Loops

/-! Texts side by side. Tags of two texts are paired exactly where an opener that finds no closer in
the first one meets a closer that finds no opener in the second. Main statement: where no pass pairs
them, two texts are rendered as each is alone, and what an inclusion prints between them stays as it
is. -/
namespace Stencil

namespace Piece

/-- No opener that is left over in the first list meets a closer that is left over in the second. -/
def Apart (p : Pair) (l m : List Symbol) : Prop :=
  ∀ a ∈ split p l, a.strayOpener p = true → ∀ b ∈ split p m, b.strayCloser p = false

instance (p : Pair) (l m : List Symbol) : Decidable (Apart p l m) :=
  inferInstanceAs (Decidable (∀ a ∈ split p l, a.strayOpener p = true → ∀ b ∈ split p m,
    b.strayCloser p = false))

variable {p : Pair} {l m k : List Symbol}

/-- Lists are cut one by one exactly when they are apart. -/
theorem split_append_iff : split p (l ++ m) = split p l ++ split p m ↔ Apart p l m := by
  constructor
  · intro h a ha hopen b hb
    have hstrays := (wellMatched_split p (l ++ m)).strays
    rw [h] at hstrays
    exact (List.pairwise_append.mp hstrays).2.2 a ha b hb hopen
  · intro h
    have hl := wellMatched_split p l
    have hm := wellMatched_split p m
    have hmatched : WellMatched p (split p l ++ split p m) := by
      refine ⟨fun c hc => ?_, List.pairwise_append.mpr ⟨hl.strays, hm.strays, fun a ha b hb hopen =>
        h a ha hopen b hb⟩⟩
      exact (List.mem_append.mp hc).elim (hl.constructs c) (hm.constructs c)
    have := hmatched.split_eq
    rwa [List.flatMap_append, flatMap_symbols_split, flatMap_symbols_split] at this

namespace Apart

lemma append_left (hk : Apart p l k) (hm : Apart p m k) (h : Apart p l m) :
    Apart p (l ++ m) k := by
  intro a ha
  rw [split_append_iff.mpr h, List.mem_append] at ha
  exact ha.elim (hk a) (hm a)

lemma hideLoops_append (h : Apart .loop l m) :
    hideLoops (l ++ m) = hideLoops l ++ hideLoops m := by
  rw [hideLoops_eq, hideLoops_eq, hideLoops_eq, split_append_iff.mpr h, List.flatMap_append]

end Apart
end Piece

lemma Steady.append {l m : List Symbol} (hl : Steady l) (hm : Steady m) : Steady (l ++ m) :=
  fun y hy => (List.mem_append.mp hy).elim (hl y) (hm y)

lemma Symbol.textWithout_eq_textOf_filter (p : Tag → Bool) (l : List Symbol) :
    textWithout p l = textOf (l.filter fun y => !y.tag?.any p) := by
  induction l with
  | nil => rfl
  | cons y l ih =>
    cases y with
    | char c => exact congrArg (c :: ·) ih
    | tag t written => cases hp : p t <;> simp_all [textWithout, replace, tag?, text]

/-- Dropped tags leave the others as they are. -/
lemma Steady.dropTags_eq_filter {l : List Symbol} (hl : Steady l) (p : Tag → Bool) :
    Renderer.dropTags p l = l.filter fun y => !y.tag?.any p := by
  have := Renderer.dropTags_symbols p (Symbol.textOf l)
  rw [hl.symbols_eq, Symbol.textWithout_eq_textOf_filter] at this
  rw [this, (hl.subset fun y hy => (List.mem_filter.mp hy).1).symbols_eq]

def Tag.isPlaceholder : Tag → Bool
  | .placeholder .. => true
  | _ => false

namespace Renderer
open Piece (Apart)

/-- The pass succeeds and leaves the given steady symbols. -/
def Leaves (read : Text → Except Text Text) (x : Rendering (List Symbol)) (l : List Symbol) :
    Prop :=
  (x.run read).result = .ok l ∧ Steady l

/-- Texts that are joined and read again. -/
def joined {α : Type} (f : α → Rendering Text) (as : List α) : Rendering (List Symbol) := do
  let s ← Rendering.concatMap f as
  return Scan.symbols s

variable {read : Text → Except Text Text}

/-- What is read of two texts is read of both together. -/
lemma Leaves.joined_append {α : Type} {f : α → Rendering Text} {as bs : List α}
    {l m : List Symbol} (hl : Leaves read (joined f as) l) (hm : Leaves read (joined f bs) m) :
    Leaves read (joined f (as ++ bs)) (l ++ m) := by
  have hsteady := hl.2.append hm.2
  refine ⟨?_, hsteady⟩
  obtain ⟨hl, -⟩ := hl
  obtain ⟨hm, -⟩ := hm
  rw [joined, Rendering.run_bind] at hl hm
  obtain ⟨s, hs, hl⟩ := Rendering.Outcome.exists_of_result_andThen hl
  obtain ⟨t, ht, hm⟩ := Rendering.Outcome.exists_of_result_andThen hm
  obtain rfl : Scan.symbols s = l := Except.ok.inj hl
  obtain rfl : Scan.symbols t = m := Except.ok.inj hm
  have hst : ((Rendering.concatMap f (as ++ bs)).run read).result = .ok (s ++ t) := by
    rw [Rendering.run_concatMap_append, Rendering.Outcome.result_andThen hs,
      Rendering.Outcome.result_andThen ht]
  have hsymbols := hsteady.symbols_eq
  rw [Symbol.textOf_append, Scan.textOf_symbols, Scan.textOf_symbols] at hsymbols
  rw [joined, Rendering.run_bind, Rendering.Outcome.result_andThen hst]
  exact congrArg Except.ok hsymbols

variable {r : Renderer} {template fragment : Expansion} {ctx : Context} {l m : List Symbol}

lemma expandInserts_of_steady (hl : Steady l) : r.expandInserts template ctx l =
    joined (r.expandInsert template ctx) (hideLoops l) := by
  have := expandInserts_symbols r template ctx (Symbol.textOf l)
  rwa [hl.symbols_eq] at this

lemma Leaves.expandInserts_append {l' m' : List Symbol} (hl : Steady l) (hm : Steady m)
    (hl' : Leaves read (r.expandInserts template ctx l) l')
    (hm' : Leaves read (r.expandInserts template ctx m) m') (h : Apart .loop l m) :
    Leaves read (r.expandInserts template ctx (l ++ m)) (l' ++ m') := by
  rw [expandInserts_of_steady hl] at hl'
  rw [expandInserts_of_steady hm] at hm'
  rw [expandInserts_of_steady (hl.append hm), h.hideLoops_append]
  exact hl'.joined_append hm'

/-- A pass over constructs, of which `visible` tells the symbols in which it looks for them. -/
lemma Leaves.expandConstructs_append {p : Pair} {expand : Construct → Rendering Text}
    {visible : List Symbol → List Symbol} {l' m' : List Symbol}
    (hvisible : ∀ l, Symbol.textOf (visible l) = Symbol.textOf l) (hl : Steady l) (hm : Steady m)
    (hl' : Leaves read (expandConstructs p expand l (visible l)) l')
    (hm' : Leaves read (expandConstructs p expand m (visible m)) m')
    (happend : visible (l ++ m) = visible l ++ visible m) (h : Apart p (visible l) (visible m)) :
    Leaves read (expandConstructs p expand (l ++ m) (visible (l ++ m))) (l' ++ m') := by
  rw [hl.expandConstructs_eq (hvisible l)] at hl'
  rw [hm.expandConstructs_eq (hvisible m)] at hm'
  rw [(hl.append hm).expandConstructs_eq (hvisible _), happend, Piece.split_append_iff.mpr h]
  exact Leaves.joined_append hl' hm'

section
variable (r : Renderer) (read : Text → Except Text Text) (level : ℕ) (ctx : Context)

/-- What the passes leave of symbols, one pass after the other. -/
structure Stages (l : List Symbol) where
  steady : Steady l
  included : List Symbol
  inserts : Leaves read (r.expandInserts (r.template level) ctx l) included
  filled : List Symbol
  blocks : Leaves read (r.expandBlocks (r.fragment level) ctx included) filled
  branched : List Symbol
  conditionals : Leaves read (r.expandConditionals (r.fragment level) ctx filled) branched
  looped : List Symbol
  loops : Leaves read (r.expandLoops (r.fragment level) ctx branched) looped

end

namespace Stages
variable {level : ℕ}

/-- What is printed in the end. -/
def text (A : r.Stages read level ctx l) : Text :=
  interpolate ctx.vars (dropTags isSuper A.looped)

/-- In no pass a tag of the first text is paired with one of the second: not when loops are hidden
from a pass or expanded, and not among the blocks and conditionals outside them. -/
structure ApartFrom (A : r.Stages read level ctx l) (B : r.Stages read level ctx m) : Prop where
  loops : Apart .loop l m
  includedLoops : Apart .loop A.included B.included
  blocks : Apart .block (hideLoops A.included) (hideLoops B.included)
  filledLoops : Apart .loop A.filled B.filled
  conditionals : Apart .conditional (hideLoops A.filled) (hideLoops B.filled)
  branchedLoops : Apart .loop A.branched B.branched

/-- Texts that are apart go through the passes side by side. -/
def append (A : r.Stages read level ctx l) (B : r.Stages read level ctx m)
    (h : A.ApartFrom B) : r.Stages read level ctx (l ++ m) where
  steady := A.steady.append B.steady
  included := A.included ++ B.included
  inserts := .expandInserts_append A.steady B.steady A.inserts B.inserts h.loops
  filled := A.filled ++ B.filled
  blocks := .expandConstructs_append textOf_hideLoops A.inserts.2 B.inserts.2 A.blocks B.blocks
    h.includedLoops.hideLoops_append h.blocks
  branched := A.branched ++ B.branched
  conditionals := .expandConstructs_append textOf_hideLoops A.blocks.2 B.blocks.2 A.conditionals
    B.conditionals h.filledLoops.hideLoops_append h.conditionals
  looped := A.looped ++ B.looped
  loops := .expandConstructs_append (fun _ => rfl) A.conditionals.2 B.conditionals.2 A.loops B.loops
    rfl h.branchedLoops

lemma text_append (A : r.Stages read level ctx l) (B : r.Stages read level ctx m)
    (h : A.ApartFrom B) : (A.append B h).text = A.text ++ B.text := by
  rw [text, text, text, A.loops.2.dropTags_eq_filter, B.loops.2.dropTags_eq_filter,
    (A.append B h).loops.2.dropTags_eq_filter]
  change Symbol.replace _ ((A.looped ++ B.looped).filter _) = _
  rw [List.filter_append, Symbol.replace_append]
  rfl

/-- What is apart from two texts is apart from both together. -/
lemma ApartFrom.append_left {k : List Symbol} {A : r.Stages read level ctx l}
    {B : r.Stages read level ctx m} {C : r.Stages read level ctx k} (hAC : A.ApartFrom C)
    (hBC : B.ApartFrom C) (hAB : A.ApartFrom B) : (A.append B hAB).ApartFrom C where
  loops := hAC.loops.append_left hBC.loops hAB.loops
  includedLoops := hAC.includedLoops.append_left hBC.includedLoops hAB.includedLoops
  blocks := by
    change Apart .block (hideLoops (A.included ++ B.included)) _
    rw [hAB.includedLoops.hideLoops_append]
    exact hAC.blocks.append_left hBC.blocks hAB.blocks
  filledLoops := hAC.filledLoops.append_left hBC.filledLoops hAB.filledLoops
  conditionals := by
    change Apart .conditional (hideLoops (A.filled ++ B.filled)) _
    rw [hAB.filledLoops.hideLoops_append]
    exact hAC.conditionals.append_left hBC.conditionals hAB.conditionals
  branchedLoops := hAC.branchedLoops.append_left hBC.branchedLoops hAB.branchedLoops

lemma result_template (A : r.Stages read level ctx l) (hr : r.options.whitespace = .disabled) :
    ((r.template (level + 1) ctx (Symbol.textOf l)).run read).result = .ok A.text := by
  rw [template, A.steady.read_eq hr]
  simp only [A.steady.parent?_eq_none]
  rw [expandBody, A.steady.dropTags_eq, Rendering.run_bind,
    Rendering.Outcome.result_andThen A.inserts.1, Rendering.run_bind,
    Rendering.Outcome.result_andThen A.blocks.1, Rendering.run_bind,
    Rendering.Outcome.result_andThen A.conditionals.1, Rendering.run_bind,
    Rendering.Outcome.result_andThen A.loops.1]
  rfl

end Stages

/-- A printed text in which no later pass finds anything: only tags of constructs that are not
matched in it, and unknown ones. -/
structure Untouched (w : Text) : Prop where
  steady : Steady (Scan.symbols w)
  idle : Idle (Scan.symbols w)
  unprinted : ∀ y ∈ Scan.symbols w, y.tag?.any Tag.isPlaceholder = false

namespace Untouched
variable {level : ℕ} {w reference written : Text} {locals : Option Text} (h : Untouched w)
  (hsteady : Steady [.tag (.insert reference locals) written])
  (hprints : ((r.expandInsert (r.template level) ctx
    (.tag (.insert reference locals) written)).run read).result = .ok w)
include h

/-- The stages of an inclusion that prints such a text. -/
def stages : r.Stages read level ctx [.tag (.insert reference locals) written] where
  steady := hsteady
  included := Scan.symbols w
  inserts := by
    refine ⟨?_, h.steady⟩
    have hloops : hideLoops [.tag (.insert reference locals) written] =
        [.tag (.insert reference locals) written] := (Hides.single rfl).hideLoops_eq
    have hjoined : ((Rendering.concatMap (r.expandInsert (r.template level) ctx)
        [.tag (.insert reference locals) written]).run read).result = .ok w := by
      rw [Rendering.run_concatMap_cons, Rendering.Outcome.result_andThen hprints]
      simp [Rendering.Outcome.andThen, Rendering.Outcome.behind]
    rw [expandInserts_of_steady hsteady, hloops, joined, Rendering.run_bind,
      Rendering.Outcome.result_andThen hjoined]
    rfl
  filled := Scan.symbols w
  blocks := by
    refine ⟨?_, h.steady⟩
    rw [expandBlocks, h.idle.hideLoops_eq, expandConstructs_of_idle h.idle]
    rfl
  branched := Scan.symbols w
  conditionals := by
    refine ⟨?_, h.steady⟩
    rw [expandConditionals, h.idle.hideLoops_eq, expandConstructs_of_idle h.idle]
    rfl
  looped := Scan.symbols w
  loops := by
    refine ⟨?_, h.steady⟩
    rw [expandLoops, expandConstructs_of_idle h.idle]
    rfl

lemma text_stages : (h.stages hsteady hprints).text = w := by
  have hsuper := h.idle.any_eq_false Tag.isSuper_of_isOrdinary
  have hprinted : (Scan.symbols w).flatMap (printed ctx.vars) =
      (Scan.symbols w).flatMap Symbol.text := by
    refine List.flatMap_congr fun y hy => ?_
    have hunprinted := h.unprinted y hy
    unfold printed
    split
    · cases hunprinted
    · rfl
  change interpolate ctx.vars (dropTags isSuper (Scan.symbols w)) = w
  rw [dropTags, hsuper, if_neg Bool.false_ne_true, interpolate_eq_flatMap, hprinted,
    ← Symbol.textOf_eq_flatMap, Scan.textOf_symbols]

end Untouched

/-- Lists are cut side by side exactly when no opener left over in the first meets a closer left
over in the second. Texts that are apart in every pass are rendered as each is alone, and between
them an inclusion that prints an untouched text prints it as it is. -/
theorem result_renderText_apart (r : Renderer) (hr : r.options.whitespace = .disabled)
    (read : Text → Except Text Text) (vars : Fields) (directory : Option Text) :
    let ctx : Context := ⟨vars, directory.getD r.baseDirectory⟩
    let render (l : List Symbol) :=
      ((r.renderText (Symbol.textOf l) vars directory).run read).result
    (∀ p l m, Piece.split p (l ++ m) = Piece.split p l ++ Piece.split p m ↔ Apart p l m) ∧
    (∀ l m (A : r.Stages read r.options.maxDepth ctx l)
      (B : r.Stages read r.options.maxDepth ctx m), A.ApartFrom B →
        render l = .ok A.text ∧ render m = .ok B.text ∧ render (l ++ m) = .ok (A.text ++ B.text)) ∧
    ∀ l m (A : r.Stages read r.options.maxDepth ctx l) (B : r.Stages read r.options.maxDepth ctx m)
      w reference locals written (h : Untouched w)
      (hsteady : Steady [.tag (.insert reference locals) written])
      (hprints : ((r.expandInsert (r.template r.options.maxDepth) ctx
        (.tag (.insert reference locals) written)).run read).result = .ok w),
      A.ApartFrom (h.stages hsteady hprints) → A.ApartFrom B →
      (h.stages hsteady hprints).ApartFrom B →
        render l = .ok A.text ∧ render m = .ok B.text ∧
          render (l ++ [.tag (.insert reference locals) written] ++ m) =
            .ok (A.text ++ w ++ B.text) := by
  refine ⟨fun p l m => Piece.split_append_iff, fun l m A B h => ?_,
    fun l m A B w reference locals written h hsteady hprints hAW hAB hWB => ?_⟩
  · refine ⟨A.result_template hr, B.result_template hr, ?_⟩
    rw [← A.text_append B h]
    exact (A.append B h).result_template hr
  · refine ⟨A.result_template hr, B.result_template hr, ?_⟩
    have hB := hAB.append_left hWB hAW
    have := ((A.append _ hAW).append B hB).result_template hr
    rwa [Stages.text_append, Stages.text_append, h.text_stages] at this

end Renderer

/-- A file with an `if` that is not closed. -/
def openings : Store := .ofList [("p.yapl".toList, "{% if true %}x".toList)]

namespace Openings

def renderer : Renderer := .inMemory { whitespace := .disabled }
def fields : Fields := [("xs".toList, .array [.null])]
def before : List Symbol := Scan.symbols "{% if xs %}<{% endif %}".toList
def behind : List Symbol := Scan.symbols "{% block b %}>{% endblock %}".toList

lemma steady {s : Text} (hread : renderer.read s = Scan.symbols s)
    (htidy : renderer.IsTidy Tag.Lasts s) : Steady (Scan.symbols s) :=
  hread ▸ .of_isTidy rfl htidy

def stagesBefore : renderer.Stages openings.read 20 ⟨fields, []⟩ before where
  steady := steady (by decide +kernel) (by decide +kernel)
  included := before
  inserts := ⟨by decide +kernel, steady (by decide +kernel) (by decide +kernel)⟩
  filled := before
  blocks := ⟨by decide +kernel, steady (by decide +kernel) (by decide +kernel)⟩
  branched := Scan.symbols "<".toList
  conditionals := ⟨by decide +kernel, steady (by decide +kernel) (by decide +kernel)⟩
  looped := Scan.symbols "<".toList
  loops := ⟨by decide +kernel, steady (by decide +kernel) (by decide +kernel)⟩

def stagesBehind : renderer.Stages openings.read 20 ⟨fields, []⟩ behind where
  steady := steady (by decide +kernel) (by decide +kernel)
  included := behind
  inserts := ⟨by decide +kernel, steady (by decide +kernel) (by decide +kernel)⟩
  filled := Scan.symbols ">".toList
  blocks := ⟨by decide +kernel, steady (by decide +kernel) (by decide +kernel)⟩
  branched := Scan.symbols ">".toList
  conditionals := ⟨by decide +kernel, steady (by decide +kernel) (by decide +kernel)⟩
  looped := Scan.symbols ">".toList
  loops := ⟨by decide +kernel, steady (by decide +kernel) (by decide +kernel)⟩

lemma untouched : Renderer.Untouched "{% if true %}x".toList := by
  refine ⟨steady (by decide +kernel) (by decide +kernel), ⟨?_, ?_⟩, by decide +kernel⟩
  · have hall : ∀ y ∈ Scan.symbols "{% if true %}x".toList, ∀ t ∈ y.tag?, t.isOrdinary = true := by
      decide +kernel
    exact fun t written ht => hall _ ht t rfl
  · intro p
    apply Pair.unclosed_of_allConstructs
    cases p <;> decide +kernel

lemma steady_insert :
    Steady [.tag (.insert "p".toList none) (writeTag .control "include \"p\"".toList)] := by
  have hsymbols : Scan.symbols (writeTag .control "include \"p\"".toList) =
      [.tag (.insert "p".toList none) (writeTag .control "include \"p\"".toList)] := by
    decide +kernel
  exact hsymbols ▸ steady (by decide +kernel) (by decide +kernel)

/-- The tags around the inclusion close nothing in it, and its opener takes none of them. -/
theorem result_renderText_openings :
    let insert := .tag (.insert "p".toList none) (writeTag .control "include \"p\"".toList)
    let source := Symbol.textOf (before ++ [insert] ++ behind)
    ((renderer.renderText source fields none).run openings.read).result =
        .ok "<{% if true %}x>".toList := by
  have h := (renderer.result_renderText_apart rfl openings.read fields none).2.2 before behind
    stagesBefore stagesBehind "{% if true %}x".toList "p".toList none _ untouched steady_insert
    (by decide +kernel)
    ⟨by decide +kernel, by decide +kernel, by decide +kernel, by decide +kernel, by decide +kernel,
      by decide +kernel⟩
    ⟨by decide +kernel, by decide +kernel, by decide +kernel, by decide +kernel, by decide +kernel,
      by decide +kernel⟩
    ⟨by decide +kernel, by decide +kernel, by decide +kernel, by decide +kernel, by decide +kernel,
      by decide +kernel⟩
  exact h.2.2.trans (by decide +kernel)

/-- Behind a closer that is left over in the including template, the opener is matched with it. -/
theorem render_openings :
    openings.renderFile "p".toList = .ok ⟨"{% if true %}x".toList, ["p.yapl".toList]⟩ ∧
      openings.render (writeTag .control "include \"p\"".toList ++ "y{% endif %}z".toList) =
        .ok ⟨"xyz".toList, ["p.yapl".toList]⟩ := by
  constructor <;> decide +kernel

end Openings
end Stencil
