import Stencil.Proofs.Condition.Splitting
import Stencil.Proofs.Laced
import Stencil.Proofs.LeadingBlock
import Stencil.Proofs.Transparency
import Stencil.Proofs.Tree.Symbols

/-! Templates of a given depth: constructs of one kind inside one another, each entered once, and
templates that each include the next. A level is used up by every construct and by every inclusion,
and what a level leaves is plain text. Main statement: a rendering succeeds exactly when its depth
is not above the ceiling, and otherwise fails one level below the ceiling. -/
namespace Stencil
open Rendering (Outcome)

/-- Symbols among which there are only characters and openers and closers of one kind. -/
def Bracketed (p : Pair) (l : List Symbol) : Prop :=
  ∀ y ∈ l, (∃ c, y = .char c) ∨ p.opens y = true ∨ p.closes y = true

namespace Bracketed
variable {p : Pair} {l : List Symbol} (h : Bracketed p l)
include h

lemma ordinary (t : Tag) (written : Text) (ht : .tag t written ∈ l) : t.isOrdinary = true := by
  rcases h _ ht with ⟨c, hc⟩ | hopen | hclose
  · cases hc
  · cases t <;> first | rfl | cases hopen
  · cases t <;> first | rfl | cases hclose

lemma opens_eq_false {q : Pair} (hq : q ≠ p) : ∀ y ∈ l, q.opens y = false := by
  intro y hy
  rcases h y hy with ⟨c, rfl⟩ | hopen | hclose
  · rfl
  · cases y with
    | char c => rfl
    | tag t written => cases t <;> simp_all [Pair.opens]
  · cases y with
    | char c => rfl
    | tag t written => cases t <;> simp_all [Pair.opens, Pair.closes]

/-- In a loop that is hidden there are only characters. -/
lemma hideLoops : Bracketed p (hideLoops l) := by
  intro y hy
  rw [hideLoops_eq] at hy
  obtain ⟨piece, hpiece, hy⟩ := List.mem_flatMap.mp hy
  cases piece with
  | construct c =>
    obtain ⟨c, -, rfl⟩ := List.mem_map.mp hy
    exact .inl ⟨c, rfl⟩
  | single z =>
    obtain rfl := List.mem_singleton.mp hy
    refine h y ?_
    rw [← Piece.flatMap_symbols_split .loop l]
    exact List.mem_flatMap.mpr ⟨_, hpiece, List.mem_singleton_self y⟩

lemma hideLoops_eq_self (hp : p ≠ .loop) : Stencil.hideLoops l = l := by
  rw [Stencil.hideLoops, Pair.occursIn_eq_false (h.opens_eq_false (Ne.symm hp)),
    if_neg Bool.false_ne_true]

/-- No branch begins but the first. -/
lemma split_eq (depth : ℕ) (final : Bool) : Clause.split depth final l = (l, []) := by
  induction l generalizing depth with
  | nil => rfl
  | cons y l ih =>
    have hheader : Clause.header? y = none := by
      cases y with
      | char c => rfl
      | tag t written =>
        rcases h _ List.mem_cons_self with ⟨c, hc⟩ | hopen | hclose
        · cases hc
        · cases t <;> first | rfl | cases hopen
        · cases t <;> first | rfl | cases hclose
    have hrest := ih fun z hz => h z (List.mem_cons_of_mem y hz)
    rw [Clause.split, hheader, ite_self]
    simp only [hrest]

end Bracketed

/-- The kind's constructs that are entered once with these variables, and the variables in their
body. -/
inductive Enters : Pair → Fields → Symbol → Fields → Prop
  | conditional {vars condition written} (h : conditionHolds condition vars = true) :
    Enters .conditional vars (.tag (.openIf condition) written) vars
  | block {vars name written} : Enters .block vars (.tag (.openBlock name) written) vars
  | loop {vars item source written v} (h : LoopSource.items source vars = .ok [v]) :
    Enters .loop vars (.tag (.openFor item source) written) (vars.insert item v)

lemma Enters.opens {p : Pair} {vars vars' : Fields} {y : Symbol} (h : Enters p vars y vars') :
    p.opens y = true := by
  cases h <;> rfl

/-- The tags of so many constructs of one kind inside one another, of which each is entered
once. -/
inductive Nest (p : Pair) : Fields → ℕ → List Symbol → Prop
  | nil {vars} : Nest p vars 0 []
  | cons {vars vars' n tags opener closer} (hopen : Enters p vars opener vars')
    (hclose : p.closes closer = true) (h : Nest p vars' n tags) :
    Nest p vars (n + 1) (opener :: (tags ++ [closer]))

section
variable {options : WhitespaceOptions} {p : Pair} {vars : Fields} {n : ℕ} {tags : List Symbol}
  {s : Text}

lemma Nest.bracketed (h : Nest p vars n tags) : Bracketed p tags := by
  induction h with
  | nil => simp [Bracketed]
  | cons hopen hclose _ ih =>
    simp only [Bracketed, List.forall_mem_cons, List.forall_mem_append]
    exact ⟨.inr (.inl hopen.opens), ih, .inr (.inr hclose), by simp⟩

lemma Laced.bracketed (h : Laced options tags s) (hn : Nest p vars n tags) :
    Bracketed p (Scan.symbols s) :=
  h.forall_symbols (fun c => .inl ⟨c, rfl⟩) hn.bracketed

/-- Plain text and tags around a text are read apart from it. -/
lemma Laced.symbols_enclosed {opener closer : Symbol} {a body b : Text}
    (hopener : SealedTag options opener) (hcloser : SealedTag options closer)
    (ha : Laced options [] a) (hbody : Laced options tags body) (hb : Laced options [] b) :
    Scan.symbols (a ++ (opener.text ++ (body ++ (closer.text ++ b)))) =
      a.map .char ++ ((opener :: Scan.symbols body ++ [closer]) ++ b.map .char) := by
  have hreads := ha.reads.append
    (hopener.reads.append (hbody.reads.append (hcloser.reads.append hb.reads)))
  rw [hreads.symbols_eq, ha.isTagless.symbols_eq, hb.isTagless.symbols_eq]
  simp

lemma Laced.balanced (h : Laced options tags s) (hn : Nest p vars n tags) :
    Balanced p (Scan.symbols s) := by
  induction hn generalizing s with
  | nil =>
    rw [h.isTagless.symbols_eq]
    exact .map_char p s
  | cons hopen hclose _ ih =>
    obtain ⟨hopener, hcloser, a, body, b, rfl, ha, hbody, hb⟩ := h.exists_enclosed
    rw [Laced.symbols_enclosed hopener hcloser ha hbody hb]
    have hconstruct :=
      Balanced.construct hopen.opens (ih hbody) (Pair.opens_of_closes hclose) hclose
    exact (Balanced.map_char p a).append (hconstruct.append (.map_char p b))

end

namespace Renderer
variable {r : Renderer} {template fragment : Expansion} {ctx : Context}
  {read : Text → Except Text Text} {p : Pair}

section Tagless
variable {s : Text} (h : s.IsTagless)
include h

lemma expandConditionals_of_isTagless :
    r.expandConditionals fragment ctx (Scan.symbols s) = .done (Scan.symbols s) := by
  rw [expandConditionals, h.idle.hideLoops_eq]
  exact expandConstructs_of_idle h.idle .conditional _

lemma expandLoops_of_isTagless :
    r.expandLoops fragment ctx (Scan.symbols s) = .done (Scan.symbols s) :=
  expandConstructs_of_idle h.idle .loop _

lemma interpolate_of_isTagless (vars : Fields) :
    interpolate vars (dropTags isSuper (Scan.symbols s)) = s := by
  rw [dropTags, h.any_eq_false, if_neg Bool.false_ne_true, interpolate_eq_flatMap,
    h.flatMap_printed]

lemma finish_of_isTagless : r.finish fragment ctx (Scan.symbols s) = .done s := by
  rw [finish, expandConditionals_of_isTagless h, Rendering.done_bind, expandLoops_of_isTagless h,
    Rendering.done_bind, interpolate_of_isTagless h]
  rfl

lemma expandBody_of_isTagless :
    r.expandBody template fragment ctx (Scan.symbols s) = .done s := by
  rw [expandBody_of_idle h.idle, h.flatMap_printed]

end Tagless

section Bracketed
variable {l : List Symbol} (h : Bracketed p l)
include h

lemma expandInserts_of_bracketed :
    r.expandInserts template ctx (dropTags isAncestry l) = .done l := by
  rw [dropTags, any_of_ordinary h.ordinary Tag.isAncestry_of_isOrdinary,
    if_neg Bool.false_ne_true, expandInserts, any_isInsert_of_ordinary h.hideLoops.ordinary,
    if_neg Bool.false_ne_true]

lemma expandConstructs_of_bracketed {q : Pair} (hq : q ≠ p) (expand : Construct → Rendering Text)
    (symbols : List Symbol) : expandConstructs q expand symbols (hideLoops l) = .done symbols := by
  rw [expandConstructs, Pair.occursIn_eq_false (h.hideLoops.opens_eq_false hq),
    if_neg Bool.false_ne_true]

end Bracketed

lemma concatMap_expandPiece_char (expand : Construct → Rendering Text) (s : Text) :
    Rendering.concatMap (expandPiece expand) ((s.map Symbol.char).map .single) = .done s := by
  rw [Rendering.concatMap_map, Rendering.concatMap_map]
  refine (Rendering.concatMap_pure (fun c => [c]) s).trans ?_
  rw [List.flatMap_singleton']

/-- What becomes of a construct of the kind. -/
def expansion (r : Renderer) (fragment : Expansion) (ctx : Context) :
    Pair → Construct → Rendering Text
  | .block => fun c => fragment ctx (r.body c.body)
  | .conditional => r.expandConditional fragment ctx
  | .loop => r.expandLoop fragment ctx

/-- A construct that is entered once is rendered as its body is. -/
lemma run_expansion {vars' : Fields} {opener closer : Symbol} {body : List Symbol}
    (hopen : Enters p ctx.vars opener vars') (hbody : Bracketed p body) :
    (r.expansion fragment ctx p ⟨opener, body, closer⟩).run read =
      (fragment ⟨vars', ctx.directory⟩ (r.body body)).run read := by
  cases hopen with
  | block => rfl
  | @conditional _ condition written hholds =>
    have hchosen : chosen? ctx.vars
        (Clause.ofConstruct ⟨.tag (.openIf condition) written, body, closer⟩) =
          some ⟨.tag (.openIf condition) written, some condition, body⟩ := by
      rw [Clause.ofConstruct, hbody.split_eq]
      exact List.find?_cons_of_pos hholds
    rw [expansion, expandConditional, hchosen]
  | loop hitems =>
    rw [expansion, expandLoop]
    simp only [hitems, Rendering.ofExcept, Rendering.done_bind, Rendering.run_concatMap_cons]
    rcases (fragment _ _).run read with ⟨used, e | s⟩
    · rfl
    · simp [Outcome.andThen, Outcome.behind]

section Enclosed
variable {a b s : Text} {opener closer : Symbol} {inner : List Symbol}
  (hopen : p.opens opener = true) (hclose : p.closes closer = true) (hinner : Balanced p inner)
  (hs : Scan.symbols s = a.map .char ++ ((opener :: inner ++ [closer]) ++ b.map .char))
include hopen hclose hinner hs

/-- The construct between two plain texts is expanded, and the whole is read again. -/
lemma run_expandConstructs_enclosed (expand : Construct → Rendering Text) :
    (expandConstructs p expand (Scan.symbols s) (Scan.symbols s)).run read =
      ((expand ⟨opener, inner, closer⟩).run read).andThen fun t =>
        ⟨[], .ok (Scan.symbols (a ++ (t ++ b)))⟩ := by
  have hcuts := (Cuts.map_char p a).append
    ((Cuts.construct hopen hinner (Pair.opens_of_closes hclose) hclose).append (.map_char p b))
  rw [expandConstructs_symbols p expand (Scan.textOf_symbols s), Rendering.run_bind, hs,
    hcuts.split_eq, Rendering.run_concatMap_append, Rendering.run_concatMap_append,
    concatMap_expandPiece_char, concatMap_expandPiece_char, Rendering.run_concatMap_cons,
    expandPiece]
  rcases (expand ⟨opener, inner, closer⟩).run read with ⟨used, e | t⟩ <;>
    simp [Outcome.andThen, Outcome.behind]

variable (r template fragment ctx read) in
/-- The passes before the one for the construct and those behind it find nothing, so the text is
expanded to what the construct becomes between the two plain texts. -/
lemma run_expandBody_enclosed (h : Bracketed p (Scan.symbols s)) :
    ∃ f : Text → Outcome Text,
      (r.expandBody template fragment ctx (Scan.symbols s)).run read =
        ((r.expansion fragment ctx p ⟨opener, inner, closer⟩).run read).andThen f ∧
      ∀ t, Text.IsTagless (a ++ (t ++ b)) → f t = ⟨[], .ok (a ++ (t ++ b))⟩ := by
  rw [expandBody, expandInserts_of_bracketed h, Rendering.done_bind]
  cases p with
  | block =>
    rw [expandBlocks, h.hideLoops_eq_self (by decide), Rendering.run_bind,
      run_expandConstructs_enclosed hopen hclose hinner hs, Outcome.andThen_assoc]
    refine ⟨_, rfl, fun t ht => ?_⟩
    exact congrArg (Rendering.run read) (finish_of_isTagless ht)
  | conditional =>
    rw [expandBlocks, expandConstructs_of_bracketed h (by decide), Rendering.done_bind,
      expandConditionals, h.hideLoops_eq_self (by decide), Rendering.run_bind,
      run_expandConstructs_enclosed hopen hclose hinner hs, Outcome.andThen_assoc]
    refine ⟨_, rfl, fun t ht => ?_⟩
    rw [Outcome.andThen_ok, expandLoops_of_isTagless ht, Rendering.done_bind,
      interpolate_of_isTagless ht]
    rfl
  | loop =>
    rw [expandBlocks, expandConstructs_of_bracketed h (by decide), Rendering.done_bind,
      expandConditionals, expandConstructs_of_bracketed h (by decide), Rendering.done_bind,
      expandLoops, Rendering.run_bind, run_expandConstructs_enclosed hopen hclose hinner hs,
      Outcome.andThen_assoc]
    refine ⟨_, rfl, fun t ht => ?_⟩
    rw [Outcome.andThen_ok, interpolate_of_isTagless ht]
    rfl

end Enclosed

/-- From a level that is high enough for the depth comes plain text, and from every other level
the failure at the ceiling. -/
def Reaches (r : Renderer) (level depth : ℕ) (o : Outcome Text) : Prop :=
  (depth < level → ∃ content, o.result = .ok content ∧ Laced r.options.whitespace [] content) ∧
  (level ≤ depth →
    o.result = .error (.depthExceeded (r.options.maxDepth + 1) r.options.maxDepth))

namespace Reaches
variable {level depth : ℕ} {o : Outcome Text}

lemma zero (depth : ℕ) : Reaches r 0 depth ((r.tooDeep : Rendering Text).run read) :=
  ⟨fun h => absurd h (Nat.not_lt_zero depth), fun _ => rfl⟩

lemma plain {s : Text} (hs : Laced r.options.whitespace [] s) (level : ℕ) :
    Reaches r (level + 1) 0 ⟨[], .ok s⟩ :=
  ⟨fun _ => ⟨s, rfl, hs⟩, fun h => absurd h (by omega)⟩

/-- What was used before is of no concern. -/
lemma behind (h : Reaches r level depth o) (used : List Text) :
    Reaches r level depth (o.behind used) := h

/-- One level up there is one level more to go. -/
lemma andThen {f : Text → Outcome Text} (h : Reaches r level depth o)
    (hf : ∀ t, Laced r.options.whitespace [] t →
      ∃ u, f t = ⟨[], .ok u⟩ ∧ Laced r.options.whitespace [] u) :
    Reaches r (level + 1) (depth + 1) (o.andThen f) := by
  refine ⟨fun hlt => ?_, fun hle => ?_⟩
  · obtain ⟨t, ht, hplain⟩ := h.1 (Nat.lt_of_succ_lt_succ hlt)
    obtain ⟨u, hu, hout⟩ := hf t hplain
    refine ⟨u, ?_, hout⟩
    rw [Outcome.result_andThen ht, hu]
  · have herror := h.2 (Nat.le_of_succ_le_succ hle)
    obtain ⟨used, result⟩ := o
    obtain rfl : result = _ := herror
    rfl

end Reaches

section
variable {vars : Fields} {n : ℕ} {tags : List Symbol} {s : Text}

/-- Preprocessing leaves the tags of a nest where they are. -/
lemma preprocess_nest (h : Nest p vars n tags) (hs : Laced r.options.whitespace tags s) :
    Laced r.options.whitespace tags (r.preprocess s) :=
  hs.preprocess (tag?_any_of_ordinary h.bracketed.ordinary Tag.isComment_of_isOrdinary)

/-- Every construct takes the text in it one level down, where it is preprocessed again. -/
lemma reaches_expandBody (h : Nest p vars n tags) (level : ℕ) (directory : Text)
    (hs : Laced r.options.whitespace tags s) :
    Reaches r (level + 1) n ((r.expandBody (r.template level) (r.fragment level) ⟨vars, directory⟩
      (Scan.symbols s)).run read) := by
  induction h generalizing level s with
  | nil =>
    rw [expandBody_of_isTagless hs.isTagless]
    exact .plain hs level
  | @cons vars vars' n tags opener closer hopen hclose h ih =>
    have hbracketed := hs.bracketed (.cons hopen hclose h)
    obtain ⟨hopener, hcloser, a, body, b, rfl, ha, hbody, hb⟩ := hs.exists_enclosed
    have hsymbols := Laced.symbols_enclosed hopener hcloser ha hbody hb
    obtain ⟨f, hrun, hf⟩ := run_expandBody_enclosed r (r.template level) (r.fragment level)
      ⟨vars, directory⟩ read hopen.opens hclose (hbody.balanced h) hsymbols hbracketed
    rw [hrun, run_expansion hopen (hbody.bracketed h)]
    refine Reaches.andThen ?_ fun t ht => ?_
    · cases level with
      | zero => exact .zero n
      | succ level => exact ih level (preprocess_nest h hbody.body)
    · have hout : Laced r.options.whitespace [] (a ++ (t ++ b)) := ha.append (ht.append hb)
      exact ⟨_, hf t hout.isTagless, hout⟩

lemma reaches_template (h : Nest p vars n tags) (level : ℕ) (directory : Text)
    (hs : Laced r.options.whitespace tags s) :
    Reaches r level n ((r.template level ⟨vars, directory⟩ s).run read) := by
  cases level with
  | zero => exact .zero n
  | succ level =>
    have hpre := preprocess_nest h hs
    rw [Renderer.template]
    simp only [Renderer.read, parent?_of_ordinary (hpre.bracketed h).ordinary]
    exact reaches_expandBody h level directory hpre

end

/-- Templates of which each includes the next one, from a reference in a directory to a template
that includes none, with the number of the inclusions. -/
inductive Chain (r : Renderer) (read : Text → Except Text Text) : Text → Text → ℕ → Prop
  | last {directory reference identifier used source}
    (hfetch : (r.fetch reference directory).run read = ⟨used, .ok (identifier, source)⟩)
    (hsource : Laced r.options.whitespace [] source) : Chain r read directory reference 0
  | link {directory reference identifier used source next locals written n}
    (hfetch : (r.fetch reference directory).run read = ⟨used, .ok (identifier, source)⟩)
    (hsource : Laced r.options.whitespace [.tag (.insert next locals) written] source)
    (h : Chain r read (Location.directory identifier) next n) :
    Chain r read directory reference (n + 1)

section
variable {next : Text} {locals : Option Text} {written : Text} {s : Text}

variable (template ctx read) in
/-- An inclusion between two plain texts is put in place, and the whole is read again. -/
lemma run_expandInserts_laced
    (hs : Laced r.options.whitespace [.tag (.insert next locals) written] s) :
    ∃ a b, Laced r.options.whitespace [] a ∧ Laced r.options.whitespace [] b ∧
      (r.expandInserts template ctx (Scan.symbols s)).run read =
        ((r.expandInsert template ctx (.tag (.insert next locals) written)).run read).andThen
          fun t => ⟨[], .ok (Scan.symbols (a ++ (t ++ b)))⟩ := by
  have hvisible : hideLoops (Scan.symbols s) = Scan.symbols s := by
    rw [hideLoops, Pair.occursIn_eq_false (hs.forall_symbols (fun _ => rfl) (by simp [Pair.opens])),
      if_neg Bool.false_ne_true]
  obtain ⟨hy, a, b, rfl, ha, hb⟩ := hs.exists_uncons
  have hreads := ha.reads.append (hy.reads.append hb.reads)
  refine ⟨a, b, ha, hb, ?_⟩
  rw [expandInserts_symbols, hvisible, hreads.symbols_eq, ha.isTagless.symbols_eq,
    hb.isTagless.symbols_eq, Rendering.run_bind, Rendering.run_concatMap_append,
    Rendering.run_concatMap_append, concatMap_expandInsert_char, concatMap_expandInsert_char,
    Rendering.run_concatMap_cons]
  rcases (r.expandInsert template ctx (.tag (.insert next locals) written)).run read with
    ⟨used, e | t⟩ <;>
  simp [Outcome.andThen, Outcome.behind]

/-- A template with one inclusion between plain texts goes one level deeper than what it
includes. -/
lemma reaches_template_insert {level n : ℕ}
    (hs : Laced r.options.whitespace [.tag (.insert next locals) written] s)
    (h : Reaches r level n ((r.expandInsert (r.template level) ctx
      (.tag (.insert next locals) written)).run read)) :
    Reaches r (level + 1) (n + 1) ((r.template (level + 1) ctx s).run read) := by
  have hpre := hs.preprocess (by simp [Symbol.tag?, isComment])
  have hparent : parent? (r.read s) = none :=
    List.findSome?_eq_none_iff.mpr (hpre.forall_symbols (fun _ => rfl) (by simp))
  have hancestry : ((r.read s).any fun y => y.tag?.any isAncestry) = false :=
    List.any_eq_false.mpr
      (hpre.forall_symbols (by simp [Symbol.tag?]) (by simp [Symbol.tag?, isAncestry]))
  obtain ⟨a, b, ha, hb, hinserts⟩ := run_expandInserts_laced (r.template level) ctx read hpre
  rw [Renderer.template]
  simp only [hparent]
  rw [expandBody_eq, dropTags, hancestry, if_neg Bool.false_ne_true, Rendering.run_bind,
    Renderer.read, hinserts, Outcome.andThen_assoc]
  refine h.andThen fun t ht => ?_
  have hout : Laced r.options.whitespace [] (a ++ (t ++ b)) := ha.append (ht.append hb)
  refine ⟨_, ?_, hout⟩
  rw [Outcome.andThen_ok, passes_of_isTagless hout.isTagless]
  rfl

end

/-- Every inclusion takes the included template one level down. -/
lemma Chain.reaches {directory reference : Text} {n : ℕ} (h : Chain r read directory reference n)
    (level : ℕ) (vars : Fields) :
    Reaches r level n ((r.consult reference directory fun found =>
      r.template level ⟨vars, Location.directory found.1⟩ found.2).run read) := by
  induction h generalizing level vars with
  | @last directory reference identifier used source hfetch hsource =>
    rw [consult, Rendering.run_bind, hfetch]
    exact ((reaches_template (p := .block) .nil level _ hsource).behind [identifier]).behind used
  | @link directory reference identifier used source next locals written n hfetch hsource _ ih =>
    rw [consult, Rendering.run_bind, hfetch]
    refine Reaches.behind (Reaches.behind ?_ [identifier]) used
    cases level with
    | zero => exact .zero (n + 1)
    | succ level => exact reaches_template_insert hsource (ih level _)

/-- The rendering succeeds exactly when the depth is not above the ceiling, and fails otherwise at
the first depth that is. -/
def StopsAt (r : Renderer) (read : Text → Except Text Text) (depth : ℕ) (x : Rendering Text) :
    Prop :=
  ((∃ rendered, Rendered.ofOutcome (x.run read) = .ok rendered) ↔ depth ≤ r.options.maxDepth) ∧
  (r.options.maxDepth < depth → Rendered.ofOutcome (x.run read) =
    .error (.depthExceeded (r.options.maxDepth + 1) r.options.maxDepth))

lemma Reaches.stopsAt {depth : ℕ} {x : Rendering Text}
    (h : Reaches r r.topLevel depth (x.run read)) : StopsAt r read depth x := by
  have herror (hlt : r.options.maxDepth < depth) :=
    Rendered.ofOutcome_eq_error.mpr (h.2 (Nat.succ_le_of_lt hlt))
  refine ⟨⟨fun ⟨rendered, hok⟩ => ?_, fun hle => ?_⟩, herror⟩
  · by_contra hlt
    rw [herror (Nat.lt_of_not_le hlt)] at hok
    cases hok
  · obtain ⟨content, hcontent, -⟩ := h.1 (Nat.lt_succ_of_le hle)
    exact ⟨_, Rendered.ofOutcome_eq_ok.mpr ⟨hcontent, rfl⟩⟩

end Renderer

lemma conditionHolds_true (vars : Fields) : conditionHolds "true".toList vars = true := by
  have hparse : Condition.parse "true".toList = .constant true :=
    (Condition.parse_eq _).trans rfl
  rw [conditionHolds, hparse]
  rfl

lemma nest_ifTrue (vars : Fields) (n : ℕ) : Nest .conditional vars n
    (List.replicate n (Tree.ifSymbol "true".toList) ++ List.replicate n Tree.endIfSymbol) := by
  induction n with
  | zero => exact .nil
  | succ n ih =>
    rw [List.replicate_succ, List.replicate_succ', List.cons_append, ← List.append_assoc]
    exact .cons (.conditional (conditionHolds_true vars)) rfl ih

/-- Under every ceiling a chain of inclusions, and constructs of one kind inside one another around
plain text, succeed exactly when there are no more of them than the ceiling says, and otherwise are
reported one level below it. Among these are any number of conditionals on `true`. -/
theorem Renderer.nesting_stops_at_ceiling (r : Renderer) (read : Text → Except Text Text)
    (vars : Fields) :
    (∀ n reference, Chain r read r.baseDirectory reference n →
      StopsAt r read n (r.renderFile reference vars)) ∧
    (∀ p n tags source directory, Nest p vars n tags →
      Laced r.options.whitespace tags source →
      StopsAt r read n (r.renderText source vars directory)) ∧
    ∀ n source directory, Laced r.options.whitespace
        (List.replicate n (Tree.ifSymbol "true".toList) ++ List.replicate n Tree.endIfSymbol)
        source →
      StopsAt r read n (r.renderText source vars directory) := by
  have hnest (p n tags source directory) (h : Nest p vars n tags)
      (hs : Laced r.options.whitespace tags source) :
      StopsAt r read n (r.renderText source vars directory) :=
    (Renderer.reaches_template h r.topLevel _ hs).stopsAt
  refine ⟨fun n reference h => (h.reaches r.topLevel vars).stopsAt, hnest, ?_⟩
  intro n source directory hs
  exact hnest .conditional n _ source directory (nest_ifTrue vars n) hs

/-- A text inside so many constructs with the same tags. -/
def nested (n : ℕ) (opener closer : Symbol) (s : Text) : Text :=
  (List.replicate n opener.text).flatten ++ (s ++ (List.replicate n closer.text).flatten)

section
variable {options : WhitespaceOptions}

lemma Laced.replicate {y : Symbol} (hy : SealedTag options y) (n : ℕ) :
    Laced options (List.replicate n y) (List.replicate n y.text).flatten := by
  induction n with
  | zero => exact .nil
  | succ n ih => exact .tag hy ih

lemma laced_nested {opener closer : Symbol} (hopener : SealedTag options opener)
    (hcloser : SealedTag options closer) (n : ℕ) {s : Text} (hs : Laced options [] s) :
    Laced options (List.replicate n opener ++ List.replicate n closer)
      (nested n opener closer s) :=
  (Laced.replicate hopener n).append (hs.append (.replicate hcloser n))

/-- A written tag of one line is sealed if its text holds no marker. -/
lemma sealedTag_tagSymbol (d : Delimiter) (inner : Text) (hclose : '}' ∉ inner)
    (hline : '\n' ∉ inner)
    (hscan : Whitespace.Mark.scan (writeTag d inner) = (writeTag d inner).map .char) :
    SealedTag options (tagSymbol d inner) where
  finished := ⟨d, _, rfl⟩
  reads := by
    rw [text_tagSymbol]
    exact reads_writeTag d inner hclose
  unmarked := by rwa [text_tagSymbol]
  oneLine _ := by
    rw [text_tagSymbol]
    cases d <;> simp [writeTag, hline, Delimiter.openChar, Delimiter.closeChar]

end

/-- A page with nothing but an inclusion between two characters. -/
def includingPage (reference : Text) : Text :=
  '<' :: writeTag .control ("include \"".toList ++ reference ++ ['"']) ++ ['>']

/-- A template on a template on a template. -/
def tower : Store := .ofList
  [("top.yapl".toList, includingPage "middle".toList),
    ("middle.yapl".toList, includingPage "bottom".toList),
    ("bottom.yapl".toList, "ground".toList)]

lemma chain_tower (ceiling : ℕ) :
    Renderer.Chain (Renderer.inMemory { maxDepth := ceiling }) tower.read [] "top".toList 2 := by
  let fetch (reference : Text) :=
    ((Renderer.inMemory { maxDepth := ceiling }).fetch reference []).run tower.read
  let found (reference source : Text) : Outcome (Text × Text) :=
    ⟨[], .ok (reference ++ ".yapl".toList, source)⟩
  have htop : fetch "top".toList = found "top".toList (includingPage "middle".toList) := rfl
  have hmiddle : fetch "middle".toList = found "middle".toList (includingPage "bottom".toList) :=
    rfl
  have hbottom : fetch "bottom".toList = found "bottom".toList "ground".toList := rfl
  have hplain : Laced {} [] "ground".toList := .of_not_mem (by decide)
  have hpage (inner : Text) (hsealed : SealedTag {} (tagSymbol .control inner)) :
      Laced {} [tagSymbol .control inner] ('<' :: writeTag .control inner ++ ['>']) := by
    rw [← text_tagSymbol]
    exact .char (by decide) (.tag hsealed (.of_not_mem (by decide)))
  have htopPage := hpage "include \"middle\"".toList
    (sealedTag_tagSymbol _ _ (by decide) (by decide) (by decide))
  have hmiddlePage := hpage "include \"bottom\"".toList
    (sealedTag_tagSymbol _ _ (by decide) (by decide) (by decide))
  exact .link htop htopPage (.link hmiddle hmiddlePage (.last hbottom hplain))

/-- Two inclusions and two constructs of each kind, under a ceiling of two and under one of one. -/
theorem Renderer.nesting_stops_at_tower :
    let vars : Fields := [("xs".toList, .array [.number (.int 7)])]
    let climb (ceiling : ℕ) := tower.renderFile "top".toList vars { maxDepth := ceiling }
    let render (opener closer : Symbol) (ceiling : ℕ) :=
      tower.render (nested 2 opener closer "ground".toList) vars { maxDepth := ceiling }
    let ifs := render (Tree.ifSymbol "true".toList) Tree.endIfSymbol
    let blocks := render (blockSymbol "a".toList) endBlockSymbol
    let loops := render (Tree.forSymbol "x".toList "xs".toList) Tree.endForSymbol
    let tooDeep : Except TemplateError Rendered := .error (.depthExceeded 2 1)
    ((∃ rendered, climb 2 = .ok rendered) ∧ climb 1 = tooDeep) ∧
      ((∃ rendered, ifs 2 = .ok rendered) ∧ ifs 1 = tooDeep) ∧
      ((∃ rendered, blocks 2 = .ok rendered) ∧ blocks 1 = tooDeep) ∧
      (∃ rendered, loops 2 = .ok rendered) ∧ loops 1 = tooDeep := by
  intro vars climb render ifs blocks loops tooDeep
  have hstops (ceiling : ℕ) :=
    (Renderer.inMemory { maxDepth := ceiling }).nesting_stops_at_ceiling tower.read vars
  have hnested (opener closer : Symbol) (hopener : SealedTag {} opener)
      (hcloser : SealedTag {} closer) :
      Laced {} [opener, opener, closer, closer] (nested 2 opener closer "ground".toList) :=
    laced_nested hopener hcloser 2 (.of_not_mem (by decide))
  have hifs := hnested (Tree.ifSymbol "true".toList) Tree.endIfSymbol
    (sealedTag_tagSymbol .control "if true".toList (by decide) (by decide) (by decide))
    (sealedTag_tagSymbol .control "endif".toList (by decide) (by decide) (by decide))
  have hblocks := hnested (blockSymbol "a".toList) endBlockSymbol
    (sealedTag_tagSymbol .control "block a".toList (by decide) (by decide) (by decide))
    (sealedTag_tagSymbol .control "endblock".toList (by decide) (by decide) (by decide))
  have hloops := hnested (Tree.forSymbol "x".toList "xs".toList) Tree.endForSymbol
    (sealedTag_tagSymbol .control "for x in xs".toList (by decide) (by decide) (by decide))
    (sealedTag_tagSymbol .control "endfor".toList (by decide) (by decide) (by decide))
  have hclimb (ceiling : ℕ) := (hstops ceiling).1 2 _ (chain_tower ceiling)
  have hrenderIfs (ceiling : ℕ) := (hstops ceiling).2.2 2 _ none hifs
  have hrenderBlocks (ceiling : ℕ) := (hstops ceiling).2.1 .block 2 _ _ none
    (.cons .block rfl (.cons .block rfl .nil)) hblocks
  have hrenderLoops (ceiling : ℕ) := (hstops ceiling).2.1 .loop 2 _ _ none
    (.cons (.loop (v := .number (.int 7)) rfl) rfl
      (.cons (.loop (v := .number (.int 7)) rfl) rfl .nil)) hloops
  exact ⟨⟨(hclimb 2).1.mpr le_rfl, (hclimb 1).2 (by decide)⟩,
    ⟨(hrenderIfs 2).1.mpr le_rfl, (hrenderIfs 1).2 (by decide)⟩,
    ⟨(hrenderBlocks 2).1.mpr le_rfl, (hrenderBlocks 1).2 (by decide)⟩,
    (hrenderLoops 2).1.mpr le_rfl, (hrenderLoops 1).2 (by decide)⟩

end Stencil
