import Stencil.Proofs.Filling

/-! An heir that declares no block. Its parent's blocks are filled in before the parent is expanded,
one level further down than when the parent is rendered itself. Main statement: both ways give the
same content, if what is put in the place of a tag cannot be taken for a tag, if white space is left
alone and if no block stands in a loop. -/
namespace Stencil
open Rendering (Gives cutOff Outcome)

namespace Renderer
variable {r : Renderer} {read : Text → Except Text Text}

/-- The pieces of a text that is filled in with the blocks of a table, those that it declares
itself. Its inclusions, which are expanded on the highest level below the text, and its blocks
bring no brace. -/
structure Fillable (r : Renderer) (read : Text → Except Text Text) (table : BlockTable)
    (ctx : Context) (got : Symbol → Text) (U : List Piece) : Prop where
  wellMatched : WellMatched .loop U
  steady : Steady (U.flatMap Piece.symbols)
  blockless : Blockless U
  brings : Brings r read [] (r.template r.options.maxDepth) ctx got U
  declared : ∀ c ∈ allConstructs .block (U.flatMap Piece.symbols),
    table.get? (blockName c) = some ⟨Symbol.textOf c.body, ctx.directory⟩
  braceless : ∀ c ∈ allConstructs .block (U.flatMap Piece.symbols), ∀ s,
    ((r.fragment r.topLevel ctx (Symbol.textOf c.body)).run read).result = .ok s → s.IsBraceless

/-- Filled in with the blocks of a table and then expanded, on one level, the symbols give the
content, or they are cut off. -/
def GivesFilled (r : Renderer) (read : Text → Except Text Text) (table : BlockTable)
    (ctx : Context) (level : ℕ) (symbols : List Symbol) (content : Text) : Prop :=
  ∃ text names,
    Gives read [cutOff r.options.maxDepth] (r.fillPieces (r.fill level) (r.fragment level) table
      ctx (Piece.split .block symbols)) (text, names) ∧
    Gives read [cutOff r.options.maxDepth]
      (r.expandBody (r.template level) (r.fragment level) ctx (r.read text)) content

/-- Every block is filled in, on the level of the filling, with what the level above puts. -/
def FillsBlocks (r : Renderer) (read : Text → Except Text Text) (table : BlockTable)
    (ctx : Context) (got : Symbol → Text) (put : Text → Text) (level : ℕ) (U : List Piece) : Prop :=
  ∀ opener body closer, .closed opener body closer ∈ blockParts U → ∃ names,
    Gives read [cutOff r.options.maxDepth] (renderBlock (r.fill level) (r.fragment level) table
      ctx.vars ⟨Symbol.textOf (body.flatMap Piece.symbols), ctx.directory⟩)
      (put (bodyText got body), names)

namespace Fillable
variable {table : BlockTable} {ctx : Context} {got : Symbol → Text} {U : List Piece}
  (h : Fillable r read table ctx got U)
include h

lemma steady_included : Steady (U.flatMap (Piece.included got)) := h.brings.steady h.steady

/-- The body of a block is filled in like the text. -/
lemma body {opener closer : Piece} {body : List Piece}
    (hpart : .closed opener body closer ∈ blockParts U) : Fillable r read table ctx got body := by
  have hsub := Part.sublist_of_mem_parts hpart
  have hconstructs : allConstructs .block (body.flatMap Piece.symbols) ⊆
      allConstructs .block (U.flatMap Piece.symbols) := by
    obtain ⟨before, after, heq⟩ :=
      exists_append_of_mem_allConstructs (h.blockless.mem_allConstructs hpart)
    have := allConstructs_subset_append (p := .block) (before ++ [opener.head])
      (body.flatMap Piece.symbols) ([closer.head] ++ after)
    rw [heq, Construct.symbols, blockOfParts]
    simpa using this
  exact {
    wellMatched := h.wellMatched.sublist hsub
    steady := h.steady.subset fun y hy => by
      obtain ⟨u, hu, hy⟩ := List.mem_flatMap.mp hy
      exact List.mem_flatMap.mpr ⟨u, hsub.subset hu, hy⟩
    blockless := h.blockless.subset fun u hu => hsub.subset hu
    brings := h.brings.subset fun u hu => hsub.subset hu
    declared := fun c hc => h.declared c (hconstructs hc)
    braceless := fun c hc => h.braceless c (hconstructs hc) }

/-- Behind the inclusions there is nothing to include. -/
lemma expandBody_included (template fragment : Expansion) :
    r.expandBody template fragment ctx (U.flatMap (Piece.included got)) =
      r.expandBlocks fragment ctx (U.flatMap (Piece.included got)) >>= r.finish fragment ctx := by
  rw [expandBody_eq, h.steady_included.dropTags_eq, expandInserts_included h.wellMatched]
  rfl

/-- Expanding the inclusions first makes no difference. -/
lemma result_expandBody (fragment : Expansion) :
    ((r.expandBody (r.template r.options.maxDepth) fragment ctx (U.flatMap Piece.symbols)).run
      read).result =
    ((r.expandBody (r.template r.options.maxDepth) fragment ctx
      (U.flatMap (Piece.included got))).run read).result := by
  have hinserts := Rendering.gives_nil.mp (h.brings.gives_expandInserts h.wellMatched h.steady)
  rw [h.expandBody_included, expandBody_eq, h.steady.dropTags_eq, Rendering.run_bind,
    Outcome.result_andThen hinserts]

variable (hr : r.options.whitespace = .disabled)
include hr

lemma fragment_bodyText {opener closer : Piece} {body : List Piece}
    (hpart : .closed opener body closer ∈ blockParts U) (level : ℕ) :
    r.fragment (level + 1) ctx (bodyText got body) =
      r.expandBody (r.template level) (r.fragment level) ctx
        (body.flatMap (Piece.included got)) := by
  rw [fragment, bodyText, (h.body hpart).steady_included.read_eq hr]

variable (hflat : r.ResolvesFlat)
include hflat

/-- A block brings no brace on any level. -/
lemma braceless_bodyText {opener closer : Piece} {body : List Piece}
    (hpart : .closed opener body closer ∈ blockParts U) {level : ℕ}
    (hlevel : level ≤ r.topLevel) {s : Text}
    (hs : ((r.fragment level ctx (bodyText got body)).run read).result = .ok s) :
    s.IsBraceless := by
  have htop := ((levelsRelated_self hflat read hlevel).fragment ctx _).result_eq_ok hs
  rw [topLevel, h.fragment_bodyText hr hpart, ← (h.body hpart).result_expandBody] at htop
  refine h.braceless _ (h.blockless.mem_allConstructs hpart) s ?_
  rw [topLevel, fragment, blockOfParts, (h.body hpart).steady.read_eq hr]
  exact htop

/-- The text is filled in as its blocks are. -/
lemma gives_of_fillsBlocks {level : ℕ} (hlevel : level + 1 ≤ r.options.maxDepth) {content : Text}
    (hcontent : ((r.expandBody (r.template (level + 1)) (r.fragment (level + 1)) ctx
      (U.flatMap (Piece.included got))).run read).result = .ok content)
    (hfills : ∀ put, Puts read [] (r.fragment (level + 1)) ctx got put U →
      FillsBlocks r read table ctx got put level U) :
    GivesFilled r read table ctx level (U.flatMap Piece.symbols) content := by
  rw [h.expandBody_included, Rendering.run_bind] at hcontent
  obtain ⟨l, hblocks, hfinish⟩ := Outcome.exists_of_result_andThen hcontent
  have hbraceless opener body closer s (hpart : .closed opener body closer ∈ blockParts U)
      (hs : ((r.fragment (level + 1) ctx (bodyText got body)).run read).result = .ok s) :
      s.IsBraceless := h.braceless_bodyText hr hflat hpart (by rw [topLevel]; omega) hs
  have hputs := puts_of_result hr h.wellMatched h.blockless h.steady_included hbraceless hblocks
  generalize (fun s => (r.fragment (level + 1) ctx s).text read) = put at hputs
  have hfilled := hputs.steady_filled h.steady
  have hbrings := (h.brings.lower hflat (by omega : level ≤ r.options.maxDepth)).in_filled put
  have hX := hbrings.steady hfilled
  -- the blocks of the direct way leave the same symbols as the inclusions of the other way
  obtain rfl := (hputs.gives_expandBlocks hr h.wellMatched h.blockless h.steady_included
    hX).eq_of_result hblocks
  obtain ⟨names, htext⟩ := exists_gives_fillPieces (r := r) table (blockParts U)
    fun opener body closer hpart => by
      rw [h.declared _ (h.blockless.mem_allConstructs hpart)]
      exact hfills put hputs opener body closer hpart
  refine ⟨_, names, by rwa [h.blockless.split_symbols], ?_⟩
  rw [← filled, hfilled.read_eq hr, expandBody_eq, hfilled.dropTags_eq]
  refine (hbrings.gives_expandInserts (wellMatched_filled h.wellMatched got put) hfilled).bind ?_
  rw [expandBlocks_filled hr h.wellMatched h.blockless hX]
  have hlevels := (levelsRelated_self hflat read (Nat.le_succ level)).fragment
  exact ((related_self hflat read).finish hlevels ctx _).gives hfinish

/-- What a text gives with its inclusions expanded it also gives, one level further down, with its
blocks filled in, unless it is cut off there. -/
theorem gives {level : ℕ} (hlevel : level + 1 ≤ r.options.maxDepth) {content : Text}
    (hcontent : ((r.expandBody (r.template (level + 1)) (r.fragment (level + 1)) ctx
      (U.flatMap (Piece.included got))).run read).result = .ok content) :
    GivesFilled r read table ctx level (U.flatMap Piece.symbols) content := by
  -- the bodies of blocks are filled in one level further down, with texts of their own
  induction level generalizing U content with
  | zero =>
    refine h.gives_of_fillsBlocks hr hflat hlevel hcontent fun put _ opener body closer _ => ?_
    exact ⟨[], .inl ⟨_, List.mem_singleton_self _, rfl⟩⟩
  | succ level ih =>
    refine h.gives_of_fillsBlocks hr hflat hlevel hcontent fun put hputs opener body closer hpart =>
      ?_
    have hbody := Rendering.gives_nil.mp (hputs.gives opener body closer hpart)
    rw [h.fragment_bodyText hr hpart] at hbody
    obtain ⟨text, names, htext, hexpanded⟩ := ih (h.body hpart) (by omega) hbody
    rw [renderBlock, fill, (h.body hpart).steady.symbols_eq]
    exact ⟨names, htext.bind (hexpanded.bind (.done _))⟩

end Fillable

/-- A template whose heirs may leave its blocks to it: tidy symbols, no block inside a loop, no name
declared twice, and no brace in what its inclusions and its blocks bring. -/
structure PlainSkeleton (r : Renderer) (read : Text → Except Text Text) (ctx : Context)
    (source : Text) : Prop where
  tidy : r.IsTidy Tag.Lasts source
  loops : ∀ c ∈ allConstructs .loop (r.read source), ∀ y ∈ c.symbols, Pair.block.IsNeutral y
  names : ((allConstructs .block (r.read source)).map blockName).Nodup
  inserts : ∀ y ∈ hideLoops (r.read source), isInsert y = true →
    (r.expandInsert (r.template r.options.maxDepth) ctx y).IsBraceless read
  blocks : ∀ c ∈ allConstructs .block (r.read source),
    (r.fragment r.topLevel ctx (Symbol.textOf c.body)).IsBraceless read

namespace PlainSkeleton
variable {ctx : Context} {source content : Text} (h : r.PlainSkeleton read ctx source)
  (hr : r.options.whitespace = .disabled)
include h hr

lemma steady : Steady (r.read source) := .of_isTidy hr h.tidy

/-- The pieces of a template that succeeds can be filled in with its own blocks. -/
lemma exists_fillable {l : List Symbol}
    (hl : ((r.expandInserts (r.template r.options.maxDepth) ctx (r.read source)).run read).result =
      .ok l) :
    ∃ got, Fillable r read (r.extract ctx.directory (r.read source)) ctx got
      (Piece.split .loop (r.read source)) := by
  have hsymbols := Piece.flatMap_symbols_split .loop (r.read source)
  have hmatched := wellMatched_split .loop (r.read source)
  have hsteady := h.steady hr
  rw [← hsymbols] at hl hsteady
  have hbraceless y s (hy : .single y ∈ Piece.split .loop (r.read source))
      (hinsert : isInsert y = true)
      (hs : ((r.expandInsert (r.template r.options.maxDepth) ctx y).run read).result = .ok s) :
      s.IsBraceless := by
    refine h.inserts y ?_ hinsert s (by rw [hs]; rfl)
    rw [hideLoops_eq]
    exact List.mem_flatMap.mpr ⟨.single y, hy, List.mem_singleton_self y⟩
  refine ⟨_, ⟨hmatched, hsteady, ?_, brings_of_result hmatched hsteady hbraceless hl, ?_, ?_⟩⟩
  · exact fun c hc => h.loops c (mem_allConstructs_of_mem_split hc)
  · intro c hc
    rw [hsymbols] at hc
    rw [extract, BlockTable.get?_extract h.names hc, BlockTable.blockOf, hr]
    rfl
  · intro c hc s hs
    rw [hsymbols] at hc
    exact h.blocks c hc s (by rw [hs]; rfl)

variable (hflat : r.ResolvesFlat)
include hflat

/-- Splicing in the skeleton's own blocks gives what the skeleton gives. -/
lemma gives_splice {level : ℕ} (hlevel : r.options.maxDepth = level + 1)
    (hcontent : ((r.template r.topLevel ctx source).run read).result = .ok content) :
    Gives read [cutOff r.options.maxDepth]
      (r.splice (r.template level) (r.fragment level) (r.fill level)
        (r.extract ctx.directory (r.read source)) (r.extract ctx.directory (r.read source)) ctx
        (r.read source)) content := by
  rw [topLevel, template] at hcontent
  simp only [(h.steady hr).parent?_eq_none] at hcontent
  have hdirect := hcontent
  rw [expandBody_eq, (h.steady hr).dropTags_eq, Rendering.run_bind] at hdirect
  obtain ⟨l, hl, -⟩ := Outcome.exists_of_result_andThen hdirect
  obtain ⟨got, hfillable⟩ := h.exists_fillable hr hl
  rw [← Piece.flatMap_symbols_split .loop (r.read source), hfillable.result_expandBody,
    hlevel] at hcontent
  obtain ⟨text, names, htext, hexpanded⟩ := hfillable.gives hr hflat hlevel.ge hcontent
  rw [Piece.flatMap_symbols_split] at htext
  rw [splice]
  refine htext.bind (hexpanded.bind ?_)
  rw [additions_of_forall_contains fun entry hentry => Entries.contains_of_mem hentry]
  exact .done content

/-- An heir of the skeleton that brings no blocks of its own gives what the skeleton gives. -/
lemma gives_inherit {heir : Heir} {identifier : Text} (hblocks : heir.blocks = [])
    (hmixins : mixins heir.symbols = [])
    (hfetch : ((r.fetch heir.parent heir.directory).run read).result = .ok (identifier, source))
    (hdirectory : ctx.directory = Location.directory identifier)
    (hcontent : ((r.template r.topLevel ctx source).run read).result = .ok content) {level : ℕ}
    (hlevel : r.options.maxDepth = level) :
    Gives read [cutOff r.options.maxDepth] (r.inherit level ctx.vars heir) content := by
  cases level with
  | zero => exact gives_tooDeep content
  | succ level =>
    have hsplice := h.gives_splice hr hflat hlevel hcontent
    rw [inherit, hmixins, hblocks]
    refine Gives.bind (.of_result hfetch) (Gives.bind (.of_result (a := ()) rfl) ?_)
    refine Gives.bind (.done ([] : BlockTable)) ?_
    simp only [(h.steady hr).parent?_eq_none, BlockTable.mergeOver_nil, ← hdirectory]
    exact hsplice

end PlainSkeleton

/-- An heir that declares no block gives the content of its parent, or it is cut off. -/
theorem renderText_emptyHeir {child reference written identifier source content : Text}
    {vars : Fields} (hr : r.options.whitespace = .disabled) (hflat : r.ResolvesFlat)
    (hchild : r.read child = [.tag (.inherit reference) written])
    (hfetch : ((r.fetch reference r.baseDirectory).run read).result = .ok (identifier, source))
    (hskeleton : r.PlainSkeleton read ⟨vars, Location.directory identifier⟩ source)
    (hcontent : ((r.renderFile reference vars).run read).result = .ok content) :
    ((r.renderText child vars none).run read).result = .ok content ∨
      ((r.renderText child vars none).run read).result =
        .error (.depthExceeded (r.options.maxDepth + 1) r.options.maxDepth) := by
  rw [renderFile, Rendering.run_bind, Outcome.result_andThen hfetch] at hcontent
  have hgives : Gives read [cutOff r.options.maxDepth] (r.renderText child vars none) content := by
    rw [renderText, topLevel, template, hchild]
    exact hskeleton.gives_inherit hr hflat rfl rfl hfetch rfl hcontent rfl
  rcases hgives with ⟨e, he, hresult⟩ | hresult
  · obtain rfl := List.mem_singleton.mp he
    exact .inr hresult
  · exact .inl hresult

end Renderer

/-- A front page with a block inside a block, inclusions inside and outside of them, a branch and a
loop. -/
def frontPage : Store := .ofList
  [("front.yapl".toList,
      "{{ title }}{% block body %}<{% block lead %}{% if open %}".toList ++
      writeTag .control "include \"note\"".toList ++
      "{% endif %}{% endblock %}>{% endblock %}".toList ++
      writeTag .control "include \"note\"".toList ++
      "{% for x in xs %}{{ x }};{% endfor %}".toList),
    ("note.yapl".toList, "({{ title }})".toList)]

theorem Renderer.render_frontPage :
    let r := Renderer.inMemory { whitespace := .disabled }
    let vars : Fields := [("title".toList, .string "T".toList), ("open".toList, .bool true),
      ("xs".toList, .array [.string "a".toList, .string "b".toList])]
    ((r.renderText (writeTag .control "extends \"front\"".toList) vars none).run
      frontPage.read).result = .ok "T<(T)>(T)a;b;".toList := by
  intro r vars
  have hskeleton : r.PlainSkeleton frontPage.read ⟨vars, []⟩
      ((frontPage.get? "front.yapl".toList).getD []) :=
    ⟨by decide +kernel, by decide +kernel, by decide +kernel, by decide +kernel,
      by decide +kernel⟩
  have hemptyHeir := @renderText_emptyHeir r frontPage.read
    (writeTag .control "extends \"front\"".toList) "front".toList
    (writeTag .control "extends \"front\"".toList) "front.yapl".toList _ "T<(T)>(T)a;b;".toList vars
    rfl (resolvesFlat_inMemory _ _) (by decide +kernel) (by decide +kernel) hskeleton
    (by decide +kernel)
  exact hemptyHeir.resolve_right (by decide +kernel)

/-- A block inside a loop is filled in before the loop binds its variable. -/
theorem render_blockInLoop :
    let store : Store := .ofList
      [("p.yapl".toList, "{% for x in xs %}{% block b %}{{ x }}{% endblock %}{% endfor %}".toList)]
    let vars : Fields := [("xs".toList, .array [.string "a".toList, .string "b".toList])]
    store.renderFile "p".toList vars = .ok ⟨"ab".toList, ["p.yapl".toList]⟩ ∧
      store.render (writeTag .control "extends \"p\"".toList) vars =
        .ok ⟨[], ["p.yapl".toList]⟩ := by
  constructor <;> decide +kernel

end Stencil
