import Stencil.Proofs.Merging
import Stencil.Proofs.Override
import Stencil.Proofs.Unrolling

/-! Loops of a skeleton. Blocks are filled in before the loops bind their variables, so that a
skeleton with a block inside a loop is not unrolled. Main statement: for all other skeletons it
makes no difference to an heir, whatever blocks it brings, whether the loops are unrolled before. -/
namespace Stencil
open Rendering (Gives Outcome cutOff)

namespace BlockTable

/-- Every block of a text has its name in the table of the text. -/
lemma contains_extract (dedents : Bool) (directory : Text) {l : List Symbol} {c : Construct}
    (hc : c ∈ allConstructs .block l) :
    (extract dedents directory l).contains (Renderer.blockName c) = true := by
  have hopens : ∀ c ∈ allConstructs .block l, Pair.opens .block c.opener = true :=
    fun c hc => opens_of_mem_allConstructs hc
  rw [extract_eq]
  generalize allConstructs .block l = cs at hc hopens
  generalize ([] : BlockTable) = table
  induction cs generalizing table with
  | nil => cases hc
  | cons d cs ih =>
    rw [List.foldl_cons]
    rcases List.mem_cons.mp hc with rfl | hc
    · apply contains_foldl
      rw [declare_of_opens (hopens c List.mem_cons_self), Entries.contains_insert]
      simp
    · exact ih hc (fun e he => hopens e (List.mem_cons_of_mem d he)) _

lemma contains_mergeOver (heir : BlockTable) {base : BlockTable} {name : Text}
    (h : base.contains name = true) : (mergeOver heir base).contains name = true := by
  rw [← Entries.mem_keys_iff] at h ⊢
  rw [keys_mergeOver]
  exact List.mem_append_left _ h

end BlockTable

namespace Renderer
variable {r : Renderer} {read : Text → Except Text Text} {ctx : Context}

section Filling
variable {filling : Filling} {fragment : Expansion} {table : BlockTable}

lemma run_fillPieces_singles (l : List Symbol) (rest : List Piece) :
    (r.fillPieces filling fragment table ctx (l.map .single ++ rest)).run read =
      ((r.fillPieces filling fragment table ctx rest).run read).andThen
        fun filled => ⟨[], .ok (Symbol.textOf l ++ filled.1, filled.2)⟩ := by
  induction l with
  | nil =>
    rcases h : (r.fillPieces filling fragment table ctx rest).run read with ⟨used, e | filled⟩ <;>
      simp [h, Outcome.andThen, Outcome.behind]
  | cons y l ih =>
    rw [List.map_cons, List.cons_append, run_fillPieces_single, ih, Outcome.andThen_assoc]
    simp

/-- The text of a block that is rendered for the heirs of its skeleton. -/
def textOfBlock (read : Text → Except Text Text) (filling : Filling) (fragment : Expansion)
    (table : BlockTable) (vars : Fields) (block : Block) : Text :=
  (((renderBlock filling fragment table vars block).run read).result.toOption.getD ([], [])).1

/-- What the table's blocks put in the place of the blocks among the pieces of a text. -/
def putTable (read : Text → Except Text Text) (filling : Filling) (fragment : Expansion)
    (table : BlockTable) (vars : Fields) : Part Piece → Text
  | .single _ => []
  | .closed opener body closer =>
    match table.get? (blockName (Part.construct Construct.text opener body closer)) with
    | some block => textOfBlock read filling fragment table vars block
    | none => []

lemma putTable_eq {vars : Fields} {opener closer : Piece} {body : List Piece} {block : Block}
    {text : Text} {names : List Text}
    (hblock : table.get? (blockName (Part.construct Construct.text opener body closer)) = some block)
    (h : ((renderBlock filling fragment table vars block).run read).result = .ok (text, names)) :
    putTable read filling fragment table vars (.closed opener body closer) = text := by
  rw [putTable, hblock]
  dsimp only
  rw [textOfBlock, h]
  rfl

/-- The skeleton is filled in alike whatever stands in the place of its loops. -/
lemma result_fillPieces_withText (it : Construct → Text) {parts : List (Part Piece)} {filled : Text}
    {names : List Text}
    (htable : ∀ opener body closer, .closed opener body closer ∈ parts →
      table.contains (blockName (Part.construct Construct.text opener body closer)) = true)
    (h : ((r.fillPieces filling fragment table ctx
      (parts.flatMap (Part.pieces Piece.head Piece.symbols))).run read).result =
        .ok (filled, names)) :
    let pieces := parts.flatMap (Part.replaced (putTable read filling fragment table ctx.vars))
    filled = Symbol.textOf (pieces.flatMap Piece.symbols) ∧
      ((r.fillPieces filling fragment table ctx
        (parts.flatMap (Part.pieces Piece.head (Piece.withText it)))).run read).result =
          .ok (Symbol.textOf (pieces.flatMap (Piece.withText it)), names) := by
  induction parts generalizing filled names with
  | nil =>
    cases h
    exact ⟨rfl, rfl⟩
  | cons part parts ih =>
    have hrest := fun filled names => @ih filled names fun opener body closer hpart =>
      htable opener body closer (List.mem_cons_of_mem part hpart)
    rw [List.flatMap_cons] at h
    simp only [List.flatMap_cons, List.flatMap_append, Symbol.textOf_append]
    cases part with
    | single u =>
      rw [Part.pieces, run_fillPieces_singles] at h
      obtain ⟨⟨text, later⟩, htext, h⟩ := Outcome.exists_of_result_andThen h
      cases h
      obtain ⟨rfl, hwith⟩ := hrest _ _ htext
      rw [Part.pieces, run_fillPieces_singles, Outcome.result_andThen hwith, Part.replaced,
        List.flatMap_singleton, List.flatMap_singleton]
      exact ⟨rfl, rfl⟩
    | closed opener body closer =>
      obtain ⟨block, hblock⟩ := Option.isSome_iff_exists.mp
        (htable opener body closer List.mem_cons_self)
      have hname (l : List Symbol) : table.get? (blockName ⟨opener.head, l, closer.head⟩) =
          some block := hblock
      rw [Part.pieces, List.singleton_append, run_fillPieces_construct, hname,
        Option.getD_some] at h
      obtain ⟨⟨here, inner⟩, hhere, h⟩ := Outcome.exists_of_result_andThen h
      obtain ⟨⟨text, later⟩, htext, h⟩ := Outcome.exists_of_result_andThen h
      cases h
      obtain ⟨rfl, hwith⟩ := hrest _ _ htext
      have hput := putTable_eq hblock hhere
      rw [Part.pieces, List.singleton_append, run_fillPieces_construct, hname,
        Option.getD_some, Outcome.result_andThen hhere, Outcome.result_andThen hwith, Part.replaced, hput,
        flatMap_symbols_single, Piece.flatMap_withText_single, Symbol.textOf_map_char]
      exact ⟨rfl, rfl⟩

end Filling

/-- A skeleton that is filled in with the blocks of a table: no block stands inside a loop, and no
brace is in what the blocks print and in what the filled skeleton prints on its way. -/
structure FillsPlainly (r : Renderer) (read : Text → Except Text Text) (level : ℕ)
    (table : BlockTable) (ctx : Context) (s : Text) : Prop where
  loops : ∀ c ∈ allConstructs .loop (r.read s), ∀ y ∈ c.symbols, Pair.block.IsNeutral y
  blocks : ∀ entry ∈ table,
    (textOfBlock read (r.fill level) (r.fragment level) table ctx.vars entry.2).IsBraceless
  prints : ∀ filled ∈ ((r.fillPieces (r.fill level) (r.fragment level) table ctx
    (Piece.split .block (r.read s))).run read).result.toOption,
      r.PrintsNoBraceBelow read level ctx (r.read filled.1)

/-- An heir, whatever blocks it brings, gives the same over a skeleton and over the skeleton with
its loops unrolled. -/
theorem PlainLoops.splice_unrolled {s : Text} (h : r.PlainLoops read ctx s)
    (hr : r.options.whitespace = .disabled) (hflat : r.ResolvesFlat) {level : ℕ}
    (hlevel : level ≤ r.topLevel) {skeleton table : BlockTable}
    (hfills : r.FillsPlainly read level table ctx s)
    (hdeclared : ∀ c ∈ allConstructs .block (r.read s), table.contains (blockName c) = true)
    {content : Text}
    (hcontent : ((r.splice (r.template level) (r.fragment level) (r.fill level) skeleton table ctx
      (r.read s)).run read).result = .ok content) :
    ((r.splice (r.template level) (r.fragment level) (r.fill level) skeleton table ctx
      (r.read (r.unrolled read ctx s))).run read).result = .ok content := by
  have hsymbols := Piece.flatMap_symbols_split .loop (r.read s)
  have hU := h.unrollable hr
  have hblockless : Blockless (Piece.split .loop (r.read s)) :=
    fun c hc => hfills.loops c (mem_allConstructs_of_mem_split hc)
  have hprints := hfills.prints
  have hnames opener body closer
      (hpart : .closed opener body closer ∈ blockParts (Piece.split .loop (r.read s))) :
      table.contains (blockName (Part.construct Construct.text opener body closer)) = true := by
    have hmem := hblockless.mem_allConstructs hpart
    rw [hsymbols] at hmem
    exact hdeclared (blockOfParts opener body closer) hmem
  rw [h.read_unrolled_eq hr]
  conv at hcontent => rw [← hsymbols]
  rw [← hsymbols, hblockless.split_symbols] at hprints
  generalize Piece.split .loop (r.read s) = U at *
  rw [splice, hblockless.split_symbols, Rendering.run_bind] at hcontent
  obtain ⟨⟨filled, names⟩, hfilled, hrest⟩ := Outcome.exists_of_result_andThen hcontent
  rw [Rendering.run_bind] at hrest
  obtain ⟨expanded, hexpanded, hadded⟩ := Outcome.exists_of_result_andThen hrest
  have hbelow := hprints _ (by rw [hfilled]; rfl)
  obtain ⟨rfl, hwith⟩ := result_fillPieces_withText (r.iterations read ctx) hnames hfilled
  have hV : Unrollable (r.iterations read ctx)
      ((blockParts U).flatMap
        (Part.replaced (putTable read (r.fill level) (r.fragment level) table ctx.vars))) := by
    refine hU.replaceParts fun opener body closer hpart => ?_
    obtain ⟨block, hblock⟩ := Option.isSome_iff_exists.mp (hnames opener body closer hpart)
    rw [putTable, hblock]
    exact hfills.blocks _ (Entries.mem_of_get? hblock)
  rw [hV.steady.read_eq hr] at hexpanded hbelow
  have hunrolled := result_expandBody_iterations hr hflat hlevel hV hbelow hexpanded
  have hsplit : Piece.split .block (U.flatMap (Piece.withText (r.iterations read ctx))) =
      (blockParts U).flatMap
        (Part.pieces Piece.head (Piece.withText (r.iterations read ctx))) :=
    hU.wellMatched.split_withText_of_ne (by decide) _
  rw [splice, hsplit, Rendering.run_bind, Outcome.result_andThen hwith]
  simp only [hV.steady_withText.read_eq hr]
  rw [Rendering.run_bind, Outcome.result_andThen hunrolled]
  exact hadded

/-- The blocks over a skeleton: the heir's over its mixins' over the skeleton's own. -/
def heirTable (r : Renderer) (ctx : Context) (s : Text) (heir : Heir) (mixed : BlockTable) :
    BlockTable :=
  BlockTable.mergeOver heir.blocks
    (BlockTable.mergeOver mixed (r.extract ctx.directory (r.read s)))

namespace PlainLoops
variable {s : Text} (h : r.PlainLoops read ctx s) (hr : r.options.whitespace = .disabled)
  (hflat : r.ResolvesFlat) {level : ℕ} (hlevel : level ≤ r.options.maxDepth) {content : Text}
include h hr hflat hlevel

/-- A template of its own, or a body. -/
lemma result_expand (hprints : r.PrintsNoBraceBelow read level ctx (r.read s)) {expand : Expansion}
    (hexpand : expand ∈ [r.template (level + 1), r.fragment (level + 1)])
    (hcontent : ((expand ctx s).run read).result = .ok content) :
    ((expand ctx (r.unrolled read ctx s)).run read).result = .ok content := by
  have hfragment (hcontent : ((r.fragment (level + 1) ctx s).run read).result = .ok content) :=
    h.fragment_unrolled hr hflat hlevel hprints hcontent
  rcases List.mem_pair.mp hexpand with rfl | rfl
  · rw [h.template_eq hr] at hcontent
    rw [h.template_unrolled_eq hr]
    exact hfragment hcontent
  · exact hfragment hcontent

/-- The skeleton of an heir, whatever blocks it brings. -/
lemma result_inherit {heir : Heir} {identifier : Text} {mixed : BlockTable}
    (hfetch : ((r.fetch heir.parent heir.directory).run read).result = .ok (identifier, s))
    (hdirectory : ctx.directory = Location.directory identifier)
    (hmixed : ((r.collectMixins heir.directory (mixins heir.symbols) []).run read).result =
      .ok mixed)
    (hfills : r.FillsPlainly read level (r.heirTable ctx s heir mixed) ctx s)
    (hcontent : ((r.inherit (level + 1) ctx.vars heir).run read).result = .ok content) :
    ((r.splice (r.template level) (r.fragment level) (r.fill level)
      (r.extract ctx.directory (r.read s)) (r.heirTable ctx s heir mixed) ctx
      (r.read (r.unrolled read ctx s))).run read).result = .ok content := by
  rw [run_inherit, Outcome.result_andThen hfetch, Outcome.result_behind,
    Outcome.result_andThen hmixed, adopt] at hcontent
  simp only [(Steady.of_isTidy hr h.tidy).parent?_eq_none, ← hdirectory] at hcontent
  refine h.splice_unrolled hr hflat (by rw [topLevel]; omega) hfills (fun c hc => ?_) hcontent
  exact BlockTable.contains_mergeOver _ (BlockTable.contains_mergeOver _
    (BlockTable.contains_extract _ _ hc))

/-- Every loop of a text is its body expanded once for every item with the loop's variable bound to
the item, blocks, inclusions and conditionals included: in a template of its own or a body, in the
skeleton of an heir, whatever blocks it brings, if no block of the skeleton stands inside a loop,
and through an heir that leaves all blocks to such a skeleton. -/
theorem result_unrolled :
    (∀ content, r.PrintsNoBraceBelow read level ctx (r.read s) →
      ∀ expand ∈ [r.template (level + 1), r.fragment (level + 1)],
        ((expand ctx s).run read).result = .ok content →
        ((expand ctx (r.unrolled read ctx s)).run read).result = .ok content) ∧
    (∀ heir identifier mixed content,
      ((r.fetch heir.parent heir.directory).run read).result = .ok (identifier, s) →
      ctx.directory = Location.directory identifier →
      ((r.collectMixins heir.directory (mixins heir.symbols) []).run read).result = .ok mixed →
      r.FillsPlainly read level (r.heirTable ctx s heir mixed) ctx s →
      ((r.inherit (level + 1) ctx.vars heir).run read).result = .ok content →
      ((r.splice (r.template level) (r.fragment level) (r.fill level)
        (r.extract ctx.directory (r.read s)) (r.heirTable ctx s heir mixed) ctx
        (r.read (r.unrolled read ctx s))).run read).result = .ok content) ∧
    ∀ child reference written identifier content,
      r.read child = [.tag (.inherit reference) written] →
      ((r.fetch reference r.baseDirectory).run read).result = .ok (identifier, s) →
      ctx.directory = Location.directory identifier → r.PlainSkeleton read ctx s →
      ((r.template (level + 1) ctx s).run read).result = .ok content →
      Gives read [cutOff r.options.maxDepth] (r.renderText child ctx.vars none) content := by
  refine ⟨fun content hprints expand hexpand hcontent =>
      h.result_expand hr hflat hlevel hprints hexpand hcontent,
    fun heir identifier mixed content hfetch hdirectory hmixed hfills hcontent =>
      h.result_inherit hr hflat hlevel hfetch hdirectory hmixed hfills hcontent,
    fun child reference written identifier content hchild hfetch hdirectory hskeleton hcontent =>
      ?_⟩
  have hlevels := levelsRelated_self hflat read (n := r.topLevel)
    (show level + 1 ≤ r.topLevel by rw [topLevel]; omega)
  have htop := (hlevels.template ctx s).result_eq_ok hcontent
  rw [renderText, topLevel, template, hchild]
  exact hskeleton.gives_inherit hr hflat rfl rfl hfetch hdirectory htop rfl

end PlainLoops

end Renderer

/-- Two pages with an inclusion in a branch inside a loop. Beside them stands a block, outside the
loop of the first page and inside the loop of the second one. -/
def album : Store := .ofList
  [("album.yapl".toList,
      "{% block head %}[{{ title }}]{% endblock %}{% for x in xs %}{% if x %}".toList ++
      writeTag .control "include \"leaf\"".toList ++ "{% endif %}{% endfor %}".toList),
    ("loose.yapl".toList,
      "{% for x in xs %}{% block b %}{{ x }}{% endblock %}{% if x %}".toList ++
      writeTag .control "include \"leaf\"".toList ++ "{% endif %}{% endfor %}".toList),
    ("leaf.yapl".toList, "({{ x }})".toList)]

def albumFields : Fields :=
  [("title".toList, .string "T".toList), ("x".toList, .string "o".toList),
    ("xs".toList, .array [.string "a".toList, .string "b".toList])]

theorem Renderer.PlainLoops.result_album :
    let r := Renderer.inMemory { whitespace := .disabled }
    let ctx : Context := ⟨albumFields, []⟩
    let page := (album.get? "album.yapl".toList).getD []
    let loose := (album.get? "loose.yapl".toList).getD []
    let own := r.read (writeTag .control "extends \"album\"".toList ++
      "{% block head %}<{{ title }}>{% endblock %}".toList)
    let heir : Heir := ⟨own, [], r.extract [] own, "album".toList⟩
    ((r.template r.topLevel ctx (r.unrolled album.read ctx loose)).run album.read).result =
        .ok "a(a)b(b)".toList ∧
      ((r.splice (r.template 19) (r.fragment 19) (r.fill 19) (r.extract [] (r.read page))
        (r.heirTable ctx page heir []) ctx (r.read (r.unrolled album.read ctx page))).run
          album.read).result = .ok "<T>(a)(b)".toList ∧
      ((r.renderText (writeTag .control "extends \"album\"".toList) albumFields none).run
        album.read).result = .ok "[T](a)(b)".toList := by
  intro r ctx page loose own heir
  have hflat : r.ResolvesFlat := resolvesFlat_inMemory _ _
  have hloose : r.PlainLoops album.read ctx loose := ⟨by decide +kernel, by decide +kernel⟩
  have hpage : r.PlainLoops album.read ctx page := ⟨by decide +kernel, by decide +kernel⟩
  have hfills : r.FillsPlainly album.read 19 (r.heirTable ctx page heir []) ctx page :=
    ⟨by decide +kernel, by decide +kernel, by decide +kernel⟩
  have hskeleton : r.PlainSkeleton album.read ctx page :=
    ⟨by decide +kernel, by decide +kernel, by decide +kernel, by decide +kernel,
      by decide +kernel⟩
  have hmixins : mixins own = [] := by decide +kernel
  have htop : 20 ≤ r.options.maxDepth := by decide
  have hbelow : 19 ≤ r.options.maxDepth := by decide
  refine ⟨?_, ?_, ?_⟩
  · exact (hloose.result_unrolled rfl hflat htop).1 _ (by decide +kernel) _ List.mem_cons_self
      (by decide +kernel)
  · exact (hpage.result_unrolled rfl hflat hbelow).2.1 heir "album.yapl".toList [] _
      (by decide +kernel) rfl (by rw [hmixins]; rfl) hfills (by decide +kernel)
  · have hgives := (hpage.result_unrolled rfl hflat htop).2.2
      (writeTag .control "extends \"album\"".toList) "album".toList
      (writeTag .control "extends \"album\"".toList) "album.yapl".toList "[T](a)(b)".toList
      (by decide +kernel) (by decide +kernel) rfl hskeleton (by decide +kernel)
    exact hgives.resolve_left (by decide +kernel)

/-- A block inside a loop takes the variable that is bound around the loop, in every iteration. -/
theorem render_outerBinding :
    let store : Store := .ofList
      [("p.yapl".toList, "{% for x in xs %}{% block b %}{{ x }}{% endblock %}{% endfor %}".toList)]
    store.renderFile "p".toList albumFields = .ok ⟨"ab".toList, ["p.yapl".toList]⟩ ∧
      store.render (writeTag .control "extends \"p\"".toList) albumFields =
        .ok ⟨"oo".toList, ["p.yapl".toList]⟩ := by
  constructor <;> decide +kernel

end Stencil
