import Stencil.Proofs.Flat
import Stencil.Proofs.InMemory

/-! Flat inheritance: a child that lists mixins and extends a skeleton. Each block of the skeleton
is replaced where it stands, and the blocks that the skeleton lacks follow, each on a line of its
own. -/
namespace Stencil
namespace Flat

/-- The body of a name in the last of the files that declares it. -/
def lastBody? (files : List File) (name : Text) : Option Body :=
  files.reverse.findSome? fun file => file.body? name

/-- What the child inherits under a name: the last mixin's body with the skeleton's body in the
place of `super()`, or else the skeleton's body. -/
def inheritedBody (skeleton : File) (mixins : List File) (name : Text) : Text :=
  let own := ((skeleton.body? name).map Body.text).getD []
  ((lastBody? mixins name).map (Body.fill own)).getD own

/-- The child's body with the inherited body in the place of `super()`, or else that body. -/
def effectiveBody (skeleton : File) (mixins : List File) (child : File) (name : Text) : Text :=
  let below := inheritedBody skeleton mixins name
  ((child.body? name).map (Body.fill below)).getD below

/-- The names that the skeleton lacks: the mixins' in the order of their first appearance, and
then those of the child alone. -/
def addedNames (skeleton : File) (mixins : List File) (child : File) : List Text :=
  (mixins.flatMap File.names).eraseDups.filter (fun name => name ∉ skeleton.names) ++
    child.names.filter fun name => name ∉ skeleton.names ∧ name ∉ mixins.flatMap File.names

/-- The segment with the body of its name in the place of a block. -/
def Segment.splice (bodies : Text → Text) : Segment → Text
  | .plain s => s.1
  | .block d => bodies d.name
  | .ancestry .. => []

/-- What a child gives. -/
def content (skeleton : File) (mixins : List File) (child : File) : Text :=
  let bodies := effectiveBody skeleton mixins child
  let added := addedNames skeleton mixins child
  skeleton.flatMap (Segment.splice bodies) ++
    if added.isEmpty then [] else '\n' :: Text.unlines (added.map bodies)

lemma isPlain_getD_fill {body? : Option Body} {below : Text} (h : below.IsPlain) :
    ((body?.map (Body.fill below)).getD below).IsPlain := by
  cases body? with
  | none => exact h
  | some body => exact body.isPlain_fill h

lemma isOwn_of_mem {skeleton : File} (h : skeleton.all Segment.isOwn = true) {d : Declaration}
    (hd : d ∈ skeleton.declarations) : d.body.all Passage.isPlain = true := by
  obtain ⟨segment, hsegment, hd⟩ := List.mem_flatMap.mp hd
  have hown := List.all_eq_true.mp h segment hsegment
  cases segment with
  | block e =>
    obtain rfl := List.mem_singleton.mp hd
    exact hown
  | plain s => cases hd
  | ancestry t ht tag => cases hown

lemma isPlain_effectiveBody {skeleton : File} (h : skeleton.all Segment.isOwn = true)
    (mixins : List File) (child : File) (name : Text) :
    (effectiveBody skeleton mixins child name).IsPlain := by
  have hown : (((skeleton.body? name).map Body.text).getD []).IsPlain := by
    rw [File.body?, Option.map_map]
    cases hd : skeleton.declarations.find? fun d => d.name == name with
    | none => exact .nil
    | some d =>
      have hplain := isOwn_of_mem h (List.mem_of_find?_eq_some hd)
      rw [Option.map_some, Option.getD_some, Function.comp,
        ← Body.fill_of_isPlain hplain []]
      exact d.body.isPlain_fill .nil
  exact isPlain_getD_fill (isPlain_getD_fill hown)

/-- One table laid over another gives the body of the upper one, filled with the body below. -/
lemma getD_body?_mergeOver {heir : BlockTable} {name : Text} {body? : Option Body}
    (h : heir.body? name = body?.map Body.text) (base : BlockTable) :
    ((BlockTable.mergeOver heir base).body? name).getD [] =
      (body?.map (Body.fill ((base.body? name).getD []))).getD ((base.body? name).getD []) := by
  rw [BlockTable.body?_mergeOver, h]
  cases body? with
  | none => rfl
  | some body => simp [Body.replaceSuper_text]

end Flat

namespace Renderer
open Rendering (Outcome)
variable {r : Renderer} {read : Text → Except Text Text}

/-- Filling in leaves characters as they are. -/
lemma fillPieces_chars {filling : Filling} {fragment : Expansion} {table : BlockTable}
    {ctx : Context} {rest : List Piece} {text : Text} {names : List Text}
    (h : r.fillPieces filling fragment table ctx rest = .done (text, names)) (s : Text) :
    r.fillPieces filling fragment table ctx ((s.map Symbol.char).map .single ++ rest) =
      .done (s ++ text, names) := by
  induction s with
  | nil => exact h
  | cons c s ih =>
    rw [List.map_cons, List.map_cons, List.cons_append, fillPieces, ih]
    rfl

section
variable (hr : r.options.whitespace = .disabled) {s : Text} (hs : s.IsPlain)
include hr hs

lemma expandBody_of_isPlain (template fragment : Expansion) (ctx : Context) :
    r.expandBody template fragment ctx (r.read s) = .done s := by
  have hsymbols := hs.reads.symbols_eq
  have hidle : Idle (Scan.symbols s) := by
    rw [hsymbols]
    refine ⟨by simp, fun p => Pair.unclosed_of_allConstructs ?_⟩
    have := allConstructs_append_of_forall (p := p) (l := s.map .char) (by simp) []
    rwa [List.append_nil] at this
  have hread : r.read s = Scan.symbols s := by
    have hcomment := hidle.any_eq_false Tag.isComment_of_isOrdinary
    rw [Renderer.read, preprocess_of_free hr hs.free hcomment]
  rw [hread, expandBody_of_idle hidle, hsymbols, List.flatMap_map]
  exact congrArg Rendering.done (List.flatMap_singleton' s)

lemma fragment_of_isPlain (level : ℕ) (ctx : Context) : r.fragment (level + 1) ctx s = .done s := by
  rw [fragment, expandBody_of_isPlain hr hs]

omit hr in
lemma fill_of_isPlain (level : ℕ) (table : BlockTable) (ctx : Context) :
    r.fill (level + 1) table ctx s = .done (s, []) := by
  have hchars : r.fillPieces (r.fill level) (r.fragment level) table ctx
      ((s.map Symbol.char).map .single ++ []) = .done (s ++ [], []) := fillPieces_chars rfl s
  rw [List.append_nil, List.append_nil] at hchars
  rw [fill, hs.reads.symbols_eq, (Cuts.map_char .block s).split_eq, hchars]

/-- A block of plain text is rendered to its text. -/
lemma renderBlock_of_isPlain (level : ℕ) (table : BlockTable) (vars : Fields) (directory : Text) :
    renderBlock (r.fill (level + 1)) (r.fragment (level + 1)) table vars ⟨s, directory⟩ =
      .done (s, []) := by
  rw [renderBlock, fill_of_isPlain hs]
  change r.fragment (level + 1) _ s >>= _ = _
  rw [fragment_of_isPlain hr hs]
  rfl

end

section
variable {filling : Filling} {fragment : Expansion} {table : BlockTable} {ctx : Context}
  {bodies : Text → Text}

/-- Filling in puts the bodies of the table in the places of the blocks. -/
lemma fillPieces_flat {file : Flat.File} (hown : file.all Flat.Segment.isOwn = true)
    (h : ∀ name ∈ file.names, ∃ block, table.get? name = some block ∧
      renderBlock filling fragment table ctx.vars block = .done (bodies name, [])) :
    r.fillPieces filling fragment table ctx (file.flatMap Flat.Segment.pieces) =
      .done (file.flatMap (Flat.Segment.splice bodies), file.names) := by
  induction file with
  | nil => rfl
  | cons segment file ih =>
    rw [List.all_cons, Bool.and_eq_true] at hown
    have hnames : Flat.File.names (segment :: file) =
        segment.declarations.map Flat.Declaration.name ++ Flat.File.names file := by
      rw [Flat.File.names, Flat.File.declarations, List.flatMap_cons, List.map_append]
      rfl
    rw [hnames] at h
    have hrest := ih hown.2 fun name hname => h name (List.mem_append_right _ hname)
    rw [List.flatMap_cons, List.flatMap_cons, hnames]
    cases segment with
    | ancestry t ht tag => cases hown.1
    | plain s => exact fillPieces_chars hrest s.1
    | block d =>
      obtain ⟨block, hblock, hrender⟩ := h d.name (List.mem_append_left _ List.mem_cons_self)
      change r.fillPieces filling fragment table ctx (.construct d.construct :: _) = _
      rw [fillPieces]
      change renderBlock filling fragment table ctx.vars ((table.get? d.name).getD _) >>= _ = _
      rw [hblock, Option.getD_some, hrender]
      change (r.fillPieces filling fragment table ctx (file.flatMap Flat.Segment.pieces) >>= _) = _
      rw [hrest]
      rfl

/-- Of distinct blocks exactly those are added that the skeleton lacks. -/
lemma additions_flat {skeleton : BlockTable} {declared : List Text} {entries : BlockTable}
    (hkeys : entries.keys.Nodup)
    (hdeclared : ∀ name ∈ declared, name ∈ entries.keys → skeleton.contains name = true)
    (h : ∀ entry ∈ entries,
      renderBlock filling fragment table ctx.vars entry.2 = .done (bodies entry.1, [])) :
    additions filling fragment skeleton table ctx.vars declared entries =
      .done ((entries.keys.filter fun name => !skeleton.contains name).map bodies) := by
  induction entries generalizing declared with
  | nil => rfl
  | cons entry entries ih =>
    obtain ⟨name, block⟩ := entry
    obtain ⟨hname, hrest⟩ := List.nodup_cons.mp hkeys
    have hlater e (he : e ∈ entries) := h e (List.mem_cons_of_mem _ he)
    change additions filling fragment skeleton table ctx.vars declared ((name, block) :: entries) =
      .done (((name :: Entries.keys entries).filter fun name => !skeleton.contains name).map bodies)
    rw [additions]
    by_cases hskeleton : skeleton.contains name = true
    · rw [hskeleton, Bool.true_or, if_pos rfl, List.filter_cons_of_neg (by simp [hskeleton])]
      exact ih hrest (fun n hn hmem => hdeclared n hn (List.mem_cons_of_mem _ hmem)) hlater
    · have hnew : declared.contains name = false := by
        by_contra hmem
        exact hskeleton (hdeclared name (by simpa using hmem) List.mem_cons_self)
      rw [hnew, Bool.or_false, if_neg hskeleton, List.filter_cons_of_pos (by simpa using hskeleton)]
      change renderBlock filling fragment table ctx.vars block >>= _ = _
      rw [h _ List.mem_cons_self]
      change additions filling fragment skeleton table ctx.vars (name :: [] ++ declared) entries >>=
        _ = _
      rw [ih hrest (fun n hn hmem => ?_) hlater]
      · rfl
      · rcases List.mem_cons.mp hn with rfl | hn
        · exact absurd hmem hname
        · exact hdeclared n hn (List.mem_cons_of_mem _ hmem)

end
end Renderer

namespace Flat
open Rendering (Outcome)

lemma contains_table (file : File) (directory name : Text) :
    (file.table directory).contains name = decide (name ∈ file.names) := by
  rw [Bool.eq_iff_iff, ← Entries.mem_keys_iff, file.keys_table, decide_eq_true_iff]

section
variable {skeleton child : File} {mixins : List File} {mixed : BlockTable}

/-- The names of a child's table are the skeleton's and then those that are added. -/
lemma keys_merged (hkeys : mixed.keys = (mixins.flatMap File.names).eraseDups)
    (directory directory' : Text) :
    (BlockTable.mergeOver (child.table directory)
      (BlockTable.mergeOver mixed (skeleton.table directory'))).keys =
        skeleton.names ++ addedNames skeleton mixins child := by
  have hbase : (BlockTable.mergeOver mixed (skeleton.table directory')).keys =
      skeleton.names ++ (mixins.flatMap File.names).eraseDups.filter
        (fun name => name ∉ skeleton.names) := by
    rw [BlockTable.keys_mergeOver, skeleton.keys_table, hkeys]
    simp only [contains_table, decide_not]
  have hcontains (name : Text) :
      (BlockTable.mergeOver mixed (skeleton.table directory')).contains name =
        decide (name ∈ skeleton.names ∨ name ∈ mixins.flatMap File.names) := by
    rw [Bool.eq_iff_iff, ← Entries.mem_keys_iff, hbase, List.mem_append, List.mem_filter,
      List.mem_eraseDups, decide_eq_true_iff, decide_eq_true_iff]
    tauto
  rw [BlockTable.keys_mergeOver, hbase, child.keys_table, addedNames, List.append_assoc]
  congr 2
  refine List.filter_congr fun name _ => ?_
  rw [hcontains, ← decide_not, decide_eq_decide, not_or]

lemma body_merged
    (hbody : ∀ name, mixed.body? name = (lastBody? mixins name).map Body.text)
    (directory directory' name : Text) :
    ((BlockTable.mergeOver (child.table directory)
      (BlockTable.mergeOver mixed (skeleton.table directory'))).body? name).getD [] =
        effectiveBody skeleton mixins child name := by
  rw [getD_body?_mergeOver (child.body?_table directory name), getD_body?_mergeOver (hbody name),
    skeleton.body?_table]
  rfl

end

/-- A child, its skeleton and its mixins, all flat and each with distinct names, where they are
looked for: the skeleton behind the child's reference, and the mixins behind the references of its
mixin tags. -/
structure Family (r : Renderer) (read : Text → Except Text Text) (directory : Text)
    (skeleton : File) (mixins : List File) (child : File) : Prop where
  own : skeleton.all Segment.isOwn = true
  skeletonNames : skeleton.names.Nodup
  mixinNames : ∀ mixin ∈ mixins, mixin.names.Nodup
  childNames : child.names.Nodup
  parent : ∃ reference identifier, child.parent? = some reference ∧
    ((r.fetch reference directory).run read).result = .ok (identifier, skeleton.text)
  mixinFiles : List.Forall₂ (fun mixin reference => ∃ identifier,
    ((r.fetch reference directory).run read).result = .ok (identifier, File.text mixin))
    mixins child.mixins

namespace Family
variable {r : Renderer} {read : Text → Except Text Text} {directory : Text} {skeleton child : File}
  {mixins : List File} (h : Family r read directory skeleton mixins child)
include h

lemma parent?_skeleton : skeleton.parent? = none := by
  refine List.findSome?_eq_none_iff.mpr fun segment hsegment => ?_
  have := List.all_eq_true.mp h.own segment hsegment
  cases segment with
  | ancestry t ht tag => cases this
  | plain s => rfl
  | block d => rfl

lemma nodup_keys : (skeleton.names ++ addedNames skeleton mixins child).Nodup := by
  have hmixed : ∀ name ∈ (mixins.flatMap File.names).eraseDups.filter
      (fun name => name ∉ skeleton.names),
      name ∉ skeleton.names ∧ name ∈ mixins.flatMap File.names := by
    intro name hname
    rw [List.mem_filter, List.mem_eraseDups, decide_eq_true_iff] at hname
    exact ⟨hname.2, hname.1⟩
  have hown : ∀ name ∈ child.names.filter fun name => name ∉ skeleton.names ∧
      name ∉ mixins.flatMap File.names,
      name ∉ skeleton.names ∧ name ∉ mixins.flatMap File.names := by
    intro name hname
    rw [List.mem_filter, decide_eq_true_iff] at hname
    exact hname.2
  refine h.skeletonNames.append (((nodup_eraseDups _).filter _).append (h.childNames.filter _) ?_) ?_
  · exact fun name hname hname' => (hown name hname').2 (hmixed name hname).2
  · intro name hname hadded
    rcases List.mem_append.mp hadded with hadded | hadded
    · exact (hmixed name hadded).1 hname
    · exact (hown name hadded).1 hname

/-- Of the names of the merged table those that the skeleton has no place for are the added ones. -/
lemma filter_merged_names (directory' : Text) :
    (skeleton.names ++ addedNames skeleton mixins child).filter (fun name =>
      !(skeleton.table directory').contains name) = addedNames skeleton mixins child := by
  have hskeleton : skeleton.names.filter (fun name =>
      !(skeleton.table directory').contains name) = [] := by
    refine List.filter_eq_nil_iff.mpr fun name hname => ?_
    simpa [contains_table] using hname
  have hadded : (addedNames skeleton mixins child).filter (fun name =>
      !(skeleton.table directory').contains name) = addedNames skeleton mixins child := by
    refine List.filter_eq_self.mpr fun name hname => ?_
    rw [contains_table, ← decide_not, decide_eq_true_iff]
    exact fun hmem => (List.nodup_append.mp h.nodup_keys).2.2 name hmem name hname rfl
  rw [List.filter_append, hskeleton, hadded, List.nil_append]

lemma isPlain_filled :
    Text.IsPlain (skeleton.flatMap (Segment.splice (effectiveBody skeleton mixins child))) := by
  refine .flatMap fun segment _ => ?_
  cases segment with
  | plain s => exact s.2
  | block d => exact isPlain_effectiveBody h.own mixins child d.name
  | ancestry t ht tag => exact .nil

variable (hr : r.options.whitespace = .disabled)
include hr

/-- The mixins' blocks by name. -/
lemma exists_mixed : ∃ mixed, ((r.collectMixins directory child.mixins []).run read).result =
      .ok mixed ∧ mixed.keys = (mixins.flatMap File.names).eraseDups ∧
      ∀ name, BlockTable.body? mixed name = (lastBody? mixins name).map Body.text := by
  have hfiles := ((List.forall₂_and_left _ _).mpr ⟨h.mixinNames, h.mixinFiles⟩).flip
  have hfetch : List.Forall₂ (fun reference mixin => ∃ identifier source,
      ((r.fetch reference directory).run read).result = .ok (identifier, source) ∧
        (r.extract (Location.directory identifier) (r.read source)).keys = File.names mixin ∧
        ∀ name, (r.extract (Location.directory identifier) (r.read source)).body? name =
          (mixin.body? name).map Body.text) child.mixins mixins := by
    refine hfiles.imp fun reference mixin ⟨hnames, identifier, hsource⟩ => ?_
    refine ⟨identifier, File.text mixin, hsource, ?_, fun name => ?_⟩
    · rw [mixin.extract_text hr hnames, mixin.keys_table]
    · rw [mixin.extract_text hr hnames, mixin.body?_table]
  obtain ⟨mixed, hmixed, hkeys, hbody⟩ :=
    Renderer.exists_collectMixins hfetch h.mixinNames [] [] rfl
  refine ⟨mixed, hmixed, hkeys, fun name => ?_⟩
  rw [hbody, lastBody?, List.map_findSome?]
  exact Option.or_none

/-- The skeleton is spliced with the table of the child. -/
lemma splice_eq {table : BlockTable} (level : ℕ) (ctx : Context)
    (hkeys : table.keys = skeleton.names ++ addedNames skeleton mixins child)
    (hbody : ∀ name, (table.body? name).getD [] = effectiveBody skeleton mixins child name) :
    r.splice (r.template (level + 1)) (r.fragment (level + 1)) (r.fill (level + 1))
      (skeleton.table ctx.directory) table ctx skeleton.symbols =
        .done (content skeleton mixins child) := by
  have hnodup : table.keys.Nodup := by
    rw [hkeys]
    exact h.nodup_keys
  have hrender name block (hblock : table.get? name = some block) :
      Renderer.renderBlock (r.fill (level + 1)) (r.fragment (level + 1)) table ctx.vars block =
        .done (effectiveBody skeleton mixins child name, []) := by
    obtain ⟨body, from'⟩ := block
    obtain rfl : body = effectiveBody skeleton mixins child name := by
      rw [← hbody, BlockTable.body?, hblock]
      rfl
    exact Renderer.renderBlock_of_isPlain hr
      (isPlain_effectiveBody h.own mixins child name) level table ctx.vars from'
  have hfill : r.fillPieces (r.fill (level + 1)) (r.fragment (level + 1)) table ctx
      (skeleton.flatMap Segment.pieces) = .done
        (skeleton.flatMap (Segment.splice (effectiveBody skeleton mixins child)), skeleton.names) := by
    refine Renderer.fillPieces_flat h.own fun name hname => ?_
    have hcontains : name ∈ table.keys := by
      rw [hkeys]
      exact List.mem_append_left _ hname
    obtain ⟨block, hblock⟩ := Option.isSome_iff_exists.mp (Entries.mem_keys_iff.mp hcontains)
    exact ⟨block, hblock, hrender name block hblock⟩
  have hskeletonNames : ∀ name ∈ skeleton.names, name ∈ table.keys →
      (skeleton.table ctx.directory).contains name = true := fun name hname _ => by
    simpa [contains_table] using hname
  have hadditions := Renderer.additions_flat hnodup hskeletonNames
    fun entry hentry => hrender entry.1 entry.2 (Entries.get?_of_mem hnodup hentry)
  rw [Renderer.splice, skeleton.split_symbols, hfill, Rendering.done_bind]
  dsimp only
  rw [Renderer.expandBody_of_isPlain hr h.isPlain_filled, Rendering.done_bind, hadditions,
    Rendering.done_bind, hkeys, h.filter_merged_names, content]
  cases addedNames skeleton mixins child with
  | nil => exact congrArg Rendering.done (List.append_nil _).symm
  | cons name names => rfl

end Family

/-- Block by block the skeleton takes the bodies of the child, its mixins and its own, and what it
has no place for is added behind it. -/
theorem result_renderText_family {r : Renderer} {read : Text → Except Text Text}
    {directory : Option Text} {skeleton child : File} {mixins : List File}
    (h : Family r read (directory.getD r.baseDirectory) skeleton mixins child)
    (hr : r.options.whitespace = .disabled) (hdepth : 2 ≤ r.options.maxDepth) (vars : Fields) :
    ((r.renderText child.text vars directory).run read).result =
      .ok (content skeleton mixins child) := by
  obtain ⟨reference, identifier, hparent, hfetch⟩ := h.parent
  obtain ⟨mixed, hmixed, hkeys, hbody⟩ := h.exists_mixed hr
  obtain ⟨level, hlevel⟩ := Nat.exists_eq_add_of_le' hdepth
  have hsymbols := child.read_text hr
  rw [Renderer.renderText, Renderer.topLevel, hlevel, Renderer.template, hsymbols]
  simp only [child.parent?_symbols, hparent]
  rw [Renderer.run_inherit]
  dsimp only
  rw [Outcome.result_andThen hfetch, Outcome.result_behind, child.mixins_symbols,
    Outcome.result_andThen hmixed, Renderer.adopt, ← hsymbols, child.extract_text hr h.childNames]
  dsimp only
  rw [skeleton.extract_text hr h.skeletonNames, skeleton.read_text hr, skeleton.parent?_symbols,
    h.parent?_skeleton]
  dsimp only
  rw [h.splice_eq hr level ⟨vars, Location.directory identifier⟩ (keys_merged hkeys _ _)
    (body_merged hbody _ _), Rendering.run_done]

section
variable (name : Text) (h : Tag.isBlockName name = true) (body : Body)

/-- A block whose tags are written with single spaces. -/
def spacedBlock : Segment :=
  .block ⟨name, .openBlock name h, body, .spaced .control "endblock".toList (by decide) (by decide)
    (by decide)⟩

end

/-- The place of the inherited body, written with single spaces. -/
def spacedSuper : Passage :=
  .inherited (.spaced .value "super()".toList (by decide) (by decide) (by decide))

def frame : File :=
  [.plain ⟨['<'], by decide⟩, spacedBlock ['a'] rfl [.plain ⟨['A'], by decide⟩],
    .plain ⟨['|'], by decide⟩, spacedBlock ['b'] rfl [.plain ⟨['B'], by decide⟩],
    .plain ⟨['>'], by decide⟩]

def firstMixin : File :=
  [spacedBlock ['b'] rfl [.plain ⟨['1'], by decide⟩],
    spacedBlock ['x'] rfl [.plain ⟨['X'], by decide⟩]]

def secondMixin : File :=
  [spacedBlock ['y'] rfl [spacedSuper, .plain ⟨['Y'], by decide⟩],
    spacedBlock ['b'] rfl [.plain ⟨['2'], by decide⟩, spacedSuper]]

def lastChild : File :=
  [.ancestry (.inherit "frame".toList) rfl
      (.spaced .control "extends \"frame\"".toList (by decide) (by decide) (by decide)),
    spacedBlock ['z'] rfl [.plain ⟨['Z'], by decide⟩],
    .ancestry (.mixin ["first".toList, "second".toList]) rfl
      (.spaced .control "mixin \"first\", \"second\"".toList (by decide) (by decide)
        (by decide +kernel)),
    spacedBlock ['x'] rfl [spacedSuper, .plain ⟨['x'], by decide⟩, spacedSuper],
    spacedBlock ['a'] rfl [.plain ⟨['a'], by decide⟩, spacedSuper]]

def household : Store := .ofList
  [("frame.yapl".toList, frame.text), ("first.yapl".toList, firstMixin.text),
    ("second.yapl".toList, secondMixin.text)]

theorem result_renderText_household :
    (((Renderer.inMemory { whitespace := .disabled }).renderText lastChild.text [] none).run
      household.read).result = .ok "<aA|2B>\nXxX\nY\nZ".toList := by
  have hfamily : Family (Renderer.inMemory { whitespace := .disabled }) household.read [] frame
      [firstMixin, secondMixin] lastChild :=
    { own := rfl
      skeletonNames := by decide
      mixinNames := by decide
      childNames := by decide
      parent := ⟨"frame".toList, "frame.yapl".toList, rfl, by decide +kernel⟩
      mixinFiles := .cons ⟨"first.yapl".toList, by decide +kernel⟩
        (.cons ⟨"second.yapl".toList, by decide +kernel⟩ .nil) }
  have hresult := @result_renderText_family _ household.read none _ _ _ hfamily rfl (by decide) []
  rw [hresult]
  decide +kernel

end Flat
end Stencil
