import Stencil.Proofs.Congruence
import Stencil.Proofs.Merging
import Stencil.Proofs.Override

/-! Blocks that change their directory. Tables of the same bodies, whose directories give every
reference the same meaning, render alike. So an override that consists of `super()` alone, which
takes the body into the directory of the heir, changes nothing if the references mean there what
they mean where the body was written. -/
namespace Stencil

/-- The block in another directory. -/
def Block.moved (move : Text → Text) (block : Block) : Block :=
  { block with directory := move block.directory }

namespace BlockTable
variable (move : Text → Text)

def moved (table : BlockTable) : BlockTable :=
  table.map fun entry => (entry.1, entry.2.moved move)

lemma moved_append (t u : BlockTable) : moved move (t ++ u) = t.moved move ++ u.moved move :=
  List.map_append

lemma get?_moved (table : BlockTable) (name : Text) :
    (table.moved move).get? name = (table.get? name).map (Block.moved move) :=
  Entries.get?_map (fun _ => Block.moved move) table name

lemma contains_moved (table : BlockTable) (name : Text) :
    (table.moved move).contains name = table.contains name := by
  rw [Entries.contains, get?_moved, Option.isSome_map, Entries.contains]

lemma insert_moved (table : BlockTable) (name : Text) (block : Block) :
    moved move (table.insert name block) = (table.moved move).insert name (block.moved move) := by
  induction table with
  | nil => rfl
  | cons entry table ih =>
    obtain ⟨key, other⟩ := entry
    rw [Entries.insert]
    split
    · rename_i hkey
      rw [moved, moved, List.map_cons, List.map_cons, Entries.insert, if_pos hkey]
    · rename_i hkey
      rw [moved, List.map_cons, ← moved, ih, moved, moved, List.map_cons, Entries.insert,
        if_neg hkey]

lemma extract_moved (dedents : Bool) (directory : Text) (l : List Symbol) :
    moved move (extract dedents directory l) = extract dedents (move directory) l := by
  rw [extract_eq, extract_eq]
  refine (List.foldl_hom (moved move) fun table c => ?_).symm
  rw [declare, declare]
  split
  · exact (insert_moved move table _ (blockOf dedents directory c)).symm
  · rfl

lemma mergeOver_moved (heir base : BlockTable) :
    mergeOver (heir.moved move) (base.moved move) = (mergeOver heir base).moved move := by
  have hcontains : (fun entry : Text × Block => !base.contains entry.1) =
      fun entry => !(base.moved move).contains entry.1 := by
    funext entry
    rw [contains_moved]
  rw [mergeOver_eq, mergeOver_eq, moved, moved, moved, List.map_append, List.map_map, List.map_map,
    List.map_map, List.filter_map, List.map_map, hcontains]
  congr 1
  refine List.map_congr_left fun entry _ => ?_
  have := get?_moved move heir entry.1
  dsimp only [Function.comp, laidOver]
  rw [moved] at this
  rw [this]
  cases heir.get? entry.1 <;> rfl

/-- Over a block of its name an override that is `super()` alone moves the block. -/
lemma moved_mergeOver_super {t u base : BlockTable} {name directory : Text}
    (hheir : Entries.contains (t ++ u) name = false) (hbase : base.contains name = true)
    (hmove : ∀ block, (name, block) ∈ base → move block.directory = move directory) :
    (mergeOver (t ++ (name, ⟨superBody true, directory⟩) :: u) base).moved move =
      (mergeOver (t ++ u) base).moved move := by
  have hnew : Entries.contains (t.moved move ++ u.moved move) name = false := by
    rw [← moved_append, contains_moved]
    exact hheir
  have hmoved := mergeOver_super hnew ((contains_moved move base name).trans hbase)
    fun block hblock => by
      obtain ⟨entry, hentry, heq⟩ := List.mem_map.mp hblock
      cases heq
      exact hmove _ hentry
  rw [← mergeOver_moved, ← mergeOver_moved, moved_append, moved_append]
  exact hmoved

end BlockTable

namespace Renderer
open Rendering (Outcome)

/-- Every reference means the same in both directories. -/
def SameReferences (r : Renderer) (directory directory' : Text) : Prop :=
  ∀ reference, r.resolve reference directory = r.resolve reference directory'

/-- Directories that are moved to one place give every reference the same meaning. -/
def Merges (r : Renderer) (move : Text → Text) : Prop :=
  ∀ directory directory', move directory = move directory' → r.SameReferences directory directory'

variable {r : Renderer} {move : Text → Text} (h : r.Merges move) {d d' : Text}
  (hd : move d = move d')

section
include h hd

/-- A text is expanded alike in both directories if its fragments are. -/
lemma expandBody_of_move_eq {template fragment : Expansion}
    (hfragment : ∀ vars s, fragment ⟨vars, d⟩ s = fragment ⟨vars, d'⟩ s) (vars : Fields)
    (symbols : List Symbol) :
    r.expandBody template fragment ⟨vars, d⟩ symbols =
      r.expandBody template fragment ⟨vars, d'⟩ symbols := by
  have hinsert : r.expandInsert template ⟨vars, d⟩ = r.expandInsert template ⟨vars, d'⟩ := by
    funext y
    unfold expandInsert
    split
    · rw [fetch_of_resolve_eq (h d d' hd _)]
    · rfl
  have hblock : (fun c : Construct => fragment ⟨vars, d⟩ (r.body c.body)) =
      fun c => fragment ⟨vars, d'⟩ (r.body c.body) := by
    funext c
    exact hfragment vars _
  have hconditional : r.expandConditional fragment ⟨vars, d⟩ =
      r.expandConditional fragment ⟨vars, d'⟩ := by
    funext c
    rw [expandConditional, expandConditional]
    dsimp only
    split
    · exact hfragment vars _
    · rfl
  have hloop : r.expandLoop fragment ⟨vars, d⟩ = r.expandLoop fragment ⟨vars, d'⟩ := by
    funext c
    unfold expandLoop
    split
    · dsimp only
      simp only [hfragment]
    · rfl
  have hpasses symbols : r.expandInserts template ⟨vars, d⟩ symbols =
      r.expandInserts template ⟨vars, d'⟩ symbols := by
    rw [expandInserts, expandInserts, hinsert]
  rw [Renderer.expandBody_eq, Renderer.expandBody_eq, hpasses]
  congr 1
  funext symbols
  rw [expandBlocks, expandBlocks, hblock]
  congr 1
  funext symbols
  rw [finish, finish, expandConditionals, expandConditionals, hconditional]
  congr 1
  funext symbols
  rw [expandLoops, expandLoops, hloop]

end

/-- Everything that is rendered on a level is rendered alike in directories that are moved to one
place, with tables that are alike when their blocks are moved. -/
structure Unmoved (r : Renderer) (move : Text → Text) (level : ℕ) : Prop where
  template : ∀ {d d'}, move d = move d' → ∀ vars s,
    r.template level ⟨vars, d⟩ s = r.template level ⟨vars, d'⟩ s
  fragment : ∀ {d d'}, move d = move d' → ∀ vars s,
    r.fragment level ⟨vars, d⟩ s = r.fragment level ⟨vars, d'⟩ s
  inherit : ∀ vars {a b : Heir}, mixins a.symbols = mixins b.symbols → a.parent = b.parent →
    move a.directory = move b.directory → a.blocks.moved move = b.blocks.moved move →
    r.inherit level vars a = r.inherit level vars b
  fill : ∀ {t t' : BlockTable}, t.moved move = t'.moved move → ∀ {d d'}, move d = move d' →
    ∀ vars s, r.fill level t ⟨vars, d⟩ s = r.fill level t' ⟨vars, d'⟩ s

namespace Unmoved
variable {level : ℕ} (hlevel : Unmoved r move level) {t t' : BlockTable}
  (ht : t.moved move = t'.moved move) (vars : Fields)
include hlevel ht

lemma renderBlock {block block' : Block} (hblock : block.moved move = block'.moved move) :
    Renderer.renderBlock (r.fill level) (r.fragment level) t vars block =
      Renderer.renderBlock (r.fill level) (r.fragment level) t' vars block' := by
  obtain ⟨body, d⟩ := block
  obtain ⟨body', d'⟩ := block'
  simp only [Block.moved, Block.mk.injEq] at hblock
  obtain ⟨rfl, hd⟩ := hblock
  rw [Renderer.renderBlock, Renderer.renderBlock, hlevel.fill ht hd]
  simp only [hlevel.fragment hd]

lemma fillPieces (hd : move d = move d') (pieces : List Piece) :
    r.fillPieces (r.fill level) (r.fragment level) t ⟨vars, d⟩ pieces =
      r.fillPieces (r.fill level) (r.fragment level) t' ⟨vars, d'⟩ pieces := by
  induction pieces with
  | nil => rfl
  | cons piece rest ih =>
    cases piece with
    | single y => rw [Renderer.fillPieces, Renderer.fillPieces, ih]
    | construct c =>
      have hget := BlockTable.get?_moved move t (blockName c)
      rw [ht, BlockTable.get?_moved] at hget
      have hblock : ((t.get? (blockName c)).getD ⟨r.body c.body, d⟩).moved move =
          ((t'.get? (blockName c)).getD ⟨r.body c.body, d'⟩).moved move := by
        cases hfound : t.get? (blockName c) with
        | none =>
          rw [hfound, Option.map_none, Option.map_eq_none_iff] at hget
          rw [hget, Option.getD_none, Option.getD_none, Block.moved, Block.moved, hd]
        | some block =>
          rw [hfound, Option.map_some] at hget
          obtain ⟨block', hfound', heq⟩ := Option.map_eq_some_iff.mp hget
          rw [hfound', Option.getD_some, Option.getD_some, heq]
      have hhere := hlevel.renderBlock ht vars hblock
      rw [Renderer.fillPieces, Renderer.fillPieces, ih]
      exact congrArg (· >>= _) hhere

lemma additions (skeleton : BlockTable) {entries entries' : BlockTable}
    (hentries : entries.moved move = entries'.moved move) (declared : List Text) :
    Renderer.additions (r.fill level) (r.fragment level) skeleton t vars declared entries =
      Renderer.additions (r.fill level) (r.fragment level) skeleton t' vars declared entries' := by
  induction entries generalizing entries' declared with
  | nil =>
    cases entries' with
    | nil => rfl
    | cons entry' entries' => cases hentries
  | cons entry entries ih =>
    cases entries' with
    | nil => cases hentries
    | cons entry' entries' =>
      obtain ⟨name, block⟩ := entry
      obtain ⟨name', block'⟩ := entry'
      simp only [BlockTable.moved, List.map_cons, List.cons.injEq, Prod.mk.injEq] at hentries
      obtain ⟨⟨rfl, hblock⟩, hrest⟩ := hentries
      rw [Renderer.additions, Renderer.additions, hlevel.renderBlock ht vars hblock, ih hrest]
      simp only [ih hrest]

lemma splice (skeleton : BlockTable) (d : Text) (symbols : List Symbol) :
    r.splice (r.template level) (r.fragment level) (r.fill level) skeleton t ⟨vars, d⟩ symbols =
      r.splice (r.template level) (r.fragment level) (r.fill level) skeleton t' ⟨vars, d⟩
        symbols := by
  rw [Renderer.splice, Renderer.splice, hlevel.fillPieces ht vars rfl]
  simp only [hlevel.additions ht vars skeleton ht]

omit ht in
/-- Heirs whose blocks, laid over the same base, differ by a move. -/
lemma adopt {a b : Heir} {mixed : BlockTable} {directory source : Text}
    (hmerged : (BlockTable.mergeOver a.blocks (BlockTable.mergeOver mixed
        (r.extract directory (r.read source)))).moved move =
      (BlockTable.mergeOver b.blocks (BlockTable.mergeOver mixed
        (r.extract directory (r.read source)))).moved move) :
    r.adopt level vars a mixed directory source = r.adopt level vars b mixed directory source := by
  unfold Renderer.adopt
  dsimp only
  split
  · exact hlevel.inherit vars rfl rfl rfl hmerged
  · exact hlevel.splice hmerged vars _ _ _

end Unmoved

include h in
/-- On every level a move makes no difference. -/
theorem unmoved (level : ℕ) : Unmoved r move level := by
  induction level with
  | zero => exact ⟨fun _ _ _ => rfl, fun _ _ _ => rfl, fun _ _ _ _ _ _ _ => rfl,
      fun _ _ _ _ _ _ => rfl⟩
  | succ level ih =>
    refine ⟨fun {d d'} hd vars s => ?_, fun {d d'} hd vars s => ?_,
      fun vars {a b} hmixins hparent hd hblocks => ?_, fun {t t'} ht {d d'} hd vars s => ?_⟩
    · rw [template, template]
      dsimp only
      split
      · refine ih.inherit vars rfl rfl hd ?_
        rw [extract, extract, BlockTable.extract_moved, BlockTable.extract_moved, hd]
      · exact expandBody_of_move_eq h hd (ih.fragment hd) vars _
    · rw [fragment, fragment]
      exact expandBody_of_move_eq h hd (ih.fragment hd) vars _
    · rw [inherit, inherit, hparent, hmixins, fetch_of_resolve_eq (h _ _ hd _)]
      congr 1
      funext found
      refine congrArg (Rendering.use found.1 >>= ·) (funext fun _ => ?_)
      dsimp only
      rw [collectMixins_of_resolve_eq fun reference _ => h _ _ hd reference]
      congr 1
      funext mixed
      refine ih.adopt vars ?_
      rw [← BlockTable.mergeOver_moved, hblocks, BlockTable.mergeOver_moved]
    · rw [fill, fill]
      exact ih.fillPieces ht vars hd _

open Classical in
/-- Moves to one directory whatever gives every reference the meaning that it has there. -/
noncomputable def gather (r : Renderer) (home directory : Text) : Text :=
  if r.SameReferences directory home then home else directory

lemma merges_gather (r : Renderer) (home : Text) : r.Merges (r.gather home) := by
  intro d d' hd reference
  unfold gather at hd
  split at hd <;> rename_i hsame <;> split at hd <;> rename_i hsame'
  · rw [hsame reference, hsame' reference]
  · rw [hsame reference, hd]
  · rw [hsame' reference, hd]
  · rw [hd]

lemma gather_eq {home directory : Text} (h : r.SameReferences directory home) :
    r.gather home directory = home := if_pos h

/-- Without blocks of its own a child renders alike in all directories in which the references of
its `extends` and `mixin` tags mean the same. -/
lemma run_renderText_blockless (read : Text → Except Text Text) {parent source : Text}
    {directory other : Option Text} (hparent : parent? (r.read source) = some parent)
    (hblocks : r.extract (directory.getD r.baseDirectory) (r.read source) = [])
    (hreferences : ∀ reference ∈ parent :: mixins (r.read source),
      r.resolve reference (other.getD r.baseDirectory) =
        r.resolve reference (directory.getD r.baseDirectory)) (vars : Fields) :
    (r.renderText source vars other).run read = (r.renderText source vars directory).run read := by
  have hother : r.extract (other.getD r.baseDirectory) (r.read source) = [] := by
    have := BlockTable.extract_moved (fun _ => other.getD r.baseDirectory)
      r.options.whitespace.dedentBlocks (directory.getD r.baseDirectory) (r.read source)
    rw [← Renderer.extract, hblocks] at this
    exact this.symm
  rw [renderText, renderText, topLevel, template, template]
  simp only [hparent, hblocks, hother]
  cases r.options.maxDepth with
  | zero => rfl
  | succ level => exact run_inherit_of_adopt level vars rfl rfl hreferences fun _ _ _ _ => rfl

/-- An override that is `super()` alone takes a body into the directory of the heir. It makes no
difference if every reference means there what it means in the directory of the body. -/
lemma run_renderText_superOnly (read : Text → Except Text Text) {name parent : Text}
    {earlier : List Construct} {source amended : Text} {vars : Fields} {directory : Option Text}
    (hamended : Adds r name true earlier source amended)
    (hparent : parent? (r.read source) = some parent)
    (hnew : (r.extract (directory.getD r.baseDirectory) (r.read source)).contains name = false)
    (hbase : ∀ base, ((r.base (directory.getD r.baseDirectory) parent
      (mixins (r.read source))).run read).result = .ok base → base.contains name = true ∧
        ∀ block, (name, block) ∈ base →
          r.SameReferences block.directory (directory.getD r.baseDirectory)) :
    (r.renderText amended vars directory).run read =
      (r.renderText source vars directory).run read := by
  generalize hhome : directory.getD r.baseDirectory = home at *
  obtain ⟨later, hsource, hblocks⟩ := hamended.blocks_eq
  have hamendedParent := hamended.parent_eq.trans hparent
  rw [extract, BlockTable.extract_eq, hsource] at hnew
  obtain ⟨t, u, htable, hall⟩ := BlockTable.exists_extract _ _ hnew
  rw [htable] at hnew
  rw [renderText, renderText, topLevel, template, template, hhome]
  simp only [hamendedParent, hparent]
  cases r.options.maxDepth with
  | zero => rfl
  | succ level =>
    refine run_inherit_of_adopt level vars rfl hamended.mixins_eq (fun _ _ => rfl)
      fun mixed from' text hresult => ?_
    obtain ⟨hcontains, hsame⟩ := hbase _ hresult
    refine (unmoved (merges_gather r home) level).adopt vars ?_
    have hown : r.extract home (r.read source) = t ++ u := by
      rw [extract, BlockTable.extract_eq, hsource, htable]
    have hboth : r.extract home (r.read amended) = t ++ (name, ⟨superBody true, home⟩) :: u := by
      rw [extract, BlockTable.extract_eq, hblocks, hall]
    dsimp only
    rw [hown, hboth]
    refine BlockTable.moved_mergeOver_super _ hnew hcontains fun block hblock => ?_
    rw [gather_eq (hsame block hblock), gather_eq fun _ => rfl]

/-- What a child inherits does not depend on the child's directory: without blocks of its own the
child renders alike wherever the references of its `extends` and `mixin` tags mean the same. An
override that is `super()` alone takes the body into the child's directory; it makes no
difference, neither to the content nor to what is loaded, if every reference means there what it
means in the directory of the body, whichever of the parents and mixins wrote it. -/
theorem run_renderText_inherited (read : Text → Except Text Text) {parent source : Text}
    {vars : Fields} {directory : Option Text} (hparent : parent? (r.read source) = some parent) :
    let home := directory.getD r.baseDirectory
    (∀ other : Option Text, r.extract home (r.read source) = [] →
      (∀ reference ∈ parent :: mixins (r.read source),
        r.resolve reference (other.getD r.baseDirectory) = r.resolve reference home) →
      (r.renderText source vars other).run read =
        (r.renderText source vars directory).run read) ∧
    ∀ name earlier amended, Adds r name true earlier source amended →
      (r.extract home (r.read source)).contains name = false →
      (∀ base, ((r.base home parent (mixins (r.read source))).run read).result = .ok base →
        base.contains name = true ∧
          ∀ block, (name, block) ∈ base → r.SameReferences block.directory home) →
      (r.renderText amended vars directory).run read =
        (r.renderText source vars directory).run read := by
  intro home
  constructor
  · intro other hblocks hreferences
    exact run_renderText_blockless read hparent hblocks hreferences vars
  · intro name earlier amended hamended hnew hbase
    exact run_renderText_superOnly read hamended hparent hnew hbase

/-- A house and its annex, each with a sign of its own. -/
def estate : Store := .ofList
  [("house/door.yapl".toList, "{% block sign %}[".toList ++
      writeTag .control "include \"sign\"".toList ++ "]{% endblock %}".toList),
    ("house/sign.yapl".toList, "house".toList),
    ("annex/extra.yapl".toList, "{% block note %}".toList ++
      writeTag .control "include \"sign\"".toList ++ "{% endblock %}".toList),
    ("annex/sign.yapl".toList, "annex".toList)]

/-- A visitor of the house, with an addition from the annex. -/
def visitor : Text := writeTag .control "extends \"door\"".toList ++
  writeTag .control "mixin \"../annex/extra\"".toList

theorem run_estate_inherited :
    (inMemory.renderText visitor [] (some "./house".toList)).run estate.read =
        (inMemory.renderText visitor [] (some "house".toList)).run estate.read ∧
      (inMemory.renderText (writeBlock "sign".toList (superBody true) ++ visitor) []
        (some "house".toList)).run estate.read =
          (inMemory.renderText visitor [] (some "house".toList)).run estate.read := by
  have hparent : parent? (inMemory.read visitor) = some "door".toList := by decide +kernel
  have hbase : ((inMemory.base "house".toList "door".toList (mixins (inMemory.read visitor))).run
      estate.read).result = .ok
        [("sign".toList, ⟨'[' :: writeTag .control "include \"sign\"".toList ++ [']'],
            "house".toList⟩),
          ("note".toList, ⟨writeTag .control "include \"sign\"".toList, "annex".toList⟩)] := by
    decide +kernel
  have hidentifiers : ∀ reference ∈ "door".toList :: mixins (inMemory.read visitor),
      Store.resolve (Location.withExtension reference ".yapl".toList) "./house".toList =
        Store.resolve (Location.withExtension reference ".yapl".toList) "house".toList := by
    decide +kernel
  obtain ⟨hblockless, hsuper⟩ := @run_renderText_inherited inMemory estate.read _ _ []
    (some "house".toList) hparent
  refine ⟨hblockless (some "./house".toList) (by decide +kernel) fun reference hreference =>
    congrArg Rendering.done (hidentifiers reference hreference), ?_⟩
  refine hsuper _ _ _ (adds_writeBlock _ rfl true visitor) (by decide +kernel) fun base hresult => ?_
  rw [Option.getD_some, hbase] at hresult
  obtain rfl := Except.ok.inj hresult
  refine ⟨by decide, fun block hblock reference => ?_⟩
  simp only [List.mem_cons, Prod.mk.injEq, List.not_mem_nil, or_false] at hblock
  rcases hblock with ⟨-, rfl⟩ | ⟨hname, -⟩
  · rfl
  · exact absurd hname (by decide)

/-- Outside of the house the override looks for the sign beside the visitor. -/
theorem render_estate_outside :
    estate.render (writeTag .control "extends \"house/door\"".toList) =
        .ok ⟨"[house]".toList, ["house/door.yapl".toList, "house/sign.yapl".toList]⟩ ∧
      estate.render (writeTag .control "extends \"house/door\"".toList ++
        writeBlock "sign".toList (superBody true)) =
          .error (.loadFailed "sign.yapl".toList Store.missing) := by
  constructor <;> decide +kernel

end Renderer
end Stencil
