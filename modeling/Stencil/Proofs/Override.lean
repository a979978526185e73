import Stencil.Proofs.InMemory
import Stencil.Proofs.LeadingBlock
import Stencil.Proofs.Matching
import Stencil.Proofs.Table

/-! An override that consists of `super()` alone. It changes nothing where the heir's blocks are
laid over a block of its name, and where they are not it is an empty block. -/
namespace Stencil

lemma allConstructs_map_char (p : Pair) (s : Text) (l : List Symbol) :
    allConstructs p (s.map .char ++ l) = allConstructs p l :=
  allConstructs_append_of_forall (by simp) l

/-- The construct of a block in front of a template. -/
def blockConstruct (name : Text) (inherits : Bool) : Construct :=
  ⟨blockSymbol name, superSymbols inherits, endBlockSymbol⟩

lemma allConstructs_blockSymbols (name : Text) (inherits : Bool) (l : List Symbol) :
    allConstructs .block (blockSymbols name inherits ++ l) =
      blockConstruct name inherits :: allConstructs .block l := by
  have hbody : Balanced .block (superSymbols inherits) := by
    cases inherits with
    | false => exact .nil
    | true => exact .single rfl rfl
  have happ : blockSymbols name inherits ++ l =
      blockSymbol name :: (superSymbols inherits ++ endBlockSymbol :: l) := by
    simp [blockSymbols]
  have hrest : allConstructs .block (superSymbols inherits ++ endBlockSymbol :: l) =
      allConstructs .block l := by
    cases inherits <;> rfl
  rw [happ, allConstructs_cons, show Pair.opens .block (blockSymbol name) = true from rfl,
    if_pos rfl, hbody.splitClose?_eq rfl rfl, hrest]
  rfl

namespace BlockTable

section
variable (dedents : Bool) (directory : Text)

lemma contains_declare {table : BlockTable} {name : Text} (h : table.contains name = true)
    (c : Construct) : (declare dedents directory table c).contains name = true := by
  rcases declare_cases dedents directory c with ⟨other, hc⟩ | hc
  · rw [hc, Entries.contains_insert, h, Bool.or_true]
  · rw [hc, h]

lemma contains_foldl {table : BlockTable} {name : Text} (h : table.contains name = true)
    (cs : List Construct) : (cs.foldl (declare dedents directory) table).contains name = true :=
  List.foldlRecOn (motive := fun table : BlockTable => table.contains name = true) cs
    (declare dedents directory) h fun _ h c _ => contains_declare dedents directory h c

/-- A block that is not declared again stays where it is among the others. -/
lemma exists_foldl (name : Text) (cs : List Construct) (t u : BlockTable)
    (h : (cs.foldl (declare dedents directory) (t ++ u)).contains name = false) :
    ∃ t' u', cs.foldl (declare dedents directory) (t ++ u) = t' ++ u' ∧
      ∀ block, cs.foldl (declare dedents directory) (t ++ (name, block) :: u) =
        t' ++ (name, block) :: u' := by
  induction cs generalizing t u with
  | nil => exact ⟨t, u, rfl, fun _ => rfl⟩
  | cons c cs ih =>
    have hnext : (declare dedents directory (t ++ u) c).contains name = false := by
      cases hc : (declare dedents directory (t ++ u) c).contains name with
      | false => rfl
      | true => rw [List.foldl_cons, contains_foldl dedents directory hc] at h; cases h
    have hstep : ∃ t' u', declare dedents directory (t ++ u) c = t' ++ u' ∧
        ∀ block, declare dedents directory (t ++ (name, block) :: u) c =
          t' ++ (name, block) :: u' := by
      rcases declare_cases dedents directory c with ⟨other, hc⟩ | hc
      · generalize blockOf dedents directory c = own at hc
        rw [hc, Entries.contains_insert, Bool.or_eq_false_iff, decide_eq_false_iff_not] at hnext
        have hne : name ≠ other := Ne.symm hnext.1
        simp only [hc, Entries.insert_append]
        split
        · exact ⟨t.insert other own, u, rfl, fun _ => rfl⟩
        · refine ⟨t, u.insert other own, rfl, fun block => ?_⟩
          rw [Entries.insert, if_neg hne]
      · simp only [hc]
        exact ⟨t, u, rfl, fun _ => rfl⟩
    obtain ⟨t', u', heq, hblock⟩ := hstep
    rw [List.foldl_cons, heq] at h
    obtain ⟨t'', u'', hfold, hall⟩ := ih t' u' h
    refine ⟨t'', u'', by rw [List.foldl_cons, heq, hfold], fun block => ?_⟩
    rw [List.foldl_cons, hblock, hall]

lemma blockOf_blockConstruct (name : Text) (inherits : Bool) :
    blockOf dedents directory (blockConstruct name inherits) =
      ⟨superBody inherits, directory⟩ := by
  cases inherits <;> cases dedents <;> rfl

/-- Where a block that is declared among others stands in the table. -/
lemma exists_extract {name : Text} {earlier later : List Construct}
    (h : ((earlier ++ later).foldl (declare dedents directory) []).contains name = false) :
    ∃ t u, (earlier ++ later).foldl (declare dedents directory) [] = t ++ u ∧
      ∀ inherits, (earlier ++ blockConstruct name inherits :: later).foldl
        (declare dedents directory) [] = t ++ (name, ⟨superBody inherits, directory⟩) :: u := by
  rw [List.foldl_append] at h
  have hearlier : (earlier.foldl (declare dedents directory) []).contains name = false := by
    cases hc : (earlier.foldl (declare dedents directory) []).contains name with
    | false => rfl
    | true => rw [contains_foldl dedents directory hc] at h; cases h
  have hinsert (inherits : Bool) :
      declare dedents directory (earlier.foldl (declare dedents directory) [])
        (blockConstruct name inherits) =
      earlier.foldl (declare dedents directory) [] ++ [(name, ⟨superBody inherits, directory⟩)] := by
    rw [← blockOf_blockConstruct dedents directory name inherits]
    have := Entries.insert_append (earlier.foldl (declare dedents directory) []) [] name
      (blockOf dedents directory (blockConstruct name inherits))
    rw [hearlier, List.append_nil] at this
    exact this
  have hfold := exists_foldl dedents directory name later
    (earlier.foldl (declare dedents directory) []) []
  rw [List.append_nil] at hfold
  obtain ⟨t, u, hboth, hall⟩ := hfold h
  refine ⟨t, u, by rw [List.foldl_append, hboth], fun inherits => ?_⟩
  rw [List.foldl_append, List.foldl_cons, hinsert, hall]

end

end BlockTable

lemma inheriting_superBody (directory inherited : Text) :
    Block.inheriting ⟨superBody true, directory⟩ inherited = ⟨inherited, directory⟩ := by
  have h : Scan.symbols (superBody true) = [superSymbol] := by decide
  simp [Block.inheriting, replaceSuper, h, superSymbol, Symbol.replace]

lemma inheriting_nil (inherits : Bool) (directory : Text) :
    Block.inheriting ⟨superBody inherits, directory⟩ [] = ⟨[], directory⟩ := by
  cases inherits with
  | true => exact inheriting_superBody directory []
  | false => simp [Block.inheriting, replaceSuper, superBody, Symbol.replace]

namespace BlockTable

/-- Over a block of its name an override that is `super()` alone makes no difference. -/
lemma mergeOver_super {t u base : BlockTable} {name directory : Text}
    (hheir : Entries.contains (t ++ u) name = false) (hbase : base.contains name = true)
    (hdirectory : ∀ block, (name, block) ∈ base → block.directory = directory) :
    mergeOver (t ++ (name, ⟨superBody true, directory⟩) :: u) base = mergeOver (t ++ u) base := by
  have hnone : Entries.get? (t ++ u) name = none := by simpa [Entries.contains] using hheir
  have ht : Entries.get? t name = none := by
    rw [Entries.get?_append, Option.or_eq_none_iff] at hnone
    exact hnone.1
  unfold mergeOver
  congr 1
  · refine List.map_congr_left fun entry hentry => ?_
    obtain ⟨k, block⟩ := entry
    dsimp only
    by_cases hk : name = k
    · subst hk
      rw [hnone, Entries.get?_append, ht, Entries.get?_cons_self]
      simp only [Option.none_or, inheriting_superBody]
      rw [← hdirectory block hentry]
    · rw [Entries.get?_append, Entries.get?_append, Entries.get?_cons_of_ne hk]
  · rw [List.filter_append, List.filter_append, List.filter_cons, if_neg (by simp [hbase])]

/-- Over no block of its name such an override is empty. -/
lemma mergeOver_empty (t u : BlockTable) {base : BlockTable} {name : Text} (directory : Text)
    (hbase : base.contains name = false) :
    mergeOver (t ++ (name, ⟨superBody true, directory⟩) :: u) base =
      mergeOver (t ++ (name, ⟨superBody false, directory⟩) :: u) base := by
  unfold mergeOver
  congr 1
  · refine List.map_congr_left fun entry hentry => ?_
    obtain ⟨k, block⟩ := entry
    have hk : name ≠ k := by
      rintro rfl
      have := Entries.contains_of_mem hentry
      rw [hbase] at this
      cases this
    dsimp only
    rw [Entries.get?_append, Entries.get?_append, Entries.get?_cons_of_ne hk,
      Entries.get?_cons_of_ne hk]
  · rw [List.filter_append, List.filter_append, List.filter_cons, List.filter_cons,
      if_pos (by simp [hbase]), if_pos (by simp [hbase])]
    simp only [List.map_append, List.map_cons, inheriting_nil]

end BlockTable

namespace Renderer
open Rendering (Outcome)

variable (r : Renderer)

/-- What the blocks of an heir are laid over: the blocks of its mixins over those of its parent. -/
def base (directory parent : Text) (references : List Text) : Rendering BlockTable := do
  let (identifier, source) ← r.fetch parent directory
  let mixed ← r.collectMixins directory references []
  return BlockTable.mergeOver mixed (r.extract (Location.directory identifier) (r.read source))

variable {r} {read : Text → Except Text Text}

/-- Two heirs whose references mean the same render alike if they render alike with every base
that can be there. -/
lemma run_inherit_of_adopt (level : ℕ) (vars : Fields) {a b : Heir}
    (hparent : a.parent = b.parent) (hmixins : mixins a.symbols = mixins b.symbols)
    (hreferences : ∀ reference ∈ b.parent :: mixins b.symbols,
      r.resolve reference a.directory = r.resolve reference b.directory)
    (h : ∀ mixed directory source, ((r.base b.directory b.parent (mixins b.symbols)).run
        read).result = .ok (BlockTable.mergeOver mixed (r.extract directory (r.read source))) →
      r.adopt level vars a mixed directory source = r.adopt level vars b mixed directory source) :
    (r.inherit (level + 1) vars a).run read = (r.inherit (level + 1) vars b).run read := by
  rw [run_inherit, run_inherit, hparent, hmixins,
    fetch_of_resolve_eq (hreferences _ List.mem_cons_self),
    collectMixins_of_resolve_eq fun reference hmem => hreferences _ (List.mem_cons_of_mem _ hmem)]
  refine Outcome.andThen_congr fun found hfound => ?_
  refine congrArg (Outcome.behind [found.1]) (Outcome.andThen_congr fun mixed hmixed => ?_)
  rw [h]
  simp only [base, Rendering.run_bind]
  rw [Outcome.result_andThen hfound, Outcome.result_andThen hmixed]
  rfl

/-- Two heirs of one parent render alike when their blocks lie alike over the base. -/
lemma run_inherit_congr (level : ℕ) (vars : Fields) {a b : Heir}
    (hdirectory : a.directory = b.directory) (hparent : a.parent = b.parent)
    (hmixins : mixins a.symbols = mixins b.symbols)
    (h : ∀ base, ((r.base b.directory b.parent (mixins b.symbols)).run read).result = .ok base →
      BlockTable.mergeOver a.blocks base = BlockTable.mergeOver b.blocks base) :
    (r.inherit level vars a).run read = (r.inherit level vars b).run read := by
  cases level with
  | zero => rfl
  | succ level =>
    refine run_inherit_of_adopt level vars hparent hmixins (fun _ _ => by rw [hdirectory])
      fun mixed directory source hbase => ?_
    rw [adopt, adopt, h _ hbase]

section
variable {directory : Text}

/-- Every reference leads to a template of the same directory. -/
def StaysIn (r : Renderer) (directory : Text) (references : List Text) : Prop :=
  ∀ reference ∈ references, ∀ identifier,
    r.resolve reference directory = .done identifier → Location.directory identifier = directory

lemma directory_of_mem_extract {l : List Symbol} :
    ∀ entry ∈ r.extract directory l, entry.2.directory = directory :=
  BlockTable.forall_mem_extract (P := fun block => block.directory = directory) fun _ _ => rfl

lemma directory_of_mem_base {parent : Text} {references : List Text} {base : BlockTable}
    (hstays : StaysIn r directory (parent :: references))
    (h : ((r.base directory parent references).run read).result = .ok base) :
    ∀ entry ∈ base, entry.2.directory = directory := by
  rw [Renderer.base, Rendering.run_bind] at h
  obtain ⟨⟨identifier, source⟩, hfetch, h⟩ := Outcome.exists_of_result_andThen h
  dsimp only at h
  rw [Rendering.run_bind] at h
  obtain ⟨mixed, hmixed, h⟩ := Outcome.exists_of_result_andThen h
  obtain rfl : _ = base := by simpa using h
  have hstay {reference identifier source : Text} (hreference : reference ∈ parent :: references)
      (hfetch : ((r.fetch reference directory).run read).result = .ok (identifier, source)) :
      Location.directory identifier = directory :=
    hstays reference hreference identifier (fetch_eq_ok hfetch).1
  refine BlockTable.forall_mem_mergeOver (P := fun block => block.directory = directory)
    (fun _ _ hown _ => hown) ?_ ?_
  · refine forall_mem_collectMixins (P := fun block => block.directory = directory) (by simp) ?_
      hmixed
    intro reference hreference identifier source hfetch entry hentry
    rw [directory_of_mem_extract entry hentry]
    exact hstay (List.mem_cons_of_mem _ hreference) hfetch
  · intro entry hentry
    rw [directory_of_mem_extract entry hentry]
    exact hstay List.mem_cons_self hfetch

end

lemma parent?_map_char (s : Text) (l : List Symbol) : parent? (s.map .char ++ l) = parent? l := by
  induction s with
  | nil => rfl
  | cons c s ih => rw [List.map_cons, List.cons_append, parent?, List.findSome?_cons]; exact ih

lemma mixins_map_char (s : Text) (l : List Symbol) : mixins (s.map .char ++ l) = mixins l := by
  induction s with
  | nil => rfl
  | cons c s ih => rw [List.map_cons, List.cons_append, mixins, List.flatMap_cons]; exact ih

lemma parent?_blockSymbols (name : Text) (inherits : Bool) (l : List Symbol) :
    parent? (blockSymbols name inherits ++ l) = parent? l := by
  cases inherits <;> rfl

lemma mixins_blockSymbols (name : Text) (inherits : Bool) (l : List Symbol) :
    mixins (blockSymbols name inherits ++ l) = mixins l := by
  cases inherits <;> rfl

/-- The second template is the first one with a block added behind the blocks `earlier`: it has
the same parent, the same mixins and the same other blocks. -/
structure Adds (r : Renderer) (name : Text) (inherits : Bool) (earlier : List Construct)
    (source amended : Text) : Prop where
  parent_eq : parent? (r.read amended) = parent? (r.read source)
  mixins_eq : mixins (r.read amended) = mixins (r.read source)
  blocks_eq : ∃ later, allConstructs .block (r.read source) = earlier ++ later ∧
    allConstructs .block (r.read amended) = earlier ++ blockConstruct name inherits :: later

/-- A block may always be added in front. -/
lemma adds_writeBlock (name : Text) (hname : Tag.isBlockName name = true) (inherits : Bool)
    (source : Text) :
    Adds r name inherits [] source (writeBlock name (superBody inherits) ++ source) := by
  obtain ⟨lost, kept, l, hsource, hboth⟩ := read_writeBlock hname r inherits source
  refine ⟨?_, ?_, allConstructs .block l, ?_, ?_⟩
  · rw [hboth, hsource, parent?_blockSymbols, parent?_map_char, parent?_map_char]
  · rw [hboth, hsource, mixins_blockSymbols, mixins_map_char, mixins_map_char]
  · rw [hsource, allConstructs_map_char]
    rfl
  · rw [hboth, allConstructs_blockSymbols, allConstructs_map_char]
    rfl

/-- An override that is `super()` alone, added to a child of any line of parents. Where the
child's blocks are laid over a block of that name, the child renders as without it; where they are
not, although a more distant ancestor may declare the name, it renders as with an empty block. -/
theorem run_renderText_super (read : Text → Except Text Text) {name parent : Text}
    {earlier : List Construct} {source amended emptied : Text} {vars : Fields}
    {directory : Option Text} {base : BlockTable}
    (hamended : Adds r name true earlier source amended)
    (hemptied : Adds r name false earlier source emptied)
    (hparent : parent? (r.read source) = some parent)
    (hnew : (r.extract (directory.getD r.baseDirectory) (r.read source)).contains name = false)
    (hstays : StaysIn r (directory.getD r.baseDirectory) (parent :: mixins (r.read source)))
    (hbase : ((r.base (directory.getD r.baseDirectory) parent (mixins (r.read source))).run
      read).result = .ok base) :
    (r.renderText amended vars directory).run read =
      (r.renderText (if base.contains name then source else emptied) vars directory).run read := by
  obtain ⟨later, hsource, hblocks⟩ := hamended.blocks_eq
  obtain ⟨later', hsource', hblocks'⟩ := hemptied.blocks_eq
  obtain rfl : later = later' := List.append_cancel_left (hsource.symm.trans hsource')
  have hamendedParent := hamended.parent_eq.trans hparent
  have hemptiedParent := hemptied.parent_eq.trans hparent
  rw [extract, BlockTable.extract_eq, hsource] at hnew
  obtain ⟨t, u, htable, hall⟩ := BlockTable.exists_extract _ _ hnew
  rw [htable] at hnew
  rw [renderText, renderText, topLevel, template]
  simp only [hamendedParent]
  split
  · rename_i hcontains
    rw [template]
    simp only [hparent]
    refine run_inherit_congr _ vars rfl rfl hamended.mixins_eq fun found hfound => ?_
    dsimp only at hfound ⊢
    rw [hbase] at hfound
    obtain rfl := Except.ok.inj hfound
    rw [extract, extract, BlockTable.extract_eq, BlockTable.extract_eq, hsource, hblocks, htable,
      hall]
    exact BlockTable.mergeOver_super hnew hcontains fun block hblock =>
      directory_of_mem_base hstays hbase _ hblock
  · rename_i hcontains
    rw [template]
    simp only [hemptiedParent]
    refine run_inherit_congr _ vars rfl rfl (hamended.mixins_eq.trans hemptied.mixins_eq.symm)
      fun found hfound => ?_
    dsimp only at hfound ⊢
    rw [hemptied.mixins_eq, hbase] at hfound
    obtain rfl := Except.ok.inj hfound
    rw [extract, extract, BlockTable.extract_eq, BlockTable.extract_eq, hblocks, hblocks', hall,
      hall]
    exact BlockTable.mergeOver_empty t u _ (by simpa using hcontains)

lemma staysIn_inMemory {options : Options} {directory : Text} {references : List Text}
    (h : ∀ reference ∈ references, Location.directory
      (Store.resolve (Location.withExtension reference options.extension) directory) = directory) :
    StaysIn (inMemory options) directory references := by
  intro reference hreference identifier hidentifier
  obtain rfl : Store.resolve _ directory = identifier := by
    simpa [resolve, inMemory, Rendering.ofExcept] using hidentifier
  exact h reference hreference

/-- A book and a chapter that keeps the book's block `n` inside brackets. -/
def chapters : Store := .ofList
  [("book.yapl".toList, "A{% block n %}b{% endblock %}C".toList),
    ("chapter.yapl".toList, writeTag .control "extends \"book\"".toList ++
      "{% block n %}<{{ super() }}>{% endblock %}".toList)]

def section1 : Text := writeTag .control "extends \"chapter\"".toList

theorem run_chapters_super :
    (inMemory.renderText (writeBlock ['n'] (superBody true) ++ section1) [] none).run
        chapters.read = (inMemory.renderText section1 [] none).run chapters.read := by
  have hparent : parent? (inMemory.read section1) = some "chapter".toList := by decide +kernel
  have hnew : (inMemory.extract ((none : Option Text).getD inMemory.baseDirectory)
      (inMemory.read section1)).contains ['n'] = false := by decide +kernel
  have hstays : StaysIn inMemory ((none : Option Text).getD inMemory.baseDirectory)
      ("chapter".toList :: mixins (inMemory.read section1)) := staysIn_inMemory (by decide +kernel)
  have hbase : ((inMemory.base ((none : Option Text).getD inMemory.baseDirectory)
      "chapter".toList (mixins (inMemory.read section1))).run chapters.read).result =
        .ok [(['n'], ⟨"<{{ super() }}>".toList, []⟩)] := by decide +kernel
  rw [run_renderText_super chapters.read (adds_writeBlock ['n'] rfl true section1)
    (adds_writeBlock ['n'] rfl false section1) hparent hnew hstays hbase, if_pos (by decide)]

/-- The same chapter without the block. -/
def bareChapters : Store := .ofList
  [("book.yapl".toList, "A{% block n %}b{% endblock %}C".toList),
    ("chapter.yapl".toList, writeTag .control "extends \"book\"".toList)]

/-- When only the book declares the block, the override empties it. -/
theorem render_bareChapters_super :
    (bareChapters.render section1).map Rendered.content = .ok "AbC".toList ∧
      (bareChapters.render (writeBlock ['n'] (superBody true) ++ section1)).map Rendered.content =
        .ok "AC".toList := by
  constructor <;> decide +kernel

end Renderer
end Stencil
