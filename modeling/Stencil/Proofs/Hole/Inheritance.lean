import Stencil.Proofs.Hole.Expansion

/-! Lines of templates. The blocks of clean templates are clean, and so are blocks laid over
others. Main statement: on every level templates, bodies and filled blocks depend on a value as
lists do. -/
namespace Stencil

open Rendering (Outcome)

section
variable {options : WhitespaceOptions} {Good : Tag → Prop}

/-- The text of symbols of a text has no hole. -/
lemma UniformText.of_symbols {s : Text} {l : List Symbol} (hl : ∀ y ∈ l, Fit options Good y)
    (hs : ∀ y ∈ l, y ∈ Scan.symbols s) : UniformText options Good fun _ => Symbol.textOf l :=
  (of_list hl).congr fun w _ => by
    rw [fillText, fill_of_forall w fun y hy => Scan.ne_hole_of_mem_symbols (hs y hy)]

lemma UniformText.fit_of_mem_symbols {s : Text} (hs : UniformText options Good fun _ => s) :
    ∀ y ∈ Scan.symbols s, Fit options Good y := by
  intro y hy
  obtain ⟨l, hl, hsymbols⟩ := hs.exists_symbols
  rw [hsymbols ['m'] (inert_letter options)] at hy
  obtain ⟨z, hz, hmem⟩ := List.mem_flatMap.mp hy
  split at hmem
  · obtain rfl : y = .char 'm' := by simpa using hmem
    exact fit_char (by decide) (by decide)
  · rw [List.mem_singleton.mp hmem]
    exact hl z hz

lemma UniformText.replaceSuper {s inherited : Text} (hs : UniformText options Good fun _ => s)
    (hinherited : UniformText options Good fun _ => inherited) :
    UniformText options Good fun _ => Stencil.replaceSuper s inherited := by
  obtain ⟨l, hl, hsymbols⟩ := hs.exists_symbols
  have hreplace : UniformText options Good fun w =>
      Symbol.replace (superText inherited) (fill w l) := by
    refine UniformText.replace (F := fun _ => superText inherited) (fun t _ => ?_) hl
    cases t with
    | superCall => exact .inr ⟨_, hinherited, fun _ _ => rfl⟩
    | _ => exact .inl fun _ _ => rfl
  refine hreplace.congr fun w hw => ?_
  rw [replaceSuper_eq, hsymbols w hw]

/-- A block whose body does not change when a clean text is rendered. -/
def CleanBlock (options : WhitespaceOptions) (Good : Tag → Prop) (block : Block) : Prop :=
  UniformText options Good fun _ => block.body

def CleanTable (options : WhitespaceOptions) (Good : Tag → Prop) (table : BlockTable) : Prop :=
  ∀ entry ∈ table, CleanBlock options Good entry.2

lemma CleanTable.mergeOver {heir base : BlockTable} (hheir : CleanTable options Good heir)
    (hbase : CleanTable options Good base) :
    CleanTable options Good (BlockTable.mergeOver heir base) := by
  refine BlockTable.forall_mem_mergeOver (fun own inherited hown hinherited => ?_) hheir hbase
  apply UniformText.replaceSuper hown
  rcases hinherited with rfl | ⟨block, hblock, rfl⟩
  · exact .const (by simp) (by simp)
  · exact hblock

end

lemma body_subset_of_mem_allConstructs {p : Pair} {c : Construct} {l : List Symbol}
    (h : c ∈ allConstructs p l) : ∀ y ∈ c.body, y ∈ l := by
  obtain ⟨before, after, rfl⟩ := exists_append_of_mem_allConstructs h
  intro y hy
  simp [Construct.symbols, hy]

/-- Two parts of a result, of which only the text depends on the value. -/
def UniformFilling (options : WhitespaceOptions) (Good : Tag → Prop)
    (a : Text → Text × List Text) : Prop :=
  ∃ f names, UniformText options Good f ∧ a = fun w => (f w, names)

/-- Texts that all depend on the value. -/
def UniformTexts (options : WhitespaceOptions) (Good : Tag → Prop) (a : Text → List Text) : Prop :=
  ∃ fs : List (Text → Text), (∀ f ∈ fs, UniformText options Good f) ∧ a = fun w => fs.map (· w)

lemma UniformText.unlines {options : WhitespaceOptions} {Good : Tag → Prop}
    {fs : List (Text → Text)} (h : ∀ f ∈ fs, UniformText options Good f) :
    UniformText options Good fun w => Text.unlines (fs.map (· w)) := by
  have hnewline : UniformText options Good fun _ => ['\n'] := .const (by decide) (by decide)
  induction fs with
  | nil => exact .const (s := []) (by simp) (by simp)
  | cons f fs ih =>
    have hf := h f List.mem_cons_self
    have hrest := ih fun g hg => h g (List.mem_cons_of_mem f hg)
    cases fs with
    | nil => exact hf.congr fun w _ => by simp [Text.unlines]
    | cons g fs =>
      refine (hf.append (hnewline.append hrest)).congr fun w _ => ?_
      simp [Text.unlines, List.intercalate_cons_cons]

section
variable {r : Renderer} {read : Text → Except Text Text} {x : Text} {Good : Tag → Prop}
  {Scope : Fields → Prop}

lemma cleanTable_extract (directory : Text) {source : Text} (h : Clean r Good source) :
    CleanTable r.options.whitespace Good (r.extract directory (r.read source)) := by
  refine BlockTable.forall_mem_extract (P := CleanBlock r.options.whitespace Good) fun c hc => ?_
  have hsub := body_subset_of_mem_allConstructs hc
  exact (UniformText.of_symbols (fun y hy => h y (hsub y hy)) hsub).dedentIf

lemma cleanTable_collectMixins
    (hread : ∀ identifier source, read identifier = .ok source → Clean r Good source)
    {directory : Text} {references : List Text} {result : BlockTable}
    (h : ((r.collectMixins directory references []).run read).result = .ok result) :
    CleanTable r.options.whitespace Good result :=
  Renderer.forall_mem_collectMixins (P := CleanBlock r.options.whitespace Good) (by simp)
    (fun _ _ identifier source hfetch =>
      cleanTable_extract _ (hread identifier source (Renderer.fetch_eq_ok hfetch).2)) h

/-- A filling of clean blocks, in contexts that depend on a value. -/
def PreservesFilling (r : Renderer) (read : Text → Except Text Text) (x : Text)
    (Good : Tag → Prop) (Scope : Fields → Prop) (filling : Renderer.Filling) : Prop :=
  ∀ V directory table s, UniformFields r.options.whitespace x Scope V →
    CleanTable r.options.whitespace Good table →
    (UniformText r.options.whitespace Good fun _ => s) →
    Uniformly r.options.whitespace (UniformFilling r.options.whitespace Good) fun w =>
      (filling table ⟨V w, directory⟩ s).run read

variable {V : Text → Fields} (hV : UniformFields r.options.whitespace x Scope V)
  {filling : Renderer.Filling} {fragment : Renderer.Expansion}
  (hfill : PreservesFilling r read x Good Scope filling)
  (hF : Preserves r read x Good Scope fragment) {table : BlockTable}
  (htable : CleanTable r.options.whitespace Good table)
include hV hfill hF htable

lemma uniformly_renderBlock {block : Block} (hblock : CleanBlock r.options.whitespace Good block) :
    Uniformly r.options.whitespace (UniformFilling r.options.whitespace Good) fun w =>
      (Renderer.renderBlock filling fragment table (V w) block).run read := by
  have hboth : Uniformly r.options.whitespace (UniformFilling r.options.whitespace Good) fun w =>
      ((filling table ⟨V w, block.directory⟩ block.body).run read).andThen fun filled =>
        ((fragment ⟨V w, block.directory⟩ filled.1).run read).andThen fun text =>
          ⟨[], .ok (text, filled.2)⟩ := by
    refine (hfill V block.directory table block.body hV htable hblock).andThen ?_
    rintro _ ⟨f, names, hf, rfl⟩
    refine (hF V block.directory f hV hf).andThen fun g hg => ?_
    exact .ok ⟨g, names, hg, rfl⟩
  exact hboth.congr fun w _ => Renderer.run_renderBlock filling fragment table (V w) block

/-- Blocks are put alike in their places for all values. -/
lemma uniformly_fillPieces (directory : Text) (pieces : List Piece)
    (h : ∀ y ∈ pieces.flatMap Piece.symbols, Fit r.options.whitespace Good y ∧ y ≠ hole) :
    Uniformly r.options.whitespace (UniformFilling r.options.whitespace Good) fun w =>
      (r.fillPieces filling fragment table ⟨V w, directory⟩ pieces).run read := by
  induction pieces with
  | nil => exact .ok ⟨fun _ => [], [], .const (by simp) (by simp), rfl⟩
  | cons piece rest ih =>
    have hrest := ih fun y hy => h y (List.mem_append_right piece.symbols hy)
    cases piece with
    | single y =>
      have hy := h y List.mem_cons_self
      have hboth : Uniformly r.options.whitespace (UniformFilling r.options.whitespace Good)
          fun w => ((r.fillPieces filling fragment table ⟨V w, directory⟩ rest).run read).andThen
            fun filled => ⟨[], .ok (y.text ++ filled.1, filled.2)⟩ := by
        refine hrest.andThen ?_
        rintro _ ⟨f, names, hf, rfl⟩
        exact .ok ⟨_, names, (UniformText.text hy.1 hy.2).append hf, rfl⟩
      exact hboth.congr fun w _ => Renderer.run_fillPieces_single filling fragment table _ y rest
    | construct c =>
      have hblock : CleanBlock r.options.whitespace Good
          ((table.get? (Renderer.blockName c)).getD ⟨r.body c.body, directory⟩) := by
        cases hget : table.get? (Renderer.blockName c) with
        | some block => exact htable _ (Entries.mem_of_get? hget)
        | none =>
          have hbody : ∀ y ∈ c.body, Fit r.options.whitespace Good y ∧ y ≠ hole := fun y hy =>
            h y (List.mem_append_left _ (by simp [Piece.symbols, Construct.symbols, hy]))
          refine UniformText.dedentIf (f := fun _ => Symbol.textOf c.body) ?_
          refine (UniformText.of_list fun y hy => (hbody y hy).1).congr fun w _ => ?_
          rw [fillText, fill_of_forall w fun y hy => (hbody y hy).2]
      have hboth : Uniformly r.options.whitespace (UniformFilling r.options.whitespace Good)
          fun w => ((Renderer.renderBlock filling fragment table (V w)
            ((table.get? (Renderer.blockName c)).getD
              ⟨r.body c.body, directory⟩)).run read).andThen fun here =>
              ((r.fillPieces filling fragment table ⟨V w, directory⟩ rest).run read).andThen
                fun filled =>
                  ⟨[], .ok (here.1 ++ filled.1, Renderer.blockName c :: here.2 ++ filled.2)⟩ := by
        refine (uniformly_renderBlock hV hfill hF htable hblock).andThen ?_
        rintro _ ⟨f, inner, hf, rfl⟩
        refine hrest.andThen ?_
        rintro _ ⟨g, names, hg, rfl⟩
        exact .ok ⟨_, Renderer.blockName c :: inner ++ names, hf.append hg, rfl⟩
      exact hboth.congr fun w _ => Renderer.run_fillPieces_construct filling fragment table _ c rest

lemma uniformly_additions (skeleton : BlockTable) (declared : List Text) (entries : BlockTable)
    (hentries : CleanTable r.options.whitespace Good entries) :
    Uniformly r.options.whitespace (UniformTexts r.options.whitespace Good) fun w =>
      (Renderer.additions filling fragment skeleton table (V w) declared entries).run read := by
  induction entries generalizing declared with
  | nil => exact .ok ⟨[], by simp, rfl⟩
  | cons entry rest ih =>
    obtain ⟨name, block⟩ := entry
    have hrest (declared : List Text) :=
      ih declared fun other hother => hentries other (List.mem_cons_of_mem _ hother)
    cases hdeclared : skeleton.contains name || declared.contains name with
    | true =>
      refine (hrest declared).congr fun w _ => ?_
      rw [Renderer.additions, if_pos hdeclared]
    | false =>
      have hboth : Uniformly r.options.whitespace (UniformTexts r.options.whitespace Good) fun w =>
          ((Renderer.renderBlock filling fragment table (V w) block).run read).andThen
            fun here =>
              ((Renderer.additions filling fragment skeleton table (V w)
                (name :: here.2 ++ declared) rest).run read).andThen fun later =>
                  ⟨[], .ok (here.1 :: later)⟩ := by
        have hblock : CleanBlock r.options.whitespace Good block :=
          hentries (name, block) List.mem_cons_self
        refine (uniformly_renderBlock hV hfill hF htable hblock).andThen ?_
        rintro _ ⟨f, inner, hf, rfl⟩
        refine (hrest (name :: inner ++ declared)).andThen ?_
        rintro _ ⟨fs, hfs, rfl⟩
        exact .ok ⟨f :: fs, by simpa using ⟨hf, hfs⟩, rfl⟩
      refine hboth.congr fun w _ => ?_
      rw [Renderer.additions, if_neg (by rw [hdeclared]; decide)]
      simp only [Rendering.run_bind]
      rfl

end

section
variable {r : Renderer} {read : Text → Except Text Text} {x : Text} {Good : Tag → Prop}
  {Scope : Fields → Prop} (hG : Insulates x Good Scope)
  (hread : ∀ identifier source, read identifier = .ok source → Clean r Good source)

lemma Clean.uniformText {source : Text} (h : Clean r Good source) :
    UniformText r.options.whitespace Good fun _ => r.preprocess source := by
  have := UniformText.of_symbols h fun y hy => hy
  rwa [Renderer.read, Scan.textOf_symbols] at this

lemma Clean.uniformSymbols {source : Text} (h : Clean r Good source) :
    UniformSymbols r.options.whitespace Good fun _ => r.read source :=
  ⟨_, h.uniformText, fun _ _ => rfl⟩

include hG hread in
lemma uniformly_splice {V : Text → Fields} (hV : UniformFields r.options.whitespace x Scope V)
    {template fragment : Renderer.Expansion} {filling : Renderer.Filling}
    (hT : PreservesClean r read x Good Scope template)
    (hF : Preserves r read x Good Scope fragment)
    (hfill : PreservesFilling r read x Good Scope filling) (skeleton : BlockTable)
    {table : BlockTable} (htable : CleanTable r.options.whitespace Good table) (directory : Text)
    {source : Text} (hsource : Clean r Good source) :
    Uniformly r.options.whitespace (UniformText r.options.whitespace Good) fun w =>
      (r.splice template fragment filling skeleton table ⟨V w, directory⟩
        (r.read source)).run read := by
  have hpieces : ∀ y ∈ (Piece.split .block (r.read source)).flatMap Piece.symbols,
      Fit r.options.whitespace Good y ∧ y ≠ hole := by
    rw [Piece.flatMap_symbols_split]
    exact fun y hy => ⟨hsource y hy, Scan.ne_hole_of_mem_symbols hy⟩
  have hall : Uniformly r.options.whitespace (UniformText r.options.whitespace Good) fun w =>
      ((r.fillPieces filling fragment table ⟨V w, directory⟩
        (Piece.split .block (r.read source))).run read).andThen fun filled =>
      ((r.expandBody template fragment ⟨V w, directory⟩ (r.read filled.1)).run read).andThen
        fun content =>
      ((Renderer.additions filling fragment skeleton table (V w) filled.2 table).run read).andThen
        fun added =>
          ⟨[], .ok (if added.isEmpty then content else content ++ '\n' :: Text.unlines added)⟩ := by
    refine (uniformly_fillPieces hV hfill hF htable directory _ hpieces).andThen ?_
    rintro _ ⟨f, declared, hf, rfl⟩
    have hfilled : UniformSymbols r.options.whitespace Good fun w => r.read (f w) :=
      ⟨_, hf.preprocess rfl, fun _ _ => rfl⟩
    refine (hfilled.expandBody hV hG hread directory hT hF).andThen fun content hcontent => ?_
    refine (uniformly_additions hV hfill hF htable skeleton declared table htable).andThen ?_
    rintro _ ⟨fs, hfs, rfl⟩
    refine .ok ?_
    cases fs with
    | nil => exact hcontent
    | cons g fs =>
      have hnewline : UniformText r.options.whitespace Good fun _ => ['\n'] :=
        .const (by decide) (by decide)
      exact hcontent.append (hnewline.append (.unlines hfs))
  refine hall.congr fun w _ => ?_
  simp only [Renderer.splice, Rendering.run_bind]
  rfl

/-- What is rendered on a level depends on a value as a list does. -/
structure UniformLevel (r : Renderer) (read : Text → Except Text Text) (x : Text)
    (Good : Tag → Prop) (Scope : Fields → Prop) (level : ℕ) : Prop where
  template : PreservesClean r read x Good Scope (r.template level)
  fragment : Preserves r read x Good Scope (r.fragment level)
  inherit : ∀ V heir, UniformFields r.options.whitespace x Scope V →
    CleanTable r.options.whitespace Good heir.blocks →
    Uniformly r.options.whitespace (UniformText r.options.whitespace Good) fun w =>
      (r.inherit level (V w) heir).run read
  fill : PreservesFilling r read x Good Scope (r.fill level)

include hG hread in
lemma UniformLevel.succ {level : ℕ} (ih : UniformLevel r read x Good Scope level) :
    UniformLevel r read x Good Scope (level + 1) where
  template V directory source hV hsource := by
    cases hparent : Renderer.parent? (r.read source) with
    | some parent =>
      refine (ih.inherit V ⟨r.read source, directory, r.extract directory (r.read source), parent⟩
        hV (cleanTable_extract directory hsource)).congr fun w _ => ?_
      rw [Renderer.template]
      simp only [hparent]
    | none =>
      refine (hsource.uniformSymbols.expandBody hV hG hread directory ih.template
        ih.fragment).congr fun w _ => ?_
      rw [Renderer.template]
      simp only [hparent]
  fragment V directory f hV hf := by
    have hfilled : UniformSymbols r.options.whitespace Good fun w => r.read (f w) :=
      ⟨_, hf.preprocess rfl, fun _ _ => rfl⟩
    refine (hfilled.expandBody hV hG hread directory ih.template ih.fragment).congr fun w _ => ?_
    rw [Renderer.fragment]
  inherit V heir hV hheir := by
    have hadopt (directory source : Text) (hsource : Clean r Good source) (mixed : BlockTable)
        (hmixed : CleanTable r.options.whitespace Good mixed) :
        Uniformly r.options.whitespace (UniformText r.options.whitespace Good) fun w =>
          (r.adopt level (V w) heir mixed directory source).run read := by
      have hmerged := hheir.mergeOver (hmixed.mergeOver (cleanTable_extract directory hsource))
      unfold Renderer.adopt
      cases Renderer.parent? (r.read source) with
      | some parent => exact ih.inherit V _ hV hmerged
      | none =>
        exact uniformly_splice hG hread hV ih.template ih.fragment ih.fill _ hmerged _ hsource
    have hall : Uniformly r.options.whitespace (UniformText r.options.whitespace Good) fun w =>
        ((r.fetch heir.parent heir.directory).run read).andThen fun found =>
          (((r.collectMixins heir.directory (Renderer.mixins heir.symbols) []).run read).andThen
            fun mixed =>
              (r.adopt level (V w) heir mixed (Location.directory found.1) found.2).run
                read).behind [found.1] :=
      Uniformly.const_andThen fun found hfetch =>
        (Uniformly.const_andThen fun mixed hmixed =>
          hadopt (Location.directory found.1) found.2
            (hread found.1 found.2 (Renderer.fetch_eq_ok hfetch).2) mixed
            (cleanTable_collectMixins hread hmixed)).behind _
    exact hall.congr fun w _ => Renderer.run_inherit level (V w) heir
  fill V directory table s hV htable hs := by
    refine (uniformly_fillPieces hV ih.fill ih.fragment htable directory
      (Piece.split .block (Scan.symbols s)) ?_).congr fun w _ => ?_
    · rw [Piece.flatMap_symbols_split]
      exact fun y hy => ⟨hs.fit_of_mem_symbols y hy, Scan.ne_hole_of_mem_symbols hy⟩
    · rw [Renderer.fill]

include hG hread in
theorem uniformLevel (level : ℕ) : UniformLevel r read x Good Scope level := by
  induction level with
  | zero =>
    exact ⟨fun _ _ _ _ _ => .error _, fun _ _ _ _ _ => .error _, fun _ _ _ _ => .error _,
      fun _ _ _ _ _ _ _ => .error _⟩
  | succ level ih => exact ih.succ hG hread

end
end Stencil
