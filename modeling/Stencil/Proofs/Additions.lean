import Stencil.Proofs.InMemory
import Stencil.Proofs.LeadingBlock
import Stencil.Proofs.Merging

/-! Blocks that the topmost template of a line has no place for. They are appended in the order of
the table, unless they have been rendered inside a block before. Main statement: every one of them
is rendered, and none is both appended and rendered inside another block if and only if no appended
block stands in the table in front of an appended block that renders it. -/
namespace Stencil
open Rendering (Outcome)

section Taken
variable {holds : Text → Text → Prop} {skips : Text → Prop} {names : List Text} {name : Text}

open Classical in
/-- Those names of a list that are not skipped and that no name taken before them holds. -/
noncomputable def taken (holds : Text → Text → Prop) :
    (skips : Text → Prop) → List Text → List Text
  | _, [] => []
  | skips, name :: rest =>
    if skips name then taken holds skips rest
    else name :: taken holds (fun later => skips later ∨ holds name later) rest

lemma taken_cons_of_skips {rest : List Text} (h : skips name) :
    taken holds skips (name :: rest) = taken holds skips rest := by
  rw [taken, if_pos h]

lemma taken_cons_of_not {rest : List Text} (h : ¬skips name) : taken holds skips (name :: rest) =
    name :: taken holds (fun later => skips later ∨ holds name later) rest := by
  rw [taken, if_neg h]

lemma taken_sublist (skips : Text → Prop) (names : List Text) :
    (taken holds skips names).Sublist names := by
  induction names generalizing skips with
  | nil => exact .slnil
  | cons first rest ih =>
    by_cases hskips : skips first
    · rw [taken_cons_of_skips hskips]
      exact (ih skips).cons first
    · rw [taken_cons_of_not hskips]
      exact (ih _).cons_cons first

lemma not_skips_of_mem_taken (h : name ∈ taken holds skips names) : ¬skips name := by
  induction names generalizing skips with
  | nil => cases h
  | cons first rest ih =>
    by_cases hskips : skips first
    · rw [taken_cons_of_skips hskips] at h
      exact ih h
    · rw [taken_cons_of_not hskips] at h
      rcases List.mem_cons.mp h with rfl | h
      · exact hskips
      · exact (not_or.mp (ih h)).1

lemma pairwise_taken (skips : Text → Prop) (names : List Text) :
    (taken holds skips names).Pairwise fun earlier later => ¬holds earlier later := by
  induction names generalizing skips with
  | nil => exact .nil
  | cons first rest ih =>
    by_cases hskips : skips first
    · rw [taken_cons_of_skips hskips]
      exact ih skips
    · rw [taken_cons_of_not hskips]
      exact .cons (fun later hlater => (not_or.mp (not_skips_of_mem_taken hlater)).2) (ih _)

/-- No name is left out for nothing. -/
lemma mem_taken_or (h : name ∈ names) : name ∈ taken holds skips names ∨ skips name ∨
    ∃ other ∈ taken holds skips names, holds other name := by
  induction names generalizing skips with
  | nil => cases h
  | cons first rest ih =>
    by_cases hskips : skips first
    · rw [taken_cons_of_skips hskips]
      rcases List.mem_cons.mp h with rfl | h
      · exact .inr (.inl hskips)
      · exact ih h
    · rw [taken_cons_of_not hskips]
      rcases List.mem_cons.mp h with rfl | h
      · exact .inl List.mem_cons_self
      · have hlater := @ih (fun later => skips later ∨ holds first later) h
        rcases hlater with hmem | (hskips | hholds) | ⟨other, hother, hholds⟩
        · exact .inl (List.mem_cons_of_mem first hmem)
        · exact .inr (.inl hskips)
        · exact .inr (.inr ⟨first, List.mem_cons_self, hholds⟩)
        · exact .inr (.inr ⟨other, List.mem_cons_of_mem first hother, hholds⟩)

end Taken

/-- A template above others in a line, and the blocks of the line up to it. -/
structure Ancestor where
  symbols : List Symbol
  directory : Text
  blocks : BlockTable

/-- The ancestor as the heir of a parent of its own. -/
def Ancestor.heir (above : Ancestor) (parent : Text) : Heir :=
  ⟨above.symbols, above.directory, above.blocks, parent⟩

namespace Renderer
variable {r : Renderer} {read : Text → Except Text Text}

/-- The text that is rendered in the place of a block. -/
def blockBody (r : Renderer) (table : BlockTable) (c : Construct) : Text :=
  (table.body? (blockName c)).getD (r.body c.body)

/-- The names of the blocks that are rendered when the blocks of a text are filled in: its own and
those inside what is filled in. -/
inductive Fills (r : Renderer) (table : BlockTable) : List Symbol → Text → Prop
  | own {l : List Symbol} {c : Construct} (hc : .construct c ∈ Piece.split .block l) :
    Fills r table l (blockName c)
  | inside {l : List Symbol} {c : Construct} {name : Text}
    (hc : .construct c ∈ Piece.split .block l)
    (h : Fills r table (Scan.symbols (r.blockBody table c)) name) : Fills r table l name

/-- Whether the table's block of one name renders the block of another. -/
def Holds (r : Renderer) (table : BlockTable) (outer name : Text) : Prop :=
  ∃ body, table.body? outer = some body ∧ r.Fills table (Scan.symbols body) name

lemma fills_iff {table : BlockTable} {l : List Symbol} {name : Text} : r.Fills table l name ↔
    ∃ c, .construct c ∈ Piece.split .block l ∧
      (name = blockName c ∨ r.Fills table (Scan.symbols (r.blockBody table c)) name) := by
  constructor
  · rintro (hc | ⟨hc, h⟩)
    · exact ⟨_, hc, .inl rfl⟩
    · exact ⟨_, hc, .inr h⟩
  · rintro ⟨c, hc, rfl | h⟩
    · exact .own hc
    · exact .inside hc h

/-- The names that a filling tells are those of the blocks it renders. -/
def NamesFilled (r : Renderer) (read : Text → Except Text Text) (filling : Filling) : Prop :=
  ∀ table ctx s text names, ((filling table ctx s).run read).result = .ok (text, names) →
    ∀ name, name ∈ names ↔ r.Fills table (Scan.symbols s) name

section Filling
variable {filling : Filling} {fragment : Expansion} {table : BlockTable} {name text : Text}
  {names : List Text}

lemma NamesFilled.mem_renderBlock (hfill : NamesFilled r read filling) {vars : Fields}
    {block : Block}
    (h : ((renderBlock filling fragment table vars block).run read).result = .ok (text, names)) :
    name ∈ names ↔ r.Fills table (Scan.symbols block.body) name := by
  rw [run_renderBlock] at h
  obtain ⟨⟨filled, inner⟩, hfilled, h⟩ := Outcome.exists_of_result_andThen h
  obtain ⟨content, -, h⟩ := Outcome.exists_of_result_andThen h
  cases h
  exact hfill table _ _ _ _ hfilled name

lemma NamesFilled.mem_fillPieces (hfill : NamesFilled r read filling) {ctx : Context}
    {pieces : List Piece}
    (h : ((r.fillPieces filling fragment table ctx pieces).run read).result = .ok (text, names)) :
    name ∈ names ↔ ∃ c, .construct c ∈ pieces ∧
      (name = blockName c ∨ r.Fills table (Scan.symbols (r.blockBody table c)) name) := by
  induction pieces generalizing text names with
  | nil =>
    cases h
    simp
  | cons piece pieces ih =>
    cases piece with
    | single y =>
      rw [run_fillPieces_single] at h
      obtain ⟨⟨rest, later⟩, hrest, h⟩ := Outcome.exists_of_result_andThen h
      cases h
      simp [ih hrest]
    | construct c =>
      rw [run_fillPieces_construct] at h
      obtain ⟨⟨here, inner⟩, hhere, h⟩ := Outcome.exists_of_result_andThen h
      obtain ⟨⟨rest, later⟩, hrest, h⟩ := Outcome.exists_of_result_andThen h
      cases h
      have hinner : name ∈ inner ↔ _ := hfill.mem_renderBlock hhere
      have hbody : ((table.get? (blockName c)).getD ⟨r.body c.body, ctx.directory⟩).body =
          r.blockBody table c := by
        rw [blockBody, BlockTable.body?]
        cases table.get? (blockName c) <;> rfl
      rw [hbody] at hinner
      simp [ih hrest, hinner, or_assoc]

end Filling

lemma namesFilled_fill (r : Renderer) (read : Text → Except Text Text) (level : ℕ) :
    NamesFilled r read (r.fill level) := by
  induction level with
  | zero =>
    intro table ctx s text names h
    cases h
  | succ level ih =>
    intro table ctx s text names h name
    rw [fill] at h
    rw [ih.mem_fillPieces h, fills_iff]

section Lines
variable {filling : Filling} {fragment : Expansion} {skeleton table : BlockTable} {vars : Fields}

/-- The line that is appended for a name of the table. -/
def RendersBlock (read : Text → Except Text Text) (filling : Filling) (fragment : Expansion)
    (table : BlockTable) (vars : Fields) (name line : Text) : Prop :=
  ∃ block names, table.get? name = some block ∧
    ((renderBlock filling fragment table vars block).run read).result = .ok (line, names)

lemma run_additions_of_not {name : Text} {block : Block} {declared : List Text}
    {rest : Entries Block} (h : ¬(skeleton.contains name = true ∨ name ∈ declared)) :
    (additions filling fragment skeleton table vars declared ((name, block) :: rest)).run read =
      ((renderBlock filling fragment table vars block).run read).andThen fun here =>
        ((additions filling fragment skeleton table vars
          (name :: here.2 ++ declared) rest).run read).andThen
            fun later => ⟨[], .ok (here.1 :: later)⟩ := by
  rw [additions, if_neg (by simpa using h), Rendering.run_bind]
  congr 1
  funext here
  exact Rendering.run_bind read _ _

/-- The appended lines are those of the names that are taken, in their order. -/
lemma forall₂_additions (hfill : NamesFilled r read filling) {entries : Entries Block}
    {declared : List Text} {skips : Text → Prop} {lines : List Text}
    (hkeys : entries.keys.Nodup) (htable : ∀ entry ∈ entries, table.get? entry.1 = some entry.2)
    (hskips : ∀ name ∈ entries.keys,
      (skips name ↔ skeleton.contains name = true ∨ name ∈ declared))
    (h : ((additions filling fragment skeleton table vars declared entries).run read).result =
      .ok lines) :
    List.Forall₂ (RendersBlock read filling fragment table vars)
      (taken (r.Holds table) skips entries.keys) lines := by
  induction entries generalizing declared skips lines with
  | nil =>
    cases h
    exact .nil
  | cons entry rest ih =>
    obtain ⟨name, block⟩ := entry
    obtain ⟨hname, hrest⟩ := List.nodup_cons.mp hkeys
    obtain ⟨hblock, hlater⟩ := List.forall_mem_cons.mp htable
    have hfirst := hskips name List.mem_cons_self
    have hothers later (hmem : later ∈ Entries.keys rest) :=
      hskips later (List.mem_cons_of_mem name hmem)
    change List.Forall₂ _ (taken _ _ (name :: Entries.keys rest)) lines
    by_cases hdeclared : skeleton.contains name = true ∨ name ∈ declared
    · rw [taken_cons_of_skips (hfirst.mpr hdeclared)]
      rw [additions, if_pos (by simpa using hdeclared)] at h
      exact ih hrest hlater hothers h
    · rw [taken_cons_of_not (mt hfirst.mp hdeclared)]
      rw [run_additions_of_not hdeclared] at h
      obtain ⟨⟨line, inner⟩, hline, h⟩ := Outcome.exists_of_result_andThen h
      obtain ⟨lines, hlines, h⟩ := Outcome.exists_of_result_andThen h
      cases h
      -- what is declared from here on is the name itself and what its block holds
      have hholds later : r.Holds table name later ↔ later ∈ inner := by
        rw [hfill.mem_renderBlock hline, Holds, BlockTable.body?, hblock]
        simp
      refine .cons ⟨block, inner, hblock, hline⟩ (ih hrest hlater (fun later hmem => ?_) hlines)
      have hne : later ≠ name := fun heq => hname (heq ▸ hmem)
      simp only [hothers later hmem, hholds, List.mem_append, List.mem_cons, hne, false_or]
      tauto

/-- A newline in front of every line. -/
lemma append_unlines (content : Text) (lines : List Text) :
    (if lines.isEmpty then content else content ++ '\n' :: Text.unlines lines) =
      content ++ lines.flatMap fun line => '\n' :: line := by
  induction lines generalizing content with
  | nil => simp
  | cons line rest ih =>
    cases rest with
    | nil => simp [Text.unlines]
    | cons next rest =>
      have hrest := ih (content ++ '\n' :: line)
      rw [List.isEmpty_cons, if_neg (by decide)] at hrest ⊢
      rw [List.flatMap_cons, ← List.append_assoc, ← hrest]
      simp [Text.unlines, List.intercalate_cons_cons]

end Lines

/-- What an heir finds above it: its parent, with the heir's blocks over those of its mixins and
these over the parent's. -/
inductive Finds (r : Renderer) (read : Text → Except Text Text) (heir : Heir) : Ancestor → Prop
  | intro {identifier source : Text} {mixed : BlockTable}
    (hfetch : ((r.fetch heir.parent heir.directory).run read).result = .ok (identifier, source))
    (hmixed : ((r.collectMixins heir.directory (mixins heir.symbols) []).run read).result =
      .ok mixed) :
    Finds r read heir ⟨r.read source, Location.directory identifier,
      .mergeOver heir.blocks (.mergeOver mixed
        (r.extract (Location.directory identifier) (r.read source)))⟩

/-- The line of an heir up to the template at its top. -/
inductive Ascends (r : Renderer) (read : Text → Except Text Text) : Heir → Ancestor → Prop
  | last {heir : Heir} {top : Ancestor} (h : r.Finds read heir top)
    (hlast : parent? top.symbols = none) : Ascends r read heir top
  | next {heir : Heir} {above top : Ancestor} {parent : Text} (h : r.Finds read heir above)
    (hnext : parent? above.symbols = some parent)
    (hrest : Ascends r read (above.heir parent) top) : Ascends r read heir top

lemma nodup_keys_collectMixins {directory : Text} {references : List Text}
    {table mixed : BlockTable} (htable : table.keys.Nodup)
    (h : ((r.collectMixins directory references table).run read).result = .ok mixed) :
    mixed.keys.Nodup := by
  induction references generalizing table with
  | nil =>
    cases h
    exact htable
  | cons reference rest ih =>
    rw [collectMixins, Rendering.run_bind] at h
    obtain ⟨⟨identifier, source⟩, -, h⟩ := Outcome.exists_of_result_andThen h
    exact ih (Entries.nodup_keys_overlay htable _) h

lemma Finds.nodup_keys {heir : Heir} {above : Ancestor} (h : r.Finds read heir above)
    (hkeys : heir.blocks.keys.Nodup) : above.blocks.keys.Nodup := by
  obtain ⟨-, hmixed⟩ := h
  apply BlockTable.nodup_keys_mergeOver hkeys
  apply BlockTable.nodup_keys_mergeOver
  · have hnil : (Entries.keys ([] : BlockTable)).Nodup := List.nodup_nil
    exact nodup_keys_collectMixins hnil hmixed
  · exact BlockTable.nodup_keys_extract _ _ _

lemma Ascends.nodup_keys {heir : Heir} {top : Ancestor} (h : r.Ascends read heir top)
    (hkeys : heir.blocks.keys.Nodup) : top.blocks.keys.Nodup := by
  induction h with
  | last hfinds hlast => exact hfinds.nodup_keys hkeys
  | next hfinds hnext hrest ih => exact ih (hfinds.nodup_keys hkeys)

/-- The topmost template with the blocks of the line in it, and with what it has no place for. -/
def spliceTop (r : Renderer) (level : ℕ) (vars : Fields) (top : Ancestor) : Rendering Text :=
  r.splice (r.template level) (r.fragment level) (r.fill level)
    (r.extract top.directory top.symbols) top.blocks ⟨vars, top.directory⟩ top.symbols

/-- An heir that is rendered has a line, and its content is that of the template at the top. -/
lemma exists_ascends {level : ℕ} {vars : Fields} {heir : Heir} {content : Text}
    (h : ((r.inherit level vars heir).run read).result = .ok content) :
    ∃ n top, r.Ascends read heir top ∧
      ((r.spliceTop n vars top).run read).result = .ok content := by
  induction level generalizing heir with
  | zero => cases h
  | succ level ih =>
    rw [run_inherit] at h
    obtain ⟨⟨identifier, source⟩, hfetch, h⟩ := Outcome.exists_of_result_andThen h
    obtain ⟨mixed, hmixed, h⟩ := Outcome.exists_of_result_andThen h
    have hfinds := Finds.intro hfetch hmixed
    dsimp only [adopt] at h
    split at h
    · rename_i parent hparent
      obtain ⟨n, top, hascends, hcontent⟩ := ih h
      exact ⟨n, top, .next hfinds hparent hascends, hcontent⟩
    · rename_i hparent
      exact ⟨level, _, .last hfinds hparent, h⟩

/-- The names of the appended blocks: those of the table that the template at the top does not
declare, without the ones that are rendered in it and those that a block appended before
renders. -/
noncomputable def added (r : Renderer) (top : Ancestor) : List Text :=
  taken (r.Holds top.blocks)
    (fun name => (r.extract top.directory top.symbols).contains name = true ∨
      r.Fills top.blocks top.symbols name)
    top.blocks.keys

/-- Whether a block is rendered inside another one, in its place or appended. -/
def IsInside (r : Renderer) (top : Ancestor) (name : Text) : Prop :=
  r.Fills top.blocks top.symbols name ∨
    ∃ other ∈ r.added top, other ≠ name ∧ r.Holds top.blocks other name

/-- The topmost template with the blocks of the line in their places. -/
def RendersTop (r : Renderer) (read : Text → Except Text Text) (level : ℕ) (vars : Fields)
    (top : Ancestor) (main : Text) : Prop :=
  ∃ filled names,
    ((r.fillPieces (r.fill level) (r.fragment level) top.blocks ⟨vars, top.directory⟩
      (Piece.split .block top.symbols)).run read).result = .ok (filled, names) ∧
    ((r.expandBody (r.template level) (r.fragment level) ⟨vars, top.directory⟩
      (r.read filled)).run read).result = .ok main

/-- The content is that of the topmost template, with each of the added blocks on a line of its
own. -/
def Appends (r : Renderer) (read : Text → Except Text Text) (level : ℕ) (vars : Fields)
    (top : Ancestor) (content : Text) : Prop :=
  ∃ main lines, r.RendersTop read level vars top main ∧
    List.Forall₂ (RendersBlock read (r.fill level) (r.fragment level) top.blocks vars)
      (r.added top) lines ∧
    content = main ++ lines.flatMap fun line => '\n' :: line

section Top
variable {top : Ancestor}

lemma appends_of_spliceTop {level : ℕ} {vars : Fields} {content : Text}
    (hkeys : top.blocks.keys.Nodup)
    (h : ((r.spliceTop level vars top).run read).result = .ok content) :
    r.Appends read level vars top content := by
  rw [spliceTop, splice, Rendering.run_bind] at h
  obtain ⟨⟨filled, declared⟩, hfilled, h⟩ := Outcome.exists_of_result_andThen h
  rw [Rendering.run_bind] at h
  obtain ⟨main, hmain, h⟩ := Outcome.exists_of_result_andThen h
  rw [Rendering.run_bind] at h
  obtain ⟨lines, hlines, h⟩ := Outcome.exists_of_result_andThen h
  cases h
  have hfill := namesFilled_fill r read level
  have hskips : ∀ name ∈ top.blocks.keys,
      ((r.extract top.directory top.symbols).contains name = true ∨
          r.Fills top.blocks top.symbols name ↔
        (r.extract top.directory top.symbols).contains name = true ∨ name ∈ declared) := by
    intro name _
    rw [hfill.mem_fillPieces hfilled, fills_iff]
  refine ⟨main, lines, ⟨filled, declared, hfilled, hmain⟩, ?_, append_unlines main lines⟩
  exact forall₂_additions hfill hkeys (fun entry hentry => Entries.get?_of_mem hkeys hentry)
    hskips hlines

/-- No block that the topmost template does not declare is lost. -/
lemma mem_added_or_isInside {name : Text} (hname : name ∈ top.blocks.keys)
    (hnew : (r.extract top.directory top.symbols).contains name = false) :
    name ∈ r.added top ∨ r.IsInside top name := by
  by_cases hadded : name ∈ r.added top
  · exact .inl hadded
  · have hleft := (mem_taken_or hname).resolve_left hadded
    rcases hleft with (hdeclared | hfills) | ⟨other, hother, hholds⟩
    · rw [hnew] at hdeclared
      cases hdeclared
    · exact .inr (.inl hfills)
    · have hne : other ≠ name := fun heq => hadded (heq ▸ hother)
      exact .inr (.inr ⟨other, hother, hne, hholds⟩)

lemma nodup_added (hkeys : top.blocks.keys.Nodup) : (r.added top).Nodup :=
  hkeys.sublist (taken_sublist _ _)

/-- What is appended has no place in the topmost template, but may have one in what is appended. -/
lemma isInside_iff_of_mem_added {name : Text} (hname : name ∈ r.added top) :
    r.IsInside top name ↔ ∃ other ∈ r.added top, other ≠ name ∧ r.Holds top.blocks other name := by
  refine or_iff_right fun hfills => ?_
  exact not_skips_of_mem_taken hname (.inr hfills)

/-- Each block has one place exactly if no block is appended before one that renders it. -/
lemma forall_mem_added_iff (hkeys : top.blocks.keys.Nodup) :
    (∀ name ∈ top.blocks.keys, (r.extract top.directory top.symbols).contains name = false →
      (name ∈ r.added top ↔ ¬r.IsInside top name)) ↔
    (r.added top).Pairwise fun earlier later => ¬r.Holds top.blocks later earlier := by
  have hmem name (hadded : name ∈ r.added top) : name ∈ top.blocks.keys ∧
      (r.extract top.directory top.symbols).contains name = false := by
    refine ⟨(taken_sublist _ _).subset hadded, ?_⟩
    have hskips := not_skips_of_mem_taken hadded
    simpa using (not_or.mp hskips).1
  constructor
  · intro honce
    refine (nodup_added hkeys).imp_of_mem fun {earlier later} hearlier hlater hne hholds => ?_
    obtain ⟨hname, hnew⟩ := hmem earlier hearlier
    exact (honce earlier hname hnew).mp hearlier (.inr ⟨later, hlater, hne.symm, hholds⟩)
  · intro hlater name hname hnew
    constructor
    · intro hadded hinside
      obtain ⟨other, hother, hne, hholds⟩ := (isInside_iff_of_mem_added hadded).mp hinside
      -- the selection sees to the one order, the hypothesis to the other
      let apart (a b : Text) := ¬r.Holds top.blocks a b ∧ ¬r.Holds top.blocks b a
      have : Std.Symm apart := ⟨fun _ _ => And.symm⟩
      have hapart : (r.added top).Pairwise apart := (pairwise_taken _ _).and hlater
      exact (hapart.forall hother hadded hne).1 hholds
    · intro hinside
      exact (mem_added_or_isInside hname hnew).resolve_right hinside

end Top

/-- A template of a line, with the blocks that it declares. -/
def start (r : Renderer) (ctx : Context) (source : Text) : Ancestor :=
  ⟨r.read source, ctx.directory, r.extract ctx.directory (r.read source)⟩

/-- What a template with a parent is rendered to. The blocks that the template at the top does not
declare are appended, at most once each, or rendered inside others. They are never both if and only
if no block is appended before one that renders it. -/
theorem result_template_additions {level : ℕ} {ctx : Context} {source parent content : Text}
    (hparent : parent? (r.read source) = some parent)
    (hcontent : ((r.template level ctx source).run read).result = .ok content) :
    ∃ n top, r.Ascends read ((r.start ctx source).heir parent) top ∧
      r.Appends read n ctx.vars top content ∧ (r.added top).Nodup ∧
      (∀ name ∈ top.blocks.keys, (r.extract top.directory top.symbols).contains name = false →
        name ∈ r.added top ∨ r.IsInside top name) ∧
      ((∀ name ∈ top.blocks.keys, (r.extract top.directory top.symbols).contains name = false →
        (name ∈ r.added top ↔ ¬r.IsInside top name)) ↔
      (r.added top).Pairwise fun earlier later => ¬r.Holds top.blocks later earlier) := by
  cases level with
  | zero => cases hcontent
  | succ level =>
    rw [template] at hcontent
    simp only [hparent] at hcontent
    obtain ⟨n, top, hascends, htop⟩ := exists_ascends hcontent
    have hkeys : top.blocks.keys.Nodup :=
      hascends.nodup_keys (BlockTable.nodup_keys_extract _ _ _)
    exact ⟨n, top, hascends, appends_of_spliceTop hkeys htop, nodup_added hkeys,
      fun name hname hnew => mem_added_or_isInside hname hnew, forall_mem_added_iff hkeys⟩

/-- A hall without blocks, with an annex that adds a room. -/
def hall : Store := .ofList
  [("hall.yapl".toList, ['H']),
    ("annex.yapl".toList,
      writeTag .control "extends \"hall\"".toList ++ writeBlock "room".toList ['r'])]

/-- A wing around the annex's room. -/
def wing : Text :=
  writeTag .control "extends \"annex\"".toList ++
    writeBlock "wing".toList ('[' :: writeBlock "room".toList ['R'] ++ [']'])

/-- A picture in a frame of its own. -/
def frame : Text :=
  writeTag .control "extends \"annex\"".toList ++
    writeBlock "frame".toList ('[' :: writeBlock "picture".toList ['P'] ++ [']'])

theorem result_frame_additions :
    ((inMemory.renderText frame [] none).run hall.read).result = .ok "H\nr\n[P]".toList ∧
      ∃ n top, inMemory.Ascends hall.read ((inMemory.start ⟨[], []⟩ frame).heir "annex".toList)
        top ∧ inMemory.Appends hall.read n [] top "H\nr\n[P]".toList := by
  have hparent : parent? (inMemory.read frame) = some "annex".toList := by decide +kernel
  have hcontent : ((inMemory.renderText frame [] none).run hall.read).result =
      .ok "H\nr\n[P]".toList := by decide +kernel
  obtain ⟨n, top, hascends, happends, -⟩ := result_template_additions hparent hcontent
  exact ⟨hcontent, n, top, hascends, happends⟩

/-- The annex names its room before there is a wing around it: the room is appended, and then
rendered again in the wing. -/
theorem render_wing : hall.render wing =
    .ok ⟨"H\nR\n[R]".toList, ["annex.yapl".toList, "hall.yapl".toList]⟩ := by
  decide +kernel

end Renderer
end Stencil
