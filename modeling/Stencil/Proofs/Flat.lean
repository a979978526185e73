import Stencil.Proofs.FailOpen
import Stencil.Proofs.LeadingBlock
import Stencil.Proofs.Merging
import Stencil.Proofs.Pieces

/-! Flat templates: plain text, blocks of plain text and `super()`, and the tags that name a parent
and mixins. They are read as they are written, and their blocks are extracted as they are
declared. -/
namespace Stencil

/-- No character of the text belongs to a delimiter. -/
def Text.IsPlain (s : Text) : Prop := ∀ c ∈ s, c ∉ ['{', '}', '%', '#']

instance : DecidablePred Text.IsPlain :=
  fun s => List.decidableBAll (fun c => c ∉ ['{', '}', '%', '#']) s

abbrev PlainText := { s : Text // s.IsPlain }

namespace Text.IsPlain

lemma nil : Text.IsPlain [] := by simp [Text.IsPlain]

lemma flatMap {α : Type} {f : α → Text} {as : List α} (h : ∀ a ∈ as, (f a).IsPlain) :
    Text.IsPlain (as.flatMap f) := by
  intro c hc
  obtain ⟨a, ha, hc⟩ := List.mem_flatMap.mp hc
  exact h a ha c hc

lemma reads {s : Text} (h : s.IsPlain) : Scan.Reads s (s.map .char) :=
  .of_not_mem fun hc => h _ hc (by simp)

lemma free {s : Text} (h : s.IsPlain) : Whitespace.Mark.Free s := by
  refine Whitespace.Mark.free_of_forall fun c hc => ?_
  have := h c hc
  simp only [List.mem_cons, List.not_mem_nil, or_false, not_or] at this
  simp [Whitespace.Mark.closes, this]

end Text.IsPlain

/-- A tag in one of the ways to write it, without trim markers. -/
structure Written (t : Tag) where
  text : Text
  reads : Scan.Reads text [.tag t text]
  free : Whitespace.Mark.Free text

/-- A tag with one space on each side of what it holds. -/
def Written.spaced (d : Delimiter) (inner : Text) {t : Tag} (hopen : '{' ∉ inner)
    (hclose : '}' ∉ inner) (ht : tagSymbol d inner = .tag t (writeTag d inner)) : Written t where
  text := writeTag d inner
  reads := ht ▸ reads_writeTag d inner hclose
  free := Whitespace.Mark.free_writeTag d hopen hclose

/-- The opening tag of a block. -/
def Written.openBlock (name : Text) (h : Tag.isBlockName name = true) :
    Written (.openBlock name) where
  text := writeTag .control ("block ".toList ++ name)
  reads := reads_blockTag h
  free := Whitespace.Mark.free_writeTag .control (not_mem_blockTag h (by decide) (by decide))
    (not_mem_blockTag h (by decide) (by decide))

namespace Flat

/-- A part of a body: plain text, or the place of the body that is inherited. -/
inductive Passage
  | plain (s : PlainText)
  | inherited (tag : Written .superCall)

namespace Passage

def text : Passage → Text
  | .plain s => s.1
  | .inherited tag => tag.text

def symbols : Passage → List Symbol
  | .plain s => s.1.map .char
  | .inherited tag => [.tag .superCall tag.text]

/-- The passage with a text in the place of the inherited body. -/
def fill (body : Text) : Passage → Text
  | .plain s => s.1
  | .inherited _ => body

def isPlain : Passage → Bool
  | .plain _ => true
  | .inherited _ => false

lemma reads (passage : Passage) : Scan.Reads passage.text passage.symbols := by
  cases passage with
  | plain s => exact s.2.reads
  | inherited tag => exact tag.reads

lemma free (passage : Passage) : Whitespace.Mark.Free passage.text := by
  cases passage with
  | plain s => exact s.2.free
  | inherited tag => exact tag.free

lemma isPlain_fill (passage : Passage) {body : Text} (hbody : body.IsPlain) :
    (passage.fill body).IsPlain := by
  cases passage with
  | plain s => exact s.2
  | inherited tag => exact hbody

end Passage

abbrev Body := List Passage

namespace Body

def text (body : Body) : Text := body.flatMap Passage.text
def symbols (body : Body) : List Symbol := body.flatMap Passage.symbols
def fill (inherited : Text) (body : Body) : Text := body.flatMap (Passage.fill inherited)

lemma reads (body : Body) : Scan.Reads body.text body.symbols := by
  induction body with
  | nil => exact .nil
  | cons passage body ih => exact passage.reads.append ih

lemma free (body : Body) : Whitespace.Mark.Free body.text := by
  induction body with
  | nil => exact .nil
  | cons passage body ih => exact passage.free.append ih

lemma isPlain_fill (body : Body) {inherited : Text} (h : inherited.IsPlain) :
    (body.fill inherited).IsPlain :=
  .flatMap fun passage _ => passage.isPlain_fill h

lemma fill_of_isPlain {body : Body} (h : body.all Passage.isPlain = true) (inherited : Text) :
    body.fill inherited = body.text := by
  refine List.flatMap_congr fun passage hpassage => ?_
  have := List.all_eq_true.mp h passage hpassage
  cases passage with
  | plain s => rfl
  | inherited tag => cases this

lemma replaceSuper_text (body : Body) (inherited : Text) :
    replaceSuper body.text inherited = body.fill inherited := by
  rw [replaceSuper, body.reads.symbols_eq]
  induction body with
  | nil => rfl
  | cons passage body ih =>
    rw [symbols, List.flatMap_cons, Symbol.replace_append, fill, List.flatMap_cons]
    congr 1
    cases passage with
    | plain s => exact Symbol.replace_map_char _ _
    | inherited tag => exact List.append_nil inherited

lemma eq_of_mem_symbols {body : Body} {y : Symbol} (hy : y ∈ body.symbols) :
    (∃ c, y = .char c) ∨ ∃ written, y = .tag .superCall written := by
  obtain ⟨passage, -, hy⟩ := List.mem_flatMap.mp hy
  cases passage with
  | plain s =>
    obtain ⟨c, -, rfl⟩ := List.mem_map.mp hy
    exact .inl ⟨c, rfl⟩
  | inherited tag => exact .inr ⟨tag.text, List.mem_singleton.mp hy⟩

lemma isNeutral_of_mem_symbols {body : Body} {y : Symbol} (hy : y ∈ body.symbols) :
    Pair.block.IsNeutral y := by
  rcases eq_of_mem_symbols hy with ⟨c, rfl⟩ | ⟨written, rfl⟩ <;> exact ⟨rfl, rfl⟩

end Body

/-- A block with its name and its body. -/
structure Declaration where
  name : Text
  opener : Written (.openBlock name)
  body : Body
  closer : Written .closeBlock

namespace Declaration

def text (d : Declaration) : Text := d.opener.text ++ (d.body.text ++ d.closer.text)

def construct (d : Declaration) : Construct :=
  ⟨.tag (.openBlock d.name) d.opener.text, d.body.symbols, .tag .closeBlock d.closer.text⟩

lemma reads (d : Declaration) : Scan.Reads d.text d.construct.symbols :=
  d.opener.reads.append (d.body.reads.append d.closer.reads)

lemma free (d : Declaration) : Whitespace.Mark.Free d.text :=
  d.opener.free.append (d.body.free.append d.closer.free)

lemma balanced_body (d : Declaration) : Balanced .block d.body.symbols :=
  .of_forall fun _ hy => Body.isNeutral_of_mem_symbols hy

lemma tag_of_mem_symbols {d : Declaration} {t : Tag} {written : Text}
    (hy : .tag t written ∈ d.construct.symbols) :
    t = .openBlock d.name ∨ t = .superCall ∨ t = .closeBlock := by
  rcases List.mem_append.mp hy with hy | hy
  · rcases List.mem_cons.mp hy with heq | hy
    · cases heq
      exact .inl rfl
    · rcases Body.eq_of_mem_symbols hy with ⟨c, heq⟩ | ⟨w, heq⟩
      · cases heq
      · cases heq
        exact .inr (.inl rfl)
  · cases List.mem_singleton.mp hy
    exact .inr (.inr rfl)

end Declaration

inductive Segment
  | plain (s : PlainText)
  | block (d : Declaration)
  | ancestry (t : Tag) (isAncestry : Renderer.isAncestry t = true) (tag : Written t)

namespace Segment

def text : Segment → Text
  | .plain s => s.1
  | .block d => d.text
  | .ancestry _ _ tag => tag.text

def symbols : Segment → List Symbol
  | .plain s => s.1.map .char
  | .block d => d.construct.symbols
  | .ancestry t _ tag => [.tag t tag.text]

def declarations : Segment → List Declaration
  | .block d => [d]
  | _ => []

def parent? : Segment → Option Text
  | .ancestry (.inherit reference) _ _ => some reference
  | _ => none

def mixins : Segment → List Text
  | .ancestry (.mixin references) _ _ => references
  | _ => []

/-- Text and blocks of its own, without `super()`. -/
def isOwn : Segment → Bool
  | .plain _ => true
  | .block d => d.body.all Passage.isPlain
  | .ancestry .. => false

lemma reads (segment : Segment) : Scan.Reads segment.text segment.symbols := by
  cases segment with
  | plain s => exact s.2.reads
  | block d => exact d.reads
  | ancestry t h tag => exact tag.reads

lemma free (segment : Segment) : Whitespace.Mark.Free segment.text := by
  cases segment with
  | plain s => exact s.2.free
  | block d => exact d.free
  | ancestry t h tag => exact tag.free

lemma isComment_of_mem_symbols {segment : Segment} {t : Tag} {written : Text}
    (hy : .tag t written ∈ segment.symbols) : Renderer.isComment t = false := by
  cases segment with
  | plain s =>
    obtain ⟨c, -, heq⟩ := List.mem_map.mp hy
    cases heq
  | block d => rcases Declaration.tag_of_mem_symbols hy with rfl | rfl | rfl <;> rfl
  | ancestry t' h tag =>
    cases List.mem_singleton.mp hy
    cases t <;> first | rfl | cases h

lemma parent?_symbols (segment : Segment) :
    Renderer.parent? segment.symbols = segment.parent? := by
  cases segment with
  | plain s => exact List.findSome?_eq_none_iff.mpr (by simp [symbols])
  | ancestry t h tag => cases t <;> rfl
  | block d =>
    refine List.findSome?_eq_none_iff.mpr fun y hy => ?_
    split
    · rcases Declaration.tag_of_mem_symbols hy with heq | heq | heq <;> cases heq
    · rfl

lemma mixins_symbols (segment : Segment) :
    Renderer.mixins segment.symbols = segment.mixins := by
  cases segment with
  | plain s => exact List.flatMap_eq_nil_iff.mpr (by simp [symbols])
  | ancestry t h tag => cases t <;> simp [Renderer.mixins, symbols, mixins]
  | block d =>
    refine List.flatMap_eq_nil_iff.mpr fun y hy => ?_
    split
    · rcases Declaration.tag_of_mem_symbols hy with heq | heq | heq <;> cases heq
    · rfl

/-- The pieces that the segment is cut into at its block. -/
def pieces : Segment → List Piece
  | .block d => [.construct d.construct]
  | segment => segment.symbols.map .single

lemma cuts (segment : Segment) : Cuts .block segment.symbols segment.pieces := by
  cases segment with
  | plain s => exact .map_char .block s.1
  | block d => exact .construct rfl d.balanced_body rfl rfl
  | ancestry t h tag =>
    refine .single ?_
    cases t <;> first | rfl | cases h

/-- The blocks of a segment are constructs whatever follows it. -/
lemma allConstructs_append (segment : Segment) (rest : List Symbol) :
    allConstructs .block (segment.symbols ++ rest) =
      segment.declarations.map Declaration.construct ++ allConstructs .block rest := by
  cases segment with
  | plain s => exact allConstructs_append_of_forall (by simp [symbols]) rest
  | ancestry t h tag =>
    refine allConstructs_append_of_forall (fun y hy => ?_) rest
    obtain rfl := List.mem_singleton.mp hy
    cases t <;> first | rfl | cases h
  | block d =>
    have happ : symbols (.block d) ++ rest = .tag (.openBlock d.name) d.opener.text ::
        (d.body.symbols ++ .tag .closeBlock d.closer.text :: rest) := by
      simp [symbols, Declaration.construct, Construct.symbols]
    have hrest : allConstructs .block (d.body.symbols ++ .tag .closeBlock d.closer.text :: rest) =
        allConstructs .block rest := by
      rw [allConstructs_append_of_forall fun y hy => (Body.isNeutral_of_mem_symbols hy).1]
      exact allConstructs_append_of_forall (List.forall_mem_singleton.mpr rfl) rest
    rw [happ, allConstructs_cons, show Pair.opens .block (.tag (.openBlock d.name) _) = true from
      rfl, if_pos rfl, d.balanced_body.splitClose?_eq rfl rfl, hrest]
    rfl

end Segment

abbrev File := List Segment

namespace File

def text (file : File) : Text := file.flatMap Segment.text
def symbols (file : File) : List Symbol := file.flatMap Segment.symbols
def declarations (file : File) : List Declaration := file.flatMap Segment.declarations
def names (file : File) : List Text := file.declarations.map Declaration.name
def parent? (file : File) : Option Text := file.findSome? Segment.parent?
def mixins (file : File) : List Text := file.flatMap Segment.mixins

/-- The body that the file declares under a name. -/
def body? (file : File) (name : Text) : Option Body :=
  (file.declarations.find? fun d => d.name == name).map Declaration.body

/-- The blocks of the file, in order. -/
def table (file : File) (directory : Text) : BlockTable :=
  file.declarations.map fun d => (d.name, ⟨d.body.text, directory⟩)

variable (file : File)

lemma reads : Scan.Reads file.text file.symbols := by
  induction file with
  | nil => exact .nil
  | cons segment file ih => exact segment.reads.append ih

lemma free : Whitespace.Mark.Free file.text := by
  induction file with
  | nil => exact .nil
  | cons segment file ih => exact segment.free.append ih

/-- A flat file is read as it is written. -/
lemma read_text {r : Renderer} (hr : r.options.whitespace = .disabled) :
    r.read file.text = file.symbols := by
  have hcomment : ((Scan.symbols file.text).any fun y => y.tag?.any Renderer.isComment) = false := by
    rw [file.reads.symbols_eq, List.any_eq_false]
    intro y hy
    obtain ⟨segment, -, hy⟩ := List.mem_flatMap.mp hy
    cases y with
    | char c => simp [Symbol.tag?]
    | tag t written => simp [Symbol.tag?, Segment.isComment_of_mem_symbols hy]
  rw [Renderer.read, Renderer.preprocess_of_free hr file.free hcomment, file.reads.symbols_eq]

lemma parent?_symbols : Renderer.parent? file.symbols = file.parent? := by
  induction file with
  | nil => rfl
  | cons segment file ih =>
    rw [Renderer.parent?, symbols, List.flatMap_cons, List.findSome?_append]
    change (Renderer.parent? segment.symbols).or (Renderer.parent? (symbols file)) = _
    rw [ih, segment.parent?_symbols, parent?, parent?, List.findSome?_cons]
    cases segment.parent? <;> rfl

lemma mixins_symbols : Renderer.mixins file.symbols = file.mixins := by
  rw [Renderer.mixins, symbols, List.flatMap_assoc]
  exact List.flatMap_congr fun segment _ => segment.mixins_symbols

lemma split_symbols : Piece.split .block file.symbols = file.flatMap Segment.pieces := by
  have hcuts : Cuts .block file.symbols (file.flatMap Segment.pieces) := by
    induction file with
    | nil => exact .nil
    | cons segment file ih => exact segment.cuts.append ih
  exact hcuts.split_eq

lemma allConstructs_symbols :
    allConstructs .block file.symbols = file.declarations.map Declaration.construct := by
  induction file with
  | nil => rfl
  | cons segment file ih =>
    rw [symbols, List.flatMap_cons, segment.allConstructs_append, declarations, List.flatMap_cons,
      List.map_append, ← declarations, ← ih]
    rfl

lemma keys_table (directory : Text) : (file.table directory).keys = file.names := by
  rw [table, Entries.keys, List.map_map]
  rfl

lemma body?_table (directory name : Text) :
    (file.table directory).body? name = (file.body? name).map Body.text := by
  rw [table, body?]
  induction file.declarations with
  | nil => rfl
  | cons d declarations ih =>
    by_cases hname : d.name = name
    · subst hname
      rw [List.map_cons, BlockTable.body?, Entries.get?_cons_self]
      simp
    · rw [List.map_cons, BlockTable.body?, Entries.get?_cons_of_ne hname,
        List.find?_cons_of_neg (by simpa using hname)]
      exact ih

/-- Blocks of new names are put behind the others. -/
lemma foldl_declare (directory : Text) {declarations : List Declaration} {table : BlockTable}
    (h : (table.keys ++ declarations.map Declaration.name).Nodup) :
    (declarations.map Declaration.construct).foldl (BlockTable.declare false directory) table =
      table ++ declarations.map fun d => (d.name, ⟨d.body.text, directory⟩) := by
  induction declarations generalizing table with
  | nil => exact (List.append_nil table).symm
  | cons d declarations ih =>
    have hnew : table.contains d.name = false := by
      rw [← Bool.not_eq_true, ← Entries.mem_keys_iff]
      exact fun hmem => (List.nodup_append.mp h).2.2 _ hmem _ List.mem_cons_self rfl
    have hdeclare : BlockTable.declare false directory table d.construct =
        table ++ [(d.name, ⟨d.body.text, directory⟩)] := by
      have hinsert := Entries.insert_append table [] d.name
        (BlockTable.blockOf false directory d.construct)
      rw [hnew, List.append_nil] at hinsert
      rw [BlockTable.declare_of_opens rfl]
      refine hinsert.trans ?_
      rw [BlockTable.blockOf, Declaration.construct, d.body.reads.textOf_eq]
      rfl
    rw [List.map_cons, List.foldl_cons, hdeclare, ih]
    · simp
    · simpa [Entries.keys] using h

/-- The blocks are extracted as they are declared. -/
lemma extract_text {r : Renderer} (hr : r.options.whitespace = .disabled)
    (hnames : file.names.Nodup) (directory : Text) :
    r.extract directory (r.read file.text) = file.table directory := by
  rw [file.read_text hr, Renderer.extract, BlockTable.extract_eq, allConstructs_symbols, hr]
  exact foldl_declare directory hnames

end File
end Flat
end Stencil
