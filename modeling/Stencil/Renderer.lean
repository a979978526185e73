import Stencil.BlockTable
import Stencil.Condition
import Stencil.Locals
import Stencil.Location
import Stencil.LoopSource
import Stencil.Options
import Stencil.Rendering
import Stencil.Value.Text
import Stencil.Whitespace.Marker

/-! Rendering of templates. A text is expanded in passes: inclusions, blocks, conditionals, loops
and placeholders, each on the text that the pass before it leaves. Bodies are expanded one level
further down, and the levels are numbered from the ceiling, so that level zero is too deep. Main
statements: a pass, which reads its text again only after a change, leaves the symbols of the text
that it makes. -/
namespace Stencil

structure Renderer where
  options : Options := {}
  /-- The identifier that a reference means in a directory. -/
  resolver : Option (Text → Text → Except TemplateError Text) := none
  hasLoader : Bool := false
  /-- The directory of templates that are given as a text. -/
  baseDirectory : Text := []

/-- What a text is expanded with: the variables, and the directory of its references. -/
structure Context where
  vars : Fields
  directory : Text

/-- A template on the way up its line of parents, with the blocks collected so far. -/
structure Heir where
  symbols : List Symbol
  directory : Text
  blocks : BlockTable
  parent : Text

/-- The text of a rendering and the set of used files, sorted and without repetition. -/
structure Rendered where
  content : Text
  usedFiles : List Text

namespace Renderer

abbrev Expansion := Context → Text → Rendering Text

/-- A text with its blocks filled in, and the names of the blocks that were. -/
abbrev Filling := BlockTable → Context → Text → Rendering (Text × List Text)

/-- A pass takes the symbols of a text to the symbols of the text that it leaves. -/
abbrev Pass := Context → List Symbol → Rendering (List Symbol)

def isComment (t : Tag) : Bool := t == .comment

def isAncestry : Tag → Bool
  | .inherit _ | .mixin _ => true
  | _ => false

def isSuper (t : Tag) : Bool := t == .superCall

/-- Drops the tags that `p` accepts. -/
def dropTags (p : Tag → Bool) (symbols : List Symbol) : List Symbol :=
  if symbols.any fun s => s.tag?.any p then Scan.symbols (Symbol.textWithout p symbols)
  else symbols

theorem dropTags_symbols (p : Tag → Bool) (s : Text) :
    dropTags p (Scan.symbols s) = Scan.symbols (Symbol.textWithout p (Scan.symbols s)) := by
  unfold dropTags
  split
  · rfl
  · rename_i h
    rw [Symbol.textWithout_of_none (by simpa using h), Scan.textOf_symbols]

/-- The reference of the first `extends` tag. -/
def parent? (symbols : List Symbol) : Option Text :=
  symbols.findSome? fun
    | .tag (.inherit reference) _ => some reference
    | _ => none

/-- The references of all `mixin` tags, in order. -/
def mixins (symbols : List Symbol) : List Text :=
  symbols.flatMap fun
    | .tag (.mixin references) _ => references
    | _ => []

/-- The text in the place of a placeholder: null and nothing take the fallback. -/
def placeholderText (vars : Fields) (path : Text) (fallback : Option Text) : Text :=
  match vars.valueAt? path with
  | none | some .null => fallback.getD []
  | some v => v.text

/-- Puts values in the place of placeholders, all at once. -/
def interpolate (vars : Fields) (symbols : List Symbol) : Text :=
  Symbol.replace
    (fun
      | .placeholder path fallback => some (placeholderText vars path fallback)
      | _ => none)
    symbols

/-- The text of a piece after the matched constructs have been expanded. -/
def expandPiece (expand : Construct → Rendering Text) : Piece → Rendering Text
  | .single symbol => .done symbol.text
  | .construct c => expand c

/-- Puts texts in the place of the matched constructs of one kind among the visible symbols. -/
def expandConstructs (p : Pair) (expand : Construct → Rendering Text)
    (symbols visible : List Symbol) : Rendering (List Symbol) :=
  if p.occursIn visible then do
    let s ← Rendering.concatMap (expandPiece expand) (Piece.split p visible)
    return Scan.symbols s
  else .done symbols

theorem expandConstructs_symbols (p : Pair) (expand : Construct → Rendering Text) {s : Text}
    {visible : List Symbol} (h : Symbol.textOf visible = s) :
    expandConstructs p expand (Scan.symbols s) visible = (do
      let s ← Rendering.concatMap (expandPiece expand) (Piece.split p visible)
      return Scan.symbols s) := by
  unfold expandConstructs
  split
  · rfl
  · rename_i hp
    have : Rendering.concatMap (expandPiece expand) (Piece.split p visible) = .done s := by
      rw [Piece.split_of_not_occursIn (by simpa using hp), Rendering.concatMap_map, ← h,
        Symbol.textOf_eq_flatMap]
      exact Rendering.concatMap_pure Symbol.text visible
    rw [this]
    rfl

variable (r : Renderer)

/-- White space control, then removal of comments. -/
def preprocess (s : Text) : Text :=
  Symbol.textWithout isComment
    (Scan.symbols (Whitespace.applyGlobal r.options.whitespace (Whitespace.applyMarkers s)))

/-- The symbols of a text after its preprocessing. -/
def read (s : Text) : List Symbol := Scan.symbols (r.preprocess s)

def body (symbols : List Symbol) : Text :=
  dedentIf r.options.whitespace.dedentBlocks (Symbol.textOf symbols)

def extract (directory : Text) (symbols : List Symbol) : BlockTable :=
  BlockTable.extract r.options.whitespace.dedentBlocks directory symbols

def tooDeep {α : Type} : Rendering α :=
  .failed (.depthExceeded (r.options.maxDepth + 1) r.options.maxDepth)

def resolve (reference directory : Text) : Rendering Text :=
  match r.resolver with
  | none => .failed .noResolver
  | some resolve =>
    .ofExcept (resolve (Location.withExtension reference r.options.extension) directory)

def load (identifier : Text) : Rendering Text :=
  if r.hasLoader then .load identifier else .failed .noLoader

/-- The identifier of a reference and the text behind it. -/
def fetch (reference directory : Text) : Rendering (Text × Text) := do
  let identifier ← r.resolve reference directory
  let source ← r.load identifier
  return (identifier, source)

def isInsert : Symbol → Bool
  | .tag (.insert ..) _ => true
  | _ => false

/-- What an inclusion brings; any other symbol stays. -/
def expandInsert (template : Expansion) (ctx : Context) : Symbol → Rendering Text
  | .tag (.insert reference locals) _ => do
    let (identifier, source) ← r.fetch reference ctx.directory
    Rendering.use identifier
    let bindings := match locals with
      | some literal => Locals.read literal ctx.vars
      | none => []
    template ⟨ctx.vars.overlay bindings, Location.directory identifier⟩ source
  | symbol => .done symbol.text

def expandInserts (template : Expansion) : Pass := fun ctx symbols =>
  if (hideLoops symbols).any isInsert then do
    let s ← Rendering.concatMap (r.expandInsert template ctx) (hideLoops symbols)
    return Scan.symbols s
  else .done symbols

theorem expandInserts_symbols (template : Expansion) (ctx : Context) (s : Text) :
    r.expandInserts template ctx (Scan.symbols s) = (do
      let s ← Rendering.concatMap (r.expandInsert template ctx) (hideLoops (Scan.symbols s))
      return Scan.symbols s) := by
  unfold expandInserts
  split
  · rfl
  · rename_i h
    have (visible : List Symbol) (h : visible.any isInsert = false) :
        Rendering.concatMap (r.expandInsert template ctx) visible =
          .done (Symbol.textOf visible) := by
      rw [Symbol.textOf_eq_flatMap, ← Rendering.concatMap_pure]
      refine Rendering.concatMap_congr fun symbol hs => ?_
      have := List.any_eq_false.1 h symbol hs
      unfold expandInsert
      split
      · simp [isInsert] at this
      · rfl
    rw [this _ (by simpa using h), textOf_hideLoops, Scan.textOf_symbols]
    rfl

def expandBlocks (fragment : Expansion) : Pass := fun ctx symbols =>
  expandConstructs .block (fun c => fragment ctx (r.body c.body)) symbols (hideLoops symbols)

/-- The first branch whose condition holds; a branch without a condition always does. -/
def chosen? (vars : Fields) (clauses : List Clause) : Option Clause :=
  clauses.find? fun clause => clause.condition.all fun s => conditionHolds s vars

/-- The branch of a conditional that is chosen; there may be none. -/
def expandConditional (fragment : Expansion) (ctx : Context) (c : Construct) : Rendering Text :=
  match chosen? ctx.vars (Clause.ofConstruct c) with
  | some clause => fragment ctx (r.body clause.body)
  | none => pure []

def expandConditionals (fragment : Expansion) : Pass := fun ctx symbols =>
  expandConstructs .conditional (r.expandConditional fragment ctx) symbols (hideLoops symbols)

/-- The body once for every item, with the loop's variable bound to it. -/
def expandLoop (fragment : Expansion) (ctx : Context) (c : Construct) : Rendering Text :=
  match c.opener with
  | .tag (.openFor item source) _ => do
    let items ← Rendering.ofExcept (LoopSource.items source ctx.vars)
    let body := r.body c.body
    Rendering.concatMap (fun v => fragment { ctx with vars := ctx.vars.insert item v } body) items
  | _ => pure c.text

def expandLoops (fragment : Expansion) : Pass := fun ctx symbols =>
  expandConstructs .loop (r.expandLoop fragment ctx) symbols symbols

/-- Expands a preprocessed text; `template` and `fragment` expand one level further down. -/
def expandBody (template fragment : Expansion) (ctx : Context) (symbols : List Symbol) :
    Rendering Text := do
  let symbols ← r.expandInserts template ctx (dropTags isAncestry symbols)
  let symbols ← r.expandBlocks fragment ctx symbols
  let symbols ← r.expandConditionals fragment ctx symbols
  let symbols ← r.expandLoops fragment ctx symbols
  return interpolate ctx.vars (dropTags isSuper symbols)

/-- The blocks of the listed templates, of which the later win. -/
def collectMixins (directory : Text) : List Text → BlockTable → Rendering BlockTable
  | [], table => pure table
  | reference :: rest, table => do
    let (identifier, source) ← r.fetch reference directory
    Rendering.use identifier
    let blocks := r.extract (Location.directory identifier) (r.read source)
    collectMixins directory rest (table.overlay blocks)

/-- A block from the directory of its template: the blocks inside it are filled in first. -/
def renderBlock (fill : Filling) (fragment : Expansion) (table : BlockTable) (vars : Fields)
    (block : Block) : Rendering (Text × List Text) := do
  let ctx : Context := ⟨vars, block.directory⟩
  let (filled, names) ← fill table ctx block.body
  let text ← fragment ctx filled
  return (text, names)

/-- Puts the table's block, or else the block's own body, in the place of each block. -/
def fillPieces (fill : Filling) (fragment : Expansion) (table : BlockTable) (ctx : Context) :
    List Piece → Rendering (Text × List Text)
  | [] => pure ([], [])
  | .single symbol :: rest => do
    let (text, names) ← fillPieces fill fragment table ctx rest
    return (symbol.text ++ text, names)
  | .construct c :: rest => do
    let name := match c.opener with
      | .tag (.openBlock name) _ => name
      | _ => []
    let block := (table.get? name).getD ⟨r.body c.body, ctx.directory⟩
    let (here, inner) ← renderBlock fill fragment table ctx.vars block
    let (text, names) ← fillPieces fill fragment table ctx rest
    return (here ++ text, name :: inner ++ names)

/-- The blocks that neither the skeleton declares nor another block has brought in. -/
def additions (fill : Filling) (fragment : Expansion) (skeleton table : BlockTable)
    (vars : Fields) : (declared : List Text) → Entries Block → Rendering (List Text)
  | _, [] => pure []
  | declared, (name, block) :: rest => do
    if skeleton.contains name || declared.contains name then
      additions fill fragment skeleton table vars declared rest
    else
      let (text, inner) ← renderBlock fill fragment table vars block
      let later ←
        additions fill fragment skeleton table vars (name :: inner ++ declared) rest
      return text :: later

/-- Renders the topmost template with the blocks of the whole line; what it has no place for is
appended, each block on a line of its own. -/
def splice (template fragment : Expansion) (fill : Filling) (skeleton table : BlockTable)
    (ctx : Context) (symbols : List Symbol) : Rendering Text := do
  let (filled, declared) ← r.fillPieces fill fragment table ctx (Piece.split .block symbols)
  let content ← r.expandBody template fragment ctx (r.read filled)
  let added ← additions fill fragment skeleton table ctx.vars declared table
  return if added.isEmpty then content else content ++ '\n' :: Text.unlines added

mutual

/-- A whole template, which may have a parent. -/
def template : (level : Nat) → Context → Text → Rendering Text
  | 0, _, _ => r.tooDeep
  | level + 1, ctx, s =>
    let symbols := r.read s
    match parent? symbols with
    | some parent =>
      inherit level ctx.vars ⟨symbols, ctx.directory, r.extract ctx.directory symbols, parent⟩
    | none => r.expandBody (template level) (fragment level) ctx symbols

/-- The body of a block, a branch or a loop. -/
def fragment : (level : Nat) → Context → Text → Rendering Text
  | 0, _, _ => r.tooDeep
  | level + 1, ctx, s => r.expandBody (template level) (fragment level) ctx (r.read s)

/-- An heir: its blocks lie over its mixins' and its parent's, and the parent is the next heir
or the topmost template. -/
def inherit : (level : Nat) → Fields → Heir → Rendering Text
  | 0, _, _ => r.tooDeep
  | level + 1, vars, heir => do
    let (identifier, source) ← r.fetch heir.parent heir.directory
    Rendering.use identifier
    let directory := Location.directory identifier
    let symbols := r.read source
    let blocks := r.extract directory symbols
    let mixed ← r.collectMixins heir.directory (mixins heir.symbols) []
    let merged := BlockTable.mergeOver heir.blocks (BlockTable.mergeOver mixed blocks)
    match parent? symbols with
    | some parent => inherit level vars ⟨symbols, directory, merged, parent⟩
    | none =>
      r.splice (template level) (fragment level) (fill level) blocks merged ⟨vars, directory⟩
        symbols

def fill : (level : Nat) → Filling
  | 0, _, _, _ => r.tooDeep
  | level + 1, table, ctx, s =>
    r.fillPieces (fill level) (fragment level) table ctx (Piece.split .block (Scan.symbols s))

end

/-- The number of the topmost level. -/
def topLevel : Nat := r.options.maxDepth + 1

/-- Renders a text; its references start from `directory`, or else from the base directory. -/
def renderText (source : Text) (vars : Fields) (directory : Option Text) : Rendering Text :=
  r.template r.topLevel ⟨vars, directory.getD r.baseDirectory⟩ source

/-- Renders the template that a reference means in the base directory. -/
def renderFile (reference : Text) (vars : Fields) : Rendering Text := do
  let (identifier, source) ← r.fetch reference r.baseDirectory
  Rendering.use identifier
  r.template r.topLevel ⟨vars, Location.directory identifier⟩ source

end Renderer

namespace Rendered

/-- Puts an identifier in its place in a strictly sorted list. -/
def insertSorted (identifier : Text) : List Text → List Text
  | [] => [identifier]
  | other :: rest =>
    if identifier = other then other :: rest
    else if identifier < other then identifier :: other :: rest
    else other :: insertSorted identifier rest

def sorted (identifiers : List Text) : List Text := identifiers.foldr insertSorted []

def ofOutcome (o : Rendering.Outcome Text) : Except TemplateError Rendered :=
  o.result.map fun content => ⟨content, sorted o.used⟩

end Rendered
end Stencil
