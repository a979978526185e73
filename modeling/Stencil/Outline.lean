import Stencil.Nesting
import Stencil.TokenStream

/-! Where the tags and constructs of a text stand, in bytes of UTF-8, and which tags belong
together. Tags are numbered from zero in the order of the text. -/
namespace Stencil

/-- The bytes from `start` up to `stop`. -/
structure Span where
  start : Nat
  stop : Nat
deriving DecidableEq

structure BlockSpan where
  name : Text
  whole : Span
  body : Span
deriving DecidableEq

/-- An opening tag and the closing tag that belongs to it, if there is one. -/
inductive Match
  | loop (opener : Nat) (closer : Option Nat)
  | block (opener : Nat) (closer : Option Nat)
  | conditional (opener : Nat) (closed : Option (Nat × List (Option Text × Span)))
deriving DecidableEq

namespace Outline

/-- The number of bytes that symbols were read from. -/
def byteSize : List Symbol → Nat
  | [] => 0
  | .char c :: rest => c.utf8Size + byteSize rest
  | .tag _ written :: rest => written.byteSize + byteSize rest

theorem byteSize_eq (symbols : List Symbol) :
    byteSize symbols = (Symbol.textOf symbols).byteSize := by
  induction symbols with
  | nil => rfl
  | cons s rest ih => cases s <;> simp [byteSize, Symbol.text, ih]

def tagCount (symbols : List Symbol) : Nat := symbols.countP fun s => s.tag?.isSome

/-- The conditions and bodies of branches of which the first header stands at `start`. -/
def clauseSpans : (start : Nat) → List Clause → List (Option Text × Span)
  | _, [] => []
  | start, c :: rest =>
    let bodyStart := start + c.header.text.byteSize
    let bodyStop := bodyStart + byteSize c.body
    (c.condition, ⟨bodyStart, bodyStop⟩) :: clauseSpans bodyStop rest

/-- The construct that `opener` opens before `rest`, and the number of its closing tag. -/
def construct? (p : Pair) (index : Nat) (opener : Symbol) (rest : List Symbol) :
    Option (Construct × Nat) :=
  (splitClose? p 0 rest).map fun (body, closer, _) =>
    (⟨opener, body, closer⟩, index + 1 + tagCount body)

def match? (start index : Nat) (s : Symbol) (rest : List Symbol) : Option Match :=
  match s with
  | .tag (.openIf _) _ =>
    some (.conditional index ((construct? .conditional index s rest).map fun (c, closer) =>
      (closer, clauseSpans start (Clause.ofConstruct c))))
  | .tag (.openFor ..) _ => some (.loop index ((construct? .loop index s rest).map (·.2)))
  | .tag (.openBlock _) _ => some (.block index ((construct? .block index s rest).map (·.2)))
  | _ => none

/-- What belongs to each opening tag, for symbols that start at the given byte and tag number. -/
def matchesFrom : (start index : Nat) → List Symbol → List Match
  | _, _, [] => []
  | start, index, s :: rest =>
    (match? start index s rest).toList
      ++ matchesFrom (start + s.text.byteSize) (index + tagCount [s]) rest

def blockName : Symbol → Text
  | .tag (.openBlock name) _ => name
  | _ => []

def wholeSpan (start : Nat) (c : Construct) : Span := ⟨start, start + byteSize c.symbols⟩

def blockSpan (start : Nat) (c : Construct) : BlockSpan :=
  let bodyStart := start + c.opener.text.byteSize
  ⟨blockName c.opener, wholeSpan start c, ⟨bodyStart, bodyStart + byteSize c.body⟩⟩

/-- The constructs among pieces that start at the given byte, each with its own start. -/
def locateConstructs : (start : Nat) → List Piece → List (Nat × Construct)
  | _, [] => []
  | start, .single s :: rest => locateConstructs (start + s.text.byteSize) rest
  | start, .construct c :: rest =>
    (start, c) :: locateConstructs (start + byteSize c.symbols) rest

def topLevel (p : Pair) (symbols : List Symbol) : List (Nat × Construct) :=
  locateConstructs 0 (Piece.split p symbols)

/-- All blocks of symbols that start at the given byte, in the order of their openers. -/
def allBlocksFrom : (start : Nat) → List Symbol → List BlockSpan
  | _, [] => []
  | start, s :: rest =>
    let here :=
      if Pair.opens .block s then (construct? .block 0 s rest).map fun (c, _) => blockSpan start c
      else none
    here.toList ++ allBlocksFrom (start + s.text.byteSize) rest

/-- The starts of the tags that stand outside all matched loops. -/
def visibleFrom : (start : Nat) → List Piece → List Nat
  | _, [] => []
  | start, .single s :: rest =>
    let later := visibleFrom (start + s.text.byteSize) rest
    if s.tag?.isSome then start :: later else later
  | start, .construct c :: rest => visibleFrom (start + byteSize c.symbols) rest

end Outline

structure Outline where
  pairs : List Match
  topBlocks : List BlockSpan
  allBlocks : List BlockSpan
  loops : List Span
  visible : List Nat

def Outline.ofText (s : Text) : Outline :=
  let symbols := Scan.symbols s
  { pairs := Outline.matchesFrom 0 0 symbols
    topBlocks := (Outline.topLevel .block symbols).map fun (start, c) => Outline.blockSpan start c
    allBlocks := Outline.allBlocksFrom 0 symbols
    loops := (Outline.topLevel .loop symbols).map fun (start, c) => Outline.wholeSpan start c
    visible := Outline.visibleFrom 0 (Piece.split .loop symbols) }

end Stencil
