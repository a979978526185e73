import Stencil.Text

/-! White space around control tags: the indentation of a tag that starts its line, and the line
break after a tag. -/
namespace Stencil

/-- Which white space the renderer takes away without being asked by a marker. -/
structure WhitespaceOptions where
  trimBlocks : Bool := true
  lstripBlocks : Bool := true
  dedentBlocks : Bool := true
deriving DecidableEq

namespace WhitespaceOptions

def disabled : WhitespaceOptions := ⟨false, false, false⟩

end WhitespaceOptions

namespace Whitespace

def startsControlTag : Text → Bool
  | '{' :: '%' :: _ => true
  | _ => false

/-- Removes the indentation of a line whose first mark is a control tag. -/
def stripIndent (line : Text) : Text :=
  if startsControlTag (line.dropWhile Text.isIndent) then line.dropWhile Text.isIndent else line

def stripIndents (s : Text) : Text := Text.unlines (s.lines.map stripIndent)

/-- Whether only spaces and tabs stand before the next line break. -/
def breakFollows (s : Text) : Bool :=
  match s.dropWhile Text.isIndent with
  | '\n' :: _ => true
  | '\r' :: '\n' :: _ => true
  | _ => false

/-- Removes the line break that ends a line right after a control tag, with the spaces and tabs
before it. While `skipping` everything up to the break goes. -/
def trimBreaksFrom : (skipping : Bool) → Text → Text
  | _, [] => []
  | true, c :: s => trimBreaksFrom (c != '\n') s
  | false, '%' :: '}' :: s => '%' :: '}' :: trimBreaksFrom (breakFollows s) s
  | false, c :: s => c :: trimBreaksFrom false s

def trimBreaks (s : Text) : Text := trimBreaksFrom false s

def applyGlobal (options : WhitespaceOptions) (s : Text) : Text :=
  let s := if options.lstripBlocks then stripIndents s else s
  if options.trimBlocks then trimBreaks s else s

end Whitespace
end Stencil
