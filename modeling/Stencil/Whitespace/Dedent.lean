import Stencil.Text

/-! Removing the common indentation of a body. -/
namespace Stencil.Whitespace

def dropLeadingBreak : Text → Text
  | '\n' :: s => s
  | s => s

/-- Cuts the white space at the end at its first line break. -/
def dropTrailingBlank (s : Text) : Text :=
  s.trimEnd ++ (s.drop s.trimEnd.length).takeWhile (· != '\n')

def indentWidth (line : Text) : Nat := (line.takeWhile Text.isIndent).length

/-- The smallest indentation of a line that is not blank. -/
def commonIndent? (ls : List Text) : Option Nat :=
  ((ls.filter fun line => !line.isBlank).map indentWidth).min?

/-- Drops a leading line break and the trailing blank lines, and then the common indentation of
all lines. A text of blank lines only is left alone. -/
def dedent (s : Text) : Text :=
  let body := (dropTrailingBlank (dropLeadingBreak s)).lines
  match commonIndent? body with
  | none => s
  | some width => Text.unlines (body.map (·.drop width))

end Stencil.Whitespace
