import Stencil.Text

/-! References and identifiers of templates as texts. -/
namespace Stencil.Location

def isSeparator (c : Char) : Bool := c == '/' || c == '\\'

/-- The part before the last separator; without one there is no directory. -/
def directory (identifier : Text) : Text :=
  ((identifier.reverse.dropWhile fun c => !isSeparator c).drop 1).reverse

/-- Appends the extension unless the reference already ends with it. -/
def withExtension (reference extension : Text) : Text :=
  if extension.isSuffixOf reference then reference else reference ++ extension

/-- Follows one segment from the segments before it, given in reverse. -/
def follow (reversed : List Text) (segment : Text) : List Text :=
  if segment = [] ∨ segment = ['.'] then reversed
  else if segment = ['.', '.'] then reversed.drop 1
  else segment :: reversed

/-- Without `.`, `..` and empty segments; a leading slash stays, and nothing lies above the top. -/
def canonical (s : Text) : Text :=
  let segments := ((s.splitOn '/').foldl follow []).reverse
  let joined := ['/'].intercalate segments
  if s.head? = some '/' then '/' :: joined else joined

end Stencil.Location
