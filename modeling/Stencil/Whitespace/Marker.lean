import Stencil.Text

/-! Trim markers: a dash inside a delimiter removes the white space on the outer side of it. The
text is read as characters and marked delimiters, and each kind of marker is one pass over
these. -/
namespace Stencil.Whitespace

inductive Mark
  | char (c : Char)
  | opener (second : Char)
  | closer (first : Char)
deriving DecidableEq

namespace Mark

def opens (c : Char) : Bool := c == '{' || c == '%' || c == '#'
def closes (c : Char) : Bool := c == '}' || c == '%' || c == '#'

/-- The text as characters and marked delimiters, from left to right. -/
def scan : Text → List Mark
  | a :: b :: c :: s =>
    if a == '{' && opens b && c == '-' then .opener b :: scan s
    else if a == '-' && closes b && c == '}' then .closer b :: scan s
    else .char a :: scan (b :: c :: s)
  | s => s.map .char

/-- A mark as it stands in the output, without its dash. -/
def text : Mark → Text
  | .char c => [c]
  | .opener d => ['{', d]
  | .closer d => [d, '}']

/-- What a closing marker still takes away: spaces and tabs, then at most one carriage return,
then at most one line feed. -/
inductive Appetite
  | full
  | blanks
  | feed

def trimAfter : Appetite → List Mark → List Mark
  | _, [] => []
  | .blanks, .char c :: rest =>
    if Text.isIndent c then trimAfter .blanks rest
    else if c == '\r' then trimAfter .feed rest
    else if c == '\n' then trimAfter .full rest
    else .char c :: trimAfter .full rest
  | .feed, .char c :: rest =>
    if c == '\n' then trimAfter .full rest else .char c :: trimAfter .full rest
  | _, .closer d :: rest => .closer d :: trimAfter .blanks rest
  | _, m :: rest => m :: trimAfter .full rest

def startsWithOpener : List Mark → Bool
  | .opener _ :: _ => true
  | _ => false

/-- Takes away the spaces and tabs that run up to an opening marker. -/
def trimBefore : List Mark → List Mark
  | [] => []
  | .char c :: rest =>
    let rest := trimBefore rest
    if Text.isIndent c && startsWithOpener rest then rest else .char c :: rest
  | m :: rest => m :: trimBefore rest

end Mark

/-- Removes the trim markers and the white space they stand for. -/
def applyMarkers (s : Text) : Text :=
  (Mark.trimBefore (Mark.trimAfter .full (Mark.scan s))).flatMap Mark.text

end Stencil.Whitespace
