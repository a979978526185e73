import Stencil.Scan

/-! The stream of tokens: the scanner with the byte and the line at which it stands. An opener keeps
its own, and a scan that goes back to it goes on at the byte behind its brace and on its line. -/
namespace Stencil

/-- A tag with the byte at which it starts, its number of bytes, and its line, counted from
one. -/
structure Token where
  tag : Tag
  start : Nat
  length : Nat
  line : Nat
deriving DecidableEq

namespace TokenStream
open Scan (Hopeless)

/-- The scanner's state, with the byte and the line of the opener. -/
inductive State
  | plain
  | brace (start : Nat)
  | inside (d : Delimiter) (start startLine : Nat) (content resume : Text)
  | closing (d : Delimiter) (start startLine : Nat) (content resume : Text)

/-- The line behind a character. -/
def lineAfter (c : Char) (line : Nat) : Nat := if c = '\n' then line + 1 else line

/-- The tokens of the text still to be read, which starts at the given byte and line. -/
def tokensFrom : (budget : Nat) → Hopeless → (pos line : Nat) → State → Text → List Token
  | 0, _, _, _, _, _ => []
  | _ + 1, _, _, _, .plain, [] => []
  | n + 1, h, pos, line, .plain, c :: rest =>
    if c = '{' then tokensFrom n h (pos + 1) line (.brace pos) rest
    else tokensFrom n h (pos + c.utf8Size) (lineAfter c line) .plain rest
  | _ + 1, _, _, _, .brace _, [] => []
  | n + 1, h, pos, line, .brace start, c :: rest =>
    match Delimiter.ofOpenChar? c with
    | some d =>
      if h.has d then tokensFrom n h pos line .plain (c :: rest)
      else tokensFrom n h (pos + 1) line (.inside d start line [] (c :: rest)) rest
    | none => tokensFrom n h pos line .plain (c :: rest)
  | n + 1, h, _, _, .inside d start startLine _ resume, [] =>
    tokensFrom n (h.add d) (start + 1) startLine .plain resume
  | n + 1, h, pos, line, .inside d start startLine content resume, c :: rest =>
    if c = d.closeChar then
      tokensFrom n h (pos + 1) line (.closing d start startLine content resume) rest
    else
      tokensFrom n h (pos + c.utf8Size) (lineAfter c line)
        (.inside d start startLine (c :: content) resume) rest
  | n + 1, h, _, _, .closing d start startLine _ resume, [] =>
    tokensFrom n (h.add d) (start + 1) startLine .plain resume
  | n + 1, h, pos, line, .closing d start startLine content resume, c :: rest =>
    if c = '}' then
      ⟨Tag.ofContent d content.reverse, start, pos + 1 - start, startLine⟩
        :: tokensFrom n h (pos + 1) line .plain rest
    else
      tokensFrom n h pos line (.inside d start startLine (d.closeChar :: content) resume)
        (c :: rest)

end TokenStream

def tokens (s : Text) : List Token := TokenStream.tokensFrom (Scan.budget s) {} 0 1 .plain s

end Stencil
