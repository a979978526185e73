import Stencil.Literal

/-! The bindings that an inclusion passes on, written between braces as `key: value`. -/
namespace Stencil.Locals

/-- The bindings between commas, trimmed. A comma inside quotes does not separate, and inside
quotes a backslash takes the next character with it. A blank last one is none. -/
def splitBindings : (quote : Option Char) → (escaped : Bool) → (seen : Text) → Text → List Text
  | _, _, seen, [] => if Text.isBlank seen then [] else [Text.trim seen.reverse]
  | some q, escaped, seen, c :: s =>
    if escaped then splitBindings (some q) false (c :: seen) s
    else if c == '\\' then splitBindings (some q) true (c :: seen) s
    else if c == q then splitBindings none false (c :: seen) s
    else splitBindings (some q) false (c :: seen) s
  | none, _, seen, c :: s =>
    if c == '"' || c == '\'' then splitBindings (some c) false (c :: seen) s
    else if c == ',' then Text.trim seen.reverse :: splitBindings none false [] s
    else splitBindings none false (c :: seen) s

def isKeyChar (c : Char) : Bool := Text.isWordChar c || c == '.' || c == '-'

/-- The name inside an optional pair of double quotes. -/
def unquoteKey? : Text → Option Text
  | '"' :: s => Text.before? ['"'] s
  | s => some s

/-- The key and the text of the value, split at the first colon. -/
def splitBinding? (binding : Text) : Option (Text × Text) := do
  let (rawKey, rawValue) ← binding.splitFirst? (· == ':')
  let key ← unquoteKey? rawKey.trim
  if key.isWordOf isKeyChar && !rawValue.trim.isEmpty then some (key, rawValue.trim) else none

/-- Drops one brace on each side. -/
def stripBraces (s : Text) : Text :=
  let s := match s with
    | '{' :: s => s
    | s => s
  (Text.before? ['}'] s).getD s

/-- The bindings with their values in the context of the including template. A value that is
neither a literal nor a path to something is null, and what is no binding is skipped. -/
def read (literal : Text) (vars : Fields) : Fields :=
  let inner := stripBraces literal.trim
  if inner.isBlank then []
  else
    (splitBindings none false [] inner).filterMap splitBinding? |>.foldl
      (fun acc (key, raw) => acc.insert key ((Literal.operand? raw vars).getD .null)) []

end Stencil.Locals
