import Stencil.Toml.Scalar

/-! Strings of TOML: between double quotes with escapes, between single quotes without, and both
also over several lines between triple quotes. Each reader starts behind the opening quotes and
answers with the content and with what follows the closing quotes. -/
namespace Stencil.Toml

/-- What may stand in strings and comments as it is. -/
def isPlain (c : Char) : Bool := c == '\t' || (0x20 ≤ c.toNat && c.toNat != 0x7F)

/-- How far an escape sequence has been read. A `fold` is a line break that an escape hides, with
all white space after it; a `gap` is the white space in front of that line break. -/
inductive Escape
  | none
  | slash
  | hex (left value : Nat)
  | gap
  | fold

def unescape? (c : Char) : Option Char :=
  if c == '"' || c == '\\' then some c
  else if c == 'b' then some '\x08'
  else if c == 'f' then some '\x0c'
  else if c == 'n' then some '\n'
  else if c == 'r' then some '\r'
  else if c == 't' then some '\t'
  else none

def scalarValue? (n : Nat) : Option Char :=
  if n < 0xD800 || (0xE000 ≤ n && n ≤ 0x10FFFF) then some (Char.ofNat n) else none

/-- One character of an escape sequence. -/
def stepEscape (seen : Text) (c : Char) : Escape → Option (Text × Escape)
  | .none => .none
  | .gap | .fold => .none
  | .slash =>
    if c == 'u' then some (seen, .hex 4 0)
    else if c == 'U' then some (seen, .hex 8 0)
    else (unescape? c).map fun d => (d :: seen, .none)
  | .hex left value =>
    if isHexDigit c then
      let value := 16 * value + hexValue c
      if left ≤ 1 then (scalarValue? value).map fun d => (d :: seen, .none)
      else some (seen, .hex (left - 1) value)
    else .none

def basicFrom : (seen : Text) → Escape → Text → Option (Text × Text)
  | _, _, [] => none
  | seen, .none, c :: s =>
    if c == '"' then some (seen.reverse, s)
    else if c == '\\' then basicFrom seen .slash s
    else if isPlain c then basicFrom (c :: seen) .none s
    else none
  | seen, escape, c :: s =>
    match stepEscape seen c escape with
    | some (seen, escape) => basicFrom seen escape s
    | none => none

/-- Up to two quotes may stand directly before the closing three. -/
def finishTriple (q : Char) (seen rest : Text) : Text × Text :=
  match rest with
  | c :: d :: rest' =>
    if c == q && d == q then ((q :: q :: seen).reverse, rest')
    else if c == q then ((q :: seen).reverse, d :: rest')
    else (seen.reverse, rest)
  | [c] => if c == q then ((q :: seen).reverse, []) else (seen.reverse, rest)
  | [] => (seen.reverse, [])

def startsTriple (q : Char) (s : Text) : Bool :=
  match s with
  | a :: b :: c :: _ => a == q && b == q && c == q
  | _ => false

/-- Line breaks in the content are line feeds, however they are written. -/
def multilineBasicFrom : (seen : Text) → Escape → Text → Option (Text × Text)
  | _, _, [] => none
  | seen, .none, c :: s =>
    if startsTriple '"' (c :: s) then some (finishTriple '"' seen (s.drop 2))
    else if c == '\\' then multilineBasicFrom seen .slash s
    else if c == '\n' || isPlain c then multilineBasicFrom (c :: seen) .none s
    else if c == '\r' && s.head? == some '\n' then multilineBasicFrom seen .none s
    else none
  | seen, .slash, c :: s =>
    if Text.isIndent c then multilineBasicFrom seen .gap s
    else if c == '\n' then multilineBasicFrom seen .fold s
    else if c == '\r' && s.head? == some '\n' then multilineBasicFrom seen .slash s
    else match stepEscape seen c .slash with
      | some (seen, escape) => multilineBasicFrom seen escape s
      | none => none
  | seen, .hex left value, c :: s =>
    match stepEscape seen c (.hex left value) with
    | some (seen, escape) => multilineBasicFrom seen escape s
    | none => none
  | seen, .gap, c :: s =>
    if Text.isIndent c then multilineBasicFrom seen .gap s
    else if c == '\n' then multilineBasicFrom seen .fold s
    else if c == '\r' && s.head? == some '\n' then multilineBasicFrom seen .gap s
    else none
  | seen, .fold, c :: s =>
    if Text.isIndent c || c == '\n' then multilineBasicFrom seen .fold s
    else if c == '\r' && s.head? == some '\n' then multilineBasicFrom seen .fold s
    else if startsTriple '"' (c :: s) then some (finishTriple '"' seen (s.drop 2))
    else if c == '\\' then multilineBasicFrom seen .slash s
    else if isPlain c then multilineBasicFrom (c :: seen) .none s
    else none

def literalFrom : (seen : Text) → Text → Option (Text × Text)
  | _, [] => none
  | seen, c :: s =>
    if c == '\'' then some (seen.reverse, s)
    else if isPlain c then literalFrom (c :: seen) s
    else none

def multilineLiteralFrom : (seen : Text) → Text → Option (Text × Text)
  | _, [] => none
  | seen, c :: s =>
    if startsTriple '\'' (c :: s) then some (finishTriple '\'' seen (s.drop 2))
    else if c == '\n' || isPlain c then multilineLiteralFrom (c :: seen) s
    else if c == '\r' && s.head? == some '\n' then multilineLiteralFrom seen s
    else none

/-- A line break directly behind the opening quotes does not count. -/
def dropFirstBreak : Text → Text
  | '\n' :: s => s
  | '\r' :: '\n' :: s => s
  | s => s

/-- A string on one line. -/
def readLine? : Text → Option (Text × Text)
  | '"' :: s => basicFrom [] .none s
  | '\'' :: s => literalFrom [] s
  | _ => none

def readString? (s : Text) : Option (Text × Text) :=
  if startsTriple '"' s then multilineBasicFrom [] .none (dropFirstBreak (s.drop 3))
  else if startsTriple '\'' s then multilineLiteralFrom [] (dropFirstBreak (s.drop 3))
  else readLine? s

end Stencil.Toml
