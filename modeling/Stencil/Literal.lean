import Stencil.Value.Lookup

/-! Literals of the template language: quoted strings, numerals and the words for the
constants. -/
namespace Stencil.Literal

/-- The text between two equal quotes. A lone quote is its own opening and closing quote. -/
def unquote? : Text → Option Text
  | [] => none
  | q :: s =>
    if (q == '"' || q == '\'') && (q :: s).getLast? == some q then some s.dropLast else none

/-- Splits at the first point. -/
def splitPoint (s : Text) : Text × Option Text :=
  match s.splitFirst? (· == '.') with
  | some (whole, fraction) => (whole, some fraction)
  | none => (s, none)

/-- An optional minus, digits, and optionally a point and more digits. -/
def isNumeral (s : Text) : Bool :=
  let digits := match s with
    | '-' :: s => s
    | s => s
  match splitPoint digits with
  | (whole, some fraction) => whole.isWordOf Char.isDigit && fraction.isWordOf Char.isDigit
  | (whole, none) => whole.isWordOf Char.isDigit

def numeral? (s : Text) : Option Binary64 :=
  if isNumeral s then Decimal.readNumeral? s else none

/-- The value of a literal; any other text is none. -/
def scalar? (s : Text) : Option Value :=
  match unquote? s with
  | some inner => some (.string inner)
  | none => match numeral? s with
    | some x => some (.ofBinary64 x)
    | none =>
      if s = "true".toList then some (.bool true)
      else if s = "false".toList then some (.bool false)
      else if s = "null".toList then some .null
      else none

/-- The value of a literal, or else of a dotted path. -/
def operand? (s : Text) (vars : Fields) : Option Value :=
  match scalar? s with
  | some v => some v
  | none => vars.valueAt? s

end Stencil.Literal
