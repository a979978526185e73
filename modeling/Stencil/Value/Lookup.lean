import Stencil.Value

/-! Dotted paths: the first segment names a variable, each later one a field of an object, an
item of an array by its canonical index, or the `length` of an array. -/
namespace Stencil

/-- Letters, digits, `_` and `.` only. -/
def Text.isSimplePath (s : Text) : Bool :=
  s.isWordOf fun c => Text.isWordChar c || c == '.'

/-- An index is written without sign and without leading zeros. -/
def readIndex? (s : Text) : Option Nat :=
  if Text.isWordOf Char.isDigit s && !(1 < s.length && s.head? == some '0') then
    some (Decimal.valueOfDigits s)
  else none

namespace Value

/-- One segment of a path. A number, and so the `length` of an array, has nothing inside. -/
def step? (v : Value) (segment : Text) : Option Value :=
  match v with
  | .object fields => Entries.get? fields segment
  | .array items =>
    if segment = "length".toList then some (.number (.int items.length))
    else (readIndex? segment).bind (items[·]?)
  | _ => none

end Value

/-- The value a dotted path leads to. -/
def Fields.valueAt? (vars : Fields) (path : Text) : Option Value :=
  match path.splitOn '.' with
  | [] => none
  | first :: segments => segments.foldl (fun v s => v.bind (·.step? s)) (vars.get? first)

end Stencil
