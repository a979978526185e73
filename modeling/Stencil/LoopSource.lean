import Stencil.Literal
import Stencil.Json.Reader
import Stencil.Error

/-! Sources of `for` tags: a list written in the tag, or a path to an array. -/
namespace Stencil.LoopSource

/-- An item of a comma list is a string when it is quoted, a number when it reads as one, and
otherwise its own text. A blank item reads as zero. -/
def readItem (s : Text) : Value :=
  match Literal.unquote? s.trim with
  | some inner => .string inner
  | none =>
    let x := Value.toNumber (some (.string s.trim))
    if x.isNaN then .string s.trim else .ofBinary64 x

def readCommaList (inner : Text) : List Value := (inner.splitOn ',').map readItem

/-- The text between a leading `[` and a final `]`. -/
def unbracket? : Text → Option Text
  | '[' :: s => Text.before? [']'] s
  | _ => none

/-- The items to loop over, by a reader of JSON. A bracketed text is JSON if it can be read so and
otherwise a comma list; any other text is a path, where nothing and null have no items. -/
def itemsBy (json? : Text → Option Value) (source : Text) (vars : Fields) :
    Except TemplateError (List Value) :=
  let source := source.trim
  match unbracket? source with
  | some inner =>
    match json? source with
    | some (.array items) => .ok items
    | _ => .ok (readCommaList inner)
  | none =>
    match vars.valueAt? source with
    | none | some .null => .ok []
    | some (.array items) => .ok items
    | some other => .error (.typeMismatch source other.typeName)

def items (source : Text) (vars : Fields) : Except TemplateError (List Value) :=
  itemsBy (Json.read? Json.depthLimit) source vars

end Stencil.LoopSource
