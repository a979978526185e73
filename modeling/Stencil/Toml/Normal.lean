import Stencil.Toml.Reader

/-! The data of a TOML document, for which the order of a table's entries does not count: keys are
sorted. A table that begins with the key of dates and times stands for one, whatever else it
holds, and must have a date or time under that key. -/
namespace Stencil.Toml

/-- Puts an entry in its place among entries sorted by key. -/
def insertByKey (key : Text) (v : Value) : Fields → Fields
  | [] => [(key, v)]
  | (k, w) :: rest => if key < k then (key, v) :: (k, w) :: rest else (k, w) :: insertByKey key v rest

/-- Whether a table stands for a date or time. -/
def isStandIn (fields : Fields) : Bool := fields.head?.any fun entry => entry.1 = momentKey

/-- The date or time that a table stands for, written in the string that is its first entry. -/
def standIn? : Fields → Option Value
  | (_, .string s) :: _ => (moment? s).map momentValue
  | _ => none

mutual

/-- The data of a value, if every table in it that stands for a date or time has one. -/
def normal? : Value → Option Value
  | .array items => (normalItems? items).map .array
  | .object fields =>
    if isStandIn fields then standIn? fields else (normalFields? fields).map .object
  | v => some v

def normalItems? : List Value → Option (List Value)
  | [] => some []
  | v :: rest => do
    let v ← normal? v
    let rest ← normalItems? rest
    return v :: rest

/-- The data of the entries of an ordinary table. -/
def normalFields? : List (Text × Value) → Option Fields
  | [] => some []
  | (key, v) :: rest => do
    let v ← normal? v
    let rest ← normalFields? rest
    return insertByKey key v rest

end

/-- The data of a document; the document itself is an ordinary table. -/
def readNormal? (s : Text) : Option Fields := (read? s).bind normalFields?

end Stencil.Toml
