import Stencil.Value

/-! Tables of a TOML document while they grow. A table remembers how it came about, because that
decides who may still add to it. -/
namespace Stencil.Toml

/-- A table has a header of its own, or it is named only on the way to another header, or by a
dotted key. -/
inductive Origin
  | header
  | implied
  | dotted
deriving DecidableEq

inductive Node
  | leaf (v : Value)
  | table (origin : Origin) (entries : List (Text × Node))
  | rows (tables : List (List (Text × Node)))

abbrev Table := Entries Node

namespace Table

/-- A change to a table that is or is not dotted. -/
abbrev Change := (dotted : Bool) → Table → Option Table

/-- Makes a change at the end of a path. Tables that are missing on the way come about as
`origin` says; a path through a list of tables goes through its last one, and a dotted key does
not lead into a table that has a header. -/
def changeAt (origin : Origin) (change : Change) : List Text → Change
  | [], dotted, t => change dotted t
  | key :: path, _, t =>
    match t.get? key with
    | none =>
      (changeAt origin change path (origin == .dotted) []).map fun sub =>
        t.insert key (.table origin sub)
    | some (.leaf _) => none
    | some (.table other sub) =>
      if origin == .dotted && other == .header then none
      else (changeAt origin change path (other == .dotted) sub).map fun sub =>
        t.insert key (.table other sub)
    | some (.rows tables) =>
      match tables.getLast? with
      | none => none
      | some last =>
        (changeAt origin change path false last).map fun last =>
          t.insert key (.rows (tables.dropLast ++ [last]))

/-- A new entry. Only a table that dotted keys have made takes further dotted keys. -/
def addEntry (path : List Text) (key : Text) (v : Value) : Change :=
  changeAt .dotted
    (fun dotted t =>
      if dotted == path.isEmpty || t.contains key then none else some (t.insert key (.leaf v)))
    path

/-- A table with a header. It may exist already as part of other headers' paths, but no more; its
header then gives it a new place, behind the entries that are there. -/
def addTable (path : List Text) (key : Text) : Change :=
  changeAt .implied
    (fun _ t =>
      match t.get? key with
      | none => some (t.insert key (.table .header []))
      | some (.table .implied sub) => some ((t.erase key).insert key (.table .header sub))
      | some _ => none)
    path

/-- One more table in a list of tables. -/
def addRow (path : List Text) (key : Text) : Change :=
  changeAt .implied
    (fun _ t =>
      match t.get? key with
      | none => some (t.insert key (.rows [[]]))
      | some (.rows tables) => some (t.insert key (.rows (tables ++ [[]])))
      | some _ => none)
    path

/-- A new entry below the latest header. -/
def addBelow (header path : List Text) (key : Text) (v : Value) (t : Table) : Option Table :=
  changeAt .implied (fun _ t => addEntry path key v false t) header false t

end Table

mutual

def Node.toValue : Node → Value
  | .leaf v => v
  | .table _ entries => .object (fieldsOf entries)
  | .rows tables => .array (rowsOf tables)

def fieldsOf : List (Text × Node) → Fields
  | [] => []
  | (key, node) :: rest => (key, node.toValue) :: fieldsOf rest

def rowsOf : List (List (Text × Node)) → List Value
  | [] => []
  | entries :: rest => .object (fieldsOf entries) :: rowsOf rest

end

end Stencil.Toml
