import Stencil.Toml.Quoted
import Stencil.Toml.Table

/-! Reading TOML documents. -/
namespace Stencil.Toml

abbrev Reader (α : Type) := Text → Option (α × Text)

def dropBlanks (s : Text) : Text := s.dropWhile Text.isIndent

/-- What follows the end of the line, before which blanks and a comment may stand. -/
def endLine? (s : Text) : Option Text :=
  let s := dropBlanks s
  let s := if s.head? == some '#' then s.dropWhile isPlain else s
  match s with
  | [] => some []
  | '\n' :: s => some s
  | '\r' :: '\n' :: s => some s
  | _ => none

/-- Blanks, line breaks and comments, as they may stand inside an array. -/
def skipLines : (comment : Bool) → Text → Option Text
  | comment, [] => if comment then none else some []
  | comment, '\r' :: s =>
    if s.head? == some '\n' then skipLines comment s
    else if comment then none
    else some ('\r' :: s)
  | _, '\n' :: s => skipLines false s
  | true, c :: s => if isPlain c then skipLines true s else none
  | false, c :: s =>
    if Text.isIndent c then skipLines false s
    else if c == '#' then skipLines true s
    else some (c :: s)

/-- One item, then more as long as a separator follows. Each item takes at least one character,
so `fuel` above the length of the text suffices. -/
def separated (item : Reader α) (separator : Text → Option Text) : (fuel : Nat) → Reader (List α)
  | 0, _ => none
  | fuel + 1, s => do
    let (a, s) ← item s
    match separator s with
    | none => some ([a], s)
    | some s => do
      let (rest, s) ← separated item separator fuel s
      some (a :: rest, s)

def isKeyChar (c : Char) : Bool := c.isAlphanum || c == '_' || c == '-'

def readSimpleKey? (s : Text) : Option (Text × Text) :=
  match s with
  | '"' :: _ | '\'' :: _ => readLine? s
  | s =>
    let (key, rest) := s.span isKeyChar
    if key.isEmpty then none else some (key, rest)

def readPaddedKey? (s : Text) : Option (Text × Text) :=
  (readSimpleKey? (dropBlanks s)).map fun (key, rest) => (key, dropBlanks rest)

def after? (c : Char) : Text → Option Text
  | d :: s => if c == d then some s else none
  | [] => none

/-- How deep arrays, inline tables and keys may nest. -/
def nestingLimit : Nat := 79

/-- A key as the path to its table and its last part. -/
def readKey? (s : Text) : Option ((List Text × Text) × Text) := do
  let (parts, rest) ← separated readPaddedKey? (after? '.') (s.length + 1) s
  let last ← parts.getLast?
  if nestingLimit < parts.length then none else some ((parts.dropLast, last), rest)

/-- `key = value`, with blanks anywhere but no line breaks around the parts. -/
def readBinding? (value : Reader Value) : Reader ((List Text × Text) × Value) := fun s => do
  let (key, s) ← readKey? s
  let s ← after? '=' s
  let (v, s) ← value (dropBlanks s)
  some ((key, v), dropBlanks s)

/-- The items of an array up to its closing bracket; a comma may follow the last one. -/
def readItems (value : Reader Value) : (fuel : Nat) → Reader (List Value)
  | 0, _ => none
  | fuel + 1, s => do
    let s ← skipLines false s
    match after? ']' s with
    | some s => some ([], s)
    | none =>
      let (v, s) ← value s
      let s ← skipLines false s
      match after? ',' s with
      | some s =>
        let (rest, s) ← readItems value fuel s
        some (v :: rest, s)
      | none =>
        let s ← after? ']' s
        some ([v], s)

def addEntries : List ((List Text × Text) × Value) → Table → Option Table
  | [], t => some t
  | ((path, key), v) :: rest, t => (Table.addEntry path key v false t).bind (addEntries rest)

/-- The entries of an inline table up to its closing brace. -/
def readInline (value : Reader Value) : Reader Value := fun s => do
  match after? '}' (dropBlanks s) with
  | some s => some (.object [], s)
  | none =>
    let (entries, s) ← separated (readBinding? value) (after? ',') (s.length + 1) s
    let s ← after? '}' s
    let t ← addEntries entries []
    some (.object (fieldsOf t), s)

/-- A value; arrays and inline tables may nest `depth` levels further down. -/
def readValue : (depth : Nat) → Reader Value
  | depth, s =>
    match s with
    | '"' :: _ | '\'' :: _ => (readString? s).map fun (t, rest) => (.string t, rest)
    | '[' :: rest =>
      match depth with
      | 0 => none
      | depth + 1 =>
        (readItems (readValue depth) (rest.length + 1) rest).map fun (items, rest) =>
          (.array items, rest)
    | '{' :: rest =>
      match depth with
      | 0 => none
      | depth + 1 => readInline (readValue depth) rest
    | s => readScalar? s

/-- The document read so far, and the path of the latest header. -/
structure Document where
  root : Table
  header : List Text

namespace Document

def addHeader (d : Document) (change : List Text → Text → Table.Change)
    (key : List Text × Text) : Option Document :=
  (change key.1 key.2 false d.root).map fun root => ⟨root, key.1 ++ [key.2]⟩

/-- One line: blank, a header, or an entry that may span several lines. -/
def readLine (d : Document) (s : Text) : Option (Document × Text) :=
  match dropBlanks s with
  | '[' :: '[' :: s => do
    let (key, s) ← readKey? s
    let s ← (after? ']' s).bind (after? ']')
    let s ← endLine? s
    let d ← d.addHeader Table.addRow key
    some (d, s)
  | '[' :: s => do
    let (key, s) ← readKey? s
    let s ← after? ']' s
    let s ← endLine? s
    let d ← d.addHeader Table.addTable key
    some (d, s)
  | s =>
    match endLine? s with
    | some rest => some (d, rest)
    | none => do
      let (((path, key), v), s) ← readBinding? (readValue nestingLimit) s
      let s ← endLine? s
      let root ← d.root.addBelow d.header path key v
      some (⟨root, d.header⟩, s)

/-- Reads lines until the text ends. Each takes at least one character, so `fuel` above the
length of the text suffices. -/
def readLines (d : Document) : (fuel : Nat) → Text → Option Document
  | 0, _ => none
  | _ + 1, [] => some d
  | fuel + 1, s => do
    let (d, s) ← d.readLine s
    readLines d fuel s

end Document

def dropMark : Text → Text
  | '\ufeff' :: s => s
  | s => s

/-- The fields of a TOML document in the order of the text; a byte order mark may stand in front
of it. -/
def read? (s : Text) : Option Fields :=
  let s := dropMark s
  (Document.readLines ⟨[], []⟩ (s.length + 1) s).map fun d => fieldsOf d.root

end Stencil.Toml
