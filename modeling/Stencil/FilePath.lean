import Stencil.Utf8

/-! Slash-separated paths. A path is absolute or relative and goes up or down step by step; empty
segments and `.` are no steps. Normal forms go up only at their start, and never from the root. -/
namespace Stencil

/-- The name of a file. A name that is not valid UTF-8 is known by its bytes. -/
inductive FileName
  | text (s : Text)
  | bytes (b : List UInt8)
deriving DecidableEq

structure FilePath where
  absolute : Bool
  steps : List (Option FileName)
deriving DecidableEq

namespace FileName

def ofBytes (b : List UInt8) : FileName :=
  match Utf8.decode? b with
  | some s => .text s
  | none => .bytes b

def text? : FileName → Option Text
  | .text s => some s
  | .bytes _ => none

def display : FileName → Text
  | .text s => s
  | .bytes b => Utf8.decodeLossy b

end FileName

namespace FilePath

/-- One step: up is `none`, down is the name. -/
abbrev Step := Option FileName

def up : Step := none

def stepOf? (segment : Text) : Option Step :=
  if segment = [] ∨ segment = ['.'] then none
  else if segment = ['.', '.'] then some up
  else some (some (.text segment))

def ofText (s : Text) : FilePath :=
  ⟨s.head? == some '/', (s.splitOn '/').filterMap stepOf?⟩

def slash : UInt8 := 47
def dot : UInt8 := 46

def stepOfBytes? (segment : List UInt8) : Option Step :=
  if segment = [] ∨ segment = [dot] then none
  else if segment = [dot, dot] then some up
  else some (some (.ofBytes segment))

def ofBytes (b : List UInt8) : FilePath :=
  ⟨b.head? == some slash, (b.splitOn slash).filterMap stepOfBytes?⟩

/-- The second path seen from the first; an absolute path is the same from everywhere. -/
def join (a b : FilePath) : FilePath := if b.absolute then b else ⟨a.absolute, a.steps ++ b.steps⟩

/-- Adds a step to a normal form, given in reverse. -/
def push (absolute : Bool) (reversed : List Step) (step : Step) : List Step :=
  match step, reversed with
  | some name, _ => some name :: reversed
  | none, some _ :: rest => rest
  | none, _ => if absolute then reversed else none :: reversed

def normalize (p : FilePath) : FilePath :=
  ⟨p.absolute, (p.steps.foldl (push p.absolute) []).reverse⟩

/-- Whether the second path leads to the first one or into it. -/
def startsWith (p base : FilePath) : Bool :=
  p.absolute == base.absolute && base.steps.isPrefixOf p.steps

/-- Names and `..` with slashes between them, and a slash in front of an absolute path. -/
def write (absolute : Bool) (names : List Text) : Text :=
  let joined := ['/'].intercalate names
  if absolute then '/' :: joined else joined

def stepText? : Step → Option Text
  | none => some ['.', '.']
  | some name => name.text?

/-- The path as a text, when all its names are texts. -/
def text? (p : FilePath) : Option Text := (p.steps.mapM stepText?).map (write p.absolute)

def displayStep : Step → Text
  | none => ['.', '.']
  | some name => name.display

def display (p : FilePath) : Text := write p.absolute (p.steps.map displayStep)

end FilePath
end Stencil
