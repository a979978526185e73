import Stencil.Entries
import Stencil.FilePath

/-! A disk of files and directories, seen from a working directory. -/
namespace Stencil

inductive DiskNode
  | file (content : List UInt8)
  | directory (entries : List (Text × DiskNode))

/-- Why a file cannot be read as a text. -/
inductive DiskFault
  | notFound
  | notDirectory
  | isDirectory
  | notText

def DiskFault.reason : DiskFault → Text
  | .notFound => "No such file or directory (os error 2)".toList
  | .notDirectory => "Not a directory (os error 20)".toList
  | .isDirectory => "Is a directory (os error 21)".toList
  | .notText => "stream did not contain valid UTF-8".toList

structure Disk where
  root : Entries DiskNode
  /-- The names from the root down to the working directory. -/
  workingDirectory : List Text := []

namespace Disk

/-- Directories inside one another. -/
def nested : List Text → Entries DiskNode
  | [] => []
  | name :: rest => [(name, .directory (nested rest))]

/-- A disk with nothing but the working directory. -/
def ofWorkingDirectory (names : List Text) : Disk := ⟨nested names, names⟩

/-- What stands below a directory at the end of the given names. -/
def nodeBelow? : Entries DiskNode → List Text → Option DiskNode
  | entries, [] => some (.directory entries)
  | entries, [name] => entries.get? name
  | entries, name :: rest =>
    match entries.get? name with
    | some (.directory inner) => nodeBelow? inner rest
    | _ => none

/-- Follows one segment of a path from a place, given by its names from the innermost one. Even
an empty segment only leads on from a directory. -/
def follow (disk : Disk) (place : List Text) (segment : Text) : Except DiskFault (List Text) :=
  match nodeBelow? disk.root place.reverse with
  | none => .error .notFound
  | some (.file _) => .error .notDirectory
  | some (.directory entries) =>
    if segment = [] ∨ segment = ['.'] then .ok place
    else if segment = ['.', '.'] then .ok (place.drop 1)
    else if Entries.contains entries segment then .ok (segment :: place)
    else .error .notFound

/-- What a path leads to. -/
def find (disk : Disk) (path : Text) : Except DiskFault DiskNode :=
  if path = [] then .error .notFound
  else do
    let start := if path.head? = some '/' then [] else disk.workingDirectory.reverse
    let place ← (path.splitOn '/').foldlM disk.follow start
    match nodeBelow? disk.root place.reverse with
    | some node => .ok node
    | none => .error .notFound

def isDirectory (disk : Disk) (path : Text) : Bool :=
  match disk.find path with
  | .ok (.directory _) => true
  | _ => false

def isFile (disk : Disk) (path : Text) : Bool :=
  match disk.find path with
  | .ok (.file _) => true
  | _ => false

/-- The text of a file, or the reason why there is none. -/
def read (disk : Disk) (path : Text) : Except Text Text :=
  match disk.find path with
  | .error fault => .error fault.reason
  | .ok (.directory _) => .error DiskFault.isDirectory.reason
  | .ok (.file content) =>
    match Utf8.decode? content with
    | some s => .ok s
    | none => .error DiskFault.notText.reason

/-- The entries with a file at the end of the given names; missing directories are made. -/
def writeBelow (content : List UInt8) : List Text → Entries DiskNode → Entries DiskNode
  | [], entries => entries
  | [name], entries => entries.insert name (.file content)
  | name :: rest, entries =>
    let inner := match entries.get? name with
      | some (.directory inner) => inner
      | _ => []
    entries.insert name (.directory (writeBelow content rest inner))

/-- The entries without what stands at the end of the given names. -/
def removeBelow : List Text → Entries DiskNode → Entries DiskNode
  | [], entries => entries
  | [name], entries => entries.erase name
  | name :: rest, entries =>
    match entries.get? name with
    | some (.directory inner) => entries.insert name (.directory (removeBelow rest inner))
    | _ => entries

def write (disk : Disk) (names : List Text) (content : List UInt8) : Disk :=
  { disk with root := writeBelow content names disk.root }

def remove (disk : Disk) (names : List Text) : Disk :=
  { disk with root := removeBelow names disk.root }

end Disk
end Stencil
