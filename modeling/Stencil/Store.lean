import Stencil.Entries
import Stencil.Error
import Stencil.Location

/-! Templates held in memory under slash-separated identifiers. The store resolves references
and loads what they resolve to. -/
namespace Stencil

structure Store where
  templates : Entries Text

namespace Store

def empty : Store := ⟨[]⟩

/-- Adds a template under its canonical identifier, in place of an earlier one. -/
def add (store : Store) (identifier content : Text) : Store :=
  ⟨store.templates.insert (Location.canonical identifier) content⟩

def ofList (templates : List (Text × Text)) : Store :=
  templates.foldl (fun store entry => store.add entry.1 entry.2) empty

def get? (store : Store) (identifier : Text) : Option Text := store.templates.get? identifier

def size (store : Store) : Nat := store.templates.length

def isEmpty (store : Store) : Bool := store.templates.isEmpty

/-- The identifier that a reference means in a directory. A leading slash starts at the top. -/
def resolve (reference directory : Text) : Text :=
  if reference.head? = some '/' ∨ directory = [] then Location.canonical reference
  else Location.canonical (directory ++ '/' :: reference)

def missing : Text := "no such template".toList

/-- The text of a template, or why there is none. -/
def read (store : Store) (identifier : Text) : Except Text Text :=
  match store.get? identifier with
  | some content => .ok content
  | none => .error missing

def load (store : Store) (identifier : Text) : Except TemplateError Text :=
  match store.read identifier with
  | .ok content => .ok content
  | .error reason => .error (.loadFailed identifier reason)

end Store
end Stencil
