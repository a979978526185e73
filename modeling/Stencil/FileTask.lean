import Stencil.Disk
import Stencil.Rendering

/-! Tasks that ask about files. A task can run on a modelled disk, where it is a function, or on
a real one. Main statement: running a sequence of tasks is running them one after the other. -/
namespace Stencil

inductive FileTask : Type → Type 1
  | done {α : Type} (a : α) : FileTask α
  | isDirectory (path : Text) : FileTask Bool
  | isFile (path : Text) : FileTask Bool
  | read (path : Text) : FileTask (Except Text Text)
  | andThen {α β : Type} (x : FileTask α) (f : α → FileTask β) : FileTask β

namespace FileTask
variable {α β : Type}

/-- Goes on at once if there is nothing to ask. -/
def bind (x : FileTask α) (f : α → FileTask β) : FileTask β :=
  match x with
  | .done a => f a
  | x => .andThen x f

instance : Monad FileTask where
  pure := .done
  bind := bind

def directoryExists (path : Text) : FileTask Bool := .isDirectory path

def fileExists (path : Text) : FileTask Bool := .isFile path

/-- The text of a file, or the reason why it cannot be read. -/
def readText (path : Text) : FileTask (Except Text Text) := .read path

def run (disk : Disk) : {α : Type} → FileTask α → α
  | _, .done a => a
  | _, .isDirectory path => disk.isDirectory path
  | _, .isFile path => disk.isFile path
  | _, .read path => disk.read path
  | _, .andThen x f => (f (x.run disk)).run disk

@[simp] theorem run_pure (disk : Disk) (a : α) : (pure a : FileTask α).run disk = a := rfl

@[simp] theorem run_bind (disk : Disk) (x : FileTask α) (f : α → FileTask β) :
    (x >>= f).run disk = (f (x.run disk)).run disk := by
  cases x <;> rfl

end FileTask

/-- A loader of files, with the texts it has loaded so far if it keeps them. -/
structure FileLoader where
  cache : Option (Entries Text)

namespace FileLoader

def caching : FileLoader := ⟨some []⟩
def uncached : FileLoader := ⟨none⟩

def cached? (loader : FileLoader) (path : Text) : Option Text :=
  loader.cache.bind (·.get? path)

def remember (loader : FileLoader) (path content : Text) : FileLoader :=
  ⟨loader.cache.map (·.insert path content)⟩

/-- A text that was loaded before, or else the file's text. A failure leaves no trace. -/
def load (loader : FileLoader) (path : Text) : FileTask (FileLoader × Except Text Text) :=
  match loader.cached? path with
  | some content => pure (loader, .ok content)
  | none => do
    match ← FileTask.readText path with
    | .ok content => pure (loader.remember path content, .ok content)
    | .error reason => pure (loader, .error reason)

/-- Runs a rendering on the files that the loader loads. -/
def render (loader : FileLoader) :
    {α : Type} → Rendering α → FileTask (FileLoader × Rendering.Outcome α)
  | _, .done a => pure (loader, ⟨[], .ok a⟩)
  | _, .failed e => pure (loader, ⟨[], .error e⟩)
  | _, .load identifier => do
    let (loader, answer) ← loader.load identifier
    return (loader, match answer with
      | .ok content => ⟨[], .ok content⟩
      | .error reason => ⟨[], .error (.loadFailed identifier reason)⟩)
  | _, .use identifier => pure (loader, ⟨[identifier], .ok ()⟩)
  | _, .andThen x f => do
    let (loader, outcome) ← render loader x
    match outcome with
    | ⟨used, .error e⟩ => return (loader, ⟨used, .error e⟩)
    | ⟨used, .ok a⟩ =>
      let (loader, rest) ← render loader (f a)
      return (loader, rest.behind used)

end FileLoader
end Stencil
