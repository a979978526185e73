import Stencil.CommandLine.Arguments
import Stencil.FileResolver
import Stencil.FileTask
import Stencil.Options.Reader
import Stencil.Renderer
import Stencil.Toml.Normal

/-! The command-line program as a task on files: it renders a template and prints it, or checks
several templates with one loader. -/
namespace Stencil.CommandLine

structure Environment where
  workingDirectory : Text
  baseDirectory : Option Text := none

structure Exit where
  code : Nat
  stdout : Text := []
  stderr : Text := []

def Exit.failure (stdout message : Text) : Exit :=
  ⟨1, stdout, "Error: ".toList ++ message ++ ['\n']⟩

def configName : Text := "yapl.toml".toList

/-- The path of a file in a directory. -/
def pathIn (directory name : Text) : Text :=
  if directory.getLast? = some '/' then directory ++ name else directory ++ '/' :: name

/-- The part of a file's name behind its last point, which does not start the name. -/
def extension? (path : Text) : Option Text :=
  match (FilePath.ofText path).steps.getLast? with
  | some (some (.text name)) =>
    match Text.splitFirst? (· == '.') name.reverse with
    | some (extension, stem) => if stem.isEmpty then none else some extension.reverse
    | none => none
  | _ => none

/-- A task that may be given up with a message. -/
abbrev Attempt := ExceptT Text FileTask

/-- The options in a file. -/
def loadConfig (path : Text) : Attempt Options := ExceptT.mk do
  let content ← FileTask.readText path
  return (Options.ofFile path content).mapError fun e =>
    "Failed to load config ".toList ++ path ++ ": ".toList ++ e.message

/-- The file that is asked for, else the one in the base directory if there is one. -/
def loadOptions (config : Option Text) (baseDirectory : Text) : Attempt Options :=
  match config with
  | some path => loadConfig path
  | none => do
    let path := pathIn baseDirectory configName
    if ← FileTask.fileExists path then loadConfig path else return {}

/-- The value that a file of variables holds; its extension tells the format. -/
def readValue (path content : Text) : Except Text Value :=
  match (extension? path).map String.ofList with
  | some "json" =>
    match Json.read? Json.depthLimit content with
    | some v => .ok v
    | none => .error ("Invalid JSON in ".toList ++ path ++ ": malformed value".toList)
  | some "toml" =>
    match Toml.readNormal? content with
    | some fields => .ok (.object fields)
    | none => .error ("Invalid TOML in ".toList ++ path ++ ": malformed document".toList)
  | _ =>
    .error ("Unsupported vars file ".toList ++ path ++ " (expected .json or .toml)".toList)

def readVars (path content : Text) : Except Text Fields := do
  match ← readValue path content with
  | .object fields => return fields
  | _ => throw ("Vars file ".toList ++ path ++ " must contain a table at the top level".toList)

def loadVars (path : Option Text) : Attempt Fields :=
  match path with
  | none => return []
  | some path => ExceptT.mk do
    let content ← FileTask.readText path
    return match content with
      | .ok content => readVars path content
      | .error reason =>
        .error ("Failed to read vars file ".toList ++ path ++ ": ".toList ++ reason)

/-- A renderer of files with the variables that templates see. -/
structure Setup where
  renderer : Renderer
  vars : Fields
  base : FilePath

namespace Setup

def ofParts (workingDirectory baseDirectory : Text) (strict : Bool) (options : Options)
    (vars : Fields) : Setup :=
  let resolver := FileResolver.ofBase (.ofText workingDirectory) (.ofText baseDirectory) strict
  { renderer :=
      { options
        resolver := some resolver.resolve
        hasLoader := true
        baseDirectory := resolver.base.display }
    vars
    base := resolver.base }

/-- The base directory comes first, then the options, then the variables. -/
def load (env : Environment) (arguments : RenderArguments) : Attempt Setup := do
  let baseDirectory := arguments.baseDirectory.getD env.workingDirectory
  unless ← FileTask.directoryExists baseDirectory do
    throw ("Base directory not found: ".toList ++ baseDirectory)
  let options ← loadOptions arguments.config baseDirectory
  let vars ← loadVars arguments.vars
  return ofParts env.workingDirectory baseDirectory (!arguments.noStrict) options vars

/-- An identifier as seen from the base directory, when it lies below it. -/
def displayPath (setup : Setup) (identifier : Text) : Text :=
  let path := FilePath.ofText identifier
  if path.startsWith setup.base then
    FilePath.display ⟨false, path.steps.drop setup.base.steps.length⟩
  else identifier

/-- Renders one template with the given loader. -/
def render (setup : Setup) (loader : FileLoader) (template : Text) :
    FileTask (FileLoader × Except TemplateError Rendered) := do
  let (loader, outcome) ← loader.render (setup.renderer.renderFile template setup.vars)
  return (loader, Rendered.ofOutcome outcome)

end Setup

def usedFilesReport (setup : Setup) (r : Rendered) : Text :=
  "Used files:\n".toList
    ++ r.usedFiles.flatMap fun file => "  ".toList ++ setup.displayPath file ++ ['\n']

def runRender (setup : Setup) (template : Text) (usedFiles : Bool) : FileTask Exit := do
  let (_, result) ← setup.render .caching template
  match result with
  | .ok r => return ⟨0, r.content, if usedFiles then usedFilesReport setup r else []⟩
  | .error e => return .failure [] e.message

/-- The line that a checked template leaves. -/
def checkLine (template : Text) : Except TemplateError Rendered → Text
  | .ok r =>
    "✓ ".toList ++ template ++ " (".toList ++ Decimal.digitsOf r.usedFiles.length
      ++ " file(s))\n".toList
  | .error e => "✗ ".toList ++ template ++ ": ".toList ++ e.message ++ ['\n']

/-- The results of all templates in order, each rendered with the loader that the one before it
leaves behind. -/
def checkAll (setup : Setup) : FileLoader → List Text →
    FileTask (List (Text × Except TemplateError Rendered))
  | _, [] => pure []
  | loader, template :: rest => do
    let (loader, result) ← setup.render loader template
    let later ← checkAll setup loader rest
    return (template, result) :: later

def failed : Except TemplateError Rendered → Bool
  | .ok _ => false
  | .error _ => true

def runCheck (setup : Setup) (templates : List Text) : FileTask Exit := do
  let results ← checkAll setup .caching templates
  let stdout := results.flatMap fun (template, result) => checkLine template result
  let failures := results.countP fun (_, result) => failed result
  if failures = 0 then return ⟨0, stdout, []⟩
  else
    return .failure stdout
      (Decimal.digitsOf failures ++ " of ".toList ++ Decimal.digitsOf templates.length
        ++ " template(s) failed".toList)

def runCommand (env : Environment) (command : Command) : FileTask Exit := do
  match ← (Setup.load env command.arguments).run with
  | .error message => return .failure [] message
  | .ok setup =>
    match command with
    | .render template _ usedFiles => runRender setup template usedFiles
    | .check templates _ => runCheck setup templates

def usage : Text :=
  ("Usage: yapl render TEMPLATE [--vars FILE] [--base-dir DIR] [--config FILE] [--no-strict]"
    ++ " [--used-files]\n"
    ++ "       yapl check TEMPLATE... [--vars FILE] [--base-dir DIR] [--config FILE]"
    ++ " [--no-strict]\n").toList

def versionText : Text := "yapl 0.1.0\n".toList

def refuse : Refusal → Exit
  | .help => ⟨0, usage, []⟩
  | .version => ⟨0, versionText, []⟩
  | .misuse => ⟨2, [], usage⟩

/-- Runs the program with its arguments. -/
def run (env : Environment) (arguments : List Text) : FileTask Exit :=
  match Command.ofArguments env.baseDirectory arguments with
  | .ok command => runCommand env command
  | .error refusal => return refuse refusal

end Stencil.CommandLine
