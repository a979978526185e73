import Stencil.Text

/-! The arguments of the command line: a subcommand with options, switches and references to
templates, in any order, and after `--` references only. -/
namespace Stencil.CommandLine

/-- What both subcommands take. -/
structure RenderArguments where
  vars : Option Text := none
  baseDirectory : Option Text := none
  config : Option Text := none
  noStrict : Bool := false

inductive Command
  | render (template : Text) (arguments : RenderArguments) (usedFiles : Bool)
  | check (templates : List Text) (arguments : RenderArguments)

def Command.arguments : Command → RenderArguments
  | .render _ arguments _ | .check _ arguments => arguments

/-- Why there is no command: help was asked for, or the arguments make no sense. -/
inductive Refusal
  | help
  | version
  | misuse

inductive Subcommand
  | render
  | check
deriving DecidableEq

namespace Subcommand

def ofName? (name : Text) : Option Subcommand :=
  if name = "render".toList then some .render
  else if name = "check".toList then some .check
  else none

end Subcommand

/-- The options that take a value. -/
inductive Setting
  | vars
  | baseDirectory
  | config
deriving DecidableEq

/-- The options that take none. -/
inductive Switch
  | verbose
  | noStrict
  | usedFiles
  | help
deriving DecidableEq

inductive Key
  | setting (s : Setting)
  | switch (s : Switch)

/-- What an option's long name means to a subcommand. -/
def Key.ofName? (command : Subcommand) (name : Text) : Option Key :=
  if name = "vars".toList then some (.setting .vars)
  else if name = "base-dir".toList then some (.setting .baseDirectory)
  else if name = "config".toList then some (.setting .config)
  else if name = "no-strict".toList then some (.switch .noStrict)
  else if name = "verbose".toList then some (.switch .verbose)
  else if name = "help".toList then some (.switch .help)
  else if name = "used-files".toList && command == .render then some (.switch .usedFiles)
  else none

/-- What has been read after the name of a subcommand. -/
structure Progress where
  templates : List Text := []
  settings : List (Setting × Text) := []
  switches : List Switch := []

namespace Progress

/-- No setting may be given twice, and none may be empty. -/
def set (p : Progress) (s : Setting) (value : Text) : Except Refusal Progress :=
  if (p.settings.lookup s).isSome || value.isEmpty then .error .misuse
  else .ok { p with settings := p.settings ++ [(s, value)] }

/-- No switch may be given twice. -/
def turnOn (p : Progress) (s : Switch) : Except Refusal Progress :=
  if s == .help then .error .help
  else if p.switches.contains s then .error .misuse
  else .ok { p with switches := p.switches ++ [s] }

def addTemplate (command : Subcommand) (p : Progress) (template : Text) :
    Except Refusal Progress :=
  if command == .render && !p.templates.isEmpty then .error .misuse
  else .ok { p with templates := p.templates ++ [template] }

/-- The letters behind a single dash. -/
def addLetters (p : Progress) : Text → Except Refusal Progress
  | [] => .ok p
  | c :: rest =>
    if c == 'v' then do addLetters (← p.turnOn .verbose) rest
    else if c == 'h' then .error .help
    else .error .misuse

end Progress

/-- An argument starts an option unless it is a lone dash. -/
def startsOption (argument : Text) : Bool :=
  match argument with
  | '-' :: _ :: _ => true
  | _ => false

/-- The name of a long option, and the value written behind an equals sign. -/
def splitOption (option : Text) : Text × Option Text :=
  match option.splitFirst? (· == '=') with
  | some (name, value) => (name, some value)
  | none => (option, none)

/-- Reads the arguments of a subcommand. After `--` they are all templates, and `pending` is the
setting that still waits for its value. -/
def readRest (command : Subcommand) :
    (pending : Option Setting) → (escaped : Bool) → List Text → Progress → Except Refusal Progress
  | none, _, [], p => .ok p
  | some _, _, [], _ => .error .misuse
  | some s, _, argument :: rest, p =>
    if startsOption argument then .error .misuse
    else do readRest command none false rest (← p.set s argument)
  | none, true, argument :: rest, p => do
    readRest command none true rest (← p.addTemplate command argument)
  | none, false, argument :: rest, p =>
    match argument with
    | ['-', '-'] => readRest command none true rest p
    | '-' :: '-' :: option =>
      let (name, value) := splitOption option
      match Key.ofName? command name, value with
      | none, _ => .error .misuse
      | some (.setting s), some value => do readRest command none false rest (← p.set s value)
      | some (.setting s), none => readRest command (some s) false rest p
      | some (.switch s), none => do readRest command none false rest (← p.turnOn s)
      | some (.switch _), some _ => .error .misuse
    | '-' :: c :: letters => do
      readRest command none false rest (← p.addLetters (c :: letters))
    | argument => do readRest command none false rest (← p.addTemplate command argument)

/-- The command that the arguments of a subcommand make. A base directory in the environment
takes the place of one that is not given. -/
def finish (command : Subcommand) (environment : Option Text) (p : Progress) :
    Except Refusal Command := do
  let p ←
    if (p.settings.lookup .baseDirectory).isSome then .ok p
    else match environment with
      | some directory => p.set .baseDirectory directory
      | none => .ok p
  let arguments : RenderArguments :=
    { vars := p.settings.lookup .vars
      baseDirectory := p.settings.lookup .baseDirectory
      config := p.settings.lookup .config
      noStrict := p.switches.contains .noStrict }
  match command, p.templates with
  | .render, [template] => .ok (.render template arguments (p.switches.contains .usedFiles))
  | .check, first :: rest => .ok (.check (first :: rest) arguments)
  | _, _ => .error .misuse

/-- The letters behind a single dash in front of the subcommand. -/
def readLetters (verbose : Bool) : Text → Except Refusal Bool
  | [] => .ok verbose
  | c :: rest =>
    if c == 'h' then .error .help
    else if c == 'V' then .error .version
    else if c == 'v' && !verbose then readLetters true rest
    else .error .misuse

/-- What is said about the arguments of `help`, which may name one subcommand. -/
def readHelp : List Text → Refusal
  | [] => .help
  | [name] =>
    if (Subcommand.ofName? name).isSome || name = "help".toList then .help else .misuse
  | _ => .misuse

/-- Reads what stands in front of the subcommand. -/
def readCommand (environment : Option Text) : (verbose : Bool) → List Text → Except Refusal Command
  | _, [] => .error .misuse
  | verbose, argument :: rest =>
    match Subcommand.ofName? argument with
    | some command => do finish command environment (← readRest command none false rest {})
    | none =>
      match argument with
      | '-' :: '-' :: name =>
        if name = "help".toList then .error .help
        else if name = "version".toList then .error .version
        else if name = "verbose".toList && !verbose then readCommand environment true rest
        else .error .misuse
      | '-' :: c :: letters => do
        readCommand environment (← readLetters verbose (c :: letters)) rest
      | name => if name = "help".toList then .error (readHelp rest) else .error .misuse

/-- The command that the arguments ask for, with the base directory that the environment names. -/
def Command.ofArguments (environment : Option Text) (arguments : List Text) :
    Except Refusal Command :=
  readCommand environment false arguments

end Stencil.CommandLine
