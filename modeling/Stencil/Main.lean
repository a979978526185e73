import Stencil.CommandLine.Program

/-! The command-line program on the real disk. -/
namespace Stencil.CommandLine

/-- The number of a system error, which may be given with its sign turned in 32 bits. -/
def errorNumber (code : UInt32) : Nat :=
  if code.toNat < 0x80000000 then code.toNat else 0x100000000 - code.toNat

/-- What is said about a failed access. -/
def systemReason (code : UInt32) (details : String) : Text :=
  let number := errorNumber code
  if number = 2 then DiskFault.notFound.reason
  else if number = 20 then DiskFault.notDirectory.reason
  else if number = 21 then DiskFault.isDirectory.reason
  else details.toList ++ " (os error ".toList ++ Decimal.digitsOf number ++ [')']

def reasonOf : IO.Error → Text
  | .alreadyExists _ code details | .interrupted _ code details
  | .noFileOrDirectory _ code details | .invalidArgument _ code details
  | .permissionDenied _ code details | .resourceExhausted _ code details
  | .inappropriateType _ code details | .noSuchThing _ code details
  | .otherError code details | .resourceBusy code details | .resourceVanished code details
  | .unsupportedOperation code details | .hardwareFault code details
  | .unsatisfiedConstraints code details | .illegalOperation code details
  | .protocolError code details | .timeExpired code details => systemReason code details
  | .unexpectedEof => "unexpected end of file".toList
  | .userError message => message.toList

def readFile (path : Text) : IO (Except Text Text) := do
  try
    let content ← IO.FS.readBinFile (String.ofList path)
    return match Utf8.decode? content.toList with
      | some s => .ok s
      | none => .error DiskFault.notText.reason
  catch e => return .error (reasonOf e)

def directoryExists (path : Text) : IO Bool := do
  try
    let metadata ← (← IO.FS.realPath (String.ofList path)).metadata
    return metadata.type == .dir
  catch _ => return false

def fileExists (path : Text) : IO Bool := do
  try
    let metadata ← (← IO.FS.realPath (String.ofList path)).metadata
    return metadata.type == .file
  catch _ => return false

def perform : {α : Type} → FileTask α → IO α
  | _, .done a => pure a
  | _, .isDirectory path => directoryExists path
  | _, .isFile path => fileExists path
  | _, .read path => readFile path
  | _, .andThen x f => do perform (f (← perform x))

end Stencil.CommandLine

def main (arguments : List String) : IO UInt32 := do
  let env : Stencil.CommandLine.Environment :=
    { workingDirectory := (← IO.currentDir).toString.toList
      baseDirectory := (← IO.getEnv "YAPL_BASE_DIR").map String.toList }
  let task := Stencil.CommandLine.run env (arguments.map String.toList)
  let exit ← Stencil.CommandLine.perform task
  (← IO.getStdout).putStr (String.ofList exit.stdout)
  (← IO.getStderr).putStr (String.ofList exit.stderr)
  return UInt32.ofNat exit.code
