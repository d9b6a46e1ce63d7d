import SchemaAlgebra.Command

/-!
# The program

Reads the command line, runs the command on the real file system, and shows what came of it.
-/

namespace SchemaAlgebra

/-- The text that explains the command line. -/
def usage : String :=
  "Usage: graphql [-v] <merge|pare> --target <PATH>... --source <PATH>...\n" ++
    "               [--graphql-file-exts <EXT,...>] [-o <FILE>]"

/-- The text for a usage error. -/
def UsageError.message : UsageError → String
  | .argumentConflict => "an argument was given more than once"
  | .displayHelp => usage
  | .displayVersion => "graphql 0.1.1"
  | .invalidSubcommand => "there is no such command"
  | .invalidValue => "an option has an unsuitable value, or none"
  | .missingRequiredArgument => "both --target and --source are needed"
  | .tooManyValues => "an option that takes no value was given one"
  | .unknownArgument => "an argument was not expected"

/-- Whether a usage error is a request. -/
def UsageError.isRequest (cause : UsageError) : Bool :=
  cause = .displayHelp || cause = .displayVersion

/-- The reason that a file system gives for an error. -/
def reasonOf : IO.Error → String
  | .noFileOrDirectory _ code details | .inappropriateType (some _) code details
  | .permissionDenied (some _) code details => s!"{details} (os error {code})"
  | .inappropriateType none code details | .permissionDenied none code details
  | .otherError code details => s!"{details} (os error {code})"
  | other => toString other

/-- What stands at a path of the real file system. -/
partial def surveyPath (path : String) : IO (FileTree String) := do
  try
    let resolved ← IO.FS.realPath path
    if ← resolved.isDir then
      let entries ← resolved.readDir
      let below ← entries.toList.mapM fun entry => do
        return (entry.fileName, ← surveyPath (joinPath path entry.fileName))
      return .directory below
    else
      match (← resolved.metadata).type with
      | .file => return .file resolved.toString
      | _ => return .device
  catch error => return .unreadable (reasonOf error)

/-- The text of a file of the real file system. -/
def readPath (path : String) : IO (Except String String) := do
  try return decodeText (← IO.FS.readBinFile path)
  catch error => return .error (reasonOf error)

/-- Writes a text to a file of the real file system. -/
def writePath (path text : String) : IO (Except String Unit) := do
  try
    IO.FS.writeFile path text
    return .ok ()
  catch error => return .error (reasonOf error)

/-- Access to the real file system. -/
def realAccess : FileAccess IO := ⟨surveyPath, readPath, writePath⟩

/-- Runs what a command line asks for, and gives the exit code. -/
def runInvocation (invocation : Invocation) : IO UInt32 := do
  match invocation.command with
  | none =>
    IO.println usage
    return 0
  | some (operation, options) =>
    let outcome ← Command.run realAccess ⟨operation, options⟩
    if invocation.verbose then
      for notice in outcome.events do
        if notice.level ≠ .trace then IO.eprintln notice.line
    match outcome.value with
    | .ok success =>
      IO.println success.message
      return 0
    | .error failure =>
      IO.eprintln failure.message
      return 1

/-- Runs the program with the given arguments, and gives the exit code. -/
def runArguments (arguments : List String) : IO UInt32 := do
  match Invocation.ofArguments arguments with
  | .ok invocation => runInvocation invocation
  | .error cause =>
    if cause.isRequest then
      IO.println cause.message
      return 0
    else
      IO.eprintln s!"error: {cause.message}\n\n{usage}"
      return 2

end SchemaAlgebra

/-- Runs the program. -/
def main (arguments : List String) : IO UInt32 := SchemaAlgebra.runArguments arguments
