import SchemaAlgebra.Command.Arguments
import SchemaAlgebra.Command.Load
import SchemaAlgebra.Pare

/-!
# Commands

The commands `merge` and `pare` load the target and the source from files, combine them, and write
the result to a file or give it back to be shown.  Nothing is written unless everything before it
succeeded.

`Command.run` works with any access to files, so the same command runs on a disk in memory and on a
real one.
-/

namespace SchemaAlgebra

/-- A command with its options. -/
structure Command where
  operation : Operation
  options : Options
  deriving DecidableEq, Repr

namespace Command

/-! ## Outcomes -/

/-- Why a command failed. -/
inductive Failure where
  | load (side : Side) (errors : List LoadError)
  | combine (operation : Operation) (cause : SourceError)
  | write (operation : Operation) (path reason : String)
  deriving DecidableEq, Repr

/-- What a command achieved. -/
inductive Success where
  /-- The result is to be shown. -/
  | shown (text : String)
  /-- The result was written to a file. -/
  | written (operation : Operation) (targetFiles sourceFiles skipped targetDefinitions
      definitions : Nat)
  deriving DecidableEq, Repr

/-- What came of a command, with the notices on the way. -/
abbrev Outcome := Noted (Except Failure Success)

/-! ## Wording -/

/-- The mark in front of a failure. -/
def redCross : String := "❌"

/-- The mark in front of a success. -/
def greenCheck : String := "✅"

/-- What an operation does, for example "merging". -/
def gerund : Operation → String
  | .merge => "merging"
  | .pare => "paring"

/-- What an operation did, for example "merged". -/
def participle : Operation → String
  | .merge => "merged"
  | .pare => "pared"

/-- A failure with the errors that led to it. -/
def errorList (summary : String) (errors : List String) : String :=
  let details := "\n".intercalate (errors.map ("  * " ++ ·))
  s!"{redCross} {summary}:\n{details}"

/-- The text of a failure. -/
def Failure.message : Failure → String
  | .load side errors =>
    errorList s!"Unable to load the {side.label} schema" (errors.map LoadError.message)
  | .combine operation cause =>
    s!"{redCross} Errors {gerund operation} schemas: {cause.message}"
  | .write operation path reason =>
    errorList s!"Unable to write the {participle operation} schema"
      [s!"Unable to write {path}: {reason}"]

/-- The text of a success. -/
def Success.message : Success → String
  | .shown text => text
  | .written operation targetFiles sourceFiles skipped targetDefinitions definitions =>
    let (title, last) := match operation with
      | .merge => ("Merged", s!"Wrote {definitions} top-level definitions.")
      | .pare =>
        ("Pared", s!"Kept {definitions} of {targetDefinitions} top-level target definitions.")
    s!"{greenCheck} {title} GraphQL schemas:\n" ++
      s!"  * Read {targetFiles} target files and {sourceFiles} source files.\n" ++
      s!"  * Skipped {skipped} non-file entries.\n" ++
      s!"  * {last}"

/-! ## Running -/

/-- Combines the two sides of a command. -/
def combine (operation : Operation) (target source : PlainBundle) :
    Noted (Except SourceError PlainBundle) :=
  match operation with
  | .merge =>
    let merged := merge Policy.rightWins (.bundle target) (.bundle source)
    ⟨merged.value, merged.notices⟩
  | .pare => pare (.bundle target) (.bundle source)

/-- Writes the result of a command, or has it shown if no file is named. -/
def deliver {m : Type → Type} [Monad m] (access : FileAccess m) (command : Command)
    (target source : LoadedSide) (result : PlainBundle) : m (Except Failure Success) := do
  let text := result.print
  match command.options.output with
  | none => return .ok (.shown text)
  | some path =>
    match ← access.write path text with
    | .error reason => return .error (.write command.operation path reason)
    | .ok () =>
      return .ok (.written command.operation target.fileCount source.fileCount
        (target.skippedCount + source.skippedCount) target.bundle.document.definitions.length
        result.document.definitions.length)

/-- Runs a command. -/
def run {m : Type → Type} [Monad m] (access : FileAccess m) (command : Command) : m Outcome := do
  let options := command.options
  let target ← loadSide access options.extensions .target options.target
  match target.value with
  | .error errors => return ⟨.error (.load .target errors), target.events⟩
  | .ok targetSide =>
    let source ← loadSide access options.extensions .source options.source
    let loading := target.events ++ source.events
    match source.value with
    | .error errors => return ⟨.error (.load .source errors), loading⟩
    | .ok sourceSide =>
      let combined := combine command.operation targetSide.bundle sourceSide.bundle
      let events := loading ++ combined.events
      match combined.value with
      | .error cause => return ⟨.error (.combine command.operation cause), events⟩
      | .ok result => return ⟨← deliver access command targetSide sourceSide result, events⟩

end Command

end SchemaAlgebra
