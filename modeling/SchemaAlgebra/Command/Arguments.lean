import SchemaAlgebra.Fault

/-!
# Command line arguments

```text
graphql [-v | --verbose] [merge | pare] OPTIONS
  --target PATH...              the schema that is merged into or pared from
  --source PATH...              the schema that is merged in or subtracted
  --graphql-file-exts EXT,...   the extensions of the files that are looked for in directories
  -o, --output FILE             the file that the result is written to
  -h, --help
```

The arguments are read from left to right.  An option that takes values takes the arguments that
follow it up to its number of values, or up to the next argument that starts with `-`; a value can
also be attached by `=`, or directly to a short option, and is then the only one.  What an option
was given is looked at when the next option begins, so of two mistakes the earlier one is
reported, except that an unknown argument comes before a mistake in the option right before it.
-/

namespace SchemaAlgebra

/-! ## Options -/

/-- Why arguments do not say what to do, help and version being among the reasons. -/
inductive UsageError where
  | argumentConflict | displayHelp | displayVersion | invalidSubcommand | invalidValue
  | missingRequiredArgument | tooManyValues | unknownArgument
  deriving DecidableEq, Repr

/-- The options of both commands. -/
structure Options where
  extensions : List String
  output : Option String
  target : List String
  source : List String
  deriving DecidableEq, Repr

/-- The extensions that are looked for if none are given. -/
def defaultExtensions : List String := ["graphql", "graphqls"]

/-- What a command line asks for: a command with its options, or nothing. -/
structure Invocation where
  verbose : Bool
  command : Option (Operation × Options)
  deriving DecidableEq, Repr

/-- The options that take values. -/
inductive OptionName where
  | extensions | output | target | source
  deriving DecidableEq, Repr

/-- The option of a long name. -/
def OptionName.ofLong? : String → Option OptionName
  | "graphql-file-exts" => some .extensions
  | "output" => some .output
  | "target" => some .target
  | "source" => some .source
  | _ => none

/-- Whether an option takes any number of values; the others take one. -/
def OptionName.takesMany : OptionName → Bool
  | .target | .source => true
  | .extensions | .output => false

/-! ## Reading the options of a command -/

/-- The values of each option so far; nothing for an option that has not been given. -/
structure GivenOptions where
  extensions : Option (List String)
  output : Option String
  target : Option (List String)
  source : Option (List String)
  deriving DecidableEq, Repr

namespace GivenOptions

/-- No option has been given. -/
def empty : GivenOptions := ⟨none, none, none, none⟩

/-- Puts the values of an option to the ones that it had before.  Paths must not be empty, every
option needs a value, and the output can be given only once. -/
def add (given : GivenOptions) (option : OptionName) (values : List String) :
    Except UsageError GivenOptions :=
  if values.isEmpty then .error .invalidValue
  else match option with
  | .extensions =>
    let parts := values.flatMap fun value => value.splitOn ","
    .ok { given with extensions := some (given.extensions.getD [] ++ parts) }
  | .output =>
    if given.output.isSome then .error .argumentConflict
    else if values.contains "" then .error .invalidValue
    else .ok { given with output := values.head? }
  | .target =>
    if values.contains "" then .error .invalidValue
    else .ok { given with target := some (given.target.getD [] ++ values) }
  | .source =>
    if values.contains "" then .error .invalidValue
    else .ok { given with source := some (given.source.getD [] ++ values) }

/-- The options of a command that has been given all it needs. -/
def complete (given : GivenOptions) : Except UsageError Options :=
  match given.target, given.source with
  | some target, some source =>
    .ok ⟨given.extensions.getD defaultExtensions, given.output, target, source⟩
  | _, _ => .error .missingRequiredArgument

end GivenOptions

/-- An option whose values are being read, with the values so far. -/
structure PendingOption where
  option : OptionName
  values : List String
  deriving DecidableEq, Repr

/-- Adds the option whose values were being read to the others. -/
def settlePending (given : GivenOptions) : Option PendingOption → Except UsageError GivenOptions
  | none => .ok given
  | some pending => given.add pending.option pending.values

/-- The form of an argument. -/
inductive ArgumentForm where
  /-- `--`, after which no options follow. -/
  | escape
  /-- `--name` or `--name=value`. -/
  | long (name : String) (value : Option String)
  /-- `-` with letters behind it. -/
  | short (letters : List Char)
  | plain

/-- Splits a text at the first `=`. -/
def splitAtEquals (text : List Char) : String × Option String :=
  let name := String.ofList (text.takeWhile (· ≠ '='))
  match text.dropWhile (· ≠ '=') with
  | [] => (name, none)
  | _ :: value => (name, some (String.ofList value))

/-- The form of an argument. -/
def argumentForm (argument : String) : ArgumentForm :=
  match argument.toList with
  | ['-', '-'] => .escape
  | '-' :: '-' :: text => let (name, value) := splitAtEquals text; .long name value
  | '-' :: letter :: letters => .short (letter :: letters)
  | _ => .plain

/-- Whether a pending option takes another value. -/
def takesMore (pending : PendingOption) : Bool :=
  pending.option.takesMany || pending.values.isEmpty

/-- Reads the options of a command. -/
def readOptions (given : GivenOptions) (pending : Option PendingOption) :
    List String → Except UsageError GivenOptions
  | [] => settlePending given pending
  | argument :: rest =>
    match argumentForm argument with
    -- Behind the escape there are only plain arguments, which no command takes.
    | .escape => if rest.isEmpty then settlePending given pending else .error .unknownArgument
    | .long "help" none => do
      let _ ← settlePending given pending
      throw .displayHelp
    | .long "help" (some _) => .error .tooManyValues
    | .long name value =>
      match OptionName.ofLong? name with
      | none => .error .unknownArgument
      | some option => do
        let given ← settlePending given pending
        match value with
        | none => readOptions given (some ⟨option, []⟩) rest
        | some value => readOptions (← given.add option [value]) none rest
    | .short ('h' :: _) => do
      let _ ← settlePending given pending
      throw .displayHelp
    | .short ['o'] => do
      let given ← settlePending given pending
      readOptions given (some ⟨.output, []⟩) rest
    | .short ('o' :: attached) => do
      let given ← settlePending given pending
      let value := if attached.head? = some '=' then attached.drop 1 else attached
      readOptions (← given.add .output [String.ofList value]) none rest
    | .short _ => .error .unknownArgument
    | .plain =>
      match pending with
      | some pending =>
        if takesMore pending then
          readOptions given (some ⟨pending.option, pending.values ++ [argument]⟩) rest
        else .error .unknownArgument
      | none => .error .unknownArgument

/-! ## Reading a command line -/

/-- The command of a name. -/
def commandNamed? : String → Option Operation
  | "merge" => some .merge
  | "pare" => some .pare
  | _ => none

/-- Whether a word names a command, the one for help included. -/
def isCommand (word : String) : Bool := (commandNamed? word).isSome || word = "help"

/-- What becomes of a request for help about a command.  No command has commands of its own. -/
def readHelp : List String → UsageError
  | [] => .displayHelp
  | [word] => if isCommand word then .displayHelp else .invalidSubcommand
  | _ => .invalidSubcommand

/-- Reads a group of letters in front of the command. -/
def readLetters (verbose : Bool) : List Char → Except UsageError Bool
  | [] => .ok verbose
  | 'v' :: rest => if verbose then .error .argumentConflict else readLetters true rest
  | 'h' :: _ => .error .displayHelp
  | 'V' :: _ => .error .displayVersion
  | _ => .error .unknownArgument

/-- Reads a command line.  `verbose` tells whether that has been asked for so far. -/
def readInvocation (verbose : Bool) : List String → Except UsageError Invocation
  | [] => .ok ⟨verbose, none⟩
  | argument :: rest =>
    match argumentForm argument with
    | .escape =>
      match rest with
      | [] => .ok ⟨verbose, none⟩
      | word :: _ => .error (if isCommand word then .unknownArgument else .invalidSubcommand)
    | .long "verbose" none =>
      if verbose then .error .argumentConflict else readInvocation true rest
    | .long "help" none => .error .displayHelp
    | .long "version" none => .error .displayVersion
    | .long name value =>
      let known := name = "verbose" ∨ name = "help" ∨ name = "version"
      .error (if known ∧ value.isSome then .tooManyValues else .unknownArgument)
    | .short letters => do readInvocation (← readLetters verbose letters) rest
    | .plain =>
      match commandNamed? argument with
      | some operation => do
        let given ← readOptions .empty none rest
        return ⟨verbose, some (operation, ← given.complete)⟩
      | none => .error (if argument = "help" then readHelp rest else .invalidSubcommand)

/-- What a command line asks for. -/
def Invocation.ofArguments (arguments : List String) : Except UsageError Invocation :=
  readInvocation false arguments

end SchemaAlgebra
