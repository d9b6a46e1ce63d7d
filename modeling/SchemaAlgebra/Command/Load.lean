import SchemaAlgebra.Command.FileTree
import SchemaAlgebra.Merge

/-!
# Loading schema files

One side of a command is given by a list of paths.  A path that is a file stands for that file,
whatever its name; a directory stands for all files at any depth below it that have one of the
wanted extensions.  The texts are merged in the order of the paths, and within a directory in the
order of the walk through it.

Errors are gathered: all paths are looked at before the first file is read, and all files are read
before they are merged.
-/

namespace SchemaAlgebra

/-! ## Errors -/

/-- Why one side of a command cannot be loaded. -/
inductive LoadError where
  /-- A path could not be looked at. -/
  | unreachable (path reason : String)
  /-- A file could not be read. -/
  | unreadable (side : Side) (path reason : String)
  /-- The texts of the files could not be merged. -/
  | uncombinable (side : Side) (cause : SourceError)
  deriving DecidableEq, Repr

/-- The text of a loading error. -/
def LoadError.message : LoadError → String
  | .unreachable path reason => s!"IO error for operation on {path}: {reason}: {reason}"
  | .unreadable side path reason => s!"Unable to read {side.label} file {path}: {reason}"
  | .uncombinable side cause =>
    s!"Unable to combine the {side.label} schema files: {cause.message}"

/-! ## Finding files -/

/-- The extensions that are asked for, without points in front. -/
def wantedExtensions (extensions : List String) : List String :=
  extensions.map fun extension => String.ofList (extension.toList.dropWhile (· = '.'))

/-- Whether a file's name has one of the wanted extensions. -/
def isWanted (extensions : List String) (name : String) : Bool :=
  (extension? name).any extensions.contains

/-- What is found at and below listed paths. -/
structure Found (α : Type) where
  /-- The files that are to be read, in order. -/
  files : List α
  /-- The number of things that are no files. -/
  skipped : Nat
  /-- What could not be looked at. -/
  errors : List LoadError

namespace Found

variable {α : Type}

/-- The file that is met, if it is wanted. -/
def wanted? (extensions : List String) : Visited α → Option α
  | .file name content => if isWanted extensions name then some content else none
  | _ => none

/-- The error that is met. -/
def error? : Visited α → Option LoadError
  | .unreadable path reason => some (.unreachable path reason)
  | _ => none

/-- Whether something else than a file is met. -/
def isSkipped : Visited α → Bool
  | .other => true
  | _ => false

/-- The file that a listed path is, if the walk from there leaves it out. -/
def leftOut? (extensions : List String) (name : String) : FileTree α → Option α
  | .file content => if isWanted extensions name then none else some content
  | _ => none

/-- What is found at and below one path.  A file that is listed itself is found even if its extension
is not wanted. -/
def ofPath (extensions : List String) (path : String) (tree : FileTree α) : Found α :=
  let name := fileName path
  let visits := tree.visits path name
  { files := visits.filterMap (wanted? extensions) ++ (leftOut? extensions name tree).toList
    skipped := visits.countP isSkipped
    errors := visits.filterMap error? }

/-- What is found at and below several paths. -/
def ofPaths (extensions : List String) (listed : List (String × FileTree α)) : Found α :=
  let found := listed.map fun (path, tree) => ofPath extensions path tree
  ⟨found.flatMap files, (found.map skipped).foldl (· + ·) 0, found.flatMap errors⟩

end Found

/-! ## Reading and merging -/

/-- A bundle without resolvers and scalar configs, as files give it. -/
abbrev PlainBundle := Bundle Unit Unit

/-- One side of a command. -/
structure LoadedSide where
  bundle : PlainBundle
  fileCount : Nat
  skippedCount : Nat

/-- The texts of files that were read, or the errors if there are any. -/
def gatherTexts (side : Side) (read : List (String × Except String String)) :
    Except (List LoadError) (List String) :=
  let errors := read.filterMap fun (path, result) =>
    match result with
    | .ok _ => none
    | .error reason => some (LoadError.unreadable side path reason)
  if errors.isEmpty then .ok (read.filterMap fun (_, result) => result.toOption)
  else .error errors

/-- Merges the texts of one side. -/
def combineTexts (side : Side) (texts : List String) :
    Noted (Except (List LoadError) PlainBundle) :=
  let combined : Asking Unit (Except SourceError PlainBundle) :=
    mergeAll Policy.rightWins (texts.map Source.sdl)
  ⟨combined.value.mapError fun cause => [.uncombinable side cause], combined.notices⟩

/-- Loads one side of a command. -/
def loadSide {m : Type → Type} [Monad m] (access : FileAccess m) (extensions : List String)
    (side : Side) (paths : List String) : m (Noted (Except (List LoadError) LoadedSide)) := do
  let listed ← paths.mapM fun path => do return (path, ← access.survey path)
  let found := Found.ofPaths (wantedExtensions extensions) listed
  if !found.errors.isEmpty then return pure (.error found.errors)
  let read ← found.files.mapM fun path => do return (path, ← access.read path)
  match gatherTexts side read with
  | .error errors => return pure (.error errors)
  | .ok texts =>
    return do
      let combined ← combineTexts side texts
      return combined.map fun bundle => ⟨bundle, found.files.length, found.skipped⟩

end SchemaAlgebra
