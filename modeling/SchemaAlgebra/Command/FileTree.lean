/-!
# File trees

A `FileTree` is what stands at a path: a file, a directory with named entries, a device, or
something that could not be looked at.  What is known of each file is the parameter `α`.

`FileTree.visits` lists everything at and below a path, a directory before its entries and the
entries in the order of their names.  A `Disk` is a tree in memory with the paths, reads and writes
of a file system, limits on the length of names and paths included.
-/

namespace SchemaAlgebra

/-! ## Trees -/

/-- What stands at a path. -/
inductive FileTree (α : Type) where
  | file (content : α)
  | directory (entries : List (String × FileTree α))
  /-- A directory whose entries cannot be listed. -/
  | closed (reason : String)
  /-- Something that takes any text and keeps none. -/
  | device
  /-- Something that cannot be looked at. -/
  | unreadable (reason : String)

/-- Something that is met on the way through a tree. -/
inductive Visited (α : Type) where
  | file (name : String) (content : α)
  /-- A directory or a device. -/
  | other
  | unreadable (path reason : String)

/-- The path of an entry of a directory. -/
def joinPath (path name : String) : String :=
  if path.endsWith "/" then path ++ name else path ++ "/" ++ name

/-- The extension of a file name: what follows its last point, unless the point is the first
character. -/
def extension? (name : String) : Option String :=
  let back := name.toList.reverse
  match back.dropWhile (· ≠ '.') with
  | [] | ['.'] => none
  | _ => some (String.ofList (back.takeWhile (· ≠ '.')).reverse)

example : extension? "a.b.graphql" = some "graphql" := by decide +kernel
example : extension? ".graphql" = none ∧ extension? "graphql" = none := by decide +kernel
example : extension? "a." = some "" := by decide +kernel

namespace FileTree

variable {α β : Type}

/-- Entries in the order of their names. -/
def sortEntries (entries : List (String × β)) : List (String × β) :=
  entries.mergeSort fun a b => a.1 ≤ b.1

mutual

/-- Everything at and below a path, where the tree stands under the name `name`. -/
def visits (path name : String) : FileTree α → List (Visited α)
  | .file content => [.file name content]
  | .device => [.other]
  | .closed reason => [.other, .unreadable path reason]
  | .unreadable reason => [.unreadable path reason]
  | .directory entries =>
    .other :: (sortEntries (entryVisits path entries)).flatMap Prod.snd

/-- What is met in each of the entries of a directory. -/
def entryVisits (path : String) : List (String × FileTree α) → List (String × List (Visited α))
  | [] => []
  | (name, tree) :: rest =>
    (name, tree.visits (joinPath path name) name) :: entryVisits path rest

end

/-- The entry of a directory under a name. -/
def entry? (name : String) : FileTree α → Option (FileTree α)
  | .directory entries => entries.lookup name
  | _ => none

/-- What stands under a list of names, one below the other. -/
def get? : List String → FileTree α → Option (FileTree α)
  | [], tree => some tree
  | name :: rest, tree => (tree.entry? name).bind (get? rest)

/-- Puts an entry into the entries of a directory, in place of one of the same name. -/
def setEntry (name : String) (tree : FileTree α) :
    List (String × FileTree α) → List (String × FileTree α)
  | [] => [(name, tree)]
  | (other, old) :: rest =>
    if other = name then (name, tree) :: rest else (other, old) :: setEntry name tree rest

/-- Puts a tree under a list of names and creates the directories on the way. -/
def put : FileTree α → List String → FileTree α → FileTree α
  | _, [], tree => tree
  | .directory entries, name :: rest, tree =>
    let below := (entries.lookup name).getD (.directory [])
    .directory (setEntry name (below.put rest tree) entries)
  | _, name :: rest, tree => .directory [(name, put (.directory []) rest tree)]

mutual

/-- The files of a tree with their paths. -/
def files (path : String) : FileTree α → List (String × α)
  | .file content => [(path, content)]
  | .directory entries => entryFiles path entries
  | .closed _ | .device | .unreadable _ => []

/-- The files in the entries of a directory. -/
def entryFiles (path : String) : List (String × FileTree α) → List (String × α)
  | [] => []
  | (name, tree) :: rest =>
    tree.files (if path = "" then name else joinPath path name) ++ entryFiles path rest

end

end FileTree

/-! ## Access to files -/

/-- How files are reached from a computation.  The files of a tree are known by the full paths that
they are read by. -/
structure FileAccess (m : Type → Type) where
  /-- What stands at a path. -/
  survey : String → m (FileTree String)
  /-- The text of a file, or why there is none. -/
  read : String → m (Except String String)
  /-- Writes a text to a file, or says why that failed. -/
  write : String → String → m (Except String Unit)

/-- Why a file has no text: its bytes are no UTF-8. -/
def invalidText : String := "stream did not contain valid UTF-8"

/-- The text that bytes stand for. -/
def decodeText (bytes : ByteArray) : Except String String :=
  match String.fromUTF8? bytes with
  | some text => .ok text
  | none => .error invalidText

/-! ## Paths -/

/-- Why a path leads nowhere. -/
inductive PathFault where
  | notFound | notADirectory | isADirectory | tooLong
  /-- The path holds a character that no name can have. -/
  | unusable
  deriving DecidableEq, Repr

/-- The text of a path fault. -/
def PathFault.message : PathFault → String
  | .notFound => "No such file or directory (os error 2)"
  | .notADirectory => "Not a directory (os error 20)"
  | .isADirectory => "Is a directory (os error 21)"
  | .tooLong => "File name too long (os error 36)"
  | .unusable => "file name contained an unexpected NUL byte"

/-- The number of bytes that no path reaches. -/
def pathLimit : Nat := 4096

/-- The largest number of bytes that a name can have. -/
def nameLimit : Nat := 255

/-- What is wrong with a path whatever there is on the disk. -/
def pathFault? (path : String) : Option PathFault :=
  if path.toList.contains '\x00' then some .unusable
  else if pathLimit ≤ path.utf8ByteSize then some .tooLong
  else none

example : pathFault? "a\x00" = some .unusable ∧ pathFault? "a" = none := by decide +kernel

/-- The parts of a path between slashes. -/
def pathParts (path : String) : List String := (path.toList.splitOn '/').map String.ofList

/-- The name that a path ends in, without slashes and single points behind it. -/
def fileName (path : String) : String :=
  ((pathParts path).filter fun part => part ≠ "" && part ≠ ".").getLastD ""

mutual

/-- What a walk from a path learns of a tree, whose full path is `full`: the full paths of its files.
The walk reaches directories by paths that get longer with each step, and too long a path keeps it
from listing them. -/
def FileTree.surveyed {α : Type} (path full : String) : FileTree α → FileTree String
  | .file _ => .file full
  | .directory entries =>
    match pathFault? path with
    | some fault => .closed fault.message
    | none => .directory (surveyedEntries path full entries)
  | .closed reason => .closed reason
  | .device => .device
  | .unreadable reason => .unreadable reason

/-- What a walk learns of the entries of a directory. -/
def FileTree.surveyedEntries {α : Type} (path full : String) :
    List (String × FileTree α) → List (String × FileTree String)
  | [] => []
  | (name, tree) :: rest =>
    (name, tree.surveyed (joinPath path name) (joinPath full name)) ::
      surveyedEntries path full rest

end

/-! ## Disks in memory -/

/-- A tree of files in memory. -/
structure Disk where
  root : FileTree ByteArray
  /-- The names that lead from the root to the working directory. -/
  workingDirectory : List String

namespace Disk

/-- The disk that has nothing but the null device and an empty working directory. -/
def empty (workingDirectory : List String) : Disk where
  root := FileTree.put (.directory [("dev", .directory [("null", .device)])]) workingDirectory
    (.directory [])
  workingDirectory := workingDirectory

/-- The full path of a list of names. -/
def fullPath (names : List String) : String := names.foldl joinPath "/"

/-- Where a path starts: at the root if it begins with a slash. -/
def start (disk : Disk) (path : String) : List String :=
  if path.startsWith "/" then [] else disk.workingDirectory

/-- Follows the parts of a path from the directory under a list of names, and gives the names of
where it leads.  The root is the directory above itself. -/
def follow (root : FileTree ByteArray) (here : List String) :
    List String → Except PathFault (List String)
  | [] => .ok here
  | part :: rest =>
    match root.get? here with
    | some (.directory entries) =>
      if part = "" || part = "." then follow root here rest
      else if part = ".." then follow root here.dropLast rest
      else if nameLimit < part.utf8ByteSize then .error .tooLong
      else if (entries.lookup part).isSome then follow root (here ++ [part]) rest
      else .error .notFound
    | _ => .error .notADirectory

/-- Parts that name nothing still ask for a directory. -/
example : follow (.directory [("a", .file ByteArray.empty)]) [] ["a", ""] =
    .error .notADirectory := by rfl
example : follow (.directory [("a", .directory [])]) [] ["a", ".", "..", "a"] = .ok ["a"] := by rfl

/-- The names that a path leads to from the root. -/
def resolve (disk : Disk) (path : String) : Except PathFault (List String) :=
  match pathFault? path with
  | some fault => .error fault
  | none => follow disk.root (disk.start path) (pathParts path)

/-- A tree with a directory under a list of names, unless something is there already. -/
def withDirectory (root : FileTree ByteArray) (names : List String) : FileTree ByteArray :=
  if (root.get? names).isSome then root else root.put names (.directory [])

/-- Walks the parts of a path from the directory under a list of names and creates each directory
that is missing, also one that the path leaves again.  Gives the tree and where the walk ends. -/
def withDirectories (root : FileTree ByteArray) (here : List String) :
    List String → FileTree ByteArray × List String
  | [] => (root, here)
  | part :: rest =>
    if part = "" || part = "." then withDirectories root here rest
    else if part = ".." then withDirectories root here.dropLast rest
    else withDirectories (withDirectory root (here ++ [part])) (here ++ [part]) rest

example : withDirectories (.directory []) [] ["a", "b", "..", "c", ""] =
    (.directory [("a", .directory [("b", .directory []), ("c", .directory [])])], ["a", "c"]) := by
  rfl

/-- Puts a file in its place and creates the directories on the way.  A path that ends in a slash
is one of a directory, which keeps its entries if it is there already. -/
def create (disk : Disk) (path : String) (content : ByteArray) : Disk :=
  let parts := pathParts path
  let name := parts.getLastD ""
  let (root, here) := withDirectories disk.root (disk.start path) parts.dropLast
  if name ∈ ["", ".", ".."] then { disk with root }
  else { disk with root := root.put (here ++ [name]) (.file content) }

/-- What stands at a path, with the full path of each file. -/
def survey (disk : Disk) (path : String) : FileTree String :=
  match disk.resolve path with
  | .error fault => .unreadable fault.message
  | .ok names =>
    match disk.root.get? names with
    | some tree => tree.surveyed path (fullPath names)
    | none => .unreadable PathFault.notFound.message

/-- The text of the file with a full path. -/
def read (disk : Disk) (full : String) : Except String String :=
  match disk.root.get? ((pathParts full).filter (· ≠ "")) with
  | some (.file bytes) => decodeText bytes
  | some _ => .error PathFault.isADirectory.message
  | none => .error PathFault.notFound.message

/-- The place for a file that is to be written: the names of its directory and its own name.  A path
that ends in a slash or in dots is one of a directory. -/
def place (disk : Disk) (path : String) : Except PathFault (List String × String) := do
  if let some fault := pathFault? path then throw fault
  let all := pathParts path
  -- Slashes at the end do not name anything, but only a directory may have them.
  let named := (all.reverse.dropWhile (· = "")).reverse
  let last := named.getLastD ".."
  let names ← follow disk.root (disk.start path) named.dropLast
  match disk.root.get? names with
  | some (.directory entries) =>
    if named.length < all.length ∨ last = "." ∨ last = ".." then throw .isADirectory
    if nameLimit < last.utf8ByteSize then throw .tooLong
    match entries.lookup last with
    | some (.directory _) => throw .isADirectory
    | _ => return (names, last)
  | _ => throw .notADirectory

/-- Writes a text to a file, in place of what the file held.  A device stays what it is. -/
def write (disk : Disk) (path text : String) : Except PathFault Disk := do
  let (names, name) ← disk.place path
  match disk.root.get? (names ++ [name]) with
  | some .device => return disk
  | _ => return { disk with root := disk.root.put (names ++ [name]) (.file text.toUTF8) }

/-- Access to the files of a disk in memory. -/
def access : FileAccess (StateM Disk) where
  survey path := do return (← get).survey path
  read full := do return (← get).read full
  write path text := do
    match (← get).write path text with
    | .ok disk =>
      set disk
      return .ok ()
    | .error fault => return .error fault.message

/-- The files in the working directory and below, by their paths from there. -/
def workingFiles (disk : Disk) : List (String × ByteArray) :=
  ((disk.root.get? disk.workingDirectory).map (FileTree.files "")).getD []

/-- The files of the working directory that are new or changed since an earlier state. -/
def changedSince (after before : Disk) : List (String × ByteArray) :=
  let old := before.workingFiles
  FileTree.sortEntries (after.workingFiles.filter fun (path, content) =>
    (old.lookup path).map ByteArray.data ≠ some content.data)

end Disk

end SchemaAlgebra
