/-!
# Files

Reading a file by its path gives its bytes or says why there are none. A path is followed part by
part: from the working directory, or from the root directory of the system if it begins with `/`.
-/

namespace OnePass

/-- Why a file could not be read. -/
inductive ReadFailure where
  | notFound
  | isDirectory
  | notDirectory
  | nameTooLong
  | other (description : String)
  deriving DecidableEq, Repr

/-- The words and the number that the system has for a failure. -/
def ReadFailure.message : ReadFailure → String
  | notFound => "No such file or directory (os error 2)"
  | isDirectory => "Is a directory (os error 21)"
  | notDirectory => "Not a directory (os error 20)"
  | nameTooLong => "File name too long (os error 36)"
  | other description => description

/-- What a name in a directory stands for. -/
inductive FileTree where
  | file (bytes : ByteArray)
  | directory (entries : List (String × FileTree))

/-- A working directory in a system. The directories between the root and the working directory are
unknown and count as empty. -/
structure Folder where
  /-- What is in the working directory. -/
  here : List (String × FileTree)
  /-- What is in the root directory. -/
  root : List (String × FileTree)

namespace Folder

/-- The root directory that every system has, with what a command finds on its standard input. The
usual directories are there. Of what lies deeper, only some devices are known. -/
def usualRoot (input : ByteArray) : List (String × FileTree) :=
  ("dev", .directory
      [("fd", .directory [("0", .file input)]), ("null", .file .empty), ("stdin", .file input)])
    :: ["bin", "boot", "etc", "home", "lib", "media", "mnt", "opt", "proc", "root", "run", "sbin",
        "srv", "sys", "tmp", "usr", "var"].map fun name => (name, .directory [])

/-! ## Paths -/

/-- Where a path has led to. -/
structure Place where
  tree : FileTree
  /-- What is in the directories that the place lies in, the nearest first. No directory lies above
  the last of them. -/
  above : List (List (String × FileTree))

/-- The number of bytes that the name of a file can have. -/
def longestName : Nat := 255

/-- The number of bytes that a path can have. -/
def longestPath : Nat := 4095

/-- Why there is no file of a name. -/
def missing (name : String) : ReadFailure :=
  if longestName < name.utf8ByteSize then .nameTooLong else .notFound

/-- Follows one part of a path. -/
def Place.follow (place : Place) (part : String) : Except ReadFailure Place :=
  match place.tree with
  | .file _ => .error .notDirectory
  | .directory entries =>
    if part = "" ∨ part = "." then .ok place
    else if part = ".." then
      match place.above with
      | [] => .ok place
      | nearest :: above => .ok ⟨.directory nearest, above⟩
    else
      match entries.lookup part with
      | some tree => .ok ⟨tree, entries :: place.above⟩
      | none => .error (missing part)

/-- Where a path begins. The directory that the working directory lies in is unknown. -/
def start (folder : Folder) (path : String) : Place :=
  if path.startsWith "/" then ⟨.directory folder.root, []⟩ else ⟨.directory folder.here, [[]]⟩

/-- Reads the file at a path. -/
def read (folder : Folder) (path : String) : Except ReadFailure ByteArray := do
  if longestPath < path.utf8ByteSize then throw .nameTooLong
  match (← (path.splitOn "/").foldlM Place.follow (folder.start path)).tree with
  | .file bytes => .ok bytes
  | .directory _ => .error .isDirectory

end Folder

end OnePass
