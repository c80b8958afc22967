import TypedReads.Command.Paths
import TypedReads.Text.Utf8

/-!
# Files

What the program can see of a file system: each path leads to a file, to a directory, to nothing,
or nowhere at all, because a part before its last is a file or because it cannot be a path.
`FileTree` is a file system given by the lists of its directories and files. Its paths are kept as
UTF-8, so an unpaired surrogate in a path counts as U+FFFD.
-/

namespace TypedReads

/-- What a path leads to. -/
inductive FileEntry where
  | file (bytes : List UInt8)
  | directory
  | missing
  /-- The path runs through a file or cannot be a path. -/
  | unreachable
  deriving DecidableEq

/-- A file system. -/
abbrev Files := Text → FileEntry

/-- What is wrong with a file. -/
inductive FileError where
  /-- A configuration file that was asked for is missing. -/
  | configMissing (path : Text)
  /-- Any other failure of the file system. -/
  | inaccessible
  deriving DecidableEq

/-- The message of an error. The file system's own reasons are not told apart. -/
def FileError.message : FileError → Text
  | configMissing path => units "Config file not found: " ++ path
  | inaccessible => units "[object Object]"

namespace Files

/-- Whether there is anything at a path. -/
def exists? (files : Files) (path : Text) : Except FileError Bool :=
  match files path with
  | .missing => .ok false
  | .unreachable => .error .inaccessible
  | _ => .ok true

/-- The text of the file at a path. -/
def read (files : Files) (path : Text) : Except FileError Text :=
  match files path with
  | .file bytes => .ok (Text.ofFile bytes)
  | _ => .error .inaccessible

end Files

/-- A file system below a working directory: directories and files by the parts of their paths. A
directory of a directory or of a file need not be listed. -/
structure FileTree where
  /-- The directories. -/
  directories : List (List Text)
  /-- The files with their bytes. -/
  files : List (List Text × List UInt8)

namespace FileTree

/-- The number of bytes that the name of a file or a directory may have. -/
def maxPartBytes : Nat := 255

/-- The number of bytes that a path may have. -/
def maxPathBytes : Nat := 4095

/-- Adds a directory. -/
def addDirectory (tree : FileTree) (path : Text) : FileTree :=
  { tree with directories := normalParts path :: tree.directories }
where
  /-- The parts that lead somewhere. -/
  normalParts (path : Text) : List Text :=
    ((pathParts path.wellFormed).foldl (normalPart false) []).reverse

/-- Adds a file; a later one of the same path replaces it. -/
def addFile (tree : FileTree) (path : Text) (bytes : List UInt8) : FileTree :=
  { tree with files := (addDirectory.normalParts path, bytes) :: tree.files }

/-- Whether there is a directory of some parts: one that is listed, or one that something listed
stands in. -/
def hasDirectory (tree : FileTree) (parts : List Text) : Bool :=
  parts.isEmpty || tree.directories.any parts.isPrefixOf ||
    tree.files.any fun file => parts.isPrefixOf file.1 && parts != file.1

/-- Follows parts from a directory. -/
def follow (tree : FileTree) (directory : List Text) : List Text → FileEntry
  | [] => .directory
  | part :: rest =>
    if part = [] ∨ part = units "." then tree.follow directory rest
    else if part = units ".." then tree.follow directory.dropLast rest
    else
      let place := directory ++ [part]
      -- A file can only be the last part of a path.
      if tree.hasDirectory place then tree.follow place rest
      else
        match tree.files.find? fun file => file.1 = place with
        | some (_, bytes) => if rest.isEmpty then .file bytes else .unreachable
        | none => if maxPartBytes < (Text.toUtf8 part).length then .unreachable else .missing

/-- What a path leads to. The empty path leads to nothing, and no path holds a zero unit or is
longer than `maxPathBytes`. -/
def lookup (tree : FileTree) : Files := fun path =>
  if path = [] then .missing
  else if path.contains 0 ∨ maxPathBytes < path.toUtf8.length then .unreachable
  else tree.follow [] (pathParts path.wellFormed)

end FileTree

end TypedReads
