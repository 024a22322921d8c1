import NeonAudit.FileTree.Path
import NeonAudit.Value.Entries

/-!
# File trees

A file tree consists of directories, files and symbolic links, and has a current directory in which
relative paths start. Following a path leads from directory to directory and replaces every link by
its target. The end of it is a location: the names of the entries that lead there from the root
without any link. Permissions and kinds of files other than regular ones are not described.
-/

namespace NeonAudit

/-- An entry of a directory. -/
inductive FileTree.Entry
  /-- A regular file with its content. -/
  | file (bytes : List UInt8)
  /-- A directory with its entries by name. -/
  | directory (entries : List (String × FileTree.Entry))
  /-- A symbolic link. -/
  | link (target : String)

/-- The directory that contains all others, and the directory in which relative paths start. -/
structure FileTree where
  /-- The entries of the root. -/
  entries : List (String × FileTree.Entry)
  /-- The location of the current directory. -/
  current : List String

namespace FileTree

/-- Why a path cannot be followed or a file not be read. -/
inductive Failure
  /-- A name has no entry. -/
  | notFound
  /-- A path goes on after a file. -/
  | notDirectory
  /-- A directory has no content to read. -/
  | isDirectory
  /-- Too many links were followed. -/
  | tooManyLinks
  /-- A name or a path is too long. -/
  | nameTooLong
  /-- A path holds the character of code zero. -/
  | nulInPath
deriving DecidableEq

/-- The statement of a failure. -/
def Failure.message : Failure → String
  | notFound => "No such file or directory (os error 2)"
  | notDirectory => "Not a directory (os error 20)"
  | isDirectory => "Is a directory (os error 21)"
  | tooManyLinks => "Too many levels of symbolic links (os error 40)"
  | nameTooLong => "File name too long (os error 36)"
  | nulInPath => "file name contained an unexpected NUL byte"

/-- How many links a path can lead through. -/
def maxLinks : Nat :=
  40

/-- How many bytes a name can have. -/
def maxNameBytes : Nat :=
  255

/-- How many bytes a path can have. -/
def maxPathBytes : Nat :=
  4095

/-- The entry to which names lead from an entry. -/
def Entry.at? : Entry → List String → Option Entry
  | entry, [] => some entry
  | .directory entries, name :: names => (Entries.get? entries name).bind (at? · names)
  | .file _, _ :: _ => none
  | .link _, _ :: _ => none

/-- The entry at a location. -/
def at? (tree : FileTree) (location : List String) : Option Entry :=
  Entry.at? (.directory tree.entries) location

/-- A step from a directory. -/
inductive Step
  /-- The directory itself. -/
  | stay
  /-- The directory above; above the root is the root. -/
  | up
  /-- An entry. -/
  | down (name : String)
deriving DecidableEq

/-- The step for a part of a path between its slashes. A slash at the end of a path asks for a
directory as a point does. -/
def Step.ofPart (part : List Char) : Step :=
  if part = [] ∨ part = ['.'] then stay
  else if part = ['.', '.'] then up
  else down (String.ofList part)

/-- The steps along a path. -/
def stepsOf (path : String) : List Step :=
  (Text.split '/' path.toList).map Step.ofPart

/-- Where a path starts that is found in a directory. -/
def startOf (directory : List String) (path : String) : List String :=
  if Path.isAbsolute path then [] else directory

/-- The location to which steps lead from a location, given how to go on from a link. -/
def walkVia (tree : FileTree) (follow : List String → List Step → Except Failure (List String)) :
    List String → List Step → Except Failure (List String)
  | location, [] => .ok location
  | location, step :: steps =>
    match tree.at? location with
    | none => .error .notFound
    | some (.file _) => .error .notDirectory
    | some (.link _) => .error .notDirectory
    | some (.directory entries) =>
      match step with
      | .stay => walkVia tree follow location steps
      | .up => walkVia tree follow location.dropLast steps
      | .down name =>
        if maxNameBytes < name.utf8ByteSize then .error .nameTooLong
        else
          match Entries.get? entries name with
          | none => .error .notFound
          | some (.link target) => follow (startOf location target) (stepsOf target ++ steps)
          | some (.file _) => walkVia tree follow (location ++ [name]) steps
          | some (.directory _) => walkVia tree follow (location ++ [name]) steps

/-- The location to which steps lead from a location through a limited number of links. -/
def walk (tree : FileTree) : (links : Nat) → List String → List Step → Except Failure (List String)
  | 0 => walkVia tree fun _ _ => .error .tooManyLinks
  | links + 1 => walkVia tree (walk tree links)

/-- The location to which a path leads. -/
def locate (tree : FileTree) (path : String) : Except Failure (List String) :=
  if '\x00' ∈ path.toList then .error .nulInPath
  else if path.isEmpty then .error .notFound
  else if maxPathBytes < path.utf8ByteSize then .error .nameTooLong
  else tree.walk maxLinks (startOf tree.current path) (stepsOf path)

/-- The entry to which a path leads. -/
def entry (tree : FileTree) (path : String) : Except Failure Entry :=
  match tree.locate path with
  | .error failure => .error failure
  | .ok location =>
    match tree.at? location with
    | none => .error .notFound
    | some entry => .ok entry

/-- Whether a path leads to a directory. -/
def isDirectory (tree : FileTree) (path : String) : Bool :=
  match tree.entry path with
  | .ok (.directory _) => true
  | _ => false

/-- Whether a path leads to a file. -/
def isFile (tree : FileTree) (path : String) : Bool :=
  match tree.entry path with
  | .ok (.file _) => true
  | _ => false

/-- Whether a path leads anywhere. -/
def hasEntry (tree : FileTree) (path : String) : Bool :=
  match tree.entry path with
  | .ok _ => true
  | .error _ => false

/-- The content of the file to which a path leads. No path ends at a link, since links are
followed. -/
def read (tree : FileTree) (path : String) : Except Failure (List UInt8) :=
  match tree.entry path with
  | .error failure => .error failure
  | .ok (.file bytes) => .ok bytes
  | .ok (.directory _) => .error .isDirectory
  | .ok (.link _) => .error .tooManyLinks

end FileTree

end NeonAudit
