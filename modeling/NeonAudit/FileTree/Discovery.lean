import NeonAudit.FileTree

/-!
# Finding documents

The documents below a root are the files whose names end in the extension `.neon`, in the root
itself and in the directories below it. Links to files count as files, and links to directories are
not followed, except by the path of the root itself. The documents of a root are in the order of
their paths, and one that was found below an earlier root is left out.
-/

namespace NeonAudit.FileTree

/-- How the names of documents end. -/
def extension : List Char :=
  ['.', 'n', 'e', 'o', 'n']

/-- Whether a name is the name of a document. -/
def isDocumentName (name : String) : Bool :=
  extension.isSuffixOf name.toList

mutual

/-- The documents at an entry with the given path and name. -/
def documentsAt (tree : FileTree) (path name : String) : Entry → List String
  | .directory entries => documentsAmong tree path entries
  | .file _ => if tree.isFile path && isDocumentName name then [path] else []
  | .link _ => if tree.isFile path && isDocumentName name then [path] else []

/-- The documents among the entries of the directory with the given path. -/
def documentsAmong (tree : FileTree) (directory : String) : List (String × Entry) → List String
  | [] => []
  | (name, entry) :: entries =>
    documentsAt tree (Path.join directory name) name entry ++ documentsAmong tree directory entries

end

/-- The documents below a root; there are none if it is no directory. -/
def documentsBelow (tree : FileTree) (root : String) : List String :=
  match tree.entry root with
  | .ok (.directory entries) => documentsAmong tree root entries
  | _ => []

/-- The documents below a root that are not among those seen before, in order. -/
def newDocumentsBelow (tree : FileTree) (seen : List String) (root : String) : List String :=
  ((tree.documentsBelow root).filter fun path => !seen.any (Path.same path)).mergeSort Path.isAtMost

/-- The documents below roots that are not among those seen before. -/
def documentsAfter (tree : FileTree) (seen : List String) : (roots : List String) → List String
  | [] => []
  | root :: roots =>
    let found := tree.newDocumentsBelow seen root
    found ++ documentsAfter tree (seen ++ found) roots

/-- The documents below roots. -/
def documents (tree : FileTree) (roots : List String) : List String :=
  tree.documentsAfter [] roots

end NeonAudit.FileTree
