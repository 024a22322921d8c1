import NeonAudit.Command
import NeonAudit.FileTree.Growth

/-!
# The program

The program records the part of the file system to which its paths lead and does on it what its
arguments ask for. Files and directories that cannot be read are left out.
-/

namespace NeonAudit.Main

/-- Does something to a tree, or leaves it as it is if that fails. -/
def orSame (tree : FileTree) (action : IO FileTree) : IO FileTree := do
  try action catch _ => return tree

/-- Whether the real path of an entry is a directory. -/
def isRealDirectory (location : String) : IO Bool := do
  try
    return (← (← IO.FS.realPath location).symlinkMetadata).type == .dir &&
      (← IO.FS.realPath location).toString == location
  catch _ => return false

/-- Records the file or the directory at a location, the directory without its entries. -/
def recordContent (tree : FileTree) (location : String) : IO FileTree :=
  orSame tree do
    match (← (← IO.FS.realPath location).symlinkMetadata).type with
    | .dir => return tree.put location (.directory [])
    | .file => return tree.put location (.file (← IO.FS.readBinFile location).toList)
    | _ => return tree

/-- Records the entry at a location; for a link this is the link and what it leads to. -/
def recordEntry (tree : FileTree) (location : String) : IO FileTree :=
  orSame tree do
    let target := (← IO.FS.realPath location).toString
    if target = location then recordContent tree location
    else recordContent (tree.put location (.link target)) target

/-- Records the entries along a path, given the real path before it. -/
def recordAlong (tree : FileTree) (before : String) : List FileTree.Step → IO FileTree
  | [] => return tree
  | .stay :: steps => recordAlong tree before steps
  | .up :: steps => recordAlong tree ((Path.parent? before).getD "/") steps
  | .down name :: steps => do
    let location := Path.join before name
    let tree ← recordEntry tree location
    match tree.locate location with
    | .ok names => recordAlong tree (Path.join "/" ("/".intercalate names)) steps
    | .error _ => return tree

/-- Records the entries along a path. -/
def recordPath (tree : FileTree) (path : String) : IO FileTree :=
  recordAlong tree ("/" ++ "/".intercalate (FileTree.startOf tree.current path))
    (FileTree.stepsOf path)

/-- Records all that is below a directory. -/
partial def recordBelow (tree : FileTree) (location : String) : IO FileTree :=
  orSame tree do
    let mut tree := tree
    for entry in ← (← IO.FS.realPath location).readDir do
      let path := Path.join location entry.fileName
      tree ← recordEntry tree path
      if ← isRealDirectory path then tree ← recordBelow tree path
    return tree

/-- Records a root with all that is below it. -/
def recordRoot (tree : FileTree) (root : String) : IO FileTree := do
  let tree ← recordPath tree root
  match tree.locate root with
  | .ok names => recordBelow tree ("/" ++ "/".intercalate names)
  | .error _ => return tree

/-- Records what a request needs. -/
def snapshot (request : Command.Request) : IO FileTree := do
  let current := FileTree.namesOf (← IO.currentDir).toString
  let mut tree := FileTree.bare current
  let mut roots := request.options.roots
  if let some path := request.options.config then
    tree ← recordPath tree path
    if let .ok config := Config.load tree path then
      let base := (Path.parent? path).getD "."
      roots := roots ++ config.roots ++ config.roots.map (Path.join base)
  for root in roots do
    tree ← recordRoot tree root
  return tree

end NeonAudit.Main

/-- Runs the program. -/
def main (arguments : List String) : IO UInt32 := do
  let tree ←
    match NeonAudit.Command.Request.ofArguments arguments with
    | .error _ => pure (NeonAudit.FileTree.bare [])
    | .ok request => NeonAudit.Main.snapshot request
  let completion := NeonAudit.Command.run tree arguments
  IO.print completion.output
  IO.eprint completion.complaint
  return completion.code.toUInt32
