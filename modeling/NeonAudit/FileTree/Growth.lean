import NeonAudit.FileTree

/-!
# Growing file trees

A file tree can be made by putting one entry after another into an empty one. The directories above
an entry are made where they are missing, and an entry takes the place of an earlier one, but a
directory keeps what it holds.
-/

namespace NeonAudit.FileTree

/-- The entries of a directory with an entry put in under a name. -/
def putEntry (name : String) (new : Entry) (entries : List (String × Entry)) :
    List (String × Entry) :=
  match new, Entries.get? entries name with
  | .directory [], some (.directory _) => entries
  | _, _ => Entries.insert name new entries

/-- The entries of a directory with an entry put in where names lead. -/
def putAt (new : Entry) : (names : List String) → List (String × Entry) → List (String × Entry)
  | [], entries => entries
  | [name], entries => putEntry name new entries
  | name :: names, entries =>
    match Entries.get? entries name with
    | some (.directory below) => Entries.insert name (.directory (putAt new names below)) entries
    | _ => Entries.insert name (.directory (putAt new names [])) entries

/-- The names along a path, which neither leads up nor through links. -/
def namesOf (path : String) : List String :=
  (stepsOf path).filterMap fun
    | .down name => some name
    | .stay => none
    | .up => none

/-- The tree with an entry put in at a path. -/
def put (tree : FileTree) (path : String) (new : Entry) : FileTree :=
  ⟨putAt new (startOf tree.current path ++ namesOf path) tree.entries, tree.current⟩

/-- A tree that holds only its current directory, which is empty. -/
def bare (current : List String) : FileTree :=
  ⟨putAt (.directory []) current [], current⟩

/-- The tree that holds the given entries at paths from its current directory. -/
def ofEntries (current : List String) (entries : List (String × Entry)) : FileTree :=
  entries.foldl (fun tree entry => tree.put entry.1 entry.2) (bare current)

end NeonAudit.FileTree
