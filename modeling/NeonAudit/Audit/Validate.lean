import NeonAudit.Audit.Source
import NeonAudit.Document.Encode
import NeonAudit.FileTree.Discovery
import NeonAudit.Leaf

/-!
# Validating documents

A validation reports the documents below its roots that do not decode, and if it is strict also the
leaves that are objects. Roots that are no directories are left out.
-/

namespace NeonAudit

/-- How strict a validation is. -/
inductive ValidateMode
  /-- Documents must decode. -/
  | normal
  /-- Documents must decode, and their leaves must be scalars. -/
  | strictScalar
deriving DecidableEq

namespace ValidateMode

/-- The name of a mode. -/
def text : ValidateMode → String
  | normal => "normal"
  | strictScalar => "strict-scalar"

/-- The mode of the given name; the strict mode has a second name. -/
def ofText? (text : String) : Option ValidateMode :=
  if text = "normal" then some normal
  else if text = "strict-scalar" ∨ text = "translate" then some strictScalar
  else none

/-- The message for a text that is no name of a mode. -/
def unknownMessage (text : String) : String :=
  "unknown validate type '" ++ text ++
    "'; expected 'normal' or 'strict-scalar' (alias 'translate')"

end ValidateMode

/-- The failure of a leaf that is an object. -/
def ScalarViolation.ofLeaf (file : String) (leaf : Leaf) : ScalarViolation :=
  ⟨file, leaf.key, leaf.value.encode⟩

namespace ValidateMode

/-- What is wrong with the tree of a file. -/
def failuresOfTree (mode : ValidateMode) (file : String) (tree : Value) : List ValidateFailure :=
  match mode with
  | normal => []
  | strictScalar => tree.objectLeaves.map fun leaf => .nonScalar (.ofLeaf file leaf)

/-- What is wrong with the source of a file. -/
def failuresOfSource (mode : ValidateMode) (file source : String) :
    Except RunError (List ValidateFailure) :=
  match decodeSource file source with
  | .error error => .error error
  | .ok (.error failure) => .ok [.parse failure]
  | .ok (.ok value) => .ok (mode.failuresOfTree file value)

/-- What is wrong with the file at a path. -/
def failuresOfFile (mode : ValidateMode) (tree : FileTree) (path : String) :
    Except RunError (List ValidateFailure) :=
  match tree.source path with
  | .error error => .error error
  | .ok (.error failure) => .ok [.parse failure]
  | .ok (.ok source) => mode.failuresOfSource path source

/-- The report on files of which it is known what is wrong with them. -/
def reportOf (failures : List (List ValidateFailure)) : ValidateReport :=
  ⟨failures.length, failures.flatten⟩

/-- Validates the documents below roots. -/
def run (mode : ValidateMode) (tree : FileTree) (roots : List String) :
    Except RunError ValidateReport :=
  ((tree.documents (roots.filter tree.isDirectory)).mapM (mode.failuresOfFile tree)).map reportOf

end ValidateMode

end NeonAudit
