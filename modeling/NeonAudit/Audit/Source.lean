import NeonAudit.Document.Decode
import NeonAudit.FileTree
import NeonAudit.Report
import NeonAudit.Rule
import NeonAudit.Text.Utf8

/-!
# Sources of documents

A run reads the source of every document and decodes it. A source that is not UTF-8 does not decode,
and its failure names the place of the first broken sequence. A file that cannot be read ends the
run.
-/

namespace NeonAudit

/-- Why a run ends without a report. -/
inductive RunError
  /-- A file cannot be read. -/
  | unreadable (path : String) (failure : FileTree.Failure)
  /-- A root is no directory. -/
  | missingDirectory (path : String)
  /-- The rules are no rules. -/
  | rule (error : RuleError)
  /-- Decoding is broken off, which no message describes. -/
  | fault (fault : DecodeFault)
deriving DecidableEq

/-- The statement of the error. -/
def RunError.message : RunError → String
  | unreadable path failure => "failed to read " ++ path ++ ": " ++ failure.message
  | missingDirectory path => "directory not found: " ++ path
  | rule error => "invalid rule: " ++ error.message
  | fault _ => ""

/-- The message for a source that is not UTF-8. -/
def encodingMessage (bytes : List UInt8) : String :=
  "Invalid UTF-8 sequence" ++ (Position.start.after (Text.validStart bytes)).phrase

/-- The failure of a source that is not UTF-8. The source that is shown has replacements for the
broken sequences. -/
def ParseFailure.ofBytes (file : String) (bytes : List UInt8) : ParseFailure :=
  .ofMessage file (encodingMessage bytes) (String.ofList (Text.ofUtf8WithReplacements bytes))

/-- The text of a source. -/
def sourceOfBytes (file : String) (bytes : List UInt8) : Except ParseFailure String :=
  match Text.ofUtf8? bytes with
  | some text => .ok (String.ofList text)
  | none => .error (.ofBytes file bytes)

/-- The text of the source at a path. -/
def FileTree.source (tree : FileTree) (path : String) :
    Except RunError (Except ParseFailure String) :=
  match tree.read path with
  | .error failure => .error (.unreadable path failure)
  | .ok bytes => .ok (sourceOfBytes path bytes)

/-- The value of a source. -/
def decodeSource (file source : String) : Except RunError (Except ParseFailure Value) :=
  match decode source with
  | .ok value => .ok (.ok value)
  | .error (.malformed error) => .ok (.error (.ofMessage file error.message source))
  | .error (.fault fault) => .error (.fault fault)

end NeonAudit
