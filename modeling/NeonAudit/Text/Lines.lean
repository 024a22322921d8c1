import NeonAudit.Text.Split

/-!
# Lines

The lines of a text end with line feeds. A carriage return at the end of a line is not part of it.
-/

namespace NeonAudit.Text

/-- A line without a carriage return at its end. -/
def withoutReturn (line : List Char) : List Char :=
  if line.getLast? = some '\r' then line.dropLast else line

/-- The lines of a text; after a line feed at its end there is one more, which is empty. -/
def lines (text : List Char) : List (List Char) :=
  (split '\n' text).map withoutReturn

end NeonAudit.Text
