import NeonAudit.Literal.DateTime
import NeonAudit.Literal.Number

/-!
# Unquoted literals

An unquoted literal is a truth value, null, a number, or a date and time, if its text spells one of
them, and otherwise the text itself. Each keyword has three spellings: in lower case, with a capital
letter at its start, and in upper case.
-/

namespace NeonAudit

/-- The scalar that a keyword spells. -/
def Literal.keyword? (text : String) : Option Scalar :=
  if text ∈ ["true", "True", "TRUE", "yes", "Yes", "YES", "on", "On", "ON"] then
    some (.bool true)
  else if text ∈ ["false", "False", "FALSE", "no", "No", "NO", "off", "Off", "OFF"] then
    some (.bool false)
  else if text ∈ ["", "null", "Null", "NULL"] then
    some .null
  else none

/-- The value of an unquoted literal. -/
def Value.ofLiteral (text : String) : Except Literal.ZoneFault Value :=
  match Literal.keyword? text with
  | some s => .ok (.scalar s)
  | none =>
    match Literal.number? text.toList with
    | some s => .ok (.scalar s)
    | none =>
      (Literal.dateTime? text.toList).map fun date => date.elim (.string text) .dateTime

end NeonAudit
