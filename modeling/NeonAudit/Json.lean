import NeonAudit.Number.Digits
import NeonAudit.Text.Escape

/-!
# JSON

A report can be written as JSON on several lines, each level of nesting indented by two spaces. The
members of an object keep their order. Empty arrays and objects stay on one line.
-/

namespace NeonAudit

/-- A JSON text of the kinds that reports need. -/
inductive Json
  | null
  | number (value : Nat)
  | string (value : String)
  | array (items : List Json)
  | object (members : List (String × Json))

namespace Json

/-- A number, or null if there is none. -/
def ofOption : Option Nat → Json
  | none => null
  | some n => number n

/-- A new line at a level of nesting. -/
def newLine (level : Nat) : List Char :=
  '\n' :: List.replicate (2 * level) ' '

/-- Texts in brackets, each on a line of its own. -/
def enclosed (opening closing : Char) (level : Nat) (texts : List (List Char)) : List Char :=
  if texts.isEmpty then [opening, closing]
  else
    opening :: newLine (level + 1) ++ (',' :: newLine (level + 1)).intercalate texts ++
      newLine level ++ [closing]

mutual

/-- The text of a value at a level of nesting. -/
def textAt (level : Nat) : Json → List Char
  | null => ['n', 'u', 'l', 'l']
  | number value => decimalText value
  | string value => Text.quoted value.toList
  | array items => enclosed '[' ']' level (itemTextsAt (level + 1) items)
  | object members => enclosed '\x7b' '\x7d' level (memberTextsAt (level + 1) members)

/-- The texts of values at a level of nesting. -/
def itemTextsAt (level : Nat) : List Json → List (List Char)
  | [] => []
  | item :: items => textAt level item :: itemTextsAt level items

/-- The texts of members at a level of nesting. -/
def memberTextsAt (level : Nat) : List (String × Json) → List (List Char)
  | [] => []
  | (name, value) :: members =>
    (Text.quoted name.toList ++ ':' :: ' ' :: textAt level value) :: memberTextsAt level members

end

/-- The text of a value. -/
def text (json : Json) : List Char :=
  textAt 0 json

end Json

end NeonAudit
