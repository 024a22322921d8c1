import NeonAudit.Calendar.Display
import NeonAudit.Literal
import NeonAudit.Number.Shortest
import NeonAudit.Text.Alphanumeric
import NeonAudit.Text.Escape

/-!
# Encoding values

A value is written on one line. A string is written without quotes if it is made of letters,
numbers and a few marks, and is the value of the literal it spells; otherwise it is quoted. Keys are
never read as literals, so for them only the characters matter.
-/

namespace NeonAudit

/-- The marks that may stand in an unquoted string. -/
def isPlainMark (c : Char) : Bool :=
  c ∈ ['_', '.', '/', '\\', '@', '$', '-']

/-- Whether a text may be written without quotes as a key. -/
def isPlain (text : List Char) : Bool :=
  !text.isEmpty && text.head? ≠ some '-' && text.all fun c => Text.isAlphanumeric c || isPlainMark c

/-- Whether a literal of this text denotes the text itself. -/
def denotesItself (text : String) : Bool :=
  match Value.ofLiteral text with
  | .ok (.scalar (.string value)) => value == text
  | _ => false

/-- The spelling of a string. -/
def stringText (text : String) : List Char :=
  if isPlain text.toList && denotesItself text then text.toList else Text.quoted text.toList

/-- The spelling of a key. -/
def keyText (key : String) : List Char :=
  if isPlain key.toList then key.toList else stringText key

/-- The spelling of a scalar. -/
def Scalar.text : Scalar → List Char
  | null => ['n', 'u', 'l', 'l']
  | bool true => ['t', 'r', 'u', 'e']
  | bool false => ['f', 'a', 'l', 's', 'e']
  | int value => integerText value.toInt
  | float value => value.text
  | string value => stringText value

/-- What separates two items on one line. -/
def separator : List Char :=
  [',', ' ']

/-- An item with a key. -/
def entryText (key : String) (value : List Char) : List Char :=
  keyText key ++ ':' :: ' ' :: value

namespace Value

mutual

/-- The spelling of a value on one line. -/
def text : Value → List Char
  | scalar s => s.text
  | sequence items => '[' :: separator.intercalate (itemTexts items) ++ [']']
  | mapping entries => '\x7b' :: separator.intercalate (entryTexts entries) ++ ['\x7d']
  | entity name arguments => text name ++ '(' :: argumentsText arguments ++ [')']
  | chain links => linksText links
  | dateTime d => d.text

/-- The spellings of values. -/
def itemTexts : List Value → List (List Char)
  | [] => []
  | item :: items => text item :: itemTexts items

/-- The spellings of values with their keys. -/
def entryTexts : List (String × Value) → List (List Char)
  | [] => []
  | (key, value) :: entries => entryText key (text value) :: entryTexts entries

/-- The spelling of arguments: the items of a collection, or any other value. -/
def argumentsText : Value → List Char
  | sequence items => separator.intercalate (itemTexts items)
  | mapping entries => separator.intercalate (entryTexts entries)
  | scalar s => s.text
  | entity name arguments => text name ++ '(' :: argumentsText arguments ++ [')']
  | chain links => linksText links
  | dateTime d => d.text

/-- The spellings of names with arguments, one directly after another. -/
def linksText : List (Value × Value) → List Char
  | [] => []
  | (name, arguments) :: links =>
    text name ++ '(' :: argumentsText arguments ++ ')' :: linksText links

end

/-- The spelling of a value on one line. -/
def encode (value : Value) : String :=
  String.ofList value.text

end Value

end NeonAudit
