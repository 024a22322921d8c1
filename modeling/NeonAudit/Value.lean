import NeonAudit.Calendar.DateTime
import NeonAudit.Number.Binary64
import NeonAudit.Value.Entries

/-!
# Values of a document

A document is a tree whose nodes are sequences and mappings and whose leaves are scalars, dates and
times, and entities. The entries of a mapping stay in insertion order; equality ignores that order.
The types of this module allow a mapping to repeat a key; `Value.Distinct` excludes it, and every
function of the library that builds a mapping builds a distinct one.
-/

namespace NeonAudit

/-- A leaf that is not an object. -/
inductive Scalar
  /-- The absence of a value. -/
  | null
  /-- A truth value. -/
  | bool (value : Bool)
  /-- An integer of 64 bits. -/
  | int (value : Int64)
  /-- A number with a fraction or an exponent. -/
  | float (value : Binary64)
  /-- Text. -/
  | string (value : String)
deriving DecidableEq

/-- A node of a document. -/
inductive Value
  /-- A leaf that is not an object. -/
  | scalar (value : Scalar)
  /-- An ordered list. -/
  | sequence (items : List Value)
  /-- Keyed values in insertion order. -/
  | mapping (entries : List (String × Value))
  /-- A name followed by arguments in parentheses. -/
  | entity (name arguments : Value)
  /-- Two or more entities written back to back, each as its name and its arguments. -/
  | chain (links : List (Value × Value))
  /-- A day, possibly with a time of day and an offset. -/
  | dateTime (value : DateTime)

namespace Scalar

/-- The name of the type of a scalar. -/
def kind : Scalar → String
  | null => "null"
  | bool _ => "bool"
  | int _ => "int"
  | float _ => "float"
  | string _ => "string"

/-- Equality by type and value, where floats compare as numbers. -/
def same : Scalar → Scalar → Bool
  | null, null => true
  | bool a, bool b => a == b
  | int a, int b => a == b
  | float a, float b => a.same b
  | string a, string b => a == b
  | _, _ => false

end Scalar

namespace Value

/-- The absence of a value. -/
def null : Value :=
  scalar .null

/-- Text as a value. -/
def string (text : String) : Value :=
  scalar (.string text)

/-- A mapping with one entry. -/
def single (key : String) (value : Value) : Value :=
  mapping [(key, value)]

/-- The name of the kind of a value; a chain counts as an entity. -/
def kind : Value → String
  | scalar s => s.kind
  | sequence _ => "sequence"
  | mapping _ => "mapping"
  | entity _ _ => "entity"
  | chain _ => "entity"
  | dateTime _ => "datetime"

/-- Whether the value is a leaf that is not an object. -/
def isScalar : Value → Bool
  | scalar _ => true
  | _ => false

/-- The value under a key of a mapping; other values have no keys. -/
def get? : Value → String → Option Value
  | mapping entries, key => Entries.get? entries key
  | _, _ => none

mutual

/-- Equality of values: by type and value at the leaves, in order for sequences, and by keys for
mappings. -/
def same : Value → Value → Bool
  | scalar a, scalar b => a.same b
  | sequence as, sequence bs => sameItems as bs
  | mapping as, mapping bs => as.length == bs.length && sameEntries as bs
  | entity a arguments, entity b arguments' => same a b && same arguments arguments'
  | chain as, chain bs => sameLinks as bs
  | dateTime a, dateTime b => a == b
  | _, _ => false

/-- Equality of lists of values. -/
def sameItems : List Value → List Value → Bool
  | [], [] => true
  | a :: as, b :: bs => same a b && sameItems as bs
  | _, _ => false

/-- Whether each of the first entries is found among the second ones with an equal value. -/
def sameEntries : List (String × Value) → List (String × Value) → Bool
  | [], _ => true
  | (key, a) :: as, bs =>
    (match Entries.get? bs key with
      | some b => same a b
      | none => false) && sameEntries as bs

/-- Equality of lists of names with arguments. -/
def sameLinks : List (Value × Value) → List (Value × Value) → Bool
  | [], [] => true
  | (a, arguments) :: as, (b, arguments') :: bs =>
    same a b && same arguments arguments' && sameLinks as bs
  | _, _ => false

end

mutual

/-- No mapping of the value repeats a key. -/
def Distinct : Value → Prop
  | scalar _ => True
  | sequence items => DistinctItems items
  | mapping entries => (Entries.keys entries).Nodup ∧ DistinctEntries entries
  | entity name arguments => Distinct name ∧ Distinct arguments
  | chain links => DistinctLinks links
  | dateTime _ => True

/-- No mapping in a list of values repeats a key. -/
def DistinctItems : List Value → Prop
  | [] => True
  | item :: items => Distinct item ∧ DistinctItems items

/-- No mapping below a list of entries repeats a key. -/
def DistinctEntries : List (String × Value) → Prop
  | [] => True
  | (_, value) :: entries => Distinct value ∧ DistinctEntries entries

/-- No mapping below a list of names with arguments repeats a key. -/
def DistinctLinks : List (Value × Value) → Prop
  | [] => True
  | (name, arguments) :: links => Distinct name ∧ Distinct arguments ∧ DistinctLinks links

end

end Value

end NeonAudit
