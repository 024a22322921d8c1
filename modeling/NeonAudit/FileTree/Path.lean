import NeonAudit.Lexicographic
import NeonAudit.Text.Split

/-!
# Paths

A path is written with slashes between its components. Empty components and points after the first
component say nothing, so that paths with the same components lead to the same place; a slash or a
point at the start is a component of its own. Paths are ordered by their components.
-/

namespace NeonAudit.Path

/-- A component of a path. -/
inductive Component
  /-- The directory that contains all others. -/
  | root
  /-- The directory in which the path starts. -/
  | current
  /-- The directory above. -/
  | parent
  /-- An entry of the directory. -/
  | name (text : List Char)
deriving DecidableEq

namespace Component

/-- The component between two slashes, if it says anything. -/
def ofPart? (part : List Char) : Option Component :=
  if part = [] ∨ part = ['.'] then none
  else if part = ['.', '.'] then some parent
  else some (name part)

/-- What components are ordered by: their kinds, and names by their characters. -/
def rank : Component → List Nat
  | root => [0]
  | current => [1]
  | parent => [2]
  | name text => 3 :: text.map Char.toNat

/-- Whether one component stands before another or is the same one. -/
def isAtMost (first second : Component) : Bool :=
  Lexicographic.isAtMost Nat.ble first.rank second.rank

end Component

/-- The components at the start of a path, given the parts of the path between its slashes. -/
def openingComponents (first : List Char) (rest : List (List Char)) : List Component :=
  if first = [] then if rest.isEmpty then [] else [.root]
  else if first = ['.'] then [.current]
  else (Component.ofPart? first).toList

/-- The components of a path. -/
def components (path : String) : List Component :=
  match Text.split '/' path.toList with
  | [] => []
  | first :: rest => openingComponents first rest ++ rest.filterMap Component.ofPart?

/-- Whether one path stands before another or at the same place. -/
def isAtMost (first second : String) : Bool :=
  Lexicographic.isAtMost Component.isAtMost (components first) (components second)

/-- Whether two paths have the same components. -/
def same (first second : String) : Bool :=
  components first = components second

/-- Whether a path starts at the root. -/
def isAbsolute (path : String) : Bool :=
  path.toList.head? = some '/'

/-- The path that leads from the end of a base along a path. -/
def join (base path : String) : String :=
  if isAbsolute path then path
  else if base.isEmpty || base.toList.getLast? = some '/' then base ++ path
  else base ++ "/" ++ path

/-- The parts of a path without those at the end that say nothing. -/
def trimParts (parts : List (List Char)) : List (List Char) :=
  (parts.reverse.dropWhile fun part => (Component.ofPart? part).isNone).reverse

/-- The path without its last component, if it has one besides the root. -/
def parent? (path : String) : Option String :=
  match Text.split '/' path.toList with
  | [] => none
  | first :: rest =>
    match trimParts rest with
    | [] => if first = [] then none else some ""
    | parts =>
      let above := trimParts parts.dropLast
      if first = [] && above.isEmpty then some "/"
      else some (String.ofList (['/'].intercalate (first :: above)))

namespace Component

/-- Components of the same rank are the same. -/
theorem rank_injective {c d : Component} (h : c.rank = d.rank) : c = d := by
  cases c <;> cases d
  case name.name first second =>
    rw [(List.map_inj_right fun _ _ => Char.toNat_inj.1).1 (List.cons.inj h).2]
  all_goals first | rfl | exact absurd (List.cons.inj h).1 (by decide)

/-- Of two components, one stands before the other or is the same one. -/
theorem isAtMost_total (c d : Component) : (isAtMost c d || isAtMost d c) = true :=
  have htotal (m n : Nat) : (Nat.ble m n || Nat.ble n m) = true := by
    rw [Bool.or_eq_true, Nat.ble_eq, Nat.ble_eq]
    exact Nat.le_total m n
  Lexicographic.isAtMost_total htotal _ _

/-- A component before one that is before a third is before the third. -/
theorem isAtMost_trans (c d e : Component) (h : isAtMost c d) (h' : isAtMost d e) :
    isAtMost c e :=
  have htrans (k m n : Nat) (h : Nat.ble k m) (h' : Nat.ble m n) : Nat.ble k n :=
    Nat.ble_eq_true_of_le (Nat.le_trans (Nat.le_of_ble_eq_true h) (Nat.le_of_ble_eq_true h'))
  Lexicographic.isAtMost_trans htrans h h'

/-- Two components that stand before each other are the same. -/
theorem eq_of_isAtMost (c d : Component) (h : isAtMost c d) (h' : isAtMost d c) : c = d :=
  have hantisymm (m n : Nat) (h : Nat.ble m n) (h' : Nat.ble n m) : m = n :=
    Nat.le_antisymm (Nat.le_of_ble_eq_true h) (Nat.le_of_ble_eq_true h')
  rank_injective (Lexicographic.eq_of_isAtMost hantisymm h h')

end Component

/-- Of two paths, one stands before the other or at the same place. -/
theorem isAtMost_total (first second : String) :
    (isAtMost first second || isAtMost second first) = true :=
  Lexicographic.isAtMost_total Component.isAtMost_total _ _

/-- A path before one that is before a third is before the third. -/
theorem isAtMost_trans {first second third : String} (h : isAtMost first second)
    (h' : isAtMost second third) : isAtMost first third :=
  Lexicographic.isAtMost_trans Component.isAtMost_trans h h'

/-- Two paths that stand before each other lead to the same place. -/
theorem same_of_isAtMost {first second : String} (h : isAtMost first second)
    (h' : isAtMost second first) : same first second :=
  decide_eq_true (Lexicographic.eq_of_isAtMost Component.eq_of_isAtMost h h')

end NeonAudit.Path
