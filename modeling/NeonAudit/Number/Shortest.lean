import NeonAudit.Number.Binary64
import NeonAudit.Number.Digits

/-!
# The shortest decimal that reads back

The decimals that are read as a given number fill an interval around it, bounded by the midpoints
to its two neighbours; the midpoints belong to it when the index is even. Grids of multiples of
powers of ten are searched from the coarsest on. The first that has a point in the interval gives
the decimal with the fewest digits, and the nearer of the two grid points around the number is
taken, or the larger of two that are equally near.
-/

namespace NeonAudit.Binary64

/-- A natural number times a power of ten. -/
structure Decimal where
  /-- The significant digits, read as one number. -/
  digits : Nat
  /-- The power of ten by which they are multiplied. -/
  scale : Int
deriving DecidableEq

/-- Whether the fraction `point / unit`, counted in units of `2 ^ (-1074)`, is read as the number at
the index. -/
def readsAs (index point unit : Nat) : Bool :=
  let lower := (units (index - 1) + units index) * unit
  let upper := (units index + units (index + 1)) * unit
  if index % 2 = 0 then lower ≤ 2 * point && 2 * point ≤ upper
  else lower < 2 * point && 2 * point < upper

/-- The multiple of `step / unit` that is read as the number at the index, if there is one: the
nearer of the two around the number, or the larger of two that are equally near. -/
def gridPoint? (index step unit : Nat) : Option Nat :=
  let value := units index * unit
  let below := value / step
  let lowerReads := readsAs index (below * step) unit
  let upperReads := readsAs index ((below + 1) * step) unit
  if upperReads && (!lowerReads || (2 * below + 1) * step ≤ 2 * value) then some (below + 1)
  else if lowerReads then some below
  else none

/-- The point of the grid of multiples of `10 ^ scale` that is read as the number at the index. -/
def gridDecimal? (index : Nat) (scale : Int) : Option Decimal :=
  let point? :=
    if 0 ≤ scale then gridPoint? index (Nat.pow 10 scale.toNat <<< 1074) 1
    else gridPoint? index (1 <<< 1074) (Nat.pow 10 (-scale).toNat)
  point?.map (⟨·, scale⟩)

/-- The first decimal found on the grids of the given scale and of the `count` finer ones. -/
def shortestFrom (index : Nat) (scale : Int) : (count : Nat) → Decimal
  | 0 => (gridDecimal? index scale).getD ⟨0, 0⟩
  | count + 1 => (gridDecimal? index scale).getD (shortestFrom index (scale - 1) count)

/-- The decimal with the fewest digits that is read as the number at the index. The search starts
at a power of ten above all finite numbers and ends at the grid on which each of them lies. -/
def shortest (index : Nat) : Decimal :=
  if index = 0 then ⟨0, 0⟩ else shortestFrom index 309 1383

/-- A decimal written with a point and without an exponent. -/
def Decimal.positional (d : Decimal) : List Char :=
  let digits := decimalText d.digits
  if 0 ≤ d.scale then
    digits ++ List.replicate d.scale.toNat '0' ++ ['.', '0']
  else
    let places := (-d.scale).toNat
    let padded := padLeft '0' (places + 1) digits
    padded.take (padded.length - places) ++ '.' :: padded.drop (padded.length - places)

/-- The text of a number: the shortest decimal that reads back, with a point and no exponent. -/
def text (x : Binary64) : List Char :=
  if x.isNaN then ['N', 'a', 'N']
  else
    let magnitude :=
      if x.isFinite then (shortest x.index).positional else ['i', 'n', 'f']
    if x.negative then '-' :: magnitude else magnitude

end NeonAudit.Binary64
