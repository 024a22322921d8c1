import NeonAudit.Number.Binary64

/-!
# The number nearest to a decimal

A decimal `digits * 10 ^ scale` is read as the number nearest to it, and one halfway between two
numbers as the one with the even index. The decimal is brought to a fraction of natural numbers,
counted in units of `2 ^ (-1074)`; the index below it is found from the length of the whole part,
and the midpoint to the next index decides between the two.
-/

namespace NeonAudit.Binary64

/-- The largest index whose magnitude is at most the given number of units. -/
def indexBelow (count : Nat) : Nat :=
  let shift := count.log2 - 52
  shift * hiddenWeight + count >>> shift

/-- The index nearest to a fraction of units, the even one of two that are equally near; indices
past the finite ones stand for infinity. -/
def nearestIndex (numerator denominator : Nat) : Nat :=
  let below := indexBelow (numerator / denominator)
  let midpoint := (units below + units (below + 1)) * denominator
  let index :=
    if 2 * numerator < midpoint then below
    else if midpoint < 2 * numerator then below + 1
    else below + below % 2
  min index infinityIndex

/-- The number nearest to `digits * 10 ^ scale` with the given sign. Scales beyond the range of the
format are settled without computing the power: the first gives infinity and the second zero. -/
def ofDecimal (negative : Bool) (digits : Nat) (scale : Int) : Binary64 :=
  if digits = 0 then ofIndex negative 0
  else if 310 ≤ scale then ofIndex negative infinityIndex
  else if scale + digits.log2 ≤ -400 then ofIndex negative 0
  else if 0 ≤ scale then
    ofIndex negative (nearestIndex ((digits * Nat.pow 10 scale.toNat) <<< 1074) 1)
  else
    ofIndex negative (nearestIndex (digits <<< 1074) (Nat.pow 10 (-scale).toNat))

end NeonAudit.Binary64
