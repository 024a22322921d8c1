/-!
# Binary floating-point numbers of 64 bits

A number is its word of 64 bits: the top bit is the sign, the other 63 bits, read as a natural
number, are its index. Indices enumerate the magnitudes in increasing order, so zero has the index
zero and infinity the index `infinityIndex`; every larger index is a NaN. The magnitude of a finite
index is a natural number of units of `2 ^ (-1074)`, the least positive magnitude, and all
arithmetic of this folder is carried out exactly on such natural numbers.
-/

namespace NeonAudit

/-- A floating-point number, kept as its 64 bits so that NaN payloads and signs of zero survive. -/
structure Binary64 where
  /-- The sign in the top bit, eleven bits of exponent, and 52 bits of fraction. -/
  bits : UInt64
deriving DecidableEq

namespace Binary64

/-- The value of the sign bit; indices are smaller. -/
def signWeight : Nat :=
  0x8000000000000000

/-- The value of the hidden bit of a significand; fractions are smaller. -/
def hiddenWeight : Nat :=
  0x10000000000000

/-- The index of infinity; smaller indices are finite and larger ones are NaNs. -/
def infinityIndex : Nat :=
  2047 * hiddenWeight

/-- Whether the sign bit is set. -/
def negative (x : Binary64) : Bool :=
  signWeight ≤ x.bits.toNat

/-- The position of the magnitude in the increasing enumeration of magnitudes. -/
def index (x : Binary64) : Nat :=
  x.bits.toNat % signWeight

/-- The number with the given sign and index. -/
def ofIndex (negative : Bool) (index : Nat) : Binary64 :=
  ⟨UInt64.ofNat ((if negative then signWeight else 0) + index % signWeight)⟩

/-- Whether the number is neither infinite nor a NaN. -/
def isFinite (x : Binary64) : Bool :=
  x.index < infinityIndex

/-- Whether the number is a NaN. -/
def isNaN (x : Binary64) : Bool :=
  infinityIndex < x.index

/-- How often the least spacing is doubled at an index. -/
def shift (index : Nat) : Nat :=
  index / hiddenWeight - 1

/-- The integer significand at an index: its fraction, with the hidden bit unless subnormal. -/
def significand (index : Nat) : Nat :=
  if index < hiddenWeight then index else index % hiddenWeight + hiddenWeight

/-- The magnitude at an index in units of `2 ^ (-1074)`. At the index of infinity this is the power
of two that follows the largest finite magnitude. -/
def units (index : Nat) : Nat :=
  significand index <<< shift index

/-- Equality of numbers: a NaN differs from everything and the two zeros are equal. -/
def same (x y : Binary64) : Bool :=
  !x.isNaN && !y.isNaN && (x == y || (x.index == 0 && y.index == 0))

/-- The word of a constructed number. -/
theorem toNat_bits_ofIndex (negative : Bool) (index : Nat) :
    (ofIndex negative index).bits.toNat =
      (if negative then signWeight else 0) + index % signWeight := by
  rw [ofIndex, UInt64.toNat_ofNat', signWeight]
  split <;> omega

/-- A number is determined by its sign and its index. -/
theorem ofIndex_negative_index (x : Binary64) : ofIndex x.negative x.index = x := by
  have hlt : x.bits.toNat < 0x10000000000000000 := x.bits.toNat_lt
  have hbits : (ofIndex x.negative x.index).bits = x.bits := by
    apply UInt64.toNat_inj.1
    rw [toNat_bits_ofIndex, Binary64.negative, Binary64.index, signWeight]
    by_cases h : 0x8000000000000000 ≤ x.bits.toNat
    · rw [decide_eq_true h, if_pos rfl]
      omega
    · rw [decide_eq_false h, if_neg Bool.false_ne_true]
      omega
  generalize ofIndex x.negative x.index = y at hbits
  cases x
  cases y
  exact congrArg mk hbits

/-- Equality of numbers is symmetric. -/
theorem same_comm (x y : Binary64) : same x y = same y x := by
  have hxy : (x == y) = (y == x) := Bool.eq_iff_iff.2 (by rw [beq_iff_eq, beq_iff_eq, eq_comm])
  rw [same, same, hxy, Bool.and_comm (!x.isNaN), Bool.and_comm (x.index == 0)]

/-- A number equals itself exactly when it is no NaN. -/
theorem same_self (x : Binary64) : same x x = !x.isNaN := by
  rw [same, Bool.and_self, beq_self_eq_true, Bool.true_or, Bool.and_true]

end Binary64

end NeonAudit
