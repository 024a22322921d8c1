import Mathlib.Order.Monotone.Basic
import Mathlib.Tactic.Ring
import NeonAudit.Number.Nearest
import NeonAudit.Number.Shortest

/-!
# Reading to the nearest number

Magnitudes grow with their indices, each by the spacing at its index, so a number of units lies
between two neighbours in just one place. A fraction inside the interval of an index, bounded by the
midpoints to its neighbours, is therefore nearest to the number at that index.
-/

namespace NeonAudit.Binary64

/-- The magnitude at an index that is given by its significand and its shift. -/
theorem units_of_significand {s m : Nat} (hlt : m < 2 * hiddenWeight)
    (h : hiddenWeight ≤ m ∨ s = 0) : units (s * hiddenWeight + m) = m * 2 ^ s := by
  rw [units, Nat.shiftLeft_eq]
  unfold significand shift hiddenWeight at *
  rcases h with h | rfl
  · have hdiv : (s * 0x10000000000000 + m) / 0x10000000000000 = s + 1 := by omega
    have hmod : (s * 0x10000000000000 + m) % 0x10000000000000 = m - 0x10000000000000 := by omega
    rw [if_neg (by omega), hdiv, hmod, Nat.add_sub_cancel, Nat.sub_add_cancel h]
  · rw [Nat.zero_mul, Nat.zero_add]
    split
    · rw [show m / 0x10000000000000 - 1 = 0 by omega]
    · rw [show m / 0x10000000000000 - 1 = 0 by omega,
        show m % 0x10000000000000 + 0x10000000000000 = m by omega]

/-- Every index is given by a significand and a shift. -/
theorem exists_significand (index : Nat) :
    ∃ s m, index = s * hiddenWeight + m ∧ m < 2 * hiddenWeight ∧ (hiddenWeight ≤ m ∨ s = 0) := by
  unfold hiddenWeight
  by_cases h : index < 0x10000000000000
  · exact ⟨0, index, by omega, by omega, .inr rfl⟩
  · exact ⟨index / 0x10000000000000 - 1, index % 0x10000000000000 + 0x10000000000000, by omega,
      by omega, .inl (by omega)⟩

/-- The magnitude after one that is given by its significand and its shift. -/
theorem units_succ_of_significand {s m : Nat} (hlt : m < 2 * hiddenWeight)
    (h : hiddenWeight ≤ m ∨ s = 0) : units (s * hiddenWeight + m + 1) = (m + 1) * 2 ^ s := by
  by_cases hnext : m + 1 < 2 * hiddenWeight
  · rw [Nat.add_assoc, units_of_significand hnext (h.imp_left fun hle => by omega)]
  · -- The significand overflows into the next shift.
    have hm : m + 1 = 2 * hiddenWeight := by omega
    have hindex : s * hiddenWeight + m + 1 = (s + 1) * hiddenWeight + hiddenWeight := by
      rw [Nat.add_assoc, hm]
      ring
    rw [hindex, units_of_significand (by unfold hiddenWeight; omega) (.inl (Nat.le_refl _)), hm]
    ring

/-- Magnitudes grow with their indices. -/
theorem units_strictMono : StrictMono units := by
  refine strictMono_nat_of_lt_succ fun index => ?_
  obtain ⟨s, m, rfl, hlt, h⟩ := exists_significand index
  rw [units_of_significand hlt h, units_succ_of_significand hlt h]
  exact Nat.mul_lt_mul_of_pos_right (Nat.lt_succ_self m) (Nat.two_pow_pos s)

/-- A number of units lies between the magnitude at the index below it and the next one. -/
theorem units_indexBelow (count : Nat) :
    units (indexBelow count) ≤ count ∧ count < units (indexBelow count + 1) := by
  have hshift := Nat.shiftRight_eq_div_pow count (count.log2 - 52)
  have hpow := Nat.two_pow_pos (count.log2 - 52)
  have hbound : count >>> (count.log2 - 52) < 2 * hiddenWeight := by
    rw [hshift, Nat.div_lt_iff_lt_mul hpow]
    calc count < 2 ^ (count.log2 + 1) := Nat.lt_log2_self
      _ ≤ 2 ^ (53 + (count.log2 - 52)) := Nat.pow_le_pow_right (by decide) (by omega)
      _ = 2 * hiddenWeight * 2 ^ (count.log2 - 52) := by rw [Nat.pow_add]; rfl
  have hnormal : hiddenWeight ≤ count >>> (count.log2 - 52) ∨ count.log2 - 52 = 0 := by
    by_cases h : count.log2 ≤ 52
    · exact .inr (by omega)
    · have hne : count ≠ 0 := by
        rintro rfl
        simp at h
      refine .inl ?_
      rw [hshift, Nat.le_div_iff_mul_le hpow]
      calc hiddenWeight * 2 ^ (count.log2 - 52) = 2 ^ (52 + (count.log2 - 52)) := by
            rw [Nat.pow_add]; rfl
        _ = 2 ^ count.log2 := by rw [Nat.add_sub_cancel' (by omega)]
        _ ≤ count := Nat.log2_self_le hne
  rw [indexBelow, units_of_significand hbound hnormal, units_succ_of_significand hbound hnormal,
    hshift]
  exact ⟨Nat.div_mul_le_self _ _, by
    rw [Nat.add_mul, Nat.one_mul]
    exact Nat.lt_div_mul_add hpow⟩

/-- The interval in which fractions are read as the number at an index: it is bounded by the
midpoints to the neighbours, which belong to it if the index is even. -/
theorem readsAs_iff {index point unit : Nat} :
    readsAs index point unit = true ↔
      (units (index - 1) + units index) * unit ≤ 2 * point ∧
      2 * point ≤ (units index + units (index + 1)) * unit ∧
      (index % 2 = 0 ∨ (units (index - 1) + units index) * unit ≠ 2 * point ∧
        2 * point ≠ (units index + units (index + 1)) * unit) := by
  unfold readsAs
  split
  · rename_i heven
    simp only [heven, Bool.and_eq_true, decide_eq_true_eq, true_or, and_true]
  · rename_i hodd
    simp only [hodd, Bool.and_eq_true, decide_eq_true_eq, false_or]
    omega

/-- A number reads as itself. -/
theorem readsAs_units {index unit : Nat} (hindex : 0 < index) (hunit : 0 < unit) :
    readsAs index (units index * unit) unit = true := by
  have hbefore := Nat.mul_lt_mul_of_pos_right
    (units_strictMono (Nat.sub_lt hindex Nat.one_pos)) hunit
  have hafter := Nat.mul_lt_mul_of_pos_right (units_strictMono (Nat.lt_add_one index)) hunit
  rw [readsAs_iff, Nat.add_mul, Nat.add_mul]
  omega

/-- Only the quotient of a fraction matters for how it reads. -/
theorem readsAs_mul {factor : Nat} (hfactor : 0 < factor) (index point unit : Nat) :
    readsAs index (point * factor) (unit * factor) = readsAs index point unit := by
  rw [Bool.eq_iff_iff, readsAs_iff, readsAs_iff]
  simp only [← Nat.mul_assoc, Nat.mul_le_mul_right_iff hfactor, ne_eq, Nat.mul_left_inj hfactor.ne']

/-- A fraction that reads as a finite number is nearest to that number. -/
theorem nearestIndex_of_readsAs {index numerator denominator : Nat} (hindex : 0 < index)
    (hfinite : index ≤ infinityIndex) (hpos : 0 < denominator)
    (h : readsAs index numerator denominator = true) :
    nearestIndex numerator denominator = index := by
  obtain ⟨hlow, hhigh, heven⟩ := readsAs_iff.1 h
  obtain ⟨hbelow, habove⟩ := units_indexBelow (numerator / denominator)
  rw [Nat.le_div_iff_mul_le hpos] at hbelow
  rw [Nat.div_lt_iff_lt_mul hpos] at habove
  rw [nearestIndex]
  generalize indexBelow (numerator / denominator) = below at hbelow habove
  rw [Nat.add_mul] at hlow hhigh heven
  rw [Nat.add_mul] at heven
  rw [Nat.add_mul]
  rcases Nat.lt_or_ge numerator (units index * denominator) with hlt | hge
  · -- The index is the one above the fraction.
    have habove' : index = below + 1 := by
      have hlt' := units_strictMono.lt_iff_lt.1 (Nat.lt_of_mul_lt_mul_right (hbelow.trans_lt hlt))
      by_contra hne
      have hle := Nat.mul_le_mul_right denominator
        (units_strictMono.monotone (show below + 1 ≤ index - 1 by omega))
      omega
    subst habove'
    rw [Nat.add_sub_cancel] at hlow heven
    split
    · omega
    · split <;> omega
  · -- The index is the one below the fraction.
    have hbelow' : index = below := by
      have hlt' := units_strictMono.lt_iff_lt.1 (Nat.lt_of_mul_lt_mul_right (hge.trans_lt habove))
      by_contra hne
      have hle := Nat.mul_le_mul_right denominator
        (units_strictMono.monotone (show index + 1 ≤ below by omega))
      have hgrow := Nat.mul_lt_mul_of_pos_right (units_strictMono (Nat.lt_add_one index)) hpos
      omega
    subst hbelow'
    split
    · omega
    · split <;> omega

end NeonAudit.Binary64
