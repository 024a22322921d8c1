import NeonAudit.Proofs.Number.Digits
import NeonAudit.Proofs.Number.Nearest

/-!
# The shortest decimal reads back

The grid on which all numbers lie is reached by the search, so a point inside the interval of the
index is found, and wherever it is found it reads as the number. Its positional text has a point
with digits on both sides, and reading those digits as one number over a power of ten gives the
number at the index.
-/

namespace NeonAudit.Binary64

/-- A point that is found on a grid reads as the number. -/
theorem readsAs_of_gridPoint? {index step unit point : Nat}
    (h : gridPoint? index step unit = some point) : readsAs index (point * step) unit = true := by
  unfold gridPoint? at h
  dsimp only at h
  split at h
  · rename_i hupper
    cases h
    exact (Bool.and_eq_true_iff.1 hupper).1
  · split at h
    · rename_i hlower
      cases h
      exact hlower
    · contradiction

/-- A grid on which the number lies has a point. -/
theorem isSome_gridPoint? {index step unit : Nat} (hindex : 0 < index) (hunit : 0 < unit)
    (hdvd : step ∣ units index * unit) : (gridPoint? index step unit).isSome = true := by
  have hlower : readsAs index (units index * unit / step * step) unit = true := by
    rw [Nat.div_mul_cancel hdvd]
    exact readsAs_units hindex hunit
  rw [gridPoint?, if_pos hlower]
  split <;> rfl

/-- The decimal reads as the number at the index. -/
def Decimal.ReadsAs (index : Nat) (d : Decimal) : Prop :=
  if 0 ≤ d.scale then readsAs index ((d.digits * 10 ^ d.scale.toNat) <<< 1074) 1 = true
  else readsAs index (d.digits <<< 1074) (10 ^ (-d.scale).toNat) = true

/-- A multiple of a power of two. -/
theorem mul_shiftLeft (a b k : Nat) : a * b <<< k = (a * b) <<< k := by
  rw [Nat.shiftLeft_eq, Nat.shiftLeft_eq, Nat.mul_assoc]

/-- A decimal that is found on a grid reads as the number. -/
theorem readsAs_of_gridDecimal? {index : Nat} {scale : Int} {d : Decimal}
    (h : gridDecimal? index scale = some d) : d.ReadsAs index := by
  obtain ⟨point, hpoint, rfl⟩ := Option.map_eq_some_iff.1 h
  rw [Decimal.ReadsAs]
  split at hpoint
  · rename_i hscale
    have hreads := readsAs_of_gridPoint? hpoint
    rw [mul_shiftLeft] at hreads
    rwa [if_pos hscale]
  · rename_i hscale
    have hreads := readsAs_of_gridPoint? hpoint
    rw [mul_shiftLeft, Nat.mul_one] at hreads
    rwa [if_neg hscale]

/-- Powers of ten are positive. -/
theorem pow_ten_pos (k : Nat) : 0 < Nat.pow 10 k :=
  Nat.pow_pos (by decide)

/-- As there are as many twos in a power of ten, the grid of its units has all numbers. -/
theorem isSome_gridPoint?_ten {index : Nat} (hindex : 0 < index) (k : Nat) :
    (gridPoint? index (1 <<< k) (Nat.pow 10 k)).isSome = true := by
  have hdvd : 2 ^ k ∣ 10 ^ k := pow_dvd_pow_of_dvd (by decide) k
  rw [Nat.one_shiftLeft]
  exact isSome_gridPoint? hindex (pow_ten_pos k) (Nat.dvd_mul_left_of_dvd hdvd _)

/-- All numbers lie on the finest grid. -/
theorem isSome_gridDecimal? {index : Nat} (hindex : 0 < index) :
    (gridDecimal? index (-1074)).isSome = true := by
  have hscale : (-(-1074 : Int)).toNat = 1074 := rfl
  rw [gridDecimal?, Option.isSome_map, if_neg (by decide), hscale]
  exact isSome_gridPoint?_ten hindex 1074

/-- A search that comes across a grid with a point finds a decimal. -/
theorem readsAs_shortestFrom {index : Nat} {scale : Int} {count k : Nat} (hk : k ≤ count)
    (h : (gridDecimal? index (scale - k)).isSome = true) :
    (shortestFrom index scale count).ReadsAs index := by
  induction count generalizing scale k with
  | zero =>
    obtain rfl := Nat.le_zero.1 hk
    obtain ⟨d, hd⟩ := Option.isSome_iff_exists.1 h
    rw [Int.natCast_zero, Int.sub_zero] at hd
    rw [shortestFrom, hd]
    exact readsAs_of_gridDecimal? hd
  | succ count ih =>
    rw [shortestFrom]
    cases hgrid : gridDecimal? index scale with
    | some d => exact readsAs_of_gridDecimal? hgrid
    | none =>
      cases k with
      | zero =>
        rw [Int.natCast_zero, Int.sub_zero, hgrid] at h
        contradiction
      | succ k =>
        refine ih (Nat.le_of_succ_le_succ hk) ?_
        rwa [show scale - 1 - k = scale - (k + 1 : Nat) by omega]

/-- The shortest decimal reads as the number. -/
theorem readsAs_shortest {index : Nat} (hindex : 0 < index) : (shortest index).ReadsAs index := by
  rw [shortest, if_neg hindex.ne']
  exact readsAs_shortestFrom (k := 1383) (Nat.le_refl _) (isSome_gridDecimal? hindex)

/-- A fraction that reads as a positive number is at least half a unit. -/
theorem le_of_readsAs {index point unit : Nat} (hindex : 0 < index)
    (h : readsAs index point unit = true) : unit ≤ 2 * point := by
  have hunits : 0 < units index := Nat.zero_lt_of_lt (units_strictMono hindex)
  calc unit = 1 * unit := (Nat.one_mul unit).symm
    _ ≤ (units (index - 1) + units index) * unit := Nat.mul_le_mul_right unit (by omega)
    _ ≤ 2 * point := (readsAs_iff.1 h).1

/-- Digits that reach a power of ten after shifting are not too few. -/
theorem three_mul_le_log2 {digits places k : Nat} (h : 10 ^ places ≤ 2 * digits <<< k) :
    3 * places ≤ digits.log2 + k + 1 := by
  have hpow : 2 ^ (3 * places) < 2 ^ (digits.log2 + k + 2) := by
    calc 2 ^ (3 * places) = (2 ^ 3) ^ places := Nat.pow_mul 2 3 places
      _ ≤ 10 ^ places := Nat.pow_le_pow_left (by decide) places
      _ ≤ 2 * digits <<< k := h
      _ = digits * 2 ^ (k + 1) := by rw [Nat.shiftLeft_eq]; ring
      _ < 2 ^ (digits.log2 + 1) * 2 ^ (k + 1) :=
        Nat.mul_lt_mul_of_pos_right Nat.lt_log2_self (Nat.two_pow_pos _)
      _ = 2 ^ (digits.log2 + k + 2) := by ring
  have := (Nat.pow_lt_pow_iff_right (by decide)).1 hpow
  omega

/-- Digits over a power of ten that read as a finite number give the number. -/
theorem ofDecimal_of_readsAs {index digits places : Nat} (hindex : 0 < index)
    (hfinite : index ≤ infinityIndex) (hplaces : 0 < places)
    (h : readsAs index (digits <<< 1074) (10 ^ places) = true) (negative : Bool) :
    ofDecimal negative digits (-places) = ofIndex negative index := by
  have hpos : 0 < 10 ^ places := pow_ten_pos places
  have hle := le_of_readsAs hindex h
  have hdigits : digits ≠ 0 := by
    rintro rfl
    rw [Nat.zero_shiftLeft] at hle
    omega
  have hscale := three_mul_le_log2 hle
  rw [ofDecimal, if_neg hdigits, if_neg (by omega), if_neg (by omega), if_neg (by omega),
    Int.neg_neg, Int.toNat_natCast]
  exact congrArg _ (nearestIndex_of_readsAs hindex hfinite hpos h)

/-- The positional text of a decimal has a point between digits; these, as one number over a power
of ten, give the number that the decimal reads as. -/
theorem Decimal.exists_positional {index : Nat} {d : Decimal} (hindex : 0 < index)
    (hfinite : index ≤ infinityIndex) (h : d.ReadsAs index) :
    ∃ whole fraction, d.positional = whole ++ '.' :: fraction ∧
      (∀ c ∈ whole ++ fraction, c.isDigit = true) ∧ whole ≠ [] ∧
      ∀ negative, ofDecimal negative (digitsValue 10 (whole ++ fraction)) (-fraction.length) =
        ofIndex negative index := by
  rw [ReadsAs] at h
  rw [positional]
  split at h
  · rename_i hscale
    rw [if_pos hscale]
    refine ⟨_, ['0'], rfl, ?_, by simp [decimalText_ne_nil], ofDecimal_of_readsAs hindex hfinite
      Nat.one_pos ?_⟩
    · rw [List.append_assoc, ← List.replicate_succ']
      intro c hc
      rcases List.mem_append.1 hc with hc | hc
      · exact isDigit_of_mem_decimalText hc
      · rw [List.eq_of_mem_replicate hc]
        decide
    · rw [List.append_assoc, ← List.replicate_succ',
        digitsValue_append_zeros fun _ => isDigit_of_mem_decimalText, digitsValue_decimalText,
        Nat.pow_succ, ← Nat.mul_assoc, Nat.mul_comm _ 10, ← mul_shiftLeft, Nat.mul_comm 10,
        List.length_singleton, ← Nat.one_mul (10 ^ 1)]
      exact (readsAs_mul (by decide) index _ 1).trans h
  · rename_i hscale
    rw [if_neg hscale]
    dsimp only
    have hdigits : ∀ c ∈ padLeft '0' ((-d.scale).toNat + 1) (decimalText d.digits),
        c.isDigit = true := fun _ => isDigit_of_mem_padLeft fun _ => isDigit_of_mem_decimalText
    have hlength := length_padLeft '0' ((-d.scale).toNat + 1) (decimalText d.digits)
    refine ⟨_, _, rfl, ?_, ?_, ?_⟩
    · rwa [List.take_append_drop]
    · rw [Ne, ← List.length_eq_zero_iff, List.length_take]
      omega
    · rw [List.take_append_drop, digitsValue_padLeft fun _ => isDigit_of_mem_decimalText,
        digitsValue_decimalText, List.length_drop, Nat.sub_sub_self (by omega)]
      exact ofDecimal_of_readsAs hindex hfinite (by omega) h

end NeonAudit.Binary64
