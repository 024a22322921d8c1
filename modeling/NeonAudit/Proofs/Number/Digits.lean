import Mathlib.Algebra.Group.Nat.Defs
import Mathlib.Logic.Function.Defs
import NeonAudit.Number.Digits

/-!
# Decimal texts read back

The digits of a natural number are read as that number, and zeros before them change nothing. Where
all characters are digits the value of a text is the one the standard library gives it, so its
lemmas on joined and repeated digits apply.
-/

namespace NeonAudit

/-- The number with a sign and a magnitude. -/
def signed (negative : Bool) (magnitude : Nat) : Int :=
  if negative then -magnitude else magnitude

/-- A number with a sign has its magnitude. -/
theorem natAbs_signed (negative : Bool) (magnitude : Nat) :
    (signed negative magnitude).natAbs = magnitude := by
  cases negative <;> simp [signed]

/-- A digit is one of ten characters. -/
theorem bounds_of_isDigit {c : Char} (h : c.isDigit = true) : 48 ≤ c.toNat ∧ c.toNat ≤ 57 := by
  have hbounds : '0' ≤ c ∧ c ≤ '9' := by simpa [Char.isDigit, Char.le_def] using h
  exact ⟨hbounds.1, hbounds.2⟩

/-- Digits have a value in radix ten. -/
theorem digit?_ten {c : Char} (h : c.isDigit = true) : digit? 10 c = some (c.toNat - '0'.toNat) := by
  have hbounds := bounds_of_isDigit h
  rw [digit?, hexDigit?, if_pos h, Option.filter_some, if_pos]
  simp
  omega

/-- No other characters have a value in radix ten. -/
theorem digit?_ten_eq_none {c : Char} (h : c.isDigit = false) : digit? 10 c = none := by
  rw [digit?, hexDigit?, if_neg (Bool.eq_false_iff.1 h)]
  split
  · rw [Option.filter_some, if_neg]
    simp
  · split
    · rw [Option.filter_some, if_neg]
      simp
    · rfl

/-- The digits of radix ten are the ASCII ones. -/
theorem isSome_digit?_ten_iff {c : Char} : (digit? 10 c).isSome = true ↔ c.isDigit = true := by
  cases hc : c.isDigit with
  | true => simp [digit?_ten hc]
  | false => simp [digit?_ten_eq_none hc]

/-- The value of digits is the one the standard library gives them. -/
theorem digitsValue_eq_ofDigitChars {text : List Char} (h : ∀ c ∈ text, c.isDigit = true) :
    digitsValue 10 text = Nat.ofDigitChars 10 text 0 := by
  suffices hfold : ∀ n, text.foldl (fun value c => 10 * value + (digit? 10 c).getD 0) n =
      Nat.ofDigitChars 10 text n from hfold 0
  induction text with
  | nil => exact fun _ => Nat.ofDigitChars_nil.symm
  | cons c text ih =>
    intro n
    rw [List.foldl_cons, Nat.ofDigitChars_cons, digit?_ten (h c List.mem_cons_self),
      Option.getD_some]
    exact ih (fun d hd => h d (List.mem_cons_of_mem c hd)) _

/-- One or more digits are read as their value. -/
theorem readDigits?_of_isDigit {text : List Char} (h : ∀ c ∈ text, c.isDigit = true)
    (hne : text ≠ []) : readDigits? 10 text = some (digitsValue 10 text) := by
  have hall : text.all (fun c => (digit? 10 c).isSome) = true :=
    List.all_eq_true.2 fun c hc => by rw [digit?_ten (h c hc)]; rfl
  rw [readDigits?, isDigits, hall, List.isEmpty_eq_false_iff.2 hne]
  rfl

/-- A text with a character that is no digit is not read as a number. -/
theorem readDigits?_eq_none {text : List Char} {c : Char} (hmem : c ∈ text)
    (hc : digit? 10 c = none) : readDigits? 10 text = none := by
  have hall : text.all (fun c => (digit? 10 c).isSome) = false :=
    List.all_eq_false.2 ⟨c, hmem, by rw [hc]; simp⟩
  rw [readDigits?, isDigits, hall, Bool.and_false]
  rfl

/-- A text is read as a number exactly if it is made of digits, and the number is their value. -/
theorem readDigits?_eq_some_iff {radix n : Nat} {text : List Char} :
    readDigits? radix text = some n ↔
      text ≠ [] ∧ (∀ c ∈ text, (digit? radix c).isSome = true) ∧ digitsValue radix text = n := by
  have hdigits : isDigits radix text = true ↔
      text ≠ [] ∧ ∀ c ∈ text, (digit? radix c).isSome = true := by
    simp [isDigits]
  rw [← and_assoc, ← hdigits, readDigits?]
  split
  · rename_i h
    simp [h]
  · rename_i h
    simp [h]

/-- Digits of a radix denote a number with no more digits. -/
theorem digitsValue_lt_pow {radix : Nat} {digits : List Char}
    (h : ∀ c ∈ digits, (digit? radix c).isSome = true) :
    digitsValue radix digits < radix ^ digits.length := by
  suffices hfold : ∀ n, digits.foldl (fun value c => radix * value + (digit? radix c).getD 0) n <
      (n + 1) * radix ^ digits.length by
    have hzero := hfold 0
    rwa [Nat.zero_add, Nat.one_mul] at hzero
  induction digits with
  | nil =>
    intro n
    simp
  | cons c digits ih =>
    intro n
    obtain ⟨d, hd⟩ := Option.isSome_iff_exists.1 (h c List.mem_cons_self)
    have hlt : d < radix := of_decide_eq_true (Option.filter_eq_some_iff.1 hd).2
    calc
      _ < (radix * n + (digit? radix c).getD 0 + 1) * radix ^ digits.length :=
        ih (fun e he => h e (List.mem_cons_of_mem c he)) _
      _ ≤ ((n + 1) * radix) * radix ^ digits.length := by
        apply Nat.mul_le_mul_right
        rw [hd, Option.getD_some, Nat.add_mul, Nat.one_mul, Nat.mul_comm n]
        omega
      _ = (n + 1) * radix ^ (c :: digits).length := by
        rw [Nat.mul_assoc, List.length_cons, Nat.pow_succ, Nat.mul_comm radix]

/-- Digits denote a number with no more digits. -/
theorem digitsValue_lt {digits : List Char} (h : ∀ c ∈ digits, c.isDigit = true) :
    digitsValue 10 digits < 10 ^ digits.length := by
  apply digitsValue_lt_pow
  intro c hc
  exact isSome_digit?_ten_iff.2 (h c hc)

/-- A number is written in digits. -/
theorem isDigit_of_mem_decimalText {n : Nat} {c : Char} (h : c ∈ decimalText n) :
    c.isDigit = true :=
  Nat.isDigit_of_mem_toDigits (by decide) (by decide) h

/-- A number is written in at least one digit. -/
theorem decimalText_ne_nil (n : Nat) : decimalText n ≠ [] :=
  Nat.toDigits_ne_nil

/-- The digits of a number have it as their value. -/
theorem digitsValue_decimalText (n : Nat) : digitsValue 10 (decimalText n) = n := by
  rw [digitsValue_eq_ofDigitChars fun _ => isDigit_of_mem_decimalText]
  exact Nat.ofDigitChars_ten_toDigits

/-- The digits of a number are read as the number. -/
theorem readDigits?_decimalText (n : Nat) : readDigits? 10 (decimalText n) = some n := by
  rw [readDigits?_of_isDigit (fun _ => isDigit_of_mem_decimalText) (decimalText_ne_nil n),
    digitsValue_decimalText]

/-- Different numbers have different digits. -/
theorem decimalText_injective : Function.Injective decimalText := by
  intro first second h
  have hread := congrArg (readDigits? 10) h
  rwa [readDigits?_decimalText, readDigits?_decimalText, Option.some.injEq] at hread

/-- A number is padded with digits. -/
theorem isDigit_of_mem_padLeft {width : Nat} {text : List Char}
    (h : ∀ c ∈ text, c.isDigit = true) {c : Char} (hmem : c ∈ padLeft '0' width text) :
    c.isDigit = true := by
  rcases List.mem_append.1 hmem with hzero | htext
  · rw [List.eq_of_mem_replicate hzero]
    decide
  · exact h c htext

/-- Zeros before digits do not count. -/
theorem digitsValue_padLeft {width : Nat} {text : List Char} (h : ∀ c ∈ text, c.isDigit = true) :
    digitsValue 10 (padLeft '0' width text) = digitsValue 10 text := by
  rw [digitsValue_eq_ofDigitChars fun _ => isDigit_of_mem_padLeft h,
    digitsValue_eq_ofDigitChars h, padLeft, Nat.ofDigitChars_append,
    Nat.ofDigitChars_replicate_zero, Nat.mul_zero]

/-- Zeros after digits multiply by powers of ten. -/
theorem digitsValue_append_zeros {text : List Char} (h : ∀ c ∈ text, c.isDigit = true) (n : Nat) :
    digitsValue 10 (text ++ List.replicate n '0') = digitsValue 10 text * 10 ^ n := by
  have hall : ∀ c ∈ text ++ List.replicate n '0', c.isDigit = true := by
    intro c hc
    rcases List.mem_append.1 hc with htext | hzero
    · exact h c htext
    · rw [List.eq_of_mem_replicate hzero]
      decide
  rw [digitsValue_eq_ofDigitChars hall, digitsValue_eq_ofDigitChars h, Nat.ofDigitChars_append,
    Nat.ofDigitChars_replicate_zero, Nat.mul_comm]

/-- The length of a text that is padded. -/
theorem length_padLeft (fill : Char) (width : Nat) (text : List Char) :
    (padLeft fill width text).length = max width text.length := by
  rw [padLeft, List.length_append, List.length_replicate]
  omega

/-- A number that has no more digits than its width fills the width. -/
theorem length_paddedText {width n : Nat} (hwidth : 0 < width) (h : n < 10 ^ width) :
    (paddedText width n).length = width := by
  have hle := (Nat.length_toDigits_le_iff (by decide) hwidth).2 h
  rw [paddedText, length_padLeft, decimalText]
  omega

/-- A padded number is written in digits. -/
theorem isDigit_of_mem_paddedText {width n : Nat} {c : Char} (h : c ∈ paddedText width n) :
    c.isDigit = true :=
  isDigit_of_mem_padLeft (fun _ => isDigit_of_mem_decimalText) h

/-- A padded number is written in at least one digit. -/
theorem paddedText_ne_nil (width n : Nat) : paddedText width n ≠ [] :=
  List.append_ne_nil_of_right_ne_nil _ (decimalText_ne_nil n)

/-- The digits of a padded number have it as their value. -/
theorem digitsValue_paddedText (width n : Nat) : digitsValue 10 (paddedText width n) = n := by
  rw [paddedText, digitsValue_padLeft fun _ => isDigit_of_mem_decimalText, digitsValue_decimalText]

end NeonAudit
