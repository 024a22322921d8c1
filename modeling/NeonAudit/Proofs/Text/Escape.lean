import NeonAudit.Proofs.Number.Digits
import NeonAudit.Text.Escape

/-!
# Escaped texts read back

Every character is written as itself or as an escape that names it, so a quoted text holds what was
written. The digits of an escaped control character are always four.
-/

namespace NeonAudit.Text

/-- An escape stands for the character it names. -/
theorem unescape_backslash {text rest : List Char} {c : Char}
    (h : resolveEscape text = .ok (c, rest)) :
    unescape ('\\' :: text) = (unescape rest).map (c :: ·) := by
  rw [unescape, if_pos rfl]
  split <;> rename_i heq <;> rw [h] at heq <;> cases heq
  rfl

/-- A character that starts no escape stands for itself. -/
theorem unescape_cons {c : Char} (h : c ≠ '\\') (rest : List Char) :
    unescape (c :: rest) = (unescape rest).map (c :: ·) := by
  rw [unescape, if_neg h]

/-- A control character is found again from its four hexadecimal digits. -/
theorem resolveUnicode_control {c : Char} (h : c.toNat < 0x20) (rest : List Char) :
    resolveUnicode (padLeft '0' 4 (Nat.toDigits 16 c.toNat) ++ rest) = .ok (c, rest) := by
  have hdigits : ∀ n < 0x20, (padLeft '0' 4 (Nat.toDigits 16 n)).length = 4 ∧
      readHex? (padLeft '0' 4 (Nat.toDigits 16 n)) = some n ∧ isHighSurrogate n = false ∧
      isLowSurrogate n = false := by decide
  obtain ⟨hlength, hread, hhigh, hlow⟩ := hdigits c.toNat h
  rw [resolveUnicode, List.take_left' hlength, hread]
  dsimp only
  rw [hhigh, hlow, if_neg Bool.false_ne_true, if_neg Bool.false_ne_true, List.drop_left' hlength,
    Char.ofNat_toNat]

/-- The spelling of a character inside quotes stands for the character. -/
theorem unescape_escapeChar (c : Char) (rest : List Char) :
    unescape (escapeChar c ++ rest) = (unescape rest).map (c :: ·) := by
  unfold escapeChar
  repeat' split
  all_goals first
    | (subst c; exact unescape_backslash rfl)
    | exact unescape_backslash (resolveUnicode_control ‹_› rest)
    | exact unescape_cons ‹_› rest

/-- A text inside quotes stands for the text. -/
theorem unescape_flatMap_escapeChar (text : List Char) :
    unescape (text.flatMap escapeChar) = .ok text := by
  induction text with
  | nil => exact unescape.eq_1
  | cons c text ih =>
    rw [List.flatMap_cons, unescape_escapeChar, ih]
    rfl

end NeonAudit.Text
