import NeonAudit.Text.Utf8

/-!
# Reading UTF-8

Every sequence of bytes that is not empty gives something: its first byte completes a character,
breaks a sequence, or starts a character that is completed or broken later.
-/

namespace NeonAudit.Text

/-- A byte gives something or starts a character. -/
theorem readByte_ne (char : Option PartialChar) (byte : UInt8) :
    readByte char byte ≠ ([], none) := by
  have hlead : readLeadByte byte ≠ ([], none) := by
    unfold readLeadByte
    repeat' split
    all_goals simp
  unfold readByte PartialChar.readByte
  repeat' split
  all_goals simp_all

/-- Nothing is read only from nothing. -/
theorem readBytesAfter_eq_nil_iff {char : Option PartialChar} {bytes : List UInt8} :
    readBytesAfter char bytes = [] ↔ char = none ∧ bytes = [] := by
  induction bytes generalizing char with
  | nil => cases char <;> simp [readBytesAfter]
  | cons byte bytes ih =>
    have hread := readByte_ne char byte
    rw [readBytesAfter, List.append_eq_nil_iff, ih]
    constructor
    · intro h
      exact absurd (Prod.ext h.1 h.2.1) hread
    · intro h
      exact absurd h.2 (List.cons_ne_nil _ _)

/-- The empty text is spelled by no bytes only. -/
theorem ofUtf8?_eq_some_nil {bytes : List UInt8} : ofUtf8? bytes = some [] ↔ bytes = [] := by
  have hread : readBytes bytes = [] ↔ bytes = [] := by simp [readBytes, readBytesAfter_eq_nil_iff]
  rw [← hread, ofUtf8?]
  cases readBytes bytes with
  | nil => simp
  | cons read reads => simp [List.mapM_cons, Option.bind_eq_some_iff]

end NeonAudit.Text
