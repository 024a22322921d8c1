import NeonAudit.Document.Encode
import NeonAudit.Proofs.Literal.Offset

/-!
# Dates and times read back

Every part of the text of a date and time is one of the grammar of literals: its fields are numerals
of a fixed length, its fraction has three, six or nine digits, and its offset is a distance with a
colon. So the text spells the date and time. A leap second has no literal that spells it, and the
seconds of an offset are not read.
-/

namespace NeonAudit

namespace Literal

/-- A padded number is a numeral for it. -/
theorem isNumeral_paddedText (width : Nat) {n least most : Nat} (hwidth : 0 < width)
    (hn : n < 10 ^ width) (hleast : least ≤ width) (hmost : width ≤ most) :
    IsNumeral least most (paddedText width n) n := by
  have hlength := length_paddedText hwidth hn
  exact ⟨fun _ => isDigit_of_mem_paddedText, by omega, by omega, digitsValue_paddedText width n⟩

/-- The text of a day in the first ten thousand years spells it. -/
theorem spellsDate_text {d : Date} (hyear : 0 ≤ d.year ∧ d.year ≤ 9999) : SpellsDate d.text d := by
  have hmonth := d.month_bounds
  have hday := Nat.le_trans d.isDay.2 (daysInMonth_le d.year d.month)
  have htext : d.text = paddedText 4 d.year.natAbs ++
      '-' :: (paddedText 2 d.month ++ '-' :: paddedText 2 d.day) := by
    rw [Date.text, yearText, if_neg (by omega), if_pos hyear.2]
    simp
  refine ⟨_, _, _, d.year.natAbs, htext, ?_, (Int.natAbs_of_nonneg hyear.1).symm, ?_, ?_⟩
  · exact isNumeral_paddedText 4 (by decide) (by omega) (Nat.le_refl 4) (Nat.le_refl 4)
  · exact isNumeral_paddedText 2 (by decide) (by omega) (by decide) (Nat.le_refl 2)
  · exact isNumeral_paddedText 2 (by decide) (by omega) (by decide) (Nat.le_refl 2)

/-- Digits of a fraction have the value of the digits with zeros up to nine after them. -/
theorem nanoseconds_paddedText {width n : Nat} (hwidth : 0 < width) (hle : width ≤ 9)
    (hn : n < 10 ^ width) : nanoseconds (paddedText width n) = n * 10 ^ (9 - width) := by
  have hdigits : ∀ c ∈ paddedText width n, c.isDigit = true := fun _ => isDigit_of_mem_paddedText
  have hlength := length_paddedText hwidth hn
  have hfirst : (paddedText width n).take 9 = paddedText width n :=
    List.take_of_length_le (by omega)
  rw [nanoseconds, hfirst, if_pos (List.all_eq_true.2 hdigits), hlength,
    digitsValue_append_zeros hdigits, digitsValue_paddedText]

/-- The text of a fraction of a second spells it. -/
theorem spellsFraction_fractionText {nanosecond : Nat} (h : nanosecond < 1000000000) :
    SpellsFraction (fractionText nanosecond) nanosecond := by
  have hpadded (width n : Nat) (hwidth : 0 < width) (hle : width ≤ 9) (hn : n < 10 ^ width) :
      SpellsFraction ('.' :: paddedText width n) (n * 10 ^ (9 - width)) := by
    rw [← nanoseconds_paddedText hwidth hle hn]
    exact .digits fun c hc => Text.isDecimalDigit_of_isDigit (isDigit_of_mem_paddedText hc)
  unfold fractionText
  split
  · rename_i hzero
    rw [hzero]
    exact .absent
  split
  · rename_i hmod
    have hcancel : nanosecond / 1000000 * 10 ^ (9 - 3) = nanosecond :=
      Nat.div_mul_cancel (Nat.dvd_of_mod_eq_zero hmod)
    have hspells := hpadded 3 (nanosecond / 1000000) (by decide) (by decide) (by omega)
    rwa [hcancel] at hspells
  split
  · rename_i hmod
    have hcancel : nanosecond / 1000 * 10 ^ (9 - 6) = nanosecond :=
      Nat.div_mul_cancel (Nat.dvd_of_mod_eq_zero hmod)
    have hspells := hpadded 6 (nanosecond / 1000) (by decide) (by decide) (by omega)
    rwa [hcancel] at hspells
  · have hspells := hpadded 9 nanosecond (by decide) (by decide) h
    rwa [Nat.sub_self, Nat.pow_zero, Nat.mul_one] at hspells

/-- The text of a time of day without a leap second spells it. -/
theorem spellsClock_text {c : Clock} (hsecond : c.second < 60) : SpellsClock c.text c := by
  obtain ⟨hhour, hminute, -, hnanosecond⟩ := c.inRange
  refine ⟨paddedText 2 c.hour, paddedText 2 c.minute, paddedText 2 c.second,
    fractionText c.nanosecond, by simp [Clock.text], ?_, ?_, ?_, hsecond,
    spellsFraction_fractionText hnanosecond⟩
  · exact isNumeral_paddedText 2 (by decide) (by omega) (by decide) (Nat.le_refl 2)
  · exact isNumeral_paddedText 2 (by decide) (by omega) (Nat.le_refl 2) (Nat.le_refl 2)
  · exact isNumeral_paddedText 2 (by decide) (by omega) (Nat.le_refl 2) (Nat.le_refl 2)

/-- The text of an offset of whole minutes spells it. -/
theorem spellsOffset_text {o : Offset} (h : o.seconds % 60 = 0) : SpellsOffset o.text (some o) := by
  have hinDay := o.inDay
  have hzero : o.seconds.natAbs % 60 = 0 := by omega
  have hhour : IsNumeral 1 2 (paddedText 2 (o.seconds.natAbs / 3600)) (o.seconds.natAbs / 3600) :=
    isNumeral_paddedText 2 (by decide) (by omega) (by decide) (Nat.le_refl 2)
  have hminute : IsNumeral 2 2 (paddedText 2 (o.seconds.natAbs / 60 % 60))
      (o.seconds.natAbs / 60 % 60) :=
    isNumeral_paddedText 2 (by decide) (by omega) (Nat.le_refl 2) (Nat.le_refl 2)
  have hcolon : [':'] ∈ [[], [':']] := by simp
  have hseconds := SpellsSeconds.mk hhour (.digits hcolon hminute)
  rw [Offset.text, if_pos hzero, List.append_nil, List.cons_append]
  by_cases hneg : o.seconds < 0
  · rw [if_pos hneg]
    exact .west hseconds (by omega)
  · rw [if_neg hneg]
    exact .east hseconds (by omega)

end Literal

/-- A literal can spell the date and time: its year has four digits, its second is no leap second,
and its offset is a whole number of minutes. -/
structure DateTime.Spellable (d : DateTime) : Prop where
  /-- The year is one of the first ten thousand. -/
  year : 0 ≤ d.date.year ∧ d.date.year ≤ 9999
  /-- The second is not sixty. -/
  second : d.clock.second < 60
  /-- The offset has no seconds. -/
  offset : ∀ o ∈ d.offset, o.seconds % 60 = 0

/-- The text of a date and time spells its parts, and these denote it. -/
theorem DateTime.exists_spellsMoment_text {d : DateTime} (h : d.Spellable) :
    ∃ zone, Literal.SpellsMoment d.text d.date d.clock zone ∧
      Literal.zoned d.date d.clock zone = .ok (some d) := by
  have hdate := Literal.spellsDate_text h.year
  have hclock := Literal.spellsClock_text h.second
  have hseparator : Literal.IsSeparator [' '] := .inr (.inr ⟨[], rfl, by simp⟩)
  obtain ⟨date, clock, offset⟩ := d
  cases offset with
  | none =>
    refine ⟨.absent, ⟨date.text, [' '], clock.text, [], [], ?_, hdate, hseparator, hclock, by simp,
      .absent⟩, rfl⟩
    simp [text]
  | some o =>
    obtain ⟨zone, hzone, hzoned⟩ := (Literal.spellsOffset_text (h.offset o rfl)).exists_spellsZone
    refine ⟨zone, ⟨date.text, [' '], clock.text, [' '], o.text, ?_, hdate, hseparator, hclock,
      by simp, hzone⟩, hzoned date clock⟩
    simp [text]

end NeonAudit
