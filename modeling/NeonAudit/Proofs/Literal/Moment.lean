import NeonAudit.Proofs.Literal.Denoted

/-!
# Dates and times in ASCII

With ASCII characters only, a date and time is a day of the calendar, alone or with a time of day, a
fraction of its second and an offset. A literal denotes a date and time exactly if it spells one in
this way, and the text of what it denotes is a literal of the same date and time. No such literal
has a fault.
-/

namespace NeonAudit

namespace Literal

/-- A fraction of a second is not spelled at all, or by a point and digits: the first nine are the
nanoseconds, with zeros in place of those that are missing. -/
inductive SpellsNanosecond : List Char → Nat → Prop
  | absent : SpellsNanosecond [] 0
  | digits {digits} : (∀ c ∈ digits, c.isDigit = true) →
      SpellsNanosecond ('.' :: digits) (digitsValue 10 ((digits ++ List.replicate 9 '0').take 9))

/-- A time of day is spelled by its hour, its minute and its second with colons between them, and a
fraction. -/
def SpellsTime (text : List Char) (clock : Clock) : Prop :=
  ∃ hour minute second fraction,
    text = hour ++ ':' :: (minute ++ ':' :: (second ++ fraction)) ∧
      IsNumeral 1 2 hour clock.hour ∧ IsNumeral 2 2 minute clock.minute ∧
        IsNumeral 2 2 second clock.second ∧ clock.second < 60 ∧
          SpellsNanosecond fraction clock.nanosecond

/-- A date and time is spelled by a day alone, which is its midnight, or by a day, a separator, a
time of day, blanks and an offset. -/
inductive SpellsDateTime : List Char → DateTime → Prop
  | day {text date} : SpellsDate text date → SpellsDateTime text ⟨date, .midnight, none⟩
  | moment {day separator time blanks zone date clock offset} : SpellsDate day date →
      IsSeparator separator → SpellsTime time clock → (∀ c ∈ blanks, c = ' ') →
      SpellsOffset zone offset →
      SpellsDateTime (day ++ (separator ++ (time ++ (blanks ++ zone)))) ⟨date, clock, offset⟩

variable {text digits : List Char} {clock : Clock} {d : DateTime}

/-- The nanoseconds of digits are the number of the first nine, with zeros in place of those that
are missing. -/
theorem nanoseconds_of_isDigit (h : ∀ c ∈ digits, c.isDigit = true) :
    nanoseconds digits = digitsValue 10 ((digits ++ List.replicate 9 '0').take 9) := by
  have hfirst : (digits.take 9).all Char.isDigit = true :=
    List.all_eq_true.2 fun c hc => h c (List.mem_of_mem_take hc)
  have hzeros : 9 - (digits.take 9).length = min (9 - digits.length) 9 := by
    rw [List.length_take]
    omega
  rw [nanoseconds, if_pos hfirst, hzeros, List.take_append, List.take_replicate]

/-- A fraction that is spelled is one of digits of all scripts. -/
theorem SpellsNanosecond.spellsFraction {n : Nat} (h : SpellsNanosecond text n) :
    SpellsFraction text n := by
  cases h with
  | absent => exact .absent
  | digits hdigits =>
    rw [← nanoseconds_of_isDigit hdigits]
    exact .digits fun c hc => Text.isDecimalDigit_of_isDigit (hdigits c hc)

/-- The digits of a fraction in ASCII are those of ASCII. -/
theorem SpellsFraction.spellsNanosecond {n : Nat} (h : SpellsFraction text n)
    (hascii : ∀ c ∈ text, c.toNat < 128) : SpellsNanosecond text n := by
  cases h with
  | absent => exact .absent
  | @digits digits hdigits =>
    have hall : ∀ c ∈ digits, c.isDigit = true := fun c hc =>
      Text.isDigit_of_isDecimalDigit (hdigits c hc) (hascii c (List.mem_cons_of_mem _ hc))
    rw [nanoseconds_of_isDigit hall]
    exact .digits hall

/-- A time of day that is spelled is one with a fraction in any script. -/
theorem SpellsTime.spellsClock (h : SpellsTime text clock) : SpellsClock text clock := by
  obtain ⟨hour, minute, second, fraction, htext, hhour, hminute, hsecond, hleap, hfraction⟩ := h
  exact ⟨hour, minute, second, fraction, htext, hhour, hminute, hsecond, hleap,
    hfraction.spellsFraction⟩

/-- A time of day in ASCII has a fraction in ASCII. -/
theorem SpellsClock.spellsTime (h : SpellsClock text clock) (hascii : ∀ c ∈ text, c.toNat < 128) :
    SpellsTime text clock := by
  obtain ⟨hour, minute, second, fraction, rfl, hhour, hminute, hsecond, hleap, hfraction⟩ := h
  simp only [List.forall_mem_append, List.forall_mem_cons] at hascii
  obtain ⟨-, -, -, -, -, hfractionAscii⟩ := hascii
  exact ⟨hour, minute, second, fraction, rfl, hhour, hminute, hsecond, hleap,
    hfraction.spellsNanosecond hfractionAscii⟩

/-- What spells a date and time is read as it. -/
theorem SpellsDateTime.dateTime? (h : SpellsDateTime text d) : dateTime? text = .ok (some d) := by
  cases h with
  | day hday => exact hday.dateTime?
  | @moment day separator time blanks zone date clock offset hday hseparator htime hblanks hoffset =>
    obtain ⟨found, hzone, hzoned⟩ := hoffset.exists_spellsZone
    have hmoment : SpellsMoment (day ++ (separator ++ (time ++ (blanks ++ zone)))) date clock found :=
      ⟨day, separator, time, blanks, zone, rfl, hday, hseparator, htime.spellsClock, hblanks, hzone⟩
    rw [hmoment.dateTime?, hzoned]

/-- A text in ASCII is read without a fault, and spells the date and time that it is read as. -/
theorem exists_dateTime?_of_ascii (hascii : ∀ c ∈ text, c.toNat < 128) :
    ∃ found, dateTime? text = .ok found ∧ ∀ d ∈ found, SpellsDateTime text d := by
  -- Where no date and time is read there is none to spell.
  by_cases hnone : dateTime? text = .ok none
  · exact ⟨none, hnone, by simp⟩
  obtain ⟨date, hday⟩ | ⟨date, clock, zone, hmoment⟩ := spells_of_dateTime?_ne hnone
  · refine ⟨_, hday.dateTime?, ?_⟩
    rintro d ⟨⟩
    exact .day hday
  · have hread := hmoment.dateTime?
    obtain ⟨day, separator, time, blanks, rest, rfl, hday, hseparator, htime, hblanks, hzone⟩ :=
      hmoment
    simp only [List.forall_mem_append] at hascii
    obtain ⟨-, -, htimeAscii, -, hzoneAscii⟩ := hascii
    obtain ⟨found, hfound, hall⟩ := hzone.exists_zoned hzoneAscii date clock
    refine ⟨found, hread.trans hfound, ?_⟩
    intro d hd
    obtain ⟨offset, rfl, hoffset⟩ := hall d hd
    exact .moment hday hseparator (htime.spellsTime htimeAscii) hblanks hoffset

/-- A date and time starts with a year of four digits and a hyphen. -/
theorem SpellsDateTime.exists_year (h : SpellsDateTime text d) :
    ∃ year n rest, text = year ++ '-' :: rest ∧ IsNumeral 4 4 year n := by
  have hyear {day : List Char} {date : Date} (hday : SpellsDate day date) (rest : List Char) :
      ∃ year n tail, day ++ rest = year ++ '-' :: tail ∧ IsNumeral 4 4 year n := by
    obtain ⟨year, month, number, n, rfl, hyear, -⟩ := hday
    exact ⟨year, n, month ++ '-' :: number ++ rest, by simp, hyear⟩
  cases h with
  | day hday =>
    have halone := hyear hday []
    rwa [List.append_nil] at halone
  | moment hday => exact hyear hday _

end Literal

/-- A literal that denotes a date and time is read as it. -/
theorem Value.dateTime?_of_ofLiteral {text : String} {d : DateTime}
    (h : ofLiteral text = .ok (.dateTime d)) : Literal.dateTime? text.toList = .ok (some d) := by
  unfold ofLiteral at h
  split at h
  · cases h
  · split at h
    · cases h
    · obtain ⟨date, hdate, hvalue⟩ := Result.of_map_eq_ok h
      cases date with
      | none => cases hvalue
      | some found =>
        cases hvalue
        exact hdate

/-- A literal that spells a date and time denotes it. -/
theorem Value.ofLiteral_of_spellsDateTime {text : String} {d : DateTime}
    (h : Literal.SpellsDateTime text.toList d) : ofLiteral text = .ok (.dateTime d) := by
  obtain ⟨year, n, rest, htext, hyear⟩ := h.exists_year
  have hliteral := ofLiteral_of_isNumeral hyear rest
  rw [← htext, String.ofList_toList, h.dateTime?] at hliteral
  exact hliteral

/-- A literal in ASCII denotes a value. That is a date and time exactly if the literal spells it, and
then the text of the date and time is also a literal of it. -/
theorem Value.ofLiteral_dateTime_of_ascii {text : String} (h : ∀ c ∈ text.toList, c.toNat < 128) :
    (∃ value, ofLiteral text = .ok value) ∧
      ∀ d, (ofLiteral text = .ok (.dateTime d) ↔ Literal.SpellsDateTime text.toList d) ∧
        (ofLiteral text = .ok (.dateTime d) →
          ofLiteral (String.ofList d.text) = .ok (.dateTime d)) := by
  obtain ⟨found, hfound, hspells⟩ := Literal.exists_dateTime?_of_ascii h
  refine ⟨exists_ofLiteral_of_dateTime? ⟨found, hfound⟩, ?_⟩
  intro d
  refine ⟨⟨?_, ofLiteral_of_spellsDateTime⟩, ?_⟩
  · intro hvalue
    have hread := dateTime?_of_ofLiteral hvalue
    rw [hfound] at hread
    exact hspells d (Except.ok.inj hread)
  · intro hvalue
    exact ofLiteral_dateTime (Literal.spellable_of_dateTime? (dateTime?_of_ofLiteral hvalue))

/-- The last day of a February with a long fraction of a second and an offset to the west. -/
theorem Value.ofLiteral_dateTime_of_ascii_leapDay :
    (∀ c ∈ "2024-02-29t9:05:07.1234567891  -130".toList, c.toNat < 128) ∧
      ofLiteral "2024-02-29t9:05:07.1234567891  -130" = .ok (.dateTime
        ⟨⟨2024, 2, 29, by decide⟩, ⟨9, 5, 7, 123456789, by decide⟩, some ⟨-5400, by decide⟩⟩) ∧
      ofLiteral "2024-02-29 09:05:07.123456789 -01:30" = .ok (.dateTime
        ⟨⟨2024, 2, 29, by decide⟩, ⟨9, 5, 7, 123456789, by decide⟩, some ⟨-5400, by decide⟩⟩) := by
  have hascii : ∀ c ∈ "2024-02-29t9:05:07.1234567891  -130".toList, c.toNat < 128 := by simp
  have hday : Literal.SpellsDate "2024-02-29".toList ⟨2024, 2, 29, by decide⟩ :=
    ⟨"2024".toList, "02".toList, "29".toList, 2024, rfl, by decide, rfl, by decide, by decide⟩
  have htime : Literal.SpellsTime "9:05:07.1234567891".toList ⟨9, 5, 7, 123456789, by decide⟩ :=
    ⟨"9".toList, "05".toList, "07".toList, ".1234567891".toList, rfl, by decide, by decide,
      by decide, by decide, @Literal.SpellsNanosecond.digits "1234567891".toList
        (List.all_eq_true.1 (by decide))⟩
  have hminute : Literal.SpellsMinute "30".toList 30 :=
    @Literal.SpellsMinute.digits [] "30".toList 30 (by decide) (by decide)
  have hseconds : Literal.SpellsSeconds "130".toList 5400 :=
    @Literal.SpellsSeconds.mk ['1'] "30".toList 1 30 (by decide) hminute
  have hoffset : Literal.SpellsOffset "-130".toList (some ⟨-5400, by decide⟩) :=
    .west hseconds rfl
  have hspells : Literal.SpellsDateTime "2024-02-29t9:05:07.1234567891  -130".toList
      ⟨⟨2024, 2, 29, by decide⟩, ⟨9, 5, 7, 123456789, by decide⟩, some ⟨-5400, by decide⟩⟩ :=
    @Literal.SpellsDateTime.moment _ ['t'] _ [' ', ' '] _ _ _ _ hday (.inr (.inl rfl)) htime
      (by simp) hoffset
  have hvalue := ((ofLiteral_dateTime_of_ascii hascii).2 _).1.2 hspells
  have hdisplay := ((ofLiteral_dateTime_of_ascii hascii).2 _).2 hvalue
  have htext : String.ofList (DateTime.text ⟨⟨2024, 2, 29, by decide⟩,
      ⟨9, 5, 7, 123456789, by decide⟩, some ⟨-5400, by decide⟩⟩) =
        "2024-02-29 09:05:07.123456789 -01:30" := by
    decide +kernel
  rw [htext] at hdisplay
  exact ⟨hascii, hvalue, hdisplay⟩

end NeonAudit
