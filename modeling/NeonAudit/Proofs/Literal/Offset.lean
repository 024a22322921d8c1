import NeonAudit.Proofs.Literal.Zone

/-!
# Offsets of hours and minutes

With ASCII digits a zone is a sign, one or two digits of hours, and none or two of minutes. The
bytes of such digits are as many as the digits, so what is divided two bytes before its end are the
hours and the minutes, and every zone in ASCII denotes their sum if that is less than a day.
-/

namespace NeonAudit

/-- The offset of a number of seconds is the one with as many. -/
theorem Offset.of?_eq_some_iff {seconds : Int} {o : Offset} :
    Offset.of? seconds = some o ↔ o.seconds = seconds := by
  unfold Offset.of?
  constructor
  · intro h
    split at h
    · cases h
      rfl
    · contradiction
  · intro h
    rw [← h]
    exact dif_pos o.inDay

namespace Literal

/-- Minutes are not spelled at all, or by two digits that may follow a colon. -/
inductive SpellsMinute : List Char → Nat → Prop
  | absent : SpellsMinute [] 0
  | digits {colon digits minute} : colon ∈ [[], [':']] → IsNumeral 2 2 digits minute →
      SpellsMinute (colon ++ digits) minute

/-- Hours and minutes spell the seconds that they take together. -/
inductive SpellsSeconds : List Char → Nat → Prop
  | mk {hours minutes hour minute} : IsNumeral 1 2 hours hour → SpellsMinute minutes minute →
      SpellsSeconds (hours ++ minutes) (hour * 3600 + minute * 60)

/-- An offset is not spelled at all, or by a letter if it is zero, or by a sign with hours and minutes.
Hours and minutes that take a day or more spell none. -/
inductive SpellsOffset : List Char → Option Offset → Prop
  | absent : SpellsOffset [] none
  | universal {o : Offset} : o.seconds = 0 → SpellsOffset ['Z'] (some o)
  | east {text n} {o : Offset} : SpellsSeconds text n → o.seconds = n →
      SpellsOffset ('+' :: text) (some o)
  | west {text n} {o : Offset} : SpellsSeconds text n → o.seconds = -n →
      SpellsOffset ('-' :: text) (some o)

variable {hours minutes text digits : List Char} {hour minute n : Nat} {west : Bool}

/-! ### Hours and minutes -/

/-- A digit takes one byte. -/
theorem utf8Size_of_isDigit {c : Char} (h : c.isDigit = true) : c.utf8Size = 1 := by
  have hbounds : '0' ≤ c ∧ c ≤ '9' := by simpa [Char.isDigit, Char.le_def] using h
  exact Char.utf8Size_eq_one_iff.2 (UInt32.le_trans hbounds.2 (by decide))

/-- Digits take as many bytes as there are of them. -/
theorem byteSize_of_isDigit {text : List Char} (h : ∀ c ∈ text, c.isDigit = true) :
    byteSize text = text.length := by
  induction text with
  | nil => rfl
  | cons c text ih =>
    rw [byteSize_cons, utf8Size_of_isDigit (h c List.mem_cons_self), List.length_cons, Nat.add_comm,
      ih fun d hd => h d (List.mem_cons_of_mem c hd)]

/-- A numeral of at least one digit is read as its number. -/
theorem IsNumeral.readDigits? {least most : Nat} (h : IsNumeral (least + 1) most digits n) :
    readDigits? 10 digits = some n := by
  have hne : digits ≠ [] := by
    rintro rfl
    exact Nat.not_succ_le_zero least h.least_le
  rw [readDigits?_of_isDigit h.isDigit hne, h.value]

/-- One or two digits of a zone are the offset of their hours. -/
theorem zoneOffset?_hours (hhours : IsNumeral 1 2 hours hour) :
    zoneOffset? west hours = .ok (offset? west hour 0) := by
  have hsize := byteSize_of_isDigit hhours.isDigit
  have hmost := hhours.le_most
  rw [zoneOffset?, if_pos (by omega), hhours.readDigits?, Option.bind_some]

/-- Two more digits of a zone are minutes. -/
theorem zoneOffset?_minutes (hhours : IsNumeral 1 2 hours hour)
    (hminutes : IsNumeral 2 2 minutes minute) :
    zoneOffset? west (hours ++ minutes) = .ok (offset? west hour minute) := by
  have hfirst := byteSize_of_isDigit hhours.isDigit
  have hlast := (byteSize_of_isDigit hminutes.isDigit).trans
    (Nat.le_antisymm hminutes.le_most hminutes.least_le)
  have hleast := hhours.least_le
  have hmost := hhours.le_most
  have hsize : byteSize (hours ++ minutes) = byteSize hours + 2 := by rw [byteSize_append, hlast]
  -- The minutes take the last two bytes, so the digits are divided right before them.
  have hsplit : splitAtByte? (byteSize hours) (hours ++ minutes) = some (hours, minutes) :=
    splitAtByte?_eq_some_iff.2 ⟨rfl, rfl⟩
  rw [zoneOffset?, hsize, if_neg (by omega), if_pos (by omega), Nat.add_sub_cancel, hsplit]
  dsimp only
  rw [hhours.readDigits?, hminutes.readDigits?, Option.bind_some, Option.bind_some]

/-- The offset of hours and minutes is that of the seconds they take together. -/
theorem offset?_eq (west : Bool) (hour minute : Nat) :
    offset? west hour minute = Offset.of? (signed west (hour * 3600 + minute * 60)) := by
  have hseconds : ((hour * 3600 + minute * 60 : Nat) : Int) = hour * 3600 + minute * 60 := by omega
  rw [signed, hseconds]
  rfl

/-- The digits of a numeral are decimal digits. -/
theorem IsNumeral.isDecimalDigit {least most : Nat} (h : IsNumeral least most digits n) :
    ∀ c ∈ digits, Text.isDecimalDigit c = true := fun c hc =>
  Text.isDecimalDigit_of_isDigit (h.isDigit c hc)

/-- Hours and minutes are a distance whose digits denote the offset of their seconds. -/
theorem SpellsSeconds.exists_spellsDistance (h : SpellsSeconds text n) :
    ∃ digits, SpellsDistance text digits ∧
      ∀ west : Bool, zoneOffset? west digits = .ok (Offset.of? (signed west n)) := by
  cases h with
  | @mk hours minutes hour minute hhours hminutes =>
    have hleast := hhours.least_le
    have hmost := hhours.le_most
    cases hminutes with
    | absent =>
      rw [List.append_nil]
      refine ⟨hours, .hours hhours.isDecimalDigit hleast hmost, ?_⟩
      intro west
      rw [zoneOffset?_hours hhours, offset?_eq]
    | @digits colon digits _ hcolon hdigits =>
      rw [← List.append_assoc]
      refine ⟨hours ++ digits, .minutes hhours.isDecimalDigit hleast hmost hcolon
        hdigits.isDecimalDigit (Nat.le_antisymm hdigits.le_most hdigits.least_le), ?_⟩
      intro west
      rw [zoneOffset?_minutes hhours hdigits, offset?_eq]

/-- Decimal digits in ASCII are a numeral. -/
theorem isNumeral_of_ascii {least most : Nat} (h : ∀ c ∈ digits, Text.isDecimalDigit c = true)
    (hascii : ∀ c ∈ digits, c.toNat < 128) (hleast : least ≤ digits.length)
    (hmost : digits.length ≤ most) : IsNumeral least most digits (digitsValue 10 digits) :=
  ⟨fun c hc => Text.isDigit_of_isDecimalDigit (h c hc) (hascii c hc), hleast, hmost, rfl⟩

/-- A distance in ASCII is spelled by hours and minutes, and its digits denote the offset of their
seconds. -/
theorem SpellsDistance.exists_spellsSeconds (h : SpellsDistance text digits)
    (hascii : ∀ c ∈ text, c.toNat < 128) :
    ∃ n, SpellsSeconds text n ∧
      ∀ west : Bool, zoneOffset? west digits = .ok (Offset.of? (signed west n)) := by
  cases h with
  | hours hhours hleast hmost =>
    have hnumeral := isNumeral_of_ascii hhours hascii hleast hmost
    have hseconds := SpellsSeconds.mk hnumeral .absent
    rw [List.append_nil] at hseconds
    refine ⟨_, hseconds, ?_⟩
    intro west
    rw [zoneOffset?_hours hnumeral, offset?_eq]
  | @minutes hours colon minutes hhours hleast hmost hcolon hminutes htwo =>
    simp only [List.forall_mem_append] at hascii
    have hhoursNumeral := isNumeral_of_ascii hhours hascii.1.1 hleast hmost
    have hminutesNumeral := isNumeral_of_ascii hminutes hascii.2 htwo.ge htwo.le
    rw [List.append_assoc]
    refine ⟨_, .mk hhoursNumeral (.digits hcolon hminutesNumeral), ?_⟩
    intro west
    rw [zoneOffset?_minutes hhoursNumeral hminutesNumeral, offset?_eq]

/-! ### Zones -/

/-- Hours and minutes are a distance, and a sign before them makes it the offset of their seconds. -/
theorem SpellsSeconds.exists_zoned (h : SpellsSeconds text n) (west : Bool) {o : Offset}
    (ho : o.seconds = signed west n) :
    ∃ digits, SpellsDistance text digits ∧
      ∀ date clock, zoned date clock (.distance west digits) = .ok (some ⟨date, clock, some o⟩) := by
  obtain ⟨digits, hdistance, hoffset⟩ := h.exists_spellsDistance
  refine ⟨digits, hdistance, ?_⟩
  intro date clock
  rw [zoned, hoffset, Offset.of?_eq_some_iff.2 ho]
  rfl

/-- The zone of an offset is spelled where the offset is, and denotes it. -/
theorem SpellsOffset.exists_spellsZone {offset : Option Offset} (h : SpellsOffset text offset) :
    ∃ zone, SpellsZone text zone ∧
      ∀ date clock, zoned date clock zone = .ok (some ⟨date, clock, offset⟩) := by
  cases h with
  | absent => exact ⟨.absent, .absent, fun _ _ => rfl⟩
  | universal hzero =>
    refine ⟨.universal, .universal, ?_⟩
    intro date clock
    rw [zoned, Offset.of?_eq_some_iff.2 hzero]
  | east hseconds ho =>
    obtain ⟨digits, hdistance, hzoned⟩ := hseconds.exists_zoned false ho
    exact ⟨.distance false digits, .east hdistance, hzoned⟩
  | west hseconds ho =>
    obtain ⟨digits, hdistance, hzoned⟩ := hseconds.exists_zoned true ho
    exact ⟨.distance true digits, .west hdistance, hzoned⟩

/-- A distance in ASCII has no fault, and where it denotes an offset it is of as many seconds as are
spelled. -/
theorem SpellsDistance.exists_zoned (h : SpellsDistance text digits)
    (hascii : ∀ c ∈ text, c.toNat < 128) (west : Bool) (date : Date) (clock : Clock) :
    ∃ found, zoned date clock (.distance west digits) = .ok found ∧
      ∀ d ∈ found, ∃ n o, d = ⟨date, clock, some o⟩ ∧ SpellsSeconds text n ∧
        o.seconds = signed west n := by
  obtain ⟨n, hseconds, hoffset⟩ := h.exists_spellsSeconds hascii
  rw [zoned, hoffset]
  refine ⟨_, rfl, ?_⟩
  intro d hd
  obtain ⟨o, ho, rfl⟩ := Option.map_eq_some_iff.1 hd
  exact ⟨n, o, rfl, hseconds, Offset.of?_eq_some_iff.1 ho⟩

/-- A zone in ASCII has no fault, and where it denotes an offset it spells that. -/
theorem SpellsZone.exists_zoned {zone : ZoneText} (h : SpellsZone text zone)
    (hascii : ∀ c ∈ text, c.toNat < 128) (date : Date) (clock : Clock) :
    ∃ found, zoned date clock zone = .ok found ∧
      ∀ d ∈ found, ∃ offset, d = ⟨date, clock, offset⟩ ∧ SpellsOffset text offset := by
  cases h with
  | absent =>
    refine ⟨_, rfl, ?_⟩
    rintro d ⟨⟩
    exact ⟨none, rfl, .absent⟩
  | universal =>
    refine ⟨_, rfl, ?_⟩
    rintro d ⟨⟩
    exact ⟨_, rfl, .universal rfl⟩
  | east hdistance =>
    obtain ⟨found, hfound, hall⟩ :=
      hdistance.exists_zoned (List.forall_mem_cons.1 hascii).2 false date clock
    refine ⟨found, hfound, ?_⟩
    intro d hd
    obtain ⟨n, o, rfl, hseconds, ho⟩ := hall d hd
    exact ⟨some o, rfl, .east hseconds ho⟩
  | west hdistance =>
    obtain ⟨found, hfound, hall⟩ :=
      hdistance.exists_zoned (List.forall_mem_cons.1 hascii).2 true date clock
    refine ⟨found, hfound, ?_⟩
    intro d hd
    obtain ⟨n, o, rfl, hseconds, ho⟩ := hall d hd
    exact ⟨some o, rfl, .west hseconds ho⟩

end Literal

end NeonAudit
