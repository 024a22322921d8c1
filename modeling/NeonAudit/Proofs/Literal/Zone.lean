import NeonAudit.Proofs.Literal.Grammar
import NeonAudit.Result

/-!
# Zones that cannot be divided

The digits of a zone may be those of any script, and take one to four bytes each. A zone of three or
four bytes is divided two bytes before its end, and where that place is inside a digit the zone is
torn: reading it has a fault then. Of other zones no more is read than two digits of hours and two of
minutes.
-/

namespace NeonAudit

namespace Literal

/-! ### Texts and bytes -/

/-- The bytes of a text are those of its first character and those of the others. -/
theorem byteSize_cons (c : Char) (text : List Char) :
    byteSize (c :: text) = c.utf8Size + byteSize text := by
  rw [byteSize, String.ofList_cons, String.utf8ByteSize_append, String.utf8ByteSize_singleton,
    byteSize]

/-- The bytes of two texts are those of both. -/
theorem byteSize_append (first rest : List Char) :
    byteSize (first ++ rest) = byteSize first + byteSize rest := by
  rw [byteSize, String.ofList_append, String.utf8ByteSize_append, byteSize, byteSize]

/-- A text has no more characters than bytes. -/
theorem length_le_byteSize (text : List Char) : text.length ≤ byteSize text := by
  induction text with
  | nil => exact Nat.zero_le _
  | cons c text ih =>
    have hpos := c.utf8Size_pos
    rw [byteSize_cons, List.length_cons]
    omega

/-- A text is divided after so many bytes exactly if a part of it takes so many. -/
theorem splitAtByte?_eq_some_iff {count : Nat} {text first rest : List Char} :
    splitAtByte? count text = some (first, rest) ↔
      text = first ++ rest ∧ byteSize first = count := by
  fun_induction splitAtByte? count text generalizing first with
  | case1 text =>
    constructor
    · intro h
      cases h
      exact ⟨rfl, rfl⟩
    · intro h
      obtain ⟨rfl, hsize⟩ := h
      have hnil : first = [] := List.eq_nil_of_length_eq_zero
        (Nat.le_zero.1 (hsize ▸ length_le_byteSize first))
      rw [hnil, List.nil_append]
  | case2 count =>
    constructor
    · intro h
      contradiction
    · intro h
      obtain ⟨hnil, hsize⟩ := h
      obtain ⟨rfl, -⟩ := List.append_eq_nil_iff.1 hnil.symm
      contradiction
  | case3 count c text hfits ih =>
    rw [Option.map_eq_some_iff]
    constructor
    · intro h
      obtain ⟨⟨first', rest'⟩, hsplit, hpair⟩ := h
      cases hpair
      obtain ⟨rfl, hsize⟩ := ih.1 hsplit
      refine ⟨rfl, ?_⟩
      rw [byteSize_cons, hsize]
      omega
    · intro h
      obtain ⟨htext, hsize⟩ := h
      cases first with
      | nil => contradiction
      | cons d first =>
        rw [List.cons_append] at htext
        cases htext
        rw [byteSize_cons] at hsize
        exact ⟨(first, rest), ih.2 ⟨rfl, by omega⟩, rfl⟩
  | case4 count c text hfits =>
    constructor
    · intro h
      contradiction
    · intro h
      obtain ⟨htext, hsize⟩ := h
      cases first with
      | nil => contradiction
      | cons d first =>
        rw [List.cons_append] at htext
        cases htext
        rw [byteSize_cons] at hsize
        omega

/-! ### Torn zones -/

/-- The digits of a zone are torn if they take three or four bytes and none of them starts two bytes
before the end. -/
def IsTorn (digits : List Char) : Prop :=
  (byteSize digits = 3 ∨ byteSize digits = 4) ∧
    ∀ first last, digits = first ++ last → byteSize last ≠ 2

/-- A text that would spell a date and time but for the torn digits of its zone. -/
def HasTornZone (text : List Char) : Prop :=
  ∃ date clock west digits, SpellsMoment text date clock (.distance west digits) ∧ IsTorn digits

/-- Digits of fewer than three bytes or more than four are not torn. -/
theorem not_isTorn {digits : List Char} (h : byteSize digits ≤ 2 ∨ 4 < byteSize digits) :
    ¬IsTorn digits := by
  intro htorn
  have hsize := htorn.1
  omega

/-- Digits of three or four bytes are torn exactly if they cannot be divided two bytes before their
end. -/
theorem isTorn_iff_splitAtByte?_eq_none {digits : List Char}
    (hsize : byteSize digits = 3 ∨ byteSize digits = 4) :
    IsTorn digits ↔ splitAtByte? (byteSize digits - 2) digits = none := by
  rw [Option.eq_none_iff_forall_ne_some]
  constructor
  · intro htorn found hfound
    obtain ⟨hdigits, hfirst⟩ := splitAtByte?_eq_some_iff.1 hfound
    have hsum := congrArg byteSize hdigits
    rw [byteSize_append] at hsum
    exact htorn.2 found.1 found.2 hdigits (by omega)
  · intro h
    refine ⟨hsize, ?_⟩
    intro first last hdigits hlast
    apply h (first, last)
    apply splitAtByte?_eq_some_iff.2
    refine ⟨hdigits, ?_⟩
    rw [hdigits, byteSize_append, hlast, Nat.add_sub_cancel]

/-- A number of at most two bytes is less than a hundred. -/
theorem lt_of_readDigits? {text : List Char} {n : Nat} (h : readDigits? 10 text = some n)
    (hsize : byteSize text ≤ 2) : n < 100 := by
  have hlength := length_le_byteSize text
  obtain ⟨-, hdigits, rfl⟩ := readDigits?_eq_some_iff.1 h
  calc
    _ < 10 ^ text.length := digitsValue_lt_pow hdigits
    _ ≤ 10 ^ 2 := Nat.pow_le_pow_right (by decide) (by omega)

/-- The digits of a zone have a fault exactly if they are torn. Otherwise they denote no offset, or
the one of hours and minutes that are less than a hundred. -/
theorem zoneOffset?_cases (west : Bool) (digits : List Char) :
    (IsTorn digits ∧ zoneOffset? west digits = .error ⟨digits⟩) ∨
      (¬IsTorn digits ∧ (zoneOffset? west digits = .ok none ∨
        ∃ hours minutes, hours < 100 ∧ minutes < 100 ∧
          zoneOffset? west digits = .ok (offset? west hours minutes))) := by
  unfold zoneOffset?
  dsimp only
  split
  · -- One or two bytes are the hours.
    rename_i hsize
    refine .inr ⟨not_isTorn (.inl hsize), ?_⟩
    cases hhours : readDigits? 10 digits with
    | none => exact .inl rfl
    | some hours => exact .inr ⟨hours, 0, lt_of_readDigits? hhours hsize, by decide, rfl⟩
  · split
    · have hsize : byteSize digits = 3 ∨ byteSize digits = 4 := by omega
      have htorn := isTorn_iff_splitAtByte?_eq_none hsize
      split
      · rename_i hnone
        exact .inl ⟨htorn.2 hnone, rfl⟩
      · -- The minutes are the last two bytes, and the hours are the one or two before them.
        rename_i first last hsplit
        obtain ⟨hdigits, hfirst⟩ := splitAtByte?_eq_some_iff.1 hsplit
        have hsum := congrArg byteSize hdigits
        rw [byteSize_append] at hsum
        refine .inr ⟨by rw [htorn, hsplit]; exact Option.some_ne_none _, ?_⟩
        cases hhours : readDigits? 10 first with
        | none => exact .inl rfl
        | some hours =>
          cases hminutes : readDigits? 10 last with
          | none => exact .inl rfl
          | some minutes =>
            exact .inr ⟨hours, minutes, lt_of_readDigits? hhours (by omega),
              lt_of_readDigits? hminutes (by omega), rfl⟩
    · rename_i hsize
      exact .inr ⟨not_isTorn (.inr (Nat.lt_of_not_le hsize)), .inl rfl⟩

/-- A day and a time of day with a torn zone have a fault. -/
theorem zoned_eq_error {date : Date} {clock : Clock} {west : Bool} {digits : List Char}
    (h : IsTorn digits) : zoned date clock (.distance west digits) = .error ⟨digits⟩ := by
  obtain ⟨-, herror⟩ | ⟨hwhole, -⟩ := zoneOffset?_cases west digits
  · rw [zoned, herror]
    rfl
  · contradiction

/-- Reading a date and time has a fault exactly if its zone is torn. -/
theorem dateTime?_eq_error_iff {text : List Char} {fault : ZoneFault} :
    dateTime? text = .error fault ↔ ∃ date clock west,
      SpellsMoment text date clock (.distance west fault.zone) ∧ IsTorn fault.zone := by
  constructor
  · intro h
    have hne : dateTime? text ≠ .ok none := by
      intro hnone
      rw [h] at hnone
      contradiction
    obtain ⟨date, hdate⟩ | ⟨date, clock, zone, hmoment⟩ := spells_of_dateTime?_ne hne
    · rw [hdate.dateTime?] at h
      contradiction
    · rw [hmoment.dateTime?] at h
      cases zone with
      | absent => contradiction
      | universal => contradiction
      | distance west digits =>
        have hoffset := Result.of_map_eq_error h
        obtain ⟨htorn, herror⟩ | ⟨-, hnone | ⟨hours, minutes, -, -, hok⟩⟩ :=
          zoneOffset?_cases west digits
        · rw [herror] at hoffset
          cases hoffset
          exact ⟨date, clock, west, hmoment, htorn⟩
        · rw [hnone] at hoffset
          contradiction
        · rw [hok] at hoffset
          contradiction
  · intro h
    obtain ⟨date, clock, west, hmoment, htorn⟩ := h
    rw [hmoment.dateTime?, zoned_eq_error htorn]

end Literal

end NeonAudit
