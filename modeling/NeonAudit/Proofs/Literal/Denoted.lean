import NeonAudit.Proofs.Literal.Spelling

/-!
# What literals denote

Whatever a literal denotes can be spelled again: a date and time that a literal spells has a year of
four digits, no leap second and an offset of whole minutes, and text is denoted by that text only.
A text without colons denotes a value in any case, because a zone follows a time of day. Integers are
denoted by the texts that spell them, and only by these.
-/

namespace NeonAudit

namespace Literal

/-- An offset of hours and minutes has no seconds. -/
theorem wholeMinute_of_offset? {west : Bool} {hours minutes : Nat} {o : Offset}
    (h : offset? west hours minutes = some o) : o.seconds % 60 = 0 := by
  have hseconds := Offset.of?_eq_some_iff.1 h
  split at hseconds <;> omega

/-- An offset that is spelled has no seconds. -/
theorem wholeMinute_of_zoneOffset? {west : Bool} {digits : List Char} {o : Offset}
    (h : zoneOffset? west digits = .ok (some o)) : o.seconds % 60 = 0 := by
  obtain ⟨-, herror⟩ | ⟨-, hnone | ⟨hours, minutes, -, -, hoffset⟩⟩ := zoneOffset?_cases west digits
  · rw [herror] at h
    contradiction
  · rw [hnone] at h
    cases h
  · rw [hoffset] at h
    exact wholeMinute_of_offset? (Except.ok.inj h)

/-- A date and time that a literal spells can be spelled again. -/
theorem spellable_of_dateTime? {text : List Char} {d : DateTime}
    (h : dateTime? text = .ok (some d)) : d.Spellable := by
  have hne : dateTime? text ≠ .ok none := by
    intro hnone
    rw [h] at hnone
    cases hnone
  obtain ⟨date, hdate⟩ | ⟨date, clock, zone, hmoment⟩ := spells_of_dateTime?_ne hne
  · rw [hdate.dateTime?] at h
    cases h
    exact ⟨hdate.year_bounds, Nat.zero_lt_succ 59, fun o ho => by contradiction⟩
  · rw [hmoment.dateTime?] at h
    obtain ⟨hyear, hsecond⟩ := hmoment.bounds
    cases zone with
    | absent =>
      cases h
      exact ⟨hyear, hsecond, fun o ho => by contradiction⟩
    | universal =>
      cases h
      refine ⟨hyear, hsecond, ?_⟩
      intro o ho
      cases ho
      rfl
    | distance west digits =>
      obtain ⟨offset, hoffset, h⟩ := Result.of_map_eq_ok h
      obtain ⟨o, rfl, rfl⟩ := Option.map_eq_some_iff.1 h
      refine ⟨hyear, hsecond, ?_⟩
      intro o' ho
      cases ho
      exact wholeMinute_of_zoneOffset? hoffset

/-- Without a colon there is no zone. -/
theorem exists_dateTime?_eq_ok {text : List Char} (h : ':' ∉ text) :
    ∃ date, dateTime? text = .ok date := by
  cases hdate : dateTime? text with
  | ok date => exact ⟨date, rfl⟩
  | error fault =>
    obtain ⟨date, clock, west, hmoment, -⟩ := dateTime?_eq_error_iff.1 hdate
    exact absurd hmoment.colon_mem h

/-- A keyword denotes null or a truth value. -/
theorem keyword?_cases {text : String} {s : Scalar} (h : keyword? text = some s) :
    s = .null ∨ ∃ value, s = .bool value := by
  unfold keyword? at h
  repeat' split at h
  · cases h
    exact .inr ⟨true, rfl⟩
  · cases h
    exact .inr ⟨false, rfl⟩
  · cases h
    exact .inl rfl
  · contradiction

/-- A keyword denotes no text. -/
theorem ne_string_of_keyword? {text : String} {s : Scalar} (h : keyword? text = some s)
    (value : String) : s ≠ .string value := by
  obtain rfl | ⟨b, rfl⟩ := keyword?_cases h
  · exact Scalar.noConfusion
  · exact Scalar.noConfusion

/-- A number denotes no text. -/
theorem ne_string_of_number? {text : List Char} {s : Scalar} (h : number? text = some s)
    (value : String) : s ≠ .string value := by
  unfold number? at h
  split at h
  · obtain ⟨n, -, rfl⟩ := Option.map_eq_some_iff.1 h
    exact Scalar.noConfusion
  · split at h
    · cases h
      exact Scalar.noConfusion
    · obtain ⟨parts, -, rfl⟩ := Option.map_eq_some_iff.1 h
      exact Scalar.noConfusion

/-- A text with a mark of a radix starts with no year. -/
theorem SpellsInRadix.dateTime?_eq_ok_none {text : List Char} {n : Int} (h : SpellsInRadix text n) :
    dateTime? text = .ok none := by
  cases h with
  | @digits letter radix digits hletter =>
    obtain ⟨rfl, -⟩ | ⟨rfl, -⟩ | ⟨rfl, -⟩ := mem_radixLetters hletter <;> rfl

/-- No keyword spells an integer. -/
theorem keyword?_of_spells {text : String} {n : Int}
    (h : SpellsDecimal text.toList n ∨ SpellsInRadix text.toList n) : keyword? text = none := by
  have hcons : ∃ c rest, text.toList = c :: rest ∧ (c.isDigit = true ∨ c = '-' ∨ c = '+') := by
    obtain h | h := h
    · exact h.exists_cons
    · cases htext : text.toList with
      | nil =>
        rw [htext] at h
        cases h
      | cons c rest =>
        rw [htext] at h
        cases h
        exact ⟨_, _, rfl, .inl rfl⟩
  obtain ⟨c, rest, htext, hc⟩ := hcons
  rw [← String.ofList_toList (s := text), htext]
  exact keyword?_eq_none hc

end Literal

/-- A literal denotes its own text, a scalar that is no text, or a date and time that can be spelled
again. -/
theorem Value.ofLiteral_cases {text : String} {value : Value} (h : ofLiteral text = .ok value) :
    value = .string text ∨ (∃ s, value = .scalar s ∧ ∀ other, s ≠ .string other) ∨
      ∃ d, value = .dateTime d ∧ d.Spellable := by
  unfold ofLiteral at h
  split at h
  · rename_i s hkeyword
    cases h
    exact .inr (.inl ⟨s, rfl, Literal.ne_string_of_keyword? hkeyword⟩)
  · split at h
    · rename_i s hnumber
      cases h
      exact .inr (.inl ⟨s, rfl, Literal.ne_string_of_number? hnumber⟩)
    · obtain ⟨date, hdate, rfl⟩ := Result.of_map_eq_ok h
      cases date with
      | none => exact .inl rfl
      | some d => exact .inr (.inr ⟨d, rfl, Literal.spellable_of_dateTime? hdate⟩)

/-- A literal denotes a value if it is read as a date and time without a fault. -/
theorem Value.exists_ofLiteral_of_dateTime? {text : String}
    (h : ∃ date, Literal.dateTime? text.toList = .ok date) :
    ∃ value, ofLiteral text = .ok value := by
  unfold ofLiteral
  split
  · exact ⟨_, rfl⟩
  · split
    · exact ⟨_, rfl⟩
    · obtain ⟨date, hdate⟩ := h
      rw [hdate]
      exact ⟨_, rfl⟩

/-- A literal without colons denotes a value. -/
theorem Value.exists_ofLiteral_eq_ok {text : String} (h : ':' ∉ text.toList) :
    ∃ value, ofLiteral text = .ok value :=
  exists_ofLiteral_of_dateTime? (Literal.exists_dateTime?_eq_ok h)

/-- A literal that denotes an integer is a number. -/
theorem Value.number?_of_ofLiteral {text : String} {value : Int64}
    (h : ofLiteral text = .ok (.scalar (.int value))) :
    Literal.number? text.toList = some (.int value) := by
  unfold ofLiteral at h
  split at h
  · rename_i s hkeyword
    obtain rfl | ⟨b, rfl⟩ := Literal.keyword?_cases hkeyword
    · cases h
    · cases h
  · split at h
    · rename_i s hnumber
      cases h
      exact hnumber
    · obtain ⟨date, -, hdate⟩ := Result.of_map_eq_ok h
      cases date with
      | none => cases hdate
      | some d => cases hdate

/-- A literal denotes an integer exactly if it spells that integer, in decimal or in a radix, and 64
bits suffice for it. With more bits a decimal integer denotes a float, and one in a radix its
text. -/
theorem Value.ofLiteral_integer (text : String) (n : Int) :
    ((∃ value : Int64, value.toInt = n ∧ ofLiteral text = .ok (.scalar (.int value))) ↔
        (Literal.SpellsDecimal text.toList n ∨ Literal.SpellsInRadix text.toList n) ∧
          -2 ^ 63 ≤ n ∧ n < 2 ^ 63) ∧
      (Literal.SpellsDecimal text.toList n → ¬(-2 ^ 63 ≤ n ∧ n < 2 ^ 63) →
        ofLiteral text = .ok (.scalar (.float (Binary64.ofDecimal (n < 0) n.natAbs 0)))) ∧
      (Literal.SpellsInRadix text.toList n → 2 ^ 63 ≤ n → ofLiteral text = .ok (.string text)) := by
  refine ⟨⟨?_, ?_⟩, ?_, ?_⟩
  · intro h
    obtain ⟨value, rfl, hvalue⟩ := h
    exact ⟨Literal.number?_eq_int_iff.1 (number?_of_ofLiteral hvalue), value.le_toInt,
      value.toInt_lt⟩
  · intro h
    obtain ⟨hspells, hlow, hhigh⟩ := h
    have hvalue := Int64.toInt_ofInt_of_le hlow hhigh
    have hnumber := Literal.number?_eq_int_iff.2 (hvalue.symm ▸ hspells)
    refine ⟨Int64.ofInt n, hvalue, ?_⟩
    rw [ofLiteral, Literal.keyword?_of_spells hspells]
    dsimp only
    rw [hnumber]
  · intro hspells hrange
    rw [ofLiteral, Literal.keyword?_of_spells (.inl hspells)]
    dsimp only
    rw [hspells.number?_of_outOfRange hrange]
  · intro hspells hrange
    rw [ofLiteral, Literal.keyword?_of_spells (.inr hspells)]
    dsimp only
    rw [hspells.number?_of_outOfRange hrange]
    dsimp only
    rw [hspells.dateTime?_eq_ok_none]
    rfl

/-- One less than the least integer of 64 bits denotes a float, and one more than the greatest, in
radix sixteen, its text. -/
theorem Value.ofLiteral_integer_beyond :
    Literal.SpellsDecimal "-9223372036854775809".toList (-9223372036854775809) ∧
      ofLiteral "-9223372036854775809" =
        .ok (.scalar (.float (Binary64.ofDecimal true 9223372036854775809 0))) ∧
      Literal.SpellsInRadix "0x8000000000000000".toList 9223372036854775808 ∧
      ofLiteral "0x8000000000000000" = .ok (.string "0x8000000000000000") := by
  have hdecimal : Literal.SpellsDecimal "-9223372036854775809".toList (-9223372036854775809) :=
    @Literal.SpellsDecimal.digits ['-'] true "9223372036854775809".toList (by decide) (by decide)
      (List.all_eq_true.1 (by decide))
  have hradix : Literal.SpellsInRadix "0x8000000000000000".toList 9223372036854775808 :=
    @Literal.SpellsInRadix.digits 'x' 16 "8000000000000000".toList (by decide) (by decide)
      (List.all_eq_true.1 (by decide))
  have hfloat := (ofLiteral_integer "-9223372036854775809" (-9223372036854775809)).2.1 hdecimal
    (by decide)
  have hstring := (ofLiteral_integer "0x8000000000000000" 9223372036854775808).2.2 hradix
    (by decide)
  exact ⟨hdecimal, hfloat, hradix, hstring⟩

end NeonAudit
