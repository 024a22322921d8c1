import NeonAudit.Document.Encode
import NeonAudit.Proofs.Literal.Integer
import NeonAudit.Proofs.Number.Shortest

/-!
# Numbers read back

The text of an integer spells that integer, and the text of a finite float that float. Neither
announces a radix, and only the text of a float has a point.
-/

namespace NeonAudit

namespace Literal

/-- The text of an integer spells it. -/
theorem spellsDecimal_integerText (n : Int) : SpellsDecimal (integerText n) n := by
  have hspells (sign : List Char) (negative : Bool) (hsign : (sign, negative) ∈ signs) :
      SpellsDecimal (sign ++ decimalText n.natAbs) (signed negative n.natAbs) := by
    have hdigits := SpellsDecimal.digits hsign (decimalText_ne_nil n.natAbs)
      fun _ => isDigit_of_mem_decimalText
    rwa [digitsValue_decimalText] at hdigits
  rw [integerText]
  by_cases h : n < 0
  · have hminus := hspells ['-'] true (by simp [signs])
    have hvalue : signed true n.natAbs = n := by
      rw [signed, if_pos rfl]
      omega
    rw [hvalue] at hminus
    rwa [if_pos h]
  · have hplain := hspells [] false (by simp [signs])
    have hvalue : signed false n.natAbs = n := Int.natAbs_of_nonneg (Int.not_lt.1 h)
    rw [hvalue] at hplain
    rwa [if_neg h]

/-- The text of an integer of 64 bits is read as it. -/
theorem number?_integerText (n : Int64) : number? (integerText n.toInt) = some (.int n) :=
  number?_eq_int_iff.2 (.inl (spellsDecimal_integerText n.toInt))

/-- Digits with a point among them, after an optional minus, spell a float. -/
theorem number?_decimal {whole fraction : List Char}
    (hdigits : ∀ c ∈ whole ++ fraction, c.isDigit = true) (hne : whole ≠ []) (negative : Bool) :
    number? ((if negative then ['-'] else []) ++ (whole ++ '.' :: fraction)) =
      some (.float (Binary64.ofDecimal negative (digitsValue 10 (whole ++ fraction))
        (-fraction.length))) := by
  have hwhole : ∀ c ∈ whole, c.isDigit = true := fun c hc =>
    hdigits c (List.mem_append_left fraction hc)
  have hfraction : ∀ c ∈ fraction, c.isDigit = true := fun c hc =>
    hdigits c (List.mem_append_right whole hc)
  have hsign : splitSign ((if negative then ['-'] else []) ++ (whole ++ '.' :: fraction)) =
      (negative, whole ++ '.' :: fraction) := by
    cases negative with
    | true => rfl
    | false =>
      change splitSign (whole ++ '.' :: fraction) = (false, whole ++ '.' :: fraction)
      exact splitSign_of_isDigit hwhole hne _
  have hradix :
      splitRadix? ((if negative then ['-'] else []) ++ (whole ++ '.' :: fraction)) = none := by
    refine splitRadix?_eq_none fun c hc => not_mem_radix ?_
    rcases List.mem_append.1 (List.mem_of_mem_tail (List.mem_of_mem_head? hc)) with hc | hc
    · cases negative with
      | true => exact .inr (.inl (List.mem_singleton.1 hc))
      | false => contradiction
    · rcases List.mem_append.1 hc with hc | hc
      · exact .inl (hwhole c hc)
      · rcases List.mem_cons.1 hc with rfl | hc
        · exact .inr (.inr rfl)
        · exact .inl (hfraction c hc)
  have hinteger : integer? ((if negative then ['-'] else []) ++ (whole ++ '.' :: fraction)) =
      none := by
    rw [integer?_of_splitSign hsign, readDigits?_eq_none (c := '.') (by simp) (by decide),
      Option.bind_none]
  have hparts : decimalParts? ((if negative then ['-'] else []) ++ (whole ++ '.' :: fraction)) =
      some ⟨negative, whole, some fraction, none⟩ := by
    refine decimalParts?_of_splitSign hsign hwhole ?_ hne
    rintro _ ⟨⟩
    exact hfraction
  rw [number?, hradix]
  dsimp only
  rw [hinteger, hparts]
  simp [DecimalParts.toFloat]

end Literal

/-- The text of a finite number is that of its sign and of a decimal that is read as its index. -/
theorem Binary64.exists_text {x : Binary64} (h : x.isFinite = true) :
    ∃ whole fraction,
      x.text = (if x.negative then ['-'] else []) ++ (whole ++ '.' :: fraction) ∧
      (∀ c ∈ whole ++ fraction, c.isDigit = true) ∧ whole ≠ [] ∧
      ofDecimal x.negative (digitsValue 10 (whole ++ fraction)) (-fraction.length) = x := by
  have hfinite : x.index < infinityIndex := by simpa [isFinite] using h
  have htext : x.text = (if x.negative then ['-'] else []) ++ (shortest x.index).positional := by
    have hnan : x.isNaN = false := decide_eq_false (Nat.lt_asymm hfinite)
    rw [text, hnan, if_neg Bool.false_ne_true, h, if_pos rfl]
    dsimp only
    split <;> rfl
  rw [htext]
  rcases Nat.eq_zero_or_pos x.index with hzero | hindex
  · refine ⟨['0'], ['0'], ?_, by simp, by simp, ?_⟩
    · rw [hzero]
      rfl
    · rw [ofDecimal, if_pos (by decide), ← hzero, ofIndex_negative_index]
  · obtain ⟨whole, fraction, hpositional, hdigits, hne, hvalue⟩ :=
      Decimal.exists_positional hindex hfinite.le (readsAs_shortest hindex)
    exact ⟨whole, fraction, by rw [hpositional], hdigits, hne,
      (hvalue x.negative).trans (ofIndex_negative_index x)⟩

/-- The text of a finite number spells it. -/
theorem Literal.number?_text {x : Binary64} (h : x.isFinite = true) :
    number? x.text = some (.float x) := by
  obtain ⟨whole, fraction, htext, hdigits, hne, hvalue⟩ := Binary64.exists_text h
  rw [htext, number?_decimal hdigits hne, hvalue]

end NeonAudit
