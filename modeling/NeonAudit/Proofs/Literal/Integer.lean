import Mathlib.Algebra.Group.Int.Defs
import NeonAudit.Literal.Number
import NeonAudit.Proofs.Number.Digits
import NeonAudit.Proofs.Text.Span

/-!
# Integers among the numbers

A decimal integer is spelled by digits after an optional sign, and an integer in radix sixteen, eight
or two by its digits after a mark of the radix. Where 64 bits suffice for it the number that is read
is the integer, and no other text is read as one. Otherwise a decimal integer is read as a float, and
one with a radix is no number.
-/

namespace NeonAudit

namespace Literal

/-- The signs of decimal integers, with whether they stand for a minus. -/
def signs : List (List Char × Bool) :=
  [([], false), (['+'], false), (['-'], true)]

/-- The letters that announce a radix after a zero. -/
def radixLetters : List (Char × Nat) :=
  [('x', 16), ('o', 8), ('b', 2)]

/-- One or more digits after an optional sign spell an integer. -/
inductive SpellsDecimal : List Char → Int → Prop
  | digits {sign negative digits} : (sign, negative) ∈ signs → digits ≠ [] →
      (∀ c ∈ digits, c.isDigit = true) →
      SpellsDecimal (sign ++ digits) (signed negative (digitsValue 10 digits))

/-- One or more digits of a radix after its mark spell an integer. -/
inductive SpellsInRadix : List Char → Int → Prop
  | digits {letter radix digits} : (letter, radix) ∈ radixLetters → digits ≠ [] →
      (∀ c ∈ digits, (digit? radix c).isSome = true) →
      SpellsInRadix ('0' :: letter :: digits) (digitsValue radix digits)

variable {text digits : List Char} {negative : Bool} {magnitude radix : Nat} {value : Int64} {n : Int}

/-! ### Signs, marks and parts -/

/-- A sign is none, a plus or a minus. -/
theorem mem_signs {sign : List Char} (h : (sign, negative) ∈ signs) :
    (sign = [] ∧ negative = false) ∨ (sign = ['+'] ∧ negative = false) ∨
      (sign = ['-'] ∧ negative = true) := by
  simpa [signs] using h

/-- There are three letters that announce a radix. -/
theorem mem_radixLetters {letter : Char} (h : (letter, radix) ∈ radixLetters) :
    (letter = 'x' ∧ radix = 16) ∨ (letter = 'o' ∧ radix = 8) ∨ (letter = 'b' ∧ radix = 2) := by
  simpa [radixLetters] using h

/-- A sign of its own is needed for a text to be divided after it. -/
theorem splitSign_of_head? {text : List Char} (h : ∀ c ∈ text.head?, c ≠ '-' ∧ c ≠ '+') :
    splitSign text = (false, text) := by
  unfold splitSign
  split
  · exact absurd rfl (h '-' rfl).1
  · exact absurd rfl (h '+' rfl).2
  · rfl

/-- A digit is no sign. -/
theorem ne_sign_of_isDigit {c : Char} (h : c.isDigit = true) : c ≠ '-' ∧ c ≠ '+' := by
  constructor <;> (rintro rfl; contradiction)

/-- What starts with a digit has no sign. -/
theorem splitSign_of_isDigit {text : List Char} (h : ∀ c ∈ text, c.isDigit = true)
    (hne : text ≠ []) (rest : List Char) : splitSign (text ++ rest) = (false, text ++ rest) := by
  obtain ⟨c, text, rfl⟩ := List.exists_cons_of_ne_nil hne
  refine splitSign_of_head? ?_
  rintro d ⟨⟩
  exact ne_sign_of_isDigit (h c List.mem_cons_self)

/-- A text whose second character is not the letter of a radix announces none. -/
theorem splitRadix?_eq_none {text : List Char}
    (h : ∀ c ∈ text.tail.head?, c ∉ ['x', 'o', 'b']) : splitRadix? text = none := by
  unfold splitRadix?
  split
  · exact absurd List.mem_cons_self (h 'x' rfl)
  · exact absurd (by simp) (h 'o' rfl)
  · exact absurd (by simp) (h 'b' rfl)
  · rfl

/-- No digit, sign or point is a letter of a radix. -/
theorem not_mem_radix {c : Char} (h : c.isDigit = true ∨ c = '-' ∨ c = '.') :
    c ∉ ['x', 'o', 'b'] := by
  intro hmem
  simp only [List.mem_cons, List.not_mem_nil, or_false] at hmem
  rcases hmem with rfl | rfl | rfl <;> revert h <;> decide

/-- The integer that a sign and digits spell. -/
theorem integer?_of_splitSign {text digits : List Char} {negative : Bool}
    (h : splitSign text = (negative, digits)) :
    integer? text = (readDigits? 10 digits).bind (boundedInteger? negative) := by
  rw [integer?, h]

/-- An integer of 64 bits is the one with a sign and a magnitude if they make up its number. -/
theorem boundedInteger?_eq_some_iff :
    boundedInteger? negative magnitude = some value ↔ value.toInt = signed negative magnitude := by
  have hmin : Int64.minValue.toInt = -2 ^ 63 := rfl
  have hmax : Int64.maxValue.toInt = 2 ^ 63 - 1 := rfl
  unfold boundedInteger?
  dsimp only
  rw [← signed, hmin, hmax]
  have hrange := And.intro value.minValue_le_toInt value.toInt_le
  rw [hmin, hmax] at hrange
  constructor
  · intro h
    split at h
    · rename_i hbounds
      cases h
      exact Int64.toInt_ofInt_of_le hbounds.1 (by omega)
    · contradiction
  · intro h
    rw [← h, if_pos hrange, Int64.ofInt_toInt]

/-- A digit is no mark of an exponent. -/
theorem ne_exponentMark_of_isDigit {c : Char} (h : c.isDigit = true) :
    (c ≠ 'e' && c ≠ 'E') = true := by
  have he : c ≠ 'e' := by rintro rfl; contradiction
  have hE : c ≠ 'E' := by rintro rfl; contradiction
  simp [he, hE]

/-- Digits, with a point and more digits after them or without, are the parts of a decimal without an
exponent. -/
theorem decimalParts?_of_splitSign {whole : List Char} {fraction : Option (List Char)}
    (hsign : splitSign text = (negative, whole ++ fraction.elim [] ('.' :: ·)))
    (hwhole : ∀ c ∈ whole, c.isDigit = true)
    (hfraction : ∀ digits ∈ fraction, ∀ c ∈ digits, c.isDigit = true) (hne : whole ≠ []) :
    decimalParts? text = some ⟨negative, whole, fraction, none⟩ := by
  have hmantissa : ∀ c ∈ whole ++ fraction.elim [] ('.' :: ·), (c ≠ 'e' && c ≠ 'E') = true := by
    intro c hc
    rcases List.mem_append.1 hc with hc | hc
    · exact ne_exponentMark_of_isDigit (hwhole c hc)
    · cases fraction with
      | none => contradiction
      | some digits =>
        rcases List.mem_cons.1 hc with rfl | hc
        · decide
        · exact ne_exponentMark_of_isDigit (hfraction digits rfl c hc)
  have hend : ∀ c ∈ ([] : List Char).head?, (c ≠ 'e' && c ≠ 'E') = false := by simp
  have htake := Text.takeWhile_append_of_head? hmantissa hend
  have hdrop := Text.dropWhile_append_of_head? hmantissa hend
  rw [List.append_nil] at htake hdrop
  have hpoint : ∀ c ∈ (fraction.elim [] ('.' :: ·)).head?, c.isDigit = false := by
    cases fraction with
    | none => simp
    | some digits =>
      rintro c ⟨⟩
      rfl
  have hparts : fraction? (fraction.elim [] ('.' :: ·)) = some fraction := by
    cases fraction with
    | none => rfl
    | some digits => exact if_pos (List.all_eq_true.2 (hfraction digits rfl))
  rw [decimalParts?, hsign]
  simp only [htake, hdrop, Text.takeWhile_append_of_head? hwhole hpoint,
    Text.dropWhile_append_of_head? hwhole hpoint, exponent?, hparts, Option.bind_eq_bind,
    Option.bind_some, List.isEmpty_eq_false_iff.2 hne, Bool.false_and, Bool.false_eq_true, if_false]

/-! ### Decimal integers -/

/-- A sign and digits are told apart. -/
theorem splitSign_of_mem_signs {sign : List Char} (hsign : (sign, negative) ∈ signs)
    (h : ∀ c ∈ digits, c.isDigit = true) (hne : digits ≠ []) :
    splitSign (sign ++ digits) = (negative, digits) := by
  obtain ⟨rfl, rfl⟩ | ⟨rfl, rfl⟩ | ⟨rfl, rfl⟩ := mem_signs hsign
  · have hnone := splitSign_of_isDigit h hne []
    rwa [List.append_nil] at hnone
  · rfl
  · rfl

/-- Every text is a sign and what is told apart from it. -/
theorem exists_sign (text : List Char) :
    ∃ sign, (sign, (splitSign text).1) ∈ signs ∧ text = sign ++ (splitSign text).2 := by
  unfold splitSign
  split
  · exact ⟨['-'], by simp [signs], rfl⟩
  · exact ⟨['+'], by simp [signs], rfl⟩
  · exact ⟨[], by simp [signs], rfl⟩

/-- A decimal integer is what its sign and its digits make up. -/
theorem spellsDecimal_iff :
    SpellsDecimal text n ↔ ∃ magnitude, readDigits? 10 (splitSign text).2 = some magnitude ∧
      n = signed (splitSign text).1 magnitude := by
  constructor
  · intro h
    cases h with
    | digits hsign hne hdigits =>
      rw [splitSign_of_mem_signs hsign hdigits hne]
      exact ⟨_, readDigits?_of_isDigit hdigits hne, rfl⟩
  · intro h
    obtain ⟨magnitude, hread, rfl⟩ := h
    obtain ⟨hne, hdigits, rfl⟩ := readDigits?_eq_some_iff.1 hread
    obtain ⟨sign, hsign, htext⟩ := exists_sign text
    have hspells := SpellsDecimal.digits hsign hne fun c hc => isSome_digit?_ten_iff.1 (hdigits c hc)
    rwa [← htext] at hspells

/-- A text spells one decimal integer at most. -/
theorem SpellsDecimal.unique {m : Int} (h : SpellsDecimal text n) (hm : SpellsDecimal text m) :
    n = m := by
  obtain ⟨magnitude, hread, rfl⟩ := spellsDecimal_iff.1 h
  obtain ⟨magnitude', hread', rfl⟩ := spellsDecimal_iff.1 hm
  rw [hread] at hread'
  cases hread'
  rfl

/-- An integer of 64 bits is read exactly where a sign and digits spell it. -/
theorem integer?_eq_some_iff : integer? text = some value ↔ SpellsDecimal text value.toInt := by
  have hsplit : splitSign text = ((splitSign text).1, (splitSign text).2) := rfl
  rw [integer?_of_splitSign hsplit, spellsDecimal_iff, Option.bind_eq_some_iff]
  constructor
  · intro h
    obtain ⟨magnitude, hread, hbounded⟩ := h
    exact ⟨magnitude, hread, boundedInteger?_eq_some_iff.1 hbounded⟩
  · intro h
    obtain ⟨magnitude, hread, hvalue⟩ := h
    exact ⟨magnitude, hread, boundedInteger?_eq_some_iff.2 hvalue⟩

/-- The second character of a decimal integer is a digit. -/
theorem SpellsDecimal.splitRadix? (h : SpellsDecimal text n) : splitRadix? text = none := by
  cases h with
  | @digits sign negative digits hsign hne hdigits =>
    apply splitRadix?_eq_none
    intro c hc
    apply not_mem_radix
    have hmem := List.mem_of_mem_head? hc
    obtain ⟨rfl, -⟩ | ⟨rfl, -⟩ | ⟨rfl, -⟩ := mem_signs hsign
    · exact .inl (hdigits c (List.mem_of_mem_tail hmem))
    · exact .inl (hdigits c hmem)
    · exact .inl (hdigits c hmem)

/-- The first character of a decimal integer is a digit or a sign. -/
theorem SpellsDecimal.exists_cons (h : SpellsDecimal text n) :
    ∃ c rest, text = c :: rest ∧ (c.isDigit = true ∨ c = '-' ∨ c = '+') := by
  cases h with
  | @digits sign negative digits hsign hne hdigits =>
    obtain ⟨rfl, -⟩ | ⟨rfl, -⟩ | ⟨rfl, -⟩ := mem_signs hsign
    · obtain ⟨c, rest, rfl⟩ := List.exists_cons_of_ne_nil hne
      exact ⟨c, rest, rfl, .inl (hdigits c List.mem_cons_self)⟩
    · exact ⟨'+', digits, rfl, .inr (.inr rfl)⟩
    · exact ⟨'-', digits, rfl, .inr (.inl rfl)⟩

/-- A decimal integer that is out of range is the float nearest to it. -/
theorem SpellsDecimal.number?_of_outOfRange (h : SpellsDecimal text n)
    (hrange : ¬(-2 ^ 63 ≤ n ∧ n < 2 ^ 63)) :
    number? text = some (.float (Binary64.ofDecimal (n < 0) n.natAbs 0)) := by
  have hradix := h.splitRadix?
  have hinteger : integer? text = none := by
    rw [Option.eq_none_iff_forall_ne_some]
    intro value hvalue
    have heq := (integer?_eq_some_iff.1 hvalue).unique h
    exact hrange (heq ▸ ⟨value.le_toInt, value.toInt_lt⟩)
  cases h with
  | @digits sign negative digits hsign hne hdigits =>
    have hsplit : splitSign (sign ++ digits) =
        (negative, digits ++ (none : Option (List Char)).elim [] ('.' :: ·)) := by
      rw [splitSign_of_mem_signs hsign hdigits hne, Option.elim_none, List.append_nil]
    have hparts := decimalParts?_of_splitSign hsplit hdigits (by simp) hne
    -- Out of range the number is not zero, so the sign of the text is that of the number.
    have hnegative : decide (signed negative (digitsValue 10 digits) < 0) = negative := by
      cases negative with
      | true =>
        simp only [signed, if_true] at hrange ⊢
        exact decide_eq_true (by omega)
      | false =>
        simp only [signed, Bool.false_eq_true, if_false] at hrange ⊢
        exact decide_eq_false (by omega)
    rw [number?, hradix]
    dsimp only
    rw [hinteger, hparts, hnegative, natAbs_signed]
    simp [DecimalParts.toFloat]

/-! ### Integers in a radix -/

/-- A mark of a radix is found exactly where it stands. -/
theorem splitRadix?_eq_some_iff :
    splitRadix? text = some (radix, digits) ↔
      ∃ letter, (letter, radix) ∈ radixLetters ∧ text = '0' :: letter :: digits := by
  constructor
  · intro h
    unfold splitRadix? at h
    split at h
    · cases h
      exact ⟨'x', by simp [radixLetters], rfl⟩
    · cases h
      exact ⟨'o', by simp [radixLetters], rfl⟩
    · cases h
      exact ⟨'b', by simp [radixLetters], rfl⟩
    · contradiction
  · intro h
    obtain ⟨letter, hletter, rfl⟩ := h
    obtain ⟨rfl, rfl⟩ | ⟨rfl, rfl⟩ | ⟨rfl, rfl⟩ := mem_radixLetters hletter <;> rfl

/-- An integer in a radix is what its digits denote. -/
theorem spellsInRadix_iff :
    SpellsInRadix text n ↔ ∃ radix digits magnitude, splitRadix? text = some (radix, digits) ∧
      readDigits? radix digits = some magnitude ∧ n = magnitude := by
  constructor
  · intro h
    cases h with
    | @digits letter radix digits hletter hne hdigits =>
      exact ⟨radix, digits, _, splitRadix?_eq_some_iff.2 ⟨letter, hletter, rfl⟩,
        readDigits?_eq_some_iff.2 ⟨hne, hdigits, rfl⟩, rfl⟩
  · intro h
    obtain ⟨radix, digits, magnitude, hsplit, hread, rfl⟩ := h
    obtain ⟨letter, hletter, rfl⟩ := splitRadix?_eq_some_iff.1 hsplit
    obtain ⟨hne, hdigits, rfl⟩ := readDigits?_eq_some_iff.1 hread
    exact .digits hletter hne hdigits

/-- A text with a mark of a radix spells a number exactly if the rest of it does and 64 bits suffice
for it. -/
theorem number?_of_splitRadix? (h : splitRadix? text = some (radix, digits)) :
    number? text = ((readDigits? radix digits).bind (boundedInteger? false)).map Scalar.int := by
  rw [number?, h]

/-- An integer is read exactly where it is spelled. -/
theorem number?_eq_int_iff :
    number? text = some (.int value) ↔
      SpellsDecimal text value.toInt ∨ SpellsInRadix text value.toInt := by
  cases hsplit : splitRadix? text with
  | some found =>
    obtain ⟨radix, digits⟩ := found
    rw [number?_of_splitRadix? hsplit, spellsInRadix_iff, hsplit]
    -- A mark of a radix rules out a decimal integer, and without one there is no other.
    have hdecimal : ¬SpellsDecimal text value.toInt := by
      intro h
      rw [h.splitRadix?] at hsplit
      contradiction
    constructor
    · intro h
      obtain ⟨found, hfound, hvalue⟩ := Option.map_eq_some_iff.1 h
      cases hvalue
      obtain ⟨magnitude, hread, hbounded⟩ := Option.bind_eq_some_iff.1 hfound
      exact .inr ⟨radix, digits, magnitude, rfl, hread, boundedInteger?_eq_some_iff.1 hbounded⟩
    · intro h
      obtain h | ⟨radix, digits, magnitude, hfound, hread, hvalue⟩ := h
      · contradiction
      · cases hfound
        have hbounded : boundedInteger? false magnitude = some value :=
          boundedInteger?_eq_some_iff.2 hvalue
        rw [hread, Option.bind_some, hbounded]
        rfl
  | none =>
    have hradix : ¬SpellsInRadix text value.toInt := by
      intro h
      obtain ⟨radix, digits, magnitude, hfound, -⟩ := spellsInRadix_iff.1 h
      rw [hsplit] at hfound
      contradiction
    rw [or_iff_left hradix, ← integer?_eq_some_iff, number?, hsplit]
    dsimp only
    split
    · rename_i found hfound
      rw [hfound]
      simp
    · rename_i hnone
      rw [hnone]
      simp

/-- An integer in a radix for which 64 bits do not suffice is no number. -/
theorem SpellsInRadix.number?_of_outOfRange (h : SpellsInRadix text n) (hrange : 2 ^ 63 ≤ n) :
    number? text = none := by
  obtain ⟨radix, digits, magnitude, hsplit, hread, rfl⟩ := spellsInRadix_iff.1 h
  have hbounded : boundedInteger? false magnitude = none := by
    rw [Option.eq_none_iff_forall_ne_some]
    intro value hvalue
    have heq : value.toInt = magnitude := boundedInteger?_eq_some_iff.1 hvalue
    have hlt := value.toInt_lt
    omega
  rw [number?_of_splitRadix? hsplit, hread, Option.bind_some, hbounded]
  rfl

end Literal

end NeonAudit
