import NeonAudit.Proofs.Text.Escape
import NeonAudit.Result

/-!
# The grammar of escapes

A text in double quotes is made of characters that stand for themselves and of escapes. The rule for
escapes asks for two hexadecimal digits after `x` and for four after `u`. A number with fewer digits
is read as well where a plus sign stands before them or the text ends after them. No other text is
read, and a surrogate has its four digits in any case, since no number with fewer is one.

The grammar is stated over the digits that it admits, so that the rule and what is read differ in
nothing but these.
-/

namespace NeonAudit.Text

/-- So many digits in radix sixteen spell a number. -/
structure SpellsHex (count : Nat) (digits : List Char) (n : Nat) : Prop where
  /-- There are neither more nor fewer. -/
  length_eq : digits.length = count
  /-- The digits are those of the radix, in either case. -/
  isDigit : ∀ c ∈ digits, (digit? 16 c).isSome = true
  /-- They denote the number. -/
  value : digitsValue 16 digits = n

/-- A number is spelled with fewer digits than there should be, before the given text: a plus sign
stands in the place of the first one, or the text ends before the last ones. -/
inductive SpellsShortHex (count : Nat) : List Char → List Char → Nat → Prop
  | signed {digits rest n} : SpellsHex (count - 1) digits n →
      SpellsShortHex count ('+' :: digits) rest n
  | cut {sign digits fewer n} : sign ∈ [[], ['+']] → 0 < fewer → sign.length + fewer < count →
      SpellsHex fewer digits n → SpellsShortHex count (sign ++ digits) [] n

/-- The digits of an escape by the rule, whatever text follows. -/
def FullHex (count : Nat) (digits _rest : List Char) (n : Nat) : Prop :=
  SpellsHex count digits n

/-- The digits of an escape that are read before the given text. -/
def ReadHex (count : Nat) (digits rest : List Char) (n : Nat) : Prop :=
  SpellsHex count digits n ∨ SpellsShortHex count digits rest n

/-- The letters of escapes with the characters that they name. -/
def letters : List (Char × Char) :=
  [('t', '\t'), ('n', '\n'), ('r', '\r'), ('f', '\x0c'), ('b', '\x08'), ('"', '"'), ('\\', '\\'),
    ('/', '/'), ('_', '\xa0')]

/-- What stands after the backslash of an escape, the text after it, and the character that is named:
by a letter, by its code point, or by two surrogates. -/
inductive Names (hex : Nat → List Char → List Char → Nat → Prop) :
    List Char → List Char → Char → Prop
  | letter {letter c rest} : (letter, c) ∈ letters → Names hex [letter] rest c
  | byte {digits rest} {c : Char} : hex 2 digits rest c.toNat → Names hex ('x' :: digits) rest c
  | unit {digits rest} {c : Char} : hex 4 digits rest c.toNat → Names hex ('u' :: digits) rest c
  | pair {first second rest high low} {c : Char} : SpellsHex 4 first high →
      isHighSurrogate high = true → SpellsHex 4 second low → isLowSurrogate low = true →
      c.toNat = 0x10000 + (high - 0xD800) * 0x400 + (low - 0xDC00) →
      Names hex ('u' :: (first ++ '\\' :: 'u' :: second)) rest c

/-- A text stands for another: its characters other than backslashes for themselves, and its escapes
for the characters that they name. -/
inductive StandsFor (hex : Nat → List Char → List Char → Nat → Prop) :
    List Char → List Char → Prop
  | nil : StandsFor hex [] []
  | char {c raw text} : c ≠ '\\' → StandsFor hex raw text → StandsFor hex (c :: raw) (c :: text)
  | escape {escape c raw text} : Names hex escape raw c → StandsFor hex raw text →
      StandsFor hex ('\\' :: (escape ++ raw)) (c :: text)

/-! ### Numbers -/

variable {text rest digits : List Char} {count n : Nat} {c : Char}

/-- So many digits spell one of the first so many numbers. -/
theorem SpellsHex.lt (h : SpellsHex count digits n) : n < 16 ^ count := by
  rw [← h.value, ← h.length_eq]
  exact digitsValue_lt_pow h.isDigit

/-- A number is read exactly where one or more digits spell it, perhaps after a plus sign. -/
theorem readHex?_eq_some_iff :
    readHex? text = some n ↔ ∃ sign digits count, sign ∈ [[], ['+']] ∧ text = sign ++ digits ∧
      0 < count ∧ SpellsHex count digits n := by
  have hread {digits : List Char} : readDigits? 16 digits = some n ↔
      ∃ count, 0 < count ∧ SpellsHex count digits n := by
    rw [readDigits?_eq_some_iff]
    constructor
    · intro h
      exact ⟨_, List.length_pos_iff.2 h.1, rfl, h.2.1, h.2.2⟩
    · intro h
      obtain ⟨count, hcount, hspells⟩ := h
      rw [← hspells.length_eq] at hcount
      exact ⟨List.length_pos_iff.1 hcount, hspells.isDigit, hspells.value⟩
  constructor
  · intro h
    unfold readHex? at h
    split at h
    · rename_i digits
      obtain ⟨count, hcount⟩ := hread.1 h
      exact ⟨['+'], digits, count, by simp, rfl, hcount⟩
    · obtain ⟨count, hcount⟩ := hread.1 h
      exact ⟨[], text, count, by simp, rfl, hcount⟩
  · intro h
    obtain ⟨sign, digits, count, hsign, rfl, hcount, hspells⟩ := h
    have hdigits := hread.2 ⟨count, hcount, hspells⟩
    simp only [List.mem_cons, List.not_mem_nil, or_false] at hsign
    cases hsign with
    | inl hnone =>
      rw [hnone, List.nil_append]
      unfold readHex?
      split
      · -- A plus sign is no digit.
        exact absurd (hspells.isDigit '+' List.mem_cons_self) (by decide)
      · exact hdigits
    | inr hplus =>
      rw [hplus]
      exact hdigits

/-- The digits that are read at the front of a text, with the text after them. -/
theorem readHex_of_readHex? (h : readHex? (text.take count) = some n) :
    ReadHex count (text.take count) (text.drop count) n := by
  obtain ⟨sign, digits, fewer, hsign, htake, hfewer, hspells⟩ := readHex?_eq_some_iff.1 h
  have hlength := congrArg List.length htake
  rw [List.length_take, List.length_append, hspells.length_eq] at hlength
  by_cases hfull : sign.length + fewer = count
  · simp only [List.mem_cons, List.not_mem_nil, or_false] at hsign
    cases hsign with
    | inl hnone =>
      rw [hnone, List.length_nil, Nat.zero_add] at hfull
      rw [htake, hnone, ← hfull]
      exact .inl hspells
    | inr hplus =>
      rw [hplus, List.length_singleton] at hfull
      rw [htake, hplus]
      refine .inr (.signed ?_)
      rwa [← hfull, Nat.add_sub_cancel_left]
  · have hrest : text.drop count = [] := List.drop_eq_nil_of_le (by omega)
    rw [htake, hrest]
    exact .inr (.cut hsign hfewer (by omega) hspells)

/-- Digits are taken off the front of a text, and no more than these. -/
theorem ReadHex.append (hcount : 1 < count) (h : ReadHex count digits rest n) :
    (digits ++ rest).take count = digits ∧ (digits ++ rest).drop count = rest ∧
      readHex? digits = some n := by
  cases h with
  | inl hfull =>
    refine ⟨List.take_left' hfull.length_eq, List.drop_left' hfull.length_eq, ?_⟩
    exact readHex?_eq_some_iff.2 ⟨[], digits, count, by simp, rfl, by omega, hfull⟩
  | inr hshort =>
    cases hshort with
    | @signed digits _ _ hspells =>
      have hlength : ('+' :: digits).length = count := by
        rw [List.length_cons, hspells.length_eq]
        omega
      refine ⟨List.take_left' hlength, List.drop_left' hlength, ?_⟩
      exact readHex?_eq_some_iff.2 ⟨['+'], digits, _, by simp, rfl, by omega, hspells⟩
    | @cut sign digits fewer _ hsign hfewer hlt hspells =>
      have hlength : (sign ++ digits).length ≤ count := by
        rw [List.length_append, hspells.length_eq]
        exact Nat.le_of_lt hlt
      rw [List.append_nil]
      refine ⟨List.take_of_length_le hlength, List.drop_eq_nil_of_le hlength, ?_⟩
      exact readHex?_eq_some_iff.2 ⟨sign, digits, fewer, hsign, rfl, hfewer, hspells⟩

/-- A number that is read has no more digits than it should have. -/
theorem ReadHex.lt (h : ReadHex count digits rest n) : n < 16 ^ count := by
  obtain ⟨fewer, digits, hle, hspells⟩ :
      ∃ fewer digits, fewer ≤ count ∧ SpellsHex fewer digits n := by
    cases h with
    | inl hfull => exact ⟨_, _, Nat.le_refl count, hfull⟩
    | inr hshort =>
      cases hshort with
      | signed hspells => exact ⟨_, _, Nat.sub_le count 1, hspells⟩
      | cut _ _ hlt hspells => exact ⟨_, _, by omega, hspells⟩
  calc
    n < 16 ^ fewer := hspells.lt
    _ ≤ 16 ^ count := Nat.pow_le_pow_right (by decide) hle

/-- A number of four digits that is read from no more than four characters is spelled by these. -/
theorem spellsHex_of_readHex? (h : readHex? text = some n) (hlength : text.length ≤ 4)
    (hn : 0x1000 ≤ n) : SpellsHex 4 text n := by
  obtain ⟨sign, digits, count, hsign, rfl, -, hspells⟩ := readHex?_eq_some_iff.1 h
  have hlt := hspells.lt
  rw [List.length_append, hspells.length_eq] at hlength
  have hcount : 3 < count := by
    apply (Nat.pow_lt_pow_iff_right (a := 16) (by decide)).1
    exact Nat.lt_of_le_of_lt hn hlt
  have hnone : sign = [] := List.eq_nil_of_length_eq_zero (by omega)
  obtain rfl : count = 4 := by omega
  rwa [hnone]

/-! ### Escapes -/

/-- The character of a code point has it. -/
theorem toNat_ofNat (h : n.isValidChar) : (Char.ofNat n).toNat = n := by
  rw [Char.ofNat, dif_pos h]
  rfl

/-- The character of a number that is no surrogate has it as its code point. -/
theorem toNat_ofNat_of_lt (hlt : n < 0x10000) (hhigh : isHighSurrogate n = false)
    (hlow : isLowSurrogate n = false) : (Char.ofNat n).toNat = n := by
  apply toNat_ofNat
  simp [isHighSurrogate, isLowSurrogate] at hhigh hlow
  simp only [Nat.isValidChar]
  omega

/-- The code point of a character is no surrogate. -/
theorem isSurrogate_toNat (c : Char) :
    isHighSurrogate c.toNat = false ∧ isLowSurrogate c.toNat = false := by
  have hvalid : c.toNat.isValidChar := c.valid
  simp only [Nat.isValidChar] at hvalid
  simp [isHighSurrogate, isLowSurrogate]
  omega

/-- Two surrogates name the character of the code point that they make up. -/
theorem toNat_surrogatePair {high low : Nat} (hhigh : isHighSurrogate high = true)
    (hlow : isLowSurrogate low = true) :
    (surrogatePair high low).toNat = 0x10000 + (high - 0xD800) * 0x400 + (low - 0xDC00) := by
  simp [isHighSurrogate, isLowSurrogate] at hhigh hlow
  apply toNat_ofNat
  simp only [Nat.isValidChar]
  omega

/-- A low surrogate is read exactly where an escape with its digits stands. -/
theorem lowSurrogate?_eq_some_iff {low : Nat} :
    lowSurrogate? text = some low ↔ ∃ digits, text = '\\' :: 'u' :: digits ∧
      readHex? digits = some low ∧ isLowSurrogate low = true := by
  constructor
  · intro h
    unfold lowSurrogate? at h
    split at h
    · exact ⟨_, rfl, Option.filter_eq_some_iff.1 h⟩
    · contradiction
  · intro h
    obtain ⟨digits, rfl, hdigits⟩ := h
    exact Option.filter_eq_some_iff.2 hdigits

/-- The character that is read after `u` is named there. -/
theorem resolveUnicode_eq_ok_iff :
    resolveUnicode text = .ok (c, rest) ↔
      ∃ escape, text = escape ++ rest ∧ Names ReadHex ('u' :: escape) rest c := by
  constructor
  · intro h
    unfold resolveUnicode at h
    dsimp only at h
    split at h
    · contradiction
    · rename_i unit hunit
      split at h
      · rename_i hhigh
        split at h
        · contradiction
        · rename_i low hlow
          obtain ⟨rfl, rfl⟩ := Prod.mk.inj (Except.ok.inj h)
          obtain ⟨digits, hsecond, hdigits, hlow⟩ := lowSurrogate?_eq_some_iff.1 hlow
          have hbounds : 0xD800 ≤ unit ∧ 0xDC00 ≤ low := by
            simp [isHighSurrogate, isLowSurrogate] at hhigh hlow
            omega
          have hlength := congrArg List.length hsecond
          rw [List.length_take, List.length_cons, List.length_cons] at hlength
          have hfirst : SpellsHex 4 (text.take 4) unit :=
            spellsHex_of_readHex? hunit (List.length_take_le 4 text) (by omega)
          have hlast : SpellsHex 4 digits low := spellsHex_of_readHex? hdigits (by omega) (by omega)
          refine ⟨text.take 4 ++ '\\' :: 'u' :: digits, ?_,
            .pair hfirst hhigh hlast hlow (toNat_surrogatePair hhigh hlow)⟩
          rw [← hsecond, List.append_assoc, List.take_append_drop, List.take_append_drop]
      · rename_i hhigh
        split at h
        · contradiction
        · rename_i hlow
          obtain ⟨rfl, rfl⟩ := Prod.mk.inj (Except.ok.inj h)
          have hread := readHex_of_readHex? hunit
          have hcode := toNat_ofNat_of_lt hread.lt (Bool.eq_false_iff.2 hhigh)
            (Bool.eq_false_iff.2 hlow)
          refine ⟨text.take 4, (List.take_append_drop 4 text).symm, .unit ?_⟩
          rwa [hcode]
  · intro h
    obtain ⟨escape, rfl, hnames⟩ := h
    cases hnames with
    | letter hmem => exact absurd hmem (by simp [letters])
    | unit hread =>
      obtain ⟨htake, hdrop, hvalue⟩ := hread.append (by decide)
      obtain ⟨hhigh, hlow⟩ := isSurrogate_toNat c
      rw [resolveUnicode, htake, hdrop, hvalue]
      dsimp only
      rw [hhigh, hlow, if_neg Bool.false_ne_true, if_neg Bool.false_ne_true, Char.ofNat_toNat]
    | @pair first second _ high low _ hfirst hhigh hsecond hlow hcode =>
      have hunit : ReadHex 4 first ('\\' :: 'u' :: (second ++ rest)) high := .inl hfirst
      obtain ⟨htake, hdrop, hvalue⟩ := hunit.append (by decide)
      have hlength : ('\\' :: 'u' :: second).length = 6 := by
        rw [List.length_cons, List.length_cons, hsecond.length_eq]
      have hread : readHex? second = some low :=
        readHex?_eq_some_iff.2 ⟨[], second, 4, by simp, rfl, by decide, hsecond⟩
      have hlower : lowSurrogate? ('\\' :: 'u' :: second) = some low :=
        lowSurrogate?_eq_some_iff.2 ⟨second, rfl, hread, hlow⟩
      have hc : surrogatePair high low = c := by
        rw [surrogatePair, ← hcode, Char.ofNat_toNat]
      have hpair : '\\' :: 'u' :: (second ++ rest) = ('\\' :: 'u' :: second) ++ rest := rfl
      rw [List.append_assoc, List.cons_append, List.cons_append, resolveUnicode, htake, hdrop,
        hvalue]
      dsimp only
      rw [if_pos hhigh, hpair, List.take_left' hlength, List.drop_left' hlength, hlower]
      dsimp only
      rw [hc]

/-- The character that is read after a backslash is named there. -/
theorem resolveEscape_eq_ok_iff :
    resolveEscape text = .ok (c, rest) ↔
      ∃ escape, text = escape ++ rest ∧ Names ReadHex escape rest c := by
  constructor
  · intro h
    unfold resolveEscape at h
    split at h
    case h_11 =>
      rename_i tail
      split at h
      · rename_i byte hbyte
        cases h
        have hread := readHex_of_readHex? hbyte
        have hlt : byte < 256 := hread.lt
        have hcode : (Char.ofNat byte).toNat = byte := by
          apply toNat_ofNat_of_lt (by omega)
          · simp [isHighSurrogate]
            omega
          · simp [isLowSurrogate]
            omega
        refine ⟨'x' :: tail.take 2, ?_, .byte ?_⟩
        · rw [List.cons_append, List.take_append_drop]
        · rwa [hcode]
      · contradiction
    case h_12 =>
      obtain ⟨escape, rfl, hnames⟩ := resolveUnicode_eq_ok_iff.1 h
      exact ⟨'u' :: escape, rfl, hnames⟩
    all_goals first
      | contradiction
      | (cases h
         exact ⟨[_], rfl, .letter (by simp [letters])⟩)
  · intro h
    obtain ⟨escape, rfl, hnames⟩ := h
    cases escape with
    | nil => cases hnames
    | cons mark escape =>
      by_cases hmark : mark = 'u'
      · rw [hmark] at hnames ⊢
        exact resolveUnicode_eq_ok_iff.2 ⟨escape, rfl, hnames⟩
      · cases hnames with
        | letter hmem =>
          simp only [letters, List.mem_cons, Prod.mk.injEq, List.not_mem_nil, or_false] at hmem
          rcases hmem with ⟨rfl, rfl⟩ | ⟨rfl, rfl⟩ | ⟨rfl, rfl⟩ | ⟨rfl, rfl⟩ | ⟨rfl, rfl⟩ |
            ⟨rfl, rfl⟩ | ⟨rfl, rfl⟩ | ⟨rfl, rfl⟩ | ⟨rfl, rfl⟩ <;> rfl
        | byte hread =>
          obtain ⟨htake, hdrop, hvalue⟩ := hread.append (by decide)
          rw [List.cons_append, resolveEscape, htake, hdrop, hvalue]
          dsimp only
          rw [Char.ofNat_toNat]
        | unit => contradiction
        | pair => contradiction

/-! ### Texts -/

/-- A text is unescaped exactly if it is made of characters other than backslashes and of escapes,
and the result is what these stand for. The digits of an escape are those of the rule, or too few. -/
theorem unescape_eq_ok_iff {raw text : List Char} :
    unescape raw = .ok text ↔ StandsFor ReadHex raw text := by
  constructor
  · intro h
    fun_induction unescape raw generalizing text with
    | case1 =>
      cases h
      exact .nil
    | case2 => contradiction
    | case3 rest c rest' hresolve _ ih =>
      obtain ⟨text', htext, rfl⟩ := Result.of_map_eq_ok h
      obtain ⟨escape, rfl, hnames⟩ := resolveEscape_eq_ok_iff.1 hresolve
      exact .escape hnames (ih htext)
    | case4 c rest hc ih =>
      obtain ⟨text', htext, rfl⟩ := Result.of_map_eq_ok h
      exact .char hc (ih htext)
  · intro h
    induction h with
    | nil => exact unescape.eq_1
    | char hc _ ih =>
      rw [unescape_cons hc, ih]
      rfl
    | escape hnames _ ih =>
      rw [unescape_backslash (resolveEscape_eq_ok_iff.2 ⟨_, rfl, hnames⟩), ih]
      rfl

/-- After a backslash and `x` there are digits. -/
theorem StandsFor.exists_of_byte {hex : Nat → List Char → List Char → Nat → Prop}
    {raw text : List Char} (h : StandsFor hex ('\\' :: 'x' :: raw) text) :
    ∃ digits rest n, raw = digits ++ rest ∧ hex 2 digits rest n := by
  generalize hsource : '\\' :: 'x' :: raw = source at h
  cases h with
  | nil => contradiction
  | char hc _ => exact absurd (List.cons.inj hsource).1.symm hc
  | escape hnames _ =>
    have hescape := (List.cons.inj hsource).2
    cases hnames with
    | letter hmem =>
      rw [← (List.cons.inj hescape).1] at hmem
      exact absurd hmem (by simp [letters])
    | byte hread => exact ⟨_, _, _, (List.cons.inj hescape).2, hread⟩
    | unit _ => exact absurd (List.cons.inj hescape).1 (by decide)
    | pair _ _ _ _ _ => exact absurd (List.cons.inj hescape).1 (by decide)

/-- A plus sign is read in the place of a digit, although it is none by the rule. -/
theorem unescape_plus :
    unescape ['\\', 'x', '+', 'f'] = .ok ['\x0f'] ∧
      ¬∃ text, StandsFor FullHex ['\\', 'x', '+', 'f'] text := by
  constructor
  · have hescape : resolveEscape ['x', '+', 'f'] = .ok ('\x0f', []) := rfl
    rw [unescape_backslash hescape, unescape]
    rfl
  · intro h
    obtain ⟨text, htext⟩ := h
    obtain ⟨digits, rest, n, hdigits, hfull⟩ := htext.exists_of_byte
    have hlength := congrArg List.length hdigits
    rw [List.length_append, hfull.length_eq] at hlength
    have hplus : '+' ∈ digits := by
      have hnil : rest = [] := List.eq_nil_of_length_eq_zero (by simpa using hlength.symm)
      rw [hnil, List.append_nil] at hdigits
      rw [← hdigits]
      exact List.mem_cons_self
    exact absurd (hfull.isDigit '+' hplus) (by decide)

end NeonAudit.Text
