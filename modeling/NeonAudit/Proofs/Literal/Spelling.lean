import NeonAudit.Proofs.Literal.DateTime
import NeonAudit.Proofs.Literal.Number
import NeonAudit.Proofs.Token.Lexeme

/-!
# Leaves read back

The text of a scalar that is no string and that of a date and time are unquoted literals, and the
value of the literal is the leaf. Keywords are told from numbers by their first character, and dates
from numbers by the hyphen after the first digits.
-/

namespace NeonAudit

namespace Piece

/-- Digits and the marks of numbers are part of a literal in all places. -/
theorem isInner_of_numeric {c : Char} (h : c.isDigit = true ∨ c ∈ ['-', '+', '.']) :
    isInner c = true := by
  by_contra hinner
  have hmem : c ∈ [',', '=', ']', '\x7d', ')', '(', '\n', '\r', ':', ' ', '\t'] := by
    simp [isInner, endsLiteral, isIndentation] at hinner ⊢
    grind
  simp only [List.mem_cons, List.not_mem_nil, or_false] at hmem
  rcases hmem with rfl | rfl | rfl | rfl | rfl | rfl | rfl | rfl | rfl | rfl | rfl <;>
    revert h <;> decide

/-- No colon before a digit is a mark. -/
theorem closesIndicator_of_isDigit {c : Char} (h : c.isDigit = true) :
    closesIndicator (some c) = false := by
  have hbounds := bounds_of_isDigit h
  have hblank : Text.isBlank c = false := by
    rw [Text.isBlank, Text.inRanges, Text.blankRanges]
    simp
    omega
  have hmem : c ∉ [',', ']', '\x7d', ')'] := by
    intro hmem
    simp only [List.mem_cons, List.not_mem_nil, or_false] at hmem
    rcases hmem with rfl | rfl | rfl | rfl <;> contradiction
  rw [closesIndicator, hblank, decide_eq_false hmem]
  rfl

/-- A literal takes a colon and the digits after it. -/
theorem splitLiteral_colon {digits : List Char} (h : ∀ c ∈ digits, c.isDigit = true)
    (hne : digits ≠ []) (rest : List Char) :
    (splitLiteral (':' :: (digits ++ rest))).2 = (splitLiteral rest).2 := by
  have hgoes : goesOn ':' (digits ++ rest) = true := by
    obtain ⟨c, digits, rfl⟩ := List.exists_cons_of_ne_nil hne
    rw [goesOn, if_pos rfl, List.cons_append, List.head?_cons,
      closesIndicator_of_isDigit (h c List.mem_cons_self)]
    rfl
  rw [splitLiteral_of_goesOn hgoes,
    splitLiteral_of_isInner fun c hc => isInner_of_numeric (.inl (h c hc))]

/-- A literal takes a space and what it consists of in all places after it. -/
theorem splitLiteral_space {c : Char} {text : List Char} (h : ∀ d ∈ c :: text, isInner d = true)
    (hc : c ≠ '#') (rest : List Char) :
    (splitLiteral (' ' :: (c :: text ++ rest))).2 = (splitLiteral rest).2 := by
  have hgoes : goesOn ' ' (c :: text ++ rest) = true := by
    have hinner := h c List.mem_cons_self
    simp only [isInner, Bool.and_eq_true, Bool.not_eq_true', decide_eq_true_eq] at hinner
    obtain ⟨⟨hends, hcolon⟩, hblank⟩ := hinner
    have hdrop : (c :: (text ++ rest)).dropWhile isIndentation = c :: (text ++ rest) :=
      List.dropWhile_cons_of_neg (by simp [hblank])
    rw [List.cons_append, goesOn, hdrop, continuesLiteral, hends]
    simp [hc, hcolon, isIndentation]
  rw [splitLiteral_of_goesOn hgoes, splitLiteral_of_isInner h]

/-- A literal may start with a digit. -/
theorem isLiteral_of_isDigit {c : Char} {rest : List Char} (hc : c.isDigit = true)
    (h : (splitLiteral (c :: rest)).2 = []) : IsLiteral (c :: rest) := by
  have hone : IsLiteral [c] := by
    refine isLiteral_of_isInner ?_ ?_ fun d hd => isInner_of_numeric (.inl ?_)
    · intro hmem
      simp only [List.mem_cons, List.not_mem_nil, or_false] at hmem
      rcases hmem with rfl | rfl | rfl | rfl | rfl | rfl <;> contradiction
    · rintro rfl
      contradiction
    · rwa [List.mem_singleton.1 hd]
  obtain ⟨hstart, hmark, -⟩ := hone
  refine ⟨hstart, ?_, ?_⟩
  · unfold mark? at hmark ⊢
    split at hmark
    · contradiction
    · have hindicator : indicator? c = none := hmark
      rw [hindicator, ite_self]
  · have hinner : ∀ d ∈ [c], isInner d = true := fun d hd =>
      isInner_of_numeric (.inl (by rwa [List.mem_singleton.1 hd]))
    have hgoes := splitLiteral_of_isInner hinner rest
    exact hgoes.symm.trans h

/-- Digits and points after an optional minus are a literal if a digit comes first. -/
theorem isLiteral_of_numeric {c : Char} {text : List Char} (hc : c.isDigit = true)
    (h : ∀ d ∈ text, d.isDigit = true ∨ d = '.') (negative : Bool) :
    IsLiteral ((if negative then ['-'] else []) ++ c :: text) := by
  have hinner : ∀ d ∈ c :: text, isInner d = true := by
    intro d hd
    refine isInner_of_numeric ?_
    rcases List.mem_cons.1 hd with rfl | hd
    · exact .inl hc
    · exact (h d hd).imp_right fun hpoint => by simp [hpoint]
  cases negative with
  | false =>
    refine isLiteral_of_isDigit hc ?_
    have hsplit := splitLiteral_of_isInner hinner []
    rwa [List.append_nil] at hsplit
  | true =>
    refine isLiteral_of_isInner (by decide) (fun _ => closesIndicator_of_isDigit hc) fun d hd => ?_
    rcases List.mem_cons.1 hd with rfl | hd
    · decide
    · exact hinner d hd

end Piece

namespace Literal

/-- No keyword starts with a digit or a sign. -/
theorem keyword?_eq_none {c : Char} {text : List Char}
    (h : c.isDigit = true ∨ c = '-' ∨ c = '+') :
    keyword? (String.ofList (c :: text)) = none := by
  have hletter : c ∉ ['t', 'T', 'y', 'Y', 'o', 'O', 'f', 'F', 'n', 'N'] := by
    intro hmem
    simp only [List.mem_cons, List.not_mem_nil, or_false] at hmem
    rcases hmem with rfl | rfl | rfl | rfl | rfl | rfl | rfl | rfl | rfl | rfl <;>
      revert h <;> decide
  have hword {words : List String} (hwords : words.all (fun word => word.toList.head?.all
      (· ∈ ['t', 'T', 'y', 'Y', 'o', 'O', 'f', 'F', 'n', 'N'])) = true) :
      String.ofList (c :: text) ∉ words := by
    intro hmem
    have hhead := List.all_eq_true.1 hwords _ hmem
    rw [String.toList_ofList, List.head?_cons, Option.all_some] at hhead
    exact hletter (of_decide_eq_true hhead)
  rw [keyword?, if_neg (hword (by decide)), if_neg (hword (by decide)), if_neg (hword (by decide))]

/-- Digits before a hyphen are no number. -/
theorem number?_eq_none {digits : List Char} (h : ∀ c ∈ digits, c.isDigit = true)
    (hne : digits ≠ []) (rest : List Char) : number? (digits ++ '-' :: rest) = none := by
  have hradix : splitRadix? (digits ++ '-' :: rest) = none := by
    refine splitRadix?_eq_none fun c hc => not_mem_radix ?_
    cases digits with
    | nil => exact absurd rfl hne
    | cons first digits =>
      cases digits with
      | nil =>
        cases hc
        exact .inr (.inl rfl)
      | cons second digits =>
        cases hc
        exact .inl (h c (by simp))
  have hinteger : integer? (digits ++ '-' :: rest) = none := by
    rw [integer?_of_splitSign (splitSign_of_isDigit h hne _),
      readDigits?_eq_none (c := '-') (by simp) (by decide), Option.bind_none]
  have hparts : decimalParts? (digits ++ '-' :: rest) = none := by
    have hdigit : ∀ c ∈ digits, (c ≠ 'e' && c ≠ 'E') = true := fun c hc =>
      ne_exponentMark_of_isDigit (h c hc)
    have hmantissa : (digits ++ '-' :: rest).takeWhile (fun c => c ≠ 'e' && c ≠ 'E') =
        digits ++ '-' :: rest.takeWhile (fun c => c ≠ 'e' && c ≠ 'E') := by
      rw [List.takeWhile_append_of_pos hdigit, List.takeWhile_cons_of_pos (by decide)]
    have hhyphen (rest : List Char) : ∀ c ∈ ('-' :: rest).head?, c.isDigit = false := by
      rintro c ⟨⟩
      rfl
    have hfraction (rest : List Char) : fraction? ('-' :: rest) = none := rfl
    rw [decimalParts?, splitSign_of_isDigit h hne _]
    simp only [hmantissa, Text.dropWhile_append_of_head? h (hhyphen _), hfraction,
      Option.bind_eq_bind, Option.bind_none, Option.bind_fun_none]
  rw [number?, hradix]
  dsimp only
  rw [hinteger, hparts]
  rfl

end Literal

/-- The text of an offset is a sign, hours and minutes, and perhaps seconds. -/
theorem Offset.splitLiteral_text (o : Offset) :
    (Piece.splitLiteral (' ' :: o.text)).2 = [] := by
  have hpadded (n : Nat) : ∀ c ∈ paddedText 2 n, c.isDigit = true := fun _ =>
    isDigit_of_mem_paddedText
  have hsign : ∀ c ∈ (if o.seconds < 0 then '-' else '+') ::
      paddedText 2 (o.seconds.natAbs / 3600), Piece.isInner c = true := by
    intro c hc
    rcases List.mem_cons.1 hc with rfl | hc
    · split <;> rfl
    · exact Piece.isInner_of_numeric (.inl (hpadded _ c hc))
  have hne : (if o.seconds < 0 then '-' else '+') ≠ '#' := by split <;> decide
  have htext : o.text = (if o.seconds < 0 then '-' else '+') ::
      paddedText 2 (o.seconds.natAbs / 3600) ++ (':' :: (paddedText 2 (o.seconds.natAbs / 60 % 60) ++
        if o.seconds.natAbs % 60 = 0 then [] else ':' :: paddedText 2 (o.seconds.natAbs % 60))) := by
    rw [Offset.text]
    simp only [List.append_assoc, List.cons_append]
  rw [htext, Piece.splitLiteral_space hsign hne,
    Piece.splitLiteral_colon (hpadded _) (paddedText_ne_nil _ _)]
  split
  · rfl
  · have hseconds := Piece.splitLiteral_colon (hpadded (o.seconds.natAbs % 60))
      (paddedText_ne_nil _ _) []
    rwa [List.append_nil] at hseconds

/-- The characters of a padded number are part of a literal in all places. -/
theorem isInner_of_mem_paddedText {width n : Nat} {c : Char} (h : c ∈ paddedText width n) :
    Piece.isInner c = true :=
  Piece.isInner_of_numeric (.inl (isDigit_of_mem_paddedText h))

/-- The characters of a date in the first ten thousand years are part of a literal in all places. -/
theorem isInner_of_mem_dateText {d : Date} (hyear : 0 ≤ d.year ∧ d.year ≤ 9999) {c : Char}
    (h : c ∈ d.text) : Piece.isInner c = true := by
  rw [Date.text, yearText, if_neg (by omega), if_pos hyear.2] at h
  simp only [List.mem_append, List.mem_cons] at h
  rcases h with (h | rfl | h) | rfl | h
  · exact isInner_of_mem_paddedText h
  · rfl
  · exact isInner_of_mem_paddedText h
  · rfl
  · exact isInner_of_mem_paddedText h

/-- The characters of a fraction of a second are part of a literal in all places. -/
theorem isInner_of_mem_fractionText {nanosecond : Nat} {c : Char}
    (h : c ∈ fractionText nanosecond) : Piece.isInner c = true := by
  unfold fractionText at h
  repeat' split at h
  · contradiction
  all_goals
    rcases List.mem_cons.1 h with rfl | h
    · rfl
    · exact isInner_of_mem_paddedText h

/-- The text of a date and time is a literal. -/
theorem DateTime.isLiteral_text {d : DateTime} (h : d.Spellable) : Piece.IsLiteral d.text := by
  have hpadded (width n : Nat) : ∀ c ∈ paddedText width n, c.isDigit = true := fun _ =>
    isDigit_of_mem_paddedText
  obtain ⟨c, year, hyear⟩ := List.exists_cons_of_ne_nil (paddedText_ne_nil 4 d.date.year.natAbs)
  have hc : c.isDigit = true := hpadded 4 d.date.year.natAbs c (hyear ▸ List.mem_cons_self)
  obtain ⟨e, hour, hhour⟩ := List.exists_cons_of_ne_nil (paddedText_ne_nil 2 d.clock.hour)
  have he : e ≠ '#' := by
    rintro rfl
    exact absurd (hpadded 2 d.clock.hour '#' (hhour ▸ List.mem_cons_self)) (by decide)
  have hdate : d.date.text = c :: year ++ '-' :: paddedText 2 d.date.month ++
      '-' :: paddedText 2 d.date.day := by
    rw [Date.text, yearText, if_neg (by have := h.year; omega), if_pos h.year.2, hyear]
  have hhourInner : ∀ a ∈ e :: hour, Piece.isInner a = true := fun a ha =>
    isInner_of_mem_paddedText (hhour ▸ ha)
  have hsplit : (Piece.splitLiteral d.text).2 = [] := by
    have htext : d.text = d.date.text ++ ' ' :: (e :: hour ++ ':' :: (paddedText 2 d.clock.minute ++
        ':' :: (paddedText 2 d.clock.second ++ (fractionText d.clock.nanosecond ++
          d.offset.elim [] fun o => ' ' :: o.text)))) := by
      rw [DateTime.text, Clock.text, hhour]
      simp
    rw [htext, Piece.splitLiteral_of_isInner fun _ => isInner_of_mem_dateText h.year,
      Piece.splitLiteral_space hhourInner he,
      Piece.splitLiteral_colon (hpadded _ _) (paddedText_ne_nil _ _),
      Piece.splitLiteral_colon (hpadded _ _) (paddedText_ne_nil _ _),
      Piece.splitLiteral_of_isInner fun _ => isInner_of_mem_fractionText]
    cases d.offset with
    | none => rfl
    | some o => exact o.splitLiteral_text
  have hcons : ∃ rest, d.text = c :: rest := by
    rw [DateTime.text, hdate]
    exact ⟨_, rfl⟩
  obtain ⟨rest, hrest⟩ := hcons
  rw [hrest] at hsplit ⊢
  exact Piece.isLiteral_of_isDigit hc hsplit

/-- Four digits before a hyphen are neither a keyword nor the start of a number, so such a text is a
date and time or no literal but text. -/
theorem Value.ofLiteral_of_isNumeral {year : List Char} {n : Nat}
    (h : Literal.IsNumeral 4 4 year n) (rest : List Char) :
    ofLiteral (String.ofList (year ++ '-' :: rest)) =
      (Literal.dateTime? (year ++ '-' :: rest)).map fun date =>
        date.elim (.string (String.ofList (year ++ '-' :: rest))) .dateTime := by
  cases year with
  | nil => exact absurd h.least_le (by decide)
  | cons c digits =>
    have hc := h.isDigit c List.mem_cons_self
    have hkeyword : Literal.keyword? (String.ofList (c :: (digits ++ '-' :: rest))) = none :=
      Literal.keyword?_eq_none (.inl hc)
    have hnumber := Literal.number?_eq_none h.isDigit (List.cons_ne_nil c digits) rest
    rw [List.cons_append] at hnumber ⊢
    rw [ofLiteral, hkeyword]
    dsimp only
    rw [String.toList_ofList, hnumber]

/-- The value of a literal that spells a day with a time of day and a zone is what they denote, and
the text itself if they denote nothing. -/
theorem Value.ofLiteral_of_spellsMoment {text : String} {date : Date} {clock : Clock}
    {zone : Literal.ZoneText} (h : Literal.SpellsMoment text.toList date clock zone) :
    ofLiteral text = (Literal.zoned date clock zone).map fun d =>
      d.elim (.string text) .dateTime := by
  have hdateTime := h.dateTime?
  obtain ⟨_, separator, time, blanks, rest, htext, hday, -⟩ := h
  obtain ⟨year, month, day, n, rfl, hyear, -⟩ := hday
  rw [List.append_assoc, List.cons_append] at htext
  have hliteral := ofLiteral_of_isNumeral hyear
    (month ++ '-' :: day ++ (separator ++ (time ++ (blanks ++ rest))))
  rw [← htext, String.ofList_toList, hdateTime] at hliteral
  exact hliteral

/-- The value of the literal that is the text of a date and time is the date and time. -/
theorem Value.ofLiteral_dateTime {d : DateTime} (h : d.Spellable) :
    Value.ofLiteral (String.ofList d.text) = .ok (.dateTime d) := by
  obtain ⟨zone, hmoment, hzone⟩ := d.exists_spellsMoment_text h
  rw [← String.toList_ofList (l := d.text)] at hmoment
  rw [ofLiteral_of_spellsMoment hmoment, hzone]
  rfl

/-- A number that starts with a digit or a sign is the value of its literal. -/
theorem Value.ofLiteral_of_number? {c : Char} {text : List Char} {s : Scalar}
    (hc : c.isDigit = true ∨ c = '-' ∨ c = '+') (h : Literal.number? (c :: text) = some s) :
    Value.ofLiteral (String.ofList (c :: text)) = .ok (.scalar s) := by
  rw [Value.ofLiteral, Literal.keyword?_eq_none hc]
  dsimp only
  rw [String.toList_ofList, h]

/-- Digits, perhaps with points, that spell a number are a literal of that number, with a minus
before them or without one. -/
theorem Value.isLiteral_and_ofLiteral {c : Char} {text : List Char} {negative : Bool} {s : Scalar}
    (hc : c.isDigit = true) (htext : ∀ d ∈ text, d.isDigit = true ∨ d = '.')
    (h : Literal.number? ((if negative then ['-'] else []) ++ c :: text) = some s) :
    Piece.IsLiteral ((if negative then ['-'] else []) ++ c :: text) ∧
      Value.ofLiteral (String.ofList ((if negative then ['-'] else []) ++ c :: text)) =
        .ok (.scalar s) := by
  refine ⟨Piece.isLiteral_of_numeric hc htext negative, ?_⟩
  cases negative with
  | true => exact ofLiteral_of_number? (.inr (.inl rfl)) h
  | false => exact ofLiteral_of_number? (.inl hc) h

/-- A literal can spell the scalar: a float has to be finite. -/
def Scalar.Spellable : Scalar → Prop
  | float x => x.isFinite = true
  | _ => True

/-- The text of a scalar that is no string is a literal of that scalar. -/
theorem Scalar.isLiteral_and_ofLiteral {s : Scalar} (h : s.Spellable)
    (hstring : ∀ text, s ≠ .string text) :
    Piece.IsLiteral s.text ∧ Value.ofLiteral (String.ofList s.text) = .ok (.scalar s) := by
  cases s with
  | null => exact ⟨⟨by decide, by decide, by decide⟩, rfl⟩
  | bool value => cases value <;> exact ⟨⟨by decide, by decide, by decide⟩, rfl⟩
  | int n =>
    obtain ⟨c, digits, hdigits⟩ := List.exists_cons_of_ne_nil (decimalText_ne_nil n.toInt.natAbs)
    have hall : ∀ d ∈ c :: digits, d.isDigit = true := fun d hd =>
      isDigit_of_mem_decimalText (hdigits ▸ hd)
    have htext : Scalar.text (.int n) =
        (if decide (n.toInt < 0) then ['-'] else []) ++ c :: digits := by
      rw [Scalar.text, integerText, hdigits]
      by_cases hneg : n.toInt < 0 <;> simp [hneg]
    have hnumber : Literal.number? (Scalar.text (.int n)) = some (.int n) :=
      Literal.number?_integerText n
    rw [htext] at hnumber ⊢
    exact Value.isLiteral_and_ofLiteral (hall c List.mem_cons_self)
      (fun d hd => .inl (hall d (List.mem_cons_of_mem c hd))) hnumber
  | float x =>
    obtain ⟨whole, fraction, htext, hdigits, hne, -⟩ := Binary64.exists_text h
    obtain ⟨c, whole, rfl⟩ := List.exists_cons_of_ne_nil hne
    have hnumber : Literal.number? x.text = some (.float x) := Literal.number?_text h
    rw [Scalar.text]
    rw [htext] at hnumber ⊢
    refine Value.isLiteral_and_ofLiteral (hdigits c (by simp)) (fun d hd => ?_) hnumber
    rcases List.mem_append.1 hd with hd | hd
    · exact .inl (hdigits d (by simp [hd]))
    · rcases List.mem_cons.1 hd with rfl | hd
      · exact .inr rfl
      · exact .inl (hdigits d (by simp [hd]))
  | string text => exact absurd rfl (hstring text)

namespace Piece

/-- Whether a character is part of words: a letter, a number, a mark of unquoted strings, or a
plus. -/
def isWord (c : Char) : Bool :=
  Text.isAlphanumeric c || isPlainMark c || c = '+'

/-- No character with a meaning of its own is part of words. -/
theorem notMem_of_isWord {c : Char} (h : isWord c = true) :
    c ∉ [',', '=', ']', '\x7d', ')', '(', '\n', '\r', ':', ' ', '\t', '#', '\x27', '"', '\x60', '[',
      '\x7b'] := by
  intro hmem
  simp only [List.mem_cons, List.not_mem_nil, or_false] at hmem
  rcases hmem with rfl | rfl | rfl | rfl | rfl | rfl | rfl | rfl | rfl | rfl | rfl | rfl | rfl |
    rfl | rfl | rfl | rfl <;> revert h <;> decide

/-- Words are part of a literal in all places. -/
theorem isInner_of_isWord {c : Char} (h : isWord c = true) : isInner c = true := by
  have hmem := notMem_of_isWord h
  simp [isInner, endsLiteral, isIndentation] at hmem ⊢
  grind

end Piece

/-- A text that may be written without quotes is a literal. -/
theorem Piece.isLiteral_of_isPlain {text : List Char} (h : isPlain text = true) :
    IsLiteral text := by
  cases text with
  | nil => contradiction
  | cons c text =>
    simp only [isPlain, Bool.and_eq_true, decide_eq_true_eq, List.all_eq_true] at h
    obtain ⟨⟨-, hdash⟩, hall⟩ := h
    have hword : ∀ d ∈ c :: text, isWord d = true := fun d hd =>
      Bool.or_eq_true_iff.2 (.inl (hall d hd))
    have hspecial := notMem_of_isWord (hword c List.mem_cons_self)
    refine isLiteral_of_isInner (fun hmem => hspecial ?_) (fun hc => ?_)
      fun d hd => isInner_of_isWord (hword d hd)
    · simp only [List.mem_cons] at hmem ⊢
      grind
    · exact absurd (congrArg some hc) hdash

/-- A text that may be written without quotes is cut as the literal of it. -/
theorem Piece.cuts_of_isPlain {text : String} (h : isPlain text.toList = true) {rest : List Char}
    (hrest : Ends rest) :
    Cuts (text.toList ++ rest) [⟨.lexeme (.literal text), text.toList⟩] rest := by
  have hcuts := (isLiteral_of_isPlain h).cuts hrest
  rwa [literal, String.ofList_toList] at hcuts

/-- A text denotes itself if the value of its literal is the text. -/
theorem denotesItself_iff {text : String} :
    denotesItself text = true ↔ Value.ofLiteral text = .ok (.string text) := by
  unfold denotesItself
  split
  · rename_i value hvalue
    rw [hvalue, beq_iff_eq]
    simp [Value.string]
  · rename_i hother
    exact ⟨fun h => by contradiction, fun h => absurd h (hother text)⟩

/-- What a token means on its own. -/
inductive Token.Kind.Denotes : Token.Kind → Value → Prop
  | literal {raw value} : Value.ofLiteral raw = .ok value → Denotes (.literal raw) value
  | string {text} : Denotes (.string text) (.string text)

/-- A literal that denotes a string has a text that may be written without quotes. -/
def Token.Kind.IsPlain : Token.Kind → Prop
  | .literal raw => Value.ofLiteral raw = .ok (.string raw) → isPlain raw.toList = true
  | _ => True

/-- The text of a scalar is one token that denotes it. -/
theorem Scalar.exists_cuts {s : Scalar} (h : s.Spellable) :
    ∃ kind, Token.Kind.Denotes kind (.scalar s) ∧ kind.IsPlain ∧
      ∀ {rest}, Piece.Ends rest → Piece.Cuts (s.text ++ rest) [⟨.lexeme kind, s.text⟩] rest := by
  by_cases hstring : ∃ text, s = .string text
  · obtain ⟨text, rfl⟩ := hstring
    rw [Scalar.text, stringText]
    split
    · rename_i hbare
      rw [Bool.and_eq_true] at hbare
      exact ⟨.literal text, .literal (denotesItself_iff.1 hbare.2), fun _ => hbare.1,
        Piece.cuts_of_isPlain hbare.1⟩
    · refine ⟨.string text, .string, trivial, fun hrest => ?_⟩
      have hcuts := Piece.cuts_quoted text.toList hrest
      rwa [Piece.quoted, Piece.ofString, String.ofList_toList] at hcuts
  · obtain ⟨hliteral, hvalue⟩ :=
      isLiteral_and_ofLiteral h fun text htext => hstring ⟨text, htext⟩
    refine ⟨_, .literal hvalue, fun hdenotes => ?_, hliteral.cuts⟩
    rw [hvalue] at hdenotes
    exact absurd ⟨_, Value.scalar.inj (Except.ok.inj hdenotes)⟩ hstring

/-- The text of a date and time is one token that denotes it. -/
theorem DateTime.exists_cuts {d : DateTime} (h : d.Spellable) :
    ∃ kind, Token.Kind.Denotes kind (.dateTime d) ∧ kind.IsPlain ∧
      ∀ {rest}, Piece.Ends rest → Piece.Cuts (d.text ++ rest) [⟨.lexeme kind, d.text⟩] rest := by
  have hvalue := Value.ofLiteral_dateTime h
  refine ⟨_, .literal hvalue, fun hdenotes => ?_, (isLiteral_text h).cuts⟩
  rw [hvalue] at hdenotes
  exact Value.noConfusion (Except.ok.inj hdenotes)

/-- The text is one token that can be the key. -/
def SpellsKey (spelled : List Char) (key : String) : Prop :=
  ∃ kind, kind ∈ [Token.Kind.literal key, .string key] ∧ kind.IsPlain ∧
    ∀ {rest}, Piece.Ends rest → Piece.Cuts (spelled ++ rest) [⟨.lexeme kind, spelled⟩] rest

/-- A key may be written with quotes. -/
theorem spellsKey_quoted (key : String) : SpellsKey (Text.quoted key.toList) key := by
  refine ⟨.string key, by simp, trivial, fun hrest => ?_⟩
  have hcuts := Piece.cuts_quoted key.toList hrest
  rwa [Piece.quoted, Piece.ofString, String.ofList_toList] at hcuts

/-- The text of a key is one token that spells it. -/
theorem spellsKey_keyText (key : String) : SpellsKey (keyText key) key := by
  rw [keyText]
  split
  · rename_i hplain
    exact ⟨.literal key, by simp, fun _ => hplain, Piece.cuts_of_isPlain hplain⟩
  · rename_i hplain
    rw [stringText, if_neg (by simp [hplain])]
    exact spellsKey_quoted key

end NeonAudit
