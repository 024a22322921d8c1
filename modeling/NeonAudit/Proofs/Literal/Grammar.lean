import Mathlib.Data.List.TakeWhile
import NeonAudit.Literal.DateTime
import NeonAudit.Proofs.Number.Digits
import NeonAudit.Proofs.Text.Span

/-!
# The grammar of dates and times

A date and time is written from parts: numerals for the fields of the day and of the clock, a
fraction, and a zone, with fixed characters between them. The grammar says which texts are such
parts and what they denote, without the order in which a text is read. A reader takes the longest
run of digits each time, and finds the parts because none of them can go on where the next one
starts.
-/

namespace NeonAudit

/-- The day of three numbers is the one with these fields. -/
theorem Date.of?_eq_some_iff {year : Int} {month day : Nat} {date : Date} :
    Date.of? year month day = some date ↔
      date.year = year ∧ date.month = month ∧ date.day = day := by
  unfold Date.of?
  constructor
  · intro h
    split at h
    · cases h
      exact ⟨rfl, rfl, rfl⟩
    · contradiction
  · intro h
    obtain ⟨rfl, rfl, rfl⟩ := h
    exact dif_pos date.isDay

/-- The time of day of four numbers is the one with these fields. -/
theorem Clock.of?_eq_some_iff {hour minute second nanosecond : Nat} {clock : Clock} :
    Clock.of? hour minute second nanosecond = some clock ↔
      clock.hour = hour ∧ clock.minute = minute ∧ clock.second = second ∧
        clock.nanosecond = nanosecond := by
  unfold Clock.of?
  constructor
  · intro h
    split at h
    · cases h
      exact ⟨rfl, rfl, rfl, rfl⟩
    · contradiction
  · intro h
    obtain ⟨rfl, rfl, rfl, rfl⟩ := h
    exact dif_pos clock.inRange

namespace Literal

/-- Digits are a numeral for a number if there are as many of them as the bounds allow. -/
structure IsNumeral (least most : Nat) (digits : List Char) (n : Nat) : Prop where
  /-- The digits are those of ASCII. -/
  isDigit : ∀ c ∈ digits, c.isDigit = true
  /-- There are not too few. -/
  least_le : least ≤ digits.length
  /-- There are not too many. -/
  le_most : digits.length ≤ most
  /-- They denote the number. -/
  value : digitsValue 10 digits = n

instance {least most n : Nat} {digits : List Char} : Decidable (IsNumeral least most digits n) :=
  decidable_of_iff (digits.all Char.isDigit = true ∧ least ≤ digits.length ∧
      digits.length ≤ most ∧ digitsValue 10 digits = n)
    ⟨fun ⟨hdigits, hleast, hmost, hvalue⟩ => ⟨List.all_eq_true.1 hdigits, hleast, hmost, hvalue⟩,
      fun h => ⟨List.all_eq_true.2 h.isDigit, h.least_le, h.le_most, h.value⟩⟩

/-- A day is spelled by its year, its month and its day of the month with hyphens between them. -/
def SpellsDate (text : List Char) (date : Date) : Prop :=
  ∃ year month day n, text = year ++ '-' :: (month ++ '-' :: day) ∧ IsNumeral 4 4 year n ∧
    date.year = n ∧ IsNumeral 1 2 month date.month ∧ IsNumeral 1 2 day date.day

/-- A fraction of a second is not spelled at all, or by a point and digits of any script. -/
inductive SpellsFraction : List Char → Nat → Prop
  | absent : SpellsFraction [] 0
  | digits {digits : List Char} : (∀ c ∈ digits, Text.isDecimalDigit c = true) →
      SpellsFraction ('.' :: digits) (nanoseconds digits)

/-- A time of day is spelled by its hour, its minute and its second with colons between them, and a
fraction. No leap second is spelled. -/
def SpellsClock (text : List Char) (clock : Clock) : Prop :=
  ∃ hour minute second fraction,
    text = hour ++ ':' :: (minute ++ ':' :: (second ++ fraction)) ∧
      IsNumeral 1 2 hour clock.hour ∧ IsNumeral 2 2 minute clock.minute ∧
        IsNumeral 2 2 second clock.second ∧ clock.second < 60 ∧
          SpellsFraction fraction clock.nanosecond

/-- What separates a day from a time of day is one letter or blanks. -/
def IsSeparator (text : List Char) : Prop :=
  text = ['T'] ∨ text = ['t'] ∨ ∃ blanks, text = ' ' :: blanks ∧ ∀ c ∈ blanks, c = ' '

/-- A distance from universal time is spelled by hours, or by hours and minutes with or without a
colon between them; its digits are all but the colon. -/
inductive SpellsDistance : List Char → List Char → Prop
  | hours {hours : List Char} : (∀ c ∈ hours, Text.isDecimalDigit c = true) → 1 ≤ hours.length →
      hours.length ≤ 2 → SpellsDistance hours hours
  | minutes {hours colon minutes : List Char} : (∀ c ∈ hours, Text.isDecimalDigit c = true) →
      1 ≤ hours.length → hours.length ≤ 2 → colon ∈ [[], [':']] →
      (∀ c ∈ minutes, Text.isDecimalDigit c = true) → minutes.length = 2 →
      SpellsDistance (hours ++ colon ++ minutes) (hours ++ minutes)

/-- A zone is not spelled at all, or by a letter, or by a distance with a sign before it. -/
inductive SpellsZone : List Char → ZoneText → Prop
  | absent : SpellsZone [] .absent
  | universal : SpellsZone ['Z'] .universal
  | east {text digits : List Char} : SpellsDistance text digits →
      SpellsZone ('+' :: text) (.distance false digits)
  | west {text digits : List Char} : SpellsDistance text digits →
      SpellsZone ('-' :: text) (.distance true digits)

/-- A day with a time of day and a zone is spelled by these parts, with a separator after the first
and blanks after the second. -/
def SpellsMoment (text : List Char) (date : Date) (clock : Clock) (zone : ZoneText) : Prop :=
  ∃ day separator time blanks rest, text = day ++ (separator ++ (time ++ (blanks ++ rest))) ∧
    SpellsDate day date ∧ IsSeparator separator ∧ SpellsClock time clock ∧
      (∀ c ∈ blanks, c = ' ') ∧ SpellsZone rest zone

/-! ### Numerals and the parts made of them -/

/-- The run that is read at the front of a text is a numeral that does not go on. -/
theorem digitRun?_eq_some_iff {least most n : Nat} {text rest : List Char} :
    digitRun? least most text = some (n, rest) ↔
      ∃ digits, text = digits ++ rest ∧ IsNumeral least most digits n ∧
        ∀ c ∈ rest.head?, c.isDigit = false := by
  constructor
  · intro h
    unfold digitRun? at h
    dsimp only at h
    split at h
    · rename_i hlength
      obtain ⟨hleast, hmost⟩ := Bool.and_eq_true_iff.1 hlength
      cases h
      refine ⟨text.takeWhile Char.isDigit, List.takeWhile_append_dropWhile.symm, ?_,
        Text.of_mem_head?_dropWhile⟩
      exact ⟨fun _ => List.mem_takeWhile_imp, of_decide_eq_true hleast, of_decide_eq_true hmost,
        rfl⟩
    · contradiction
  · intro h
    obtain ⟨digits, rfl, hdigits, hrest⟩ := h
    rw [digitRun?, Text.takeWhile_append_of_head? hdigits.isDigit hrest,
      Text.dropWhile_append_of_head? hdigits.isDigit hrest]
    simp [hdigits.least_le, hdigits.le_most, hdigits.value]

/-- A character is taken off the front. -/
@[simp] theorem after?_cons (c : Char) (rest : List Char) : after? c (c :: rest) = some rest :=
  if_pos rfl

/-- A character is taken off the front exactly where it stands there. -/
theorem after?_eq_some_iff {c : Char} {text rest : List Char} :
    after? c text = some rest ↔ text = c :: rest := by
  constructor
  · intro h
    unfold after? at h
    split at h
    · contradiction
    · split at h
      · rename_i hc
        cases h
        rw [hc]
      · contradiction
  · intro h
    rw [h, after?_cons]

/-- A numeral is read at the front of a text if it does not go on. -/
theorem IsNumeral.digitRun? {least most n : Nat} {digits rest : List Char}
    (h : IsNumeral least most digits n) (hrest : ∀ c ∈ rest.head?, c.isDigit = false) :
    digitRun? least most (digits ++ rest) = some (n, rest) :=
  digitRun?_eq_some_iff.2 ⟨digits, rfl, h, hrest⟩

/-- A numeral does not go on with a character that is no digit. -/
theorem not_isDigit_head? {c : Char} (h : c.isDigit = false) (rest : List Char) :
    ∀ d ∈ (c :: rest).head?, d.isDigit = false := by
  intro d hd
  rw [← Option.some.inj hd]
  exact h

/-- The day that is read at the front of a text is spelled there and does not go on. -/
theorem date?_eq_some_iff {text rest : List Char} {date : Date} :
    date? text = some (date, rest) ↔
      ∃ day, text = day ++ rest ∧ SpellsDate day date ∧ ∀ c ∈ rest.head?, c.isDigit = false := by
  constructor
  · intro h
    simp only [date?, Option.bind_eq_bind, Option.bind_eq_some_iff] at h
    obtain ⟨⟨n, text₁⟩, h₁, text₂, h₂, ⟨m, text₃⟩, h₃, text₄, h₄, ⟨d, text₅⟩, h₅, found, hof, h⟩ := h
    cases h
    obtain ⟨year, rfl, hyear, -⟩ := digitRun?_eq_some_iff.1 h₁
    obtain rfl := after?_eq_some_iff.1 h₂
    obtain ⟨month, rfl, hmonth, -⟩ := digitRun?_eq_some_iff.1 h₃
    obtain rfl := after?_eq_some_iff.1 h₄
    obtain ⟨day, rfl, hday, hrest⟩ := digitRun?_eq_some_iff.1 h₅
    obtain ⟨hn, rfl, rfl⟩ := Date.of?_eq_some_iff.1 hof
    refine ⟨year ++ '-' :: (month ++ '-' :: day), by simp, ?_, hrest⟩
    exact ⟨year, month, day, n, rfl, hyear, hn, hmonth, hday⟩
  · intro h
    obtain ⟨_, rfl, hspells, hrest⟩ := h
    obtain ⟨year, month, day, n, rfl, hyear, hn, hmonth, hday⟩ := hspells
    have hof : Date.of? n date.month date.day = some date := Date.of?_eq_some_iff.2 ⟨hn, rfl, rfl⟩
    simp only [List.append_assoc, List.cons_append, date?,
      hyear.digitRun? (not_isDigit_head? (c := '-') rfl _),
      hmonth.digitRun? (not_isDigit_head? (c := '-') rfl _), hday.digitRun? hrest, after?_cons,
      Option.bind_eq_bind, Option.bind_some, hof]
    rfl

/-- The fraction at the front of a text is spelled there, and goes on as long as it can. -/
theorem splitFraction_spells (text : List Char) :
    ∃ fraction, text = fraction ++ (splitFraction text).2 ∧
      SpellsFraction fraction (splitFraction text).1 := by
  unfold splitFraction
  split
  · rename_i rest
    refine ⟨'.' :: rest.takeWhile Text.isDecimalDigit, ?_, .digits fun _ => List.mem_takeWhile_imp⟩
    rw [List.cons_append, List.takeWhile_append_dropWhile]
  · exact ⟨[], rfl, .absent⟩

/-- A fraction is read at the front of a text if it does not go on. -/
theorem SpellsFraction.splitFraction {fraction rest : List Char} {nanosecond : Nat}
    (h : SpellsFraction fraction nanosecond)
    (hrest : ∀ c ∈ rest.head?, c ≠ '.' ∧ Text.isDecimalDigit c = false) :
    splitFraction (fraction ++ rest) = (nanosecond, rest) := by
  cases h with
  | absent =>
    rw [List.nil_append]
    unfold Literal.splitFraction
    split
    · exact absurd rfl (hrest '.' rfl).1
    · rfl
  | digits hdigits =>
    have hstop : ∀ c ∈ rest.head?, Text.isDecimalDigit c = false := by
      intro c hc
      exact (hrest c hc).2
    rw [List.cons_append, Literal.splitFraction, Text.takeWhile_append_of_head? hdigits hstop,
      Text.dropWhile_append_of_head? hdigits hstop]

/-- A fraction does not start with a digit, nor does what stands after it. -/
theorem SpellsFraction.not_isDigit_head? {fraction rest : List Char} {nanosecond : Nat}
    (h : SpellsFraction fraction nanosecond)
    (hrest : ∀ c ∈ rest.head?, c ≠ '.' ∧ Text.isDecimalDigit c = false) :
    ∀ c ∈ (fraction ++ rest).head?, c.isDigit = false := by
  cases h with
  | absent =>
    intro c hc
    apply Bool.eq_false_iff.2
    intro hdigit
    have hdecimal := Text.isDecimalDigit_of_isDigit hdigit
    rw [(hrest c hc).2] at hdecimal
    contradiction
  | digits => exact Literal.not_isDigit_head? rfl _

/-- The time of day that is read at the front of a text is spelled there. -/
theorem exists_of_clock? {text rest : List Char} {clock : Clock}
    (h : clock? text = some (clock, rest)) :
    ∃ time, text = time ++ rest ∧ SpellsClock time clock := by
  simp only [clock?, Option.bind_eq_bind, Option.bind_eq_some_iff] at h
  obtain ⟨⟨n, text₁⟩, h₁, text₂, h₂, ⟨m, text₃⟩, h₃, text₄, h₄, ⟨s, text₅⟩, h₅, h⟩ := h
  dsimp only at h
  split at h
  · contradiction
  · rename_i hleap
    obtain ⟨found, hof, h⟩ := Option.bind_eq_some_iff.1 h
    cases h
    obtain ⟨hour, rfl, hhour, -⟩ := digitRun?_eq_some_iff.1 h₁
    obtain rfl := after?_eq_some_iff.1 h₂
    obtain ⟨minute, rfl, hminute, -⟩ := digitRun?_eq_some_iff.1 h₃
    obtain rfl := after?_eq_some_iff.1 h₄
    obtain ⟨second, rfl, hsecond, -⟩ := digitRun?_eq_some_iff.1 h₅
    obtain ⟨fraction, htext, hfraction⟩ := splitFraction_spells text₅
    obtain ⟨rfl, rfl, rfl, hnanosecond⟩ := Clock.of?_eq_some_iff.1 hof
    refine ⟨hour ++ ':' :: (minute ++ ':' :: (second ++ fraction)), ?_, ?_⟩
    · simp [← htext]
    · have hrange := clock.inRange
      exact ⟨hour, minute, second, fraction, rfl, hhour, hminute, hsecond, by omega,
        hnanosecond ▸ hfraction⟩

/-- A time of day is read at the front of a text if neither its fraction nor its second goes on. -/
theorem SpellsClock.clock? {time rest : List Char} {clock : Clock} (h : SpellsClock time clock)
    (hrest : ∀ c ∈ rest.head?, c ≠ '.' ∧ Text.isDecimalDigit c = false) :
    clock? (time ++ rest) = some (clock, rest) := by
  obtain ⟨hour, minute, second, fraction, rfl, hhour, hminute, hsecond, hleap, hfraction⟩ := h
  have hof : Clock.of? clock.hour clock.minute clock.second clock.nanosecond = some clock :=
    Clock.of?_eq_some_iff.2 ⟨rfl, rfl, rfl, rfl⟩
  simp only [List.append_assoc, List.cons_append, Literal.clock?,
    hhour.digitRun? (Literal.not_isDigit_head? (c := ':') rfl _),
    hminute.digitRun? (Literal.not_isDigit_head? (c := ':') rfl _),
    hsecond.digitRun? (hfraction.not_isDigit_head? hrest), hfraction.splitFraction hrest,
    after?_cons, Option.bind_eq_bind, Option.bind_some, hof, if_neg (Nat.ne_of_lt hleap)]
  rfl

/-! ### Zones -/

/-- One to four digits are hours, or hours and minutes. -/
theorem spellsDistance_of_length {digits : List Char}
    (h : ∀ c ∈ digits, Text.isDecimalDigit c = true) (hleast : 1 ≤ digits.length)
    (hmost : digits.length ≤ 4) : SpellsDistance digits digits := by
  by_cases htwo : digits.length ≤ 2
  · exact .hours h hleast htwo
  · let hours := digits.take (digits.length - 2)
    let minutes := digits.drop (digits.length - 2)
    have hhours : hours.length = digits.length - 2 := by
      rw [List.length_take]
      omega
    have hminutes : minutes.length = 2 := by
      rw [List.length_drop]
      omega
    have hspells : SpellsDistance (hours ++ [] ++ minutes) (hours ++ minutes) :=
      .minutes (fun c hc => h c (List.mem_of_mem_take hc)) (by omega) (by omega) (by simp)
        (fun c hc => h c (List.mem_of_mem_drop hc)) hminutes
    rwa [List.append_nil, List.take_append_drop] at hspells

/-- One to four digits are read as they are. -/
theorem zoneDigits?_of_length {digits : List Char}
    (h : ∀ c ∈ digits, Text.isDecimalDigit c = true) (hleast : 1 ≤ digits.length)
    (hmost : digits.length ≤ 4) : zoneDigits? digits = some digits := by
  have hend : ∀ c ∈ ([] : List Char).head?, Text.isDecimalDigit c = false := by simp
  have htake := Text.takeWhile_append_of_head? h hend
  have hdrop := Text.dropWhile_append_of_head? h hend
  rw [List.append_nil] at htake hdrop
  rw [zoneDigits?, htake, hdrop]
  simp [hleast, hmost]

/-- The digits of a distance are read exactly where one is spelled. -/
theorem zoneDigits?_eq_some_iff {text digits : List Char} :
    zoneDigits? text = some digits ↔ SpellsDistance text digits := by
  constructor
  · intro h
    have hhours : ∀ c ∈ text.takeWhile Text.isDecimalDigit, Text.isDecimalDigit c = true :=
      fun _ => List.mem_takeWhile_imp
    have htext := List.takeWhile_append_dropWhile (p := Text.isDecimalDigit) (l := text)
    unfold zoneDigits? at h
    dsimp only at h
    split at h
    · -- Without a colon the minutes are told from the hours by the number of digits only.
      rename_i hrest
      split at h
      · rename_i hlength
        cases h
        rw [hrest, List.append_nil] at htext
        rw [htext] at hhours hlength ⊢
        simp only [Bool.and_eq_true, decide_eq_true_eq] at hlength
        exact spellsDistance_of_length hhours hlength.1 hlength.2
      · contradiction
    · rename_i minutes hrest
      split at h
      · rename_i hlength
        cases h
        simp only [Bool.and_eq_true, decide_eq_true_eq, List.all_eq_true] at hlength
        obtain ⟨⟨⟨hleast, hmost⟩, htwo⟩, hminutes⟩ := hlength
        have hspells : SpellsDistance (text.takeWhile Text.isDecimalDigit ++ [':'] ++ minutes)
            (text.takeWhile Text.isDecimalDigit ++ minutes) :=
          .minutes hhours hleast hmost (by simp) hminutes htwo
        rwa [List.append_assoc, List.singleton_append, ← hrest, htext] at hspells
      · contradiction
    · contradiction
  · intro h
    cases h with
    | hours hhours hleast hmost =>
      exact zoneDigits?_of_length hhours hleast (Nat.le_trans hmost (by decide))
    | @minutes hours colon minutes hhours hleast hmost hcolon hminutes htwo =>
      simp only [List.mem_cons, List.not_mem_nil, or_false] at hcolon
      cases hcolon with
      | inl hnone =>
        rw [hnone, List.append_nil]
        apply zoneDigits?_of_length
        · intro c hc
          exact (List.mem_append.1 hc).elim (hhours c) (hminutes c)
        · rw [List.length_append]
          omega
        · rw [List.length_append]
          omega
      | inr hcolon =>
        have hstop : ∀ c ∈ (':' :: minutes).head?, Text.isDecimalDigit c = false := by
          intro c hc
          rw [← Option.some.inj hc]
          decide
        have hall : minutes.all Text.isDecimalDigit = true := List.all_eq_true.2 hminutes
        rw [hcolon, List.append_assoc, List.singleton_append, zoneDigits?,
          Text.takeWhile_append_of_head? hhours hstop, Text.dropWhile_append_of_head? hhours hstop]
        simp [hleast, hmost, htwo, hall]

/-- A zone is read exactly where one is spelled. -/
theorem zoneText?_eq_some_iff {text : List Char} {zone : ZoneText} :
    zoneText? text = some zone ↔ SpellsZone text zone := by
  constructor
  · intro h
    unfold zoneText? at h
    split at h
    · cases h
      exact .absent
    · cases h
      exact .universal
    · obtain ⟨digits, hdigits, rfl⟩ := Option.map_eq_some_iff.1 h
      exact .east (zoneDigits?_eq_some_iff.1 hdigits)
    · obtain ⟨digits, hdigits, rfl⟩ := Option.map_eq_some_iff.1 h
      exact .west (zoneDigits?_eq_some_iff.1 hdigits)
    · contradiction
  · intro h
    cases h with
    | absent => rfl
    | universal => rfl
    | east hdistance => rw [zoneText?, zoneDigits?_eq_some_iff.2 hdistance, Option.map_some]
    | west hdistance => rw [zoneText?, zoneDigits?_eq_some_iff.2 hdistance, Option.map_some]

/-! ### Whole literals -/

/-- A zone does not go on with a time of day. -/
theorem SpellsZone.head? {text : List Char} {zone : ZoneText} (h : SpellsZone text zone) :
    ∀ c ∈ text.head?, c ≠ ' ' ∧ c ≠ '.' ∧ Text.isDecimalDigit c = false := by
  cases h with
  | absent => simp
  | universal | east | west =>
    intro c hc
    rw [← Option.some.inj hc]
    decide

/-- A time of day does not go on with blanks before it. -/
theorem SpellsClock.head? {time : List Char} {clock : Clock} (h : SpellsClock time clock)
    (rest : List Char) : ∀ c ∈ (time ++ rest).head?, decide (c = ' ') = false := by
  obtain ⟨hour, minute, second, fraction, rfl, hhour, -⟩ := h
  cases hour with
  | nil => exact absurd hhour.least_le (by decide)
  | cons first hour =>
    intro c hc
    have hfirst := hhour.isDigit first List.mem_cons_self
    rw [← Option.some.inj hc, decide_eq_false_iff_not]
    intro hblank
    rw [hblank] at hfirst
    contradiction

/-- What separates a day from a time of day is taken off the front before a time of day. -/
theorem IsSeparator.afterSeparator? {text time : List Char} {clock : Clock} (h : IsSeparator text)
    (htime : SpellsClock time clock) (rest : List Char) :
    afterSeparator? (text ++ (time ++ rest)) = some (time ++ rest) := by
  obtain rfl | rfl | ⟨blanks, rfl, hblanks⟩ := h
  · rfl
  · rfl
  · have hrun : ∀ c ∈ blanks, decide (c = ' ') = true := by simpa using hblanks
    rw [List.cons_append, Literal.afterSeparator?,
      Text.dropWhile_append_of_head? hrun (htime.head? rest)]

/-- What separates a day from a time of day starts with no digit. -/
theorem IsSeparator.exists_cons {text : List Char} (h : IsSeparator text) :
    ∃ c rest, text = c :: rest ∧ c.isDigit = false := by
  obtain rfl | rfl | ⟨blanks, rfl, -⟩ := h
  · exact ⟨'T', [], rfl, rfl⟩
  · exact ⟨'t', [], rfl, rfl⟩
  · exact ⟨' ', blanks, rfl, rfl⟩

/-- The text after a separator follows it. -/
theorem exists_of_afterSeparator? {text rest : List Char} (h : afterSeparator? text = some rest) :
    ∃ separator, text = separator ++ rest ∧ IsSeparator separator := by
  unfold afterSeparator? at h
  split at h
  · cases h
    exact ⟨['T'], rfl, .inl rfl⟩
  · cases h
    exact ⟨['t'], rfl, .inr (.inl rfl)⟩
  · rename_i rest'
    cases h
    refine ⟨' ' :: rest'.takeWhile (· = ' '), ?_, .inr (.inr ⟨_, rfl, ?_⟩)⟩
    · rw [List.cons_append, List.takeWhile_append_dropWhile]
    · intro c hc
      simpa using List.mem_takeWhile_imp hc
  · contradiction

/-- What a day and a time of day with a zone denote. -/
def zoned (date : Date) (clock : Clock) : ZoneText → Except ZoneFault (Option DateTime)
  | .absent => .ok (some ⟨date, clock, none⟩)
  | .universal => .ok (some ⟨date, clock, Offset.of? 0⟩)
  | .distance west digits =>
    (zoneOffset? west digits).map fun offset =>
      offset.map fun offset => ⟨date, clock, some offset⟩

/-- A day alone is read as its midnight. -/
theorem SpellsDate.dateTime? {text : List Char} {date : Date} (h : SpellsDate text date) :
    dateTime? text = .ok (some ⟨date, .midnight, none⟩) := by
  have hdate : date? text = some (date, []) :=
    date?_eq_some_iff.2 ⟨text, (List.append_nil text).symm, h, by simp⟩
  rw [Literal.dateTime?, hdate]

/-- A day with a time of day and a zone is read as what they denote. -/
theorem SpellsMoment.dateTime? {text : List Char} {date : Date} {clock : Clock} {zone : ZoneText}
    (h : SpellsMoment text date clock zone) : dateTime? text = zoned date clock zone := by
  obtain ⟨day, separator, time, blanks, rest, rfl, hday, hseparator, htime, hblanks, hzone⟩ := h
  have hrun : ∀ c ∈ blanks, decide (c = ' ') = true := by simpa using hblanks
  -- The clock cannot go on with the blanks, nor with the zone where there are none.
  have hhead : ∀ c ∈ (blanks ++ rest).head?, c ≠ '.' ∧ Text.isDecimalDigit c = false := by
    cases blanks with
    | nil =>
      intro c hc
      exact (hzone.head? c hc).2
    | cons first blanks =>
      intro c hc
      rw [← Option.some.inj hc, hblanks first List.mem_cons_self]
      decide
  have hdrop : (blanks ++ rest).dropWhile (· = ' ') = rest := by
    apply Text.dropWhile_append_of_head? hrun
    intro c hc
    exact decide_eq_false (hzone.head? c hc).1
  have hclock : (Literal.afterSeparator? (separator ++ (time ++ (blanks ++ rest)))).bind
      Literal.clock? = some (clock, blanks ++ rest) := by
    rw [hseparator.afterSeparator? htime, Option.bind_some, htime.clock? hhead]
  obtain ⟨c, letters, rfl, hc⟩ := hseparator.exists_cons
  have hdate := date?_eq_some_iff.2 ⟨day, rfl, hday,
    not_isDigit_head? hc (letters ++ (time ++ (blanks ++ rest)))⟩
  rw [List.cons_append] at hclock ⊢
  rw [Literal.dateTime?, hdate]
  dsimp only
  rw [hclock]
  dsimp only
  rw [hdrop, zoneText?_eq_some_iff.2 hzone]
  cases zone <;> rfl

/-- The year of a day that is spelled has four digits. -/
theorem SpellsDate.year_bounds {text : List Char} {date : Date} (h : SpellsDate text date) :
    0 ≤ date.year ∧ date.year ≤ 9999 := by
  obtain ⟨year, month, day, n, -, hyear, hn, -⟩ := h
  have hlt := digitsValue_lt hyear.isDigit
  have hlength := Nat.le_antisymm hyear.le_most hyear.least_le
  rw [hlength, hyear.value] at hlt
  omega

/-- A day with a time of day has a year of four digits and no leap second. -/
theorem SpellsMoment.bounds {text : List Char} {date : Date} {clock : Clock} {zone : ZoneText}
    (h : SpellsMoment text date clock zone) :
    (0 ≤ date.year ∧ date.year ≤ 9999) ∧ clock.second < 60 := by
  obtain ⟨day, separator, time, blanks, rest, -, hday, -, htime, -⟩ := h
  obtain ⟨hour, minute, second, fraction, -, -, -, -, hsecond, -⟩ := htime
  exact ⟨hday.year_bounds, hsecond⟩

/-- A day with a time of day has a colon after its hour. -/
theorem SpellsMoment.colon_mem {text : List Char} {date : Date} {clock : Clock} {zone : ZoneText}
    (h : SpellsMoment text date clock zone) : ':' ∈ text := by
  obtain ⟨day, separator, time, blanks, rest, rfl, -, -, htime, -⟩ := h
  obtain ⟨hour, minute, second, fraction, rfl, -⟩ := htime
  simp

/-- A text that is not left as text spells a day, or a day with a time of day and a zone. -/
theorem spells_of_dateTime?_ne {text : List Char} (h : dateTime? text ≠ .ok none) :
    (∃ date, SpellsDate text date) ∨ ∃ date clock zone, SpellsMoment text date clock zone := by
  unfold dateTime? at h
  split at h
  · contradiction
  · rename_i date hdate
    obtain ⟨day, rfl, hday, -⟩ := date?_eq_some_iff.1 hdate
    rw [List.append_nil]
    exact .inl ⟨date, hday⟩
  · rename_i date after _ hdate
    obtain ⟨day, rfl, hday, -⟩ := date?_eq_some_iff.1 hdate
    split at h
    · contradiction
    · rename_i clock rest hclock
      obtain ⟨inner, hafter, hfound⟩ := Option.bind_eq_some_iff.1 hclock
      obtain ⟨separator, rfl, hseparator⟩ := exists_of_afterSeparator? hafter
      obtain ⟨time, rfl, htime⟩ := exists_of_clock? hfound
      have hzone : ∃ zone, zoneText? (rest.dropWhile (· = ' ')) = some zone := by
        apply Option.ne_none_iff_exists'.1
        intro hnone
        rw [hnone] at h
        contradiction
      obtain ⟨zone, hzone⟩ := hzone
      refine .inr ⟨date, clock, zone, day, separator, time, rest.takeWhile (· = ' '), _, ?_, hday,
        hseparator, htime, ?_, zoneText?_eq_some_iff.1 hzone⟩
      · rw [List.takeWhile_append_dropWhile]
      · intro c hc
        simpa using List.mem_takeWhile_imp hc

end Literal

end NeonAudit
