import Mathlib.Data.List.Chain
import Mathlib.Data.List.TakeWhile
import NeonAudit.DecodeError
import NeonAudit.Location
import NeonAudit.Proofs.Number.Digits
import NeonAudit.Proofs.Text.Span

/-!
# Phrases in messages

A text names a position where it has the phrase `on line L, column C.`, and the first phrase counts.
The phrase at the end of a message follows a space, and no phrase that starts before that space
reaches over it: inside a phrase no space is followed by the letter with which a phrase starts. So a
message is read as its own position unless what it quotes has a phrase.
-/

namespace NeonAudit

namespace Location

/-- The location that the first phrase in a text names, if there is one. -/
def firstPhrase? : List Char → Option Location
  | [] => none
  | c :: text => (ofPhrase? (c :: text)).or (firstPhrase? text)

/-- The location that a text names is that of its first phrase. -/
theorem ofText_eq_getD (text : List Char) : ofText text = (firstPhrase? text).getD unknown := by
  induction text with
  | nil => rfl
  | cons c text ih =>
    rw [ofText, firstPhrase?, ih]
    cases ofPhrase? (c :: text) <;> rfl

/-- One or more digits, of any script. -/
structure IsNumber (digits : List Char) : Prop where
  /-- There is a digit. -/
  ne_nil : digits ≠ []
  /-- There are only digits. -/
  isDecimalDigit : ∀ c ∈ digits, Text.isDecimalDigit c = true

/-- What stands before the line in a phrase. -/
def lineLabel : List Char :=
  ['o', 'n', ' ', 'l', 'i', 'n', 'e', ' ']

/-- What stands between the line and the column in a phrase. -/
def columnLabel : List Char :=
  [',', ' ', 'c', 'o', 'l', 'u', 'm', 'n', ' ']

/-- The phrase with the given digits. -/
def phraseText (line column : List Char) : List Char :=
  lineLabel ++ (line ++ (columnLabel ++ (column ++ ['.'])))

/-- A phrase is its labels and numbers one after another. -/
theorem ofPhrase?_eq_bind (text : List Char) :
    ofPhrase? text = (afterText? lineLabel text).bind fun text =>
      (digitsThen? text).bind fun line => (afterText? columnLabel line.2).bind fun text =>
        (digitsThen? text).bind fun column => (afterText? ['.'] column.2).bind fun _ =>
          some ⟨number? line.1, number? column.1⟩ := by
  simp [ofPhrase?, lineLabel, columnLabel]

/-- The text after a given one. -/
theorem afterText?_eq_some_iff {start text rest : List Char} :
    afterText? start text = some rest ↔ text = start ++ rest := by
  induction start generalizing text with
  | nil => simp [afterText?]
  | cons c start ih =>
    cases text with
    | nil => simp [afterText?]
    | cons d text =>
      by_cases h : c = d
      · simp [afterText?, h, ih]
      · simp [afterText?, h, Ne.symm h]

/-- Digits and the text after them. -/
theorem digitsThen?_eq_some_iff {text digits rest : List Char} :
    digitsThen? text = some (digits, rest) ↔
      text = digits ++ rest ∧ IsNumber digits ∧
        ∀ c ∈ rest.head?, Text.isDecimalDigit c = false := by
  constructor
  · intro h
    unfold digitsThen? at h
    dsimp only at h
    split at h
    · contradiction
    · rename_i hne
      cases h
      refine ⟨List.takeWhile_append_dropWhile.symm, ⟨by simpa using hne, fun c hc => ?_⟩,
        fun c hc => ?_⟩
      · exact List.mem_takeWhile_imp hc
      · have hhead := List.head?_dropWhile_not Text.isDecimalDigit text
        rw [Option.mem_def.1 hc] at hhead
        simpa using hhead
  · rintro ⟨rfl, ⟨hne, hdigits⟩, hrest⟩
    rw [digitsThen?, Text.takeWhile_append_of_head? hdigits hrest,
      Text.dropWhile_append_of_head? hdigits hrest]
    exact if_neg (by simpa using hne)

/-- A text names a location at its start exactly if it starts with a phrase. -/
theorem ofPhrase?_eq_some_iff {text : List Char} {location : Location} :
    ofPhrase? text = some location ↔
      ∃ line column rest, IsNumber line ∧ IsNumber column ∧
        text = phraseText line column ++ rest ∧ location = ⟨number? line, number? column⟩ := by
  constructor
  · intro h
    simp only [ofPhrase?_eq_bind, Option.bind_eq_some_iff] at h
    obtain ⟨text₁, h₁, ⟨line, text₂⟩, h₂, text₃, h₃, ⟨column, text₄⟩, h₄, rest, h₅, h⟩ := h
    obtain ⟨rfl, hline, -⟩ := digitsThen?_eq_some_iff.1 h₂
    obtain ⟨rfl, hcolumn, -⟩ := digitsThen?_eq_some_iff.1 h₄
    have htext₂ : text₂ = columnLabel ++ (column ++ text₄) := afterText?_eq_some_iff.1 h₃
    have htext₄ : text₄ = ['.'] ++ rest := afterText?_eq_some_iff.1 h₅
    refine ⟨line, column, rest, hline, hcolumn, ?_, (Option.some.inj h).symm⟩
    rw [afterText?_eq_some_iff.1 h₁, htext₂, htext₄, phraseText]
    simp only [List.append_assoc]
  · rintro ⟨line, column, rest, hline, hcolumn, rfl, rfl⟩
    have h₁ : afterText? lineLabel (phraseText line column ++ rest) =
        some (line ++ (columnLabel ++ (column ++ (['.'] ++ rest)))) :=
      afterText?_eq_some_iff.2 (by simp only [phraseText, List.append_assoc])
    have h₂ : digitsThen? (line ++ (columnLabel ++ (column ++ (['.'] ++ rest)))) =
        some (line, columnLabel ++ (column ++ (['.'] ++ rest))) :=
      digitsThen?_eq_some_iff.2 ⟨rfl, hline, by rintro _ ⟨⟩; decide⟩
    have h₃ : afterText? columnLabel (columnLabel ++ (column ++ (['.'] ++ rest))) =
        some (column ++ (['.'] ++ rest)) := afterText?_eq_some_iff.2 rfl
    have h₄ : digitsThen? (column ++ (['.'] ++ rest)) = some (column, ['.'] ++ rest) :=
      digitsThen?_eq_some_iff.2 ⟨rfl, hcolumn, by rintro _ ⟨⟩; decide⟩
    have h₅ : afterText? ['.'] (['.'] ++ rest) = some rest := afterText?_eq_some_iff.2 rfl
    simp only [ofPhrase?_eq_bind, h₁, h₂, h₃, h₄, h₅, Option.bind_some]

/-- What follows a text is not reached by a phrase that starts in the text. -/
def Detached (rest : List Char) : Prop :=
  ∀ line column inner, IsNumber line → IsNumber column → inner <:+ phraseText line column →
    inner <+: rest → inner = []

/-- A phrase is not changed by what is detached from it. -/
theorem Detached.ofPhrase?_append {rest : List Char} (h : Detached rest) (text : List Char) :
    ofPhrase? (text ++ rest) = ofPhrase? text := by
  ext location
  rw [ofPhrase?_eq_some_iff, ofPhrase?_eq_some_iff]
  constructor
  · rintro ⟨line, column, more, hline, hcolumn, htext, rfl⟩
    rcases List.append_eq_append_iff.1 htext with ⟨inner, hphrase, hrest⟩ | ⟨inner, hmore, -⟩
    · have hnil := h line column inner hline hcolumn ⟨text, hphrase.symm⟩ ⟨more, hrest.symm⟩
      rw [hnil, List.append_nil] at hphrase
      exact ⟨line, column, [], hline, hcolumn, by rw [hphrase, List.append_nil], rfl⟩
    · exact ⟨line, column, inner, hline, hcolumn, hmore, rfl⟩
  · rintro ⟨line, column, more, hline, hcolumn, rfl, rfl⟩
    exact ⟨line, column, more ++ rest, hline, hcolumn, List.append_assoc .., rfl⟩

/-- The first phrase of a text counts before those of what is detached from it. -/
theorem Detached.firstPhrase?_append {rest : List Char} (h : Detached rest) (text : List Char) :
    firstPhrase? (text ++ rest) = (firstPhrase? text).or (firstPhrase? rest) := by
  induction text with
  | nil => rfl
  | cons c text ih =>
    have hphrase := h.ofPhrase?_append (c :: text)
    rw [List.cons_append] at hphrase ⊢
    rw [firstPhrase?, hphrase, ih, firstPhrase?, Option.or_assoc]

/-- A phrase starts with its first letter. -/
theorem firstPhrase?_cons {c : Char} (h : c ≠ 'o') (text : List Char) :
    firstPhrase? (c :: text) = firstPhrase? text := by
  have hnone : ofPhrase? (c :: text) = none := by
    refine Option.eq_none_iff_forall_ne_some.2 fun location hsome => ?_
    obtain ⟨line, column, rest, -, -, htext, -⟩ := ofPhrase?_eq_some_iff.1 hsome
    exact h (List.cons.inj htext).1
  rw [firstPhrase?, hnone, Option.none_or]

/-- What has no first letter of a phrase may stand before phrases. -/
theorem firstPhrase?_append_of_notMem {text : List Char} (h : 'o' ∉ text) (rest : List Char) :
    firstPhrase? (text ++ rest) = firstPhrase? rest := by
  induction text with
  | nil => rfl
  | cons c text ih =>
    rw [List.mem_cons, not_or] at h
    rw [List.cons_append, firstPhrase?_cons (Ne.symm h.1), ih h.2]

/-- There is no phrase without a comma. -/
theorem firstPhrase?_eq_none {text : List Char} (h : ',' ∉ text) : firstPhrase? text = none := by
  induction text with
  | nil => rfl
  | cons c text ih =>
    have hnone : ofPhrase? (c :: text) = none := by
      refine Option.eq_none_iff_forall_ne_some.2 fun location hsome => ?_
      obtain ⟨line, column, rest, -, -, htext, -⟩ := ofPhrase?_eq_some_iff.1 hsome
      exact h (by rw [htext]; simp [phraseText, columnLabel])
    rw [firstPhrase?, hnone, Option.none_or, ih fun hmem => h (List.mem_cons_of_mem c hmem)]

/-- No quote is part of a phrase. -/
theorem quote_notMem_phraseText {line column : List Char} (hline : IsNumber line)
    (hcolumn : IsNumber column) : '\x27' ∉ phraseText line column := by
  have hdigits {digits : List Char} (h : IsNumber digits) : '\x27' ∉ digits := fun hmem =>
    absurd (h.isDecimalDigit _ hmem) (by decide)
  simp [phraseText, lineLabel, columnLabel, hdigits hline, hdigits hcolumn]

/-- A phrase does not reach over a quote. -/
theorem detached_quote (rest : List Char) : Detached ('\x27' :: rest) := by
  intro line column inner hline hcolumn hsuffix hfront
  cases inner with
  | nil => rfl
  | cons c inner =>
    obtain ⟨more, hmore⟩ := hfront
    obtain rfl := (List.cons.inj hmore).1
    exact absurd (hsuffix.subset List.mem_cons_self) (quote_notMem_phraseText hline hcolumn)

/-- After a space stands no first letter of a phrase. -/
def Inside (first second : Char) : Prop :=
  first = ' ' → second ≠ 'o'

/-- A label before a number and more of a phrase is inside a phrase. -/
theorem isChain_inside {label digits rest : List Char} (hlabel : label.IsChain Inside)
    (hdigits : IsNumber digits) (hrest : rest.IsChain Inside) :
    (label ++ (digits ++ rest)).IsChain Inside := by
  have hspace : ∀ c ∈ digits, c ≠ ' ' := by
    rintro _ hc rfl
    exact absurd (hdigits.isDecimalDigit _ hc) (by decide)
  have hnumber : (digits ++ rest).IsChain Inside := by
    have hall : digits.IsChain Inside := by
      refine List.Pairwise.isChain (List.pairwise_iff_forall_sublist.2 fun hsub heq => ?_)
      exact absurd heq (hspace _ (hsub.subset List.mem_cons_self))
    refine List.isChain_append.2 ⟨hall, hrest, fun c hc d _ heq => ?_⟩
    exact absurd heq (hspace c (List.mem_of_mem_getLast? hc))
  refine List.isChain_append.2 ⟨hlabel, hnumber, fun c _ d hd _ => ?_⟩
  obtain ⟨e, digits, rfl⟩ := List.exists_cons_of_ne_nil hdigits.ne_nil
  obtain rfl := Option.some.inj hd
  rintro rfl
  exact absurd (hdigits.isDecimalDigit _ List.mem_cons_self) (by decide)

/-- A phrase does not reach over a space before the first letter of a phrase. -/
theorem detached_space (rest : List Char) : Detached (' ' :: 'o' :: rest) := by
  intro line column inner hline hcolumn hsuffix hfront
  have hchain : (phraseText line column).IsChain Inside := by
    refine isChain_inside ?_ hline (isChain_inside ?_ hcolumn (List.isChain_singleton _))
    · simp [lineLabel, Inside]
    · simp [columnLabel, Inside]
  obtain ⟨before, hphrase⟩ := hsuffix
  obtain ⟨more, hmore⟩ := hfront
  match inner with
  | [] => rfl
  | [c] =>
    -- A phrase ends in a point.
    have hlast := congrArg List.getLast? hphrase
    obtain rfl := (List.cons.inj hmore).1
    simp [phraseText, List.getLast?_append] at hlast
  | c :: d :: inner =>
    obtain ⟨rfl, htail⟩ := List.cons.inj hmore
    obtain ⟨rfl, -⟩ := List.cons.inj htail
    rw [← hphrase] at hchain
    exact absurd rfl ((List.isChain_append_cons_cons.1 hchain).2.1 rfl)

/-- The location of a position. -/
def ofPosition (p : Position) : Location :=
  ⟨some p.line, some p.column⟩

/-- The digits of a number are digits. -/
theorem isNumber_decimalText (n : Nat) : IsNumber (decimalText n) where
  ne_nil := decimalText_ne_nil n
  isDecimalDigit _ hc := Text.isDecimalDigit_of_isDigit (isDigit_of_mem_decimalText hc)

/-- A number below the bound is read from its digits. -/
theorem number?_decimalText {n : Nat} (h : n < UInt64.size) : number? (decimalText n) = some n := by
  rw [number?, readDigits?_decimalText, Option.filter_some, if_pos (decide_eq_true h)]

/-- The phrase of a position follows a space. -/
theorem toList_phrase (p : Position) :
    p.phrase.toList = ' ' :: phraseText (decimalText p.line) (decimalText p.column) := by
  simp [Position.phrase, phraseText, lineLabel, columnLabel, decimalText]

/-- The phrase of a position does not continue another one. -/
theorem detached_phrase (p : Position) : Detached p.phrase.toList := by
  rw [toList_phrase]
  exact detached_space _

/-- The phrase of a position names it. -/
theorem firstPhrase?_phrase {p : Position} (hline : p.line < UInt64.size)
    (hcolumn : p.column < UInt64.size) : firstPhrase? p.phrase.toList = some (ofPosition p) := by
  have hphrase : ofPhrase? (phraseText (decimalText p.line) (decimalText p.column)) =
      some (ofPosition p) := by
    refine ofPhrase?_eq_some_iff.2 ⟨_, _, [], isNumber_decimalText p.line,
      isNumber_decimalText p.column, (List.append_nil _).symm, ?_⟩
    rw [number?_decimalText hline, number?_decimalText hcolumn, ofPosition]
  rw [toList_phrase, firstPhrase?_cons (by decide), phraseText, lineLabel, List.cons_append,
    firstPhrase?]
  rw [phraseText, lineLabel, List.cons_append] at hphrase
  rw [hphrase, Option.some_or]

end Location

namespace DecodeError

open Location

/-- The part of a statement that the kind of cause does not fix. -/
def Cause.quoted : Cause → List Char
  | unexpected text => text.toList
  | invalidEscape sequence => sequence.toList
  | duplicatedKey key => key.toList
  | _ => []

/-- A message has the phrases of what it quotes and then that of its position. -/
theorem firstPhrase?_message (e : DecodeError) : firstPhrase? e.message.toList =
    (firstPhrase? e.cause.quoted).or (firstPhrase? e.position.phrase.toList) := by
  have hdetached := detached_phrase e.position
  have hbetween {front : List Char} (hfront : 'o' ∉ front) (quoted : List Char) :
      firstPhrase? (front ++ (quoted ++ ('\x27' :: e.position.phrase.toList))) =
        (firstPhrase? quoted).or (firstPhrase? e.position.phrase.toList) := by
    rw [firstPhrase?_append_of_notMem hfront, (detached_quote _).firstPhrase?_append,
      firstPhrase?_cons (by decide)]
  have hfixed {statement : List Char} (h : ',' ∉ statement) :
      firstPhrase? (statement ++ e.position.phrase.toList) =
        (firstPhrase? []).or (firstPhrase? e.position.phrase.toList) := by
    rw [hdetached.firstPhrase?_append, firstPhrase?_eq_none h, firstPhrase?]
  rw [DecodeError.message, String.toList_append]
  cases e.cause with
  | unexpected text =>
    change firstPhrase? (("Unexpected '" ++ text ++ "'").toList ++ _) = _
    rw [String.toList_append, String.toList_append, List.append_assoc, List.append_assoc]
    exact hbetween (by simp) _
  | invalidEscape sequence =>
    change firstPhrase? (("Invalid escaping sequence " ++ sequence).toList ++ _) = _
    rw [String.toList_append, List.append_assoc, firstPhrase?_append_of_notMem (by simp),
      hdetached.firstPhrase?_append]
    rfl
  | duplicatedKey key =>
    change firstPhrase? (("Duplicated key '" ++ key ++ "'").toList ++ _) = _
    rw [String.toList_append, String.toList_append, List.append_assoc, List.append_assoc]
    exact hbetween (by simp) _
  | _ => exact hfixed (by decide +kernel)
/-- A message is read as the position of its error unless what it quotes has a phrase. -/
theorem ofMessage_message {e : DecodeError} (hline : e.position.line < UInt64.size)
    (hcolumn : e.position.column < UInt64.size) :
    ofMessage e.message = (firstPhrase? e.cause.quoted).getD (ofPosition e.position) := by
  rw [ofMessage, ofText_eq_getD, firstPhrase?_message, firstPhrase?_phrase hline hcolumn]
  cases firstPhrase? e.cause.quoted <;> rfl

end DecodeError

end NeonAudit
