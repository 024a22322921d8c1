import NeonAudit.Proofs.Text.Utf8.Spelling

/-!
# Where bytes stop being UTF-8

Bytes are read as the longest text whose encoding they start with, and then either there are no more
bytes or what follows is broken. So bytes are read as a text exactly if they are its encoding, and
the first replacement in what is shown of broken bytes stands just behind that longest text.
-/

namespace NeonAudit.Text

@[simp] theorem utf8_cons (c : Char) (text : List Char) :
    utf8 (c :: text) = String.utf8EncodeChar c ++ utf8 text := List.flatMap_cons

theorem utf8_append (first rest : List Char) : utf8 (first ++ rest) = utf8 first ++ utf8 rest :=
  List.flatMap_append

/-- The encoding of a string is that of its characters. -/
theorem toList_data_toUTF8 (text : String) : text.toUTF8.data.toList = utf8 text.toList := by
  rw [utf8, String.toUTF8_eq_toByteArray, ← String.utf8Encode_toList, List.utf8Encode,
    List.toList_data_toByteArray]

/-- A text has no more characters than bytes. -/
theorem length_le_utf8 (text : List Char) : text.length ≤ (utf8 text).length := by
  induction text with
  | nil => exact Nat.le_refl 0
  | cons c text ih =>
    have hpos := c.utf8Size_pos
    rw [utf8_cons, List.length_append, List.length_cons, String.length_utf8EncodeChar]
    omega

/-- A text is read from its encoding, and then what follows it. -/
theorem readBytes_utf8_append (text : List Char) (rest : List UInt8) :
    readBytes (utf8 text ++ rest) = text.map some ++ readBytes rest := by
  induction text with
  | nil => rfl
  | cons c text ih =>
    rw [utf8_cons, List.append_assoc, readBytes_of_spells (spells_utf8EncodeChar c), ih,
      List.map_cons, List.cons_append]

/-- Bytes start with the encoding of a text after which there is nothing or something broken. -/
theorem exists_utf8_append (bytes : List UInt8) : ∃ text rest, bytes = utf8 text ++ rest ∧
    (rest = [] ∨ ∃ more, readBytes rest = none :: more) := by
  induction hlength : bytes.length using Nat.strongRecOn generalizing bytes with
  | ind n ih =>
    by_cases hnil : bytes = []
    · exact ⟨[], [], hnil, .inl rfl⟩
    rcases spells_or_broken hnil with ⟨first, rest, c, rfl, hspells⟩ | hbroken
    · obtain rfl := eq_utf8EncodeChar_of_spells hspells
      have hpos : 0 < (String.utf8EncodeChar c).length := by
        rw [String.length_utf8EncodeChar]
        exact c.utf8Size_pos
      obtain ⟨text, more, rfl, hmore⟩ := ih rest.length
        (by rw [← hlength, List.length_append]; omega) rest rfl
      exact ⟨c :: text, more, by rw [utf8_cons, List.append_assoc], hmore⟩
    · exact ⟨[], bytes, rfl, .inr hbroken⟩

/-- The text is the longest one whose encoding the bytes start with. -/
structure IsLongestStart (bytes : List UInt8) (text : List Char) : Prop where
  /-- The bytes start with the encoding of the text. -/
  starts : utf8 text <+: bytes
  /-- No longer part at the start of the bytes is the encoding of a text. -/
  longest : ∀ {other}, utf8 other <+: bytes → utf8 other <+: utf8 text

/-- Where a broken sequence follows characters that were read, no other characters go further. -/
theorem isPrefix_of_map_some_append {text other : List Char} {more rest : List (Option Char)}
    (h : other.map some ++ rest = text.map some ++ none :: more) : other <+: text := by
  induction other generalizing text with
  | nil => exact List.nil_prefix
  | cons c other ih =>
    cases text with
    | nil => cases h
    | cons d text =>
      obtain ⟨hc, htail⟩ := List.cons.inj h
      obtain rfl := Option.some.inj hc
      exact List.cons_prefix_cons.2 ⟨rfl, ih htail⟩

/-- What stands before the first broken sequence is the longest start. -/
theorem isLongestStart_of_broken {text : List Char} {rest : List UInt8} {more : List (Option Char)}
    (h : readBytes rest = none :: more) : IsLongestStart (utf8 text ++ rest) text where
  starts := List.prefix_append ..
  longest := by
    rintro other ⟨after, hafter⟩
    have hread := congrArg readBytes hafter
    rw [readBytes_utf8_append, readBytes_utf8_append, h] at hread
    obtain ⟨behind, rfl⟩ := isPrefix_of_map_some_append hread
    rw [utf8_append]
    exact List.prefix_append ..

/-- Characters of which each is there are those of a text. -/
theorem mapM_id_eq_some_iff {read : List (Option Char)} {text : List Char} :
    read.mapM id = some text ↔ read = text.map some := by
  induction read generalizing text with
  | nil => cases text <;> simp
  | cons c read ih =>
    cases c with
    | none => cases text <;> simp
    | some c =>
      cases text with
      | nil => simp [Option.bind_eq_some_iff]
      | cons d text =>
        simpa [Option.bind_eq_some_iff, ih] using and_comm

/-- Bytes are read as a text exactly if they are its encoding. -/
theorem ofUtf8?_eq_some_iff {bytes : List UInt8} {text : List Char} :
    ofUtf8? bytes = some text ↔ bytes = utf8 text := by
  rw [ofUtf8?, mapM_id_eq_some_iff]
  constructor
  · intro h
    obtain ⟨start, rest, rfl, hrest⟩ := exists_utf8_append bytes
    rw [readBytes_utf8_append] at h
    rcases hrest with rfl | ⟨more, hbroken⟩
    · have hread : start.map some = text.map some := by simpa [readBytes, readBytesAfter] using h
      rw [(List.map_inj_right fun _ _ => Option.some.inj).1 hread, List.append_nil]
    · have hmem : none ∈ text.map some := by simp [← h, hbroken]
      simp at hmem
  · rintro rfl
    have hread := readBytes_utf8_append text []
    rwa [List.append_nil, show readBytes [] = [] from rfl, List.append_nil] at hread

/-- Bytes that are no encoding are shown as the longest text that they start with, which stands
before the first broken sequence, and a replacement behind it. -/
theorem exists_replacement {bytes : List UInt8} (h : ofUtf8? bytes = none) :
    IsLongestStart bytes (validStart bytes) ∧
      ∃ more, ofUtf8WithReplacements bytes = validStart bytes ++ replacement :: more := by
  obtain ⟨text, rest, rfl, hrest⟩ := exists_utf8_append bytes
  rcases hrest with rfl | ⟨more, hbroken⟩
  · rw [List.append_nil, ofUtf8?_eq_some_iff.2 rfl] at h
    contradiction
  · have hstart : validStart (utf8 text ++ rest) = text := by
      rw [validStart, readBytes_utf8_append, hbroken, List.takeWhile_append_of_pos (by simp),
        List.takeWhile_cons_of_neg (by simp), List.append_nil, List.filterMap_map]
      simp
    rw [hstart]
    refine ⟨isLongestStart_of_broken hbroken, more.map (Option.getD · replacement), ?_⟩
    rw [ofUtf8WithReplacements, readBytes_utf8_append, hbroken]
    simp [Function.comp_def]

end NeonAudit.Text
