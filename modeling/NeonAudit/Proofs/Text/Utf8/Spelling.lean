import NeonAudit.Proofs.Text.EscapeGrammar
import NeonAudit.Proofs.Text.Utf8

/-!
# Characters spelled in UTF-8

What bytes a character is spelled by is stated here as a relation that follows the reader: a byte
starts the character and the bytes after it complete it. The relation is that of the encoding of
characters, so a sequence of bytes starts with a character exactly if it starts with its encoding,
and what starts with no character is broken.
-/

namespace NeonAudit.Text

/-- The UTF-8 of a text. -/
def utf8 (text : List Char) : List UInt8 :=
  text.flatMap String.utf8EncodeChar

/-- The bytes complete a character that is not complete. -/
inductive Completes : PartialChar → List UInt8 → Char → Prop
  | last {char byte} : char.following ≤ 1 → char.least ≤ byte → byte ≤ char.greatest →
      Completes char [byte] (Char.ofNat (char.bits * 64 + (byte.toNat - 0x80)))
  | more {char byte bytes c} : ¬char.following ≤ 1 → char.least ≤ byte → byte ≤ char.greatest →
      Completes ⟨char.bits * 64 + (byte.toNat - 0x80), char.following - 1, 0x80, 0xbf⟩ bytes c →
      Completes char (byte :: bytes) c

/-- The bytes spell a character. -/
inductive Spells : List UInt8 → Char → Prop
  | single {byte c} : readLeadByte byte = ([some c], none) → Spells [byte] c
  | several {byte char bytes c} : readLeadByte byte = ([], some char) → Completes char bytes c →
      Spells (byte :: bytes) c

/-- A completed character is read, and then what follows it. -/
theorem readBytesAfter_of_completes {char : PartialChar} {bytes : List UInt8} {c : Char}
    (h : Completes char bytes c) (rest : List UInt8) :
    readBytesAfter (some char) (bytes ++ rest) = some c :: readBytes rest := by
  induction h with
  | last hfollowing hleast hgreatest =>
    simp [readBytesAfter, readByte, PartialChar.readByte, hleast, hgreatest, hfollowing, readBytes]
  | more hfollowing hleast hgreatest _ ih =>
    simp [readBytesAfter, readByte, PartialChar.readByte, hleast, hgreatest, hfollowing, ih]

/-- A character is read from the bytes that spell it, and then what follows them. -/
theorem readBytes_of_spells {bytes : List UInt8} {c : Char} (h : Spells bytes c)
    (rest : List UInt8) : readBytes (bytes ++ rest) = some c :: readBytes rest := by
  cases h with
  | single hlead => simp [readBytes, readBytesAfter, readByte, hlead]
  | several hlead hcompletes =>
    rw [readBytes, List.cons_append, readBytesAfter, readByte, hlead]
    exact readBytesAfter_of_completes hcompletes rest

/-- What follows a character that is not complete completes it or breaks it. -/
theorem completes_or_broken (char : PartialChar) (bytes : List UInt8) :
    (∃ first rest c, bytes = first ++ rest ∧ Completes char first c) ∨
      ∃ more, readBytesAfter (some char) bytes = none :: more := by
  induction bytes generalizing char with
  | nil => exact .inr ⟨[], rfl⟩
  | cons byte bytes ih =>
    by_cases hbyte : char.least ≤ byte ∧ byte ≤ char.greatest
    · by_cases hfollowing : char.following ≤ 1
      · exact .inl ⟨[byte], bytes, _, rfl, .last hfollowing hbyte.1 hbyte.2⟩
      · rcases ih ⟨char.bits * 64 + (byte.toNat - 0x80), char.following - 1, 0x80, 0xbf⟩ with
          ⟨first, rest, c, hbytes, hcompletes⟩ | ⟨more, hmore⟩
        · exact .inl ⟨byte :: first, rest, c, congrArg (byte :: ·) hbytes,
            .more hfollowing hbyte.1 hbyte.2 hcompletes⟩
        · refine .inr ⟨more, ?_⟩
          simp [readBytesAfter, readByte, PartialChar.readByte, hbyte, hfollowing, hmore]
    · refine .inr ⟨(readLeadByte byte).1 ++ readBytesAfter (readLeadByte byte).2 bytes, ?_⟩
      rw [readBytesAfter, readByte, if_neg (by simpa using hbyte)]
      rfl

/-- What a byte that starts a character, or cannot start one, leads to. -/
inductive Leads (byte : UInt8) : ByteResult → Prop
  | one : byte.toNat < 0x80 → Leads byte ([some (Char.ofNat byte.toNat)], none)
  | two {bits} : byte.toNat = 0xc0 + bits → 2 ≤ bits → bits < 32 →
      Leads byte ([], some ⟨bits, 1, 0x80, 0xbf⟩)
  | three {bits} {least greatest : UInt8} : byte.toNat = 0xe0 + bits → bits < 16 →
      (bits = 0 ∧ least.toNat = 0xa0 ∨ bits ≠ 0 ∧ least.toNat = 0x80) →
      (bits = 13 ∧ greatest.toNat = 0x9f ∨ bits ≠ 13 ∧ greatest.toNat = 0xbf) →
      Leads byte ([], some ⟨bits, 2, least, greatest⟩)
  | four {bits} {least greatest : UInt8} : byte.toNat = 0xf0 + bits → bits < 5 →
      (bits = 0 ∧ least.toNat = 0x90 ∨ bits ≠ 0 ∧ least.toNat = 0x80) →
      (bits = 4 ∧ greatest.toNat = 0x8f ∨ bits ≠ 4 ∧ greatest.toNat = 0xbf) →
      Leads byte ([], some ⟨bits, 3, least, greatest⟩)
  | broken : 0x80 ≤ byte.toNat ∧ byte.toNat < 0xc2 ∨ 0xf5 ≤ byte.toNat → Leads byte ([none], none)

/-- What a first byte leads to is told by the range that it is in. -/
theorem exists_leads (byte : UInt8) : ∃ result, readLeadByte byte = result ∧ Leads byte result := by
  refine ⟨readLeadByte byte, rfl, ?_⟩
  have hrange (a : UInt8) : byte < a ↔ byte.toNat < a.toNat := UInt8.lt_iff_toNat_lt
  have hsame (a : UInt8) : byte = a ↔ byte.toNat = a.toNat := UInt8.toNat_inj.symm
  have hif {p q : Prop} [Decidable p] (h : p ↔ q) (a b : UInt8) :
      q ∧ (if p then a else b).toNat = a.toNat ∨ ¬q ∧ (if p then a else b).toNat = b.toNat := by
    split
    · exact .inl ⟨h.1 ‹p›, rfl⟩
    · exact .inr ⟨‹¬p› ∘ h.2, rfl⟩
  rw [readLeadByte]
  simp only [hrange, hsame, UInt8.reduceToNat]
  split
  · exact .one ‹_›
  · split
    · exact .broken (.inl (by omega))
    · split
      · exact .two (by omega) (by omega) (by omega)
      · split
        · exact .three (by omega) (by omega) (hif (by omega) 0xa0 0x80) (hif (by omega) 0x9f 0xbf)
        · split
          · exact .four (by omega) (by omega) (hif (by omega) 0x90 0x80) (hif (by omega) 0x8f 0xbf)
          · exact .broken (.inr (by omega))

/-- Bytes start with a character or are broken at their start. -/
theorem spells_or_broken {bytes : List UInt8} (h : bytes ≠ []) :
    (∃ first rest c, bytes = first ++ rest ∧ Spells first c) ∨
      ∃ more, readBytes bytes = none :: more := by
  obtain ⟨byte, bytes, rfl⟩ := List.exists_cons_of_ne_nil h
  obtain ⟨result, hresult, hlead⟩ := exists_leads byte
  rw [readBytes, readBytesAfter, readByte]
  have hstarts {char : PartialChar} (hresult : readLeadByte byte = ([], some char)) :
      (∃ first rest c, byte :: bytes = first ++ rest ∧ Spells first c) ∨
        ∃ more, readBytesAfter (some char) bytes = none :: more := by
    rcases completes_or_broken char bytes with ⟨first, rest, c, hbytes, hcompletes⟩ | hbroken
    · exact .inl ⟨byte :: first, rest, c, congrArg (byte :: ·) hbytes, .several hresult hcompletes⟩
    · exact .inr hbroken
  rw [hresult] at hstarts ⊢
  cases hlead with
  | one => exact .inl ⟨[byte], bytes, _, rfl, .single hresult⟩
  | two => exact hstarts rfl
  | three => exact hstarts rfl
  | four => exact hstarts rfl
  | broken => exact .inr ⟨readBytes bytes, rfl⟩

section Encoding

variable {bits : Nat} {least greatest : UInt8} {bytes : List UInt8} {c : Char}

/-- One byte completes a character that lacks one. -/
theorem completes_one_iff : Completes ⟨bits, 1, least, greatest⟩ bytes c ↔
    ∃ byte, bytes = [byte] ∧ least.toNat ≤ byte.toNat ∧ byte.toNat ≤ greatest.toNat ∧
      c = Char.ofNat (bits * 64 + (byte.toNat - 0x80)) := by
  constructor
  · intro h
    cases h with
    | last _ hleast hgreatest =>
      exact ⟨_, rfl, UInt8.le_iff_toNat_le.1 hleast, UInt8.le_iff_toNat_le.1 hgreatest, rfl⟩
    | more hfollowing => exact absurd (Nat.le_refl 1) hfollowing
  · rintro ⟨byte, rfl, hleast, hgreatest, hc⟩
    rw [hc]
    have hle : least ≤ byte := UInt8.le_iff_toNat_le.2 hleast
    have hge : byte ≤ greatest := UInt8.le_iff_toNat_le.2 hgreatest
    exact .last (Nat.le_refl 1) hle hge

/-- A byte leaves one fewer to complete a character that lacks several. -/
theorem completes_succ_iff {more : Nat} : Completes ⟨bits, more + 2, least, greatest⟩ bytes c ↔
    ∃ byte rest, bytes = byte :: rest ∧ least.toNat ≤ byte.toNat ∧ byte.toNat ≤ greatest.toNat ∧
      Completes ⟨bits * 64 + (byte.toNat - 0x80), more + 1, 0x80, 0xbf⟩ rest c := by
  have hmore : ¬more + 2 ≤ 1 := by omega
  constructor
  · intro h
    cases h with
    | last hfollowing => exact absurd hfollowing hmore
    | more _ hleast hgreatest hrest =>
      exact ⟨_, _, rfl, UInt8.le_iff_toNat_le.1 hleast, UInt8.le_iff_toNat_le.1 hgreatest, hrest⟩
  · rintro ⟨byte, rest, rfl, hleast, hgreatest, hrest⟩
    have hle : least ≤ byte := UInt8.le_iff_toNat_le.2 hleast
    have hge : byte ≤ greatest := UInt8.le_iff_toNat_le.2 hgreatest
    exact .more hmore hle hge hrest

/-- The bytes that spell a character are its encoding. -/
theorem eq_utf8EncodeChar_of_spells (h : Spells bytes c) : bytes = String.utf8EncodeChar c := by
  have hvalue {n : Nat} (hn : n.isValidChar) : (Char.ofNat n).val.toNat = n := toNat_ofNat hn
  have hbyte (byte : UInt8) {n : Nat} (hn : n = byte.toNat) : byte = UInt8.ofNat n := by
    rw [hn, UInt8.ofNat_toNat]
  cases h with
  | @single byte c hlead =>
    obtain ⟨result, hresult, hleads⟩ := exists_leads byte
    rw [hlead] at hresult
    subst hresult
    cases hleads with
    | one hlt =>
      rw [String.utf8EncodeChar, hvalue (.inl (by omega)), if_pos (by omega), UInt8.ofNat_toNat]
  | @several byte char bytes c hlead hcompletes =>
    obtain ⟨result, hresult, hleads⟩ := exists_leads byte
    rw [hlead] at hresult
    subst hresult
    rw [String.utf8EncodeChar]
    cases hleads with
    | @two bits hfirst hge hlt =>
      obtain ⟨second, rfl, hsecond, hsecond', hc⟩ := completes_one_iff.1 hcompletes
      simp only [UInt8.reduceToNat] at hsecond hsecond'
      rw [hc, hvalue (.inl (by omega)), if_neg (by omega), if_pos (by omega),
        ← hbyte byte (by omega), ← hbyte second (by omega)]
    | @three bits least greatest hfirst hlt hleast hgreatest =>
      obtain ⟨second, rest, rfl, hsecond, hsecond', hrest⟩ := completes_succ_iff.1 hcompletes
      obtain ⟨third, rfl, hthird, hthird', hc⟩ := completes_one_iff.1 hrest
      simp only [UInt8.reduceToNat] at hthird hthird'
      rw [hc, hvalue (by simp only [Nat.isValidChar]; omega), if_neg (by omega), if_neg (by omega),
        if_pos (by omega), ← hbyte byte (by omega), ← hbyte second (by omega),
        ← hbyte third (by omega)]
    | @four bits least greatest hfirst hlt hleast hgreatest =>
      obtain ⟨second, rest, rfl, hsecond, hsecond', hrest⟩ := completes_succ_iff.1 hcompletes
      obtain ⟨third, rest, rfl, hthird, hthird', hrest⟩ := completes_succ_iff.1 hrest
      obtain ⟨fourth, rfl, hfourth, hfourth', hc⟩ := completes_one_iff.1 hrest
      simp only [UInt8.reduceToNat] at hthird hthird' hfourth hfourth'
      rw [hc, hvalue (by simp only [Nat.isValidChar]; omega), if_neg (by omega), if_neg (by omega),
        if_neg (by omega), ← hbyte byte (by omega), ← hbyte second (by omega),
        ← hbyte third (by omega), ← hbyte fourth (by omega)]

/-- The encoding of a character spells it. -/
theorem spells_utf8EncodeChar (c : Char) : Spells (String.utf8EncodeChar c) c := by
  have hvalid : c.val.toNat.isValidChar := c.valid
  have hchar {n : Nat} (hn : n = c.val.toNat) : c = Char.ofNat n := hn ▸ (Char.ofNat_toNat c).symm
  simp only [Nat.isValidChar] at hvalid
  rw [String.utf8EncodeChar]
  generalize c.val.toNat = v at hvalid hchar
  have hbyte {n : Nat} (hn : n < 256) : (UInt8.ofNat n).toNat = n := by
    rw [UInt8.toNat_ofNat', Nat.mod_eq_of_lt hn]
  have hlow : UInt8.toNat 0x80 = 128 := rfl
  have hhigh : UInt8.toNat 0xbf = 191 := rfl
  split
  · have hfirst := hbyte (n := v) (by omega)
    obtain ⟨result, hlead, hleads⟩ := exists_leads (UInt8.ofNat v)
    cases hleads with
    | one => exact .single (by rw [hlead, ← hchar hfirst])
    | two | three | four | broken => omega
  · split
    · have hfirst := hbyte (n := v / 64 % 32 + 192) (by omega)
      have hsecond := hbyte (n := v % 64 + 128) (by omega)
      obtain ⟨result, hlead, hleads⟩ := exists_leads (UInt8.ofNat (v / 64 % 32 + 192))
      cases hleads with
      | two hbits =>
        refine .several hlead (completes_one_iff.2 ⟨_, rfl, ?_, ?_, hchar ?_⟩)
        all_goals omega
      | one | three | four | broken => omega
    · split
      · have hfirst := hbyte (n := v / 4096 % 16 + 224) (by omega)
        have hsecond := hbyte (n := v / 64 % 64 + 128) (by omega)
        have hthird := hbyte (n := v % 64 + 128) (by omega)
        obtain ⟨result, hlead, hleads⟩ := exists_leads (UInt8.ofNat (v / 4096 % 16 + 224))
        cases hleads with
        | three hbits =>
          refine .several hlead (completes_succ_iff.2 ⟨_, _, rfl, ?_, ?_,
            completes_one_iff.2 ⟨_, rfl, ?_, ?_, hchar ?_⟩⟩)
          all_goals omega
        | one | two | four | broken => omega
      · have hfirst := hbyte (n := v / 262144 % 8 + 240) (by omega)
        have hsecond := hbyte (n := v / 4096 % 64 + 128) (by omega)
        have hthird := hbyte (n := v / 64 % 64 + 128) (by omega)
        have hfourth := hbyte (n := v % 64 + 128) (by omega)
        obtain ⟨result, hlead, hleads⟩ := exists_leads (UInt8.ofNat (v / 262144 % 8 + 240))
        cases hleads with
        | four hbits =>
          refine .several hlead (completes_succ_iff.2 ⟨_, _, rfl, ?_, ?_,
            completes_succ_iff.2 ⟨_, _, rfl, ?_, ?_,
              completes_one_iff.2 ⟨_, rfl, ?_, ?_, hchar ?_⟩⟩⟩)
          all_goals omega
        | one | two | three | broken => omega

end Encoding

end NeonAudit.Text
