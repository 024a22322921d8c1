import NeonAudit.Audit.Source
import NeonAudit.Proofs.Document.ErrorLocation
import NeonAudit.Proofs.Text.Utf8.Start

/-!
# Sources that are not UTF-8

The source of a file is its content read as UTF-8. The place of the first broken sequence is counted
in the text before it, told in a message, and read from the message again, while the excerpt is cut
from a text with replacements. Both texts start with the longest text that the content starts with,
so the location is that of the first replacement behind it, and the excerpt marks its line.
-/

namespace NeonAudit

open Location

/-- The message for broken bytes is read as the place behind the text before them. -/
theorem ofMessage_encodingMessage {bytes : List UInt8} {p : Position}
    (hp : Position.start.after (Text.validStart bytes) = p) (hline : p.line < UInt64.size)
    (hcolumn : p.column < UInt64.size) : ofMessage (encodingMessage bytes) = ofPosition p := by
  have hmessage : (encodingMessage bytes).toList =
      "Invalid UTF-8 sequence".toList ++ p.phrase.toList := by
    rw [← hp]
    exact String.toList_append
  have hnone : firstPhrase? "Invalid UTF-8 sequence".toList = none :=
    firstPhrase?_eq_none (by decide +kernel)
  rw [ofMessage, ofText_eq_getD, hmessage, (detached_phrase p).firstPhrase?_append, hnone,
    Option.none_or, firstPhrase?_phrase hline hcolumn, Option.getD_some]

/-- A failure points at the first broken sequence of some bytes, which is on the given line and in
the given column. -/
structure ParseFailure.PointsAtBreak (failure : ParseFailure) (bytes : List UInt8)
    (line column : Nat) : Prop where
  /-- The location of the failure is known. -/
  location_eq : failure.location = ⟨some line, some column⟩
  /-- The message names it. -/
  message_eq : failure.message = "Invalid UTF-8 sequence" ++ (⟨line, column⟩ : Position).phrase
  /-- The source shown has a replacement for every broken sequence. -/
  source_eq : failure.source = String.ofList (Text.ofUtf8WithReplacements bytes)
  /-- A replacement stands at the location, behind the longest text that the bytes start with. -/
  replaced : ∃ before after, failure.source.toList = before ++ '\uFFFD' :: after ∧
    Text.IsLongestStart bytes before ∧ ⟨line, column⟩ = Position.behind before
  /-- The line of that number has the replacement in that column. -/
  character : ∃ text, (Text.split '\n' failure.source.toList)[line - 1]? = some text ∧
    text[column - 1]? = some '\uFFFD'
  /-- An excerpt is shown. -/
  excerpt_ne : failure.excerpt ≠ ""
  /-- The excerpt marks the line. -/
  marks : Excerpt.Marks failure.source.toList line failure.excerpt.toList

/-- The character behind a text is on the line and in the column of the place there. -/
theorem Text.getElem?_behind (before after : List Char) {c : Char} (hc : c ≠ '\n') :
    ∃ text, (split '\n' (before ++ c :: after))[(Position.behind before).line - 1]? = some text ∧
      text[(Position.behind before).column - 1]? = some c := by
  refine ⟨lastLine before ++ (c :: after).takeWhile (· ≠ '\n'), ?_, ?_⟩
  · rw [Position.behind, Nat.add_sub_cancel_left]
    exact getElem?_split before (c :: after)
  · rw [Position.behind, Nat.add_sub_cancel_left, List.getElem?_append_right (Nat.le_refl _),
      Nat.sub_self, List.takeWhile_cons_of_pos (by simpa using hc), List.getElem?_cons_zero]

/-- The failure of bytes that are not UTF-8 points at their first broken sequence. -/
theorem ParseFailure.pointsAtBreak_ofBytes {bytes : List UInt8} (hbroken : Text.ofUtf8? bytes = none)
    (hlength : bytes.length < 2 ^ 63) (file : String) :
    (ofBytes file bytes).PointsAtBreak bytes (Position.behind (Text.validStart bytes)).line
      (Position.behind (Text.validStart bytes)).column := by
  obtain ⟨hstart, after, hshown⟩ := Text.exists_replacement hbroken
  have hsize : UInt64.size = 2 ^ 64 := rfl
  have hvalid : (Text.validStart bytes).length ≤ bytes.length :=
    (Text.length_le_utf8 _).trans hstart.starts.length_le
  have hbounds := Position.behind_bounds (Text.validStart bytes) []
  rw [List.append_nil] at hbounds
  have hread : Location.ofMessage (encodingMessage bytes) =
      ofPosition (Position.behind (Text.validStart bytes)) :=
    ofMessage_encodingMessage (Position.start_after _) (by omega) (by omega)
  have hsource : (ofBytes file bytes).source.toList =
      Text.validStart bytes ++ '\uFFFD' :: after := by
    rw [ofBytes, ofMessage, hshown]
    exact String.toList_ofList
  have hexcerpt : (ofBytes file bytes).excerpt.toList = Excerpt.around
      (ofBytes file bytes).source.toList (Position.behind (Text.validStart bytes)).line := by
    rw [ofBytes, ofMessage, hread]
    exact String.toList_ofList
  have hpos : 1 ≤ (Position.behind (Text.validStart bytes)).line := Nat.le_add_right 1 _
  have hline : (Position.behind (Text.validStart bytes)).line ≤
      (Text.split '\n' (ofBytes file bytes).source.toList).length := by
    rw [Text.length_split, hsource, List.count_append, Position.behind]
    dsimp only
    omega
  exact {
    location_eq := hread
    message_eq := congrArg (fun p : Position => "Invalid UTF-8 sequence" ++ p.phrase)
      (Position.start_after (Text.validStart bytes))
    source_eq := rfl
    replaced := ⟨Text.validStart bytes, after, hsource, hstart, rfl⟩
    character := hsource ▸ Text.getElem?_behind _ _ (by decide)
    excerpt_ne := by
      intro hempty
      rw [hempty] at hexcerpt
      exact Excerpt.around_ne_nil hpos hline hexcerpt.symm
    marks := by
      rw [hexcerpt]
      refine Excerpt.marks_around hpos ?_
      rwa [Text.lines, List.length_map] }

/-- The source of a file that can be read is a text exactly if the content is the encoding of that
text. Otherwise it is a failure that points at the first broken sequence of the content, at whatever
length below 2 ^ 63 bytes a file can have. -/
theorem FileTree.source_of_read {tree : FileTree} {path : String} {bytes : List UInt8}
    (hread : tree.read path = .ok bytes) :
    (∀ text : String, tree.source path = .ok (.ok text) ↔ bytes = text.toUTF8.data.toList) ∧
      ((∀ text : String, bytes ≠ text.toUTF8.data.toList) → bytes.length < 2 ^ 63 →
        ∃ failure line column, tree.source path = .ok (.error failure) ∧
          failure.PointsAtBreak bytes line column) := by
  have hsource : tree.source path = .ok (sourceOfBytes path bytes) := by rw [source, hread]
  rw [hsource]
  cases hutf8 : Text.ofUtf8? bytes with
  | none =>
    have hnone (text : String) : bytes ≠ text.toUTF8.data.toList := by
      intro h
      rw [Text.toList_data_toUTF8, ← Text.ofUtf8?_eq_some_iff, hutf8] at h
      contradiction
    have hfailure : sourceOfBytes path bytes = .error (.ofBytes path bytes) := by
      rw [sourceOfBytes, hutf8]
    rw [hfailure]
    refine ⟨fun text => iff_of_false (by simp) (hnone text), fun _ hlength => ?_⟩
    exact ⟨_, _, _, rfl, ParseFailure.pointsAtBreak_ofBytes hutf8 hlength path⟩
  | some found =>
    have hbytes := Text.ofUtf8?_eq_some_iff.1 hutf8
    have hfound : sourceOfBytes path bytes = .ok (String.ofList found) := by
      rw [sourceOfBytes, hutf8]
    have hencoded : bytes = (String.ofList found).toUTF8.data.toList := by
      rw [Text.toList_data_toUTF8, String.toList_ofList, hbytes]
    rw [hfound]
    refine ⟨fun text => ?_, fun hne => absurd hencoded (hne _)⟩
    rw [Text.toList_data_toUTF8, ← Text.ofUtf8?_eq_some_iff, hutf8]
    constructor
    · intro h
      rw [← Except.ok.inj (Except.ok.inj h), String.toList_ofList]
    · intro h
      rw [Option.some.inj h, String.ofList_toList]

/-- A file whose second line ends in the first two bytes of a character of three. -/
def FileTree.truncated : FileTree :=
  ⟨[("cut.neon", .file [0xc3, 0xa9, 0x0a, 0x61, 0xe2, 0x82])], []⟩

/-- The failure of a file that ends inside a character points there. -/
theorem FileTree.source_of_read_truncated :
    truncated.read "cut.neon" = .ok [0xc3, 0xa9, 0x0a, 0x61, 0xe2, 0x82] ∧
      ∃ failure line column, truncated.source "cut.neon" = .ok (.error failure) ∧
        failure.PointsAtBreak [0xc3, 0xa9, 0x0a, 0x61, 0xe2, 0x82] line column := by
  have hread : truncated.read "cut.neon" = .ok [0xc3, 0xa9, 0x0a, 0x61, 0xe2, 0x82] := rfl
  refine ⟨hread, (source_of_read hread).2 (fun text h => ?_) (by decide)⟩
  have hbroken : Text.ofUtf8? [0xc3, 0xa9, 0x0a, 0x61, 0xe2, 0x82] = none := by decide +kernel
  rw [Text.toList_data_toUTF8, ← Text.ofUtf8?_eq_some_iff, hbroken] at h
  contradiction

example : (FileTree.truncated.source "cut.neon").map
    (·.mapError fun failure => (failure.location, failure.excerpt)) =
      .ok (.error (⟨some 2, some 2⟩, "1: é\n2: >>a\uFFFD<<\n")) := by decide +kernel

end NeonAudit
