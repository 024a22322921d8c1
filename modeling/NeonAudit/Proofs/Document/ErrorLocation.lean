import NeonAudit.Proofs.Document.ErrorPosition
import NeonAudit.Proofs.Excerpt
import NeonAudit.Proofs.Location
import NeonAudit.Report

/-!
# Locations of decoding errors

The message of an error quotes text of the source before it names the position. So the first phrase
of the message is that of the position unless the quoted text has a phrase, and where the location
of the message is the position of the error, the excerpt marks the line of the error.
-/

namespace NeonAudit

open Location

/-- The last line of a text is not longer than the text. -/
theorem Text.length_lastLine_le (text : List Char) : (Text.lastLine text).length ≤ text.length := by
  have hle := (List.takeWhile_sublist (· ≠ '\n') (l := text.reverse)).length_le
  rwa [List.length_reverse, ← List.length_reverse] at hle

/-- The line and the column behind a part of a text are at most one more than the text is long. -/
theorem Position.behind_bounds (before after : List Char) :
    (behind before).line ≤ (before ++ after).length + 1 ∧
      (behind before).column ≤ (before ++ after).length + 1 := by
  have hcount : before.count '\n' ≤ before.length := List.count_le_length
  have hlast := Text.length_lastLine_le before
  rw [List.length_append, behind]
  dsimp only
  omega

/-- An error of decoding is on a line of the source. -/
theorem exists_line_of_decode {source : String} {e : DecodeError}
    (h : decode source = .error (.malformed e)) :
    1 ≤ e.position.line ∧ e.position.line ≤ (Text.lines source.toList).length := by
  obtain ⟨before, after, happend, hposition, -⟩ := exists_showsAt_of_decode h
  have hlines : (Text.lines source.toList).length = (before ++ after).count '\n' + 1 := by
    rw [Text.lines, List.length_map, Text.length_split, happend]
  rw [hlines, hposition, Position.behind, List.count_append]
  dsimp only
  omega

/-- The message of an error is read as its position exactly if the first phrase in what the message
quotes, if there is one, names that position too; then the excerpt of the failure marks the line of
the error. -/
theorem ofMessage_eq_iff_of_decode {source : String} {e : DecodeError}
    (h : decode source = .error (.malformed e)) (hlength : source.length < 2 ^ 63) :
    (ofMessage e.message = ofPosition e.position ↔
        ∀ found ∈ firstPhrase? e.cause.quoted, found = ofPosition e.position) ∧
      (ofMessage e.message = ofPosition e.position → ∀ file,
        Excerpt.Marks source.toList e.position.line
          (ParseFailure.ofMessage file e.message source).excerpt.toList) := by
  have hsize : UInt64.size = 2 ^ 64 := rfl
  have hlocation : ofMessage e.message =
      (firstPhrase? e.cause.quoted).getD (ofPosition e.position) := by
    obtain ⟨before, after, happend, hposition, -⟩ := exists_showsAt_of_decode h
    have hbounds := Position.behind_bounds before after
    rw [← happend, ← hposition, String.length_toList] at hbounds
    exact DecodeError.ofMessage_message (by omega) (by omega)
  refine ⟨?_, fun hread file => ?_⟩
  · rw [hlocation]
    cases firstPhrase? e.cause.quoted <;> simp
  · have hline := exists_line_of_decode h
    have hexcerpt : (ParseFailure.ofMessage file e.message source).excerpt.toList =
        Excerpt.around source.toList e.position.line := by
      rw [ParseFailure.ofMessage, hread]
      exact String.toList_ofList
    rw [hexcerpt]
    exact Excerpt.marks_around hline.1 hline.2

/-- The message about a key that stands a second time names the line of the key, which the excerpt
marks. -/
theorem ofMessage_of_decode_duplicated :
    ofMessage "Duplicated key 'on line' on line 3, column 1." = ⟨some 3, some 1⟩ ∧
      Excerpt.Marks "on line: 1\nb: [2]\non line: 3".toList 3
        (ParseFailure.ofMessage "site.neon" "Duplicated key 'on line' on line 3, column 1."
          "on line: 1\nb: [2]\non line: 3").excerpt.toList := by
  have hdecode : decode "on line: 1\nb: [2]\non line: 3" =
      .error (.malformed ⟨.duplicatedKey "on line", ⟨3, 1⟩⟩) :=
    Result.of_map_eq_error (f := fun _ => ()) (by decide +kernel)
  obtain ⟨hiff, hmarks⟩ := ofMessage_eq_iff_of_decode hdecode (by decide)
  have hread := hiff.2 (by decide +kernel)
  exact ⟨hread, hmarks hread "site.neon"⟩

/-- The message about a string that stands where it cannot stand names the place that the string
speaks of instead of that of the string, and no line of the source is shown. -/
theorem ofMessage_of_decode_quoted_phrase :
    decode "a: [1] \"on line 9, column 9.\"" =
        .error (.malformed ⟨.unexpected "\"on line 9, column 9.\"", ⟨1, 8⟩⟩) ∧
      ofMessage (DecodeError.message ⟨.unexpected "\"on line 9, column 9.\"", ⟨1, 8⟩⟩) =
        ⟨some 9, some 9⟩ ∧
      (ParseFailure.ofMessage "site.neon"
        (DecodeError.message ⟨.unexpected "\"on line 9, column 9.\"", ⟨1, 8⟩⟩)
        "a: [1] \"on line 9, column 9.\"").excerpt = "" :=
  ⟨Result.of_map_eq_error (f := fun _ => ()) (by decide +kernel), by decide +kernel,
    by decide +kernel⟩

end NeonAudit
