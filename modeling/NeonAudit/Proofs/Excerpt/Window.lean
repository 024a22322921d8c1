import NeonAudit.Proofs.Excerpt
import NeonAudit.Proofs.Excerpt.Words
import NeonAudit.Proofs.Number.Digits
import NeonAudit.Proofs.Text.Split

/-!
# Excerpts are windows

The excerpt around a line that exists is a row for each line from the fifth before it to the fifth
after it, as far as these exist, and each row ends in its only line feed. A row is the number of its
line, aligned to the right, and the line without a carriage return at its end; only the line itself
stands between marks. There is nothing around a line that does not exist, and none of the numbers
involved is too large or too small for a word of 64 bits.
-/

namespace NeonAudit.Excerpt

/-- How a line is shown: a carriage return at its end, but only one, is left out. -/
inductive ShownAs : (line shown : List Char) → Prop
  | withReturn {shown} : ShownAs (shown ++ ['\r']) shown
  | unchanged {line} : line.getLast? ≠ some '\r' → ShownAs line line

/-- The row of the line with the given number, in an excerpt around the line `target`. -/
structure IsRow (width target number : Nat) (line row : List Char) : Prop where
  /-- The number fits the width. -/
  length_le : (decimalText number).length ≤ width
  /-- The number stands before the line, and the line between marks if it is the one in question. -/
  row_eq : ∃ shown, ShownAs line shown ∧
    row = List.replicate (width - (decimalText number).length) ' ' ++ decimalText number ++
      [':', ' '] ++ if number = target then ['>', '>'] ++ shown ++ ['<', '<'] else shown
  /-- A row is on one line. -/
  lineFeed_notMem : '\n' ∉ row

/-- The number of the first line that an excerpt shows. -/
def firstShown (target : Nat) : Nat :=
  max 1 (target - 5)

/-- The number of the last line that an excerpt shows of so many. -/
def lastShown (count target : Nat) : Nat :=
  min count (target + 5)

/-- The lines of a source, and rows for those of them that are at most five from a line. -/
structure IsWindow (source : List Char) (target : Nat) (lines rows : List (List Char)) : Prop where
  /-- The lines joined with line feeds are the source. -/
  intercalate_eq : ['\n'].intercalate lines = source
  /-- No line holds a line feed. -/
  lineFeed_notMem : ∀ line ∈ lines, '\n' ∉ line
  /-- There is one line more than there are line feeds. -/
  length_lines : lines.length = source.count '\n' + 1
  /-- There are rows from the first line shown to the last one. -/
  length_rows : rows.length = lastShown lines.length target + 1 - firstShown target
  /-- The rows are those of the lines in order, as wide as the number of the last one. -/
  isRow : ∀ number, firstShown target ≤ number → number ≤ lastShown lines.length target →
    ∃ line row, lines[number - 1]? = some line ∧ rows[number - firstShown target]? = some row ∧
      IsRow (decimalText (lastShown lines.length target)).length target number line row

/-- A line without a carriage return at its end is the line as it is shown. -/
theorem shownAs_withoutReturn (line : List Char) : ShownAs line (Text.withoutReturn line) := by
  rw [Text.withoutReturn]
  split
  · rename_i h
    obtain ⟨shown, rfl⟩ := List.getLast?_eq_some_iff.1 h
    rw [List.dropLast_concat]
    exact .withReturn
  · rename_i h
    exact .unchanged h

/-- A smaller number has no more digits. -/
theorem length_decimalText_le {a b : Nat} (h : a ≤ b) :
    (decimalText a).length ≤ (decimalText b).length := by
  have hpos : 0 < (decimalText b).length := Nat.length_toDigits_pos
  have hlt := (Nat.length_toDigits_le_iff (n := b) (by decide) hpos).1 (Nat.le_refl _)
  exact (Nat.length_toDigits_le_iff (by decide) hpos).2 (Nat.lt_of_le_of_lt h hlt)

/-- A numbered line without the line feed that ends it. -/
def rowText (width target number : Nat) (line : List Char) : List Char :=
  padLeft ' ' width (decimalText number) ++ [':', ' '] ++
    if number = target then ['>', '>'] ++ line ++ ['<', '<'] else line

/-- Numbered lines are rows, each with a line feed after it. -/
theorem numberedText_eq_flatMap (width target first : Nat) (lines : List (List Char)) :
    numberedText width target first lines =
      (List.zipWith (rowText width target) (List.range' first lines.length) lines).flatMap
        (· ++ ['\n']) := by
  induction lines generalizing first with
  | nil => rfl
  | cons line lines ih =>
    rw [numberedText, ih, List.length_cons, List.range'_succ, List.zipWith_cons_cons,
      List.flatMap_cons, lineText, rowText]

/-- The row of a line that has no line feed. -/
theorem isRow_rowText {width target number : Nat} {line : List Char}
    (hwidth : (decimalText number).length ≤ width) (hline : '\n' ∉ line) :
    IsRow width target number line (rowText width target number (Text.withoutReturn line)) where
  length_le := hwidth
  row_eq := ⟨Text.withoutReturn line, shownAs_withoutReturn line, rfl⟩
  lineFeed_notMem := by
    have hnumber : '\n' ∉ padLeft ' ' width (decimalText number) := by
      rw [padLeft, List.mem_append, not_or]
      constructor
      · intro hmem
        exact absurd (List.eq_of_mem_replicate hmem) (by decide)
      · intro hmem
        exact absurd (isDigit_of_mem_decimalText hmem) (by decide)
    have hshown : '\n' ∉ Text.withoutReturn line := by
      rw [Text.withoutReturn]
      split
      · intro hmem
        exact hline (List.dropLast_subset _ hmem)
      · exact hline
    rw [rowText]
    split
    · simp [hnumber, hshown]
    · simp [hnumber, hshown]

/-- The excerpt around a line that exists is a window. -/
theorem exists_isWindow {source : List Char} {target : Nat} (hpos : 1 ≤ target)
    (hle : target ≤ source.count '\n' + 1) :
    ∃ lines rows, IsWindow source target lines rows ∧
      around source target = rows.flatMap (· ++ ['\n']) := by
  have hlength := Text.length_split '\n' source
  have hlines : (Text.lines source).length = (Text.split '\n' source).length := List.length_map _
  let first := firstShown target
  let last := lastShown (Text.split '\n' source).length target
  let shown := ((Text.lines source).drop (first - 1)).take (last + 1 - first)
  have hfirst : 1 ≤ first := Nat.le_max_left 1 _
  have hlast : last ≤ (Text.split '\n' source).length := Nat.min_le_left ..
  have hshown : shown.length = last + 1 - first := by
    rw [List.length_take, List.length_drop, hlines]
    omega
  refine ⟨Text.split '\n' source, List.zipWith (rowText (decimalText last).length target)
    (List.range' first shown.length) shown, ?_, ?_⟩
  · exact {
      intercalate_eq := Text.intercalate_split '\n' source
      lineFeed_notMem := fun _ => Text.notMem_of_mem_split
      length_lines := hlength
      length_rows := by
        rw [List.length_zipWith, List.length_range', Nat.min_self, hshown]
      isRow := by
        intro number hge hnumber
        change first ≤ number at hge
        change number ≤ last at hnumber
        obtain ⟨line, hline⟩ : ∃ line, (Text.split '\n' source)[number - 1]? = some line :=
          ⟨_, List.getElem?_eq_getElem (by omega)⟩
        have hindex : first - 1 + (number - first) = number - 1 := by omega
        have hthere : shown[number - first]? = some (Text.withoutReturn line) := by
          rw [List.getElem?_take_of_lt (by omega), List.getElem?_drop, hindex, Text.lines,
            List.getElem?_map, hline, Option.map_some]
        have hnumbered : (List.range' first shown.length)[number - first]? = some number := by
          rw [List.getElem?_range' (by omega)]
          exact congrArg some (by omega)
        refine ⟨line, rowText (decimalText last).length target number (Text.withoutReturn line),
          hline, ?_, isRow_rowText (length_decimalText_le hnumber)
            (Text.notMem_of_mem_split (List.mem_of_getElem? hline))⟩
        change (List.zipWith _ _ _)[number - first]? = _
        rw [List.getElem?_zipWith, hnumbered, hthere] }
  · have hexists : ¬(target = 0 ∨ (Text.lines source).length < target) := by omega
    rw [around, if_neg (by simpa using hexists), ← numberedText_eq_flatMap]
    dsimp only
    rw [hlines]
    rfl

/-- The excerpt around a line is empty if there is no such line, and a window of rows otherwise. For
a text of fewer than 2 ^ 63 characters it is found in words, so no sum, difference or index on the
way is out of range. -/
theorem around_window (source : List Char) (target : Nat) :
    (target = 0 ∨ source.count '\n' + 1 < target → around source target = []) ∧
      (1 ≤ target → target ≤ source.count '\n' + 1 → ∃ lines rows,
        IsWindow source target lines rows ∧ around source target = rows.flatMap (· ++ ['\n'])) ∧
      (source.length < 2 ^ 63 → ∀ word : UInt64, word.toNat = target →
        aroundInWords? source word = some (around source target)) := by
  refine ⟨fun hthere => ?_, exists_isWindow, fun hsize word hword => ?_⟩
  · have hlines : (Text.lines source).length = source.count '\n' + 1 :=
      (List.length_map _).trans (Text.length_split '\n' source)
    rw [around, if_pos (by simpa [hlines] using hthere)]
  · rw [← hword]
    exact aroundInWords?_eq hsize word

/-- Around the tenth of eleven lines, which ends in two carriage returns, there is a window, found in
words too, and around a twelfth line there is nothing. -/
theorem around_window_tenth :
    around "a\r\n\n\n\n\n\n\n\n\nb\r\r\n".toList 12 = [] ∧
      (∃ lines rows, IsWindow "a\r\n\n\n\n\n\n\n\n\nb\r\r\n".toList 10 lines rows ∧
        around "a\r\n\n\n\n\n\n\n\n\nb\r\r\n".toList 10 = rows.flatMap (· ++ ['\n'])) ∧
      aroundInWords? "a\r\n\n\n\n\n\n\n\n\nb\r\r\n".toList 10 =
        some (around "a\r\n\n\n\n\n\n\n\n\nb\r\r\n".toList 10) :=
  ⟨(around_window _ 12).1 (by decide +kernel),
    (around_window _ 10).2.1 (by decide) (by decide +kernel),
    (around_window _ 10).2.2 (by decide +kernel) 10 rfl⟩

example : around "a\r\n\n\n\n\n\n\n\n\nb\r\r\n".toList 10 =
    " 5: \n 6: \n 7: \n 8: \n 9: \n10: >>b\r<<\n11: \n".toList := by decide +kernel

end NeonAudit.Excerpt
