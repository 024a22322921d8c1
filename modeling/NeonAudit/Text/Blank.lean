import NeonAudit.Text.CharRange

/-!
# Blank characters

The characters with the Unicode property `White_Space`. They close the indicators `:` and `-`, and
they are trimmed from the literal at the end of a value rule.
-/

namespace NeonAudit.Text

/-- The code points of the property `White_Space`. -/
def blankRanges : List (Nat × Nat) :=
  [(0x9, 0xd), (0x20, 0x20), (0x85, 0x85), (0xa0, 0xa0), (0x1680, 0x1680), (0x2000, 0x200a),
   (0x2028, 0x2029), (0x202f, 0x202f), (0x205f, 0x205f), (0x3000, 0x3000)]

/-- Whether `c` is white space. -/
def isBlank (c : Char) : Bool :=
  inRanges blankRanges c

/-- The text without the blank characters at its two ends. -/
def trimBlank (text : List Char) : List Char :=
  ((text.dropWhile isBlank).reverse.dropWhile isBlank).reverse

/-- Trimming a text adds no character. -/
theorem mem_of_mem_trimBlank {text : List Char} {c : Char} (h : c ∈ trimBlank text) : c ∈ text := by
  rw [trimBlank, List.mem_reverse] at h
  have hend := (List.dropWhile_suffix isBlank).subset h
  rw [List.mem_reverse] at hend
  exact (List.dropWhile_suffix isBlank).subset hend

end NeonAudit.Text
