import NeonAudit.Number.Digits
import NeonAudit.Text.Lines

/-!
# Excerpts of a source

An excerpt shows a line of a source between the five lines before it and the five after it, as far
as they exist. Lines are numbered from one, the numbers are aligned to the right, and the line in
question stands between marks. Carriage returns at the ends of lines are not shown.
-/

namespace NeonAudit.Excerpt

/-- The number of lines shown before and after the line in question. -/
def context : Nat :=
  5

/-- A numbered line, with marks around it if it is the one in question. -/
def lineText (width target number : Nat) (line : List Char) : List Char :=
  let shown := if number = target then ['>', '>'] ++ line ++ ['<', '<'] else line
  padLeft ' ' width (decimalText number) ++ [':', ' '] ++ shown ++ ['\n']

/-- Numbered lines, of which the first has the given number. -/
def numberedText (width target number : Nat) : List (List Char) → List Char
  | [] => []
  | line :: rest =>
    lineText width target number line ++ numberedText width target (number + 1) rest

/-- The excerpt around a line of a source; it is empty if there is no such line. -/
def around (source : List Char) (target : Nat) : List Char :=
  let all := Text.lines source
  if target = 0 || all.length < target then []
  else
    let first := max 1 (target - context)
    let last := min all.length (target + context)
    let width := (decimalText last).length
    numberedText width target first ((all.drop (first - 1)).take (last + 1 - first))

end NeonAudit.Excerpt
