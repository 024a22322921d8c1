import Mathlib.Data.List.Induction
import Mathlib.Data.List.TakeWhile
import NeonAudit.Position
import NeonAudit.Text.Split

/-!
# Places in a text

The place behind a text is found by counting its line feeds and the characters after the last of
them. Reading the text leads there from the start, and the line of that number begins with those
characters.
-/

namespace NeonAudit

/-- The text after the last line feed. -/
def Text.lastLine (text : List Char) : List Char :=
  (text.reverse.takeWhile (· ≠ '\n')).reverse

@[simp] theorem Text.lastLine_nil : Text.lastLine [] = [] := rfl

/-- A line feed starts a new line, and any other character continues the last one. -/
theorem Text.lastLine_concat (text : List Char) (c : Char) :
    Text.lastLine (text ++ [c]) = if c = '\n' then [] else Text.lastLine text ++ [c] := by
  rw [Text.lastLine, List.reverse_append, List.reverse_singleton, List.singleton_append,
    List.takeWhile_cons]
  by_cases h : c = '\n' <;> simp [h, Text.lastLine]

/-- A text without line feeds continues the last line. -/
theorem Text.lastLine_append (text : List Char) {more : List Char} (h : '\n' ∉ more) :
    Text.lastLine (text ++ more) = Text.lastLine text ++ more := by
  induction more using List.reverseRecOn with
  | nil => rw [List.append_nil, List.append_nil]
  | append_singleton more c ih =>
    rw [List.mem_append, List.mem_singleton, not_or] at h
    rw [← List.append_assoc, Text.lastLine_concat, if_neg (Ne.symm h.2), ih h.1, List.append_assoc]

/-- The last line of a text without line feeds is all of it. -/
theorem Text.lastLine_eq_self {text : List Char} (h : '\n' ∉ text) : Text.lastLine text = text := by
  have hlast := Text.lastLine_append [] h
  rwa [List.nil_append, Text.lastLine_nil, List.nil_append] at hlast

/-- What is before a line feed does not matter for the last line. -/
theorem Text.lastLine_append_cons (first rest : List Char) :
    Text.lastLine (first ++ '\n' :: rest) = Text.lastLine rest := by
  induction rest using List.reverseRecOn with
  | nil => rw [Text.lastLine_concat, if_pos rfl, Text.lastLine_nil]
  | append_singleton rest c ih =>
    rw [← List.cons_append, ← List.append_assoc, Text.lastLine_concat, ih, Text.lastLine_concat]

/-- The place behind a text: one line more than it has line feeds, and one column more than there
are characters after the last of them. -/
def Position.behind (text : List Char) : Position :=
  ⟨1 + text.count '\n', 1 + (Text.lastLine text).length⟩

/-- Reading a text from the start leads to the place behind it. -/
theorem Position.start_after (text : List Char) : start.after text = behind text := by
  induction text using List.reverseRecOn with
  | nil => rfl
  | append_singleton text c ih =>
    rw [after_append, ih, after_cons, after_nil, behind, behind, next, Text.lastLine_concat,
      List.count_append]
    by_cases h : c = '\n'
    · simp [h, Nat.add_assoc]
    · simp [h, Nat.add_assoc]

/-- More text leads from the place behind a text to the place behind both. -/
theorem Position.behind_after (first rest : List Char) :
    (behind first).after rest = behind (first ++ rest) := by
  rw [← start_after, ← start_after, after_append]

/-- Text without line feeds leads along its line. -/
theorem Position.after_of_notMem {text : List Char} (h : '\n' ∉ text) (p : Position) :
    p.after text = ⟨p.line, p.column + text.length⟩ := by
  induction text generalizing p with
  | nil => rfl
  | cons c text ih =>
    rw [List.mem_cons, not_or] at h
    rw [after_cons, ih h.2, next, if_neg (Ne.symm h.1), List.length_cons, Nat.add_right_comm]
    rfl

/-- The first part of a text is the text before its first separator. -/
theorem Text.head?_split (separator : Char) (text : List Char) :
    (Text.split separator text).head? = some (text.takeWhile (· ≠ separator)) := by
  induction text with
  | nil => rfl
  | cons c text ih =>
    rw [Text.split]
    by_cases h : c = separator
    · simp [h]
    · rw [if_neg h, List.takeWhile_cons_of_pos (by simpa using h)]
      split
      · rename_i hnil
        exact absurd hnil (Text.split_ne_nil separator text)
      · rename_i part parts hparts
        rw [hparts, List.head?_cons, Option.some.injEq] at ih
        rw [List.head?_cons, ih]

/-- There is one part more than there are separators. -/
theorem Text.length_split (separator : Char) (text : List Char) :
    (Text.split separator text).length = text.count separator + 1 := by
  induction text with
  | nil => rfl
  | cons c text ih =>
    rw [Text.split]
    by_cases h : c = separator
    · rw [if_pos h, List.length_cons, ih, h, List.count_cons_self]
    · rw [if_neg h, List.count_cons_of_ne h, ← ih]
      split
      · rename_i hnil
        exact absurd hnil (Text.split_ne_nil separator text)
      · rename_i part parts hparts
        rw [hparts, List.length_cons, List.length_cons]

/-- The line on which a text ends, when more text follows, is its last line with what follows up to
the next line feed. -/
theorem Text.getElem?_split (before after : List Char) :
    (Text.split '\n' (before ++ after))[before.count '\n']? =
      some (Text.lastLine before ++ after.takeWhile (· ≠ '\n')) := by
  induction before with
  | nil =>
    rw [List.nil_append, List.count_nil, ← List.head?_eq_getElem?, Text.head?_split]
    rfl
  | cons c before ih =>
    rw [List.cons_append, Text.split]
    by_cases hc : c = '\n'
    · rw [if_pos hc, hc, List.count_cons_self, List.getElem?_cons_succ, ih]
      exact congrArg (fun line => some (line ++ _)) (Text.lastLine_append_cons [] before).symm
    · rw [if_neg hc, List.count_cons_of_ne hc]
      obtain ⟨part, parts, hparts⟩ :=
        List.exists_cons_of_ne_nil (Text.split_ne_nil '\n' (before ++ after))
      rw [hparts] at ih ⊢
      by_cases hmem : '\n' ∈ before
      · obtain ⟨first, rest, rfl⟩ := List.append_of_mem hmem
        obtain ⟨n, hn⟩ := Nat.exists_eq_succ_of_ne_zero (List.count_pos_iff.2 hmem).ne'
        rw [hn, List.getElem?_cons_succ] at ih ⊢
        rw [ih, ← List.cons_append, Text.lastLine_append_cons, Text.lastLine_append_cons]
      · have hcons : '\n' ∉ c :: before := fun h => (List.mem_cons.1 h).elim (hc ∘ Eq.symm) hmem
        rw [List.count_eq_zero.2 hmem, List.getElem?_cons_zero] at ih ⊢
        rw [Text.lastLine_eq_self hmem, Option.some.injEq] at ih
        rw [Text.lastLine_eq_self hcons, ih, List.cons_append]

end NeonAudit
