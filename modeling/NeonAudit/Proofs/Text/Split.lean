import NeonAudit.Text.Split

/-!
# Dividing joined texts

A text is divided at the first separator into what stands before it and the parts of the rest, and
at the last one into what stands before and after it. So parts without separators that are joined
are found again.
-/

namespace NeonAudit.Text

/-- A text without separators is not divided. -/
theorem split_eq_singleton {separator : Char} {text : List Char} (h : separator ∉ text) :
    split separator text = [text] := by
  induction text with
  | nil => rfl
  | cons c text ih =>
    rw [List.mem_cons, not_or] at h
    rw [split, if_neg (Ne.symm h.1), ih h.2]

/-- The parts of a text have no separators. -/
theorem notMem_of_mem_split {separator : Char} {text part : List Char}
    (h : part ∈ split separator text) : separator ∉ part := by
  induction text generalizing part with
  | nil =>
    obtain rfl := List.mem_singleton.1 h
    exact List.not_mem_nil
  | cons c text ih =>
    rw [split] at h
    split at h
    · rcases List.mem_cons.1 h with rfl | h
      · exact List.not_mem_nil
      · exact ih h
    · rename_i hc
      obtain ⟨first, parts, hparts⟩ := List.exists_cons_of_ne_nil (split_ne_nil separator text)
      rw [hparts] at h ih
      rcases List.mem_cons.1 h with rfl | h
      · rw [List.mem_cons, not_or]
        exact ⟨Ne.symm hc, ih List.mem_cons_self⟩
      · exact ih (List.mem_cons_of_mem _ h)

/-- The parts before and after a separator are divided apart. -/
theorem split_append (separator : Char) (text rest : List Char) :
    split separator (text ++ separator :: rest) =
      split separator text ++ split separator rest := by
  induction text with
  | nil => exact if_pos rfl
  | cons c text ih =>
    rw [List.cons_append, split, split, ih]
    split
    · rfl
    · obtain ⟨part, parts, hparts⟩ := List.exists_cons_of_ne_nil (split_ne_nil separator text)
      rw [hparts]
      rfl

/-- A text is divided at the first separator. -/
theorem split_append_cons {separator : Char} {text : List Char} (h : separator ∉ text)
    (rest : List Char) :
    split separator (text ++ separator :: rest) = text :: split separator rest := by
  rw [split_append, split_eq_singleton h, List.singleton_append]

/-- Joined parts without separators are divided into the parts. -/
theorem split_intercalate {separator : Char} {parts : List (List Char)} (hne : parts ≠ [])
    (h : ∀ part ∈ parts, separator ∉ part) :
    split separator ([separator].intercalate parts) = parts := by
  induction parts with
  | nil => contradiction
  | cons part parts ih =>
    have hpart := h part List.mem_cons_self
    cases parts with
    | nil => rw [List.intercalate_singleton, split_eq_singleton hpart]
    | cons next parts =>
      have hrest := ih (List.cons_ne_nil _ _) fun part hmem => h part (List.mem_cons_of_mem _ hmem)
      rw [List.intercalate_cons_cons, List.append_assoc, List.singleton_append,
        split_append_cons hpart, hrest]

/-- Joined texts without separators are found again. -/
theorem map_ofList_split_intercalate {separator : Char} {texts : List String} (hne : texts ≠ [])
    (h : ∀ text ∈ texts, separator ∉ text.toList) :
    (split separator ([separator].intercalate (texts.map String.toList))).map String.ofList =
      texts := by
  have hparts : ∀ part ∈ texts.map String.toList, separator ∉ part := by
    intro part hpart
    obtain ⟨text, htext, rfl⟩ := List.mem_map.1 hpart
    exact h text htext
  rw [split_intercalate (by simpa using hne) hparts, List.map_map]
  simp [Function.comp_def]

/-- A text is not divided at a last separator exactly if it has none. -/
theorem splitLast?_eq_none_iff {separator : Char} {text : List Char} :
    splitLast? separator text = none ↔ separator ∉ text := by
  induction text with
  | nil => exact iff_of_true rfl List.not_mem_nil
  | cons c text ih =>
    rw [splitLast?, List.mem_cons, not_or, ← ih]
    cases hrest : splitLast? separator text with
    | some found => simp
    | none => simp [eq_comm]

/-- A text is divided at a separator after which there is none. -/
theorem splitLast?_append_cons {separator : Char} {after : List Char} (h : separator ∉ after)
    (before : List Char) :
    splitLast? separator (before ++ separator :: after) = some (before, after) := by
  induction before with
  | nil =>
    rw [List.nil_append, splitLast?, splitLast?_eq_none_iff.2 h]
    exact if_pos rfl
  | cons c before ih => rw [List.cons_append, splitLast?, ih]

end NeonAudit.Text
