/-!
# Splitting texts

A text is divided at every occurrence of a separator, or at the last one. Joining the parts with the
separator gives the text back.
-/

namespace NeonAudit.Text

/-- The parts of a text between the occurrences of a separator; there is always one part more than
there are separators. -/
def split (separator : Char) : List Char → List (List Char)
  | [] => [[]]
  | c :: text =>
    if c = separator then [] :: split separator text
    else
      match split separator text with
      | [] => [[c]]
      | part :: parts => (c :: part) :: parts

/-- The texts before and after the last occurrence of a separator. -/
def splitLast? (separator : Char) : List Char → Option (List Char × List Char)
  | [] => none
  | c :: text =>
    match splitLast? separator text with
    | some (before, after) => some (c :: before, after)
    | none => if c = separator then some ([], text) else none

/-- There is at least one part. -/
theorem split_ne_nil (separator : Char) (text : List Char) : split separator text ≠ [] := by
  unfold split
  split
  · exact List.cons_ne_nil _ _
  · split
    · exact List.cons_ne_nil _ _
    · split <;> exact List.cons_ne_nil _ _

/-- Joining the parts of a text gives it back. -/
theorem intercalate_split (separator : Char) (text : List Char) :
    [separator].intercalate (split separator text) = text := by
  induction text with
  | nil => rfl
  | cons c text ih =>
    unfold split
    obtain ⟨part, parts, hparts⟩ := List.exists_cons_of_ne_nil (split_ne_nil separator text)
    rw [hparts] at ih ⊢
    split
    · rename_i h
      rw [h, List.intercalate_cons_cons, ih]
      rfl
    · cases parts with
      | nil => simpa using ih
      | cons next rest =>
        rw [List.intercalate_cons_cons] at ih ⊢
        exact congrArg (c :: ·) ih

/-- The texts before and after the last separator make up the text, and the second one holds no
separator. -/
theorem append_of_splitLast? {separator : Char} {text before after : List Char}
    (h : splitLast? separator text = some (before, after)) :
    before ++ separator :: after = text ∧ separator ∉ after := by
  induction text generalizing before after with
  | nil => contradiction
  | cons c text ih =>
    unfold splitLast? at h
    split at h
    · rename_i before' after' hsplit
      cases h
      have hrest := ih hsplit
      exact ⟨congrArg (c :: ·) hrest.1, hrest.2⟩
    · rename_i hnone
      split at h
      · rename_i hc
        cases h
        refine ⟨by rw [hc]; rfl, fun hmem => ?_⟩
        exact absurd hnone (splitLast?_ne_none hmem)
      · contradiction
where
  splitLast?_ne_none {separator : Char} {text : List Char} (hmem : separator ∈ text) :
      splitLast? separator text ≠ none := by
    induction text with
    | nil => contradiction
    | cons c text ih =>
      unfold splitLast?
      split
      · exact Option.some_ne_none _
      · rename_i hnone
        rcases List.mem_cons.1 hmem with h | h
        · rw [if_pos h.symm]
          exact Option.some_ne_none _
        · exact absurd hnone (ih h)

end NeonAudit.Text
