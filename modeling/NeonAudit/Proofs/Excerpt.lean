import NeonAudit.Excerpt

/-!
# Excerpts mark their lines

The excerpt around a line that exists consists of the last lines before it, the line itself and the
first lines after it. All of them are numbered as in the source, and only the line itself is marked.
-/

namespace NeonAudit.Excerpt

/-- Lines are numbered on after other lines. -/
theorem numberedText_append (width target first : Nat) (above below : List (List Char)) :
    numberedText width target first (above ++ below) =
      numberedText width target first above ++
        numberedText width target (first + above.length) below := by
  induction above generalizing first with
  | nil => rfl
  | cons line above ih =>
    rw [List.cons_append, numberedText, numberedText, ih, List.length_cons, List.append_assoc,
      Nat.add_assoc, Nat.add_comm 1]

/-- An excerpt shows the line of a number between marks, after the lines that end just before it and
before the lines that start just after it. -/
def Marks (source : List Char) (number : Nat) (excerpt : List Char) : Prop :=
  ∃ width above line below,
    above <:+ (Text.lines source).take (number - 1) ∧
      (Text.lines source)[number - 1]? = some line ∧
      below <+: (Text.lines source).drop number ∧
      excerpt = numberedText width number (number - above.length) above ++
        (padLeft ' ' width (decimalText number) ++ [':', ' ', '>', '>'] ++ line ++
          ['<', '<', '\n']) ++
        numberedText width number (number + 1) below

/-- The lines from one before a line up to one after it. -/
theorem take_drop_eq_append {α : Type} {all : List α} {line : α} {first number last : Nat}
    (hline : all[number - 1]? = some line) (hfirst : 1 ≤ first) (hle : first ≤ number)
    (hlast : number ≤ last) :
    (all.drop (first - 1)).take (last + 1 - first) =
      (all.take (number - 1)).drop (first - 1) ++ line :: (all.drop number).take (last - number) := by
  obtain ⟨hlt, rfl⟩ := List.getElem?_eq_some_iff.1 hline
  have hsplit : all = all.take (number - 1) ++ all[number - 1] :: all.drop number := by
    have hdrop := List.drop_eq_getElem_cons hlt
    rw [Nat.sub_add_cancel (by omega)] at hdrop
    rw [← hdrop, List.take_append_drop]
  have hlength : (all.take (number - 1)).length = number - 1 := by
    rw [List.length_take]
    omega
  have habove : ((all.take (number - 1)).drop (first - 1)).length = number - first := by
    rw [List.length_drop, hlength]
    omega
  have hcount : last + 1 - first = number - first + (last - number + 1) := by omega
  have hdropped : all.drop (first - 1) =
      (all.take (number - 1)).drop (first - 1) ++ all[number - 1] :: all.drop number :=
    (congrArg (List.drop (first - 1)) hsplit).trans (List.drop_append_of_le_length (by omega))
  rw [hdropped, hcount, ← habove, List.take_length_add_append, List.take_succ_cons]

/-- The excerpt around a line that exists marks it. -/
theorem marks_around {source : List Char} {number : Nat} (hpos : 1 ≤ number)
    (hle : number ≤ (Text.lines source).length) : Marks source number (around source number) := by
  obtain ⟨line, hline⟩ : ∃ line, (Text.lines source)[number - 1]? = some line :=
    ⟨_, List.getElem?_eq_getElem (by omega)⟩
  let first := max 1 (number - context)
  let last := min (Text.lines source).length (number + context)
  have hlength : (((Text.lines source).take (number - 1)).drop (first - 1)).length =
      number - first := by
    rw [List.length_drop, List.length_take]
    omega
  refine ⟨(decimalText last).length, ((Text.lines source).take (number - 1)).drop (first - 1), line,
    ((Text.lines source).drop number).take (last - number), List.drop_suffix .., hline,
    List.take_prefix .., ?_⟩
  have hnumber : first + (number - first) = number := by omega
  have hback : number - (number - first) = first := by omega
  rw [around, if_neg (by simp; omega), hlength, hback]
  dsimp only
  rw [take_drop_eq_append hline (by omega) (by omega) (by omega), numberedText_append, hlength,
    hnumber, numberedText, lineText, if_pos rfl]
  simp only [List.append_assoc, List.cons_append, List.nil_append]
  rfl

end NeonAudit.Excerpt
