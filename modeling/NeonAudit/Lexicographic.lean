/-!
# Lexicographic order

Of two sequences, the first difference decides which one stands before the other; a sequence stands
before those that go on after it. Main statements: if the order of the elements is total, transitive
and antisymmetric, then so is the order of the sequences.
-/

namespace NeonAudit.Lexicographic

variable {α : Type}

/-- Whether one sequence stands before another or is the same one, for an order of the elements. -/
def isAtMost (le : α → α → Bool) : List α → List α → Bool
  | [], _ => true
  | _ :: _, [] => false
  | a :: first, b :: second => le a b && (!le b a || isAtMost le first second)

/-- Of two sequences, one stands before the other or is the same one. -/
theorem isAtMost_total {le : α → α → Bool} (h : ∀ a b, (le a b || le b a) = true)
    (first second : List α) :
    (isAtMost le first second || isAtMost le second first) = true := by
  induction first generalizing second with
  | nil => rfl
  | cons a first ih =>
    cases second with
    | nil => rfl
    | cons b second =>
      have hab := h a b
      have hrest := ih second
      simp only [isAtMost]
      revert hab hrest
      cases le a b <;> cases le b a <;> simp

/-- A sequence before one that is before a third is before the third. -/
theorem isAtMost_trans {le : α → α → Bool} (h : ∀ a b c, le a b → le b c → le a c)
    {first second third : List α} (h₁ : isAtMost le first second)
    (h₂ : isAtMost le second third) : isAtMost le first third := by
  induction first generalizing second third with
  | nil => rfl
  | cons a first ih =>
    cases second with
    | nil => contradiction
    | cons b second =>
      cases third with
      | nil => contradiction
      | cons c third =>
        simp only [isAtMost, Bool.and_eq_true, Bool.or_eq_true, Bool.not_eq_true'] at h₁ h₂ ⊢
        refine ⟨h a b c h₁.1 h₂.1, ?_⟩
        cases hca : le c a with
        | false => exact .inl rfl
        | true =>
          have hba := h b c a h₂.1 hca
          have hcb := h c a b hca h₁.1
          exact .inr (ih (h₁.2.resolve_left (by simp [hba])) (h₂.2.resolve_left (by simp [hcb])))

/-- Two sequences that stand before each other are the same. -/
theorem eq_of_isAtMost {le : α → α → Bool} (h : ∀ a b, le a b → le b a → a = b)
    {first second : List α} (h₁ : isAtMost le first second)
    (h₂ : isAtMost le second first) : first = second := by
  induction first generalizing second with
  | nil =>
    cases second with
    | nil => rfl
    | cons => contradiction
  | cons a first ih =>
    cases second with
    | nil => contradiction
    | cons b second =>
      simp only [isAtMost, Bool.and_eq_true, Bool.or_eq_true, Bool.not_eq_true'] at h₁ h₂
      rw [h a b h₁.1 h₂.1]
      rw [ih (h₁.2.resolve_left (by simp [h₂.1])) (h₂.2.resolve_left (by simp [h₁.1]))]

end NeonAudit.Lexicographic
