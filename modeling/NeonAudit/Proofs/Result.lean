import Mathlib.Data.List.Forall2
import NeonAudit.Result

/-!
# Steps over lists

A step that can fail is done for every member of a list, one after another. The whole ends in a
result exactly if each of the steps does, and the results stand in the order of the members.
-/

namespace NeonAudit.Result

variable {ε α β : Type}

/-- What is a result under another error was one before. -/
theorem of_mapError_eq_ok {ε' : Type} {f : ε → ε'} {x : Except ε α} {a : α}
    (h : x.mapError f = .ok a) : x = .ok a := by
  cases x with
  | error e => contradiction
  | ok b => exact congrArg Except.ok (Except.ok.inj h)

/-- Steps over a list end in the list of the results of the steps. -/
theorem mapM_eq_ok_iff {f : α → Except ε β} {as : List α} {bs : List β} :
    as.mapM f = .ok bs ↔ List.Forall₂ (fun a b => f a = .ok b) as bs := by
  induction as generalizing bs with
  | nil =>
    rw [List.mapM_nil, List.forall₂_nil_left_iff]
    constructor
    · intro h
      exact (Except.ok.inj h).symm
    · intro h
      rw [h]
      rfl
  | cons a as ih =>
    rw [List.mapM_cons, List.forall₂_cons_left_iff]
    constructor
    · intro h
      cases ha : f a with
      | error e =>
        rw [ha] at h
        contradiction
      | ok b =>
        rw [ha] at h
        obtain ⟨rest, hrest, hbs⟩ := of_map_eq_ok (x := as.mapM f) (f := (b :: ·)) h
        exact ⟨b, rest, rfl, ih.1 hrest, hbs.symm⟩
    · intro h
      obtain ⟨b, rest, ha, hrest, rfl⟩ := h
      rw [ha, ih.2 hrest]
      rfl

/-- What is selected among the results of steps and turned back is what the steps were made of, where
their results are selected. -/
theorem map_filter_eq_filter {f : α → Except ε β} {g : β → α}
    (hback : ∀ {a b}, f a = .ok b → g b = a) {as : List α} {bs : List β}
    (h : List.Forall₂ (fun a b => f a = .ok b) as bs) (selects : β → Bool) :
    (bs.filter selects).map g = as.filter fun a => (f a).toOption.any selects := by
  induction h with
  | nil => rfl
  | @cons a b as bs hstep _ ih =>
    have hany : (f a).toOption.any selects = selects b := by rw [hstep]; rfl
    rw [List.filter_cons, List.filter_cons, hany]
    split
    · rw [List.map_cons, ih, hback hstep]
    · exact ih

end NeonAudit.Result
