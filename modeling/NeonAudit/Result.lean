/-!
# Results of steps that can fail

A step ends in an error or in a result. The lemmas of this module recover what a mapped result was
made of, and what error it ends in.
-/

namespace NeonAudit.Result

/-- What is made of a result comes from a result. -/
theorem of_map_eq_ok {ε α β : Type} {f : α → β} {x : Except ε α} {b : β}
    (h : x.map f = .ok b) : ∃ a, x = .ok a ∧ f a = b := by
  cases x with
  | error e => contradiction
  | ok a => exact ⟨a, rfl, Except.ok.inj h⟩

/-- An error that a mapped result ends in is the error of the result. -/
theorem of_map_eq_error {ε α β : Type} {f : α → β} {x : Except ε α} {e : ε}
    (h : x.map f = .error e) : x = .error e := by
  cases x with
  | error e' => exact congrArg Except.error (Except.error.inj h)
  | ok a => contradiction

end NeonAudit.Result
