import NeonAudit.Value

/-!
# Paths through nested mappings

A path is a list of keys. It leads from a value through nested mappings to at most one value, and
nowhere from a value that is no mapping.
-/

namespace NeonAudit.Value

/-- The value to which a path leads. -/
def getPath? : Value → (path : List String) → Option Value
  | value, [] => some value
  | value, key :: path => (value.get? key).bind fun child => getPath? child path

/-- The mappings with one entry each that are nested along a path and end in a value. -/
def nestAlong (path : List String) (value : Value) : Value :=
  path.foldr single value

@[simp] theorem getPath?_nil (value : Value) : value.getPath? [] = some value := rfl

@[simp] theorem getPath?_cons (value : Value) (key : String) (path : List String) :
    value.getPath? (key :: path) = (value.get? key).bind fun child => child.getPath? path := rfl

/-- A path leads to related values in related trees if every key does. -/
theorem exists_getPath?_of_forall_get? {R : Value → Value → Prop} {first second : Value}
    (hR : ∀ {a b}, R a b → ∀ key child, a.get? key = some child →
      ∃ other, b.get? key = some other ∧ R child other)
    (h : R first second) {path : List String} {found : Value}
    (hpath : first.getPath? path = some found) :
    ∃ other, second.getPath? path = some other ∧ R found other := by
  induction path generalizing first second with
  | nil =>
    obtain rfl := Option.some.inj hpath
    exact ⟨second, rfl, h⟩
  | cons key path ih =>
    rw [getPath?_cons] at hpath
    obtain ⟨child, hget, hchild⟩ := Option.bind_eq_some_iff.1 hpath
    obtain ⟨other, hget', hother⟩ := hR h key child hget
    obtain ⟨end', hpath', hend⟩ := ih hother hchild
    refine ⟨end', ?_, hend⟩
    rw [getPath?_cons, hget', Option.bind_some, hpath']

/-- The path of nested mappings leads to the value at their end. -/
theorem getPath?_nestAlong (path : List String) (value : Value) :
    (nestAlong path value).getPath? path = some value := by
  induction path with
  | nil => simp [nestAlong]
  | cons key path ih => simpa [nestAlong, single, get?, Entries.get?] using ih

end NeonAudit.Value
