/-!
# Positions in a text

A position is a line and a column, both counted from one; columns count characters. Reading a line
feed moves to the start of the next line, and any other character to the next column.
-/

namespace NeonAudit

/-- A place in a text. -/
structure Position where
  /-- The line, counted from one. -/
  line : Nat
  /-- The column in characters, counted from one. -/
  column : Nat
deriving DecidableEq

namespace Position

/-- The place before the first character. -/
def start : Position :=
  ⟨1, 1⟩

/-- The place after one more character. -/
def next (p : Position) (c : Char) : Position :=
  if c = '\n' then ⟨p.line + 1, 1⟩ else ⟨p.line, p.column + 1⟩

/-- The place after more text. -/
def after (p : Position) (text : List Char) : Position :=
  text.foldl next p

@[simp] theorem after_nil (p : Position) : p.after [] = p := rfl

@[simp] theorem after_cons (p : Position) (c : Char) (text : List Char) :
    p.after (c :: text) = (p.next c).after text := rfl

/-- Text can be read in parts. -/
theorem after_append (p : Position) (first rest : List Char) :
    p.after (first ++ rest) = (p.after first).after rest :=
  List.foldl_append

end Position

end NeonAudit
