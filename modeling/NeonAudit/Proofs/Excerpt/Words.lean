import Mathlib.Algebra.Group.Nat.Defs
import NeonAudit.Excerpt
import NeonAudit.Proofs.Place

/-!
# Excerpts in machine words

The number of a line is a word of 64 bits, and so is the number of lines of a text. Computed in
words, an excerpt could fail: a sum can be too large for a word, a difference can be below zero, and
an index can be past the lines. None of this happens for a text of fewer than 2 ^ 63 characters, so
what is computed in words is the excerpt.
-/

namespace NeonAudit

namespace Word

/-- A number as a word, if it is one. -/
def ofNat? (n : Nat) : Option UInt64 :=
  if h : n < UInt64.size then some (.ofNatLT n h) else none

/-- The sum of two words, if it is a word. -/
def add? (a b : UInt64) : Option UInt64 :=
  ofNat? (a.toNat + b.toNat)

/-- The difference of two words, unless it is below zero. -/
def sub? (a b : UInt64) : Option UInt64 :=
  if b ≤ a then some (a - b) else none

/-- A number below the bound is a word. -/
theorem exists_ofNat? {n : Nat} (h : n < UInt64.size) : ∃ w, ofNat? n = some w ∧ w.toNat = n :=
  ⟨.ofNatLT n h, dif_pos h, UInt64.toNat_ofNatLT⟩

/-- A sum below the bound is a word. -/
theorem exists_add? {a b : UInt64} (h : a.toNat + b.toNat < UInt64.size) :
    ∃ w, add? a b = some w ∧ w.toNat = a.toNat + b.toNat :=
  exists_ofNat? h

/-- A word that is not less can be subtracted from. -/
theorem exists_sub? {a b : UInt64} (h : b.toNat ≤ a.toNat) :
    ∃ w, sub? a b = some w ∧ w.toNat = a.toNat - b.toNat :=
  have hle : b ≤ a := UInt64.le_iff_toNat_le.2 h
  ⟨a - b, if_pos hle, UInt64.toNat_sub_of_le a b hle⟩

/-- The difference of two words, or zero where it is below that. -/
theorem toNat_getD_sub? (a b : UInt64) : ((sub? a b).getD 0).toNat = a.toNat - b.toNat := by
  by_cases h : b.toNat ≤ a.toNat
  · obtain ⟨w, hw, hvalue⟩ := exists_sub? h
    rw [hw, Option.getD_some, hvalue]
  · rw [sub?, if_neg (by rwa [UInt64.le_iff_toNat_le]), Option.getD_none, UInt64.toNat_zero]
    omega

end Word

namespace Excerpt

/-- The numbered line of a number, unless there is no such line. -/
def lineInWords? (all : List (List Char)) (width : Nat) (target number : UInt64) :
    Option (List Char) := do
  let index ← Word.sub? number 1
  let line ← all[index.toNat]?
  return lineText width target.toNat number.toNat line

/-- The numbered lines from one on, with `more` lines after it. -/
def linesInWords? (all : List (List Char)) (width : Nat) (target : UInt64) :
    (more : Nat) → (number : UInt64) → Option (List Char)
  | 0, number => lineInWords? all width target number
  | more + 1, number => do
    let text ← lineInWords? all width target number
    let next ← Word.add? number 1
    let rest ← linesInWords? all width target more next
    return text ++ rest

/-- The excerpt around a line, computed in words; there is none where a sum is no word, a difference
is below zero, or a line is not there. -/
def aroundInWords? (source : List Char) (target : UInt64) : Option (List Char) := do
  let all := Text.lines source
  let count ← Word.ofNat? all.length
  if target = 0 ∨ count < target then return []
  else
    let first := max ((Word.sub? target (.ofNat context)).getD 0) 1
    let last := min (← Word.add? target (.ofNat context)) count
    let more ← Word.sub? last first
    linesInWords? all (decimalText last.toNat).length target more.toNat first

variable {all : List (List Char)} {width : Nat} {target number : UInt64}

/-- A line that exists is found in words. -/
theorem lineInWords?_eq {line : List Char} (hpos : 1 ≤ number.toNat)
    (hline : all[number.toNat - 1]? = some line) :
    lineInWords? all width target number =
      some (lineText width target.toNat number.toNat line) := by
  obtain ⟨index, hindex, hvalue⟩ := Word.exists_sub? (a := number) (b := 1) hpos
  rw [lineInWords?, hindex, Option.bind_eq_bind, Option.bind_some, hvalue]
  change (all[number.toNat - 1]?).bind _ = _
  rw [hline]
  rfl

/-- Lines that exist are found in words. -/
theorem linesInWords?_eq (hsize : all.length < UInt64.size) {more : Nat} (hpos : 1 ≤ number.toNat)
    (hle : number.toNat + more ≤ all.length) :
    linesInWords? all width target more number =
      some (numberedText width target.toNat number.toNat
        ((all.drop (number.toNat - 1)).take (more + 1))) := by
  induction more generalizing number with
  | zero =>
    have hlt : number.toNat - 1 < all.length := by omega
    rw [linesInWords?, lineInWords?_eq hpos (List.getElem?_eq_getElem hlt),
      List.drop_eq_getElem_cons hlt, List.take_succ_cons, List.take_zero, numberedText,
      numberedText, List.append_nil]
  | succ more ih =>
    have hlt : number.toNat - 1 < all.length := by omega
    have hnext : number.toNat + UInt64.toNat 1 < UInt64.size := by
      change number.toNat + 1 < UInt64.size
      omega
    obtain ⟨next, hsum, hvalue⟩ := Word.exists_add? hnext
    change next.toNat = number.toNat + 1 at hvalue
    have hback : number.toNat - 1 + 1 = next.toNat - 1 := by omega
    rw [linesInWords?, lineInWords?_eq hpos (List.getElem?_eq_getElem hlt), hsum,
      List.drop_eq_getElem_cons hlt, List.take_succ_cons, numberedText, hback, ← hvalue]
    simp only [Option.bind_eq_bind, Option.bind_some]
    rw [ih (by omega) (by omega)]
    rfl

/-- For a text of fewer than 2 ^ 63 characters the excerpt can be computed in words. -/
theorem aroundInWords?_eq {source : List Char} (hsize : source.length < 2 ^ 63) (target : UInt64) :
    aroundInWords? source target = some (around source target.toNat) := by
  have hwords : UInt64.size = 2 ^ 64 := rfl
  have hcontext : (UInt64.ofNat context).toNat = context := rfl
  have hfive : context = 5 := rfl
  have hone : UInt64.toNat 1 = 1 := rfl
  have hlines : (Text.lines source).length ≤ source.length + 1 := by
    have hcount : source.count '\n' ≤ source.length := List.count_le_length
    rw [Text.lines, List.length_map, Text.length_split]
    omega
  obtain ⟨count, hcount, hvalue⟩ := Word.exists_ofNat? (n := (Text.lines source).length) (by omega)
  have hzero : target = 0 ↔ target.toNat = 0 := UInt64.toNat_inj.symm
  rw [aroundInWords?, around, hcount]
  simp only [Option.bind_eq_bind, Option.bind_some, UInt64.lt_iff_toNat_lt, hvalue, hzero,
    Bool.or_eq_true, decide_eq_true_eq]
  split
  · rfl
  · rename_i hthere
    obtain ⟨sum, hsum, hsumValue⟩ := Word.exists_add? (a := target) (b := .ofNat context) (by omega)
    have hfirst : (max ((Word.sub? target (.ofNat context)).getD 0) 1).toNat =
        max 1 (target.toNat - context) := by
      rw [UInt64.toNat_max, Word.toNat_getD_sub?, hcontext, hone, Nat.max_comm]
    have hlast : (min sum count).toNat = min (Text.lines source).length (target.toNat + context) := by
      rw [UInt64.toNat_min, hsumValue, hvalue, hcontext, Nat.min_comm]
    obtain ⟨more, hmore, hmoreValue⟩ := Word.exists_sub? (a := min sum count)
      (b := max ((Word.sub? target (.ofNat context)).getD 0) 1) (by omega)
    have hshown : more.toNat + 1 = min (Text.lines source).length (target.toNat + context) + 1 -
        max 1 (target.toNat - context) := by omega
    rw [hsum, Option.bind_some, hmore, Option.bind_some,
      linesInWords?_eq (by omega) (by omega) (by omega), hfirst, hlast, hshown]

end Excerpt

end NeonAudit
