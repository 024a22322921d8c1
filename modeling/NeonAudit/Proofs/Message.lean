import Mathlib.Logic.Function.Basic
import NeonAudit.DecodeError

/-!
# Statements tell their causes

The statements of two causes differ if the causes do: a few characters of a statement tell which
kind of cause it states, and what it quotes stands between fixed texts.
-/

namespace NeonAudit.DecodeError.Cause

/-- A number for each kind of cause. -/
def kindNumber : Cause → Nat
  | unexpected _ => 0
  | unexpectedEnd => 1
  | unexpectedLineEnd => 2
  | unterminatedString => 3
  | invalidEscape _ => 4
  | duplicatedKey _ => 5
  | badIndentation => 6
  | mixedIndentation => 7
  | tooDeep => 8

/-- The kind of cause that a statement states. -/
def numberOfStatement (statement : List Char) : Nat :=
  if statement[0]? = some 'U' then
    if statement[2]? = some 't' then 3
    else if statement[11]? = some '\x27' then 0
    else if statement.length = 14 then 1 else 2
  else if statement[0]? = some 'I' then
    if statement[8]? = some 'e' then 4 else 7
  else if statement[0]? = some 'D' then 5
  else if statement[0]? = some 'B' then 6
  else 8

/-- A statement tells the kind of its cause. -/
theorem numberOfStatement_text (cause : Cause) :
    numberOfStatement cause.text.toList = cause.kindNumber := by
  cases cause with
  | unexpected text =>
    change numberOfStatement ("Unexpected '" ++ text ++ "'").toList = 0
    simp [numberOfStatement]
  | invalidEscape sequence =>
    change numberOfStatement ("Invalid escaping sequence " ++ sequence).toList = 4
    simp [numberOfStatement]
  | duplicatedKey key =>
    change numberOfStatement ("Duplicated key '" ++ key ++ "'").toList = 5
    simp [numberOfStatement]
  | _ => decide +kernel

/-- Different causes are stated differently. -/
theorem text_injective : Function.Injective text := by
  intro a b h
  have hnumber : a.kindNumber = b.kindNumber := by
    rw [← numberOfStatement_text, ← numberOfStatement_text, h]
  cases a <;> cases b <;> first
    | rfl
    | (simp [kindNumber] at hnumber; done)
    | skip
  case unexpected.unexpected text text' =>
    change "Unexpected '" ++ text ++ "'" = "Unexpected '" ++ text' ++ "'" at h
    rw [String.append_left_inj, String.append_right_inj] at h
    rw [h]
  case invalidEscape.invalidEscape sequence sequence' =>
    change "Invalid escaping sequence " ++ sequence = "Invalid escaping sequence " ++ sequence' at h
    rw [String.append_right_inj] at h
    rw [h]
  case duplicatedKey.duplicatedKey key key' =>
    change "Duplicated key '" ++ key ++ "'" = "Duplicated key '" ++ key' ++ "'" at h
    rw [String.append_left_inj, String.append_right_inj] at h
    rw [h]

end NeonAudit.DecodeError.Cause
