import NeonAudit.Proofs.Literal.Denoted

/-!
# Bare texts

A bare text is made of letters, numbers, a few marks and spaces between them, and starts with a
letter, a number, a point, or a sign before a letter or a number. It is an unquoted literal wherever
a value may stand, blanks around it are told from it, and it denotes a value.
-/

namespace NeonAudit

/-- Whether every range of one table ends before each range of another starts, or starts after it
ends. -/
def Text.areDisjoint (first second : List (Nat × Nat)) : Bool :=
  first.all fun range => second.all fun other => range.2 < other.1 || other.2 < range.1

/-- A character of one table is in no table that is disjoint from it. -/
theorem Text.inRanges_eq_false {first second : List (Nat × Nat)}
    (h : areDisjoint first second = true) {c : Char} (hc : inRanges first c = true) :
    inRanges second c = false := by
  rw [Bool.eq_false_iff]
  intro hother
  obtain ⟨range, hrange, hbounds⟩ := (inRanges_iff _ _).1 hc
  obtain ⟨other, hmem, hother⟩ := (inRanges_iff _ _).1 hother
  have hdisjoint := List.all_eq_true.1 (List.all_eq_true.1 h range hrange) other hmem
  simp only [Bool.or_eq_true, decide_eq_true_eq] at hdisjoint
  omega

/-- The ASCII letters and digits lie between the first digit and the last letter. -/
theorem Text.bounds_of_isAlphanum {c : Char} (h : c.isAlphanum = true) :
    '0'.toNat ≤ c.toNat ∧ c.toNat ≤ 'z'.toNat := by
  rcases Bool.or_eq_true_iff.1 h with halpha | hdigit
  · rcases Bool.or_eq_true_iff.1 halpha with hupper | hlower
    · have hbounds : 'A'.toNat ≤ c.toNat ∧ c.toNat ≤ 'Z'.toNat := of_decide_eq_true hupper
      exact ⟨Nat.le_trans (by decide) hbounds.1, Nat.le_trans hbounds.2 (by decide)⟩
    · have hbounds : 'a'.toNat ≤ c.toNat ∧ c.toNat ≤ 'z'.toNat :=
        (Bool.and_eq_true_iff.1 hlower).imp of_decide_eq_true of_decide_eq_true
      exact ⟨Nat.le_trans (by decide) hbounds.1, hbounds.2⟩
  · have hbounds := bounds_of_isDigit hdigit
    exact ⟨hbounds.1, Nat.le_trans hbounds.2 (by decide)⟩

/-- No letter and no number is blank. -/
theorem Text.isBlank_of_isAlphanumeric {c : Char} (h : isAlphanumeric c = true) :
    isBlank c = false := by
  rcases Bool.or_eq_true_iff.1 h with hascii | hother
  · have hrange : inRanges [('0'.toNat, 'z'.toNat)] c = true :=
      (inRanges_iff _ _).2 ⟨_, List.mem_singleton_self _, bounds_of_isAlphanum hascii⟩
    exact inRanges_eq_false (by decide) hrange
  · exact inRanges_eq_false (by decide +kernel) (Bool.and_eq_true_iff.1 hother).2

namespace Piece

/-- Whether a text starts with a letter, a number or a point, or with a sign before a letter or a
number. -/
def opensBare : List Char → Bool
  | [] => false
  | c :: rest =>
    Text.isAlphanumeric c || c = '.' || (c ∈ ['+', '-'] && rest.head?.any Text.isAlphanumeric)

/-- Whether a text is made of words with spaces between them and starts like a literal. -/
def isBare (text : List Char) : Bool :=
  opensBare text && text.all (fun c => isWord c || c = ' ') && text.getLast? ≠ some ' '

/-- No character of words is blank. -/
theorem isBlank_of_isWord {c : Char} (h : isWord c = true) : Text.isBlank c = false := by
  rcases Bool.or_eq_true_iff.1 h with h | h
  · rcases Bool.or_eq_true_iff.1 h with h | h
    · exact Text.isBlank_of_isAlphanumeric h
    · simp only [isPlainMark, List.mem_cons, List.not_mem_nil, or_false, decide_eq_true_eq] at h
      rcases h with rfl | rfl | rfl | rfl | rfl | rfl | rfl <;> decide
  · rw [of_decide_eq_true h]
    decide

/-- A literal goes on with a space if words follow it. -/
theorem goesOn_space {text : List Char} (h : ∀ c ∈ text, isWord c = true ∨ c = ' ')
    (hlast : (' ' :: text).getLast? ≠ some ' ') : goesOn ' ' text = true := by
  have hne : text.dropWhile isIndentation ≠ [] := by
    intro hnil
    rcases List.eq_nil_or_concat text with rfl | ⟨init, c, rfl⟩
    · exact hlast rfl
    · rw [List.concat_eq_append] at *
      have hc : c ≠ ' ' := fun hc => hlast (by
        rw [hc, ← List.cons_append, List.getLast?_concat])
      have hword := (h c (by simp)).resolve_right hc
      have hindent := List.dropWhile_eq_nil_iff.1 hnil c (by simp)
      have hinner := isInner_of_isWord hword
      rw [isInner, hindent] at hinner
      simp at hinner
  obtain ⟨c, rest, hdrop⟩ := List.exists_cons_of_ne_nil hne
  have hmem : c ∈ text := (List.dropWhile_suffix isIndentation).subset (hdrop ▸ List.mem_cons_self)
  have hindent : isIndentation c = false := by
    have hhead := List.head?_dropWhile_not isIndentation text
    rw [hdrop] at hhead
    simpa using hhead
  have hc : c ≠ ' ' := by
    rintro rfl
    contradiction
  have hspecial := notMem_of_isWord ((h c hmem).resolve_right hc)
  rw [goesOn, if_neg (by decide), if_pos (by decide), hdrop, continuesLiteral]
  simp only [List.mem_cons, List.not_mem_nil, or_false, not_or] at hspecial
  simp [endsLiteral, hspecial]

/-- A literal takes words with spaces between and before them. -/
theorem splitLiteral_of_isWord {text : List Char} (h : ∀ c ∈ text, isWord c = true ∨ c = ' ')
    (hlast : text.getLast? ≠ some ' ') : (splitLiteral text).2 = [] := by
  induction text with
  | nil => rfl
  | cons c text ih =>
    have hrest : ∀ d ∈ text, isWord d = true ∨ d = ' ' := fun d hd =>
      h d (List.mem_cons_of_mem c hd)
    have hlastRest : text.getLast? ≠ some ' ' := by
      cases text with
      | nil => simp
      | cons d text => rwa [List.getLast?_cons_cons] at hlast
    rcases h c List.mem_cons_self with hc | rfl
    · have hinner : ∀ d ∈ [c], isInner d = true := fun d hd => by
        rw [List.mem_singleton.1 hd]
        exact isInner_of_isWord hc
      exact (splitLiteral_of_isInner hinner text).trans (ih hrest hlastRest)
    · rw [splitLiteral_of_goesOn (goesOn_space hrest hlast), ih hrest hlastRest]

/-- A bare text is words with spaces between them. -/
theorem words_of_isBare {text : List Char} (h : isBare text = true) :
    opensBare text = true ∧ (∀ c ∈ text, isWord c = true ∨ c = ' ') ∧ text.getLast? ≠ some ' ' := by
  simpa [isBare, and_assoc] using h

/-- A bare text starts with a character of words, and a dash at its start is no mark. -/
theorem exists_cons_of_opensBare {text : List Char} (h : opensBare text = true) :
    ∃ c rest, text = c :: rest ∧ isWord c = true ∧
      (c = '-' → closesIndicator rest.head? = false) := by
  cases text with
  | nil => contradiction
  | cons c rest =>
    refine ⟨c, rest, rfl, ?_, ?_⟩
    · simp only [opensBare, Bool.or_eq_true, Bool.and_eq_true, decide_eq_true_eq, List.mem_cons,
        List.not_mem_nil, or_false] at h
      rcases h with (h | rfl) | ⟨rfl | rfl, -⟩
      · rw [isWord, h]
        rfl
      · rfl
      · rfl
      · rfl
    · rintro rfl
      cases rest with
      | nil => contradiction
      | cons d rest =>
        have hd : Text.isAlphanumeric d = true := h
        have hword : isWord d = true := by
          rw [isWord, hd]
          rfl
        have hspecial := notMem_of_isWord hword
        simp only [List.mem_cons, List.not_mem_nil, or_false, not_or] at hspecial
        simp [closesIndicator, Text.isBlank_of_isAlphanumeric hd, hspecial]

/-- A bare text is a literal. -/
theorem isLiteral_of_isBare {text : List Char} (h : isBare text = true) : IsLiteral text := by
  obtain ⟨hopens, hall, hlast⟩ := words_of_isBare h
  obtain ⟨c, rest, rfl, hc, hdash⟩ := exists_cons_of_opensBare hopens
  have hrest : ∀ d ∈ rest, isWord d = true ∨ d = ' ' := fun d hd =>
    hall d (List.mem_cons_of_mem c hd)
  have hsplit : (splitLiteral rest).2 = [] := by
    refine splitLiteral_of_isWord hrest fun hspace => hlast ?_
    rw [List.getLast?_cons, hspace]
    rfl
  refine isLiteral_cons (fun hmem => notMem_of_isWord hc ?_) hdash (isInner_of_isWord hc) hsplit
  simp only [List.mem_cons, List.not_mem_nil, or_false] at hmem ⊢
  grind

/-- No blanks are trimmed from a bare text. -/
theorem trimBlank_of_isBare {text : List Char} (h : isBare text = true) :
    Text.trimBlank text = text := by
  obtain ⟨hopens, hall, hlast⟩ := words_of_isBare h
  obtain ⟨c, rest, rfl, hc, -⟩ := exists_cons_of_opensBare hopens
  have hfront : (c :: rest).dropWhile Text.isBlank = c :: rest :=
    List.dropWhile_cons_of_neg (by simp [isBlank_of_isWord hc])
  have hback : (c :: rest).reverse.dropWhile Text.isBlank = (c :: rest).reverse := by
    obtain ⟨d, init, hreverse⟩ := List.exists_cons_of_ne_nil
      (List.reverse_ne_nil_iff.2 (List.cons_ne_nil c rest))
    have hd : isWord d = true := by
      refine (hall d (List.mem_reverse.1 (hreverse ▸ List.mem_cons_self))).resolve_right fun hd => ?_
      rw [← List.head?_reverse, hreverse, hd] at hlast
      exact hlast rfl
    rw [hreverse]
    exact List.dropWhile_cons_of_neg (by simp [isBlank_of_isWord hd])
  rw [Text.trimBlank, hfront, hback, List.reverse_reverse]

/-- A bare text has no colons. -/
theorem colon_notMem_of_isBare {text : List Char} (h : isBare text = true) : ':' ∉ text := by
  intro hmem
  rcases (words_of_isBare h).2.1 ':' hmem with hword | hspace
  · exact notMem_of_isWord hword (by simp)
  · contradiction

end Piece

end NeonAudit
