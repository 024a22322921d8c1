import NeonAudit.Proofs.Document.Blame
import NeonAudit.Proofs.Literal.Denoted
import NeonAudit.Rule

/-!
# Faults

A torn zone is the only fault of literals. It takes a literal with a time of day, so the literal of
a rule, which has no colons, is free of it. Decoding has this fault only where such a literal is one
of the tokens. It has one other fault, where the indices of a collection run out, and this takes a
key with as many tokens after it as there are integers of 64 bits past it, or as many tokens as
there are indices.
-/

namespace NeonAudit

namespace Value

/-- A literal has a fault exactly if it is a date and time whose zone is torn. -/
theorem ofLiteral_eq_error_iff {text : String} {fault : Literal.ZoneFault} :
    ofLiteral text = .error fault ↔ ∃ date clock west,
      Literal.SpellsMoment text.toList date clock (.distance west fault.zone) ∧
        Literal.IsTorn fault.zone := by
  constructor
  · intro h
    unfold ofLiteral at h
    split at h
    · contradiction
    · split at h
      · contradiction
      · exact Literal.dateTime?_eq_error_iff.1 (Result.of_map_eq_error h)
  · intro h
    obtain ⟨date, clock, west, hmoment, htorn⟩ := h
    rw [ofLiteral_of_spellsMoment hmoment, Literal.zoned_eq_error htorn]
    rfl

/-- A literal has a value unless its zone is torn. -/
theorem exists_ofLiteral_eq_ok_iff {text : String} :
    (∃ value, ofLiteral text = .ok value) ↔ ¬Literal.HasTornZone text.toList := by
  constructor
  · intro h htorn
    obtain ⟨value, hvalue⟩ := h
    obtain ⟨date, clock, west, digits, hmoment, htorn⟩ := htorn
    have herror : ofLiteral text = .error ⟨digits⟩ :=
      ofLiteral_eq_error_iff.2 ⟨date, clock, west, hmoment, htorn⟩
    rw [hvalue] at herror
    contradiction
  · intro h
    cases hliteral : ofLiteral text with
    | ok value => exact ⟨value, rfl⟩
    | error fault =>
      obtain ⟨date, clock, west, hmoment, htorn⟩ := ofLiteral_eq_error_iff.1 hliteral
      exact absurd ⟨date, clock, west, fault.zone, hmoment, htorn⟩ h

end Value

/-- What among the tokens makes decoding break off. -/
def DecodeFault.HasCause (tokens : List Token) : DecodeFault → Prop
  | .zone _ => ∃ token ∈ tokens, ∃ raw, token.kind = .literal raw ∧ Literal.HasTornZone raw.toList
  | .index => LacksIndices tokens

/-- Decoding has a fault only for a cause among the tokens. -/
theorem exists_hasCause_of_decode {source : String} {fault : DecodeFault}
    (h : decode source = .error (.fault fault)) :
    ∃ stream, TokenStream.ofSource source.toList = .ok stream ∧ fault.HasCause stream.tokens := by
  rw [decode, decodeChars] at h
  split at h
  · cases h
  · rename_i stream hstream
    refine ⟨stream, hstream, ?_⟩
    cases blames_of_ofTokens h with
    | zone hmem hkind hraw =>
      obtain ⟨date, clock, west, htorn⟩ := Value.ofLiteral_eq_error_iff.1 hraw
      exact ⟨_, hmem, _, hkind, date, clock, west, _, htorn⟩
    | index hlacks => exact hlacks

/-- A key that is the largest integer of 64 bits leaves no index for the item after it. -/
example : decode "[9223372036854775807: a, b]" = .error (.fault .index) :=
  Result.of_map_eq_error (f := fun _ => ()) (by decide +kernel)

/-- The literal of a rule has no fault, because there is no colon in it. -/
theorem ValueRule.ofSpec_ne_zone (spec : String) (fault : Literal.ZoneFault) :
    ofSpec spec ≠ .error (.zone fault) := by
  intro h
  unfold ofSpec at h
  split at h
  · cases h
  · rename_i before after hsplit
    dsimp only at h
    split at h
    · cases h
    · split at h
      · cases h
      · split at h
        · rename_i hliteral
          have hcolon : ':' ∉ (String.ofList (Text.trimBlank after)).toList := by
            rw [String.toList_ofList]
            intro hmem
            exact (Text.append_of_splitLast? hsplit).2 (Text.mem_of_mem_trimBlank hmem)
          obtain ⟨value, hvalue⟩ := Value.exists_ofLiteral_eq_ok hcolon
          rw [hvalue] at hliteral
          contradiction
        · contradiction

/-- A literal has a value unless the digits of its zone are torn, and what is computed for other
zones stays below a hundred hours and a hundred minutes. Decoding ends in a value or an error with a
message, unless there is such a literal among the tokens or the indices of a collection run out, and
no rule has a fault. -/
theorem fault_only_of_hasCause (raw source spec : String) :
    ((∃ value, Value.ofLiteral raw = .ok value) ↔ ¬Literal.HasTornZone raw.toList) ∧
    (∀ (west : Bool) (digits : List Char), Literal.IsTorn digits ∨
      Literal.zoneOffset? west digits = .ok none ∨
        ∃ hours minutes, hours < 100 ∧ minutes < 100 ∧
          Literal.zoneOffset? west digits = .ok (Literal.offset? west hours minutes)) ∧
    ((∃ value, decode source = .ok value) ∨
      (∃ error, decode source = .error (.malformed error)) ∨
      ∃ fault stream, decode source = .error (.fault fault) ∧
        TokenStream.ofSource source.toList = .ok stream ∧ fault.HasCause stream.tokens) ∧
    ∀ fault, ValueRule.ofSpec spec ≠ .error (.zone fault) := by
  refine ⟨Value.exists_ofLiteral_eq_ok_iff, ?_, ?_, ValueRule.ofSpec_ne_zone spec⟩
  · intro west digits
    obtain ⟨htorn, -⟩ | ⟨-, hoffset⟩ := Literal.zoneOffset?_cases west digits
    · exact .inl htorn
    · exact .inr hoffset
  · cases hdecode : decode source with
    | ok value => exact .inl ⟨value, rfl⟩
    | error failure =>
      cases failure with
      | malformed error => exact .inr (.inl ⟨error, rfl⟩)
      | fault fault =>
        obtain ⟨stream, hstream, hcause⟩ := exists_hasCause_of_decode hdecode
        exact .inr (.inr ⟨fault, stream, rfl, hstream, hcause⟩)

/-- A full-width digit after the sign of a zone takes three bytes, so its literal has no value, and
a document with it ends in no error that has a message. -/
theorem fault_of_fullWidth_zone :
    (¬∃ value, Value.ofLiteral "2024-01-01T10:00:00+１" = .ok value) ∧
      decode "at: 2024-01-01T10:00:00+１" = .error (.fault (.zone ⟨['１']⟩)) := by
  have hliteral : Value.ofLiteral "2024-01-01T10:00:00+１" = .error ⟨['１']⟩ := rfl
  refine ⟨?_, Result.of_map_eq_error (f := fun _ => ()) (by decide +kernel)⟩
  rw [hliteral]
  simp

end NeonAudit
