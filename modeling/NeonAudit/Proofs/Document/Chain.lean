import Mathlib.Data.List.Forall2
import NeonAudit.Proofs.Document.Decoded
import NeonAudit.Proofs.Document.RoundTrip

/-!
# Chains read back

The text of a chain is read as the chain as far as literals can spell the names after the first one:
a string in quotes is no further link. A decoded value has all else that its text needs to be read
back, since literals denote the names after the first one of its chains. On the other hand the only
literals in the text of a value that denote strings are plain, so a chain that comes back has no
other strings as further names.
-/

namespace NeonAudit

/-- Every literal among the tokens that denotes a string is plain. -/
def AllPlain (_ : Position) (tokens : List Token) : Prop :=
  ∀ token ∈ tokens, token.kind.IsPlain

/-- A mark is no literal. -/
theorem Token.isPlain_of_mark {token : Token} {mark : Mark} (h : token.kind = .mark mark) :
    token.kind.IsPlain := by
  rw [h]
  trivial

section AllPlain

variable {text nameText linksText : List Char}

/-- Nothing is plain. -/
theorem SpelledOrEmpty.allPlain_nil : SpelledOrEmpty [] AllPlain :=
  .empty fun _ _ hmem => absurd hmem List.not_mem_nil

/-- A plain lexeme is a plain token. -/
theorem Spelled.allPlain_of_cuts {kind : Token.Kind} (hkind : kind.IsPlain)
    (hcuts : ∀ {rest}, Piece.Ends rest → Piece.Cuts (text ++ rest) [⟨.lexeme kind, text⟩] rest) :
    Spelled text AllPlain := by
  refine (Spelled.of_cuts hcuts).mono ?_
  rintro p tokens rfl
  exact List.forall_mem_singleton.2 hkind

/-- A key before a value is plain. -/
theorem Spelled.allPlain_entry (h : Spelled text AllPlain) (key : String) :
    Spelled (entryText key text) AllPlain := by
  refine (h.keyed (spellsKey_keyText key)).mono ?_
  rintro p tokens ⟨name, colon, b, _, rfl, -, hname, -, hcolon, hb⟩
  exact List.forall_mem_cons.2
    ⟨hname, List.forall_mem_cons.2 ⟨Token.isPlain_of_mark hcolon, hb⟩⟩

/-- Commas between plain texts are plain. -/
theorem SpelledOrEmpty.allPlain_intercalate {texts : List (List Char)}
    (h : ∀ text ∈ texts, Spelled text AllPlain) :
    SpelledOrEmpty (separator.intercalate texts) AllPlain := by
  cases texts with
  | nil => exact .allPlain_nil
  | cons text texts =>
    refine .spelled (Spelled.intercalate (R := fun tokens _ => ∀ token ∈ tokens, token.kind.IsPlain)
      (S := fun tokens _ => ∀ token ∈ tokens, token.kind.IsPlain) id ?_
      (List.forall₂_same.2 h))
    intro a _ comma b _ ha hcomma hb
    exact List.forall_mem_append.2
      ⟨ha, List.forall_mem_cons.2 ⟨Token.isPlain_of_mark hcomma, hb⟩⟩

/-- Brackets around a plain text are plain. -/
theorem SpelledOrEmpty.allPlain_enclose (h : SpelledOrEmpty text AllPlain) (openMark : Mark)
    (bracket : Bracket) (hopen : Piece.bracketOrSeparator? openMark.char = some openMark) :
    Spelled (openMark.char :: text ++ [bracket.close.char]) AllPlain := by
  refine (h.enclose openMark bracket.close hopen (by cases bracket <;> rfl)
    (by cases bracket <;> rfl)).mono ?_
  rintro p tokens ⟨opening, a, closing, rfl, hopening, hclosing, ha⟩
  exact List.forall_mem_cons.2 ⟨Token.isPlain_of_mark hopening, List.forall_mem_append.2
    ⟨ha, List.forall_mem_singleton.2 (Token.isPlain_of_mark hclosing)⟩⟩

/-- Parentheses after a plain name and before further links are plain. -/
theorem Spelled.allPlain_links (hname : Spelled nameText AllPlain)
    (h : SpelledOrEmpty text AllPlain) (hlinks : SpelledOrEmpty linksText AllPlain) :
    Spelled (nameText ++ '(' :: text ++ ')' :: linksText) AllPlain := by
  refine ((hname.follow .openParen rfl rfl h).follow .closeParen rfl rfl hlinks).mono ?_
  rintro p tokens ⟨_, closing, c, rfl, hclosing, ⟨a, opening, b, rfl, hopening, ha, hb⟩, hc⟩
  have hopened := List.forall_mem_append.2
    ⟨ha, List.forall_mem_cons.2 ⟨Token.isPlain_of_mark hopening, hb⟩⟩
  exact List.forall_mem_append.2
    ⟨hopened, List.forall_mem_cons.2 ⟨Token.isPlain_of_mark hclosing, hc⟩⟩

end AllPlain

namespace Value

/-- The text of the value can be cut into tokens if those of the values inside can: literals spell
its leaves, arguments are collections, and a chain has links. -/
def IsCut : Value → Prop
  | scalar s => s.Spellable
  | entity _ arguments => arguments.isArguments = true
  | chain links => links ≠ [] ∧ ∀ link ∈ links, link.2.isArguments = true
  | dateTime d => d.Spellable
  | _ => True

mutual

/-- The tokens of the text of a value are plain. -/
theorem allPlain_text : ∀ {value : Value}, value.Throughout IsCut → Spelled value.text AllPlain
  | scalar s, h => by
    obtain ⟨kind, -, hkind, hcuts⟩ := s.exists_cuts h.here
    exact .allPlain_of_cuts hkind hcuts
  | sequence items, h =>
    (SpelledOrEmpty.allPlain_intercalate (allPlain_itemTexts items fun _ hmem =>
      h.part (.item hmem .self))).allPlain_enclose .openSquare .square rfl
  | mapping entries, h =>
    (SpelledOrEmpty.allPlain_intercalate (allPlain_entryTexts entries fun _ hmem =>
      h.part (.entry hmem .self))).allPlain_enclose .openBrace .brace rfl
  | entity name arguments, h =>
    (allPlain_text (h.part (.name .self))).allPlain_links
      (allPlain_argumentsText arguments h.here (h.part (.arguments .self)))
      .allPlain_nil
  | chain [], h => absurd rfl h.here.1
  | chain ((name, arguments) :: links), h =>
    have hhere : IsCut (chain ((name, arguments) :: links)) := h.here
    (allPlain_text (h.part (.linkName List.mem_cons_self .self))).allPlain_links
      (allPlain_argumentsText arguments (hhere.2 _ List.mem_cons_self)
        (h.part (.linkArguments List.mem_cons_self .self)))
      (allPlain_linksText links fun link hmem =>
        have hmem' := List.mem_cons_of_mem (name, arguments) hmem
        ⟨h.part (.linkName hmem' .self), hhere.2 link hmem', h.part (.linkArguments hmem' .self)⟩)
  | dateTime d, h => by
    obtain ⟨kind, -, hkind, hcuts⟩ := d.exists_cuts h.here
    exact .allPlain_of_cuts hkind hcuts

/-- The tokens of the text of arguments are plain. -/
theorem allPlain_argumentsText : ∀ (arguments : Value), arguments.isArguments = true →
    arguments.Throughout IsCut → SpelledOrEmpty arguments.argumentsText AllPlain
  | sequence items, _, h => .allPlain_intercalate
    (allPlain_itemTexts items fun _ hmem => h.part (.item hmem .self))
  | mapping entries, _, h => .allPlain_intercalate
    (allPlain_entryTexts entries fun _ hmem => h.part (.entry hmem .self))
  | scalar _, harguments, _ => Bool.noConfusion harguments
  | entity _ _, harguments, _ => Bool.noConfusion harguments
  | chain _, harguments, _ => Bool.noConfusion harguments
  | dateTime _, harguments, _ => Bool.noConfusion harguments

/-- The tokens of the texts of links are plain. -/
theorem allPlain_linksText : ∀ (links : List (Value × Value)),
    (∀ link ∈ links, link.1.Throughout IsCut ∧ link.2.isArguments = true ∧
      link.2.Throughout IsCut) → SpelledOrEmpty (linksText links) AllPlain
  | [], _ => .allPlain_nil
  | (name, arguments) :: links, h =>
    have hlink := h (name, arguments) List.mem_cons_self
    .spelled ((allPlain_text hlink.1).allPlain_links
      (allPlain_argumentsText arguments hlink.2.1 hlink.2.2)
      (allPlain_linksText links fun other hmem => h other (List.mem_cons_of_mem _ hmem)))

/-- The tokens of the texts of values are plain. -/
theorem allPlain_itemTexts : ∀ (items : List Value), (∀ item ∈ items, item.Throughout IsCut) →
    ∀ text ∈ itemTexts items, Spelled text AllPlain
  | [], _ => fun _ hmem => absurd hmem List.not_mem_nil
  | item :: items, h => List.forall_mem_cons.2
    ⟨allPlain_text (h item List.mem_cons_self),
      allPlain_itemTexts items fun other hmem => h other (List.mem_cons_of_mem item hmem)⟩

/-- The tokens of the texts of entries are plain. -/
theorem allPlain_entryTexts : ∀ (entries : List (String × Value)),
    (∀ entry ∈ entries, entry.2.Throughout IsCut) →
      ∀ text ∈ entryTexts entries, Spelled text AllPlain
  | [], _ => fun _ hmem => absurd hmem List.not_mem_nil
  | (key, value) :: entries, h => List.forall_mem_cons.2
    ⟨(allPlain_text (h (key, value) List.mem_cons_self)).allPlain_entry key,
      allPlain_entryTexts entries fun other hmem => h other (List.mem_cons_of_mem _ hmem)⟩

end

/-- The tokens of a plain text are plain. -/
theorem isPlain_of_ofSource {text : List Char} {stream : TokenStream}
    (h : Spelled text AllPlain) (hstream : TokenStream.ofSource text = .ok stream) :
    ∀ token ∈ stream.tokens, token.kind.IsPlain := by
  obtain ⟨pieces, hpieces, hplain⟩ := h
  have hsource := @ofSource_of_spells text [] pieces [] hpieces Piece.ends_nil .nil .nil
  rw [List.append_nil, hstream] at hsource
  rw [Except.ok.inj hsource]
  refine List.forall_mem_cons.2 ⟨trivial, List.forall_mem_append.2 ⟨hplain .start, ?_⟩⟩
  exact fun _ hmem => absurd hmem List.not_mem_nil

/-- The value is no float unless a finite one. -/
def IsFinite : Value → Prop
  | scalar (.float x) => x.isFinite = true
  | _ => True

/-- The value is no chain unless the names after the first one that are strings may be written
without quotes. -/
def HasPlainLinks : Value → Prop
  | chain links => ∀ link ∈ links.tail, ∀ text, link.1 = string text → isPlain text.toList = true
  | _ => True

/-- A finite scalar is spelled by a literal. -/
theorem spellable_of_isFinite {s : Scalar} (h : IsFinite (scalar s)) : s.Spellable := by
  cases s with
  | float x => exact h
  | _ => trivial

variable {tokens : List Token} {value : Value}

/-- The text of a value that is built from tokens can be cut into tokens. -/
theorem BuiltFrom.isCut (h : BuiltFrom tokens value) (hfinite : value.Throughout IsFinite) :
    value.Throughout IsCut := by
  intro part hpart
  have hbuilt := h part hpart
  cases part with
  | scalar s => exact spellable_of_isFinite (hfinite _ hpart)
  | sequence items => trivial
  | mapping entries => trivial
  | entity name arguments => exact hbuilt.2
  | chain links =>
    exact ⟨List.ne_nil_of_length_pos (Nat.lt_of_lt_of_le Nat.zero_lt_two hbuilt.1),
      fun link hmem => (hbuilt.2.1 link hmem).2⟩
  | dateTime d => exact hbuilt

/-- A string that a literal denotes is the text of the literal. -/
theorem eq_of_ofLiteral {raw text : String} (h : ofLiteral raw = .ok (string text)) :
    text = raw := by
  rcases ofLiteral_cases h with hstring | ⟨s, hscalar, hno⟩ | ⟨d, hdate, -⟩
  · exact Scalar.string.inj (scalar.inj hstring)
  · exact absurd (scalar.inj hscalar).symm (hno text)
  · exact Value.noConfusion hdate

/-- A value that is built from tokens is legible if the further names of its chains are plain. -/
theorem BuiltFrom.legible (h : BuiltFrom tokens value) (hfinite : value.Throughout IsFinite)
    (hplain : value.Throughout HasPlainLinks) : value.Legible := by
  intro part hpart
  have hbuilt := h part hpart
  cases part with
  | scalar s => exact spellable_of_isFinite (hfinite _ hpart)
  | sequence items => trivial
  | mapping entries => exact hbuilt
  | entity name arguments => exact hbuilt
  | chain links =>
    refine ⟨hbuilt.1, hbuilt.2.1, fun link hmem => ?_⟩
    obtain ⟨-, -, raw, -, hvalue⟩ := hbuilt.2.2 link hmem
    have hname : ∀ text, link.1 = string text → isPlain text.toList = true :=
      hplain _ hpart link hmem
    obtain ⟨name, arguments⟩ := link
    rcases ofLiteral_cases hvalue with rfl | ⟨s, rfl, hno⟩ | ⟨d, rfl, -⟩
    · exact Bool.and_eq_true_iff.2 ⟨hname raw rfl, denotesItself_iff.2 hvalue⟩
    · cases s with
      | string text => exact absurd rfl (hno text)
      | _ => rfl
    · rfl
  | dateTime d => exact hbuilt

/-- A value that is built from plain tokens has plain links. -/
theorem BuiltFrom.hasPlainLinks (h : BuiltFrom tokens value)
    (hplain : ∀ token ∈ tokens, token.kind.IsPlain) : value.Throughout HasPlainLinks := by
  refine Throughout.mono h fun {part} hbuilt => ?_
  cases part with
  | chain links =>
    intro link hmem text htext
    obtain ⟨token, htoken, raw, hkind, hvalue⟩ := hbuilt.2.2 link hmem
    rw [htext] at hvalue
    obtain rfl := eq_of_ofLiteral hvalue
    have hliteral := hplain token htoken
    rw [hkind] at hliteral
    exact hliteral hvalue
  | _ => trivial

/-- A decoded value comes back from its text exactly if the names after the first one of each chain
in it that are strings may be written without quotes. -/
theorem decode_encode_iff_of_decode {source : String} (h : decode source = .ok value)
    (hfinite : value.Throughout IsFinite) (hnest : value.nest ≤ 255) :
    decode value.encode = .ok value ↔ value.Throughout HasPlainLinks := by
  obtain ⟨stream, -, hbuilt⟩ := exists_builtFrom_of_decode h
  refine ⟨fun hback => ?_, fun hplain => (hbuilt.legible hfinite hplain).decode_eq hnest⟩
  -- What comes back is built from the tokens of the text, all of which are plain.
  obtain ⟨stream', hstream, hbuilt'⟩ := exists_builtFrom_of_decode hback
  rw [encode, String.toList_ofList] at hstream
  exact hbuilt'.hasPlainLinks
    (isPlain_of_ofSource (allPlain_text (hbuilt.isCut hfinite)) hstream)

set_option maxRecDepth 2000 in
/-- A chain whose first name is in need of quotes and whose second one is a word comes back from
its text. -/
theorem decode_encode_of_decode_quoted_first : ∃ links,
    decode "a b(0.5)foo(1)" = .ok (.chain links) ∧
      encode (.chain links) = "\"a b\"(0.5)foo(1)" ∧
        decode (encode (.chain links)) = .ok (.chain links) := by
  have hdecode : decode "a b(0.5)foo(1)" = .ok (.chain [
      (.string "a b", .sequence [.scalar (.float ⟨0x3fe0000000000000⟩)]),
      (.string "foo", .sequence [.scalar (.int 1)])]) := by with_unfolding_all rfl
  refine ⟨_, hdecode, by decide +kernel,
    (decode_encode_iff_of_decode hdecode (.chain trivial ?_) (by decide)).2 (.chain ?_ ?_)⟩
  · exact List.forall_mem_cons.2 ⟨⟨.scalar trivial, .sequence trivial
        (List.forall_mem_singleton.2 (.scalar (by decide : Binary64.isFinite _ = true)))⟩,
      List.forall_mem_singleton.2 ⟨.scalar trivial, .sequence trivial
        (List.forall_mem_singleton.2 (.scalar trivial))⟩⟩
  · rintro link hmem text htext
    obtain rfl := List.mem_singleton.1 hmem
    obtain rfl := Scalar.string.inj (scalar.inj htext)
    decide
  · exact List.forall_mem_cons.2 ⟨⟨.scalar trivial, .sequence trivial
        (List.forall_mem_singleton.2 (.scalar trivial))⟩,
      List.forall_mem_singleton.2 ⟨.scalar trivial, .sequence trivial
        (List.forall_mem_singleton.2 (.scalar trivial))⟩⟩

/-- A chain with a further name in need of quotes does not come back: its text is refused at the
quoted name. -/
theorem decode_encode_quoted_link : ∃ source links,
    decode source = .ok (.chain links) ∧ (chain links).Throughout IsFinite ∧
      (chain links).nest ≤ 255 ∧ decode (encode (.chain links)) ≠ .ok (.chain links) := by
  refine ⟨"a(1)foo bar(2)", [(.string "a", .sequence [.scalar (.int 1)]),
    (.string "foo bar", .sequence [.scalar (.int 2)])], by with_unfolding_all rfl, ?_, by decide, ?_⟩
  · refine .chain trivial (List.forall_mem_cons.2 ⟨⟨.scalar trivial, .sequence trivial ?_⟩,
      List.forall_mem_singleton.2 ⟨.scalar trivial, .sequence trivial ?_⟩⟩)
    · exact List.forall_mem_singleton.2 (.scalar trivial)
    · exact List.forall_mem_singleton.2 (.scalar trivial)
  · have hrefused : decode (encode (.chain [(.string "a", .sequence [.scalar (.int 1)]),
        (.string "foo bar", .sequence [.scalar (.int 2)])])) =
          .error (.at ⟨1, 5⟩ (.unexpected "\"foo bar\"")) :=
      Result.of_map_eq_error (f := fun _ => ()) (by decide +kernel)
    rw [hrefused]
    exact fun heq => by contradiction

end Value

end NeonAudit
