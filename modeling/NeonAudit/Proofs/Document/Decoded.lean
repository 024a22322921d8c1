import NeonAudit.Proofs.Document.Blame
import NeonAudit.Proofs.Document.Legible
import NeonAudit.Proofs.Document.Yield
import NeonAudit.Proofs.Literal.Denoted

/-!
# What decoded values are made of

A parser builds every part of a value in one of a few ways: it never repeats a key, names an entity
by an entity, or gives it arguments that are no collection, and it takes the names of a chain after
the first one from literals only. A parser that reads inside brackets or blocks builds such values
if those do that read what is inside, so this holds of all of them by recursion on the number of
levels that may still be opened.
-/

namespace NeonAudit

namespace Value

/-- One of the tokens is a literal that denotes the value. -/
def IsDenotedIn (tokens : List Token) (value : Value) : Prop :=
  ∃ token ∈ tokens, ∃ raw, token.kind = .literal raw ∧ ofLiteral raw = .ok value

/-- The value can be the result of reading the tokens if the values inside can: a date and time is
one that a literal spells, a mapping does not repeat a key, names are no entities, arguments are
collections, and literals denote the names after the first one of a chain. -/
def IsBuilt (tokens : List Token) : Value → Prop
  | scalar _ => True
  | sequence _ => True
  | mapping entries => (Entries.keys entries).Nodup
  | entity name arguments => name.isEntity = false ∧ arguments.isArguments = true
  | chain links => 2 ≤ links.length ∧
      (∀ link ∈ links, link.1.isEntity = false ∧ link.2.isArguments = true) ∧
        ∀ link ∈ links.tail, IsDenotedIn tokens link.1
  | dateTime d => d.Spellable

/-- A value is built from tokens if all its parts are. -/
abbrev BuiltFrom (tokens : List Token) (value : Value) : Prop :=
  value.Throughout (IsBuilt tokens)

variable {tokens tokens' : List Token} {value : Value}

/-- What is denoted among some tokens is denoted among more of them. -/
theorem IsDenotedIn.mono (h : IsDenotedIn tokens value) (hsub : tokens ⊆ tokens') :
    IsDenotedIn tokens' value := by
  obtain ⟨token, hmem, hdenotes⟩ := h
  exact ⟨token, hsub hmem, hdenotes⟩

/-- What is built from some tokens is built from more of them. -/
theorem BuiltFrom.mono (h : BuiltFrom tokens value) (hsub : tokens ⊆ tokens') :
    BuiltFrom tokens' value := by
  refine Throughout.mono h fun {part} hpart => ?_
  cases part with
  | chain links => exact ⟨hpart.1, hpart.2.1, fun link hmem => (hpart.2.2 link hmem).mono hsub⟩
  | _ => exact hpart

/-- What a literal denotes is built from any tokens, and is no entity. -/
theorem builtFrom_of_ofLiteral {raw : String} (h : ofLiteral raw = .ok value)
    (tokens : List Token) : BuiltFrom tokens value ∧ value.isEntity = false := by
  rcases ofLiteral_cases h with rfl | ⟨s, rfl, -⟩ | ⟨d, rfl, hd⟩
  · exact ⟨.scalar trivial, rfl⟩
  · exact ⟨.scalar trivial, rfl⟩
  · exact ⟨.dateTime hd, rfl⟩

end Value

open Value

/-- Everything that a parser reads is built from the tokens it is given. -/
def Parser.Builds (parser : Parser) : Prop :=
  ∀ {tokens value rest}, parser.run tokens = .ok (value, rest) → BuiltFrom tokens value

/-- What is built from tokens may be handed on as the value of an item. -/
theorem builtFrom_handedOn : HandedOn BuiltFrom where
  null _ := .scalar trivial
  mono h hsub := h.mono hsub

/-- A collection of values that are built from tokens is built from them. It is no entity, and as
arguments it is a collection with items if it is a mapping. -/
theorem Item.builtFrom_collect {tokens : List Token} {items : List Item} {preferMapping : Bool}
    {value : Value} (hcollect : collect preferMapping items = .ok value)
    (h : ∀ item ∈ items, BuiltFrom tokens item.value) :
    BuiltFrom tokens value ∧ value.isEntity = false ∧
      (preferMapping = false → value.isArguments = true) := by
  rcases collect_cases hcollect with rfl | ⟨hempty, entries, hinsert, rfl⟩
  · refine ⟨.sequence trivial fun value hvalue => ?_, rfl, fun _ => rfl⟩
    obtain ⟨item, hmem, rfl⟩ := List.mem_map.1 hvalue
    exact h item hmem
  · refine ⟨.mapping (nodup_keys_of_insertAll? hinsert List.nodup_nil) fun entry hentry => ?_, rfl,
      fun hprefer => ?_⟩
    · rcases exists_of_mem_insertAll? hinsert hentry with hnil | ⟨item, hmem, hvalue⟩
      · contradiction
      · exact hvalue ▸ h item hmem
    · have hitems : items ≠ [] := by
        rintro rfl
        exact Bool.false_ne_true (hprefer ▸ hempty rfl)
      rw [isArguments, List.isEmpty_eq_false_iff.2 (ne_nil_of_insertAll? hinsert (.inr hitems))]
      rfl

section Inline

variable {finish : Position}

/-- What is inside brackets is read by a parser that builds its values, if any. -/
def BuildsInside (values? : Option Parser) : Prop :=
  ∀ values ∈ values?, Parser.Builds values

variable {values? : Option Parser}

/-- A collection in brackets is built from its tokens. -/
theorem builtFrom_of_bracketed (hvalues : BuildsInside values?) {bracket : Bracket}
    {position : Position} {tokens rest : List Token} {value : Value}
    (h : bracketed finish values? bracket position tokens = .ok (value, rest)) :
    BuiltFrom tokens value ∧ value.isEntity = false ∧
      (bracket = .paren → value.isArguments = true) := by
  cases values? with
  | none => contradiction
  | some inside =>
    obtain ⟨items, hrun, hcollect⟩ := of_collected_eq_ok h
    obtain ⟨hbuilt, hentity, harguments⟩ := Item.builtFrom_collect hcollect
      (builtFrom_handedOn.inlineItems (hvalues inside rfl) hrun)
    exact ⟨hbuilt, hentity, fun hparen => harguments (by rw [hparen]; rfl)⟩

/-- A literal with arguments is one of the tokens. -/
theorem exists_literal_of_splitLink? {tokens rest : List Token} {raw : String}
    {position : Position} (h : splitLink? tokens = some (raw, position, rest)) :
    ∃ token ∈ tokens, token.kind = .literal raw := by
  unfold splitLink? at h
  split at h
  · rename_i token paren rest'
    split at h
    · rename_i hkind
      split at h
      · cases h
        exact ⟨token, List.mem_cons_self, hkind⟩
      · contradiction
    · contradiction
  · contradiction

/-- The value of a literal is what it denotes. -/
theorem ofLiteral_of_literalValue {raw : String} {value : Value}
    (h : literalValue raw = .ok value) : ofLiteral raw = .ok value := by
  unfold literalValue at h
  cases hraw : ofLiteral raw with
  | error fault =>
    rw [hraw] at h
    contradiction
  | ok other =>
    rw [hraw] at h
    exact congrArg Except.ok (Except.ok.inj h)

/-- The links can be those of an entity or a chain that is read from the tokens. -/
structure LinksBuilt (tokens : List Token) (links : List (Value × Value)) : Prop where
  /-- There is a first link. -/
  ne_nil : links ≠ []
  /-- Names are no entities, and arguments are collections. -/
  shape : ∀ link ∈ links, link.1.isEntity = false ∧ link.2.isArguments = true
  /-- Names and arguments are built from the tokens. -/
  built : ∀ link ∈ links, BuiltFrom tokens link.1 ∧ BuiltFrom tokens link.2
  /-- Literals denote the names after the first one. -/
  denoted : ∀ link ∈ links.tail, IsDenotedIn tokens link.1

/-- A link is followed by links of which a literal denotes the first name. -/
theorem LinksBuilt.cons {tokens : List Token} {link next : Value × Value}
    {links : List (Value × Value)}
    (hshape : link.1.isEntity = false ∧ link.2.isArguments = true)
    (hbuilt : BuiltFrom tokens link.1 ∧ BuiltFrom tokens link.2)
    (hnext : IsDenotedIn tokens next.1) (h : LinksBuilt tokens (next :: links)) :
    LinksBuilt tokens (link :: next :: links) where
  ne_nil := List.cons_ne_nil _ _
  shape := List.forall_mem_cons.2 ⟨hshape, h.shape⟩
  built := List.forall_mem_cons.2 ⟨hbuilt, h.built⟩
  denoted := List.forall_mem_cons.2 ⟨hnext, h.denoted⟩

/-- The entity or chain of links is built from the tokens of the links. -/
theorem LinksBuilt.builtFrom {tokens : List Token} {links : List (Value × Value)}
    (h : LinksBuilt tokens links) : BuiltFrom tokens (ofLinks links) := by
  unfold ofLinks
  split
  · rename_i name arguments
    have hbuilt := h.built _ List.mem_cons_self
    exact .entity (h.shape _ List.mem_cons_self) hbuilt.1 hbuilt.2
  · rename_i hmany
    refine .chain ⟨?_, h.shape, h.denoted⟩ h.built
    obtain ⟨first, rest, rfl⟩ := List.exists_cons_of_ne_nil h.ne_nil
    cases rest with
    | nil => exact absurd rfl (hmany first.1 first.2)
    | cons second rest => exact Nat.le_add_left 2 rest.length

/-- Links are built from their tokens and those of the first name, which is the one given. -/
theorem linksBuilt_of_entityLinks (hvalues : BuildsInside values?) {name : Value}
    {position : Position} {tokens rest : List Token} {links : List (Value × Value)}
    (h : entityLinks finish values? name position tokens = .ok (links, rest))
    {all : List Token} (hsub : tokens ⊆ all) (hname : BuiltFrom all name)
    (hentity : name.isEntity = false) :
    LinksBuilt all links ∧ ∀ link ∈ links.head?, link.1 = name := by
  fun_induction entityLinks finish values? name position tokens generalizing links rest with
  | case1 => contradiction
  | case2 name position tokens arguments rest' hargs _ =>
    cases h
    obtain ⟨hbuilt, -, harguments⟩ := builtFrom_of_bracketed hvalues hargs
    refine ⟨⟨List.cons_ne_nil _ _, ?_, ?_, fun _ hmem => absurd hmem List.not_mem_nil⟩, ?_⟩
    · exact List.forall_mem_singleton.2 ⟨hentity, harguments rfl⟩
    · exact List.forall_mem_singleton.2 ⟨hname, hbuilt.mono hsub⟩
    · rintro link ⟨⟩
      rfl
  | case3 => contradiction
  | case4 name position tokens arguments rest' hargs raw position' after hlink next hnext _ _ =>
    rename_i ih
    obtain ⟨⟨links', rest''⟩, hrun, hpair⟩ := Result.of_map_eq_ok h
    cases hpair
    obtain ⟨hbuilt, -, harguments⟩ := builtFrom_of_bracketed hvalues hargs
    have hrest : rest' ⊆ all := fun token hmem => hsub ((suffix_of_bracketed hargs).subset hmem)
    have hvalue := ofLiteral_of_literalValue hnext
    obtain ⟨token, htoken, hkind⟩ := exists_literal_of_splitLink? hlink
    have hdenoted : IsDenotedIn all next := ⟨token, hrest htoken, raw, hkind, hvalue⟩
    obtain ⟨hlinks, hhead⟩ := ih hrun
      (fun token hmem => hrest ((suffix_of_splitLink? hlink).1.subset hmem))
      (builtFrom_of_ofLiteral hvalue all).1 (builtFrom_of_ofLiteral hvalue all).2
    obtain ⟨second, more, rfl⟩ := List.exists_cons_of_ne_nil hlinks.ne_nil
    obtain rfl := hhead second rfl
    refine ⟨.cons ⟨hentity, harguments rfl⟩ ⟨hname, hbuilt.mono hsub⟩ hdenoted hlinks, ?_⟩
    rintro link ⟨⟩
    rfl

/-- A value without arguments is built from its tokens, and is no entity. -/
theorem builtFrom_of_plainValue (hvalues : BuildsInside values?) {tokens rest : List Token}
    {value : Value} (h : plainValue finish values? tokens = .ok (value, rest)) :
    BuiltFrom tokens value ∧ value.isEntity = false := by
  unfold plainValue at h
  split at h
  · contradiction
  · rename_i token tail
    have htail := List.subset_cons_self token tail
    split at h
    · cases h
      exact ⟨.scalar trivial, rfl⟩
    · obtain ⟨value', hvalue, hpair⟩ := Result.of_map_eq_ok h
      cases hpair
      exact builtFrom_of_ofLiteral (ofLiteral_of_literalValue hvalue) _
    · obtain ⟨hbuilt, hentity, -⟩ := builtFrom_of_bracketed hvalues h
      exact ⟨hbuilt.mono htail, hentity⟩
    · obtain ⟨hbuilt, hentity, -⟩ := builtFrom_of_bracketed hvalues h
      exact ⟨hbuilt.mono htail, hentity⟩
    · contradiction

/-- A value with the arguments that follow it is built from its tokens. -/
theorem builtFrom_of_valueWith (hvalues : BuildsInside values?) {tokens rest : List Token}
    {value : Value} (h : valueWith finish values? tokens = .ok (value, rest)) :
    BuiltFrom tokens value := by
  unfold valueWith at h
  split at h
  · contradiction
  · rename_i name rest' hplain
    obtain ⟨hname, hentity⟩ := builtFrom_of_plainValue hvalues hplain
    split at h
    · cases h
      exact hname
    · rename_i position after hargs
      obtain ⟨⟨links, rest''⟩, hlinks, hpair⟩ := Result.of_map_eq_ok h
      cases hpair
      have hsuffix := (suffix_of_splitArguments? hargs).trans (suffix_of_plainValue hplain).1
      exact (linksBuilt_of_entityLinks hvalues hlinks hsuffix.subset hname hentity).1.builtFrom

end Inline

/-- Inline values are built from their tokens. -/
theorem inlineValue_builds (finish : Position) (depth : Nat) :
    (inlineValue finish depth).Builds := by
  induction depth with
  | zero => exact fun h => builtFrom_of_valueWith (fun _ hnone => absurd hnone (by simp)) h
  | succ depth ih =>
    refine fun h => builtFrom_of_valueWith (fun values hvalues => ?_) h
    obtain rfl := Option.some.inj hvalues
    exact ih

/-- Blocks are built from their tokens. -/
theorem block_builds (finish : Position) (depth : Nat) (indent : List Char) (onlyDashes : Bool) :
    (block finish depth indent onlyDashes).Builds := by
  induction depth generalizing indent onlyDashes with
  | zero =>
    intro tokens value rest h
    contradiction
  | succ depth ih =>
    intro tokens value rest h
    change blockWith finish (inlineValue finish depth) (block finish depth) indent onlyDashes
      tokens = .ok (value, rest) at h
    unfold blockWith at h
    split at h
    · exact inlineValue_builds finish depth h
    · obtain ⟨items, hrun, hcollect⟩ := of_collected_eq_ok h
      exact (Item.builtFrom_collect hcollect
        (builtFrom_handedOn.blockItems (inlineValue_builds finish depth) ih hrun)).1

/-- The value of a document is built from its tokens. -/
theorem builtFrom_of_ofTokens {stream : TokenStream} {value : Value}
    (h : Value.ofTokens stream = .ok value) : BuiltFrom stream.tokens value := by
  have hopening := splitOpening_suffix stream.tokens
  unfold Value.ofTokens at h
  split at h
  rename_i indent tokens heq
  rw [heq] at hopening
  split at h
  · cases h
    exact .scalar trivial
  · split at h
    · contradiction
    · rename_i value' rest hrun
      dsimp only at h
      split at h
      · cases h
        exact (block_builds _ _ _ _ hrun).mono hopening.subset
      · contradiction

/-- A decoded value is built from the tokens of its source. -/
theorem exists_builtFrom_of_decode {source : String} {value : Value}
    (h : decode source = .ok value) :
    ∃ stream, TokenStream.ofSource source.toList = .ok stream ∧ BuiltFrom stream.tokens value := by
  unfold decode decodeChars at h
  split at h
  · contradiction
  · rename_i stream hstream
    exact ⟨stream, hstream, builtFrom_of_ofTokens h⟩

end NeonAudit
