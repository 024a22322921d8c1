import NeonAudit.Proofs.Document.Separated

/-!
# Entities and chains

A name before arguments in parentheses is read as an entity, and as a chain if literals with
arguments of their own follow directly. `ReadsLinks` says which tokens are such further links.
-/

namespace NeonAudit

/-- The links of a chain are those after the arguments of the first one. -/
theorem entityLinks_eq (finish : Position) (values? : Option Parser) (name : Value)
    (position : Position) (tokens : List Token) :
    entityLinks finish values? name position tokens =
      match bracketed finish values? .paren position tokens with
      | .error failure => .error failure
      | .ok (arguments, rest) =>
        match splitLink? rest with
        | none => .ok ([(name, arguments)], rest)
        | some (raw, position, after) =>
          match literalValue raw with
          | .error failure => .error failure
          | .ok next =>
            (entityLinks finish values? next position after).map fun (links, rest) =>
              ((name, arguments) :: links, rest) := by
  rw [entityLinks]
  split
  · rename_i hargs
    simp only [hargs]
  · rename_i hargs
    split
    · rename_i hlink
      simp only [hargs, hlink]
    · rename_i raw _ _ hlink
      cases hnext : literalValue raw <;> simp only [hargs, hlink, hnext]

/-- Arguments without a further link after them are the only link. -/
theorem entityLinks_of_bracketed {finish : Position} {values? : Option Parser}
    {name arguments : Value} {position : Position} {tokens rest : List Token}
    (h : bracketed finish values? .paren position tokens = .ok (arguments, rest))
    (hlink : splitLink? rest = none) :
    entityLinks finish values? name position tokens = .ok ([(name, arguments)], rest) := by
  rw [entityLinks_eq, h]
  dsimp only
  rw [hlink]

/-- Arguments with a link after them are the first of the links. -/
theorem entityLinks_of_splitLink? {finish : Position} {values? : Option Parser}
    {name arguments next : Value} {position position' : Position} {tokens rest after : List Token}
    {raw : String}
    (h : bracketed finish values? .paren position tokens = .ok (arguments, rest))
    (hlink : splitLink? rest = some (raw, position', after))
    (hnext : Value.ofLiteral raw = .ok next) :
    entityLinks finish values? name position tokens =
      (entityLinks finish values? next position' after).map fun (links, rest) =>
        ((name, arguments) :: links, rest) := by
  have hvalue : literalValue raw = .ok next := by
    rw [literalValue, hnext]
    rfl
  rw [entityLinks_eq, h]
  dsimp only
  rw [hlink]
  dsimp only
  rw [hvalue]

/-- The tokens are read as further links of a chain: literals with their arguments, each directly
after the one before. -/
inductive ReadsLinks (depth : Nat) : List Token → List (Value × Value) → Prop
  | nil : ReadsLinks depth [] []
  | cons {name raw value opening tokens items arguments close rest links} :
      name.kind = .literal raw → Value.ofLiteral raw = .ok value →
        opening.kind = .mark .openParen → ReadsContents depth tokens items →
          Item.collect false items = .ok arguments → close.kind = .mark .closeParen →
            ReadsLinks depth rest links →
              ReadsLinks depth (name :: opening :: (tokens ++ close :: rest))
                ((value, arguments) :: links)

/-- Arguments are read with the links after them. -/
theorem ReadsLinks.read {depth : Nat} {rest : List Token} {links : List (Value × Value)}
    (h : ReadsLinks depth rest links) {tokens : List Token} {items : List Item} {close : Token}
    {arguments : Value} (hcontents : ReadsContents depth tokens items)
    (hcollect : Item.collect false items = .ok arguments) (hclose : close.kind = .mark .closeParen)
    (finish position : Position) (name : Value) {after : List Token} (hafter : EndsValue after) :
    entityLinks finish (inside? finish (depth + 1)) name position
        (tokens ++ close :: (rest ++ after)) =
      .ok ((name, arguments) :: links, after) := by
  have hclose : close.kind = .mark Bracket.paren.close := hclose
  have hread := hcontents.collects hclose hcollect finish position (rest ++ after)
  rw [List.append_assoc, List.singleton_append] at hread
  induction h generalizing tokens items close arguments position name with
  | nil => exact entityLinks_of_bracketed hread hafter.splitLink?
  | @cons next raw value opening inner items' arguments' close' rest links hname hvalue hopening
      hinner hcollected hkind _ ih =>
    have hlink : splitLink? (next :: opening :: (inner ++ close' :: rest) ++ after) =
        some (raw, opening.position, inner ++ close' :: (rest ++ after)) := by
      rw [List.cons_append, List.cons_append, List.append_assoc, List.cons_append, splitLink?,
        hname]
      exact if_pos hopening
    have hkind : close'.kind = .mark Bracket.paren.close := hkind
    have hnext := hinner.collects hkind hcollected finish opening.position (rest ++ after)
    rw [List.append_assoc, List.singleton_append] at hnext
    rw [entityLinks_of_splitLink? hread hlink hvalue,
      ih hinner hcollected hkind opening.position value hkind hnext]
    rfl

/-- A name before an opening bracket whose arguments are read as links is read as their entity or
chain. -/
theorem ReadsPlain.links {depth : Nat} {nameTokens tokens : List Token} {name : Value}
    {links : List (Value × Value)} (hname : ReadsPlain depth nameTokens name) {opening : Token}
    (hopening : opening.kind = .mark .openParen)
    (hlinks : ∀ finish {after}, EndsValue after → entityLinks finish (inside? finish depth) name
      opening.position (tokens ++ after) = .ok (links, after)) :
    Reads depth (nameTokens ++ opening :: tokens) (ofLinks links) where
  opens := by
    obtain ⟨token, more, rfl, htoken⟩ := hname.opens
    exact ⟨token, _, rfl, htoken⟩
  keyless _ := by
    rw [List.append_assoc]
    refine hname.keyless ?_
    rintro _ ⟨⟩
    rw [hopening]
    simp
  read finish after hafter := by
    have harguments : splitArguments? (opening :: (tokens ++ after)) =
        some (opening.position, tokens ++ after) := if_pos hopening
    rw [run_inlineValue, valueWith, List.append_assoc, List.cons_append, hname.read]
    dsimp only
    rw [harguments]
    dsimp only
    rw [hlinks finish hafter]
    rfl

/-- A name and its arguments in parentheses are read as an entity. -/
theorem ReadsPlain.entity {depth : Nat} {nameTokens tokens : List Token} {name arguments : Value}
    (hname : ReadsPlain depth nameTokens name) {opening : Token}
    (hopening : opening.kind = .mark .openParen)
    (harguments : Collects depth .paren tokens arguments) :
    Reads depth (nameTokens ++ opening :: tokens) (.entity name arguments) :=
  hname.links hopening fun finish _ hafter =>
    entityLinks_of_bracketed (harguments finish opening.position _) hafter.splitLink?

/-- A name, its arguments in parentheses and further links are read as an entity or a chain. -/
theorem ReadsContents.links {depth : Nat} {tokens nameTokens rest : List Token} {items : List Item}
    {name arguments : Value} {links : List (Value × Value)} (h : ReadsContents depth tokens items)
    (hcollect : Item.collect false items = .ok arguments)
    (hname : ReadsPlain (depth + 1) nameTokens name) {opening close : Token}
    (hopening : opening.kind = .mark .openParen) (hclose : close.kind = .mark .closeParen)
    (hlinks : ReadsLinks depth rest links) :
    Reads (depth + 1) (nameTokens ++ opening :: (tokens ++ close :: rest))
      (ofLinks ((name, arguments) :: links)) := by
  refine hname.links hopening fun finish after hafter => ?_
  rw [List.append_assoc, List.cons_append]
  exact hlinks.read h hcollect hclose finish opening.position name hafter

end NeonAudit
