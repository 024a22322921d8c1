import NeonAudit.Document.Decode

/-!
# Decoding with a cursor

Instead of handing lists of tokens on, a decoder can leave the tokens where they are and move a
cursor over them. The cursor tells how many tokens are behind it and how many collections are open.
It never moves past the end of the tokens by itself, and the loops over items go on for as long as
nothing stops them, so neither that a run ends nor that the cursor stays at a token can be read off
these definitions. Where a run does what it should not have to do, it ends in a halt of its own.
-/

namespace NeonAudit

/-- A place among tokens. -/
structure Cursor where
  /-- How many tokens are behind it. -/
  pos : Nat
  /-- How many blocks and brackets are open. -/
  depth : Nat
deriving DecidableEq

namespace Cursor

/-- Why a walk over tokens stops without a result. -/
inductive Halt
  /-- The tokens are no document. -/
  | failed (failure : DecodeFailure)
  /-- A token is looked up past the end. -/
  | outside
  /-- A key is taken where none is. -/
  | noKey
  /-- The name of a link is taken where no literal is. -/
  | noLink
  /-- The turns that are allowed are used up. -/
  | unfinished
deriving DecidableEq

/-- A walk of a cursor over tokens that are given. -/
abbrev Walk (α : Type) :=
  ReaderT TokenStream (StateT Cursor (Except Halt)) α

/-- What a walk that starts at a cursor results in, and the cursor where it ends. -/
def Walk.runFrom {α : Type} (walk : Walk α) (stream : TokenStream) (cursor : Cursor) :
    Except Halt (α × Cursor) :=
  (walk.run stream).run cursor

/-- The token at the cursor; there is none at the end. -/
def peek : Walk (Option Token) := do
  let stream ← read
  let cursor ← get
  if cursor.pos ≤ stream.tokens.length then return stream.tokens[cursor.pos]?
  else throw .outside

/-- The token after the one at the cursor. -/
def peekNext : Walk (Option Token) := do
  let stream ← read
  let cursor ← get
  return stream.tokens[cursor.pos + 1]?

/-- The token at the cursor, which moves behind it; at the end it stays. -/
def advance : Walk (Option Token) := do
  let token ← peek
  if token.isSome then modify fun cursor => ⟨cursor.pos + 1, cursor.depth⟩
  return token

/-- The place of the token at the cursor. -/
def position : Walk Position := do
  let stream ← read
  return headPosition stream.finish (← peek).toList

/-- Fails for a cause at the token at the cursor. -/
def fail {α : Type} (cause : DecodeError.Cause) : Walk α := do
  throw (.failed (.at (← position) cause))

/-- Fails because the token at the cursor cannot stand there. -/
def unexpectedToken {α : Type} : Walk α := do
  let stream ← read
  throw (.failed (unexpected stream.finish (← peek).toList))

/-- Goes on with a result, or fails. -/
def ofResult {α : Type} (result : Except DecodeFailure α) : Walk α :=
  match result with
  | .error failure => throw (.failed failure)
  | .ok a => return a

/-- Whether the cursor is at the end. -/
def atEnd : Walk Bool := do
  return (← peek).isNone

/-- Whether the cursor is at a mark. -/
def atMark (mark : Mark) : Walk Bool := do
  return (← peek).any fun token => token.kind = .mark mark

/-- Whether a mark is after the token at the cursor. -/
def beforeMark (mark : Mark) : Walk Bool := do
  return (← peekNext).any fun token => token.kind = .mark mark

/-- The indentation of the line break at the cursor. -/
def lineIndent? : Walk (Option (List Char)) := do
  return (← peek).bind fun token =>
    match token.kind with
    | .lineBreak indent => some indent
    | _ => none

/-- Whether the cursor is at a line break. -/
def atLineBreak : Walk Bool := do
  return (← lineIndent?).isSome

/-- Whether the token at the cursor is the last one. -/
def beforeEnd : Walk Bool := do
  return (← peekNext).isNone

/-- Whether the cursor is at a token that can be a key before one of the separators. -/
def atKey (separators : List Mark) : Walk Bool := do
  let token ← peek
  let separator ← peekNext
  return token.any (fun token => token.key?.isSome) &&
    separator.any fun token => separators.any fun mark => token.kind = .mark mark

/-- The key at the cursor, which moves behind its separator. -/
def takeKey : Walk Key := do
  let token ← advance
  let _ ← advance
  match token.bind fun token => token.key?.map fun name => (⟨name, token.position⟩ : Key) with
  | some key => return key
  | none => throw .noKey

/-- A walk inside one more collection. -/
def nested {α : Type} (walk : Walk α) : Walk α := do
  modify fun cursor => ⟨cursor.pos, cursor.depth + 1⟩
  if (← get).depth > maxDepth then fail .tooDeep
  else
    let result ← walk
    modify fun cursor => ⟨cursor.pos, cursor.depth - 1⟩
    return result

/-- What a turn of a loop ends with. -/
inductive Turn (σ α : Type)
  /-- Another turn. -/
  | again (state : σ)
  /-- The result of the loop. -/
  | done (result : α)

/-- Takes turns until one ends with a result, at most as many as are allowed. -/
def iterate {σ α : Type} (turn : σ → Walk (Turn σ α)) : (turns : Nat) → σ → Walk α
  | 0, _ => throw .unfinished
  | turns + 1, state => do
    match ← turn state with
    | .again state => iterate turn turns state
    | .done result => return result

/-- A turn of skipping line breaks, where `skipped` tells whether there were any. -/
def skipTurn (skipped : Bool) : Walk (Turn Bool Bool) := do
  if ← atLineBreak then
    let _ ← advance
    return .again true
  else return .done skipped

/-- Skips line breaks and tells whether there were any. -/
def skip (turns : Nat) : Walk Bool :=
  iterate skipTurn turns false

/-- The items of a collection that have been read and the keys among them. -/
structure Builder where
  /-- The items in order. -/
  items : List Item
  /-- The keys, the last one first. -/
  seen : List String

namespace Builder

/-- Nothing has been read. -/
def empty : Builder :=
  ⟨[], []⟩

/-- One more item has been read. -/
def add (builder : Builder) (item : Item) : Builder :=
  ⟨builder.items ++ [item], item.key.toList ++ builder.seen⟩

/-- One more item has been read, unless its key is repeated. -/
def push (builder : Builder) (key? : Option Key) (value : Value) : Walk Builder := do
  return builder.add (← ofResult (blockItem builder.seen key? value))

end Builder

section Inline

variable (value : Walk Value) (inline : Bracket → Walk Value)

/-- The value of an item in brackets, where it may be left out after a key. -/
def valueInside (close : Mark) (keyed : Bool) : Walk Value := do
  if keyed && ((← atMark .comma) || (← atMark close) || (← atLineBreak)) then return .null
  else value

/-- Reads an item in brackets. -/
def itemInside (close : Mark) (builder : Builder) : Walk Builder := do
  if ← atKey [.colon, .equals] then
    let key ← takeKey
    builder.push (some key) (← valueInside value close true)
  else builder.push none (← valueInside value close false)

/-- Reads what follows an item in brackets. -/
def separate (turns : Nat) (bracket : Bracket) (builder : Builder) : Walk (Turn Builder Value) := do
  let skipped ← skip turns
  if ← atMark .comma then
    let _ ← advance
    return .again builder
  else if ← atMark bracket.close then
    let _ ← advance
    return .done (← ofResult (Item.collect (bracket = .brace) builder.items))
  else if skipped then return .again builder
  else unexpectedToken

/-- A turn of reading what is in brackets: an item, or the closing bracket. -/
def inlineTurn (turns : Nat) (bracket : Bracket) (builder : Builder) :
    Walk (Turn Builder Value) := do
  let _ ← skip turns
  if ← atMark bracket.close then
    let _ ← advance
    return .done (← ofResult (Item.collect (bracket = .brace) builder.items))
  else if ← atEnd then unexpectedToken
  else separate turns bracket (← itemInside value bracket.close builder)

/-- Reads a collection in brackets, where the cursor is at the opening one. -/
def inlineWith (turns : Nat) (bracket : Bracket) : Walk Value :=
  nested do
    let _ ← advance
    iterate (inlineTurn value turns bracket) turns .empty

/-- Reads a value without the arguments that may follow it. -/
def plain : Walk Value := do
  match (← peek).map Token.kind with
  | some (.string text) =>
    let _ ← advance
    return .string text
  | some (.literal raw) =>
    let _ ← advance
    ofResult (literalValue raw)
  | some (.mark .openSquare) => inline .square
  | some (.mark .openBrace) => inline .brace
  | _ => unexpectedToken

/-- Whether the cursor is at a literal before the opening of arguments. -/
def atLink : Walk Bool := do
  let token ← peek
  let literal := token.any fun token =>
    match token.kind with
    | .literal _ => true
    | _ => false
  return literal && (← beforeMark .openParen)

/-- A turn of reading the links of a chain. -/
def linkTurn (links : List (Value × Value)) : Walk (Turn (List (Value × Value)) Value) := do
  if ← atLink then
    match (← advance).map Token.kind with
    | some (.literal raw) =>
      let name ← ofResult (literalValue raw)
      let arguments ← inline .paren
      return .again (links ++ [(name, arguments)])
    | _ => throw .noLink
  else return .done (ofLinks links)

/-- Reads a value with the arguments that follow it. -/
def valueWith (turns : Nat) : Walk Value := do
  let first ← plain inline
  if ← atMark .openParen then
    let arguments ← inline .paren
    iterate (linkTurn inline) turns [(first, arguments)]
  else return first

end Inline

/-- Reads a collection in brackets with a bound on the turns of a loop and on how deeply collections
are nested. -/
def inline : (fuel : Nat) → Bracket → Walk Value
  | 0, _ => throw .unfinished
  | fuel + 1, bracket => inlineWith (valueWith (inline fuel) fuel) fuel bracket

/-- Reads an inline value. -/
def value (fuel : Nat) : Walk Value :=
  valueWith (inline fuel) fuel

section Block

variable (value : Walk Value) (block : List Char → Bool → Walk Value)

/-- Compares the indentation of the line break at the cursor with that of a block. -/
def compareLine (next indent : List Char) : Walk Ordering := do
  match compareIndent next indent with
  | some ordering => return ordering
  | none => fail .mixedIndentation

/-- The start of an item of a block, if the cursor is at one. -/
def takeStart (onlyDashes : Bool) : Walk (Option (Option Key)) := do
  if ← atMark .dash then
    let _ ← advance
    return some none
  else if !onlyDashes && (← atKey [.colon]) then return some (some (← takeKey))
  else return none

/-- Reads the value of an item on the lines after it. -/
def valueBelow (indent : List Char) (dash : Bool) (next : List Char) : Walk Value := do
  if ← beforeEnd then return .null
  else
    match ← compareLine next indent with
    | .gt =>
      let _ ← advance
      block next false
    | .eq =>
      if !dash && (← beforeMark .dash) then
        let _ ← advance
        block indent true
      else return .null
    | .lt => return .null

/-- Reads the value of an item of a block. -/
def valueAfter (indent : List Char) (dash : Bool) : Walk Value := do
  if (← atEnd) || (← atLineBreak) then
    match ← lineIndent? with
    | none => return .null
    | some next => valueBelow block indent dash next
  else if dash && ((← atKey [.colon]) || (← atMark .dash)) then
    block (innerIndent indent (← position).column) false
  else value

/-- Whether another item of a block follows; if so the cursor moves behind the line break. -/
def continues (indent : List Char) (onlyDashes : Bool) : Walk Bool := do
  if (← atEnd) || ((← atLineBreak) && (← beforeEnd)) then return false
  else
    match ← lineIndent? with
    | none => unexpectedToken
    | some next =>
      match ← compareLine next indent with
      | .eq =>
        if onlyDashes && !(← beforeMark .dash) then return false
        else
          let _ ← advance
          return true
      | .lt => return false
      | .gt => fail .badIndentation

/-- A turn of reading a block: an item, or the value that the block is. -/
def blockTurn (indent : List Char) (onlyDashes : Bool) (builder : Builder) :
    Walk (Turn Builder Value) := do
  match ← takeStart onlyDashes with
  | some key? =>
    let value ← valueAfter value block indent key?.isNone
    let builder ← builder.push key? value
    if ← continues indent onlyDashes then return .again builder
    else return .done (← ofResult (Item.collect false builder.items))
  | none =>
    if builder.items.isEmpty && !onlyDashes then return .done (← value)
    else unexpectedToken

/-- Reads a block. -/
def blockWith (turns : Nat) (indent : List Char) (onlyDashes : Bool) : Walk Value :=
  nested (iterate (blockTurn value block indent onlyDashes) turns .empty)

end Block

/-- Reads a block with a bound on the turns of a loop and on how deeply collections are nested. -/
def block : (fuel : Nat) → (indent : List Char) → (onlyDashes : Bool) → Walk Value
  | 0, _, _ => throw .unfinished
  | fuel + 1, indent, onlyDashes => blockWith (value fuel) (block fuel) fuel indent onlyDashes

/-- Reads a document. -/
def document (fuel : Nat) : Walk Value := do
  let opening ← lineIndent?
  let _ ← advance
  if ← atEnd then return .null
  else
    let value ← block fuel (opening.getD []) false
    let _ ← skip fuel
    if ← atEnd then return value
    else unexpectedToken

/-- The value of a document. -/
def decode (fuel : Nat) (source : String) : Except Halt Value :=
  match TokenStream.ofSource source.toList with
  | .error error => .error (.failed (.malformed error))
  | .ok stream => ((document fuel).runFrom stream ⟨0, 0⟩).map Prod.fst

end Cursor

end NeonAudit
