import NeonAudit.Config.Lexeme

/-!
# Settings of a configuration

A configuration maps names to settings, each of which is a scalar or a list of scalars. The mapping
is either laid out on lines, each name at the same column, or written within braces. A list is
either laid out on lines after its name, each item after a dash at the same column, or written
within brackets.

This is a subset of YAML, and every other file is refused, also where YAML has a meaning for it: a
file that is a list or a scalar as a whole, that nests a list or a mapping in a list, that goes on
after its closing brace, or that has a name without a colon. The modules of lexemes and of quoted
scalars say which files are refused for how their scalars and marks are written.
-/

namespace NeonAudit.Config

/-- What a name is set to. -/
inductive Setting
  /-- A scalar, which is plain if it is written without quotes. -/
  | scalar (text : String) (plain : Bool)
  /-- A list of scalars. -/
  | list (items : List String)
deriving DecidableEq

/-- What a name is set to if nothing follows it. -/
def Setting.absent : Setting :=
  .scalar "" true

/-- A name with the lexemes after its colon. -/
structure Section where
  /-- The name. -/
  name : String
  /-- The number of characters before the name on its line. -/
  column : Nat
  /-- Whether the name is the first lexeme of its line. -/
  opensLine : Bool
  /-- The lexemes up to the next name. -/
  content : List Lexeme

/-- The sections that start at scalars with colons after them, and the lexemes before the first. -/
def sections : List Lexeme → List Lexeme × List Section
  | [] => ([], [])
  | [lexeme] => ([lexeme], [])
  | first :: second :: rest =>
    match first.kind, second.kind with
    | .scalar name _, .mark .colon =>
      let (content, others) := sections rest
      ([], ⟨name, first.column, first.opensLine, content⟩ :: others)
    | _, _ =>
      let (before, others) := sections (second :: rest)
      (first :: before, others)

/-- The items of a list within brackets, given the lexemes after the opening bracket. -/
def bracketItems : List Lexeme → Option (List String)
  | [] => none
  | [last] => if last.kind = .mark .closeList then some [] else none
  | first :: second :: rest =>
    match first.kind, second.kind with
    | .scalar text _, .mark .comma => (bracketItems rest).map (text :: ·)
    | .scalar text _, .mark .closeList => if rest.isEmpty then some [text] else none
    | _, _ => none

/-- Whether a lexeme can stand in the content of what starts at a column. -/
def Lexeme.isWithin (column : Nat) (lexeme : Lexeme) : Bool :=
  !lexeme.opensLine || column < lexeme.column

/-- Whether a lexeme is a dash at the start of a line and at a column. -/
def Lexeme.isDashAt (column : Nat) (lexeme : Lexeme) : Bool :=
  lexeme.kind = .mark .dash && lexeme.opensLine && lexeme.column = column

/-- The items of a list on lines whose dashes stand at a column. -/
def dashItems (column : Nat) : List Lexeme → Option (List String)
  | [] => some []
  | [dash] => if dash.isDashAt column then some [""] else none
  | dash :: item :: rest =>
    if dash.isDashAt column then
      match item.kind with
      | .scalar text _ =>
        if item.isWithin column then (dashItems column rest).map (text :: ·) else none
      | .mark _ => (dashItems column (item :: rest)).map ("" :: ·)
    else none

/-- The setting that lexemes after a name at a column spell. -/
def settingAt? (column : Nat) : List Lexeme → Option Setting
  | [] => some .absent
  | lexeme :: rest =>
    match lexeme.kind with
    | .scalar text plain =>
      if rest.isEmpty && lexeme.isWithin column then some (.scalar text plain) else none
    | .mark .openList =>
      if lexeme.isWithin column then (bracketItems rest).map Setting.list else none
    | .mark .dash =>
      if column ≤ lexeme.column then
        (dashItems lexeme.column (lexeme :: rest)).map Setting.list
      else none
    | .mark _ => none

/-- The settings of sections on lines whose names stand at a column. -/
def settingsOnLines (column : Nat) (sections : List Section) : Option (List (String × Setting)) :=
  sections.mapM fun entry =>
    if entry.opensLine && entry.column = column then
      (settingAt? column entry.content).map (entry.name, ·)
    else none

/-- Lexemes without a mark that must be the last one. -/
def dropLastMark? (mark : Mark) (lexemes : List Lexeme) : Option (List Lexeme) :=
  match lexemes.getLast? with
  | none => none
  | some lexeme => if lexeme.kind = .mark mark then some lexemes.dropLast else none

/-- The settings of sections within braces, given the lexemes after the opening brace. Commas stand
between the sections and can stand after the last one. -/
def settingsInBraces : List Section → Option (List (String × Setting))
  | [] => some []
  | entry :: rest =>
    let content :=
      if rest.isEmpty then some ((dropLastMark? .comma entry.content).getD entry.content)
      else dropLastMark? .comma entry.content
    match content with
    | none => none
    | some content =>
      match settingAt? 0 (content.map fun lexeme => { lexeme with opensLine := false }) with
      | none => none
      | some setting => (settingsInBraces rest).map ((entry.name, setting) :: ·)

/-- The settings that lexemes spell. -/
def settingsOf : List Lexeme → Option (List (String × Setting))
  | [] => some []
  | first :: rest =>
    if first.kind = .mark .openMapping then
      match dropLastMark? .closeMapping rest with
      | none => none
      | some body =>
        let (before, entries) := sections body
        if before.isEmpty then settingsInBraces entries else none
    else
      let (before, entries) := sections (first :: rest)
      if before.isEmpty then settingsOnLines first.column entries else none

/-- The settings of a configuration. -/
def settings (source : List Char) : Option (List (String × Setting)) :=
  match lexemes source with
  | none => none
  | some lexemes => settingsOf lexemes

end NeonAudit.Config
