import NeonAudit.Proofs.Document.Whole
import NeonAudit.Proofs.Part

/-!
# Texts that are read as values

The text of a value spells tokens that are read as the value. Leaves are single tokens, and the
texts of collections and entities are put together from those of their parts, so the statement
follows by induction on the value. Each collection takes one of the levels that may be opened. The
links of a chain after the first are read only where their names are written without quotes.
-/

namespace NeonAudit

namespace Value

mutual

/-- How deeply collections are nested in a value; the arguments of an entity are one. -/
def nest : Value → Nat
  | scalar _ => 0
  | sequence items => nestItems items + 1
  | mapping entries => nestEntries entries + 1
  | entity name arguments => max (nest name) (nest arguments)
  | chain links => nestLinks links
  | dateTime _ => 0

/-- How deeply collections are nested in a list of values. -/
def nestItems : List Value → Nat
  | [] => 0
  | item :: items => max (nest item) (nestItems items)

/-- How deeply collections are nested below a list of entries. -/
def nestEntries : List (String × Value) → Nat
  | [] => 0
  | (_, value) :: entries => max (nest value) (nestEntries entries)

/-- How deeply collections are nested in a list of names with arguments. -/
def nestLinks : List (Value × Value) → Nat
  | [] => 0
  | (name, arguments) :: links => max (max (nest name) (nest arguments)) (nestLinks links)

end

/-- Values are nested at most so deep if each of them is. -/
theorem nestItems_le_iff {items : List Value} {depth : Nat} :
    nestItems items ≤ depth ↔ ∀ item ∈ items, item.nest ≤ depth := by
  induction items with
  | nil => simp [nestItems]
  | cons item items ih => rw [nestItems, Nat.max_le, ih, List.forall_mem_cons]

/-- Entries are nested at most so deep if the value of each of them is. -/
theorem nestEntries_le_iff {entries : List (String × Value)} {depth : Nat} :
    nestEntries entries ≤ depth ↔ ∀ entry ∈ entries, entry.2.nest ≤ depth := by
  induction entries with
  | nil => simp [nestEntries]
  | cons entry entries ih => rw [nestEntries, Nat.max_le, ih, List.forall_mem_cons]

/-- Links are nested at most so deep if the name and the arguments of each of them are. -/
theorem nestLinks_le_iff {links : List (Value × Value)} {depth : Nat} :
    nestLinks links ≤ depth ↔ ∀ link ∈ links, link.1.nest ≤ depth ∧ link.2.nest ≤ depth := by
  induction links with
  | nil => simp [nestLinks]
  | cons link links ih => rw [nestLinks, Nat.max_le, Nat.max_le, ih, List.forall_mem_cons]

/-- Whether the value is an entity or a chain of entities. -/
def isEntity : Value → Bool
  | entity _ _ => true
  | chain _ => true
  | _ => false

/-- Whether the value is a collection that arguments are read as: without items they are a
sequence. -/
def isArguments : Value → Bool
  | sequence _ => true
  | mapping entries => !entries.isEmpty
  | _ => false

/-- Whether an unquoted literal spells the value: a date and time, or a scalar that is no string
unless it is a bare one. -/
def isUnquoted : Value → Bool
  | scalar (.string text) => isPlain text.toList && denotesItself text
  | scalar _ => true
  | dateTime _ => true
  | _ => false

/-- The text of the value spells it if those of the values inside do: a float is finite, a date and
time is spelled by a literal, and a mapping does not repeat a key. Names are no entities, arguments
are collections, and the names after the first one of a chain are unquoted. -/
def IsLegible : Value → Prop
  | scalar s => s.Spellable
  | sequence _ => True
  | mapping entries => (Entries.keys entries).Nodup
  | entity name arguments => name.isEntity = false ∧ arguments.isArguments = true
  | chain links => 2 ≤ links.length ∧
      (∀ link ∈ links, link.1.isEntity = false ∧ link.2.isArguments = true) ∧
        ∀ link ∈ links.tail, link.1.isUnquoted = true
  | dateTime d => d.Spellable

/-- The text of an unquoted value is one literal that denotes it. -/
theorem exists_cuts_of_isUnquoted {value : Value} (h : value.IsLegible)
    (hunquoted : value.isUnquoted = true) :
    ∃ raw, ofLiteral raw = .ok value ∧ ∀ {rest}, Piece.Ends rest →
      Piece.Cuts (value.text ++ rest) [⟨.lexeme (.literal raw), value.text⟩] rest := by
  cases value with
  | scalar s =>
    by_cases hstring : ∃ text, s = .string text
    · obtain ⟨text, rfl⟩ := hstring
      have hbare : isPlain text.toList = true ∧ denotesItself text = true :=
        Bool.and_eq_true_iff.1 hunquoted
      have htext : (Value.scalar (.string text)).text = text.toList := if_pos hunquoted
      rw [htext]
      exact ⟨text, denotesItself_iff.1 hbare.2, Piece.cuts_of_isPlain hbare.1⟩
    · have hs : s.Spellable := h
      obtain ⟨hliteral, hvalue⟩ :=
        s.isLiteral_and_ofLiteral hs fun text htext => hstring ⟨text, htext⟩
      exact ⟨_, hvalue, hliteral.cuts⟩
  | dateTime d => exact ⟨_, ofLiteral_dateTime h, (DateTime.isLiteral_text h).cuts⟩
  | _ => contradiction

end Value

namespace Spelled

variable {text : List Char} {depth : Nat}

/-- One token that denotes a value spells it. -/
theorem of_denotes {kind : Token.Kind} {value : Value} (hkind : kind.Denotes value)
    (hcuts : ∀ {rest}, Piece.Ends rest → Piece.Cuts (text ++ rest) [⟨.lexeme kind, text⟩] rest)
    (depth : Nat) : Spelled text fun _ tokens => ReadsPlain depth tokens value :=
  (of_cuts hcuts).mono fun h => h ▸ readsPlain_of_denotes hkind depth

/-- A key before a text spells the key and a colon before the tokens of the text. -/
theorem keyed {P : Position → List Token → Prop} (h : Spelled text P) {spelled : List Char}
    {key : String} (hkey : SpellsKey spelled key) :
    Spelled (spelled ++ ':' :: ' ' :: text) fun p tokens => ∃ name colon b q,
      tokens = name :: colon :: b ∧ name.kind ∈ [.literal key, .string key] ∧ name.kind.IsPlain ∧
        name.position = p ∧ colon.kind = .mark .colon ∧ P q b := by
  obtain ⟨kind, hkind, hplain, hcuts⟩ := hkey
  refine ((of_cuts hcuts).join (Piece.precedes_space.joins_colon fun _ => rfl) h).mono ?_
  rintro p tokens ⟨_, b, rfl, rfl, hb⟩
  exact ⟨_, _, b, _, rfl, hkind, hplain, rfl, rfl, hb⟩

/-- A key and a value spell an item. -/
theorem entry {value : Value} (h : Spelled text fun _ tokens => Reads depth tokens value)
    (key : String) :
    Spelled (entryText key text) fun _ tokens =>
      ReadsItem depth tokens (Item.ofEntry (key, value)) := by
  refine (h.keyed (spellsKey_keyText key)).mono ?_
  rintro p tokens ⟨name, colon, b, -, rfl, hname, -, -, hcolon, hb⟩
  exact hb.entry hname (by simp [hcolon])

end Spelled

/-- Texts with separators between them spell a list if a single token list spells a list of one and
a comma puts two lists together. -/
theorem Spelled.intercalate {α : Type} {R : List Token → α → Prop}
    {S : List Token → List α → Prop} (hsingle : ∀ {a x}, R a x → S a [x])
    (hcons : ∀ {a x comma b xs}, R a x → comma.kind = .mark .comma → S b xs →
      S (a ++ comma :: b) (x :: xs))
    {text : List Char} {texts : List (List Char)} {x : α} {xs : List α}
    (h : List.Forall₂ (fun text x => Spelled text fun _ tokens => R tokens x)
      (text :: texts) (x :: xs)) :
    Spelled (separator.intercalate (text :: texts)) fun _ tokens => S tokens (x :: xs) := by
  induction texts generalizing text x xs with
  | nil =>
    obtain ⟨hfirst, hnil⟩ := List.forall₂_cons.1 h
    cases hnil
    rw [List.intercalate_singleton]
    exact hfirst.mono hsingle
  | cons next texts ih =>
    obtain ⟨hfirst, hrest⟩ := List.forall₂_cons.1 h
    cases xs with
    | nil => cases hrest
    | cons x' xs =>
      have hcomma : Piece.Joins separator [Piece.ofMark .comma, Piece.space] :=
        Piece.precedes_space.joins_mark .comma rfl rfl
      rw [List.intercalate_cons_cons, List.append_assoc]
      refine (hfirst.join hcomma (ih hrest)).mono ?_
      rintro p tokens ⟨a, b, rfl, ha, hb⟩
      exact hcons ha rfl hb

/-- The text spells what may be between two brackets. -/
abbrev SpellsContents (depth : Nat) (text : List Char) (items : List Item) : Prop :=
  SpelledOrEmpty text fun _ tokens => ReadsContents depth tokens items

/-- Texts of items with separators between them spell what may be between two brackets. -/
theorem SpellsContents.intercalate {depth : Nat} {texts : List (List Char)} {items : List Item}
    (h : List.Forall₂ (fun text item => Spelled text fun _ tokens => ReadsItem depth tokens item)
      texts items)
    (hkeys : (Item.keys items).Nodup) :
    SpellsContents depth (separator.intercalate texts) items := by
  cases texts with
  | nil =>
    cases h
    exact .empty fun _ => .empty
  | cons text texts =>
    cases items with
    | nil => cases h
    | cons item items =>
      have hitems := Spelled.intercalate (R := ReadsItem depth) ReadsItems.single ReadsItems.cons h
      exact .spelled (hitems.mono fun hread => .items hread hkeys)

/-- A text in square or curly brackets spells the collection of its items. -/
theorem SpellsContents.bracketed {depth : Nat} {text : List Char} {items : List Item}
    {value : Value} (h : SpellsContents depth text items) (bracket : Bracket) (openMark : Mark)
    (hbracket : (bracket, openMark) ∈ [(.square, .openSquare), (.brace, .openBrace)])
    (hcollect : Item.collect (bracket = .brace) items = .ok value) :
    Spelled (openMark.char :: text ++ [bracket.close.char]) fun _ tokens =>
      ReadsPlain (depth + 1) tokens value := by
  have hopen : Piece.bracketOrSeparator? openMark.char = some openMark := by
    simp only [List.mem_cons, List.not_mem_nil, or_false, Prod.mk.injEq] at hbracket
    rcases hbracket with ⟨rfl, rfl⟩ | ⟨rfl, rfl⟩ <;> rfl
  obtain ⟨hclose, hends⟩ := bracket.close_char
  refine (h.enclose openMark bracket.close hopen hclose hends).mono ?_
  rintro p tokens ⟨opening, a, closing, rfl, hopening, hclosing, ha⟩
  exact (ha.collects hclosing hcollect).readsPlain hbracket hopening

/-- The text spells further links of a chain. -/
abbrev SpellsLinks (depth : Nat) (text : List Char) (links : List (Value × Value)) : Prop :=
  SpelledOrEmpty text fun _ tokens => ReadsLinks depth tokens links

/-- A name, a text in parentheses and further links spell an entity or a chain. -/
theorem SpellsContents.links {depth : Nat} {text nameText linksText : List Char}
    {items : List Item} {name arguments : Value} {links : List (Value × Value)}
    (h : SpellsContents depth text items) (hcollect : Item.collect false items = .ok arguments)
    (hname : Spelled nameText fun _ tokens => ReadsPlain (depth + 1) tokens name)
    (hlinks : SpellsLinks depth linksText links) :
    Spelled (nameText ++ '(' :: text ++ ')' :: linksText) fun _ tokens =>
      Reads (depth + 1) tokens (ofLinks ((name, arguments) :: links)) := by
  refine ((hname.follow .openParen rfl rfl h).follow .closeParen rfl rfl hlinks).mono ?_
  rintro p tokens ⟨_, close, c, rfl, hclose, ⟨a, opening, b, rfl, hopening, ha, hb⟩, hc⟩
  rw [List.append_assoc]
  exact hb.links hcollect ha hopening hclose hc

/-- A literal, a text in parentheses and further links spell further links. -/
theorem SpellsContents.link {depth : Nat} {text nameText linksText : List Char}
    {items : List Item} {raw : String} {name arguments : Value} {links : List (Value × Value)}
    (h : SpellsContents depth text items) (hcollect : Item.collect false items = .ok arguments)
    (hvalue : Value.ofLiteral raw = .ok name)
    (hcuts : ∀ {rest}, Piece.Ends rest →
      Piece.Cuts (nameText ++ rest) [⟨.lexeme (.literal raw), nameText⟩] rest)
    (hlinks : SpellsLinks depth linksText links) :
    SpellsLinks depth (nameText ++ '(' :: text ++ ')' :: linksText)
      ((name, arguments) :: links) := by
  have hopened := (Spelled.of_cuts hcuts).follow .openParen rfl rfl h
  refine .spelled ((hopened.follow .closeParen rfl rfl hlinks).mono ?_)
  rintro p tokens ⟨_, close, c, rfl, hclose, ⟨_, opening, b, rfl, hopening, rfl, hb⟩, hc⟩
  rw [List.append_assoc]
  exact .cons rfl hvalue hopening hb hcollect hclose hc

namespace Value

/-- A value is legible if all its parts are. -/
abbrev Legible (value : Value) : Prop :=
  value.Throughout IsLegible

mutual

/-- The text of a legible value is read as the value, and if the value is no entity then whatever
follows. -/
theorem Legible.spelled : ∀ {value : Value} {depth : Nat}, value.Legible → value.nest ≤ depth →
    Spelled value.text fun _ tokens =>
      Reads depth tokens value ∧ (value.isEntity = false → ReadsPlain depth tokens value)
  | scalar s, depth, h, _ => by
    obtain ⟨kind, hkind, -, hcuts⟩ := s.exists_cuts h.here
    exact (Spelled.of_denotes hkind hcuts depth).mono fun hread => ⟨hread.reads, fun _ => hread⟩
  | sequence items, 0, _, hnest => absurd hnest (Nat.not_succ_le_zero _)
  | sequence items, depth + 1, h, hnest => by
    have hcontents := SpellsContents.intercalate
      (spelled_itemTexts items (fun item hmem => h.part (.item hmem .self))
        (Nat.le_of_succ_le_succ hnest))
      (by rw [Item.keys_map_ofValue]; exact List.nodup_nil)
    have hspelled := hcontents.bracketed .square .openSquare List.mem_cons_self
      (Item.collect_map_ofValue (.inr rfl))
    exact hspelled.mono fun hread => ⟨hread.reads, fun _ => hread⟩
  | mapping entries, 0, _, hnest => absurd hnest (Nat.not_succ_le_zero _)
  | mapping entries, depth + 1, h, hnest => by
    have hkeys : (Entries.keys entries).Nodup := h.here
    have hcontents := SpellsContents.intercalate
      (spelled_entryTexts entries (fun entry hmem => h.part (.entry hmem .self))
        (Nat.le_of_succ_le_succ hnest))
      (by rw [Item.keys_map_ofEntry]; exact hkeys)
    have hspelled := hcontents.bracketed .brace .openBrace
      (List.mem_cons_of_mem _ List.mem_cons_self) (Item.collect_map_ofEntry hkeys (.inr rfl))
    exact hspelled.mono fun hread => ⟨hread.reads, fun _ => hread⟩
  | entity name arguments, depth, h, hnest => by
    obtain ⟨hname, harguments⟩ : IsLegible (entity name arguments) := h.here
    have hspelledName := (Legible.spelled (h.part (.name .self)) (Nat.max_le.1 hnest).1).mono
      fun hread => hread.2 hname
    obtain ⟨items, depth, rfl, hcontents, hcollect⟩ :=
      spells_argumentsText arguments harguments (h.part (.arguments .self)) (Nat.max_le.1 hnest).2
    have hspelled := hcontents.links hcollect hspelledName (.empty fun _ => .nil)
    exact hspelled.mono fun hread => ⟨hread, fun hentity => by contradiction⟩
  | chain [], _, h, _ => absurd h.here.1 (by decide)
  | chain [_], _, h, _ => absurd h.here.1 (Nat.not_succ_le_self 1)
  | chain ((name, arguments) :: link :: links), depth, h, hnest => by
    obtain ⟨-, hnames, hunquoted⟩ : IsLegible (chain ((name, arguments) :: link :: links)) :=
      h.here
    obtain ⟨hname, harguments⟩ := hnames (name, arguments) List.mem_cons_self
    have hdepth := Nat.max_le.1 hnest
    have hspelledName := (Legible.spelled (h.part (.linkName List.mem_cons_self .self))
      (Nat.max_le.1 hdepth.1).1).mono fun hread => hread.2 hname
    obtain ⟨items, depth, rfl, hcontents, hcollect⟩ := spells_argumentsText arguments harguments
      (h.part (.linkArguments List.mem_cons_self .self)) (Nat.max_le.1 hdepth.1).2
    have hlinks := spells_linksText (link :: links) (fun other hmem =>
      have hmem' := List.mem_cons_of_mem (name, arguments) hmem
      ⟨hunquoted other hmem, h.part (.linkName hmem' .self), (hnames other hmem').2,
        h.part (.linkArguments hmem' .self)⟩) hdepth.2
    have hspelled := hcontents.links hcollect hspelledName hlinks
    exact hspelled.mono fun hread => ⟨hread, fun hentity => by contradiction⟩
  | dateTime d, depth, h, _ => by
    obtain ⟨kind, hkind, -, hcuts⟩ := d.exists_cuts h.here
    exact (Spelled.of_denotes hkind hcuts depth).mono fun hread => ⟨hread.reads, fun _ => hread⟩

/-- The text of arguments is read as items that they are collected from. -/
theorem spells_argumentsText : ∀ (arguments : Value) {depth : Nat}, arguments.isArguments = true →
    arguments.Legible → arguments.nest ≤ depth →
      ∃ items inner, depth = inner + 1 ∧ SpellsContents inner arguments.argumentsText items ∧
        Item.collect false items = .ok arguments
  | sequence items, 0, _, _, hnest => absurd hnest (Nat.not_succ_le_zero _)
  | sequence items, depth + 1, _, h, hnest =>
    ⟨_, depth, rfl, SpellsContents.intercalate
      (spelled_itemTexts items (fun item hmem => h.part (.item hmem .self))
        (Nat.le_of_succ_le_succ hnest))
      (by rw [Item.keys_map_ofValue]; exact List.nodup_nil), Item.collect_map_ofValue (.inr rfl)⟩
  | mapping entries, 0, _, _, hnest => absurd hnest (Nat.not_succ_le_zero _)
  | mapping entries, depth + 1, harguments, h, hnest =>
    have hkeys : (Entries.keys entries).Nodup := h.here
    ⟨_, depth, rfl, SpellsContents.intercalate
      (spelled_entryTexts entries (fun entry hmem => h.part (.entry hmem .self))
        (Nat.le_of_succ_le_succ hnest))
      (by rw [Item.keys_map_ofEntry]; exact hkeys),
      Item.collect_map_ofEntry hkeys (.inl fun hnil => by
        rw [isArguments, hnil] at harguments
        contradiction)⟩
  | scalar _, _, harguments, _, _ => Bool.noConfusion harguments
  | entity _ _, _, harguments, _, _ => Bool.noConfusion harguments
  | chain _, _, harguments, _, _ => Bool.noConfusion harguments
  | dateTime _, _, harguments, _, _ => Bool.noConfusion harguments

/-- The texts of links with unquoted names are read as further links. -/
theorem spells_linksText : ∀ (links : List (Value × Value)) {depth : Nat},
    (∀ link ∈ links, link.1.isUnquoted = true ∧ link.1.Legible ∧ link.2.isArguments = true ∧
      link.2.Legible) → nestLinks links ≤ depth + 1 → SpellsLinks depth (linksText links) links
  | [], _, _, _ => .empty fun _ => .nil
  | (name, arguments) :: links, depth, h, hnest => by
    obtain ⟨hunquoted, hname, harguments, hlegible⟩ := h (name, arguments) List.mem_cons_self
    have hdepth := Nat.max_le.1 hnest
    obtain ⟨raw, hvalue, hcuts⟩ := exists_cuts_of_isUnquoted hname.here hunquoted
    obtain ⟨items, inner, hinner, hcontents, hcollect⟩ :=
      spells_argumentsText arguments harguments hlegible (Nat.max_le.1 hdepth.1).2
    obtain rfl := Nat.succ.inj hinner
    exact hcontents.link hcollect hvalue hcuts
      (spells_linksText links (fun other hmem => h other (List.mem_cons_of_mem _ hmem)) hdepth.2)

/-- The texts of values are read as items without keys. -/
theorem spelled_itemTexts : ∀ (items : List Value) {depth : Nat}, (∀ item ∈ items, item.Legible) →
    nestItems items ≤ depth →
      List.Forall₂ (fun text item => Spelled text fun _ tokens => ReadsItem depth tokens item)
        (itemTexts items) (items.map Item.ofValue)
  | [], _, _, _ => .nil
  | item :: items, _, h, hnest =>
    .cons ((Legible.spelled (h item List.mem_cons_self) (Nat.max_le.1 hnest).1).mono
        fun hread => hread.1.item)
      (spelled_itemTexts items (fun other hmem => h other (List.mem_cons_of_mem item hmem))
        (Nat.max_le.1 hnest).2)

/-- The texts of entries are read as items with their keys. -/
theorem spelled_entryTexts : ∀ (entries : List (String × Value)) {depth : Nat},
    (∀ entry ∈ entries, entry.2.Legible) → nestEntries entries ≤ depth →
      List.Forall₂ (fun text item => Spelled text fun _ tokens => ReadsItem depth tokens item)
        (entryTexts entries) (entries.map Item.ofEntry)
  | [], _, _, _ => .nil
  | (key, value) :: entries, _, h, hnest =>
    .cons (((Legible.spelled (h (key, value) List.mem_cons_self) (Nat.max_le.1 hnest).1).mono
        fun hread => hread.1).entry key)
      (spelled_entryTexts entries (fun other hmem => h other (List.mem_cons_of_mem _ hmem))
        (Nat.max_le.1 hnest).2)

end

end Value

end NeonAudit
