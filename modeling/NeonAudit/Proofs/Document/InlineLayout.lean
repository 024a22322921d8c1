import NeonAudit.Proofs.Document.RoundTrip
import NeonAudit.Proofs.Document.Separated
import NeonAudit.Proofs.Token.Padding

/-!
# Layouts of inline values

The text of a value may be laid out over lines. Two items are separated by a comma, by line ends, or
by both, a separator may stay behind the last item, padding may follow an opening bracket, and an
equals sign between blanks may stand for the colon behind a key. `Value.IsLayout` gathers the texts
that arise from the text of a value by such choices, made at each place on their own, and every one
of them is decoded to the value.
-/

namespace NeonAudit

/-- What separates two items: a comma with padding around it, or padding that spans lines. A comment
does not follow the first item directly. -/
inductive IsItemSeparator : List Char → Prop
  | comma {before after} : IsPadding before → before.head? ≠ some '#' → IsPadding after →
      IsItemSeparator (before ++ ',' :: after)
  | lines {padding} : IsPadding padding → padding.head? ≠ some '#' → '\n' ∈ padding →
      IsItemSeparator padding

/-- One text or more with separators between them, and blanks or a separator behind the last one. -/
inductive IsRow : (texts : List (List Char)) → (row : List Char) → Prop
  | last {text blanks} : (∀ c ∈ blanks, c ∈ [' ', '\t', '\r']) → IsRow [text] (text ++ blanks)
  | trailing {text trail} : IsItemSeparator trail → IsRow [text] (text ++ trail)
  | cons {text sep texts row} : IsItemSeparator sep → IsRow texts row →
      IsRow (text :: texts) (text ++ (sep ++ row))

/-- What stands between two brackets: padding, and the texts in a row if there are any. -/
inductive IsContents : (texts : List (List Char)) → (contents : List Char) → Prop
  | empty {padding} : IsPadding padding → IsContents [] padding
  | row {padding texts row} : IsPadding padding → IsRow texts row →
      IsContents texts (padding ++ row)

namespace Value

mutual

/-- The text is that of the value up to the layout inside its brackets. -/
inductive IsLayout : Value → List Char → Prop
  | scalar {s : Scalar} : IsLayout (.scalar s) s.text
  | dateTime {d : DateTime} : IsLayout (.dateTime d) d.text
  | sequence {items contents} : IsContentsLayout (.sequence items) contents →
      IsLayout (.sequence items) ('[' :: (contents ++ [']']))
  | mapping {entries contents} : IsContentsLayout (.mapping entries) contents →
      IsLayout (.mapping entries) ('\x7b' :: (contents ++ ['\x7d']))
  | entity {name nameText arguments contents} : IsLayout name nameText →
      IsContentsLayout arguments contents →
        IsLayout (.entity name arguments) (nameText ++ '(' :: (contents ++ [')']))

/-- The text may stand between the brackets of the collection. -/
inductive IsContentsLayout : Value → List Char → Prop
  | sequence {items texts contents} : List.Forall₂ IsLayout items texts →
      IsContents texts contents → IsContentsLayout (.sequence items) contents
  | mapping {entries texts contents} : List.Forall₂ IsEntryLayout entries texts →
      IsContents texts contents → IsContentsLayout (.mapping entries) contents

/-- The text is that of the entry up to the sign behind its key and the layout of its value. -/
inductive IsEntryLayout : String × Value → List Char → Prop
  | colon {key value text} : IsLayout value text →
      IsEntryLayout (key, value) (keyText key ++ ':' :: ' ' :: text)
  | equals {key value text} : IsLayout value text →
      IsEntryLayout (key, value) (keyText key ++ ' ' :: '=' :: ' ' :: text)

end

end Value

/-- The mark that opens a pair of brackets. -/
def Bracket.opening : Bracket → Mark
  | square => .openSquare
  | brace => .openBrace
  | paren => .openParen

/-- The text is laid out so that it is read as the item. -/
abbrev LaysItem (depth : Nat) (text : List Char) (item : Item) : Prop :=
  LaidOut text Piece.Ends fun tokens => ReadsItem depth tokens item

/-- The text up to a closing bracket is laid out so that it is read as the items. -/
abbrev LaysItems (depth : Nat) (bracket : Bracket) (text : List Char) (items : List Item) : Prop :=
  LaidOut text (fun _ => True) fun tokens =>
    OpensValue tokens ∧ ReadsInside depth bracket tokens items

/-- The text is laid out so that between the brackets it is collected to the value. -/
abbrev LaysCollection (depth : Nat) (bracket : Bracket) (contents : List Char) (value : Value) :
    Prop :=
  LaidOut (bracket.opening.char :: (contents ++ [bracket.close.char])) (fun _ => True) fun tokens =>
    ∃ opening rest, tokens = opening :: rest ∧ opening.kind = .mark bracket.opening ∧
      Collects depth bracket rest value

section Items

variable {depth : Nat} {bracket : Bracket} {text : List Char} {item : Item}

/-- A bracket, comma or equals sign is laid out before everything. -/
theorem laidOut_mark (mark : Mark) (h : Piece.bracketOrSeparator? mark.char = some mark) :
    LaidOut [mark.char] (fun _ => True) fun tokens =>
      ∃ token, tokens = [token] ∧ token.kind = .mark mark :=
  .mark mark fun {rest} _ => Piece.cuts_mark mark h rest

/-- The last item stands before padding and the closing bracket. -/
theorem LaidOut.close (h : LaysItem depth text item) {padding : List Char}
    (hpadding : IsPadding padding) (hfront : padding.head? ≠ some '#') :
    LaysItems depth bracket (text ++ (padding ++ [bracket.close.char])) [item] := by
  obtain ⟨hmark, hends⟩ := bracket.close_char
  refine (h.join hpadding (laidOut_mark bracket.close hmark) ?_).mono id ?_
  · intro rest _
    exact hpadding.ends hfront (.inr ⟨_, rfl, hends⟩)
  · rintro _ ⟨a, breaks, _, rfl, hbreaks, -, ha, close, rfl, hclose⟩
    exact ⟨ha.opens.append _, ha.inside (readsBehind_close hbreaks hclose)⟩

/-- A comma and padding around it stand behind an item and before what is read as items. -/
theorem LaidOut.comma (h : LaysItem depth text item) {before after rest : List Char}
    {items : List Item} (hbefore : IsPadding before) (hfront : before.head? ≠ some '#')
    (hafter : IsPadding after)
    (hrest : LaidOut rest (fun _ => True) fun tokens => ReadsInside depth bracket tokens items) :
    LaysItems depth bracket (text ++ (before ++ ',' :: (after ++ rest))) (item :: items) := by
  have hcomma := (laidOut_mark .comma rfl).join hafter hrest fun _ => trivial
  refine (h.join hbefore hcomma ?_).mono id ?_
  · intro more _
    exact hbefore.ends hfront (.inr ⟨',', rfl, rfl⟩)
  · rintro _ ⟨a, breaks, _, rfl, hbreaks, -, ha, _, breaks', b, rfl, hbreaks', -,
      ⟨comma, rfl, hkind⟩, hb⟩
    exact ⟨ha.opens.append _, ha.inside ((hb.skip hbreaks').comma hbreaks hkind)⟩

/-- Padding that spans lines stands behind an item and before the items after it. -/
theorem LaidOut.lines (h : LaysItem depth text item) {padding rest : List Char}
    {items : List Item} (hpadding : IsPadding padding) (hfront : padding.head? ≠ some '#')
    (hline : '\n' ∈ padding) (hrest : LaysItems depth bracket rest items) :
    LaysItems depth bracket (text ++ (padding ++ rest)) (item :: items) := by
  refine (h.join hpadding hrest ?_).mono id ?_
  · intro more _
    exact hpadding.ends hfront (.inl hline)
  · rintro _ ⟨a, breaks, b, rfl, hbreaks, hnil, ha, hopens, hb⟩
    exact ⟨ha.opens.append _,
      ha.inside (hb.lineBreaks hopens hbreaks fun heq => hnil.1 heq hline)⟩

/-- A row of items before a closing bracket is read as the items. -/
theorem IsRow.laysItems {texts : List (List Char)} {row : List Char} (h : IsRow texts row)
    {items : List Item} (hitems : List.Forall₂ (LaysItem depth) texts items) :
    LaysItems depth bracket (row ++ [bracket.close.char]) items := by
  induction h generalizing items with
  | last hblanks =>
    obtain ⟨item, _, hitem, hnil, rfl⟩ := List.forall₂_cons_left_iff.1 hitems
    cases hnil
    rw [List.append_assoc]
    refine hitem.close (.blanks hblanks) fun hfront => ?_
    exact absurd (hblanks '#' (List.mem_of_head? hfront)) (by decide)
  | trailing htrail =>
    obtain ⟨item, _, hitem, hnil, rfl⟩ := List.forall₂_cons_left_iff.1 hitems
    cases hnil
    rw [List.append_assoc]
    cases htrail with
    | comma hbefore hfront hafter =>
      rw [List.append_assoc, List.cons_append]
      refine hitem.comma hbefore hfront hafter
        ((laidOut_mark bracket.close bracket.close_char.1).mono id ?_)
      rintro _ ⟨close, rfl, hclose⟩
      exact readsInside_close hclose
    | lines hpadding hfront _ => exact hitem.close hpadding hfront
  | cons hsep _ ih =>
    obtain ⟨item, rest, hitem, hrest, rfl⟩ := List.forall₂_cons_left_iff.1 hitems
    rw [List.append_assoc, List.append_assoc]
    cases hsep with
    | comma hbefore hfront hafter =>
      rw [List.append_assoc, List.cons_append]
      exact hitem.comma hbefore hfront hafter ((ih hrest).mono id fun hread => hread.2)
    | lines hpadding hfront hline => exact hitem.lines hpadding hfront hline (ih hrest)

/-- What stands between two brackets is collected if no key is repeated. -/
theorem IsContents.laysCollection {texts : List (List Char)} {contents : List Char}
    (h : IsContents texts contents) {bracket : Bracket} {items : List Item} {value : Value}
    (hitems : List.Forall₂ (LaysItem depth) texts items) (hkeys : (Item.keys items).Nodup)
    (hcollect : Item.collect (bracket = .brace) items = .ok value) :
    LaysCollection (depth + 1) bracket contents value := by
  have hopen : Piece.bracketOrSeparator? bracket.opening.char = some bracket.opening := by
    cases bracket <;> rfl
  have hopening := laidOut_mark bracket.opening hopen
  cases h with
  | empty hpadding =>
    cases hitems
    have hclosing := laidOut_mark bracket.close bracket.close_char.1
    refine (hopening.join hpadding hclosing fun _ => trivial).mono id ?_
    rintro _ ⟨_, breaks, _, rfl, hbreaks, -, ⟨opening, rfl, hkind⟩, close, rfl, hclose⟩
    exact ⟨opening, _, rfl, hkind,
      ((readsInside_close hclose).skip hbreaks).collects hkeys hcollect⟩
  | row hpadding hrow =>
    rw [LaysCollection, List.append_assoc]
    refine (hopening.join hpadding (hrow.laysItems hitems) fun _ => trivial).mono id ?_
    rintro _ ⟨_, breaks, b, rfl, hbreaks, -, ⟨opening, rfl, hkind⟩, -, hb⟩
    exact ⟨opening, _, rfl, hkind, (hb.skip hbreaks).collects hkeys hcollect⟩

/-- A key, a sign with blanks around it and a value are laid out as an item. -/
theorem LaidOut.entry {value : Value} {ends : List Char → Prop}
    (h : LaidOut text Piece.Ends fun tokens => Reads depth tokens value) (key : String)
    {sign : Mark} (hsign : LaidOut [sign.char] ends fun tokens =>
      ∃ token, tokens = [token] ∧ token.kind = .mark sign)
    (hmem : sign ∈ [.colon, .equals]) (before after : List Char)
    (hbefore : ∀ c ∈ before, c ∈ [' ', '\t', '\r']) (hafter : ∀ c ∈ after, c ∈ [' ', '\t', '\r'])
    (hends : ∀ {rest}, Piece.Ends (before ++ sign.char :: (after ++ (text ++ rest))) ∧
      ends (after ++ (text ++ rest))) :
    LaysItem depth (keyText key ++ (before ++ sign.char :: (after ++ text)))
      (Item.ofEntry (key, value)) := by
  obtain ⟨kind, hkind, -, hcuts⟩ := spellsKey_keyText key
  have hkey : LaidOut (keyText key) Piece.Ends fun tokens =>
      ∃ name, tokens = [name] ∧ name.kind ∈ [.literal key, .string key] :=
    .of_spelled ((Spelled.of_cuts hcuts).mono fun heq => ⟨_, heq, hkind⟩)
  have hblanks {blanks : List Char} (hblanks : ∀ c ∈ blanks, c ∈ [' ', '\t', '\r']) :
      '\n' ∉ blanks := fun hline => absurd (hblanks '\n' hline) (by decide)
  have hvalue := hsign.join (.blanks hafter) h fun _ => hends.2
  refine (hkey.join (.blanks hbefore) hvalue fun _ => ?_).mono id ?_
  · simpa using hends.1
  · rintro _ ⟨_, _, _, rfl, -, hnil, ⟨name, rfl, hname⟩, _, _, b, rfl, -, hnil',
      ⟨token, rfl, htoken⟩, hb⟩
    -- Blanks hold no line feed, so nothing stands between the key, the sign and the value.
    rw [hnil.2 (hblanks hbefore), hnil'.2 (hblanks hafter)]
    refine hb.entry hname ?_
    simpa [htoken] using hmem

end Items

/-- The brackets may stand around the items of the value: without items they decide what it is. -/
def Bracket.Encloses (bracket : Bracket) : Value → Prop
  | .sequence items => items ≠ [] ∨ bracket ≠ .brace
  | .mapping entries => entries ≠ [] ∨ bracket = .brace
  | _ => False

namespace Value

/-- Every layout of the value is read as it, and if the value is no entity then whatever follows. -/
def ReadsLayouts (value : Value) : Prop :=
  ∀ {text depth}, value.IsLayout text → value.Legible → value.nest ≤ depth →
    LaidOut text Piece.Ends fun tokens =>
      Reads depth tokens value ∧ (value.isEntity = false → ReadsPlain depth tokens value)

/-- Every layout between brackets that may enclose the value is collected to it. -/
def CollectsLayouts (value : Value) : Prop :=
  ∀ {contents depth} {bracket : Bracket}, value.IsContentsLayout contents →
    bracket.Encloses value → value.Legible → value.nest ≤ depth →
      LaysCollection depth bracket contents value

/-- Layouts of members are those of the items that stand for them. -/
theorem forall₂_laysItem {α : Type} {R : α → List Char → Prop} {toItem : α → Item} {depth : Nat}
    {members : List α} {texts : List (List Char)} (h : List.Forall₂ R members texts)
    (hlays : ∀ member ∈ members, ∀ {text}, R member text → LaysItem depth text (toItem member)) :
    List.Forall₂ (LaysItem depth) texts (members.map toItem) := by
  induction h with
  | nil => exact .nil
  | cons hmember _ ih =>
    exact .cons (hlays _ List.mem_cons_self hmember)
      (ih fun member hmem => hlays member (List.mem_cons_of_mem _ hmem))

/-- A sequence is collected from the layouts of its items. -/
theorem collectsLayouts_sequence {items : List Value}
    (h : ∀ item ∈ items, item.ReadsLayouts) : (sequence items).CollectsLayouts := by
  intro contents depth bracket hlayout hencloses hlegible hnest
  cases depth with
  | zero => exact absurd hnest (Nat.not_succ_le_zero _)
  | succ depth =>
    cases hlayout with
    | @sequence _ texts _ hitems hcontents =>
      have hlays : List.Forall₂ (LaysItem depth) texts (items.map Item.ofValue) :=
        forall₂_laysItem hitems fun item hmem {text} hitem =>
          (h item hmem hitem (hlegible.part (.item hmem .self))
            (nestItems_le_iff.1 (Nat.le_of_succ_le_succ hnest) item hmem)).mono id
              fun hread => hread.1.item
      exact hcontents.laysCollection hlays
        (by rw [Item.keys_map_ofValue]; exact List.nodup_nil)
        (Item.collect_map_ofValue (hencloses.imp_right decide_eq_false))

/-- A layout of an entry is read as an item with a key if the layouts of its value are read. -/
theorem IsEntryLayout.laysItem {entry : String × Value} {text : List Char} {depth : Nat}
    (h : IsEntryLayout entry text) (hreads : entry.2.ReadsLayouts) (hlegible : entry.2.Legible)
    (hnest : entry.2.nest ≤ depth) : LaysItem depth text (Item.ofEntry entry) := by
  cases h with
  | colon hlayout =>
    have hvalue := (hreads hlayout hlegible hnest).mono id fun hread => hread.1
    have hsign : LaidOut [Mark.colon.char]
        (fun rest => Piece.closesIndicator rest.head? = true) fun tokens =>
          ∃ token, tokens = [token] ∧ token.kind = .mark .colon :=
      .mark .colon fun hrest => Piece.cuts_indicator .colon rfl hrest
    exact hvalue.entry _ hsign (by simp) [] [' '] (by simp) (by simp) ⟨Piece.ends_colon rfl, rfl⟩
  | equals hlayout =>
    have hvalue := (hreads hlayout hlegible hnest).mono id fun hread => hread.1
    exact hvalue.entry _ (laidOut_mark .equals rfl) (by simp) [' '] [' '] (by simp) (by simp)
      ⟨@Piece.ends_of_blanks [' '] (by simp) _ (.inl rfl) _, trivial⟩

/-- A mapping is collected from the layouts of its entries. -/
theorem collectsLayouts_mapping {entries : List (String × Value)}
    (h : ∀ entry ∈ entries, entry.2.ReadsLayouts) : (mapping entries).CollectsLayouts := by
  intro contents depth bracket hlayout hencloses hlegible hnest
  have hkeys : (Entries.keys entries).Nodup := hlegible.here
  cases depth with
  | zero => exact absurd hnest (Nat.not_succ_le_zero _)
  | succ depth =>
    cases hlayout with
    | @mapping _ texts _ hentries hcontents =>
      have hlays : List.Forall₂ (LaysItem depth) texts (entries.map Item.ofEntry) :=
        forall₂_laysItem hentries fun entry hmem {text} hentry =>
          hentry.laysItem (h entry hmem) (hlegible.part (.entry hmem .self))
            (nestEntries_le_iff.1 (Nat.le_of_succ_le_succ hnest) entry hmem)
      exact hcontents.laysCollection hlays
        (by rw [Item.keys_map_ofEntry]; exact hkeys)
        (Item.collect_map_ofEntry hkeys (hencloses.imp_right decide_eq_true))

/-- What is collected in square or curly brackets is read whatever follows. -/
theorem CollectsLayouts.laidOut {value : Value} (h : value.CollectsLayouts) {contents : List Char}
    {depth : Nat} {bracket : Bracket} (hbracket : bracket ≠ .paren)
    (hlayout : value.IsContentsLayout contents) (hencloses : bracket.Encloses value)
    (hlegible : value.Legible) (hnest : value.nest ≤ depth) :
    LaidOut (bracket.opening.char :: (contents ++ [bracket.close.char])) Piece.Ends fun tokens =>
      Reads depth tokens value ∧ (value.isEntity = false → ReadsPlain depth tokens value) := by
  refine (h hlayout hencloses hlegible hnest).mono (fun _ => trivial) ?_
  rintro _ ⟨opening, rest, rfl, hopening, hcollects⟩
  have hpair : (bracket, bracket.opening) ∈
      [(Bracket.square, Mark.openSquare), (.brace, .openBrace)] := by
    cases bracket with
    | square => exact List.mem_cons_self
    | brace => exact List.mem_cons_of_mem _ List.mem_cons_self
    | paren => exact absurd rfl hbracket
  have hread := hcollects.readsPlain hpair hopening
  exact ⟨hread.reads, fun _ => hread⟩

/-- A name and its arguments are read as an entity. -/
theorem readsLayouts_entity {name arguments : Value} (hname : name.ReadsLayouts)
    (harguments : arguments.CollectsLayouts) : (entity name arguments).ReadsLayouts := by
  intro text depth hlayout hlegible hnest
  obtain ⟨hplain, hcollection⟩ : IsLegible (entity name arguments) := hlegible.here
  have hencloses : Bracket.paren.Encloses arguments := by
    cases arguments with
    | sequence items => exact .inr Bracket.noConfusion
    | mapping entries =>
      refine .inl fun hnil => ?_
      rw [isArguments, hnil] at hcollection
      contradiction
    | _ => contradiction
  cases hlayout with
  | entity hnameLayout hcontents =>
    have hfirst := hname hnameLayout (hlegible.part (.name .self)) (Nat.max_le.1 hnest).1
    have hsecond := harguments hcontents hencloses (hlegible.part (.arguments .self))
      (Nat.max_le.1 hnest).2
    -- The opening bracket follows the name directly, and a name ends at a bracket.
    refine (hfirst.join (.blanks (List.forall_mem_nil _)) hsecond fun _ => ?_).mono
      (fun _ => trivial) ?_
    · exact Piece.ends_of_endsLiteral rfl _
    · rintro _ ⟨a, _, _, rfl, -, hnil, ⟨-, hread⟩, opening, rest, rfl, hopening, hcollects⟩
      rw [hnil.2 List.not_mem_nil]
      exact ⟨(hread hplain).entity hopening hcollects, fun hentity => by contradiction⟩

/-- Every layout of a legible value without chains is read as the value. -/
theorem readsLayouts (value : Value) : value.ReadsLayouts ∧ value.CollectsLayouts := by
  induction value using induction_inside with
  | hscalar s =>
    refine ⟨fun hlayout hlegible hnest => ?_, fun hlayout => by cases hlayout⟩
    cases hlayout
    exact .of_spelled (hlegible.spelled hnest)
  | hdateTime d =>
    refine ⟨fun hlayout hlegible hnest => ?_, fun hlayout => by cases hlayout⟩
    cases hlayout
    exact .of_spelled (hlegible.spelled hnest)
  | hsequence items ih =>
    have hcollects : (sequence items).CollectsLayouts :=
      collectsLayouts_sequence fun item hmem => (ih item hmem).1
    refine ⟨fun hlayout hlegible hnest => ?_, hcollects⟩
    cases hlayout with
    | sequence hcontents =>
      have hsquare : Bracket.square.Encloses (sequence items) := .inr Bracket.noConfusion
      exact hcollects.laidOut Bracket.noConfusion hcontents hsquare hlegible hnest
  | hmapping entries ih =>
    have hcollects : (mapping entries).CollectsLayouts :=
      collectsLayouts_mapping fun entry hmem => (ih entry hmem).1
    refine ⟨fun hlayout hlegible hnest => ?_, hcollects⟩
    cases hlayout with
    | mapping hcontents =>
      have hbrace : Bracket.brace.Encloses (mapping entries) := .inr rfl
      exact hcollects.laidOut Bracket.noConfusion hcontents hbrace hlegible hnest
  | hentity name arguments hname harguments =>
    exact ⟨readsLayouts_entity hname.1 harguments.2, fun hlayout => by cases hlayout⟩
  | hchain links _ =>
    constructor
    · intro text depth hlayout
      cases hlayout
    · intro contents depth bracket hlayout
      cases hlayout

end Value

/-- Texts with a comma and a space between each two of them are a row of them. -/
theorem isRow_intercalate (text : List Char) (texts : List (List Char)) :
    IsRow (text :: texts) (separator.intercalate (text :: texts)) := by
  induction texts generalizing text with
  | nil =>
    rw [List.intercalate_singleton]
    have hlast : IsRow [text] (text ++ []) := .last (List.forall_mem_nil _)
    rwa [List.append_nil] at hlast
  | cons next texts ih =>
    have hcomma : IsItemSeparator separator :=
      .comma (.blanks (List.forall_mem_nil _)) (by simp) (.blanks (by simp))
    rw [List.intercalate_cons_cons, List.append_assoc]
    exact .cons hcomma (ih next)

/-- Texts with a comma and a space between each two of them may stand between brackets. -/
theorem isContents_intercalate (texts : List (List Char)) :
    IsContents texts (separator.intercalate texts) := by
  have hnone : IsPadding [] := .blanks (List.forall_mem_nil _)
  cases texts with
  | nil => exact .empty hnone
  | cons text texts => exact .row hnone (isRow_intercalate text texts)

namespace Value

/-- The texts of items are layouts of them if each one is. -/
theorem forall₂_itemTexts {items : List Value} (h : ∀ item ∈ items, item.IsLayout item.text) :
    List.Forall₂ IsLayout items (itemTexts items) := by
  induction items with
  | nil => exact .nil
  | cons item items ih =>
    obtain ⟨hitem, hitems⟩ := List.forall_mem_cons.1 h
    exact .cons hitem (ih hitems)

/-- The texts of entries are layouts of them if that of each value is. -/
theorem forall₂_entryTexts {entries : List (String × Value)}
    (h : ∀ entry ∈ entries, entry.2.IsLayout entry.2.text) :
    List.Forall₂ IsEntryLayout entries (entryTexts entries) := by
  induction entries with
  | nil => exact .nil
  | cons entry entries ih =>
    obtain ⟨hentry, hentries⟩ := List.forall_mem_cons.1 h
    exact .cons (.colon hentry) (ih hentries)

/-- The text of a value without chains is a layout of the value. -/
theorem isLayout_text (value : Value) : value.Spellable → value.IsLayout value.text ∧
    (value.isArguments = true → value.IsContentsLayout value.argumentsText) := by
  induction value using induction_inside with
  | hscalar s => exact fun _ => ⟨.scalar, fun hcollection => by contradiction⟩
  | hdateTime d => exact fun _ => ⟨.dateTime, fun hcollection => by contradiction⟩
  | hsequence items ih =>
    intro h
    have hcontents : (sequence items).IsContentsLayout (separator.intercalate (itemTexts items)) :=
      .sequence (forall₂_itemTexts fun item hmem => (ih item hmem (spellable_of_mem h hmem)).1)
        (isContents_intercalate _)
    exact ⟨.sequence hcontents, fun _ => hcontents⟩
  | hmapping entries ih =>
    intro h
    have hcontents :
        (mapping entries).IsContentsLayout (separator.intercalate (entryTexts entries)) :=
      .mapping (forall₂_entryTexts fun entry hmem =>
        (ih entry hmem (spellable_of_mem_entries h hmem)).1) (isContents_intercalate _)
    exact ⟨.mapping hcontents, fun _ => hcontents⟩
  | hentity name arguments hname harguments =>
    intro h
    obtain ⟨-, hspelled, hcollection, hspelled'⟩ : Spellable (entity name arguments) := h
    refine ⟨?_, fun hentity => by contradiction⟩
    rw [text, List.append_assoc]
    exact .entity (hname hspelled).1 ((harguments hspelled').2 hcollection)
  | hchain links _ => exact fun h => h.elim

end Value

/-- A text that is laid out as a value is decoded to it. -/
theorem decodeChars_of_laidOut {text : List Char} {value : Value}
    (h : LaidOut text Piece.Ends fun tokens => Reads 255 tokens value) :
    decodeChars text = .ok value := by
  obtain ⟨c, rest, rfl, hc⟩ := h.front
  obtain ⟨pieces, hcuts, htokens⟩ := h.exists_cuts Piece.ends_nil
  obtain ⟨hsolid, hread⟩ := htokens .start
  have hsource : Piece.Cuts ((c :: rest).dropWhile Piece.isIndentation) pieces [] := by
    rw [List.dropWhile_cons_of_neg (by simp [hc])]
    rwa [List.append_nil] at hcuts
  generalize hmerged : Token.mergeLineBreaks (Token.ofPieces .start pieces) = tokens at hread
  have hstream : TokenStream.ofSource (c :: rest) =
      .ok ⟨⟨.lineBreak [], "\n", .start⟩ :: tokens, Position.behind (c :: rest)⟩ := by
    have hlines : Token.ofLines .start (c :: rest) pieces =
        [⟨.lineBreak [], "\n", .start⟩] ++ Token.ofPieces .start pieces := by
      rw [Token.ofLines, List.takeWhile_cons_of_neg (by simp [hc])]
      rfl
    rw [TokenStream.ofSource_of_cuts hsource, hlines, Token.mergeLineBreaks_append hsolid.head,
      hmerged]
    rfl
  have hblock : (block (Position.behind (c :: rest)) maxDepth [] false).run (tokens ++ []) =
      .ok (value, []) := hread.block _ [] (by simp [EndsValue])
  have hne : tokens ≠ [] := by
    obtain ⟨token, more, rfl, -⟩ := hread.opens
    exact List.cons_ne_nil _ _
  rw [List.append_nil] at hblock
  rw [decodeChars, hstream]
  dsimp only
  rw [Value.ofTokens_lineBreak hne rfl, hblock]
  rfl

namespace Value

/-- The text of a value is one of its layouts, and every layout of it is decoded to the value: how
items are separated, where lines are broken, and which sign is behind a key make no difference. -/
theorem decode_layout {value : Value} (h : value.Spellable) (hdistinct : value.Distinct)
    (hnest : value.nest ≤ 255) :
    value.IsLayout value.encode.toList ∧
      ∀ {text}, value.IsLayout text → decode (String.ofList text) = .ok value := by
  constructor
  · rw [encode, String.toList_ofList]
    exact (isLayout_text value h).1
  · intro text hlayout
    have hlaid := (readsLayouts value).1 hlayout (legible_of_spellable h hdistinct) hnest
    rw [decode, String.toList_ofList]
    exact decodeChars_of_laidOut (hlaid.mono id fun hread => hread.1)

/-- A mapping with comments behind and between its entries, line breaks for commas and commas behind
the last items is the same as on one line. -/
theorem decode_layout_nested :
    decode "\x7b # c\n\ta: [\r\n1 ,\n \n# c\n x\n]\n\"b c\" = e(k = null,)\n , \x7d" =
      .ok (.mapping [("a", .sequence [.scalar (.int 1), .string "x"]),
        ("b c", .entity (.string "e") (.mapping [("k", .null)]))]) := by
  have hnone : IsPadding [] := .blanks (by simp)
  have hspace : IsPadding [' '] := .blanks (by simp)
  have hbreak : IsPadding (['\n'] ++ []) := .line .lineFeed hnone
  have hblank : IsVacant [' ', '\n'] := .blank (by simp) .lineFeed
  have hcomment : IsVacant _ := @IsVacant.comment [' ', 'c'] (by simp)
  have hitems : (sequence [.scalar (.int 1), .string "x"]).IsLayout _ :=
    .sequence (.sequence (.cons .scalar (.cons .scalar .nil))
      (.row (.line (.blank (c := '\r') (by simp) .lineFeed) hnone)
        (.cons (.comma hspace (by simp) (.line .lineFeed (.line hblank (.line hcomment hspace))))
          (.trailing (.lines hbreak (by simp) (by simp))))))
  have harguments : (mapping [("k", .null)]).IsContentsLayout _ :=
    .mapping (.cons (.equals .scalar) .nil)
      (.row hnone (.trailing (.comma hnone (by simp) hnone)))
  have hdecode := (@decode_layout (.mapping [("a", .sequence [.scalar (.int 1), .string "x"]),
      ("b c", .entity (.string "e") (.mapping [("k", .null)]))])
    ⟨⟨trivial, trivial, trivial⟩, ⟨rfl, trivial, rfl, trivial, trivial⟩, trivial⟩
    ⟨by decide, ⟨trivial, trivial, trivial⟩, ⟨trivial, by decide, trivial, trivial⟩, trivial⟩
    (by decide)).2 (.mapping (.mapping
      (.cons (.colon hitems) (.cons (.equals (.entity .scalar harguments)) .nil))
      (.row (.line (.blank (c := ' ') (by simp) hcomment) (@IsPadding.blanks ['\t'] (by simp)))
        (.cons (.lines hbreak (by simp) (by simp))
          (.trailing (.comma (.line .lineFeed hspace) (by simp) hspace))))))
  exact (congrArg decode (by decide +kernel)).trans hdecode

end Value

end NeonAudit
