import Mathlib.Data.List.Chain
import NeonAudit.Proofs.Place
import NeonAudit.Proofs.Token.Cutting

/-!
# The tokens of a source cover it

A source is the spellings of its tokens in order with gaps between them, and nothing but blanks,
line feeds and comments is in a gap. The position of a token is where its spelling starts, counted
from the line feeds and characters before it. A line break stands between two tokens exactly when a
line feed is in the gap between them, and tells how the line of the second one starts; the line
break before the first line always stands.
-/

namespace NeonAudit

/-- Text that may stand between the spellings of two tokens: blanks, line feeds, and comments that
run to the end of their line. The text after the gap tells where the line ends. -/
inductive IsGap (rest : List Char) : List Char → Prop
  | nil : IsGap rest []
  | blank {c gap} : c ∈ [' ', '\t', '\r', '\n'] → IsGap rest gap → IsGap rest (c :: gap)
  | comment {text gap} : '\n' ∉ text → (gap ++ rest).head? ∈ [none, some '\n'] →
      IsGap rest gap → IsGap rest ('#' :: text ++ gap)

/-- An indentation consists of blanks. -/
theorem Piece.mem_blanks_of_isIndentation {c : Char} (h : isIndentation c = true) :
    c ∈ [' ', '\t', '\r', '\n'] := by
  rcases Bool.or_eq_true_iff.1 h with h | h
  · simp [of_decide_eq_true h]
  · simp [of_decide_eq_true h]

/-- No line feed is in an indentation. -/
theorem Piece.notMem_takeWhile_isIndentation (source : List Char) :
    '\n' ∉ source.takeWhile isIndentation :=
  fun hmem => absurd (List.mem_takeWhile_imp hmem) (by decide)

/-- No blank of a line is a line feed. -/
theorem Piece.notMem_singleton {c : Char} (h : c ∈ [' ', '\t', '\r']) : '\n' ∉ [c] := by
  intro hmem
  rw [← List.mem_singleton.1 hmem] at h
  exact absurd h (by decide)

/-- A comment ends before the line feed after it. -/
theorem Piece.notMem_comment (source : List Char) :
    '\n' ∉ '#' :: source.takeWhile (· ≠ '\n') := by
  intro hmem
  rcases List.mem_cons.1 hmem with h | h
  · contradiction
  · simpa using List.mem_takeWhile_imp h

/-- Blanks and line feeds before a gap belong to it. -/
theorem IsGap.append_left {text gap rest : List Char}
    (h : ∀ c ∈ text, c ∈ [' ', '\t', '\r', '\n']) (hgap : IsGap rest gap) :
    IsGap rest (text ++ gap) := by
  induction text with
  | nil => exact hgap
  | cons c text ih =>
    exact .blank (h c List.mem_cons_self) (ih fun d hd => h d (List.mem_cons_of_mem c hd))

/-- A comment that runs up to a line feed or to the end may stand before a gap. -/
theorem IsGap.comment_takeWhile {source gap rest : List Char}
    (h : gap ++ rest = source.dropWhile (· ≠ '\n')) (hgap : IsGap rest gap) :
    IsGap rest ('#' :: source.takeWhile (· ≠ '\n') ++ gap) := by
  refine .comment (fun hmem => by simpa using List.mem_takeWhile_imp hmem) ?_ hgap
  rw [h]
  cases hdrop : source.dropWhile (· ≠ '\n') with
  | nil => exact List.mem_cons_self
  | cons c more =>
    have hc := List.head?_dropWhile_not (· ≠ '\n') source
    rw [hdrop] at hc
    have hfeed : c = '\n' := by simpa using hc
    rw [hfeed]
    exact List.mem_cons_of_mem _ List.mem_cons_self

/-- A token that is no line break, after the gap before it. -/
structure Word where
  /-- The text between the token before it and its own spelling. -/
  gap : List Char
  /-- The token. -/
  token : Token

namespace Word

/-- The gaps and spellings of words in order. -/
def texts (words : List Word) : List Char :=
  words.flatMap fun word => word.gap ++ word.token.text.toList

@[simp] theorem texts_nil : texts [] = [] := rfl

@[simp] theorem texts_cons (word : Word) (words : List Word) :
    texts (word :: words) = word.gap ++ (word.token.text.toList ++ texts words) := by
  rw [texts, List.flatMap_cons, List.append_assoc]
  rfl

/-- How the line starts on which a place is, given the texts before and after the place. -/
def lineStart (before rest : List Char) : List Char :=
  (Text.lastLine before ++ rest).takeWhile Piece.isIndentation

/-- The line break that stands for a gap: there is one if a line feed is in it, or at the opening of
a source, and it holds the start of the line on which the gap ends. -/
def breakKinds (opening : Bool) (before gap rest : List Char) : List Token.Kind :=
  if opening || '\n' ∈ gap then [.lineBreak (lineStart (before ++ gap) rest)] else []

/-- What the tokens of words are, where `last` is the gap after the last one. -/
def kinds (opening : Bool) (before : List Char) : (words : List Word) → (last : List Char) →
    List Token.Kind
  | [], last => breakKinds opening before last []
  | word :: words, last =>
    breakKinds opening before word.gap (word.token.text.toList ++ (texts words ++ last)) ++
      word.token.kind :: kinds false (before ++ word.gap ++ word.token.text.toList) words last

/-- Words of which every one is spelled at its position and all others are gaps. -/
def Placed (before : List Char) : (words : List Word) → (last : List Char) → Prop
  | [], last => IsGap [] last
  | word :: words, last =>
    IsGap (word.token.text.toList ++ (texts words ++ last)) word.gap ∧ word.token.text ≠ "" ∧
      word.token.position = Position.behind (before ++ word.gap) ∧
      Placed (before ++ word.gap ++ word.token.text.toList) words last

/-- The words with more text in the first gap, which may be the last one. -/
def widen (text : List Char) : (words : List Word) → (last : List Char) → List Word × List Char
  | [], last => ([], text ++ last)
  | word :: words, last => (⟨text ++ word.gap, word.token⟩ :: words, last)

theorem texts_widen (text : List Char) (words : List Word) (last : List Char) :
    texts (widen text words last).1 ++ (widen text words last).2 =
      text ++ (texts words ++ last) := by
  cases words <;> simp [widen]

theorem map_token_widen (text : List Char) (words : List Word) (last : List Char) :
    (widen text words last).1.map token = words.map token := by
  cases words <;> rfl

/-- Text in the first gap counts as text before it, and its line feeds as an opening. -/
theorem kinds_widen (opening : Bool) (before text : List Char) (words : List Word)
    (last : List Char) :
    kinds opening before (widen text words last).1 (widen text words last).2 =
      kinds (opening || '\n' ∈ text) (before ++ text) words last := by
  cases words <;>
    simp only [widen, kinds, breakKinds, List.append_assoc, List.mem_append, Bool.decide_or,
      Bool.or_assoc]

/-- Where no line feed is in a gap, the line on which it ends is the one on which it starts. -/
theorem lineStart_append {before gap : List Char} (h : '\n' ∉ gap) (rest : List Char) :
    lineStart (before ++ gap) rest = lineStart before (gap ++ rest) := by
  rw [lineStart, lineStart, Text.lastLine_append _ h, List.append_assoc]

end Word

namespace Token

/-- Whether tokens of the kind are line breaks. -/
def Kind.isLineBreak : Kind → Bool
  | .lineBreak _ => true
  | _ => false

/-- Whether a token is a line break is told by its kind. -/
theorem isLineBreak_eq (token : Token) : token.isLineBreak = token.kind.isLineBreak := by
  rw [isLineBreak]
  cases token.kind <;> rfl

/-- Merging line breaks keeps whether the first token is one. -/
theorem isLineBreak_head_mergeLineBreaks (tokens : List Token) :
    (mergeLineBreaks tokens).head?.any isLineBreak = tokens.head?.any isLineBreak := by
  induction tokens with
  | nil => rfl
  | cons token rest ih =>
    rw [mergeLineBreaks]
    split
    · rename_i h
      rw [Bool.and_eq_true] at h
      rw [ih, h.2, List.head?_cons, Option.any_some, h.1]
    · rfl

/-- Among merged tokens no line break follows another. -/
theorem isChain_mergeLineBreaks (tokens : List Token) :
    (mergeLineBreaks tokens).IsChain fun a b => ¬(a.isLineBreak ∧ b.isLineBreak) := by
  induction tokens with
  | nil => exact List.isChain_nil
  | cons token rest ih =>
    rw [mergeLineBreaks]
    split
    · exact ih
    · rename_i h
      refine List.isChain_cons.2 ⟨fun next hnext hboth => h ?_, ih⟩
      rw [← isLineBreak_head_mergeLineBreaks, Option.mem_def.1 hnext, Option.any_some, hboth.1,
        hboth.2, Bool.and_true]

/-- Merging keeps the tokens that are no line breaks. -/
theorem filter_mergeLineBreaks (tokens : List Token) :
    (mergeLineBreaks tokens).filter (fun token => !token.isLineBreak) =
      tokens.filter (fun token => !token.isLineBreak) := by
  induction tokens with
  | nil => rfl
  | cons token rest ih =>
    rw [mergeLineBreaks]
    split
    · rename_i h
      rw [Bool.and_eq_true] at h
      rw [ih, List.filter_cons_of_neg (by rw [h.1]; decide)]
    · rw [List.filter_cons, List.filter_cons, ih]

end Token

namespace Word

/-- An opening adds a line break unless there is one. -/
theorem kinds_true (before : List Char) {words : List Word} (last : List Char)
    (h : ∀ word ∈ words, word.token.isLineBreak = false) :
    kinds true before words last =
      if (kinds false before words last).head?.any Token.Kind.isLineBreak then
        kinds false before words last
      else .lineBreak (lineStart before (texts words ++ last)) :: kinds false before words last := by
  cases words with
  | nil =>
    by_cases hgap : '\n' ∈ last
    · simp [kinds, breakKinds, hgap, Token.Kind.isLineBreak]
    · simp [kinds, breakKinds, hgap, lineStart_append]
  | cons word words =>
    have hword := h word List.mem_cons_self
    rw [Token.isLineBreak_eq] at hword
    by_cases hgap : '\n' ∈ word.gap
    · simp [kinds, breakKinds, hgap, Token.Kind.isLineBreak]
    · simp [kinds, breakKinds, hgap, lineStart_append, hword]

/-- A line break before tokens is merged with the one at their front, if there is one. -/
theorem kinds_of_lineBreak {lineBreak : Token} {tokens : List Token} {before last : List Char}
    {words : List Word} (hkind : lineBreak.kind = .lineBreak (lineStart before (texts words ++ last)))
    (hwords : ∀ word ∈ words, word.token.isLineBreak = false)
    (h : (Token.mergeLineBreaks tokens).map Token.kind = kinds false before words last) :
    (Token.mergeLineBreaks (lineBreak :: tokens)).map Token.kind =
      kinds true before words last := by
  have hbreak : lineBreak.isLineBreak = true := by
    rw [Token.isLineBreak_eq, hkind, Token.Kind.isLineBreak]
  have hfront : tokens.head?.any Token.isLineBreak =
      (kinds false before words last).head?.any Token.Kind.isLineBreak := by
    rw [← Token.isLineBreak_head_mergeLineBreaks, ← h]
    cases Token.mergeLineBreaks tokens with
    | nil => rfl
    | cons token rest => simp [Token.isLineBreak_eq]
  rw [Token.mergeLineBreaks, hbreak, Bool.true_and, hfront, kinds_true before last hwords]
  split
  · exact h
  · rw [List.map_cons, hkind, h]

/-- Words stay placed when text before them that may stand in a gap is made part of the first one. -/
theorem placed_widen {before text last : List Char} {words : List Word}
    (hgap : ∀ {gap rest : List Char}, IsGap rest gap → gap ++ rest = texts words ++ last →
      IsGap rest (text ++ gap))
    (h : Placed (before ++ text) words last) :
    Placed before (widen text words last).1 (widen text words last).2 := by
  cases words with
  | nil => exact hgap h (List.append_nil last)
  | cons word words =>
    obtain ⟨hfirst, hne, hposition, hrest⟩ := h
    simp only [List.append_assoc] at hposition hrest
    refine ⟨hgap hfirst ?_, hne, hposition, ?_⟩
    · simp [Word.widen]
    · simpa only [Word.widen, List.append_assoc] using hrest

/-- The indentation at the start of a source is how its first line starts. -/
theorem lineStart_takeWhile (source : List Char) :
    lineStart (source.takeWhile Piece.isIndentation) (source.dropWhile Piece.isIndentation) =
      source.takeWhile Piece.isIndentation := by
  rw [lineStart, Text.lastLine_eq_self (Piece.notMem_takeWhile_isIndentation source),
    List.takeWhile_append_dropWhile]

/-- Tokens that have been filtered are no line breaks. -/
theorem isLineBreak_of_filter {tokens : List Token} {words : List Word}
    (h : tokens.filter (fun token => !token.isLineBreak) = words.map token) :
    ∀ word ∈ words, word.token.isLineBreak = false := by
  intro word hword
  have hmem := h ▸ List.mem_map_of_mem hword
  simpa using (List.mem_filter.1 hmem).2

/-- A source after other text is divided into words and a last gap, and the tokens are those of the
words when their line breaks are merged. -/
structure Divides (before source : List Char) (tokens : List Token) (words : List Word)
    (last : List Char) : Prop where
  /-- The gaps and spellings in order are the source. -/
  source_eq : source = texts words ++ last
  /-- The words are spelled at their positions. -/
  placed : Placed before words last
  /-- The words hold the tokens that are no line breaks. -/
  filter_eq : tokens.filter (fun token => !token.isLineBreak) = words.map token
  /-- The line breaks stand for the gaps. -/
  kinds_eq : (Token.mergeLineBreaks tokens).map Token.kind = kinds false before words last

section Divides

variable {before source text last : List Char} {tokens : List Token} {words : List Word}

/-- Text without tokens and line feeds at the front of a source widens the first gap. -/
theorem Divides.widen (h : Divides (before ++ text) source tokens words last) (hline : '\n' ∉ text)
    (hgap : ∀ {gap rest}, IsGap rest gap → gap ++ rest = source → IsGap rest (text ++ gap)) :
    Divides before (text ++ source) tokens (widen text words last).1 (widen text words last).2 where
  source_eq := by rw [texts_widen, h.source_eq]
  placed := placed_widen (fun hrest happend => hgap hrest (happend.trans h.source_eq.symm)) h.placed
  filter_eq := by rw [map_token_widen, h.filter_eq]
  kinds_eq := by rw [kinds_widen, decide_eq_false hline, h.kinds_eq, Bool.or_false]

/-- A line break with its indentation at the front of a source widens the first gap. -/
theorem Divides.lineBreak {lineBreak : Token}
    (h : Divides (before ++ '\n' :: source.takeWhile Piece.isIndentation)
      (source.dropWhile Piece.isIndentation) tokens words last)
    (hkind : lineBreak.kind = .lineBreak (source.takeWhile Piece.isIndentation)) :
    Divides before ('\n' :: source) (lineBreak :: tokens)
      (Word.widen ('\n' :: source.takeWhile Piece.isIndentation) words last).1
      (Word.widen ('\n' :: source.takeWhile Piece.isIndentation) words last).2 where
  source_eq := by
    rw [texts_widen, ← h.source_eq, List.cons_append, List.takeWhile_append_dropWhile]
  placed := by
    refine placed_widen (fun hgap _ => .append_left (fun c hc => ?_) hgap) h.placed
    rcases List.mem_cons.1 hc with rfl | hc
    · decide
    · exact Piece.mem_blanks_of_isIndentation (List.mem_takeWhile_imp hc)
  filter_eq := by
    rw [map_token_widen, List.filter_cons_of_neg, h.filter_eq]
    simp [Token.isLineBreak, hkind]
  kinds_eq := by
    have hindent := Piece.notMem_takeWhile_isIndentation source
    rw [kinds_widen, decide_eq_true List.mem_cons_self, Bool.or_true]
    refine kinds_of_lineBreak ?_ (isLineBreak_of_filter h.filter_eq) h.kinds_eq
    rw [hkind, lineStart, ← h.source_eq, ← List.singleton_append, ← List.append_assoc,
      Text.lastLine_append _ hindent, Text.lastLine_concat, if_pos rfl, List.nil_append,
      List.takeWhile_append_dropWhile]

/-- A token that is spelled at the front of a source is a word without a gap. -/
theorem Divides.word {token : Token} (h : Divides (before ++ text) source tokens words last)
    (htext : token.text.toList = text) (hne : token.text ≠ "") (hline : token.isLineBreak = false)
    (hposition : token.position = Position.behind before) :
    Divides before (text ++ source) (token :: tokens) (⟨[], token⟩ :: words) last where
  source_eq := by rw [texts_cons, htext, List.nil_append, h.source_eq, List.append_assoc]
  placed := ⟨.nil, hne, by rw [hposition, List.append_nil],
    by rw [htext, List.append_nil]; exact h.placed⟩
  filter_eq := by rw [List.filter_cons_of_pos (by rw [hline]; rfl), h.filter_eq, List.map_cons]
  kinds_eq := by
    rw [Token.mergeLineBreaks_cons hline, List.map_cons, h.kinds_eq]
    simp [kinds, breakKinds, htext]

end Divides

/-- A source is divided into words, which are the tokens of its pieces, and a last gap. -/
theorem exists_divides {source : List Char} {pieces : List Piece} (h : Piece.Cuts source pieces [])
    (before : List Char) :
    ∃ words last, Divides before source (Token.ofPieces (Position.behind before) pieces) words
      last := by
  induction pieces generalizing source before with
  | nil =>
    cases h
    exact ⟨[], [], rfl, .nil, rfl, rfl⟩
  | cons piece pieces ih =>
    cases h with
    | cons hcut hcuts =>
      obtain ⟨words, last, hdivides⟩ := ih hcuts (before ++ piece.text)
      have hpiece := Piece.append_of_cut hcut
      rw [← hpiece.1, Token.ofPieces, Position.behind_after]
      rcases Piece.cut_cases hcut with
        ⟨hc, rfl, rfl⟩ | ⟨rfl, rfl, rfl⟩ | ⟨rfl, rfl, rfl⟩ | ⟨kind, hkind, hbreak⟩
      · exact ⟨_, _, hdivides.widen (Piece.notMem_singleton hc)
          fun hgap _ => .blank (by grind) hgap⟩
      · exact ⟨_, _, hdivides.widen (Piece.notMem_comment _)
          fun hgap happend => hgap.comment_takeWhile happend⟩
      · rw [List.cons_append, List.takeWhile_append_dropWhile]
        exact ⟨_, _, hdivides.lineBreak rfl⟩
      · have hline : Token.isLineBreak ⟨kind, String.ofList piece.text, Position.behind before⟩ =
            false := by
          rw [Token.isLineBreak_eq]
          cases kind <;> first | rfl | exact absurd rfl (hbreak _)
        rw [hkind]
        exact ⟨_, _, hdivides.word String.toList_ofList (by simpa using hpiece.2) hline rfl⟩

/-- Every one of the words that are placed is spelled at its position, after a gap. -/
theorem Placed.word {before last : List Char} {front back : List Word} {word : Word}
    (h : Placed before (front ++ word :: back) last) :
    IsGap (word.token.text.toList ++ (texts back ++ last)) word.gap ∧ word.token.text ≠ "" ∧
      word.token.position = Position.behind (before ++ (texts front ++ word.gap)) := by
  induction front generalizing before with
  | nil => exact ⟨h.1, h.2.1, h.2.2.1⟩
  | cons first front ih =>
    have hword := ih h.2.2.2
    simpa only [texts_cons, List.append_assoc] using hword

/-- The text after the words that are placed is a gap. -/
theorem Placed.last {before last : List Char} {words : List Word} (h : Placed before words last) :
    IsGap [] last := by
  induction words generalizing before with
  | nil => exact h
  | cons word words ih => exact ih h.2.2.2

end Word

/-- The tokens of a source cover it: the source is words, which are the tokens that are no line
breaks, and a last gap, and the line breaks stand where the gaps hold line feeds. -/
structure TokenStream.Covers (source : List Char) (stream : TokenStream) (words : List Word)
    (last : List Char) : Prop where
  /-- The gaps and spellings in order are the source. -/
  source_eq : source = Word.texts words ++ last
  /-- The words hold the tokens that are no line breaks. -/
  words_eq : words.map Word.token = stream.tokens.filter fun token => !token.isLineBreak
  /-- A token is spelled by the text at its position, and the text between it and the token before
  it is a gap. -/
  placed : ∀ {front word back}, words = front ++ word :: back →
    IsGap (word.token.text.toList ++ (Word.texts back ++ last)) word.gap ∧ word.token.text ≠ "" ∧
      word.token.position = Position.behind (Word.texts front ++ word.gap)
  /-- The text after the last token is a gap. -/
  last_gap : IsGap [] last
  /-- A line break stands before the first token and where a line feed is in a gap. -/
  kinds_eq : stream.tokens.map Token.kind = Word.kinds true [] words last
  /-- The first token is a line break. -/
  opening : stream.tokens.head?.any Token.isLineBreak = true
  /-- No line break follows another. -/
  apart : stream.tokens.IsChain fun a b => ¬(a.isLineBreak ∧ b.isLineBreak)
  /-- The end of the tokens is the end of the source. -/
  finish_eq : stream.finish = Position.behind source

/-- Whatever source has tokens is covered by them. -/
theorem exists_covers_of_ofSource {source : List Char} {stream : TokenStream}
    (h : TokenStream.ofSource source = .ok stream) :
    ∃ words last, stream.Covers source words last := by
  obtain ⟨pieces, hpieces, rfl⟩ := Result.of_map_eq_ok h
  rw [Position.start_after] at hpieces
  obtain ⟨words, last, hrest, hplaced, hfilter, hkinds⟩ :=
    Word.exists_divides (Piece.cuts_of_ofSource hpieces) (source.takeWhile Piece.isIndentation)
  have hplaced' := @Word.placed_widen [] _ _ _
    (fun hgap _ => .append_left (fun c hc => Piece.mem_blanks_of_isIndentation
      (List.mem_takeWhile_imp hc)) hgap) hplaced
  simp only [Token.ofPieces, Position.start_after]
  refine ⟨(Word.widen (source.takeWhile Piece.isIndentation) words last).1,
    (Word.widen (source.takeWhile Piece.isIndentation) words last).2, ?_⟩
  exact {
    source_eq := by rw [Word.texts_widen, ← hrest, List.takeWhile_append_dropWhile]
    words_eq := by
      rw [Word.map_token_widen, Token.filter_mergeLineBreaks,
        List.filter_cons_of_neg (by simp [Token.isLineBreak]), hfilter]
    placed := fun h => (h ▸ hplaced').word
    last_gap := hplaced'.last
    kinds_eq := by
      rw [Word.kinds_widen, Bool.true_or]
      refine Word.kinds_of_lineBreak ?_ (Word.isLineBreak_of_filter hfilter) hkinds
      rw [← hrest, List.nil_append, Word.lineStart_takeWhile]
    opening := by
      rw [Token.isLineBreak_head_mergeLineBreaks]
      rfl
    apart := Token.isChain_mergeLineBreaks _
    finish_eq := rfl }

/-- A source with a comment, an empty line and a string on three lines is covered. -/
theorem exists_covers_of_comment_and_string :
    ∃ words last, TokenStream.Covers " # why\r\n\n\ta: \"\"\"\nb\n\"\"\"".toList
      ⟨[⟨.lineBreak ['\t'], "\n", ⟨3, 2⟩⟩, ⟨.literal "a", "a", ⟨3, 2⟩⟩, ⟨.mark .colon, ":", ⟨3, 3⟩⟩,
        ⟨.string "b", "\"\"\"\nb\n\"\"\"", ⟨3, 5⟩⟩], ⟨5, 4⟩⟩ words last :=
  exists_covers_of_ofSource (by decide +kernel)

end NeonAudit
