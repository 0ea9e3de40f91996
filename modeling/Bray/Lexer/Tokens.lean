/-
  File:      Bray/Lexer/Tokens.lean
  Subject:   WHAT THE SCANNER YIELDS (lexer/scanner.rs): from any boundary of any text it does not panic, and the
    trivia and the token it finds tile the text from there to a boundary.

  * **`scanTokenAt_covers`** -- the pieces abut, and the token is not empty or the end of file.
  * **`tokens_on_one_line_iff`** -- a token is on one line, or an invalid lone carriage return, exactly when it is
    no quoted literal with a backslash directly before a line break.
-/
import Bray.Lexer.Quoted

namespace Bray.Lexer

open Lib List

variable {alphanumeric : Char → Bool} {text rest : List Char} {index start finish : Nat} {byte : UInt8}
  {character quote : Char} {token : SyntaxToken}

/-! ## 1. Tokens and lines -/

/-- The quote and the body of a quoted literal at the beginning of a text. -/
def quotedBody : List Char → Option (Char × List Char)
  | '\'' :: body => some ('\'', body)
  | '"' :: body => some ('"', body)
  | 'b' :: '"' :: body => some ('"', body)
  | _ => none

/-- A quoted literal begins here, and a backslash on its line stands directly before a line break. -/
def EscapesBreak (text : List Char) (start : Nat) : Bool :=
  ((suffixFrom text start).bind quotedBody).any fun (quote, body) => escapesBreak quote body

/-- A token is on one line, or it is an invalid lone carriage return. -/
def KeepsToLine (text : List Char) (token : SyntaxToken) : Prop :=
  token.kind = .invalidToken ∧ token.range.end = token.range.start + 1 ∧
      byteAt text token.range.start = some (byteOf '\r') ∨
    Unbroken text token.range.start token.range.end

/-- What a scan at a character yields. -/
def Scans (text : List Char) (start : Nat) (token : SyntaxToken) : Prop :=
  Lexeme text start token ∧
    (byteAt text start ≠ some (byteOf '\n') → (KeepsToLine text token ↔ EscapesBreak text start = false))

theorem Word.scans (word : Word text start token) (none_ : EscapesBreak text start = false) :
    Scans text start token := by
  obtain ⟨kind, finish, rfl, notEnd, later, reaches⟩ := word
  exact ⟨⟨kind, finish, rfl, notEnd, later, reaches.boundary⟩, fun _ => ⟨fun _ => none_, fun _ => .inr reaches.unbroken⟩⟩

section

variable (suffix : suffixFrom text start = some (character :: rest))
include suffix

theorem escapesBreak_none (single : character ≠ '\'') (double : character ≠ '"')
    (bytes : ¬ (character = 'b' ∧ byteAt text (start + 1) = some (byteOf '"'))) : EscapesBreak text start = false := by
  have none_ : quotedBody (character :: rest) = none := by
    refine quotedBody.eq_4 _ (fun _ eq => single (List.cons.inj eq).1) (fun _ eq => double (List.cons.inj eq).1) ?_
    rintro body eq
    obtain ⟨rfl, rfl⟩ := List.cons.inj eq
    exact bytes ⟨rfl, byteAt_of_suffix (onBoundary_behind suffix) (by decide)⟩
  rw [EscapesBreak, suffix]
  simp [none_]

theorem Quoted.scans {body : List Char} (quoted : Quoted text quote start index token)
    (opened : quotedBody (character :: rest) = some (quote, body)) (behind : suffixFrom text index = some body)
    (plain : character ≠ '\r') : Scans text start token := by
  have same : EscapesBreak text start = escapesAt text quote index := by
    rw [EscapesBreak, suffix, escapesAt, behind]
    simp [opened]
  refine ⟨quoted.1, fun _ => ?_⟩
  rw [same, ← quoted.2, KeepsToLine, or_iff_right]
  obtain ⟨_, _, rfl, _⟩ := quoted.1
  rintro ⟨_, _, return_⟩
  exact plain (character_of_byteAt suffix return_ (by decide))

theorem makeScalarToken_word {kind : SyntaxKind} (notEnd : kind ≠ .endOfFileToken)
    (plain : character ≠ '\n' ∧ character ≠ '\r') : Word text start (makeScalarToken kind start character) :=
  ⟨kind, _, rfl, notEnd, Nat.lt_add_of_pos_right character.utf8Size_pos, reaches_character suffix plain⟩

/-- **The token at a boundary with a character** is a lexeme. -/
theorem scanNormalToken_scans :
    ∃ token, scanNormalToken alphanumeric text start = some token ∧ Scans text start token := by
  have boundary : OnBoundary text start := onBoundary_iff.mpr ⟨_, suffix⟩
  have first : firstCharacter text start = some (some character) := by rw [firstCharacter, suffix]; rfl
  have at_ : ∀ {c : Char}, character = c → c.toNat < 128 → byteAt text start = some (byteOf c) := by
    rintro c rfl ascii
    exact byteAt_of_suffix suffix ascii
  -- a token that is no quoted literal
  have word : ∀ {found : Option SyntaxToken}, character ≠ '\'' → character ≠ '"' →
      ¬ (character = 'b' ∧ byteAt text (start + 1) = some (byteOf '"')) →
      (∃ token, found = some token ∧ Word text start token) → ∃ token, found = some token ∧ Scans text start token := by
    intro found single double bytes h
    obtain ⟨token, eq, word⟩ := h
    exact ⟨token, eq, word.scans (escapesBreak_none suffix single double bytes)⟩
  unfold scanNormalToken
  rw [first]
  simp only [some_bind]
  by_cases alpha : character.isAlpha = true
  · rw [if_pos alpha]
    by_cases bytes : character = 'b' ∧ byteAt text (start + 1) = some (byteOf '"')
    · rw [if_pos bytes]
      obtain ⟨rfl, second⟩ := bytes
      obtain ⟨body, eq, behind⟩ := pair_of_byteAt suffix (at_ rfl (by decide)) second (by decide) (by decide)
      have opened := (reaches_byte (at_ rfl (by decide)) (by decide)).trans (reaches_byte second (by decide))
      obtain ⟨token, scanned, quoted⟩ :=
        @scanStringLiteral_quoted _ _ true opened (if_pos ⟨rfl, at_ rfl (by decide)⟩)
      exact ⟨token, scanned, quoted.scans suffix (by rw [eq]; rfl) behind (by decide)⟩
    · rw [if_neg bytes]
      have differs : ∀ {c : Char}, c.isAlpha = false → character ≠ c := by
        rintro c other rfl
        cases other.symm.trans alpha
      exact word (differs rfl) (differs rfl) bytes
        (scanIdentifierOrKeyword_word suffix ⟨differs rfl, differs rfl⟩ alpha)
  · rw [if_neg alpha]
    have notB : ¬ (character = 'b' ∧ byteAt text (start + 1) = some (byteOf '"')) := by
      rintro ⟨rfl, _⟩
      exact alpha rfl
    by_cases underscore : character = '_'
    · rw [if_pos underscore]
      exact word (by rw [underscore]; decide) (by rw [underscore]; decide) notB
        (scanUnderscoreOrInvalidIdentifier_word suffix (by rw [underscore]; decide) underscore)
    · rw [if_neg underscore]
      by_cases digit : character.isDigit = true
      · rw [if_pos digit]
        have differs : ∀ {c : Char}, c.isDigit = false → character ≠ c := by
          rintro c other rfl
          cases other.symm.trans digit
        exact word (differs rfl) (differs rfl) notB (scanNumericLiteral_word suffix ⟨differs rfl, differs rfl⟩)
      · rw [if_neg digit]
        by_cases single : character = '\''
        · subst single
          obtain ⟨token, scanned, quoted⟩ := scanCharacterLiteral_quoted (at_ rfl (by decide))
          exact ⟨token, scanned, quoted.scans suffix rfl (onBoundary_behind suffix) (by decide)⟩
        · rw [if_neg single]
          by_cases double : character = '"'
          · subst double
            have opened : Reaches text start (start + 1) := reaches_byte (at_ rfl (by decide)) (by decide)
            obtain ⟨token, scanned, quoted⟩ := @scanStringLiteral_quoted _ _ false opened (if_neg fun bytes =>
              absurd (Option.some.inj ((at_ rfl (by decide)).symm.trans bytes.2)) (by decide))
            exact ⟨token, scanned, quoted.scans suffix rfl (onBoundary_behind suffix) (by decide)⟩
          · rw [if_neg double]
            by_cases delimiter : character ∈ delimiterCharacters
            · rw [if_pos delimiter]
              refine word single double notB ⟨_, rfl, makeScalarToken_word suffix (fun h => by cases h) ⟨?_, ?_⟩⟩
              · rintro rfl
                exact absurd delimiter (by decide)
              · rintro rfl
                exact absurd delimiter (by decide)
            · rw [if_neg delimiter]
              by_cases cluster : character ∈ clusterCharacters
              · rw [if_pos cluster]
                have ascii : ∀ c ∈ clusterCharacters, c.toNat < 128 := fun c mem =>
                  of_decide_eq_true (all_eq_true.mp (by decide : clusterCharacters.all (decide <| ·.toNat < 128)) c mem)
                exact word single double notB (scanOperatorOrPunctuationToken_word boundary
                  (at_ rfl (ascii _ cluster)) (decide_eq_true (mem_map_of_mem cluster)))
              · rw [if_neg cluster]
                by_cases foreign : isNonAsciiIdentifierCharacter alphanumeric character = true
                · rw [if_pos foreign]
                  have plain : character ≠ '\n' ∧ character ≠ '\r' := by
                    constructor
                    · rintro rfl
                      cases foreign
                    · rintro rfl
                      cases foreign
                  obtain ⟨finish, ended, later, reaches⟩ :=
                    @invalidIdentifierLikeEnd_spec alphanumeric _ _ _ _ suffix plain
                  rw [ended]
                  exact word single double notB ⟨_, rfl, _, finish, rfl, (fun h => by cases h), later, reaches⟩
                · rw [if_neg foreign, scanInvalidScalarToken, first]
                  have none_ := escapesBreak_none suffix single double notB
                  refine ⟨_, rfl, ⟨_, _, rfl, (fun h => by cases h), Nat.lt_add_of_pos_right character.utf8Size_pos,
                    onBoundary_iff.mpr ⟨_, onBoundary_behind suffix⟩⟩, fun notNewline => ⟨fun _ => none_, fun _ => ?_⟩⟩
                  by_cases return_ : character = '\r'
                  · subst return_
                    exact .inl ⟨rfl, rfl, at_ rfl (by decide)⟩
                  · refine .inr (reaches_character suffix ⟨?_, return_⟩).unbroken
                    rintro rfl
                    exact notNewline (at_ rfl (by decide))

theorem scanTokenCore_scans (mode : LexerScanMode) :
    ∃ token, scanTokenCore alphanumeric text start mode = some token ∧ Scans text start token := by
  have normal := @scanNormalToken_scans alphanumeric _ _ _ _ suffix
  have first : firstCharacter text start = some (some character) := by rw [firstCharacter, suffix]; rfl
  have none_ : character ≠ '\'' ∧ character ≠ '"' ∧ character ≠ 'b' → EscapesBreak text start = false :=
    fun differs => escapesBreak_none suffix differs.1 differs.2.1 fun h => differs.2.2 h.1
  cases mode with
  | normal => exact normal
  | typePunctuation =>
    simp only [scanTokenCore, first, some_bind]
    split
    · rename_i greater
      cases greater
      exact ⟨_, rfl, (makeScalarToken_word suffix (fun h => by cases h) (by decide)).scans (none_ (by decide))⟩
    · rename_i ampersand
      cases ampersand
      exact ⟨_, rfl, (makeScalarToken_word suffix (fun h => by cases h) (by decide)).scans (none_ (by decide))⟩
    · exact normal
  | tupleElementIndexAfterDot =>
    simp only [scanTokenCore, scanTupleElementIndexOrNormal, first, some_bind]
    by_cases digit : character.isDigit = true
    · rw [if_pos digit]
      have differs : ∀ {c : Char}, c.isDigit = false → character ≠ c := by
        rintro c other rfl
        cases other.symm.trans digit
      obtain ⟨token, scanned, word⟩ :=
        scanTupleElementIndexToken_word suffix ⟨differs rfl, differs rfl⟩ digit
      exact ⟨token, scanned, word.scans (none_ ⟨differs rfl, differs rfl, differs rfl⟩)⟩
    · rw [if_neg digit]
      exact normal

end

/-! ## 2. The token at an offset -/

/-- The ranges of a token, in order: its leading trivia, itself, its trailing trivia. -/
def SyntaxToken.pieces (token : SyntaxToken) : List TextRange :=
  token.leadingTrivia.map SyntaxTrivia.range ++ token.range :: token.trailingTrivia.map SyntaxTrivia.range

theorem tiles_last {ranges : List TextRange} {range : TextRange}
    (tiles : Tiles text start (ranges ++ [range]) finish) : range.end = finish ∧ range.start ≤ range.end := by
  obtain ⟨middle, _, at_, le, _, ends⟩ := tiles_append.mp tiles
  exact ⟨ends, by omega⟩

/-- **The full range of a token** whose pieces tile the text is what they tile. -/
theorem fullRange_eq {token : SyntaxToken} (tiles : Tiles text start token.pieces finish) :
    token.fullRange = ⟨start, finish⟩ := by
  obtain ⟨kind, range, leading, trailing⟩ := token
  simp only [SyntaxToken.pieces] at tiles
  obtain ⟨middle, front, at_, le, _, back⟩ := tiles_append.mp tiles
  have from_ : (⟨kind, range, leading, trailing⟩ : SyntaxToken).withLeading = ⟨start, range.end⟩ := by
    cases leading with
    | nil =>
      obtain rfl := front
      cases at_
      rfl
    | cons first leading =>
      obtain ⟨first_at, first_le, _, more⟩ := front
      have := more.le
      simp only [SyntaxToken.withLeading, head?_cons, TextRange.cover, first_at]
      rw [at_, Nat.min_eq_left (by omega), Nat.max_eq_right (by omega)]
  rcases eq_nil_or_concat trailing with rfl | ⟨others, last, rfl⟩
  · obtain rfl := back
    exact from_
  · rw [concat_eq_append, map_append] at back
    obtain ⟨ends, last_le⟩ := tiles_last back
    obtain ⟨middle', others', last_at, _⟩ := tiles_append.mp back
    have := others'.le
    have := front.le
    simp only [SyntaxToken.fullRange, concat_eq_append, getLast?_append, getLast?_singleton,
      Option.some_or]
    rw [concat_eq_append] at from_
    rw [from_, TextRange.cover, ends, last_at, Nat.min_eq_left (by simp only; omega),
      Nat.max_eq_right (by simp only; omega)]

/-- **What scanning at an offset yields**: pieces that abut from the offset on, each end on a boundary; a token
that is not empty, or the end of file at the end of the text. -/
structure Covers (text : List Char) (start : Nat) (token : SyntaxToken) : Prop where
  tiles : Tiles text start token.pieces token.fullRange.end
  from_ : token.fullRange.start = start
  ends : OnBoundary text token.fullRange.end
  lexeme : token.isEndOfFile = false → token.range.start < token.range.end
  eof : token.isEndOfFile = true → token.range = .empty (textLen text) ∧ token.trailingTrivia = []

theorem Covers.of_tiles {token : SyntaxToken} (tiles : Tiles text start token.pieces finish)
    (ends : OnBoundary text finish) (lexeme : token.isEndOfFile = false → token.range.start < token.range.end)
    (eof : token.isEndOfFile = true → token.range = .empty (textLen text) ∧ token.trailingTrivia = []) :
    Covers text start token := by
  have range := fullRange_eq tiles
  exact ⟨by rw [range]; exact tiles, by rw [range], by rw [range]; exact ends, lexeme, eof⟩

/-- No line feed is left behind the leading trivia. -/
theorem scanLeadingTrivia_notNewline {leading : TriviaScan} (boundary : OnBoundary text start)
    (scanned : scanLeadingTrivia text start = some leading) : byteAt text leading.end ≠ some (byteOf '\n') := by
  have ⟨cursor, trivia, looped, stops⟩ := @scanFrom_rule (List SyntaxTrivia) (utf8Bytes text) (leadingTurn text)
    (fun index _ => OnBoundary text index) (fun index _ => byteAt text index ≠ some (byteOf '\n')) start [] boundary
    ?_ fun index _ none' _ newline => by cases none'.symm.trans newline
  · rw [scanLeadingTrivia, looped] at scanned
    cases scanned
    exact stops
  · intro index byte trivia found on
    unfold leadingTurn
    rcases scanTriviaAt_spec on .leading with none' | ⟨item, some', spaces⟩
    · rw [none']
      refine .inr ⟨_, _, rfl, fun newline => ?_⟩
      rw [scanTriviaAt, newline] at none'
      obtain ⟨_, _, ⟨⟩⟩ := Option.map_eq_some_iff.mp none'
    · rw [some']
      exact .inl ⟨_, _, rfl, spaces.2.1, spaces.2.2⟩

theorem scanTokenAt_spec (boundary : OnBoundary text start) (mode : LexerScanMode) :
    ∃ leading token, scanLeadingTrivia text start = some leading ∧
      scanTokenAt alphanumeric text start mode = some token ∧ Covers text start token ∧
      token.range.start = leading.end ∧ (KeepsToLine text token ↔ EscapesBreak text leading.end = false) := by
  obtain ⟨leading, scanned, spaced⟩ := scanLeadingTrivia_spaced boundary
  have within : ¬ textLen text < start := Nat.not_lt.mpr boundary.le
  obtain ⟨rest, suffix⟩ := onBoundary_iff.mp spaced.ends
  have length := suffixFrom_length suffix
  refine ⟨leading, ?_⟩
  unfold scanTokenAt
  rw [if_neg within, scanned]
  simp only [Option.bind_eq_bind, Option.bind_some, true_and]
  cases rest with
  | nil =>
    have ended : leading.end = textLen text := (by simpa using length : leading.end = utf8Len text)
    rw [if_pos ended]
    refine ⟨_, rfl, .of_tiles (?_ : Tiles text start _ leading.end) spaced.ends nofun fun _ => ⟨by rw [ended]; rfl, rfl⟩,
      rfl, fun _ => by rw [EscapesBreak, suffix]; rfl, fun _ => .inr fun _ _ low high => ?_⟩
    · exact tiles_append.mpr ⟨leading.end, spaced.tiles, rfl, Nat.le_refl _, spaced.ends, rfl⟩
    · exact absurd high (Nat.not_lt.mpr low)
  | cons character rest =>
    have ended : leading.end ≠ textLen text := by
      have := character.utf8Size_pos
      rw [utf8Len_cons] at length
      unfold textLen
      omega
    rw [if_neg ended]
    obtain ⟨token, core, ⟨kind, finish, rfl, notEnd, later, on⟩, line⟩ :=
      @scanTokenCore_scans alphanumeric _ _ _ _ suffix mode
    replace line := line (scanLeadingTrivia_notNewline boundary scanned)
    obtain ⟨trailing, scanned', spaced'⟩ := scanTrailingTrivia_spaced on
    rw [core]
    simp only [Option.bind_some, SyntaxToken.new, scanned']
    have notEof : ∀ l t, (⟨kind, ⟨leading.end, finish⟩, l, t⟩ : SyntaxToken).isEndOfFile = false :=
      fun _ _ => decide_eq_false notEnd
    refine ⟨_, rfl, ?_⟩
    unfold withTrailing
    split
    · refine ⟨.of_tiles (?_ : Tiles text start _ finish) on (fun _ => later) fun eof => ?_, rfl, line⟩
      · exact tiles_append.mpr ⟨leading.end, spaced.tiles, rfl, Nat.le_of_lt later, on, rfl⟩
      · cases (notEof _ _).symm.trans eof
    · refine ⟨.of_tiles (?_ : Tiles text start _ trailing.end) spaced'.ends (fun _ => later) fun eof => ?_, rfl, line⟩
      · exact tiles_append.mpr ⟨leading.end, spaced.tiles, rfl, Nat.le_of_lt later, on, spaced'.tiles⟩
      · cases (notEof _ _).symm.trans eof

theorem scanTokenAt_covers (boundary : OnBoundary text start) (mode : LexerScanMode) :
    ∃ token, scanTokenAt alphanumeric text start mode = some token ∧ Covers text start token := by
  obtain ⟨_, token, _, scanned, covers, _⟩ := scanTokenAt_spec boundary mode
  exact ⟨token, scanned, covers⟩

/-- **A TOKEN IS ON ONE LINE**, or an invalid lone carriage return, exactly when no quoted literal begins there
with a backslash directly before a line break. -/
theorem tokens_on_one_line_iff (boundary : OnBoundary text start) (mode : LexerScanMode) :
    ∃ leading token, scanLeadingTrivia text start = some leading ∧
      scanTokenAt alphanumeric text start mode = some token ∧ token.range.start = leading.end ∧
      (KeepsToLine text token ↔ EscapesBreak text leading.end = false) := by
  obtain ⟨leading, token, leads, scanned, _, line⟩ := @scanTokenAt_spec alphanumeric _ _ boundary mode
  exact ⟨leading, token, leads, scanned, line⟩

theorem tokens_on_one_line_iff_word : ∃ leading token, scanLeadingTrivia ['a'] 0 = some leading ∧
    scanTokenAt (fun _ => false) ['a'] 0 .normal = some token ∧ token.range.start = leading.end ∧
    (KeepsToLine ['a'] token ↔ EscapesBreak ['a'] leading.end = false) :=
  tokens_on_one_line_iff (onBoundary_zero _) .normal

/-- A string with a backslash at the end of the line: its token reaches into the next line. -/
theorem token_over_two_lines : ¬ ∀ (alphanumeric : Char → Bool) (text : List Char) (start : Nat) (mode : LexerScanMode),
    OnBoundary text start → ∃ token, scanTokenAt alphanumeric text start mode = some token ∧ KeepsToLine text token := by
  intro keeps
  obtain ⟨token, scanned, line⟩ := keeps (fun _ => false) ['"', 'a', '\\', '\n', 'b', '"'] 0 .normal (onBoundary_zero _)
  have here : scanTokenAt (fun _ => false) ['"', 'a', '\\', '\n', 'b', '"'] 0 .normal =
      some (.new .invalidToken ⟨0, 6⟩) := by decide
  obtain rfl := Option.some.inj (here.symm.trans scanned)
  rcases line with ⟨_, one, _⟩ | line
  · cases one
  · exact absurd (line 3 _ (by decide) (by decide) rfl) (by decide)

theorem scanTokenAt_end (mode : LexerScanMode) :
    scanTokenAt alphanumeric text (textLen text) mode = some (.endOfFile (textLen text)) := by
  have length : (utf8Bytes text).length = textLen text := length_utf8Bytes text
  have leading : scanLeadingTrivia text (textLen text) = some ⟨[], textLen text, true⟩ := by
    rw [scanLeadingTrivia, scanFrom, length, Nat.sub_self]
    simp [scanWhile, triviaScan]
  unfold scanTokenAt
  rw [if_neg (Nat.lt_irrefl _), leading]
  simp only [some_bind, if_true]
  rfl

end Bray.Lexer
