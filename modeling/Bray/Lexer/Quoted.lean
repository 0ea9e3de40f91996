/-
  File:      Bray/Lexer/Quoted.lean
  Subject:   QUOTED LITERALS (lexer/literal/quoted.rs): a string or a character from its quote to a later
    boundary, and whether it stays on the line.

  A literal that is invalid is recovered up to its closing quote or the end of the line. Behind a backslash the
  recovery skips the next character, whatever it is: a backslash directly before a line break takes it over to
  the next line (`quotedLiteralRecoveryEnd_spec`). A literal that closes has no such backslash.
-/
import Bray.Lexer.Lexemes

namespace Bray.Lexer

open Lib

variable {text rest : List Char} {index start finish : Nat} {byte : UInt8} {character quote : Char}

/-! ## 1. The body of a literal -/

/-- Before the closing quote and the end of the line, read an escape at a time, a backslash stands directly
before a line break. -/
def escapesBreak (quote : Char) : List Char → Bool
  | '\\' :: character :: rest => character = '\n' || character = '\r' || escapesBreak quote rest
  | character :: rest =>
    character ≠ quote && character ≠ '\n' && character ≠ '\r' && escapesBreak quote rest
  | [] => false

def escapesAt (text : List Char) (quote : Char) (index : Nat) : Bool := (suffixFrom text index).any (escapesBreak quote)

/-- A range of a body that is on one line and that the recovery passes over. -/
structure Passes (text : List Char) (quote : Char) (start finish : Nat) : Prop where
  reaches : Reaches text start finish
  same : escapesAt text quote finish = escapesAt text quote start

theorem Passes.refl (boundary : OnBoundary text start) : Passes text quote start start := ⟨.refl boundary, rfl⟩

theorem Passes.trans {middle : Nat} (passes : Passes text quote start middle) (more : Passes text quote middle finish) :
    Passes text quote start finish :=
  ⟨passes.reaches.trans more.reaches, more.same.trans passes.same⟩

theorem escapesBreak_cons (plain : character ≠ '\\') : escapesBreak quote (character :: rest) =
    (character ≠ quote && character ≠ '\n' && character ≠ '\r' && escapesBreak quote rest) :=
  escapesBreak.eq_2 quote character rest fun _ _ same _ => plain same

theorem break_iff : isLineBreak byte = true ↔ byte = byteOf '\n' ∨ byte = byteOf '\r' := by simp [isLineBreak]

theorem suffix_at (boundary : OnBoundary text index) (found : byteAt text index = some byte) :
    ∃ character rest, suffixFrom text index = some (character :: rest) := by
  obtain ⟨suffix, at_⟩ := onBoundary_iff.mp boundary
  cases suffix with
  | nil => cases (utf8Bytes_suffix at_ 0).symm.trans found
  | cons character rest => exact ⟨character, rest, at_⟩

theorem plain_character (suffix : suffixFrom text index = some (character :: rest))
    (found : byteAt text index = some byte) (plain : isLineBreak byte = false) :
    character ≠ '\n' ∧ character ≠ '\r' := by
  have other : ∀ c : Char, c.toNat < 128 → isLineBreak (byteOf c) = true → character ≠ c := by
    rintro c ascii breaks rfl
    obtain rfl := Option.some.inj (found.symm.trans (byteAt_of_suffix suffix ascii))
    cases breaks.symm.trans plain
  exact ⟨other _ (by decide) (by decide), other _ (by decide) (by decide)⟩

section

variable (found : byteAt text index = some byte) (plain : isLineBreak byte = false)
include found plain

/-- The recovery passes over a character that is no quote and no backslash. -/
theorem passes_character (ascii : quote.toNat < 128) (suffix : suffixFrom text index = some (character :: rest))
    (open_ : byte ≠ byteOf quote) (literal : byte ≠ byteOf '\\') :
    Passes text quote index (index + character.utf8Size) := by
  have other : ∀ c : Char, c.toNat < 128 → byte ≠ byteOf c → character ≠ c := by
    rintro c ascii differs rfl
    exact differs (Option.some.inj (found.symm.trans (byteAt_of_suffix suffix ascii)))
  have ⟨newline, return_⟩ := plain_character suffix found plain
  refine ⟨reaches_character suffix ⟨newline, return_⟩, ?_⟩
  rw [escapesAt, escapesAt, suffix, onBoundary_behind suffix]
  simp [escapesBreak_cons (other _ (by decide) literal), other _ ascii open_, newline, return_]

theorem passes_byte (ascii : quote.toNat < 128) (small : byte.toNat < 128) (open_ : byte ≠ byteOf quote)
    (literal : byte ≠ byteOf '\\') : Passes text quote index (index + 1) := by
  obtain ⟨character, rest, suffix, _, width⟩ := ascii_suffix found small
  exact width ▸ passes_character found plain ascii suffix open_ literal

end

/-- The recovery passes over a backslash and a character that is no line break. -/
theorem passes_escape (found : byteAt text index = some (byteOf '\\'))
    (suffix : suffixFrom text (index + 1) = some (character :: rest))
    (plain : character ≠ '\n' ∧ character ≠ '\r') : Passes text quote index (index + 1 + character.utf8Size) := by
  obtain ⟨backslash, rest', suffix', _, width⟩ := ascii_suffix found (by decide)
  obtain rfl := character_of_byteAt suffix' found (by decide)
  obtain rfl := Option.some.inj ((onBoundary_behind suffix').symm.trans suffix)
  refine ⟨(reaches_byte found (by decide)).trans (reaches_character suffix plain), ?_⟩
  rw [escapesAt, escapesAt, suffix', onBoundary_behind suffix]
  simp [escapesBreak, plain]

theorem escapesAt_stop (ascii : quote.toNat < 128) (notBackslash : quote ≠ '\\') (found : byteAt text index = some byte)
    (stops : isLineBreak byte = true ∨ byte = byteOf quote) : escapesAt text quote index = false := by
  have at_ : ∀ c : Char, c.toNat < 128 → c ≠ '\\' → c = '\n' ∨ c = '\r' ∨ c = quote → byte = byteOf c →
      escapesAt text quote index = false := by
    rintro c ascii plain which rfl
    obtain ⟨character, rest, suffix, _⟩ := ascii_suffix found (by rw [byteOf_toNat ascii]; exact ascii)
    obtain rfl := character_of_byteAt suffix found ascii
    rw [escapesAt, suffix]
    rcases which with rfl | rfl | rfl <;> simp [escapesBreak_cons plain]
  rcases stops with breaks | closes
  · rcases break_iff.mp breaks with newline | return_
    · exact at_ '\n' (by decide) (by decide) (.inl rfl) newline
    · exact at_ '\r' (by decide) (by decide) (.inr (.inl rfl)) return_
  · exact at_ quote ascii notBackslash (.inr (.inr rfl)) closes

/-! ## 2. Escapes -/

/-- What is inside an escape: no quotes, backslashes and line breaks. -/
def Inside (p : UInt8 → Bool) : Prop :=
  Plain p ∧ ∀ c ∈ ['\'', '"', '\\'], p (byteOf c) = false

theorem passes_inside {p : UInt8 → Bool} (inside : Inside p) (quotes : quote = '\'' ∨ quote = '"')
    (found : (byteAt text index).any p = true) : Passes text quote index (index + 1) := by
  cases at_ : byteAt text index with
  | none => rw [at_] at found; cases found
  | some byte =>
    rw [at_] at found
    have differs : ∀ c ∈ ['\'', '"', '\\'], byte ≠ byteOf c := by
      rintro c mem rfl
      cases (inside.2 c mem).symm.trans found
    have plain := inside.1 byte found
    rcases quotes with rfl | rfl
    · exact passes_byte at_ plain.2 (by decide) plain.1 (differs _ (by simp)) (differs _ (by simp))
    · exact passes_byte at_ plain.2 (by decide) plain.1 (differs _ (by simp)) (differs _ (by simp))

theorem Inside.of_plain {p : UInt8 → Bool} (plain : Plain p) (single : p (byteOf '\'') = false)
    (double : p (byteOf '"') = false) (slash : p (byteOf '\\') = false) : Inside p :=
  ⟨plain, by simp [single, double, slash]⟩

theorem inside_hexdigit : Inside isAsciiHexdigit := .of_plain plain_hexdigit (by decide) (by decide) (by decide)

def isBrace (byte : UInt8) : Bool := byte = byteOf '\x7b' || byte = byteOf '\x7d'

theorem inside_brace : Inside isBrace := .of_plain (.of_table (by decide +kernel)) (by decide) (by decide) (by decide)

theorem plain_simpleEscape : Plain isSimpleEscape := .of_table (by decide +kernel)

/-- What is passed over behind an index when an escape is valid. -/
def Escapes (text : List Char) (quote : Char) (start index : Nat) (scan : EscapeScan) : Prop :=
  ∀ finish, scan = .valid finish → index ≤ finish ∧ Passes text quote start finish

theorem Passes.valid (passes : Passes text quote start finish) : Escapes text quote start finish (.valid finish) := by
  rintro _ ⟨⟩
  exact ⟨Nat.le_refl _, passes⟩

theorem Passes.escapes {middle : Nat} (passes : Passes text quote start middle)
    (more : Passes text quote middle finish) : Escapes text quote start middle (.valid finish) := by
  rintro _ ⟨⟩
  exact ⟨more.reaches.le, passes.trans more⟩

theorem hexdigit_of_value {digit : Nat} (value : hexDigitValue byte = some digit) : isAsciiHexdigit byte = true := by
  unfold hexDigitValue at value
  unfold isAsciiHexdigit
  split at value
  · simp [*]
  · split at value
    · simp [*]
    · split at value
      · simp [*]
      · cases value

section

variable {backslash : Nat} (quotes : quote = '\'' ∨ quote = '"')
include quotes

theorem scanUnicodeEscape_spec :
    ∃ scan, scanUnicodeEscape text backslash = some scan ∧ Escapes text quote (backslash + 2) (backslash + 2) scan := by
  unfold scanUnicodeEscape
  by_cases opened : byteAt text (backslash + 2) ≠ some (byteOf '\x7b')
  · rw [if_pos opened]
    exact ⟨_, rfl, nofun⟩
  · rw [if_neg opened]
    have first := passes_inside inside_brace quotes (by rw [not_not.mp opened]; rfl)
    have ⟨index, value, scanned, passes⟩ := @scanFrom_rule (Option Nat) (utf8Bytes text)
      (unicodeTurn (backslash + 3)) (fun index _ => Passes text quote (backslash + 2) index)
      (fun index _ => Passes text quote (backslash + 2) index) (backslash + 3) (some 0) first ?_ fun _ _ _ kept => kept
    · rw [scanned]
      refine ⟨_, rfl, ?_⟩
      cases value with
      | none => exact nofun
      | some value =>
        simp only
        by_cases empty : index = backslash + 3 ∨ byteAt text index ≠ some (byteOf '\x7d')
        · rw [if_pos empty]
          exact nofun
        · rw [if_neg empty]
          split
          · rintro _ ⟨⟩
            have whole := passes.trans
              (passes_inside inside_brace quotes (by rw [not_not.mp (not_or.mp empty).2]; rfl))
            exact ⟨whole.reaches.le, whole⟩
          · exact nofun
    · intro index here value at_ passes
      unfold unicodeTurn
      by_cases closed : here = byteOf '\x7d'
      · rw [if_pos closed]
        exact .inr ⟨_, _, rfl, passes⟩
      · rw [if_neg closed]
        by_cases long : index - (backslash + 3) = 6
        · rw [if_pos long]
          exact .inr ⟨_, _, rfl, passes⟩
        · rw [if_neg long]
          cases digit : hexDigitValue here with
          | none => exact .inr ⟨_, _, rfl, passes⟩
          | some digit' =>
            cases value with
            | none => exact .inr ⟨_, _, rfl, passes⟩
            | some value =>
              simp only
              split
              · refine .inl ⟨_, _, rfl, Nat.lt_succ_self _, passes.trans (passes_inside inside_hexdigit quotes ?_)⟩
                rw [show byteAt text index = some here from at_]
                exact hexdigit_of_value digit
              · exact .inr ⟨_, _, rfl, passes⟩

theorem scanEscapeSequence_spec (found : byteAt text backslash = some (byteOf '\\')) (mode : EscapeMode) :
    ∃ scan, scanEscapeSequence text backslash mode = some scan ∧ Escapes text quote backslash (backslash + 2) scan := by
  unfold scanEscapeSequence
  cases named : byteAt text (backslash + 1) with
  | none => exact ⟨_, rfl, nofun⟩
  | some byte =>
    have pair : byte.toNat < 128 ∧ isLineBreak byte = false → Passes text quote backslash (backslash + 2) := by
      intro ⟨small, plain⟩
      obtain ⟨character, rest, suffix, _, width⟩ := ascii_suffix named small
      have passes := @passes_escape _ _ _ _ quote found suffix (plain_character suffix named plain)
      rw [width] at passes
      exact passes
    simp only
    by_cases simple : isSimpleEscape byte = true
    · rw [if_pos simple]
      exact ⟨_, rfl, (pair (plain_simpleEscape byte simple)).valid⟩
    · rw [if_neg simple]
      by_cases single : byte = byteOf '\'' ∧ mode = .character
      · rw [if_pos single]
        exact ⟨_, rfl, (pair (by rw [single.1]; decide)).valid⟩
      · rw [if_neg single]
        by_cases hexadecimal : byte = byteOf 'x' ∧ mode = .byteString
        · rw [if_pos hexadecimal]
          refine ⟨_, rfl, ?_⟩
          split
          · rename_i digits
            exact (pair (by rw [hexadecimal.1]; decide)).escapes ((passes_inside inside_hexdigit quotes digits.1).trans
              (passes_inside inside_hexdigit quotes digits.2))
          · exact nofun
        · rw [if_neg hexadecimal]
          by_cases unicode : byte = byteOf 'u'
          · rw [if_pos unicode]
            obtain ⟨scan, scanned, escapes⟩ := scanUnicodeEscape_spec quotes
            refine ⟨scan, scanned, fun finish valid => ?_⟩
            exact (escapes finish valid).imp_right (pair (by rw [unicode]; decide)).trans
          · rw [if_neg unicode]
            split
            · exact ⟨_, rfl, nofun⟩
            · obtain ⟨character, here⟩ := firstCharacter_eq (boundary_behind_char found (by decide))
              rw [here]
              exact ⟨_, rfl, nofun⟩

end

/-! ## 3. The recovery -/

/-- The recovery has come to an index: on one line, or over a backslash before a line break. -/
def Recovers (text : List Char) (quote : Char) (start index : Nat) : Prop :=
  Passes text quote start index ∨
    start ≤ index ∧ OnBoundary text index ∧ ¬ Unbroken text start index ∧ escapesAt text quote start = true

theorem Recovers.boundary (recovers : Recovers text quote start index) : OnBoundary text index :=
  recovers.elim (·.reaches.boundary) (·.2.1)

theorem Recovers.over (recovers : Recovers text quote start index) (passes : Passes text quote index finish) :
    Recovers text quote start finish := by
  refine recovers.imp (·.trans passes) fun ⟨le, _, broken, escapes⟩ => ?_
  have := passes.reaches.le
  exact ⟨by omega, passes.reaches.boundary, fun whole => broken fun i b low high => whole i b low (by omega), escapes⟩

theorem Recovers.breaks (recovers : Recovers text quote start index) (escapes : escapesAt text quote index = true)
    (boundary : OnBoundary text finish)
    (broken : ∃ i byte, index ≤ i ∧ i < finish ∧ byteAt text i = some byte ∧ isLineBreak byte = true) :
    Recovers text quote start finish := by
  obtain ⟨i, byte, low, high, at_, breaks⟩ := broken
  have none_ : start ≤ index → ¬ Unbroken text start finish := by
    intro le whole
    cases breaks.symm.trans (whole i byte (by omega) high at_)
  rcases recovers with passes | ⟨le, _, _, escapes⟩
  · have le := passes.reaches.le
    exact .inr ⟨by omega, boundary, none_ le, passes.same ▸ escapes⟩
  · exact .inr ⟨by omega, boundary, none_ le, escapes⟩

/-- Where the recovery ends, from the body of a literal on. -/
def Recovered (text : List Char) (quote : Char) (start finish : Nat) : Prop :=
  start ≤ finish ∧ OnBoundary text finish ∧ (Unbroken text start finish ↔ escapesAt text quote start = false)

theorem Recovers.ends (recovers : Recovers text quote start index) (stops : escapesAt text quote index = false)
    (more : Reaches text index finish) : Recovered text quote start finish := by
  rcases recovers with passes | ⟨le, _, broken, escapes⟩
  · have whole := passes.reaches.trans more
    exact ⟨whole.le, whole.boundary, fun _ => passes.same ▸ stops, fun _ => whole.unbroken⟩
  · have := more.le
    refine ⟨by omega, more.boundary, ?_⟩
    simp only [escapes, Bool.true_eq_false, iff_false]
    exact fun whole => broken fun i b low high => whole i b low (by omega)

theorem plain_of_not (notBreak : ¬ (byte = byteOf '\n' ∨ byte = byteOf '\r')) : isLineBreak byte = false :=
  Bool.eq_false_iff.mpr fun breaks => notBreak (break_iff.mp breaks)

/-- **The recovery** stays on the line exactly when no backslash there stands before a line break. -/
theorem recovery_spec (quotes : quote = '\'' ∨ quote = '"') (boundary : OnBoundary text start) :
    ∃ finish, scanFrom (utf8Bytes text) (recoveryTurn text quote) start () = some (finish, ()) ∧
      Recovered text quote start finish := by
  have ascii : quote.toNat < 128 := by rcases quotes with rfl | rfl <;> decide
  have notBackslash : quote ≠ '\\' := by rcases quotes with rfl | rfl <;> decide
  have ⟨finish, _, scanned, ended⟩ := @scanFrom_rule Unit (utf8Bytes text) (recoveryTurn text quote)
    (fun index _ => Recovers text quote start index) (fun index _ => Recovered text quote start index) start ()
    (.inl (.refl boundary)) ?_ ?_
  · exact ⟨finish, scanned, ended⟩
  · intro index byte _ found recovers
    have on := recovers.boundary
    unfold recoveryTurn
    by_cases breaks : byte = byteOf '\n' ∨ byte = byteOf '\r'
    · rw [if_pos breaks]
      have stops := escapesAt_stop ascii notBackslash found (.inl (break_iff.mpr breaks))
      exact .inr ⟨index, (), rfl, recovers.ends stops (.refl on)⟩
    · rw [if_neg breaks]
      have plain := plain_of_not breaks
      by_cases closes : byte = byteOf quote
      · rw [if_pos closes]
        have stops := escapesAt_stop ascii notBackslash found (.inr closes)
        refine .inr ⟨index + 1, (), rfl, recovers.ends stops (reaches_byte found ⟨?_, plain⟩)⟩
        rw [closes, byteOf_toNat ascii]
        exact ascii
      · rw [if_neg closes]
        by_cases backslash : byte = byteOf '\\'
        · subst backslash
          obtain ⟨_, rest, here, _, width⟩ := ascii_suffix found (by decide)
          obtain rfl := character_of_byteAt here found (by decide)
          have behind := onBoundary_behind here
          rw [width] at behind
          rw [characterLenAt, behind]
          cases rest with
          | nil =>
            refine .inl ⟨index + 1, (), rfl, Nat.lt_succ_self _, recovers.over ⟨reaches_byte found (by decide), ?_⟩⟩
            rw [escapesAt, escapesAt, behind, here]
            simp [escapesBreak]
          | cons character rest =>
            refine .inl ⟨index + 1 + character.utf8Size, (), rfl, by omega, ?_⟩
            by_cases newline : character = '\n' ∨ character = '\r'
            · refine recovers.breaks ?_ (onBoundary_iff.mpr ⟨_, onBoundary_behind behind⟩) ?_
              · rw [escapesAt, here]
                simp [escapesBreak, newline]
              · have width := character.utf8Size_pos
                rcases newline with rfl | rfl
                · exact ⟨_, _, by omega, by omega, byteAt_of_suffix behind (by decide), by decide⟩
                · exact ⟨_, _, by omega, by omega, byteAt_of_suffix behind (by decide), by decide⟩
            · exact recovers.over (passes_escape found behind (not_or.mp newline))
        · rw [if_neg backslash]
          obtain ⟨character, rest, at_⟩ := suffix_at on found
          rw [characterLenAt, at_]
          exact .inl ⟨_, (), rfl, Nat.lt_add_of_pos_right character.utf8Size_pos,
            recovers.over (passes_character found plain ascii at_ closes backslash)⟩
  · intro index _ none' recovers
    obtain ⟨rest, suffix⟩ := onBoundary_iff.mp recovers.boundary
    obtain ⟨rfl, _⟩ := suffixFrom_end suffix none'
    exact recovers.ends (by rw [escapesAt, suffix]; rfl) (.refl recovers.boundary)

/-- A lexeme of a quoted literal: it is on one line exactly when its body has no backslash before a line break. -/
def Quoted (text : List Char) (quote : Char) (start body : Nat) (token : SyntaxToken) : Prop :=
  Lexeme text start token ∧ (Unbroken text token.range.start token.range.end ↔ escapesAt text quote body = false)

theorem makeInvalidQuotedToken_quoted (quotes : quote = '\'' ∨ quote = '"')
    (opened : Reaches text start (bodyStart text start quote)) (later : start < bodyStart text start quote) :
    ∃ token, makeInvalidQuotedToken text start quote = some token ∧
      Quoted text quote start (bodyStart text start quote) token := by
  obtain ⟨finish, scanned, le, boundary, line⟩ := recovery_spec quotes opened.boundary
  refine ⟨_, by rw [makeInvalidQuotedToken, quotedLiteralRecoveryEnd, scanned]; rfl,
    ⟨_, finish, rfl, by nofun, by omega, boundary⟩, ?_⟩
  rw [← line]
  constructor
  · intro whole i b low high
    exact whole i b (Nat.le_trans opened.le low) high
  · intro whole
    exact (opened.trans ⟨le, boundary, whole⟩).unbroken

/-! ## 4. Strings and characters -/

/-- A character of a body that is no quote, no backslash and no line break. -/
theorem passes_literal (ascii : quote.toNat < 128) (boundary : OnBoundary text index)
    (found : byteAt text index = some byte) (plain : isLineBreak byte = false) (open_ : byte ≠ byteOf quote)
    (literal : byte ≠ byteOf '\\') : (isAscii byte = true → Passes text quote index (index + 1)) ∧
      ∃ len, characterLenAt text index = some len ∧ 0 < len ∧ Passes text quote index (index + len) := by
  constructor
  · intro small
    exact passes_byte found plain ascii (UInt8.lt_iff_toNat_lt.mp (of_decide_eq_true small)) open_ literal
  · obtain ⟨character, rest, at_⟩ := suffix_at boundary found
    exact ⟨_, by rw [characterLenAt, at_]; rfl, character.utf8Size_pos,
      passes_character found plain ascii at_ open_ literal⟩

theorem Passes.closes (passes : Passes text quote start index) (quotes : quote = '\'' ∨ quote = '"')
    (found : byteAt text index = some (byteOf quote)) :
    Reaches text start (index + 1) ∧ escapesAt text quote start = false := by
  have stops : escapesAt text quote index = false := by
    rcases quotes with rfl | rfl <;> exact escapesAt_stop (by decide) (by decide) found (.inr rfl)
  refine ⟨passes.reaches.trans (reaches_byte found ?_), passes.same ▸ stops⟩
  rcases quotes with rfl | rfl <;> decide

theorem scanStringLiteral_quoted {byteString : Bool} (opened : Reaches text start (start + 1 + byteString.toNat))
    (body : bodyStart text start '"' = start + 1 + byteString.toNat) :
    ∃ token, scanStringLiteral text start byteString = some token ∧
      Quoted text '"' start (start + 1 + byteString.toNat) token := by
  have invalid := @makeInvalidQuotedToken_quoted text start '"' (.inr rfl)
  rw [body] at invalid
  replace invalid := invalid opened (by omega)
  have ⟨index, state, scanned, kept⟩ := @scanFrom_rule StringScan (utf8Bytes text)
    (stringTurn text (if byteString then .byteString else .string))
    (fun index state => state = .running ∧ Passes text '"' (start + 1 + byteString.toNat) index)
    (fun index state => state = .closed → Reaches text (start + 1 + byteString.toNat) index ∧
      escapesAt text '"' (start + 1 + byteString.toNat) = false)
    (start + 1 + byteString.toNat) .running ⟨rfl, .refl opened.boundary⟩ ?_ fun _ _ _ ⟨running, _⟩ closed => by
      cases running.symm.trans closed
  · unfold scanStringLiteral
    rw [scanned]
    cases state with
    | closed =>
      obtain ⟨reaches, stops⟩ := kept rfl
      have whole := opened.trans reaches
      have := reaches.le
      exact ⟨_, rfl, ⟨_, index, rfl, by split <;> nofun, by omega, whole.boundary⟩, fun _ => stops,
        fun _ => whole.unbroken⟩
    | running => exact invalid
    | invalid => exact invalid
  · intro index here state at_ ⟨_, passes⟩
    unfold stringTurn
    by_cases closed : here = byteOf '"'
    · subst closed
      exact .inr ⟨_, _, rfl, fun _ => passes.closes (.inr rfl) at_⟩
    · rw [if_neg closed]
      by_cases newline : here = byteOf '\n' ∨ here = byteOf '\r'
      · rw [if_pos newline]
        exact .inr ⟨_, _, rfl, nofun⟩
      · rw [if_neg newline]
        by_cases backslash : here = byteOf '\\'
        · subst backslash
          obtain ⟨escape, escaped, valid⟩ :=
            @scanEscapeSequence_spec _ '"' _ (.inr rfl) at_ (if byteString then .byteString else .string)
          rw [escaped]
          cases escape with
          | valid finish =>
            obtain ⟨further, more⟩ := valid finish rfl
            exact .inl ⟨_, _, rfl, by omega, rfl, passes.trans more⟩
          | invalid => exact .inr ⟨_, _, rfl, nofun⟩
        · rw [if_neg backslash]
          have ⟨one, len, eq, pos, more⟩ := @passes_literal _ _ _ '"' (by decide) passes.reaches.boundary at_
            (plain_of_not newline) closed backslash
          by_cases ascii : isAscii here = true
          · rw [if_pos ascii]
            exact .inl ⟨_, _, rfl, Nat.lt_succ_self _, rfl, passes.trans (one ascii)⟩
          · rw [if_neg ascii, eq]
            exact .inl ⟨_, _, rfl, by omega, rfl, passes.trans more⟩

theorem scanCharacterLiteralBody_spec (boundary : OnBoundary text index) :
    ∃ body, scanCharacterLiteralBody text index = some body ∧
      ∀ finish, body = some finish → Passes text '\'' index finish := by
  unfold scanCharacterLiteralBody
  cases at_ : byteAt text index with
  | none => exact ⟨_, rfl, nofun⟩
  | some here =>
    simp only
    by_cases backslash : here = byteOf '\\'
    · subst backslash
      obtain ⟨escape, escaped, valid⟩ := @scanEscapeSequence_spec _ '\'' _ (.inl rfl) at_ .character
      rw [escaped]
      refine ⟨_, rfl, ?_⟩
      cases escape with
      | valid finish =>
        rintro _ ⟨⟩
        exact (valid finish rfl).2
      | invalid => exact nofun
    · rw [if_neg backslash]
      by_cases closed : here = byteOf '\''
      · rw [if_pos closed]
        exact ⟨_, rfl, nofun⟩
      · rw [if_neg closed]
        by_cases newline : here = byteOf '\n' ∨ here = byteOf '\r'
        · rw [if_pos newline]
          exact ⟨_, rfl, nofun⟩
        · rw [if_neg newline]
          have ⟨one, len, eq, _, more⟩ := @passes_literal _ _ _ '\'' (by decide) boundary at_ (plain_of_not newline)
            closed backslash
          split
          · rename_i ascii
            exact ⟨_, rfl, by rintro _ ⟨⟩; exact one ascii⟩
          · rw [eq]
            exact ⟨_, rfl, by rintro _ ⟨⟩; exact more⟩

theorem scanCharacterLiteral_quoted (opened : byteAt text start = some (byteOf '\'')) :
    ∃ token, scanCharacterLiteral text start = some token ∧ Quoted text '\'' start (start + 1) token := by
  have first : Reaches text start (start + 1) := reaches_byte opened (by decide)
  have invalid := @makeInvalidQuotedToken_quoted text start '\'' (.inl rfl) first (Nat.lt_succ_self _)
  obtain ⟨body, scanned, passed⟩ := scanCharacterLiteralBody_spec first.boundary
  unfold scanCharacterLiteral
  rw [scanned]
  cases body with
  | none => exact invalid
  | some finish =>
    simp only [some_bind]
    by_cases closed : byteAt text finish = some (byteOf '\'')
    · rw [if_pos closed]
      have passes := passed finish rfl
      obtain ⟨reaches, stops⟩ := passes.closes (.inl rfl) closed
      have whole := first.trans reaches
      have := passes.reaches.le
      exact ⟨_, rfl, ⟨_, finish + 1, rfl, by nofun, by omega, whole.boundary⟩, fun _ => stops, fun _ => whole.unbroken⟩
    · rw [if_neg closed]
      exact invalid

end Bray.Lexer
