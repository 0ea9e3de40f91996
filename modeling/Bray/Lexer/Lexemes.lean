/-
  File:      Bray/Lexer/Lexemes.lean
  Subject:   NUMBERS, IDENTIFIERS AND OPERATORS (lexer/literal/numeric.rs, lexer/scanner.rs): from a boundary
    each scan reaches a later boundary and comes over no line break.

  The loops go on over bytes of classes; a class is a table of 256 rows (`Plain.of_table`).
-/
import Bray.Lexer.Sound

namespace Bray.Lexer

open Lib List
open Bool (and_eq_true or_eq_true)

variable {alphanumeric : Char → Bool} {text rest : List Char} {index start finish : Nat} {byte : UInt8}
  {character : Char}

/-! ## 1. Lines -/

def isLineBreak (byte : UInt8) : Bool := byte = byteOf '\n' || byte = byteOf '\r'

/-- No line breaks between two offsets. -/
def Unbroken (text : List Char) (start finish : Nat) : Prop :=
  ∀ index byte, start ≤ index → index < finish → byteAt text index = some byte → isLineBreak byte = false

/-- A range on one line, up to a boundary. -/
structure Reaches (text : List Char) (start finish : Nat) : Prop where
  le : start ≤ finish
  boundary : OnBoundary text finish
  unbroken : Unbroken text start finish

theorem Reaches.refl (boundary : OnBoundary text start) : Reaches text start start :=
  ⟨Nat.le_refl _, boundary, fun _ _ low high => by omega⟩

theorem Reaches.trans {middle : Nat} (reaches : Reaches text start middle) (more : Reaches text middle finish) :
    Reaches text start finish := by
  refine ⟨Nat.le_trans reaches.le more.le, more.boundary, fun index byte low high at_ => ?_⟩
  by_cases before : index < middle
  · exact reaches.unbroken index byte low before at_
  · exact more.unbroken index byte (by omega) high at_

/-- A class of ASCII bytes without the line breaks. -/
def Plain (p : UInt8 → Bool) : Prop := ∀ byte, p byte = true → byte.toNat < 128 ∧ isLineBreak byte = false

theorem Plain.of_table {p : UInt8 → Bool}
    (table : ∀ n < 256, p (UInt8.ofNat n) = true → n < 128 ∧ isLineBreak (UInt8.ofNat n) = false) : Plain p := by
  intro byte holds
  have := table byte.toNat byte.toNat_lt
  rw [UInt8.ofNat_toNat] at this
  exact this holds

theorem plain_digit : Plain isAsciiDigit := .of_table (by decide +kernel)
theorem plain_binary : Plain isBinaryDigit := .of_table (by decide +kernel)
theorem plain_hexdigit : Plain isAsciiHexdigit := .of_table (by decide +kernel)
theorem plain_continue : Plain isAsciiIdentifierContinue := .of_table (by decide +kernel)
theorem plain_cluster : Plain isOperatorClusterByte := .of_table (by decide +kernel)

theorem reaches_byte (found : byteAt text index = some byte) (plain : byte.toNat < 128 ∧ isLineBreak byte = false) :
    Reaches text index (index + 1) := by
  refine ⟨Nat.le_succ _, boundary_behind found plain.1, fun index' byte' low high at_ => ?_⟩
  obtain rfl : index' = index := by omega
  obtain rfl := Option.some.inj (found.symm.trans at_)
  exact plain.2

theorem reaches_character (suffix : suffixFrom text index = some (character :: rest))
    (plain : character ≠ '\n' ∧ character ≠ '\r') : Reaches text index (index + character.utf8Size) := by
  refine ⟨by omega, onBoundary_iff.mpr ⟨rest, onBoundary_behind suffix⟩, fun index' byte low high at_ => ?_⟩
  obtain ⟨offset, rfl⟩ := Nat.exists_eq_add_of_le low
  have here := utf8Bytes_suffix suffix offset
  rw [utf8Bytes_cons, getElem?_append_left (by rw [String.length_utf8EncodeChar]; omega)] at here
  have mem := mem_of_getElem? (here.symm.trans at_)
  rw [isLineBreak, Bool.or_eq_false_iff, decide_eq_false_iff_not, decide_eq_false_iff_not]
  rcases utf8EncodeChar_cases character with ⟨ascii, encoded⟩ | ⟨_, high⟩
  · rw [encoded, mem_singleton] at mem
    have value : byte.toNat = character.toNat := by rw [mem]; exact toNat_ofNat_small (by omega)
    constructor
    · rintro rfl
      exact plain.1 (Char.toNat_inj.mp value.symm)
    · rintro rfl
      exact plain.2 (Char.toNat_inj.mp value.symm)
  · have := high byte mem
    constructor
    · rintro rfl
      exact absurd this (by decide)
    · rintro rfl
      exact absurd this (by decide)

theorem reaches_characters {front : List Char} (suffix : suffixFrom text start = some (front ++ rest))
    (plain : ∀ c ∈ front, c ≠ '\n' ∧ c ≠ '\r') : Reaches text start (start + utf8Len front) := by
  induction front generalizing start with
  | nil => exact .refl (onBoundary_iff.mpr ⟨_, suffix⟩)
  | cons character front ih =>
    rw [utf8Len_cons, ← Nat.add_assoc]
    exact (reaches_character suffix (plain _ (.head _))).trans
      (ih (onBoundary_behind suffix) fun c mem => plain c (.tail _ mem))

/-- A loop whose turns reach further. -/
theorem reaches_loop {σ : Type} {body : Nat → UInt8 → σ → Option (Turn σ)} (state : σ)
    (boundary : OnBoundary text start)
    (turn : ∀ index byte state, byteAt text index = some byte → OnBoundary text index →
      (∃ index' state', body index byte state = some (.next index' state') ∧ index < index' ∧ Reaches text index index') ∨
        ∃ state', body index byte state = some (.stop index state')) :
    ∃ finish state', scanFrom (utf8Bytes text) body start state = some (finish, state') ∧ Reaches text start finish := by
  refine @scanFrom_rule σ _ body (fun index _ => Reaches text start index) (fun index _ => Reaches text start index) _ _
    (.refl boundary) (fun index byte state found reaches => ?_) fun _ _ _ reaches => reaches
  rcases turn index byte state found reaches.boundary with ⟨index', state', eq, later, more⟩ | ⟨state', eq⟩
  · exact .inl ⟨index', state', eq, later, reaches.trans more⟩
  · exact .inr ⟨index, state', eq, reaches⟩

/-- A loop over the bytes of a class ends where the class ends. -/
theorem class_loop {p : UInt8 → Bool} (plain : Plain p) (boundary : OnBoundary text start) :
    ∃ finish, scanFrom (utf8Bytes text) (fun index byte (_ : Unit) =>
        some (if p byte = true then .next (index + 1) () else .stop index ())) start () = some (finish, ()) ∧
      Reaches text start finish ∧ (byteAt text finish).any p = false := by
  have ⟨finish, _, scanned, ended⟩ := @scanFrom_rule Unit (utf8Bytes text) (fun index byte _ =>
      some (if p byte = true then .next (index + 1) () else .stop index ())) (fun index _ => Reaches text start index)
    (fun index _ => Reaches text start index ∧ (byteAt text index).any p = false) _ ()
    (.refl boundary) (fun index byte _ found reaches => ?_) fun index _ none' reaches => ?_
  · exact ⟨finish, scanned, ended⟩
  · by_cases class_ : p byte = true
    · rw [if_pos class_]
      exact .inl ⟨_, _, rfl, Nat.lt_succ_self _, reaches.trans (reaches_byte found (plain byte class_))⟩
    · rw [if_neg class_]
      refine .inr ⟨_, _, rfl, reaches, ?_⟩
      rw [show byteAt text index = some byte from found]
      exact Bool.eq_false_iff.mpr class_
  · exact ⟨reaches, by rw [show byteAt text index = none from none']; rfl⟩

/-- A loop over a class comes further when it begins in the class. -/
theorem later_of_class {p : UInt8 → Bool} (found : byteAt text start = some byte) (class_ : p byte = true)
    (reaches : Reaches text start finish) (ends : (byteAt text finish).any p = false) : start < finish := by
  refine Nat.lt_of_le_of_ne reaches.le fun same => ?_
  rw [← same, found] at ends
  cases class_.symm.trans ends

/-! ## 2. Numbers -/

/-- A token without trivia, from an index to a later boundary, that is not the end of file. -/
def Lexeme (text : List Char) (start : Nat) (token : SyntaxToken) : Prop :=
  ∃ kind finish, token = .new kind ⟨start, finish⟩ ∧ kind ≠ .endOfFileToken ∧ start < finish ∧
    OnBoundary text finish

/-- A token that is a lexeme on one line. -/
def Word (text : List Char) (start : Nat) (token : SyntaxToken) : Prop :=
  ∃ kind finish, token = .new kind ⟨start, finish⟩ ∧ kind ≠ .endOfFileToken ∧ start < finish ∧
    Reaches text start finish

theorem scanDigitSequence_spec {isDigit : UInt8 → Bool} (plain : Plain isDigit) (boundary : OnBoundary text start) :
    ∃ scan, scanDigitSequence text start isDigit = some scan ∧ Reaches text start scan.endIndex ∧
      (scan.sawDigit = true → start < scan.endIndex) := by
  have ⟨index, state, scanned, kept⟩ := @scanFrom_rule DigitState (utf8Bytes text) (digitTurn text isDigit)
    (fun index state => Reaches text start index ∧ (state.sawDigit = true → start < index))
    (fun index state => Reaches text start index ∧ (state.sawDigit = true → start < index))
    start ⟨false, false, true⟩ ⟨.refl boundary, nofun⟩ ?_ fun _ _ _ kept => kept
  · exact ⟨_, by rw [scanDigitSequence, scanned]; rfl, kept⟩
  · intro index here state at_ ⟨reaches, saw⟩
    have := reaches.le
    unfold digitTurn
    by_cases digit : isDigit here = true
    · rw [if_pos digit]
      exact .inl ⟨_, _, rfl, Nat.lt_succ_self _, reaches.trans (reaches_byte at_ (plain here digit)), fun _ => by omega⟩
    · rw [if_neg digit]
      by_cases separator : here = byteOf '_'
      · subst separator
        exact .inl ⟨_, _, rfl, Nat.lt_succ_self _, reaches.trans (reaches_byte at_ (by decide)), fun _ => by omega⟩
      · rw [if_neg separator]
        exact .inr ⟨_, _, rfl, reaches, saw⟩

/-- A number from an index: its end is later when it is valid. -/
def Numeric (text : List Char) (start : Nat) (scan : NumericScan) : Prop :=
  Reaches text start scan.endIndex ∧ (scan.valid = true → start < scan.endIndex) ∧ scan.kind ≠ .endOfFileToken

theorem scanRadixInteger_spec {kind : SyntaxKind} (notEnd : kind ≠ .endOfFileToken) {isDigit : UInt8 → Bool}
    (plain : Plain isDigit) (marked : Reaches text start (start + 2)) :
    ∃ scan, scanRadixInteger text start kind isDigit = some scan ∧ Numeric text start scan := by
  obtain ⟨digits, scanned, reaches, _⟩ := scanDigitSequence_spec plain marked.boundary
  have := reaches.le
  exact ⟨_, by rw [scanRadixInteger, scanned]; rfl, marked.trans reaches,
    fun _ => show start < digits.endIndex by omega, notEnd⟩

theorem exponentStart_reaches {marker : Nat} (found : isExponentMarker (byteAt text marker) = true) :
    Reaches text marker (exponentStart text marker) ∧ marker < exponentStart text marker := by
  unfold exponentStart
  have behind : Reaches text marker (marker + 1) := by
    simp only [isExponentMarker, or_eq_true, decide_eq_true_eq] at found
    rcases found with found | found
    · exact reaches_byte found (by decide)
    · exact reaches_byte found (by decide)
  split
  · rename_i sign
    rcases sign with sign | sign
    · exact ⟨behind.trans (reaches_byte sign (by decide)), by omega⟩
    · exact ⟨behind.trans (reaches_byte sign (by decide)), by omega⟩
  · exact ⟨behind, by omega⟩

theorem scanExponentOf_spec {number : NumericScan} (numeric : Numeric text start number) :
    ∃ scan, scanExponentOf text number .realLiteralToken = some scan ∧ Numeric text start scan := by
  unfold scanExponentOf
  by_cases marker : isExponentMarker (byteAt text number.endIndex) = true
  · rw [if_pos marker]
    obtain ⟨before, later⟩ := exponentStart_reaches marker
    obtain ⟨digits, scanned, reaches, _⟩ := scanDigitSequence_spec plain_digit before.boundary
    have := numeric.1.le
    have := reaches.le
    exact ⟨_, by rw [scanExponentPart, scanned]; rfl, (numeric.1.trans before).trans reaches,
      fun _ => show start < digits.endIndex by omega, by nofun⟩
  · rw [if_neg marker]
    exact ⟨number, rfl, numeric⟩

theorem scanDecimalNumeric_spec (boundary : OnBoundary text start) :
    ∃ scan, scanDecimalNumeric text start = some scan ∧ Numeric text start scan := by
  obtain ⟨integer, scanned, reaches, saw⟩ := scanDigitSequence_spec plain_digit boundary
  unfold scanDecimalNumeric
  rw [scanned]
  simp only [some_bind]
  by_cases fraction : byteAt text integer.endIndex = some (byteOf '.') ∧
    (byteAt text (integer.endIndex + 1)).any isAsciiDigit = true
  · rw [if_pos fraction]
    have point := reaches.trans (reaches_byte fraction.1 (by decide))
    obtain ⟨digits, scanned', reaches', _⟩ := scanDigitSequence_spec plain_digit point.boundary
    rw [scanned']
    have := reaches.le
    have := reaches'.le
    exact scanExponentOf_spec ⟨point.trans reaches', fun _ => by simp only; omega, nofun⟩
  · rw [if_neg fraction]
    refine scanExponentOf_spec ⟨reaches, fun valid => ?_, nofun⟩
    simp only [and_eq_true] at valid
    exact saw valid.2

theorem radix_reaches {lower upper : Char} (low : (byteOf lower).toNat < 128 ∧ isLineBreak (byteOf lower) = false)
    (up : (byteOf upper).toNat < 128 ∧ isLineBreak (byteOf upper) = false)
    (found : hasRadixPrefix text start lower upper = true) : Reaches text start (start + 2) := by
  simp only [hasRadixPrefix, and_eq_true, or_eq_true, decide_eq_true_eq] at found
  refine (reaches_byte found.1 (by decide)).trans ?_
  rcases found.2 with found | found
  · exact reaches_byte found low
  · exact reaches_byte found up

theorem scanNumber_spec (boundary : OnBoundary text start) :
    ∃ scan, scanNumber text start = some scan ∧ Numeric text start scan := by
  unfold scanNumber
  by_cases binary : hasRadixPrefix text start 'b' 'B' = true
  · rw [if_pos binary]
    exact scanRadixInteger_spec (by nofun) plain_binary (radix_reaches (by decide) (by decide) binary)
  · rw [if_neg binary]
    by_cases hexadecimal : hasRadixPrefix text start 'x' 'X' = true
    · rw [if_pos hexadecimal]
      exact scanRadixInteger_spec (by nofun) plain_hexdigit (radix_reaches (by decide) (by decide) hexadecimal)
    · rw [if_neg hexadecimal]
      exact scanDecimalNumeric_spec boundary

theorem withImaginarySuffix_spec {scan : NumericScan} (numeric : Numeric text start scan) :
    Numeric text start (withImaginarySuffix text scan) := by
  unfold withImaginarySuffix
  split
  · rename_i imaginary
    have := numeric.1.le
    exact ⟨numeric.1.trans (reaches_byte imaginary (by decide)), fun _ => by simp only; omega, nofun⟩
  · exact numeric

theorem withImaginarySuffix_valid (scan : NumericScan) : (withImaginarySuffix text scan).valid = scan.valid := by
  unfold withImaginarySuffix
  split <;> rfl

/-- A class of bytes that is a range holds the byte of a character of the range. -/
theorem byteOf_le {low : Char} (small : low.toNat < 128) (ascii : character.toNat < 128) :
    byteOf low ≤ byteOf character ↔ low.toNat ≤ character.toNat := by
  rw [UInt8.le_iff_toNat_le, byteOf_toNat small, byteOf_toNat ascii]

theorem val_le {low : Char} : low.val ≤ character.val ↔ low.toNat ≤ character.toNat :=
  UInt32.le_iff_toNat_le

theorem isDigit_ascii (digit : character.isDigit = true) :
    character.toNat < 128 ∧ isAsciiDigit (byteOf character) = true := by
  simp only [Char.isDigit, and_eq_true, decide_eq_true_eq, ge_iff_le, val_le] at digit
  have nine : '9'.toNat = 57 := by decide
  have ascii : character.toNat < 128 := by omega
  refine ⟨ascii, ?_⟩
  simp only [isAsciiDigit, and_eq_true, decide_eq_true_eq]
  exact ⟨(byteOf_le (by decide) ascii).mpr digit.1, (byteOf_le ascii (by decide)).mpr digit.2⟩

theorem isAlpha_ascii (alpha : character.isAlpha = true) :
    character.toNat < 128 ∧ isAsciiIdentifierContinue (byteOf character) = true := by
  simp only [Char.isAlpha, Char.isUpper, Char.isLower, or_eq_true, and_eq_true, decide_eq_true_eq,
    ge_iff_le, val_le] at alpha
  have upper : 'Z'.toNat = 90 := by decide
  have lower : 'z'.toNat = 122 := by decide
  have ascii : character.toNat < 128 := by omega
  refine ⟨ascii, ?_⟩
  simp only [isAsciiIdentifierContinue, isAsciiAlphanumeric, isAsciiAlphabetic, or_eq_true, and_eq_true,
    decide_eq_true_eq]
  rcases alpha with alpha | alpha
  · exact .inl (.inl (.inr ⟨(byteOf_le (by decide) ascii).mpr alpha.1, (byteOf_le ascii (by decide)).mpr alpha.2⟩))
  · exact .inl (.inl (.inl ⟨(byteOf_le (by decide) ascii).mpr alpha.1, (byteOf_le ascii (by decide)).mpr alpha.2⟩))

/-- The text between two boundaries can be read. -/
theorem tokenText_eq (first : OnBoundary text start) (last : OnBoundary text finish) :
    ∃ spelling, tokenText text ⟨start, finish⟩ = some spelling := by
  obtain ⟨fromStart, eq⟩ := onBoundary_iff.mp first
  obtain ⟨fromEnd, eq'⟩ := onBoundary_iff.mp last
  exact ⟨_, by rw [tokenText, eq, eq']; rfl⟩

theorem fromFixedText_ne_end (spelling : List Char) :
    (SyntaxKind.fromFixedText spelling).getD .invalidToken ≠ .endOfFileToken := by
  unfold SyntaxKind.fromFixedText
  split <;> nofun

theorem keywordKind_ne_end (spelling : List Char) :
    (keywordKind spelling).getD .identifierToken ≠ .endOfFileToken := by
  unfold keywordKind SyntaxKind.fromFixedText
  split
  · rw [Option.filter_some]
    split <;> nofun
  · nofun

section

variable (suffix : suffixFrom text start = some (character :: rest)) (plain : character ≠ '\n' ∧ character ≠ '\r')
include suffix plain

theorem characterEnd_spec : ∃ finish, characterEnd text start = some finish ∧ start < finish ∧
    Reaches text start finish :=
  ⟨_, by rw [characterEnd, firstCharacter, suffix]; rfl, Nat.lt_add_of_pos_right character.utf8Size_pos,
    reaches_character suffix plain⟩

theorem invalidNumericLikeEnd_spec : ∃ finish, invalidNumericLikeEnd text start = some finish ∧ start < finish ∧
    Reaches text start finish := by
  have ⟨index, _, scanned, reaches⟩ := @reaches_loop _ _ _ (invalidNumericTurn text) false
    (onBoundary_iff.mpr ⟨_, suffix⟩) fun index here state at_ _ => ?_
  · unfold invalidNumericLikeEnd
    rw [scanned]
    by_cases same : index = start
    · simp only [some_bind, if_pos same]
      exact characterEnd_spec suffix plain
    · have := reaches.le
      exact ⟨index, by simp only [some_bind, if_neg same], by omega, reaches⟩
  · unfold invalidNumericTurn
    by_cases word : isAsciiAlphanumeric here = true ∨ here = byteOf '_'
    · rw [if_pos word]
      exact .inl ⟨_, _, rfl, Nat.lt_succ_self _, reaches_byte at_ (plain_continue here (by
        simpa [isAsciiIdentifierContinue] using word))⟩
    · rw [if_neg word]
      by_cases point : here = byteOf '.' ∧ byteAt text (index + 1) ≠ some (byteOf '.')
      · rw [if_pos point]
        exact .inl ⟨_, _, rfl, Nat.lt_succ_self _, reaches_byte at_ (by rw [point.1]; decide)⟩
      · rw [if_neg point]
        by_cases sign : (here = byteOf '+' ∨ here = byteOf '-') ∧ state = true
        · rw [if_pos sign]
          refine .inl ⟨_, _, rfl, Nat.lt_succ_self _, reaches_byte at_ ?_⟩
          rcases sign.1 with rfl | rfl
          · decide
          · decide
        · rw [if_neg sign]
          exact .inr ⟨_, rfl⟩

theorem makeInvalidNumericToken_word :
    ∃ token, makeInvalidNumericToken text start = some token ∧ Word text start token := by
  obtain ⟨finish, ended, later, reaches⟩ := invalidNumericLikeEnd_spec suffix plain
  exact ⟨_, by rw [makeInvalidNumericToken, ended]; rfl, _, finish, rfl, by nofun, later, reaches⟩

theorem scanNumericLiteral_word : ∃ token, scanNumericLiteral text start = some token ∧ Word text start token := by
  obtain ⟨scan, scanned, numeric⟩ := scanNumber_spec (onBoundary_iff.mpr ⟨_, suffix⟩)
  have invalid := makeInvalidNumericToken_word suffix plain
  have suffixed := withImaginarySuffix_spec numeric
  unfold scanNumericLiteral
  rw [scanned]
  simp only [some_bind]
  cases valid : scan.valid with
  | false => exact invalid
  | true =>
    simp only [Bool.not_true, Bool.false_eq_true, if_false]
    by_cases suffix : (byteAt text (withImaginarySuffix text scan).endIndex).any isNumericSuffixByte = true
    · rw [if_pos suffix]
      split
      · exact invalid
      · obtain ⟨character, here⟩ := firstCharacter_eq suffixed.1.boundary
        rw [here]
        exact invalid
    · rw [if_neg suffix]
      refine ⟨_, rfl, _, _, rfl, suffixed.2.2, suffixed.2.1 ?_, suffixed.1⟩
      rw [withImaginarySuffix_valid, valid]

theorem scanTupleElementIndexToken_word (digit : character.isDigit = true) :
    ∃ token, scanTupleElementIndexToken text start = some token ∧ Word text start token := by
  obtain ⟨index, scanned, reaches, ends⟩ := class_loop plain_digit (onBoundary_iff.mpr ⟨_, suffix⟩)
  unfold scanTupleElementIndexToken
  rw [show scanFrom (utf8Bytes text) decimalDigitsTurn start () = some (index, ()) from scanned]
  simp only [some_bind]
  split
  · exact makeInvalidNumericToken_word suffix plain
  · exact ⟨_, rfl, _, index, rfl, nofun, later_of_class (byteAt_of_suffix suffix (isDigit_ascii digit).1)
      (isDigit_ascii digit).2 reaches ends, reaches⟩

/-! ## 3. Identifiers and operators -/

theorem invalidIdentifierLikeEnd_spec : ∃ finish, invalidIdentifierLikeEnd alphanumeric text start = some finish ∧
    start < finish ∧ Reaches text start finish := by
  unfold invalidIdentifierLikeEnd
  rw [suffix]
  simp only [some_bind]
  have split := takeWhile_append_dropWhile (p := continuesInvalidIdentifier alphanumeric) (l := character :: rest)
  have continues : ∀ c ∈ (character :: rest).takeWhile (continuesInvalidIdentifier alphanumeric),
      continuesInvalidIdentifier alphanumeric c = true := all_eq_true.mp all_takeWhile
  generalize (character :: rest).takeWhile (continuesInvalidIdentifier alphanumeric) = front at split continues
  cases front with
  | nil => exact characterEnd_spec suffix plain
  | cons first front =>
    rw [← split] at suffix
    have := utf8Len_pos (cons_ne_nil first front)
    refine ⟨_, rfl, by omega, reaches_characters suffix fun c mem => ?_⟩
    have continues := continues c mem
    constructor
    · rintro rfl
      cases continues
    · rintro rfl
      cases continues

theorem scanIdentifierOrKeyword_word (alpha : character.isAlpha = true) :
    ∃ token, scanIdentifierOrKeyword alphanumeric text start = some token ∧ Word text start token := by
  have boundary := onBoundary_iff.mpr ⟨_, suffix⟩
  obtain ⟨index, scanned, reaches, ends⟩ := class_loop plain_continue boundary
  obtain ⟨ascii, word⟩ := isAlpha_ascii alpha
  have later := later_of_class (byteAt_of_suffix suffix ascii) word reaches ends
  obtain ⟨character', here⟩ := firstCharacter_eq reaches.boundary
  unfold scanIdentifierOrKeyword identifierLikeEnd
  rw [show scanFrom (utf8Bytes text) identifierTurn start () = some (index, ()) from scanned]
  simp only [Option.bind_eq_bind, Option.bind_some, here]
  by_cases foreign : character'.any (isNonAsciiIdentifierCharacter alphanumeric) = true
  · rw [if_pos foreign]
    obtain ⟨finish, ended, further, reaches⟩ := invalidIdentifierLikeEnd_spec suffix plain
    rw [ended]
    exact ⟨_, rfl, _, finish, rfl, by nofun, further, reaches⟩
  · rw [if_neg foreign]
    obtain ⟨spelling, eq⟩ := tokenText_eq boundary reaches.boundary
    simp only [Option.bind_some, eq]
    exact ⟨_, rfl, _, index, rfl, keywordKind_ne_end spelling, later, reaches⟩

theorem scanUnderscoreOrInvalidIdentifier_word (underscore : character = '_') :
    ∃ token, scanUnderscoreOrInvalidIdentifier alphanumeric text start = some token ∧ Word text start token := by
  have reaches : Reaches text start (start + 1) :=
    reaches_byte (byteAt_of_suffix suffix (by rw [underscore]; decide)) (by rw [underscore]; decide)
  obtain ⟨character', here⟩ := firstCharacter_eq reaches.boundary
  unfold scanUnderscoreOrInvalidIdentifier
  rw [here]
  simp only [some_bind]
  split
  · obtain ⟨finish, ended, further, reaches⟩ := @invalidIdentifierLikeEnd_spec alphanumeric _ _ _ _ suffix plain
    rw [ended]
    exact ⟨_, rfl, _, finish, rfl, by nofun, further, reaches⟩
  · exact ⟨_, rfl, _, start + 1, rfl, by nofun, by omega, reaches⟩

end

theorem repeated_reaches (plain : (byteOf character).toNat < 128 ∧ isLineBreak (byteOf character) = false)
    (repeated : isRepeated text start character = true) : Reaches text start (start + 2) := by
  simp only [isRepeated, and_eq_true, decide_eq_true_eq] at repeated
  exact (reaches_byte repeated.1.1 plain).trans (reaches_byte repeated.1.2 plain)

theorem scanOperatorOrPunctuationToken_word (boundary : OnBoundary text start)
    (found : byteAt text start = some byte) (cluster : isOperatorClusterByte byte = true) :
    ∃ token, scanOperatorOrPunctuationToken text start = some token ∧ Word text start token := by
  unfold scanOperatorOrPunctuationToken
  by_cases ampersands : isRepeated text start '&' = true
  · rw [if_pos ampersands]
    exact ⟨_, rfl, _, start + 2, rfl, by nofun, by omega, repeated_reaches (by decide) ampersands⟩
  · rw [if_neg ampersands]
    by_cases greaters : isRepeated text start '>' = true
    · rw [if_pos greaters]
      exact ⟨_, rfl, _, start + 2, rfl, by nofun, by omega, repeated_reaches (by decide) greaters⟩
    · rw [if_neg greaters]
      have ⟨index, _, scanned, later, reaches⟩ := @scanFrom_rule Unit (utf8Bytes text) (operatorTurn text start)
        (fun index _ => Reaches text start index)
        (fun index _ => start < index ∧ Reaches text start index) start () (.refl boundary) ?_ ?_
      · obtain ⟨spelling, eq⟩ := tokenText_eq boundary reaches.boundary
        rw [operatorClusterEnd, scanned]
        simp only [Option.map_some, some_bind, eq]
        exact ⟨_, rfl, _, index, rfl, fromFixedText_ne_end spelling, later, reaches⟩
      · intro index here _ at_ reaches
        unfold operatorTurn
        by_cases ends : (here = byteOf '.' ∨ here = byteOf ':') ∧ start < index ∧
          byteAt text (index - 1) = some (byteOf '>')
        · rw [if_pos ends]
          exact .inr ⟨_, _, rfl, ends.2.1, reaches⟩
        · rw [if_neg ends]
          by_cases more : isOperatorClusterByte here = true
          · rw [if_pos more]
            exact .inl ⟨_, _, rfl, Nat.lt_succ_self _, reaches.trans (reaches_byte at_ (plain_cluster here more))⟩
          · rw [if_neg more]
            refine .inr ⟨_, _, rfl, Nat.lt_of_le_of_ne reaches.le fun same => ?_, reaches⟩
            subst same
            obtain rfl := Option.some.inj (found.symm.trans at_)
            exact more cluster
      · intro index _ none' reaches
        refine ⟨Nat.lt_of_le_of_ne reaches.le fun same => ?_, reaches⟩
        subst same
        cases found.symm.trans none'

end Bray.Lexer
