/-
  File:      Bray/Lexer/Sound.lean
  Subject:   BYTES OF A TEXT AND ITS TRIVIA: from any boundary of any text the trivia scanner does not panic, and
    the trivia it finds tile the text from there to a boundary.

  Every loop keeps its index on a boundary: it steps over ASCII bytes, or over the whole character. The body
  of a line comment alone is read byte by byte; it ends at an ASCII byte or with the text.
-/
import Bray.Lexer.Scanner

namespace Bray.Lexer

open Lib

variable {alphanumeric : Char → Bool} {text rest : List Char} {index start : Nat} {byte : UInt8}

/-! ## 1. Bytes and characters -/

variable {character : Char}

theorem byteOf_toNat (ascii : character.toNat < 128) :
  (byteOf character).toNat = character.toNat := toNat_ofNat_small (by omega)

theorem boundary_behind (found : byteAt text index = some byte) (ascii : byte.toNat < 128) :
  OnBoundary text (index + 1) := (ascii_onBoundary found ascii).2

theorem boundary_behind_char (found : byteAt text index = some (byteOf character))
    (ascii : character.toNat < 128) : OnBoundary text (index + 1) :=
  boundary_behind found (by rw [byteOf_toNat ascii]; exact ascii)

theorem byteAt_of_suffix (found : suffixFrom text index = some (character :: rest))
    (ascii : character.toNat < 128) : byteAt text index = some (byteOf character) := by
  have here := utf8Bytes_suffix found 0
  rw [Nat.add_zero, utf8Bytes_cons] at here
  rcases utf8EncodeChar_cases character with ⟨_, encoded⟩ | ⟨high, _⟩
  · rw [encoded] at here
    exact here
  · omega

theorem byteAt_of_head (found : suffixFrom text index = some rest)
    (head : rest.head? = some character) (ascii : character.toNat < 128) :
    byteAt text index = some (byteOf character) := by
  obtain ⟨more, rfl⟩ := List.head?_eq_some_iff.mp head
  exact byteAt_of_suffix found ascii

theorem character_of_byteAt {expected : Char} (found : suffixFrom text index = some (character :: rest))
    (byte : byteAt text index = some (byteOf expected)) (ascii : expected.toNat < 128) : character = expected := by
  obtain ⟨_, _, suffix, value, _⟩ := ascii_suffix byte (by rw [byteOf_toNat ascii]; exact ascii)
  obtain ⟨rfl, _⟩ := List.cons.inj (Option.some.inj (found.symm.trans suffix))
  rw [byteOf_toNat ascii] at value
  exact Char.toNat_inj.mp value

/-- The two characters at two ASCII bytes. -/
theorem pair_of_byteAt {first second : Char} (found : suffixFrom text index = some rest)
    (byte : byteAt text index = some (byteOf first)) (byte' : byteAt text (index + 1) = some (byteOf second))
    (ascii : first.toNat < 128) (ascii' : second.toNat < 128) :
    ∃ more, rest = first :: second :: more ∧ suffixFrom text (index + 2) = some more := by
  have one : ∀ {c : Char}, c.toNat < 128 → ∀ {at_}, byteAt text at_ = some (byteOf c) →
      ∃ more, suffixFrom text at_ = some (c :: more) ∧ suffixFrom text (at_ + 1) = some more := by
    intro c small at_ here
    obtain ⟨character, more, suffix, _, width⟩ := ascii_suffix here (by rw [byteOf_toNat small]; exact small)
    obtain rfl := character_of_byteAt suffix here small
    exact ⟨more, suffix, width ▸ onBoundary_behind suffix⟩
  obtain ⟨more, suffix, behind⟩ := one ascii byte
  obtain ⟨others, suffix', behind'⟩ := one ascii' byte'
  obtain rfl := Option.some.inj (found.symm.trans suffix)
  obtain rfl := Option.some.inj (behind.symm.trans suffix')
  exact ⟨others, rfl, behind'⟩

theorem index_lt (found : byteAt text index = some byte) : index < textLen text := by
  obtain ⟨bound, _⟩ := List.getElem_of_getElem? found
  rwa [length_utf8Bytes] at bound

theorem byteAt_none_iff : byteAt text index = none ↔ textLen text ≤ index := by
  rw [byteAt, List.getElem?_eq_none_iff, length_utf8Bytes]
  rfl

theorem characterLenAt_eq (boundary : OnBoundary text index) (found : byteAt text index = some byte) :
    ∃ len, characterLenAt text index = some len ∧ 0 < len ∧ OnBoundary text (index + len) := by
  obtain ⟨rest, suffix⟩ := onBoundary_iff.mp boundary
  cases rest with
  | nil =>
    have := suffixFrom_length suffix
    have := index_lt found
    rw [utf8Len_nil] at *
    unfold textLen at this
    omega
  | cons character rest =>
    refine ⟨character.utf8Size, by rw [characterLenAt, suffix]; rfl, character.utf8Size_pos, ?_⟩
    exact onBoundary_iff.mpr ⟨rest, onBoundary_behind suffix⟩

theorem firstCharacter_eq (boundary : OnBoundary text index) :
    ∃ character, firstCharacter text index = some character := by
  obtain ⟨rest, suffix⟩ := onBoundary_iff.mp boundary
  exact ⟨rest.head?, by rw [firstCharacter, suffix]; rfl⟩

/-! ## 2. Trivia -/

/-- From an index on, the ranges abut up to another index, and each ends on a boundary. -/
def Tiles (text : List Char) : Nat → List TextRange → Nat → Prop
  | start, [], finish => start = finish
  | start, range :: ranges, finish =>
    range.start = start ∧ start ≤ range.end ∧ OnBoundary text range.end ∧ Tiles text range.end ranges finish

variable {finish : Nat}

theorem tiles_append {start : Nat} {front back : List TextRange} :
    Tiles text start (front ++ back) finish ↔ ∃ middle, Tiles text start front middle ∧ Tiles text middle back finish := by
  induction front generalizing start with
  | nil => exact ⟨fun tiles => ⟨start, rfl, tiles⟩, fun ⟨_, rfl, tiles⟩ => tiles⟩
  | cons range front ih =>
    simp only [List.cons_append, Tiles, ih]
    constructor
    · rintro ⟨at_, le, boundary, middle, first, second⟩
      exact ⟨middle, ⟨at_, le, boundary, first⟩, second⟩
    · rintro ⟨middle, ⟨at_, le, boundary, first⟩, second⟩
      exact ⟨at_, le, boundary, middle, first, second⟩

theorem Tiles.le {ranges : List TextRange} (tiles : Tiles text start ranges finish) : start ≤ finish := by
  induction ranges generalizing start with
  | nil => exact Nat.le_of_eq tiles
  | cons range ranges ih => exact Nat.le_trans tiles.2.1 (ih tiles.2.2.2)

/-- A trivia item of its own width, from an index to a boundary. -/
def Spaces (text : List Char) (start : Nat) (item : TriviaItem) : Prop :=
  item.trivia.range.start = start ∧ start < item.trivia.range.end ∧ OnBoundary text item.trivia.range.end

theorem scanWhitespaceTrivia_spaces {position : TriviaPosition}
    (boundary : OnBoundary text start) (found : byteAt text start = some byte)
    (space : byte = byteOf ' ' ∨ byte = byteOf '\t' ∨ byte = byteOf '\n' ∨
      byte = byteOf '\r' ∧ byteAt text (start + 1) = some (byteOf '\n')) :
    ∃ item, scanWhitespaceTrivia text start position = some item ∧ Spaces text start item := by
  have ⟨index, contains, scanned, later, ends⟩ := @scanFrom_rule Bool (utf8Bytes text)
    (whitespaceTurn text position) (fun index _ => start ≤ index ∧ OnBoundary text index)
    (fun index _ => start < index ∧ OnBoundary text index) start false ⟨Nat.le_refl _, boundary⟩ ?_ ?_
  · exact ⟨_, by rw [scanWhitespaceTrivia, scanned]; rfl, rfl, later, ends⟩
  · intro index here contains at_ ⟨le, on⟩
    unfold whitespaceTurn
    by_cases blank : here = byteOf ' ' ∨ here = byteOf '\t'
    · rw [if_pos blank]
      refine .inl ⟨index + 1, contains, rfl, Nat.lt_succ_self _, by omega, ?_⟩
      rcases blank with rfl | rfl
      · exact boundary_behind_char at_ (by decide)
      · exact boundary_behind_char at_ (by decide)
    · rw [if_neg blank]
      by_cases newline : here = byteOf '\n'
      · subst newline
        have behind := boundary_behind_char at_ (by decide)
        by_cases trailing : position = .trailing
        · rw [if_pos trailing]
          exact .inr ⟨index + 1, true, rfl, by omega, behind⟩
        · rw [if_neg trailing]
          exact .inl ⟨index + 1, true, rfl, Nat.lt_succ_self _, by omega, behind⟩
      · rw [if_neg newline]
        by_cases crlf : here = byteOf '\r' ∧ byteAt text (index + 1) = some (byteOf '\n')
        · rw [if_pos crlf]
          have behind := boundary_behind_char crlf.2 (by decide)
          by_cases trailing : position = .trailing
          · rw [if_pos trailing]
            exact .inr ⟨index + 2, true, rfl, by omega, behind⟩
          · rw [if_neg trailing]
            exact .inl ⟨index + 2, true, rfl, by omega, by omega, behind⟩
        · rw [if_neg crlf]
          refine .inr ⟨index, contains, rfl, Nat.lt_of_le_of_ne le fun same => ?_, on⟩
          -- the first byte is white space
          subst same
          obtain rfl := Option.some.inj (found.symm.trans at_)
          exact (space.elim (fun h => blank (.inl h)) fun h => h.elim (fun h => blank (.inr h))
            fun h => h.elim newline crlf)
  · intro index _ none' ⟨le, on⟩
    refine ⟨Nat.lt_of_le_of_ne le fun same => ?_, on⟩
    subst same
    cases found.symm.trans none'

section

variable (boundary : OnBoundary text start) (second : byteAt text (start + 1) = some byte) (ascii : byte.toNat < 128)
include boundary second ascii

theorem scanLineCommentTrivia_spaces :
    ∃ item, scanLineCommentTrivia text start = some item ∧ Spaces text start item := by
  have behind := boundary_behind second ascii
  have ⟨index, _, scanned, later, ends⟩ := @scanFrom_rule Unit (utf8Bytes text) lineCommentTurn
    (fun index _ => start + 2 ≤ index ∧ index ≤ textLen text)
    (fun index _ => start < index ∧ OnBoundary text index) (start + 2) () ⟨Nat.le_refl _, behind.le⟩ ?_ ?_
  · obtain ⟨rest, suffix⟩ := onBoundary_iff.mp boundary
    exact ⟨_, by rw [scanLineCommentTrivia, scanned, startsWith, suffix]; rfl, rfl, later, ends⟩
  · intro index here _ at_ ⟨le, _⟩
    unfold lineCommentTurn
    by_cases newline : here = byteOf '\n' ∨ here = byteOf '\r'
    · rw [if_pos newline]
      refine .inr ⟨index, (), rfl, by omega, ?_⟩
      rcases newline with rfl | rfl
      · exact (ascii_onBoundary at_ (by decide)).1
      · exact (ascii_onBoundary at_ (by decide)).1
    · rw [if_neg newline]
      exact .inl ⟨index + 1, (), rfl, Nat.lt_succ_self _, by omega, index_lt at_⟩
  · intro index _ none' ⟨le, within⟩
    have past := byteAt_none_iff.mp none'
    obtain rfl : index = textLen text := by omega
    exact ⟨by omega, onBoundary_len text⟩

theorem scanBlockCommentTrivia_spaces :
    ∃ item, scanBlockCommentTrivia text start = some item ∧ Spaces text start item := by
  have ⟨index, _, scanned, later, ends⟩ := @scanFrom_rule (Nat × Bool) (utf8Bytes text) (blockCommentTurn text)
    (fun index _ => start < index ∧ OnBoundary text index)
    (fun index _ => start < index ∧ OnBoundary text index) (start + 2) (1, false)
    ⟨by omega, boundary_behind second ascii⟩ ?_ fun _ _ _ kept => kept
  · obtain ⟨rest, suffix⟩ := onBoundary_iff.mp boundary
    exact ⟨_, by rw [scanBlockCommentTrivia, scanned, startsWith, suffix]; rfl, rfl, later, ends⟩
  · intro index here state at_ ⟨later, on⟩
    unfold blockCommentTurn
    by_cases newline : here = byteOf '\n'
    · subst newline
      exact .inl ⟨_, _, rfl, by omega, by omega, boundary_behind_char at_ (by decide)⟩
    · rw [if_neg newline]
      by_cases crlf : here = byteOf '\r' ∧ byteAt text (index + 1) = some (byteOf '\n')
      · rw [if_pos crlf]
        exact .inl ⟨_, _, rfl, by omega, by omega, boundary_behind_char crlf.2 (by decide)⟩
      · rw [if_neg crlf]
        by_cases opens : here = byteOf '/' ∧ byteAt text (index + 1) = some (byteOf '*')
        · rw [if_pos opens]
          exact .inl ⟨_, _, rfl, by omega, by omega, boundary_behind_char opens.2 (by decide)⟩
        · rw [if_neg opens]
          by_cases closes : here = byteOf '*' ∧ byteAt text (index + 1) = some (byteOf '/')
          · rw [if_pos closes]
            have behind := boundary_behind_char closes.2 (by decide)
            by_cases last : state.1 - 1 = 0
            · rw [if_pos last]
              exact .inr ⟨_, _, rfl, by omega, behind⟩
            · rw [if_neg last]
              exact .inl ⟨_, _, rfl, by omega, by omega, behind⟩
          · rw [if_neg closes]
            obtain ⟨len, eq, pos, behind⟩ := characterLenAt_eq on at_
            rw [eq]
            exact .inl ⟨_, _, rfl, by omega, by omega, behind⟩

end

/-- **The trivia at a boundary** is none, or an item of its own width. -/
theorem scanTriviaAt_spec (boundary : OnBoundary text start) (position : TriviaPosition) :
    scanTriviaAt text start position = some none ∨
      ∃ item, scanTriviaAt text start position = some (some item) ∧ Spaces text start item := by
  unfold scanTriviaAt
  cases found : byteAt text start with
  | none => exact .inl rfl
  | some byte =>
    simp only
    by_cases blank : byte = byteOf ' ' ∨ byte = byteOf '\t' ∨ byte = byteOf '\n'
    · rw [if_pos blank]
      obtain ⟨item, scanned, spaces⟩ := @scanWhitespaceTrivia_spaces _ _ _ position boundary found
        (blank.elim .inl fun h => h.elim (fun h => .inr (.inl h)) fun h => .inr (.inr (.inl h)))
      exact .inr ⟨item, by rw [scanned]; rfl, spaces⟩
    · rw [if_neg blank]
      by_cases crlf : byte = byteOf '\r' ∧ byteAt text (start + 1) = some (byteOf '\n')
      · rw [if_pos crlf]
        obtain ⟨item, scanned, spaces⟩ := @scanWhitespaceTrivia_spaces _ _ _ position boundary found
          (.inr (.inr (.inr crlf)))
        exact .inr ⟨item, by rw [scanned]; rfl, spaces⟩
      · rw [if_neg crlf]
        by_cases line : byte = byteOf '/' ∧ byteAt text (start + 1) = some (byteOf '/')
        · rw [if_pos line]
          obtain ⟨item, scanned, spaces⟩ := scanLineCommentTrivia_spaces boundary line.2 (by decide)
          exact .inr ⟨item, by rw [scanned]; rfl, spaces⟩
        · rw [if_neg line]
          by_cases block : byte = byteOf '/' ∧ byteAt text (start + 1) = some (byteOf '*')
          · rw [if_pos block]
            obtain ⟨item, scanned, spaces⟩ := scanBlockCommentTrivia_spaces boundary block.2 (by decide)
            exact .inr ⟨item, by rw [scanned]; rfl, spaces⟩
          · rw [if_neg block]
            exact .inl rfl

/-- What scanning trivia from an index yields: items that abut up to a boundary. -/
structure Spaced (text : List Char) (start : Nat) (scan : TriviaScan) : Prop where
  tiles : Tiles text start (scan.trivia.map SyntaxTrivia.range) scan.end
  ends : OnBoundary text scan.end
  reached : scan.reachedEof = decide (scan.end = textLen text)

theorem Spaces.extends {trivia : List SyntaxTrivia} {item : TriviaItem} {origin : Nat}
    (tiles : Tiles text origin (trivia.map SyntaxTrivia.range) index) (spaces : Spaces text index item) :
    Tiles text origin ((trivia ++ [item.trivia]).map SyntaxTrivia.range) item.trivia.range.end := by
  rw [List.map_append, tiles_append]
  exact ⟨index, tiles, spaces.1, Nat.le_of_lt spaces.2.1, spaces.2.2, rfl⟩

theorem scanLeadingTrivia_spaced (boundary : OnBoundary text start) :
    ∃ scan, scanLeadingTrivia text start = some scan ∧ Spaced text start scan := by
  have ⟨cursor, trivia, scanned, tiles, ends⟩ := @scanFrom_rule (List SyntaxTrivia) (utf8Bytes text)
    (leadingTurn text)
    (fun index trivia => Tiles text start (trivia.map SyntaxTrivia.range) index ∧ OnBoundary text index)
    (fun index trivia => Tiles text start (trivia.map SyntaxTrivia.range) index ∧ OnBoundary text index)
    start [] ⟨rfl, boundary⟩ ?_ fun _ _ _ kept => kept
  · exact ⟨_, by rw [scanLeadingTrivia, scanned]; rfl, tiles, ends, rfl⟩
  · intro index here trivia _ ⟨tiles, on⟩
    unfold leadingTurn
    rcases scanTriviaAt_spec on .leading with scanned | ⟨item, scanned, spaces⟩
    · rw [scanned]
      exact .inr ⟨_, _, rfl, tiles, on⟩
    · rw [scanned]
      exact .inl ⟨_, _, rfl, spaces.2.1, spaces.extends tiles, spaces.2.2⟩

theorem scanTrailingTrivia_spaced (boundary : OnBoundary text start) :
    ∃ scan, scanTrailingTrivia text start = some scan ∧ Spaced text start scan := by
  have ⟨cursor, trivia, scanned, tiles, ends⟩ := @scanFrom_rule (List SyntaxTrivia) (utf8Bytes text)
    (trailingTurn text)
    (fun index trivia => Tiles text start (trivia.map SyntaxTrivia.range) index ∧ OnBoundary text index)
    (fun index trivia => Tiles text start (trivia.map SyntaxTrivia.range) index ∧ OnBoundary text index)
    start [] ⟨rfl, boundary⟩ ?_ fun _ _ _ kept => kept
  · exact ⟨_, by rw [scanTrailingTrivia, scanned]; rfl, tiles, ends, rfl⟩
  · intro index here trivia _ ⟨tiles, on⟩
    unfold trailingTurn
    rcases scanTriviaAt_spec on .trailing with scanned | ⟨item, scanned, spaces⟩
    · rw [scanned]
      exact .inr ⟨_, _, rfl, tiles, on⟩
    · rw [scanned]
      by_cases breaks : item.containsLineBreak = true
      · exact .inr ⟨_, _, by simp only [Option.map_some, if_pos breaks], spaces.extends tiles, spaces.2.2⟩
      · exact .inl ⟨_, _, by simp only [Option.map_some, if_neg breaks], spaces.2.1, spaces.extends tiles,
        spaces.2.2⟩

end Bray.Lexer
