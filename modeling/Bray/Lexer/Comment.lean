/-
  File:      Bray/Lexer/Comment.lean
  Subject:   WHERE A BLOCK COMMENT ENDS (`scan_block_comment_trivia`, lexer/trivia.rs).

  Read from left to right without overlap, a text is a row of openers, closers and other characters
  (`pieces`).

  * **`block_comments_nest`** -- a comment ends behind the first piece with which as many closers as
    openers were read, and is reported as unterminated exactly where there is no such piece.
-/
import Bray.Lexer.Sound

namespace Bray.Lexer

open Lib

/-! ## 1. The pieces of a text -/

inductive Piece where
  | opener
  | closer
  | other (character : Char)

def Piece.width : Piece → Nat
  | .opener | .closer => 2
  | .other character => character.utf8Size

/-- How many comments more are open behind a piece. -/
def Piece.nesting : Piece → Int
  | .opener => 1
  | .closer => -1
  | .other _ => 0

def pieces : List Char → List Piece
  | '/' :: '*' :: rest => .opener :: pieces rest
  | '*' :: '/' :: rest => .closer :: pieces rest
  | character :: rest => .other character :: pieces rest
  | [] => []

def widthOf (row : List Piece) : Nat := (row.map Piece.width).sum

def nestingOf (row : List Piece) : Int := (row.map Piece.nesting).sum

/-- The openers and closers among the first pieces balance, and among no fewer of them. -/
structure ClosesAfter (row : List Piece) (count : Nat) : Prop where
  some_ : 0 < count
  within : count ≤ row.length
  balanced : nestingOf (row.take count) = 0
  first : ∀ fewer, 0 < fewer → fewer < count → nestingOf (row.take fewer) ≠ 0

theorem ClosesAfter.unique {row : List Piece} {count other : Nat} (closes : ClosesAfter row count)
    (closes' : ClosesAfter row other) : count = other := by
  rcases Nat.lt_trichotomy count other with less | same | more
  · exact absurd closes.balanced (closes'.first count closes.some_ less)
  · exact same
  · exact absurd closes'.balanced (closes.first other closes'.some_ more)

theorem pieces_other {character : Char} {rest : List Char} (opens : ¬ (character = '/' ∧ rest.head? = some '*'))
    (closes : ¬ (character = '*' ∧ rest.head? = some '/')) :
    pieces (character :: rest) = .other character :: pieces rest := by
  refine pieces.eq_3 character rest (fun more first eq => opens ⟨first, ?_⟩) fun more first eq => closes ⟨first, ?_⟩
  · rw [eq]; rfl
  · rw [eq]; rfl

/-! ## 2. The scanner reads the pieces -/

variable (text : List Char)

/-- What is reported for a comment: the depth that is left at the end, where it is not zero. -/
def unterminatedBlockComment (start : Nat) : Option (Option (TextRange × Nat)) := do
  let (index, depth, _) ← scanFrom (utf8Bytes text) (blockCommentTurn text) (start + 2) (1, false)
  some (if depth = 0 then none else some (⟨start, index⟩, depth))

/-- The scanner has read the first pieces of a row and left comments open after each. -/
structure Reads (row : List Piece) (start : Nat) (front : List Piece) (back : List Char) (index depth : Nat) :
  Prop where
  row : row = front ++ pieces back
  at_ : suffixFrom text index = some back
  index : index = start + widthOf front
  depth : nestingOf front = depth
  inside : ∀ count, 0 < count → count ≤ front.length → nestingOf (front.take count) ≠ 0

variable {text} {row front : List Piece} {back rest : List Char} {start index depth : Nat} {piece : Piece}

theorem Reads.step {depth' : Nat} (reads : Reads text row start front back index depth)
    (next : pieces back = piece :: pieces rest) (behind : suffixFrom text (index + piece.width) = some rest)
    (open_ : (depth : Int) + piece.nesting = depth') (inside : 0 < depth') :
    Reads text row start (front ++ [piece]) rest (index + piece.width) depth' := by
  have nesting : nestingOf (front ++ [piece]) = depth' := by
    rw [← open_, ← reads.depth]
    simp [nestingOf]
  refine ⟨by rw [reads.row, next]; simp, behind, by rw [reads.index]; simp [widthOf, Nat.add_assoc], nesting, ?_⟩
  intro count pos le
  by_cases before : count ≤ front.length
  · rw [List.take_append_of_le_length before]
    exact reads.inside count pos before
  · rw [List.take_of_length_le (by rw [List.length_append]; exact Nat.lt_of_not_le before), nesting]
    omega

theorem Reads.closes (reads : Reads text row start front back index depth)
    (next : pieces back = piece :: pieces rest) (closed : (depth : Int) + piece.nesting = 0) :
    ClosesAfter row (front.length + 1) ∧ index + piece.width = start + widthOf (row.take (front.length + 1)) := by
  have first : row.take (front.length + 1) = front ++ [piece] := by
    rw [reads.row, next, List.take_length_add_append]
    rfl
  refine ⟨⟨Nat.succ_pos _, by rw [reads.row, next]; simp, ?_, fun fewer pos less => ?_⟩, ?_⟩
  · rw [first, ← closed, ← reads.depth]
    simp [nestingOf]
  · rw [reads.row, List.take_append_of_le_length (by omega)]
    exact reads.inside fewer pos (by omega)
  · rw [first, reads.index]
    simp [widthOf, Nat.add_assoc]

theorem Reads.ends (reads : Reads text row start front [] index depth) : ¬ ∃ count, ClosesAfter row count := by
  obtain rfl : row = front := by rw [reads.row]; simp [pieces]
  intro ⟨count, closes⟩
  exact reads.inside count closes.some_ closes.within closes.balanced

/-- How the loop over a comment ends. -/
def Ended (text : List Char) (row : List Piece) (start index depth : Nat) : Prop :=
  (depth = 0 ∧ ∃ count, ClosesAfter row count ∧ index = start + widthOf (row.take count)) ∨
    depth ≠ 0 ∧ (¬ ∃ count, ClosesAfter row count) ∧ index = textLen text

theorem blockCommentTurn_reads {byte : UInt8} {state : Nat × Bool} (found : byteAt text index = some byte)
    (reads : Reads text row start front back index state.1) (inside : 0 < state.1) :
    (∃ index' state', blockCommentTurn text index byte state = some (.next index' state') ∧ index < index' ∧
      0 < state'.1 ∧ ∃ front back, Reads text row start front back index' state'.1) ∨
    ∃ index' state', blockCommentTurn text index byte state = some (.stop index' state') ∧
      Ended text row start index' state'.1 := by
  obtain ⟨depth, breaks⟩ := state
  have more : back ≠ [] := by
    rintro rfl
    have := suffixFrom_length reads.at_
    have := index_lt found
    simp only [utf8Len_nil, textLen] at *
    omega
  obtain ⟨character, tail, rfl⟩ := List.exists_cons_of_ne_nil more
  have behind := onBoundary_behind reads.at_
  have other : pieces (character :: tail) = .other character :: pieces tail →
      Reads text row start (front ++ [.other character]) tail (index + character.utf8Size) depth :=
    fun next => reads.step next behind (by simp [Piece.nesting]) inside
  unfold blockCommentTurn
  by_cases newline : byte = byteOf '\n'
  · subst newline
    obtain rfl := character_of_byteAt reads.at_ found (by decide)
    exact .inl ⟨_, _, rfl, Nat.lt_succ_self _, inside, _, _, other (pieces_other (by simp) (by simp))⟩
  · rw [if_neg newline]
    by_cases crlf : byte = byteOf '\r' ∧ byteAt text (index + 1) = some (byteOf '\n')
    · rw [if_pos crlf]
      obtain ⟨rfl, second⟩ := crlf
      obtain ⟨rest, eq, behind'⟩ := pair_of_byteAt reads.at_ found second (by decide) (by decide)
      obtain ⟨rfl, rfl⟩ := List.cons.inj eq
      have first := other (pieces_other (by simp) (by simp))
      exact .inl ⟨_, _, rfl, by omega, inside, _, _,
        first.step (pieces_other (by simp) (by simp)) behind' (by simp [Piece.nesting]) inside⟩
    · rw [if_neg crlf]
      by_cases opens : byte = byteOf '/' ∧ byteAt text (index + 1) = some (byteOf '*')
      · rw [if_pos opens]
        obtain ⟨rfl, second⟩ := opens
        obtain ⟨rest, eq, behind⟩ := pair_of_byteAt reads.at_ found second (by decide) (by decide)
        have next : pieces (character :: tail) = .opener :: pieces rest := by rw [eq, pieces]
        exact .inl ⟨_, _, rfl, by omega, Nat.succ_pos _, _, _, reads.step next behind rfl (Nat.succ_pos _)⟩
      · rw [if_neg opens]
        by_cases closes : byte = byteOf '*' ∧ byteAt text (index + 1) = some (byteOf '/')
        · rw [if_pos closes]
          obtain ⟨rfl, second⟩ := closes
          obtain ⟨rest, eq, behind⟩ := pair_of_byteAt reads.at_ found second (by decide) (by decide)
          have next : pieces (character :: tail) = .closer :: pieces rest := by rw [eq, pieces]
          by_cases last : depth - 1 = 0
          · obtain rfl : depth = 1 := by omega
            exact .inr ⟨_, _, rfl, .inl ⟨rfl, _, reads.closes next rfl⟩⟩
          · rw [if_neg last]
            exact .inl ⟨_, _, rfl, by omega, by simp only; omega, _, _,
              reads.step next behind (by simp only [Piece.nesting]; omega) (by simp only; omega)⟩
        · rw [if_neg closes, characterLenAt, reads.at_]
          refine .inl ⟨_, _, rfl, Nat.lt_add_of_pos_right character.utf8Size_pos, inside, _, _, other ?_⟩
          -- two characters make an opener or a closer exactly where their bytes do
          have two : ∀ first second : Char, first.toNat < 128 → second.toNat < 128 → first.utf8Size = 1 →
              character = first ∧ tail.head? = some second →
              byte = byteOf first ∧ byteAt text (index + 1) = some (byteOf second) := by
            rintro first second ascii ascii' width ⟨rfl, head⟩
            refine ⟨Option.some.inj (found.symm.trans (byteAt_of_suffix reads.at_ ascii)), ?_⟩
            exact byteAt_of_head (width ▸ behind) head ascii'
          exact pieces_other (fun at_ => opens (two _ _ (by decide) (by decide) rfl at_))
            fun at_ => closes (two _ _ (by decide) (by decide) rfl at_)

theorem scanBlockComment_ended (opened : suffixFrom text start = some ('/' :: '*' :: rest)) :
    ∃ index depth breaks, scanFrom (utf8Bytes text) (blockCommentTurn text) (start + 2) (1, false) =
      some (index, depth, breaks) ∧ Ended text (pieces ('/' :: '*' :: rest)) start index depth := by
  have origin : Reads text (pieces ('/' :: '*' :: rest)) start [] ('/' :: '*' :: rest) start 0 :=
    ⟨rfl, opened, rfl, rfl, fun count pos le => absurd le (by simp; omega)⟩
  have behind : suffixFrom text (start + 2) = some rest := onBoundary_behind (onBoundary_behind opened)
  have entered := origin.step (pieces.eq_1 rest) behind rfl (by decide : 0 < 1)
  have ⟨index, ⟨depth, breaks⟩, scanned, ended⟩ := @scanFrom_rule (Nat × Bool) (utf8Bytes text)
    (blockCommentTurn text) (fun index state => 0 < state.1 ∧
      ∃ front back, Reads text (pieces ('/' :: '*' :: rest)) start front back index state.1)
    (fun index state => Ended text (pieces ('/' :: '*' :: rest)) start index state.1) (start + 2) (1, false)
    ⟨by decide, _, _, entered⟩ ?_ ?_
  · exact ⟨index, depth, breaks, scanned, ended⟩
  · intro index byte state found ⟨inside, front, back, reads⟩
    exact blockCommentTurn_reads found reads inside
  · intro index state none' ⟨inside, front, back, reads⟩
    obtain ⟨rfl, end_⟩ := suffixFrom_end reads.at_ none'
    exact .inr ⟨by omega, reads.ends, end_⟩

theorem scanTriviaAt_comment (opened : suffixFrom text start = some ('/' :: '*' :: rest)) (position : TriviaPosition) :
    scanTriviaAt text start position = (scanBlockCommentTrivia text start).map some := by
  have second : byteAt text (start + 1) = some (byteOf '*') :=
    byteAt_of_suffix (onBoundary_behind opened) (by decide)
  rw [scanTriviaAt, byteAt_of_suffix opened (by decide)]
  simp only [second]
  rw [if_neg (by decide), if_neg (by decide), if_neg (by decide), if_pos (by decide)]

/-- **A BLOCK COMMENT ENDS WHERE ITS OPENERS AND CLOSERS FIRST BALANCE**, and it is reported as
unterminated, up to the end of the text, exactly where they balance nowhere. -/
theorem block_comments_nest (front rest : List Char) (position : TriviaPosition) :
    ∃ item report, scanTriviaAt (front ++ '/' :: '*' :: rest) (utf8Len front) position = some (some item) ∧
      unterminatedBlockComment (front ++ '/' :: '*' :: rest) (utf8Len front) = some report ∧
      item.trivia.range.start = utf8Len front ∧
      (∀ count, ClosesAfter (pieces ('/' :: '*' :: rest)) count →
        item.trivia.range.end = utf8Len front + widthOf ((pieces ('/' :: '*' :: rest)).take count)) ∧
      (report.isSome = true ↔ ¬ ∃ count, ClosesAfter (pieces ('/' :: '*' :: rest)) count) ∧
      ∀ range depth, report = some (range, depth) →
        0 < depth ∧ range = item.trivia.range ∧ range.end = textLen (front ++ '/' :: '*' :: rest) := by
  have opened : suffixFrom (front ++ '/' :: '*' :: rest) (utf8Len front) = some ('/' :: '*' :: rest) :=
    suffixFrom_eq_some.mpr ⟨front, rfl, rfl⟩
  obtain ⟨index, depth, breaks, scanned, ended⟩ := scanBlockComment_ended opened
  refine ⟨_, _, by rw [scanTriviaAt_comment opened, scanBlockCommentTrivia, scanned, startsWith, opened]; rfl,
    by rw [unterminatedBlockComment, scanned]; rfl, rfl, ?_, ?_, ?_⟩
  · intro count closes
    rcases ended with ⟨_, count', closes', at_⟩ | ⟨_, never, _⟩
    · rw [closes.unique closes']
      exact at_
    · exact absurd ⟨count, closes⟩ never
  · rcases ended with ⟨rfl, count, closes, _⟩ | ⟨left, never, _⟩
    · simp only [if_true, Option.isSome_none, Bool.false_eq_true, false_iff, not_not]
      exact ⟨count, closes⟩
    · simp [left, never]
  · intro range depth' reported
    rcases ended with ⟨rfl, _⟩ | ⟨left, _, end_⟩
    · cases reported
    · rw [if_neg left] at reported
      obtain ⟨rfl, rfl⟩ := Prod.mk.inj (Option.some.inj reported)
      exact ⟨Nat.pos_of_ne_zero left, rfl, end_⟩

end Bray.Lexer
