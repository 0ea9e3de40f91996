/-
  File:      Bray/Guarantee/Standard.lean
  Subject:   THE LAWS HAVE A MODEL: constants that compare as constant folding compares them.

  A datum is a constant under a number of present branches. Integers, characters, strings and the
  reals of one format are ordered as they are folded, a NaN has no place, and any two other
  constants are either the same or not in order. The atoms are free.
-/
import Bray.Guarantee.Meaning

namespace Bray.Guarantee

open Bray.Lib Option Unordered

/-! ## 1. Places -/

/-- The place of a value: `presents` counts the present branches it is under. -/
inductive Rank where
  | truth (value : Bool)
  | integer (value : Int)
  | character (value : Char)
  | string (value : String)
  | real (place : Nat × Int)
  | complex (real imaginary : Nat × Int)
  | other (kind : ConstantValueKind) (presents : Nat)

namespace Rank

inductive Le : Rank → Rank → Prop where
  | refl (a : Rank) : Le a a
  | integer {i j : Int} (h : i ≤ j) : Le (.integer i) (.integer j)
  | character {c d : Char} (h : c ≤ d) : Le (.character c) (.character d)
  | string {s t : String} (h : s ≤ t) : Le (.string s) (.string t)
  | real {p q : Nat × Int} (h : p ≤ q) : Le (.real p) (.real q)

instance : PartialOrder Rank where
  le := Le
  le_refl := Le.refl
  le_trans := by
    intro a b c hab hbc
    cases hab with
    | refl => exact hbc
    | integer h => cases hbc with
      | refl => exact .integer h
      | integer h' => exact .integer (h.trans h')
    | character h => cases hbc with
      | refl => exact .character h
      | character h' => exact .character (h.trans h')
    | string h => cases hbc with
      | refl => exact .string h
      | string h' => exact .string (h.trans h')
    | real h => cases hbc with
      | refl => exact .real h
      | real h' => exact .real (h.trans h')
  le_antisymm := by
    intro a b hab hba
    cases hab with
    | refl => rfl
    | integer h => cases hba with
      | refl => rfl
      | integer h' => rw [h.antisymm h']
    | character h => cases hba with
      | refl => rfl
      | character h' => rw [h.antisymm h']
    | string h => cases hba with
      | refl => rfl
      | string h' => rw [h.antisymm h']
    | real h => cases hba with
      | refl => rfl
      | real h' => rw [h.antisymm h']

theorem integer_le {i j : Int} : Rank.integer i ≤ .integer j ↔ i ≤ j := by
  constructor
  · intro h
    cases h with
    | refl => exact le_rfl
    | integer h => exact h
  · exact Le.integer

theorem character_le {c d : Char} : Rank.character c ≤ .character d ↔ c ≤ d := by
  constructor
  · intro h
    cases h with
    | refl => exact le_rfl
    | character h => exact h
  · exact Le.character

theorem string_le {s t : String} : Rank.string s ≤ .string t ↔ s ≤ t := by
  constructor
  · intro h
    cases h with
    | refl => exact le_rfl
    | string h => exact h
  · exact Le.string

/-- Within one format the reals are ordered as their keys are. -/
theorem real_le {format : Nat} {i j : Int} : Rank.real (format, i) ≤ .real (format, j) ↔ i ≤ j := by
  constructor
  · intro h
    cases h with
    | refl => exact le_rfl
    | real h => exact h.2
  · intro h
    exact Le.real ⟨le_rfl, h⟩

end Rank

/-- The place of a real, nothing for a NaN. -/
def RealConstantBits.place (bits : RealConstantBits) : Option (Nat × Int) :=
  bits.key.2.map (bits.key.1, ·)

def ConstantValueKind.rank : ConstantValueKind → Option Rank
  | .boolean value => some (.truth value)
  | .integer value => some (.integer value)
  | .character value => some (.character value)
  | .string value => some (.string value)
  | .real value => value.place.map .real
  | .complex re im => re.place.bind fun r => im.place.map fun i => .complex r i
  | kind => some (.other kind 0)

/-! ## 2. Folding compares places -/

variable {operator : BoundOperator} {value : Bool}

/-- Folding a comparison in a linear order compares the places, when these are in that order. -/
theorem foldOrdered_holds {α : Type} [LinearOrder α] (place : α → Rank)
    (hp : ∀ a b, place a ≤ place b ↔ a ≤ b) {a b : α} (h : foldOrdered operator a b = some value) :
    value = true ↔ Holds operator (some (place a)) (some (place b)) := by
  have heq : place a = place b ↔ a = b := by
    rw [le_antisymm_iff, hp, hp, ← le_antisymm_iff]
  have hlt : ∀ a b, place a < place b ↔ a < b := by
    intro a b
    rw [lt_iff_le_not_ge, hp, hp, ← lt_iff_le_not_ge]
  cases operator with
  | equal =>
    obtain rfl := Option.some.inj h
    simp [Holds, same_some, heq, decide_eq_true_eq]
  | notEqual =>
    obtain rfl := Option.some.inj h
    simp [Holds, same_some, heq]
  | less | greater =>
    obtain rfl := Option.some.inj h
    simp only [Holds, lt_some, hlt, decide_eq_true_eq]
  | lessEqual | greaterEqual =>
    obtain rfl := Option.some.inj h
    simp only [Holds, le_some, hp, decide_eq_true_eq]
  | _ => cases h

/-- Nothing but an inequality holds of a value without a place. -/
theorem holds_unordered {κ : Type} [PartialOrder κ] {a b : Option κ}
    (h : a = none ∨ b = none) : Holds operator a b ↔ operator = .notEqual := by
  have hs : ¬ Same a b := by
    rintro ⟨k, ha, hb⟩
    rcases h with rfl | rfl
    · cases ha
    · cases hb
  have hle : ¬ Le a b := by
    rintro ⟨k, l, ha, hb, _⟩
    rcases h with rfl | rfl
    · cases ha
    · cases hb
  have hge : ¬ Le b a := by
    rintro ⟨k, l, hb, ha, _⟩
    rcases h with rfl | rfl
    · cases ha
    · cases hb
  cases operator with
  | equal => exact iff_of_false hs (by decide)
  | notEqual => exact iff_of_true hs rfl
  | less => exact iff_of_false (fun hlt => hle (Lt.le hlt)) (by decide)
  | lessEqual => exact iff_of_false hle (by decide)
  | greater => exact iff_of_false (fun hlt => hge (Lt.le hlt)) (by decide)
  | greaterEqual => exact iff_of_false hge (by decide)
  | _ => exact iff_of_false id (by decide)

theorem foldRealBinary_holds {left right : RealConstantBits} (h : foldRealBinary operator left right = some value) :
    value = true ↔ Holds operator (left.place.map Rank.real) (right.place.map Rank.real) := by
  unfold foldRealBinary at h
  split at h
  · rename_i hformat
    split at h
    · rename_i i j hl hr
      simp only [RealConstantBits.place, hl, hr, ← hformat, map_some]
      exact foldOrdered_holds (fun k => Rank.real (left.key.1, k)) (fun i j => Rank.real_le) h
    · rename_i hn
      have hnone : left.place.map Rank.real = none ∨ right.place.map Rank.real = none := by
        simp only [RealConstantBits.place, map_eq_none_iff]
        cases hl : left.key.2 with
        | none => exact .inl rfl
        | some i => cases hr : right.key.2 with
          | none => exact .inr rfl
          | some j => exact absurd hr (hn i j hl)
      rw [holds_unordered hnone]
      cases operator <;> simp_all
  · cases h

theorem same_real {left right : RealConstantBits} (h : foldRealBinary .equal left right = some value) :
    value = true ↔ Same left.place right.place := by
  rw [foldRealBinary_holds h]
  simp only [Holds]
  cases left.place with
  | none => exact iff_of_false (by simp [Same]) (by simp [Same])
  | some p => cases right.place with
    | none => exact iff_of_false (by simp [Same]) (by simp [Same])
    | some q => simp [same_some]

/-- Two complex numbers have the same place when both parts do. -/
theorem same_complex {leftReal leftImaginary rightReal rightImaginary : RealConstantBits} :
    Same (ConstantValueKind.complex leftReal leftImaginary).rank
      (ConstantValueKind.complex rightReal rightImaginary).rank ↔ Same leftReal.place rightReal.place ∧
        Same leftImaginary.place rightImaginary.place := by
  simp only [ConstantValueKind.rank, Same, bind_eq_some_iff, map_eq_some_iff]
  constructor
  · rintro ⟨_, ⟨r, hr, i, hi, rfl⟩, r', hr', i', hi', e⟩
    obtain ⟨rfl, rfl⟩ : r' = r ∧ i' = i := by simpa using e
    exact ⟨⟨r', hr, hr'⟩, ⟨i', hi, hi'⟩⟩
  · rintro ⟨⟨r, hr, hr'⟩, ⟨i, hi, hi'⟩⟩
    exact ⟨_, ⟨r, hr, i, hi, rfl⟩, r, hr', i, hi', rfl⟩

theorem foldComplexBinary_holds {leftReal leftImaginary rightReal rightImaginary : RealConstantBits}
    (h : foldComplexBinary operator leftReal leftImaginary rightReal rightImaginary = some value) :
    value = true ↔ Holds operator (ConstantValueKind.complex leftReal leftImaginary).rank
      (ConstantValueKind.complex rightReal rightImaginary).rank := by
  have equal : ∀ value, ((foldRealBinary .equal leftReal rightReal).bind fun real =>
    if real then foldRealBinary .equal leftImaginary rightImaginary else some false) = some value →
    (value = true ↔ Same (ConstantValueKind.complex leftReal leftImaginary).rank
      (ConstantValueKind.complex rightReal rightImaginary).rank) := by
    intro value h
    obtain ⟨real, hr, h⟩ := bind_eq_some_iff.mp h
    rw [same_complex, ← same_real hr]
    cases real with
    | true => simpa using same_real h
    | false => simpa using h
  cases operator with
  | equal => exact equal value h
  | notEqual =>
    obtain ⟨w, hw, rfl⟩ := map_eq_some_iff.mp h
    rw [Holds, ← equal w hw, Bool.not_eq_true', Bool.not_eq_true]
  | _ => cases h

variable {left right : ConstantValueKind}

/-- Two constants of different shapes, or of a shape without an order, have the same place only
  when they are the same. -/
theorem same_rank (hreal : ∀ a b, left = .real a → right = .real b → False)
    (hcomplex : ∀ a b c d, left = .complex a b → right = .complex c d → False) :
    Same left.rank right.rank ↔ left = right := by
  cases left <;> cases right
  all_goals first
    | exact absurd rfl fun e => hreal _ _ e rfl
    | exact absurd rfl fun e => hcomplex _ _ _ _ e rfl
    | (simp [ConstantValueKind.rank, same_some]; done)
    | simp [ConstantValueKind.rank, Same, bind_eq_some_iff]

/-- The equality of such constants is folded as it is. -/
theorem equality_holds (hs : Same left.rank right.rank ↔ left = right) (h : (match operator with
  | .equal => some (left == right) | .notEqual => some (left != right) | _ => none) = some value) :
  value = true ↔ Holds operator left.rank right.rank := by
  split at h
  · obtain rfl := Option.some.inj h
    rw [Holds, hs, beq_iff_eq]
  · obtain rfl := Option.some.inj h
    rw [Holds, hs, bne_iff_ne]
  · cases h

/-- **Folding compares places.** -/
theorem foldBinary_holds (h : foldBinary operator left right = some value) :
    value = true ↔ Holds operator left.rank right.rank := by
  unfold foldBinary at h
  split at h
  · exact foldOrdered_holds Rank.integer (fun _ _ => Rank.integer_le) h
  · rename_i left right
    refine equality_holds (same_rank (by simp) (by simp)) ?_
    have e : (ConstantValueKind.boolean left == .boolean right) = (left == right) := by
      simp [BEq.beq]
    cases operator with
    | equal => exact e ▸ h
    | notEqual => simpa only [bne, e] using h
    | _ => cases h
  · exact foldOrdered_holds Rank.character (fun _ _ => Rank.character_le) h
  · exact foldOrdered_holds Rank.string (fun _ _ => Rank.string_le) h
  · exact foldRealBinary_holds h
  · exact foldComplexBinary_holds h
  · rename_i hreal hcomplex
    exact equality_holds (same_rank hreal hcomplex) h

theorem foldRealBinary_of_same {left right : RealConstantBits} (same : Same left.place right.place) :
    foldRealBinary .equal left right = some true := by
  obtain ⟨place, first, second⟩ := same
  obtain ⟨i, hi, first⟩ := map_eq_some_iff.mp first
  obtain ⟨j, hj, second⟩ := map_eq_some_iff.mp second
  rw [← second] at first
  obtain ⟨format, rfl⟩ := Prod.mk.inj first
  simp [foldRealBinary, format, hi, hj, foldOrdered]

theorem foldBinary_of_same (same : Same left.rank right.rank) :
    foldBinary .equal left right = some true := by
  unfold foldBinary
  split
  · obtain ⟨place, first, second⟩ := same
    cases first
    cases second
    simp [foldOrdered]
  · obtain ⟨place, first, second⟩ := same
    cases first
    cases second
    simp
  · obtain ⟨place, first, second⟩ := same
    cases first
    cases second
    simp [foldOrdered]
  · obtain ⟨place, first, second⟩ := same
    cases first
    cases second
    simp [foldOrdered]
  · next left right =>
    refine foldRealBinary_of_same ?_
    obtain ⟨place, first, second⟩ := same
    obtain ⟨i, hi, first⟩ := map_eq_some_iff.mp first
    obtain ⟨j, hj, second⟩ := map_eq_some_iff.mp second
    rw [← second] at first
    cases first
    exact ⟨_, hi, hj⟩
  · obtain ⟨real, imaginary⟩ := same_complex.mp same
    simp [foldComplexBinary, foldRealBinary_of_same real, foldRealBinary_of_same imaginary]
  · next _ _ _ _ hreal hcomplex =>
    have eq := (same_rank hreal hcomplex).mp same
    simp [eq]

/-! ## 3. The interpretation -/

/-- The place of a value, a datum being a constant under a number of present branches. -/
def standardRank : Value (ConstantValueKind × Nat) → Option Rank
  | .bool value => some (.truth value)
  | .datum (kind, 0) => kind.rank
  | .datum (kind, presents + 1) => some (.other kind (presents + 1))

/-- A Boolean literal is the truth value. -/
def standardLiteral (value : ConstantValueData) : Value (ConstantValueKind × Nat) :=
  match value.kind with
  | .boolean value => .bool value
  | kind => .datum (kind, 0)

theorem standardRank_literal (value : ConstantValueData) :
    standardRank (standardLiteral value) = value.kind.rank := by
  unfold standardLiteral
  split
  · rename_i e
    rw [e]
    rfl
  · rfl

/-- **The standard interpretation** over given values of the atoms: wrappers are transparent, and
  so are borrows and the payload of a nullable snapshot. -/
def standard (atom : ExecutionCondition → Option (Value (ConstantValueKind × Nat))) :
  Interpretation where
  Datum := ConstantValueKind × Nat
  Key := Rank
  order := inferInstance
  rank := standardRank
  literal := standardLiteral
  variantOf
    | .datum (.union tag _, 0) => some tag
    | _ => none
  present
    | .bool value => .datum (.boolean value, 1)
    | .datum (kind, presents) => .datum (kind, presents + 1)
  borrowed := id
  updated := fun _ => id
  trusted := fun _ => id
  atom := atom
  bool_rank := fun _ => rfl
  bool_ne := by simp [standardRank]
  literal_fold := by
    intro operator left right value h
    rw [standardRank_literal, standardRank_literal]
    exact foldBinary_holds h
  present_absent := by
    rintro v absent ha
    rw [standardRank_literal, ha]
    cases v with
    | bool value => simp [Holds, standardRank, ConstantValueKind.rank, same_some]
    | datum d => simp [Holds, standardRank, ConstantValueKind.rank, same_some]
  borrowed_absent := fun _ _ _ => Iff.rfl
  updated_absent := fun _ _ _ _ => Iff.rfl

end Bray.Guarantee
