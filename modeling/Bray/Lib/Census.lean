/-
  File:      Bray/Lib/Census.lean
  Subject:   HOW MANY OF FINITELY MANY PARTIES ARE IN A GIVEN STATE. Nothing of this repository is
    named here.

  The number of parties is arbitrary. One party changes its state at a time, and the count follows
  (`census_update`): what a counter kept beside the parties has to do to stay equal to it.
-/
import Mathlib.Data.Fintype.Card

namespace Bray.Lib

open Finset

variable {ι α : Type} [Fintype ι] [DecidableEq ι]

/-- The number of parties whose state satisfies `p`. -/
def census (f : ι → α) (p : α → Prop) [DecidablePred p] : Nat :=
  (Finset.univ.filter fun i => p (f i)).card

variable {f : ι → α} {p : α → Prop} [DecidablePred p]

/-- **One party changes its state.** -/
theorem census_update (f : ι → α) (p : α → Prop) [DecidablePred p] (i : ι) (b : α) :
    census (Function.update f i b) p + (if p (f i) then 1 else 0) = census f p + if p b then 1 else 0 := by
  -- the parties other than `i` are counted alike before and after
  have split : ∀ g : ι → α, census g p =
    ((Finset.univ.erase i).filter fun j => p (g j)).card + if p (g i) then 1 else 0 := by
    intro g
    have hu : (Finset.univ : Finset ι) = insert i (Finset.univ.erase i) := by simp
    unfold census
    rw [hu, filter_insert]
    split
    · simp
    · simp
  have others : (Finset.univ.erase i).filter (fun j => p (Function.update f i b j)) =
    (Finset.univ.erase i).filter fun j => p (f j) := by
    refine filter_congr fun j hj => ?_
    rw [Function.update_of_ne (ne_of_mem_erase hj)]
  rw [split (Function.update f i b), split f, others, Function.update_self]
  omega

omit [DecidableEq ι] in
theorem census_pos {i : ι} (h : p (f i)) : 0 < census f p :=
  card_pos.mpr ⟨i, by simpa using h⟩

omit [DecidableEq ι] in
theorem census_eq_zero (h : ∀ i, ¬ p (f i)) : census f p = 0 := by
  simp only [census, card_eq_zero, filter_eq_empty_iff]
  exact fun i _ => h i

omit [DecidableEq ι] in
theorem exists_of_census_pos (h : 0 < census f p) : ∃ i, p (f i) := by
  obtain ⟨i, hi⟩ := card_pos.mp h
  exact ⟨i, by simpa using hi⟩

omit [DecidableEq ι] in
/-- At most one party is counted. -/
theorem eq_of_census_le_one (h : census f p ≤ 1) {i j : ι} (hi : p (f i)) (hj : p (f j)) : i = j :=
  card_le_one.mp h i (by simpa using hi) j (by simpa using hj)

end Bray.Lib
