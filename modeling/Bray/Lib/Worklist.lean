/-
  File:      Bray/Lib/Worklist.lean
  Subject:   A WORKLIST COMPUTES A CLOSURE. Nothing of this repository is named here.

  `explore next fuel seen pending` takes the nodes of `pending` in order; every successor that is
  not yet seen is marked and put at the end of the list. With enough fuel the nodes it has seen at
  the end are exactly those a chain of successors leads to (`mem_explore_iff`).

  A node is pending at most once, and only after it was marked: the fuel that is needed is the
  number of pending nodes and of nodes that can still be marked (`room`).
-/
import Mathlib.Data.List.Nodup
import Mathlib.Logic.Relation

namespace Bray.Lib

open List

open Relation (ReflTransGen)

namespace Worklist

variable {α : Type} [DecidableEq α]

/-- Mark the successors that are new and queue them. -/
def visit : List α → List α → List α → List α × List α
  | seen, pending, [] => (seen, pending)
  | seen, pending, x :: xs =>
    if x ∈ seen then visit seen pending xs else visit (x :: seen) (pending ++ [x]) xs

/-- The loop: one pending node in every turn. -/
def explore (next : α → List α) : Nat → List α → List α → List α
  | 0, seen, _ => seen
  | _ + 1, seen, [] => seen
  | fuel + 1, seen, x :: pending =>
    explore next fuel (visit seen pending (next x)).1 (visit seen pending (next x)).2

/-- The nodes of `all` that are not marked yet. -/
def room (all seen : List α) : Nat := all.countP fun x => x ∉ seen

variable {next : α → List α} {seen pending xs all : List α}

/-! ## 1. One turn -/

/-- **What a turn does**: it marks and queues the same new nodes, each once. -/
theorem visit_eq (seen pending xs : List α) :
    ∃ new, visit seen pending xs = (new.reverse ++ seen, pending ++ new) ∧ new.Nodup ∧
      ∀ y, y ∈ new ↔ y ∈ xs ∧ y ∉ seen := by
  induction xs generalizing seen pending with
  | nil => exact ⟨[], by simp [visit]⟩
  | cons x xs ih =>
    rw [visit]
    split
    · rename_i hx
      obtain ⟨new, e, hn, hm⟩ := ih seen pending
      refine ⟨new, e, hn, fun y => ?_⟩
      rw [hm, mem_cons]
      constructor
      · exact fun h => ⟨.inr h.1, h.2⟩
      · rintro ⟨rfl | h, hy⟩
        · exact absurd hx hy
        · exact ⟨h, hy⟩
    · rename_i hx
      obtain ⟨new, e, hn, hm⟩ := ih (x :: seen) (pending ++ [x])
      refine ⟨x :: new, by rw [e]; simp, nodup_cons.mpr ⟨fun h => ?_, hn⟩, fun y => ?_⟩
      · exact ((hm x).mp h).2 (.head _)
      · rw [mem_cons, hm, mem_cons, mem_cons, not_or]
        constructor
        · rintro (rfl | h)
          · exact ⟨.inl rfl, hx⟩
          · exact ⟨.inr h.1, h.2.2⟩
        · rintro ⟨rfl | h, hy⟩
          · exact .inl rfl
          · by_cases e : y = x
            · exact .inl e
            · exact .inr ⟨h, e, hy⟩

/-- What is pending before does not matter to a turn. -/
theorem visit_append (seen before pending xs : List α) :
    visit seen (before ++ pending) xs = ((visit seen pending xs).1, before ++ (visit seen pending xs).2) := by
  induction xs generalizing seen pending with
  | nil => rfl
  | cons x xs ih =>
    by_cases hx : x ∈ seen
    · rw [visit, visit, if_pos hx, if_pos hx, ih]
    · rw [visit, visit, if_neg hx, if_neg hx, append_assoc, ih]

theorem room_cons_lt {x : α} (hx : x ∈ all) (hs : x ∉ seen) : room all (x :: seen) < room all seen := by
  unfold room
  induction all with
  | nil => exact nomatch hx
  | cons a all ih =>
    have hle : all.countP (fun y => y ∉ x :: seen) ≤ all.countP fun y => y ∉ seen :=
      countP_mono_left fun y _ h => by
        simp only [mem_cons, not_or, decide_eq_true_eq] at h ⊢
        exact h.2
    rw [countP_cons, countP_cons]
    by_cases e : a = x
    · subst e
      simp only [mem_cons_self, not_true, decide_false, Bool.false_eq_true, if_false, hs,
        not_false_iff, decide_true, if_true]
      omega
    · have ih := ih ((mem_cons.mp hx).resolve_left (Ne.symm e))
      have : (a ∉ x :: seen) ↔ a ∉ seen := by simp [e]
      simp only [this]
      omega

/-- Marking uses up room. -/
theorem room_append (new : List α) (hn : new.Nodup) (ha : ∀ y ∈ new, y ∈ all)
    (hs : ∀ y ∈ new, y ∉ seen) : room all (new.reverse ++ seen) + new.length ≤ room all seen := by
  induction new generalizing seen with
  | nil => exact Nat.le_refl _
  | cons x new ih =>
    have hx := hs x (.head _)
    have hlt := room_cons_lt (ha x (.head _)) hx
    have hs' : ∀ y ∈ new, y ∉ x :: seen := by
      intro y hy h
      rcases mem_cons.mp h with rfl | h
      · exact (nodup_cons.mp hn).1 hy
      · exact hs y (.tail _ hy) h
    have ih := ih (nodup_cons.mp hn).2 (fun y hy => ha y (.tail _ hy)) hs'
    rw [reverse_cons, append_assoc, singleton_append, length_cons]
    omega

/-! ## 2. The invariant of the loop -/

/-- Every pending node is marked; a marked node that is no longer pending has its successors
  marked. -/
structure Inv (next : α → List α) (seen pending : List α) : Prop where
  marked : ∀ y ∈ pending, y ∈ seen
  closed : ∀ y ∈ seen, y ∉ pending → ∀ z ∈ next y, z ∈ seen

omit [DecidableEq α] in
theorem Inv.start (seeds : List α) : Inv next seeds seeds :=
  ⟨fun _ h => h, fun _ h hn => absurd h hn⟩

theorem Inv.turn {x : α} (h : Inv next seen (x :: pending)) :
    Inv next (visit seen pending (next x)).1 (visit seen pending (next x)).2 := by
  obtain ⟨new, e, _, hm⟩ := visit_eq seen pending (next x)
  rw [e]
  refine ⟨fun y hy => ?_, fun y hy hn z hz => ?_⟩
  · rcases mem_append.mp hy with hy | hy
    · exact mem_append_right _ (h.marked y (.tail _ hy))
    · exact mem_append_left _ (mem_reverse.mpr hy)
  · rw [mem_append, not_or] at hn
    have hys : y ∈ seen := by
      rcases mem_append.mp hy with hy | hy
      · exact absurd (mem_reverse.mp hy) hn.2
      · exact hy
    rw [mem_append, mem_reverse, hm]
    by_cases hzs : z ∈ seen
    · exact .inr hzs
    · by_cases hyx : y = x
      · subst hyx; exact .inl ⟨hz, hzs⟩
      · have hyp : y ∉ x :: pending := fun m =>
          (mem_cons.mp m).elim hyx hn.1
        exact absurd (h.closed y hys hyp z hz) hzs

/-! ## 3. The closure -/

theorem subset_explore (next : α → List α) (fuel : Nat) (seen pending : List α) :
    ∀ y ∈ seen, y ∈ explore next fuel seen pending := by
  induction fuel generalizing seen pending with
  | zero => exact fun y h => h
  | succ fuel ih =>
    intro y hy
    cases pending with
    | nil => exact hy
    | cons x pending =>
      refine ih _ _ y ?_
      obtain ⟨new, e, _, _⟩ := visit_eq seen pending (next x)
      rw [e]
      exact mem_append_right _ hy

/-- Whatever the fuel, only nodes a chain leads to are marked. -/
theorem explore_sound {P : α → Prop} (hP : ∀ x y, P x → y ∈ next x → P y) (fuel : Nat)
    (hp : ∀ y ∈ pending, P y) (hs : ∀ y ∈ seen, P y) : ∀ y ∈ explore next fuel seen pending, P y := by
  induction fuel generalizing seen pending with
  | zero => exact hs
  | succ fuel ih =>
    cases pending with
    | nil => exact hs
    | cons x pending =>
      rw [explore]
      obtain ⟨new, e, _, hm⟩ := visit_eq seen pending (next x)
      rw [e]
      have hnew : ∀ y ∈ new, P y := fun y hy =>
        hP x y (hp x (.head _)) ((hm y).mp hy).1
      refine ih (fun y hy => ?_) fun y hy => ?_
      · rcases mem_append.mp hy with hy | hy
        · exact hp y (.tail _ hy)
        · exact hnew y hy
      · rcases mem_append.mp hy with hy | hy
        · exact hnew y (mem_reverse.mp hy)
        · exact hs y hy

/-- With enough fuel the marked nodes are closed under `next`. -/
theorem explore_closed (ha : ∀ x, ∀ y ∈ next x, y ∈ all) (fuel : Nat)
    (h : Inv next seen pending) (hf : pending.length + room all seen ≤ fuel) :
    ∀ y ∈ explore next fuel seen pending, ∀ z ∈ next y, z ∈ explore next fuel seen pending := by
  induction fuel generalizing seen pending with
  | zero =>
    obtain rfl : pending = [] := eq_nil_of_length_eq_zero (by omega)
    exact fun y hy => h.closed y hy not_mem_nil
  | succ fuel ih =>
    cases pending with
    | nil => exact fun y hy => h.closed y hy not_mem_nil
    | cons x pending =>
      refine ih h.turn ?_
      obtain ⟨new, e, hn, hm⟩ := visit_eq seen pending (next x)
      have hroom := room_append new hn (fun y hy => ha x y ((hm y).mp hy).1)
        fun y hy => ((hm y).mp hy).2
      rw [e]
      show (pending ++ new).length + room all (new.reverse ++ seen) ≤ fuel
      rw [length_append]
      rw [length_cons] at hf
      omega

/-- **The worklist computes the closure of its seeds.** -/
theorem mem_explore_iff (ha : ∀ x, ∀ y ∈ next x, y ∈ all) {seeds : List α} {fuel : Nat}
    (hf : seeds.length + room all seeds ≤ fuel) {y : α} : y ∈ explore next fuel seeds seeds ↔
      ∃ x ∈ seeds, ReflTransGen (fun a b => b ∈ next a) x y := by
  constructor
  · refine explore_sound (P := fun y => ∃ x ∈ seeds, ReflTransGen (fun a b => b ∈ next a) x y)
      (fun a b h hb => ?_) fuel (fun y hy => ⟨y, hy, .refl⟩) (fun y hy => ⟨y, hy, .refl⟩) y
    obtain ⟨x, hx, hr⟩ := h
    exact ⟨x, hx, hr.tail hb⟩
  · rintro ⟨x, hx, hr⟩
    induction hr with
    | refl => exact subset_explore next fuel seeds seeds x hx
    | tail _ hb ih => exact explore_closed ha fuel (.start seeds) hf _ ih _ hb

end Worklist

end Bray.Lib
