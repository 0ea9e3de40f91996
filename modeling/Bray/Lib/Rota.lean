/-
  File:      Bray/Lib/Rota.lean
  Subject:   QUEUES IN ROTATION. Nothing of this repository is named here.

  A rota is a list of keys, each with a queue of items. Items of one key leave in the order they
  came; the keys take turns:

  * `push k a` -- `a` goes behind the other items of `k`; a key without a queue gets one at the
    end of the rota;
  * `remove a` -- `a` leaves its queue, an emptied queue leaves the rota;
  * `serve p` -- the first item of the first key `p` accepts; its key goes to the end of the rota
    if items remain, and leaves it otherwise.

  `ahead k` counts the keys before `k`. `push` does not change it, `remove` cannot raise it, and
  `serve` lowers it when it passes over no key that `p` accepts and serves another key: this is
  the bound on how often a key can be bypassed (`ahead_serve`).
-/
import Mathlib.Data.List.Nodup

namespace Bray.Lib

open List


/-- Keys in the order of their turns, each with its queue. -/
abbrev Rota (κ α : Type) := List (κ × List α)

namespace Rota

variable {κ α : Type}

def keys (r : Rota κ α) : List κ := r.map Prod.fst

def items (r : Rota κ α) : List α := r.flatMap Prod.snd

/-- The items of a key, first in first. -/
def queue [DecidableEq κ] : Rota κ α → κ → List α
  | [], _ => []
  | (k', xs) :: r, k => if k' = k then xs else queue r k

def push [DecidableEq κ] (k : κ) (a : α) : Rota κ α → Rota κ α
  | [] => [(k, [a])]
  | (k', xs) :: r => if k' = k then (k', xs ++ [a]) :: r else (k', xs) :: push k a r

/-- A queue with its key, nothing when it is empty. -/
def rest (k : κ) (xs : List α) : Rota κ α := if xs = [] then [] else [(k, xs)]

def remove [DecidableEq α] (a : α) : Rota κ α → Rota κ α
  | [] => []
  | (k, xs) :: r => rest k (xs.erase a) ++ remove a r

def serve (p : κ → Bool) : Rota κ α → Option (κ × α × Rota κ α)
  | [] => none
  | (k, xs) :: r =>
    if p k then xs.head?.map fun a => (k, a, r ++ rest k xs.tail)
    else (serve p r).map fun x => (x.1, x.2.1, (k, xs) :: x.2.2)

/-- The number of keys whose turn is before the turn of `k`. -/
def ahead [DecidableEq κ] (k : κ) : Rota κ α → Nat
  | [] => 0
  | (k', _) :: r => if k' = k then 0 else ahead k r + 1

/-- No key has two queues, no queue is empty, no item is queued twice. -/
structure WellFormed (r : Rota κ α) : Prop where
  keys : r.keys.Nodup
  busy : ∀ x ∈ r, x.2 ≠ []
  items : r.items.Nodup

variable {r r' : Rota κ α} {k k' : κ} {a b : α} {xs : List α}

section Reading

/-! ## 1. Reading a rota -/

theorem keys_append (r r' : Rota κ α) : keys (r ++ r') = keys r ++ keys r' := map_append

theorem items_append (r r' : Rota κ α) : items (r ++ r') = items r ++ items r' :=
  flatMap_append

variable [DecidableEq κ]

theorem queue_of_notMem (h : k ∉ keys r) : queue r k = [] := by
  induction r with
  | nil => rfl
  | cons x r ih =>
    simp only [keys, map_cons, mem_cons, not_or] at h
    rw [queue, if_neg fun e => h.1 e.symm]
    exact ih h.2

theorem queue_append (r r' : Rota κ α) (k : κ) :
    queue (r ++ r') k = if k ∈ keys r then queue r k else queue r' k := by
  induction r with
  | nil => simp [keys]
  | cons x r ih =>
    obtain ⟨k', xs⟩ := x
    simp only [cons_append, queue, keys, map_cons, mem_cons]
    by_cases e : k' = k
    · rw [if_pos e, if_pos e, if_pos (.inl e.symm)]
    · rw [if_neg e, if_neg e, ih]
      exact if_congr (by simp only [keys, Ne.symm e, false_or]) rfl rfl

theorem mem_items_of_queue (h : a ∈ queue r k) : a ∈ items r := by
  induction r with
  | nil => exact h
  | cons x r ih =>
    rw [queue] at h
    split at h
    · exact mem_append_left _ h
    · exact mem_append_right _ (ih h)

theorem exists_queue (hk : (keys r).Nodup) (h : a ∈ items r) : ∃ k, a ∈ queue r k := by
  induction r with
  | nil => exact nomatch h
  | cons x r ih =>
    obtain ⟨k, xs⟩ := x
    rcases mem_append.mp h with h | h
    · exact ⟨k, by rw [queue, if_pos rfl]; exact h⟩
    · obtain ⟨k', hk'⟩ := ih (nodup_cons.mp hk).2 h
      refine ⟨k', ?_⟩
      have hne : k ≠ k' := fun e => by
        rw [queue_of_notMem (e ▸ (nodup_cons.mp hk).1)] at hk'
        exact not_mem_nil hk'
      rw [queue, if_neg hne]
      exact hk'

theorem mem_keys_of_queue (h : queue r k ≠ []) : k ∈ keys r := by
  by_contra hk
  exact h (queue_of_notMem hk)

theorem queue_sublist (r : Rota κ α) (k : κ) : (queue r k).Sublist (items r) := by
  induction r with
  | nil => exact List.Sublist.refl _
  | cons x r ih =>
    rw [queue, items, flatMap_cons]
    split
    · exact sublist_append_left _ _
    · exact ih.trans (sublist_append_right _ _)

/-! ## 2. Pushing -/

theorem queue_push (k k' : κ) (a : α) (r : Rota κ α) :
    queue (push k a r) k' = if k' = k then queue r k ++ [a] else queue r k' := by
  induction r with
  | nil => simp only [push, queue, nil_append, eq_comm]
  | cons x r ih =>
    obtain ⟨k₀, xs⟩ := x
    rw [push]
    by_cases e : k₀ = k
    · subst e
      by_cases e' : k' = k₀
      · subst e'; simp [queue]
      · simp [queue, e', Ne.symm e']
    · rw [if_neg e]
      simp only [queue, ih]
      by_cases e' : k₀ = k'
      · subst e'; simp [e]
      · simp [e, e']

theorem keys_push (k : κ) (a : α) (r : Rota κ α) :
    keys (push k a r) = if k ∈ keys r then keys r else keys r ++ [k] := by
  induction r with
  | nil => simp [push, keys]
  | cons x r ih =>
    obtain ⟨k₀, xs⟩ := x
    rw [push]
    by_cases e : k₀ = k
    · subst e; simp [keys]
    · have hm : k ∈ keys ((k₀, xs) :: r) ↔ k ∈ keys r := by simp [keys, Ne.symm e]
      rw [if_neg e, show keys ((k₀, xs) :: push k a r) = k₀ :: keys (push k a r) from rfl, ih]
      by_cases hk : k ∈ keys r
      · rw [if_pos hk, if_pos (hm.mpr hk)]; rfl
      · rw [if_neg hk, if_neg (mt hm.mp hk)]; rfl

theorem items_push (k : κ) (a : α) (r : Rota κ α) : (items (push k a r)).Perm (a :: items r) := by
  induction r with
  | nil => exact List.Perm.refl _
  | cons x r ih =>
    obtain ⟨k₀, xs⟩ := x
    rw [push]
    split
    · simp only [items, flatMap_cons, append_assoc, singleton_append]
      exact perm_middle
    · exact (ih.append_left xs).trans perm_middle

theorem ahead_push (h : k' ∈ keys r) : ahead k' (push k a r) = ahead k' r := by
  induction r with
  | nil => exact nomatch h
  | cons x r ih =>
    obtain ⟨k₀, xs⟩ := x
    rw [push]
    by_cases e : k₀ = k
    · rw [if_pos e]; rfl
    · rw [if_neg e]
      simp only [ahead]
      by_cases e' : k₀ = k'
      · rw [if_pos e', if_pos e']
      · have : k' ∈ keys r := by
          rcases mem_cons.mp h with h | h
          · exact absurd h.symm e'
          · exact h
        rw [ih this]

theorem busy_push (h : ∀ x ∈ r, x.2 ≠ []) : ∀ x ∈ push k a r, x.2 ≠ [] := by
  induction r with
  | nil =>
    intro x hx
    rw [push, mem_singleton] at hx
    rw [hx]; simp
  | cons y r ih =>
    have hr : ∀ x ∈ r, x.2 ≠ [] := fun x hx => h x (.tail _ hx)
    intro x hx
    rw [push] at hx
    split at hx
    · rcases mem_cons.mp hx with rfl | hx
      · simp
      · exact hr x hx
    · rcases mem_cons.mp hx with rfl | hx
      · exact h _ (.head _)
      · exact ih hr x hx

theorem WellFormed.push (h : WellFormed r) (ha : a ∉ r.items) : WellFormed (push k a r) where
  keys := by
    rw [keys_push]
    split
    · exact h.keys
    · rename_i hk
      exact nodup_append.mpr ⟨h.keys, nodup_singleton k, fun x hx y hy e => by
        rw [mem_singleton] at hy; exact hk (hy ▸ e ▸ hx)⟩
  busy := busy_push h.busy
  items := (items_push k a r).nodup_iff.mpr (nodup_cons.mpr ⟨ha, h.items⟩)

end Reading

section Removing

variable [DecidableEq α]

/-! ## 3. Removing -/

theorem keys_remove (a : α) (r : Rota κ α) : (keys (remove a r)).Sublist (keys r) := by
  induction r with
  | nil => exact List.Sublist.refl _
  | cons x r ih =>
    obtain ⟨k, xs⟩ := x
    rw [remove, rest]
    split
    · exact ih.trans (sublist_cons_self _ _)
    · exact ih.cons_cons k

theorem items_remove (h : (items r).Nodup) : items (remove a r) = (items r).erase a := by
  induction r with
  | nil => rfl
  | cons x r ih =>
    obtain ⟨k, xs⟩ := x
    obtain ⟨_, hr, hd⟩ := nodup_append.mp h
    have he : items (rest k (xs.erase a)) = xs.erase a := by
      unfold rest
      split
      · rename_i e; rw [e]; rfl
      · simp [items]
    rw [remove, items_append, he, ih hr]
    rw [show items ((k, xs) :: r) = xs ++ items r from flatMap_cons]
    by_cases ha : a ∈ xs
    · have hn : a ∉ items r := fun m => hd a ha a m rfl
      rw [erase_append_left _ ha, erase_of_not_mem hn]
    · rw [erase_append_right _ ha, erase_of_not_mem ha]

theorem queue_remove [DecidableEq κ] (h : (keys r).Nodup) : queue (remove a r) k = (queue r k).erase a := by
  induction r with
  | nil => rfl
  | cons x r ih =>
    obtain ⟨k₀, xs⟩ := x
    have hk := (nodup_cons.mp h).1
    have ih := ih (nodup_cons.mp h).2
    rw [remove, queue]
    by_cases e : k₀ = k
    · subst e
      rw [if_pos rfl, rest]
      split
      · rename_i hn
        rw [nil_append, ih, queue_of_notMem hk, hn]; rfl
      · simp [queue]
    · rw [if_neg e, ← ih, rest]
      split
      · rfl
      · simp [queue, e]

theorem busy_remove : ∀ x ∈ remove a r, x.2 ≠ [] := by
  induction r with
  | nil => exact fun x hx => nomatch hx
  | cons y r ih =>
    intro x hx
    rw [remove, rest] at hx
    split at hx
    · exact ih x hx
    · rename_i hn
      rcases mem_cons.mp hx with rfl | hx
      · exact hn
      · exact ih x hx

theorem remove_of_notMem (h : a ∉ r.items) (hb : ∀ x ∈ r, x.2 ≠ []) : remove a r = r := by
  induction r with
  | nil => rfl
  | cons x r ih =>
    obtain ⟨k, xs⟩ := x
    rw [show items ((k, xs) :: r) = xs ++ items r from flatMap_cons, mem_append, not_or] at h
    rw [remove, erase_of_not_mem h.1, rest, if_neg (hb _ mem_cons_self),
      ih h.2 fun x hx => hb x (.tail _ hx)]
    rfl

theorem WellFormed.remove (h : WellFormed r) (a : α) : WellFormed (remove a r) where
  keys := h.keys.sublist (keys_remove a r)
  busy := busy_remove
  items := by rw [items_remove h.items]; exact h.items.erase a

/-- **Removing items brings no key forward by more than it frees.** -/
theorem ahead_remove_le [DecidableEq κ] (hk : (keys r).Nodup) (h : k ∈ keys (remove a r)) : ahead k (remove a r) ≤ ahead k r := by
  induction r with
  | nil => exact Nat.le_refl _
  | cons x r ih =>
    obtain ⟨k₀, xs⟩ := x
    have ih := ih (nodup_cons.mp hk).2
    rw [remove, rest] at h ⊢
    split at h
    · rename_i hn
      rw [if_pos hn]
      simp only [nil_append, ahead] at h ⊢
      have hne : k₀ ≠ k := fun e =>
        (nodup_cons.mp hk).1 (e ▸ (keys_remove a r).subset h)
      rw [if_neg hne]
      exact Nat.le_succ_of_le (ih h)
    · rename_i hn
      rw [if_neg hn]
      simp only [cons_append, nil_append, ahead] at h ⊢
      split
      · exact Nat.le_refl _
      · rename_i e
        refine Nat.succ_le_succ (ih ?_)
        rcases mem_cons.mp h with h | h
        · exact absurd h.symm e
        · exact h

end Removing

/-! ## 4. Serving -/

section Serving

theorem items_rest (k : κ) (xs : List α) : items (rest k xs) = xs := by
  unfold rest
  split
  · rename_i e; rw [e]; rfl
  · simp [items]

variable {p : κ → Bool}

/-- **What `serve` does**: it passes over keys that are not accepted, takes the first item of the
  next one, and puts what remains of that queue at the end. -/
theorem serve_eq (h : serve p r = some (k, a, r')) :
    ∃ l xs t, r = l ++ (k, a :: xs) :: t ∧ (∀ x ∈ l, p x.1 = false) ∧ p k = true ∧ r' = l ++ t ++ rest k xs := by
  induction r generalizing r' with
  | nil => cases h
  | cons x r ih =>
    obtain ⟨k₀, ys⟩ := x
    rw [serve] at h
    split at h
    · rename_i hp
      cases ys with
      | nil => cases h
      | cons b ys =>
        obtain ⟨rfl, rfl, rfl⟩ := h
        exact ⟨[], ys, r, rfl, fun x hx => absurd hx not_mem_nil, hp, rfl⟩
    · rename_i hp
      obtain ⟨⟨k₁, a₁, r₁⟩, hs, e⟩ := Option.map_eq_some_iff.mp h
      simp only [Prod.mk.injEq] at e
      obtain ⟨rfl, rfl, rfl⟩ := e
      obtain ⟨l, xs, t, rfl, hl, hpk, rfl⟩ := ih hs
      refine ⟨(k₀, ys) :: l, xs, t, rfl, fun x hx => ?_, hpk, rfl⟩
      rcases mem_cons.mp hx with rfl | hx
      · simpa using hp
      · exact hl x hx

theorem serve_of_eq {l t : Rota κ α} (hl : ∀ x ∈ l, p x.1 = false) (hk : p k = true) :
    serve p (l ++ (k, a :: xs) :: t) = some (k, a, l ++ t ++ rest k xs) := by
  induction l with
  | nil => simp [serve, hk]
  | cons x l ih =>
    obtain ⟨k₀, ys⟩ := x
    have hp : p k₀ = false := hl _ (.head _)
    rw [cons_append, serve, if_neg (by rw [hp]; simp), ih fun x hx => hl x (mem_cons_of_mem _ hx)]
    rfl

theorem serve_eq_none (h : ∀ x ∈ r, p x.1 = false) : serve p r = none := by
  induction r with
  | nil => rfl
  | cons x r ih =>
    obtain ⟨k₀, ys⟩ := x
    have hp : p k₀ = false := h _ (.head _)
    rw [serve, if_neg (by rw [hp]; simp), ih fun x hx => h x (mem_cons_of_mem _ hx)]
    rfl

theorem WellFormed.serve (h : WellFormed r) (hs : serve p r = some (k, a, r')) : WellFormed r' := by
  obtain ⟨l, xs, t, rfl, _, _, rfl⟩ := serve_eq hs
  have hk := h.keys
  rw [keys_append, show Rota.keys ((k, a :: xs) :: t) = k :: Rota.keys t from rfl] at hk
  have hi := h.items
  rw [items_append, show Rota.items ((k, a :: xs) :: t) = (a :: xs) ++ Rota.items t from
    flatMap_cons] at hi
  refine ⟨?_, fun x hx => ?_, ?_⟩
  · rw [keys_append, keys_append, rest]
    split
    · rw [show Rota.keys ([] : Rota κ α) = [] from rfl, append_nil]
      exact (nodup_middle.mp hk).of_cons
    · exact (perm_append_singleton k _).nodup_iff.mpr (nodup_middle.mp hk)
  · rcases mem_append.mp hx with hx | hx
    · rcases mem_append.mp hx with hx | hx
      · exact h.busy x (mem_append_left _ hx)
      · exact h.busy x (mem_append_right _ (.tail _ hx))
    · unfold rest at hx
      split at hx
      · exact nomatch hx
      · rename_i hn
        rw [mem_singleton.mp hx]; exact hn
  · rw [items_append, items_append, items_rest]
    have hp : (Rota.items l ++ Rota.items t ++ xs).Perm
      (Rota.items l ++ (xs ++ Rota.items t)) := by
      rw [append_assoc]
      exact perm_append_comm.append_left _
    refine hp.nodup_iff.mpr (hi.sublist ?_)
    exact (List.Sublist.refl _).append ((sublist_cons_self a xs).append (List.Sublist.refl _))

variable [DecidableEq κ]

/-- The served key loses its first item, the other keys keep theirs. -/
theorem queue_serve (h : (keys r).Nodup) (hs : serve p r = some (k, a, r')) :
    queue r k = a :: queue r' k ∧ ∀ k', k' ≠ k → queue r' k' = queue r k' := by
  obtain ⟨l, xs, t, rfl, _, _, rfl⟩ := serve_eq hs
  rw [keys_append, show keys ((k, a :: xs) :: t) = k :: keys t from rfl] at h
  obtain ⟨hkl, hkt⟩ : k ∉ keys l ∧ k ∉ keys t := by
    have := (nodup_middle.mp h).notMem
    simpa [mem_append] using this
  have hrest : ∀ k', k' ≠ k → queue (rest k xs) k' = [] := fun k' hk' =>
    queue_of_notMem fun m => by
      unfold rest at m
      split at m
      · exact not_mem_nil m
      · exact hk' (by simpa [keys] using m)
  have hself : queue (rest k xs) k = xs := by
    unfold rest
    split
    · rename_i e; rw [e]; rfl
    · simp [queue]
  have hlt : k ∉ keys (l ++ t) := by
    rw [keys_append, mem_append, not_or]; exact ⟨hkl, hkt⟩
  refine ⟨?_, fun k' hk' => ?_⟩
  · rw [queue_append, if_neg hkl, queue, if_pos rfl, queue_append, if_neg hlt, hself]
  · rw [queue_append, queue_append, queue_append, hrest k' hk', keys_append, queue,
    if_neg (Ne.symm hk')]
    by_cases h1 : k' ∈ keys l
    · simp [h1]
    · by_cases h2 : k' ∈ keys t
      · simp [h1, h2]
      · simp [h1, h2, queue_of_notMem h2]

theorem ahead_append_of_mem {l : Rota κ α} (t : Rota κ α) (h : k ∈ keys l) : ahead k (l ++ t) = ahead k l := by
  induction l with
  | nil => exact nomatch h
  | cons x l ih =>
    obtain ⟨k₀, ys⟩ := x
    simp only [cons_append, ahead]
    by_cases e : k₀ = k
    · rw [if_pos e, if_pos e]
    · rw [if_neg e, if_neg e, ih]
      rcases mem_cons.mp h with h | h
      · exact absurd h.symm e
      · exact h

theorem ahead_append_of_notMem {l : Rota κ α} (t : Rota κ α) (h : k ∉ keys l) :
    ahead k (l ++ t) = l.length + ahead k t := by
  induction l with
  | nil => simp
  | cons x l ih =>
    simp only [keys, map_cons, mem_cons, not_or] at h
    simp only [cons_append, ahead, length_cons]
    rw [if_neg fun e => h.1 e.symm, ih h.2]
    omega

/-- **Bounded bypass**: when a key that is accepted is not the one served, one key fewer is ahead
  of it afterwards. -/
theorem ahead_serve (hs : serve p r = some (k, a, r')) (hp : p k' = true)
    (hm : k' ∈ keys r) (hne : k' ≠ k) : ahead k' r' + 1 = ahead k' r := by
  obtain ⟨l, xs, t, rfl, hl, _, rfl⟩ := serve_eq hs
  have hkl : k' ∉ keys l := fun m => by
    obtain ⟨x, hx, e⟩ := mem_map.mp m
    have := hl x hx
    rw [e, hp] at this
    cases this
  have hkt : k' ∈ keys t := by
    rw [keys_append, show keys ((k, a :: xs) :: t) = k :: keys t from rfl] at hm
    rcases mem_append.mp hm with hm | hm
    · exact absurd hm hkl
    · exact (mem_cons.mp hm).resolve_left hne
  have hlt : k' ∈ keys (l ++ t) := by
    rw [keys_append]; exact mem_append_right _ hkt
  rw [ahead_append_of_mem _ hlt, ahead_append_of_notMem _ hkl, ahead_append_of_notMem _ hkl, ahead,
    if_neg (Ne.symm hne)]
  omega

end Serving

/-! ## 5. Renaming the items -/

section Renaming

variable {β : Type} (f : α → β)

/-- The same rota with every item renamed. -/
def rename (r : Rota κ α) : Rota κ β := r.map fun x => (x.1, x.2.map f)

theorem keys_rename (r : Rota κ α) : keys (rename f r) = keys r := by
  simp only [keys, rename, map_map]; rfl

theorem items_rename (r : Rota κ α) : items (rename f r) = (items r).map f := by
  simp only [items, rename, flatMap_map, map_flatMap]

theorem rename_append (r r' : Rota κ α) : rename f (r ++ r') = rename f r ++ rename f r' :=
  map_append

theorem rename_rest (k : κ) (xs : List α) : rename f (rest k xs) = rest k (xs.map f) := by
  cases xs <;> rfl

/-- Renaming and removal, for a name no other item gets. -/
theorem map_erase_of_unique [DecidableEq α] [DecidableEq β] {xs : List α} {a : α}
    (h : ∀ x ∈ xs, f x = f a → x = a) : (xs.erase a).map f = (xs.map f).erase (f a) := by
  induction xs with
  | nil => rfl
  | cons x xs ih =>
    by_cases e : x = a
    · subst e; simp
    · have hne : f x ≠ f a := fun e' => e (h x (.head _) e')
      rw [erase_cons_tail (by simpa using e), map_cons, map_cons,
        erase_cons_tail (by simpa using hne), ih fun y hy => h y (.tail _ hy)]

variable [DecidableEq κ]

theorem queue_rename (r : Rota κ α) (k : κ) : queue (rename f r) k = (queue r k).map f := by
  induction r with
  | nil => rfl
  | cons x r ih =>
    simp only [rename, map_cons, queue] at ih ⊢
    split
    · rfl
    · exact ih

theorem ahead_rename (r : Rota κ α) (k : κ) : ahead k (rename f r) = ahead k r := by
  induction r with
  | nil => rfl
  | cons x r ih =>
    simp only [rename, map_cons, ahead] at ih ⊢
    rw [ih]

end Renaming

end Rota

end Bray.Lib
