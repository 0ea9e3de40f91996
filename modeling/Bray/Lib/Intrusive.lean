/-
  File:      Bray/Lib/Intrusive.lean
  Subject:   INTRUSIVE LISTS. Links kept inside numbered cells, zero for "no cell". Nothing of
    this repository is named here.

  The links of the cells are two functions `next prev : Nat → Nat`. A list of cells is READ off
  the links: `Linked next prev head tail xs` says that `head`, `tail` and the links of the cells
  of `xs` spell exactly `xs`, forwards and backwards; `Chain next head xs` says the same of a
  list linked forwards only (a free list).

  Both are stated by SPLITS: wherever `xs = l ++ x :: r`, the predecessor of `x` is the last cell
  of `l` and its successor the first cell of `r`. An update of the links is then checked cell by
  cell:

  * `Linked.remove` -- taking a cell out of the middle rewrites its two neighbours;
  * `Linked.append` -- a cell put at the end rewrites the old last cell;
  * `Chain.push`, `Chain.pop` -- the two operations of a free list;
  * `Linked.congr`, `Chain.congr` -- only the links of the cells of the list matter.
-/
import Mathlib.Data.List.Nodup
import Mathlib.Data.List.Perm.Subperm

namespace Bray.Lib

open List


/-- The cells `xs`, doubly linked between `head` and `tail`. -/
structure Linked (next prev : Nat → Nat) (head tail : Nat) (xs : List Nat) : Prop where
  head_eq : head = xs.headD 0
  tail_eq : tail = xs.getLastD 0
  links : ∀ l x r, xs = l ++ x :: r → prev x = l.getLastD 0 ∧ next x = r.headD 0
  nodup : xs.Nodup
  pos : 0 ∉ xs

/-- The cells `xs`, linked forwards from `head`. -/
structure Chain (next : Nat → Nat) (head : Nat) (xs : List Nat) : Prop where
  head_eq : head = xs.headD 0
  links : ∀ l x r, xs = l ++ x :: r → next x = r.headD 0
  nodup : xs.Nodup
  pos : 0 ∉ xs

theorem headD_append_cons (l : List Nat) (x : Nat) (r : List Nat) (d : Nat) :
    (l ++ x :: r).headD d = l.headD x := by
  cases l <;> rfl

theorem getLastD_cons_append (l : List Nat) (x : Nat) (r : List Nat) (d : Nat) :
    (l ++ x :: r).getLastD d = r.getLastD x := by
  induction l generalizing d with
  | nil => exact getLastD_cons
  | cons a l ih => rw [cons_append, getLastD_cons, ih]

theorem headD_mem_or (xs : List Nat) (d : Nat) : xs.headD d ∈ xs ∨ xs = [] ∧ xs.headD d = d := by
  cases xs with
  | nil => exact .inr ⟨rfl, rfl⟩
  | cons a xs => exact .inl (.head _)

theorem getLastD_mem_or (xs : List Nat) (d : Nat) : xs.getLastD d ∈ xs ∨ xs = [] ∧ xs.getLastD d = d := by
  cases xs with
  | nil => exact .inr ⟨rfl, rfl⟩
  | cons a xs =>
    refine .inl ?_
    rw [getLastD_cons]
    exact getLastD_mem_cons

variable {xs : List Nat}

theorem headD_eq_zero (h : 0 ∉ xs) : xs.headD 0 = 0 ↔ xs = [] := by
  cases xs with
  | nil => simp
  | cons a xs => simp at h ⊢; omega

theorem getLastD_eq_zero (h : 0 ∉ xs) : xs.getLastD 0 = 0 ↔ xs = [] := by
  refine ⟨fun e => ?_, fun e => by rw [e]; rfl⟩
  rcases getLastD_mem_or xs 0 with hm | ⟨hn, _⟩
  · rw [e] at hm; exact absurd hm h
  · exact hn

/-- Distinct cells below a bound are no more than the bound. -/
theorem length_le_of_nodup {n : Nat} (hn : xs.Nodup) (h : ∀ x ∈ xs, x ≠ 0 ∧ x ≤ n) : xs.length ≤ n := by
  have hs : xs ⊆ List.range' 1 n := fun x hx => by
    rw [mem_range'_1]
    have := h x hx
    omega
  simpa using (subperm_of_subset hn hs).length_le

/-- A list that has every cell up to a bound is at least that long. -/
theorem le_length_of_mem {n : Nat} (h : ∀ x, x ≠ 0 → x ≤ n → x ∈ xs) : n ≤ xs.length := by
  have hs : List.range' 1 n ⊆ xs := fun x hx => by
    rw [mem_range'_1] at hx
    exact h x (by omega) (by omega)
  simpa using (subperm_of_subset (nodup_range' 1) hs).length_le

/-- A test that changes at one cell changes the count by that cell. -/
theorem countP_change {f g : Nat → Bool} {i : Nat} (hn : xs.Nodup) (hi : i ∈ xs)
    (h : ∀ y ∈ xs, y ≠ i → g y = f y) : xs.countP g + (f i).toNat = xs.countP f + (g i).toNat := by
  induction xs with
  | nil => exact nomatch hi
  | cons x xs ih =>
    obtain ⟨hx, hn⟩ := nodup_cons.mp hn
    have ht : ∀ b : Bool, (if b = true then 1 else 0) = b.toNat := fun b => by cases b <;> rfl
    rw [countP_cons, countP_cons, ht, ht]
    by_cases e : x = i
    · subst e
      have : xs.countP g = xs.countP f := by
        refine countP_congr fun y hy => ?_
        rw [h y (mem_cons_of_mem _ hy) fun e => hx (e ▸ hy)]
      omega
    · have hi : i ∈ xs := (mem_cons.mp hi).resolve_left (Ne.symm e)
      have := ih hn hi fun y hy => h y (.tail _ hy)
      rw [h x mem_cons_self e]
      omega

namespace Linked

variable {next prev next' prev' : Nat → Nat} {head tail : Nat} {xs : List Nat}

theorem empty (next prev : Nat → Nat) : Linked next prev 0 0 [] where
  head_eq := rfl
  tail_eq := rfl
  links l x r h := by cases l <;> simp at h
  nodup := nodup_nil
  pos := not_mem_nil

section

variable (h : Linked next prev head tail xs)
include h

theorem congr (hn : ∀ y ∈ xs, next' y = next y)
  (hp : ∀ y ∈ xs, prev' y = prev y) : Linked next' prev' head tail xs where
  head_eq := h.head_eq
  tail_eq := h.tail_eq
  links l x r e := by
    have hx : x ∈ xs := e ▸ mem_append_right l (.head _)
    rw [hp x hx, hn x hx]
    exact h.links l x r e
  nodup := h.nodup
  pos := h.pos

theorem head_zero : head = 0 ↔ xs = [] := by
  rw [h.head_eq]; exact headD_eq_zero h.pos

theorem tail_zero : tail = 0 ↔ xs = [] := by
  rw [h.tail_eq]; exact getLastD_eq_zero h.pos

theorem tail_mem (h0 : tail ≠ 0) : tail ∈ xs := by
  rcases getLastD_mem_or xs 0 with hm | ⟨hn, _⟩
  · rw [h.tail_eq]; exact hm
  · exact absurd (h.tail_zero.mpr hn) h0

end

variable {l r : List Nat}

section

variable {x : Nat} (h : Linked next prev head tail (l ++ x :: r))
include h

/-- The neighbours of a cell lie on its two sides. -/
theorem prev_mem_left (h0 : prev x ≠ 0) : prev x ∈ l := by
  have e := (h.links l x r rfl).1
  rcases getLastD_mem_or l 0 with hm | ⟨_, hz⟩
  · rw [e]; exact hm
  · exact absurd (e.trans hz) h0

theorem next_mem_right (h0 : next x ≠ 0) : next x ∈ r := by
  have e := (h.links l x r rfl).2
  rcases headD_mem_or r 0 with hm | ⟨_, hz⟩
  · rw [e]; exact hm
  · exact absurd (e.trans hz) h0

theorem not_mem_sides : x ∉ l ++ r :=
  (nodup_middle.mp h.nodup).notMem

end

/-- **Removing a cell**: the predecessor is linked to the successor and back, and the ends of
  the list move when the removed cell was one of them. -/
theorem remove {x head' tail' : Nat} (h : Linked next prev head tail (l ++ x :: r))
    (hn : ∀ y ∈ l ++ r, next' y = if y = prev x then next x else next y)
    (hp : ∀ y ∈ l ++ r, prev' y = if y = next x then prev x else prev y)
    (hh : head' = if prev x = 0 then next x else head) (ht : tail' = if next x = 0 then prev x else tail) :
    Linked next' prev' head' tail' (l ++ r) := by
  obtain ⟨hpx, hnx⟩ := h.links l x r rfl
  have hnd : (l ++ x :: r).Nodup := h.nodup
  have h0l : 0 ∉ l := fun hm => h.pos (mem_append_left _ hm)
  have h0r : 0 ∉ r := fun hm => h.pos (mem_append_right _ (.tail _ hm))
  have hd : ∀ y ∈ l, y ∉ r := fun y hy hy' => by
    have := (nodup_append.mp hnd).2.2 y hy y (.tail _ hy')
    exact this rfl
  refine ⟨?_, ?_, fun a y b e => ?_, ?_, ?_⟩
  · rw [hh, hpx, hnx, h.head_eq]
    cases l with
    | nil => rfl
    | cons c l =>
      have : (c :: l).getLastD 0 ≠ 0 := by rw [Ne, getLastD_eq_zero h0l]; simp
      rw [if_neg this]; rfl
  · rw [ht, hpx, hnx, h.tail_eq]
    cases r with
    | nil =>
      show (if (0 : Nat) = 0 then l.getLastD 0 else _) = _
      rw [if_pos rfl, append_nil]
    | cons c r =>
      have : (c :: r).headD 0 ≠ 0 := by rw [Ne, headD_eq_zero h0r]; simp
      rw [if_neg this, getLastD_cons_append, getLastD_cons_append, getLastD_cons]
  · have hym : y ∈ l ++ r := e ▸ mem_append_right a (.head _)
    rw [hn y hym, hp y hym]
    rcases append_eq_append_iff.mp e with ⟨c, ea, er⟩ | ⟨c, el, eb⟩
    · -- the cell `y` is right of the removed one
      have hyl : y ∉ l := fun hy => hd y hy (er ▸ mem_append_right c (.head _))
      have hold := h.links (l ++ x :: c) y b (by rw [er]; simp)
      have hnp : y ≠ prev x := by
        rw [hpx]
        rcases getLastD_mem_or l 0 with hm | ⟨_, h0⟩
        · exact fun hy => hyl (hy ▸ hm)
        · rw [h0]
          exact fun hy => h0r (hy ▸ er ▸ mem_append_right c (.head _))
      refine ⟨?_, by rw [if_neg hnp]; exact hold.2⟩
      rw [hnx]
      cases c with
      | nil => rw [er, ea, hpx]; simp
      | cons d c =>
        have hne : y ≠ r.headD 0 := by
          rw [er]
          intro hy
          have hr : (d :: c ++ y :: b).Nodup := by
            rw [← er]; exact (nodup_cons.mp (nodup_append.mp hnd).2.1).2
          have hy' : y = d := hy
          rw [hy'] at hr
          simp at hr
        rw [if_neg hne, hold.1, ea, getLastD_cons_append, getLastD_cons_append, getLastD_cons]
    · -- the cell `y` is left of it
      cases c with
      | nil =>
        -- `y` opens the right half
        simp only [nil_append, append_nil] at el eb
        subst el
        have er : r = y :: b := eb.symm
        have hold := h.links (l ++ [x]) y b (by rw [er]; simp)
        have hnp : y ≠ prev x := by
          rw [hpx]
          rcases getLastD_mem_or l 0 with hm | ⟨_, h0⟩
          · exact fun hy => hd _ hm (by rw [← hy, er]; exact (.head _))
          · rw [h0]; exact fun hy => h0r (hy ▸ er ▸ (.head _))
        refine ⟨?_, by rw [if_neg hnp]; exact hold.2⟩
        rw [hnx, er]; simpa using hpx
      | cons d c =>
        have hy : d = y ∧ b = c ++ r := by
          have := eb
          simp only [cons_append, List.cons.injEq] at this
          exact ⟨this.1.symm, this.2⟩
        obtain ⟨rfl, rfl⟩ := hy
        have hold := h.links a d (c ++ x :: r) (by rw [el]; simp)
        have hne : d ≠ next x := by
          rw [hnx]
          have hdl : d ∈ l := el ▸ mem_append_right a (.head _)
          rcases headD_mem_or r 0 with hm | ⟨_, h0⟩
          · exact fun e => hd d hdl (e ▸ hm)
          · rw [h0]; exact fun e => h0l (e ▸ hdl)
        refine ⟨by rw [if_neg hne]; exact hold.1, ?_⟩
        rw [hpx, el]
        cases c with
        | nil => simp [hnx]
        | cons f c =>
          have hne' : d ≠ (a ++ d :: f :: c).getLastD 0 := by
            rw [getLastD_cons_append, getLastD_cons]
            intro hy
            have hl : (a ++ d :: f :: c).Nodup := el ▸ (nodup_append.mp hnd).1
            have hm : c.getLastD f ∈ f :: c := getLastD_mem_cons
            have := (nodup_cons.mp (nodup_append.mp hl).2.1).1
            exact this (hy ▸ hm)
          rw [if_neg hne', hold.2]; rfl
  · exact (nodup_middle.mp hnd).of_cons
  · intro hm
    rcases mem_append.mp hm with hm | hm
    · exact h0l hm
    · exact h0r hm

/-- **Appending a cell** behind the old tail. -/
theorem append {x head' : Nat} (h : Linked next prev head tail xs) (hx : x ∉ xs) (h0 : x ≠ 0)
    (hn : ∀ y ∈ xs, next' y = if y = tail then x else next y) (hnx : next' x = 0)
    (hp : ∀ y ∈ xs, prev' y = prev y) (hpx : prev' x = tail)
    (hh : head' = if tail = 0 then x else head) : Linked next' prev' head' x (xs ++ [x]) := by
  refine ⟨?_, by simp, fun l y r e => ?_, ?_, ?_⟩
  · rw [hh]
    by_cases ht : tail = 0
    · rw [if_pos ht, h.tail_zero.mp ht]; rfl
    · rw [if_neg ht, h.head_eq]
      cases xs with
      | nil => exact absurd (h.tail_zero.mpr rfl) ht
      | cons a xs => rfl
  · rcases append_eq_append_iff.mp e with ⟨c, el, er⟩ | ⟨c, ex, er⟩
    · cases c with
      | nil =>
        obtain ⟨rfl, rfl⟩ := er
        rw [hpx, hnx, el, append_nil]
        exact ⟨h.tail_eq, rfl⟩
      | cons d c => simp at er
    · cases c with
      | nil =>
        obtain ⟨rfl, rfl⟩ := er
        rw [hpx, hnx, ← append_nil l, ← ex]
        exact ⟨h.tail_eq, rfl⟩
      | cons d c =>
        obtain ⟨rfl, rfl⟩ := er
        have hy : y ∈ xs := ex ▸ mem_append_right l (.head _)
        obtain ⟨h1, h2⟩ := h.links l y c ex
        rw [hp y hy, hn y hy]
        refine ⟨h1, ?_⟩
        rw [h.tail_eq, ex, getLastD_cons_append]
        cases c with
        | nil => simp
        | cons f c =>
          have hne : y ≠ (f :: c).getLastD y := by
            rw [getLastD_cons]
            intro hy'
            have hl : (l ++ y :: f :: c).Nodup := ex ▸ h.nodup
            have := (nodup_cons.mp (nodup_append.mp hl).2.1).1
            exact this (hy' ▸ getLastD_mem_cons)
          rw [if_neg hne, h2]; rfl
  · exact nodup_append.mpr ⟨h.nodup, nodup_singleton x, fun a ha b hb e => by
    rw [mem_singleton] at hb; exact hx (hb ▸ e ▸ ha)⟩
  · intro hm
    rcases mem_append.mp hm with hm | hm
    · exact h.pos hm
    · exact h0 (mem_singleton.mp hm).symm

end Linked

namespace Chain

variable {next next' : Nat → Nat} {head : Nat} {xs : List Nat}

theorem empty (next : Nat → Nat) : Chain next 0 [] where
  head_eq := rfl
  links l x r h := by cases l <;> simp at h
  nodup := nodup_nil
  pos := not_mem_nil

theorem congr (h : Chain next head xs) (hn : ∀ y ∈ xs, next' y = next y) :
  Chain next' head xs where
  head_eq := h.head_eq
  links l x r e := by
    rw [hn x (e ▸ mem_append_right l mem_cons_self)]
    exact h.links l x r e
  nodup := h.nodup
  pos := h.pos

theorem head_zero (h : Chain next head xs) : head = 0 ↔ xs = [] := by
  rw [h.head_eq]; exact headD_eq_zero h.pos

/-- A nonempty chain starts with its head. -/
theorem eq_cons (h : Chain next head xs) (h0 : head ≠ 0) : ∃ ys, xs = head :: ys := by
  cases xs with
  | nil => exact absurd (h.head_zero.mpr rfl) h0
  | cons a ys => exact ⟨ys, by rw [h.head_eq]; rfl⟩

theorem push {x : Nat} (h : Chain next head xs) (hx : x ∉ xs) (h0 : x ≠ 0)
    (hn : ∀ y ∈ xs, next' y = next y) (hnx : next' x = head) : Chain next' x (x :: xs) := by
  refine ⟨rfl, fun l y r e => ?_, nodup_cons.mpr ⟨hx, h.nodup⟩, ?_⟩
  · cases l with
    | nil =>
      obtain ⟨rfl, rfl⟩ := e
      rw [hnx]; exact h.head_eq
    | cons d l =>
      simp only [cons_append, List.cons.injEq] at e
      rw [hn y (e.2 ▸ mem_append_right l mem_cons_self)]
      exact h.links l y r e.2
  · intro hm
    rcases mem_cons.mp hm with e | hm
    · exact h0 e.symm
    · exact h.pos hm

theorem pop {x : Nat} (h : Chain next head (x :: xs)) : Chain next (next x) xs where
  head_eq := h.links [] x xs rfl
  links l y r e := h.links (x :: l) y r (by rw [e]; rfl)
  nodup := (nodup_cons.mp h.nodup).2
  pos hm := h.pos (.tail _ hm)

end Chain

theorem Linked.chain {next prev : Nat → Nat} {head tail : Nat}
  (h : Linked next prev head tail xs) : Chain next head xs where
  head_eq := h.head_eq
  links l x r e := (h.links l x r e).2
  nodup := h.nodup
  pos := h.pos

/-- The cells met on the way from `head`, `fuel` of them at most. -/
def walk (next : Nat → Nat) : Nat → Nat → List Nat
  | 0, _ => []
  | _ + 1, 0 => []
  | fuel + 1, i + 1 => (i + 1) :: walk next fuel (next (i + 1))

theorem Chain.walk_eq {next : Nat → Nat} {head fuel : Nat} (h : Chain next head xs)
    (hf : xs.length ≤ fuel) : walk next fuel head = xs := by
  induction xs generalizing head fuel with
  | nil =>
    rw [h.head_zero.mpr rfl]
    cases fuel <;> rfl
  | cons x xs ih =>
    have hx : head = x := h.head_eq
    have h0 : x ≠ 0 := fun e => h.pos (e ▸ (.head _))
    obtain ⟨i, rfl⟩ : ∃ i, x = i + 1 := ⟨x - 1, by omega⟩
    obtain ⟨fuel, rfl⟩ : ∃ n, fuel = n + 1 :=
      ⟨fuel - 1, by rw [length_cons] at hf; omega⟩
    rw [hx, walk, ih h.pop (by rw [length_cons] at hf; omega)]

/-- The head and the links leave no choice. -/
theorem Chain.unique {next : Nat → Nat} {head : Nat} {ys : List Nat} (hx : Chain next head xs)
    (hy : Chain next head ys) : xs = ys := by
  rw [← hx.walk_eq (Nat.le_max_left xs.length ys.length), hy.walk_eq (Nat.le_max_right xs.length ys.length)]

end Bray.Lib
