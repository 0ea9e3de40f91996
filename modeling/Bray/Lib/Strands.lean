/-
  File:      Bray/Lib/Strands.lean
  Subject:   STRANDS: a numbered set of cells, cut up into lists linked by one `next` field. Nothing
    of this repository is named here.

  Every cell `1 .. total` lies in exactly one strand, and the links inside a strand spell it. What
  a program does to such links is one of four things:

  * `Strands.cut`   -- the link of a cell is cleared: its strand falls in two;
  * `Strands.tie`   -- the link of a last cell is set: two strands become one;
  * `Strands.grow`  -- new cells are linked in front of a strand;
  * `Strands.lift`, `Strands.place` -- nothing is written, a strand only changes its place in the
    list of all strands.
-/
import Bray.Lib.Intrusive

namespace Bray.Lib

open List (flatten_cons mem_cons mem_cons_of_mem mem_cons_self)

/-- The links of `xs` spell `xs`, and the last of them is `e`. -/
def Strung (next : Nat → Nat) : List Nat → Nat → Prop
  | [], _ => True
  | x :: xs, e => next x = xs.headD e ∧ Strung next xs e

namespace Strung

variable {next next' : Nat → Nat} {xs l r : List Nat} {x e : Nat}

theorem headD_append (l r : List Nat) (e : Nat) : (l ++ r).headD e = l.headD (r.headD e) := by
  cases l <;> rfl

theorem append_iff : Strung next (l ++ r) e ↔ Strung next l (r.headD e) ∧ Strung next r e := by
  induction l with
  | nil => exact ⟨fun h => ⟨trivial, h⟩, fun h => h.2⟩
  | cons a l ih =>
    rw [List.cons_append, Strung, Strung, ih, headD_append, and_assoc]

theorem congr (h : Strung next xs e) (hn : ∀ y ∈ xs, next' y = next y) : Strung next' xs e := by
  induction xs with
  | nil => trivial
  | cons a xs ih =>
    refine ⟨?_, ih h.2 fun y hy => hn y (.tail _ hy)⟩
    rw [hn a mem_cons_self]
    exact h.1

/-- The link of the last cell is set. -/
theorem set_last {e' : Nat} (h : Strung next (l ++ [x]) e) (hx : x ∉ l) (hn : ∀ y, y ≠ x → next' y = next y)
    (hnx : next' x = e') : Strung next' (l ++ [x]) e' := by
  obtain ⟨hl, _⟩ := append_iff.mp h
  refine append_iff.mpr ⟨?_, ⟨hnx, trivial⟩⟩
  exact hl.congr fun y hy => hn y fun hyx => hx (hyx ▸ hy)

/-- A strand is a chain. -/
theorem chain (h : Strung next xs 0) (hnodup : xs.Nodup) (hpos : 0 ∉ xs) : Chain next (xs.headD 0) xs where
  head_eq := rfl
  links l x r hsplit := by
    rw [hsplit] at h
    exact (append_iff.mp h).2.1
  nodup := hnodup
  pos := hpos

end Strung

/-- The cells `1 .. total`, cut up into strands. -/
structure Strands (next : Nat → Nat) (total : Nat) (strands : List (List Nat)) : Prop where
  perm : strands.flatten.Perm (List.range' 1 total)
  strung : ∀ xs ∈ strands, Strung next xs 0

namespace Strands

open scoped List

variable {next next' : Nat → Nat} {total n i x : Nat} {xs ys l r : List Nat} {S S' : List (List Nat)}

section

variable (h : Strands next total S)
include h

theorem nodup : S.flatten.Nodup :=
  h.perm.nodup_iff.mpr (List.nodup_range' 1)

theorem mem_iff : x ∈ S.flatten ↔ x ≠ 0 ∧ x ≤ total := by
  rw [h.perm.mem_iff, List.mem_range'_1]
  omega

theorem mem_bounds (hxs : xs ∈ S) (hx : x ∈ xs) : x ≠ 0 ∧ x ≤ total :=
  h.mem_iff.mp (List.mem_flatten.mpr ⟨xs, hxs, hx⟩)

theorem strand_nodup (hxs : xs ∈ S) : xs.Nodup :=
  (List.nodup_flatten.mp h.nodup).1 xs hxs

theorem strand_chain (hxs : xs ∈ S) : Chain next (xs.headD 0) xs :=
  (h.strung xs hxs).chain (h.strand_nodup hxs) fun h0 => (h.mem_bounds hxs h0).1 rfl

theorem reorder (hperm : S.Perm S') : Strands next total S' where
  perm := (hperm.flatten.symm).trans h.perm
  strung xs hxs := h.strung xs (hperm.mem_iff.mpr hxs)

theorem cons_nil : Strands next total ([] :: S) where
  perm := h.perm
  strung xs hxs := by
    rcases mem_cons.mp hxs with rfl | hxs
    · trivial
    · exact h.strung xs hxs

/-- A strand is taken out of the list of all strands, and leaves an empty one. -/
theorem lift (hi : S[i]? = some xs) : Strands next total (xs :: S.set i []) := by
  obtain ⟨hlt, rfl⟩ := List.getElem_of_getElem? hi
  refine h.cons_nil.reorder ?_
  calc [] :: S
    _ ~ [] :: S[i] :: S.eraseIdx i := (List.getElem_cons_eraseIdx_perm hlt).symm.cons []
    _ ~ S[i] :: [] :: S.eraseIdx i := .swap _ _ _
    _ ~ S[i] :: S.set i [] := (List.set_perm_cons_eraseIdx hlt []).symm.cons _

end

/-- And put back in the place of an empty one. -/
theorem place (h : Strands next total (xs :: S)) (hi : S[i]? = some []) : Strands next total (S.set i xs) := by
  obtain ⟨hlt, hnil⟩ := List.getElem_of_getElem? hi
  have hperm : (xs :: S).Perm ([] :: S.set i xs) :=
    calc xs :: S
      _ ~ xs :: S[i] :: S.eraseIdx i := (List.getElem_cons_eraseIdx_perm hlt).symm.cons xs
      _ ~ S[i] :: xs :: S.eraseIdx i := .swap _ _ _
      _ = [] :: xs :: S.eraseIdx i := by rw [hnil]
      _ ~ [] :: S.set i xs := (List.set_perm_cons_eraseIdx hlt xs).symm.cons _
  have h' := h.reorder hperm
  exact ⟨h'.perm, fun ys hys => h'.strung ys (.tail _ hys)⟩

theorem not_mem_rest (h : Strands next total (xs :: S)) (hx : x ∈ xs) (hys : ys ∈ S) : x ∉ ys := by
  intro hxy
  have hnodup := h.nodup
  exact (List.nodup_append.mp hnodup).2.2 x hx x (List.mem_flatten.mpr ⟨ys, hys, hxy⟩) rfl

/-- **The link of a cell is cleared.** -/
theorem cut (h : Strands next total ((l ++ x :: r) :: S)) (hn : ∀ y, y ≠ x → next' y = next y)
    (hnx : next' x = 0) : Strands next' total ((l ++ [x]) :: r :: S) := by
  have hnodup := h.strand_nodup (.head _)
  have hx : x ∈ l ++ x :: r := List.mem_append_right l (.head _)
  obtain ⟨hl, hr⟩ := Strung.append_iff.mp (h.strung _ (.head _))
  refine ⟨?_, fun ys hys => ?_⟩
  · have hp := h.perm
    simp only [flatten_cons, List.append_assoc, List.cons_append, List.nil_append] at hp ⊢
    exact hp
  · rcases mem_cons.mp hys with rfl | hys
    · have hlx : Strung next (l ++ [x]) (next x) := Strung.append_iff.mpr ⟨hl, ⟨rfl, trivial⟩⟩
      exact hlx.set_last (fun hxl => (List.nodup_append.mp hnodup).2.2 x hxl x (.head _) rfl) hn hnx
    · rcases mem_cons.mp hys with rfl | hys
      · refine hr.2.congr fun y hy => hn y fun hyx => ?_
        exact (List.nodup_cons.mp (List.nodup_append.mp hnodup).2.1).1 (hyx ▸ hy)
      · refine (h.strung ys (.tail _ hys)).congr fun y hy => hn y fun hyx => ?_
        exact h.not_mem_rest hx hys (hyx ▸ hy)

/-- **The link of a last cell is set.** -/
theorem tie (h : Strands next total ((l ++ [x]) :: r :: S)) (hn : ∀ y, y ≠ x → next' y = next y)
    (hnx : next' x = r.headD 0) : Strands next' total ((l ++ x :: r) :: S) := by
  have hx : x ∈ l ++ [x] := List.mem_append_right l (.head _)
  have hnodup := h.strand_nodup (.head _)
  have hxl : x ∉ l := fun hxl => (List.nodup_append.mp hnodup).2.2 x hxl x (.head _) rfl
  refine ⟨?_, fun ys hys => ?_⟩
  · have hp := h.perm
    simp only [flatten_cons, List.append_assoc, List.cons_append, List.nil_append] at hp ⊢
    exact hp
  · rcases mem_cons.mp hys with rfl | hys
    · have hlx := (h.strung _ (.head _)).set_last hxl hn hnx
      have hr : Strung next' r 0 := by
        refine (h.strung r (.tail _ (.head _))).congr fun y hy => hn y fun hyx => ?_
        exact h.not_mem_rest hx (.head _) (hyx ▸ hy)
      have hlr := Strung.append_iff.mpr ⟨hlx, hr⟩
      rwa [List.append_assoc] at hlr
    · refine (h.strung ys (.tail _ (.tail _ hys))).congr fun y hy =>
        hn y fun hyx => ?_
      exact h.not_mem_rest hx (.tail _ hys) (hyx ▸ hy)

/-- **New cells are linked in front of a strand.** -/
theorem grow (h : Strands next total (xs :: S)) (hys : ys.Perm (List.range' (total + 1) n))
    (hn : ∀ y, y ≠ 0 → y ≤ total → next' y = next y) (hnew : Strung next' ys (xs.headD 0)) :
    Strands next' (total + n) ((ys ++ xs) :: S) := by
  have hold : ∀ zs ∈ xs :: S, Strung next' zs 0 := fun zs hzs =>
    (h.strung zs hzs).congr fun y hy => hn y (h.mem_bounds hzs hy).1 (h.mem_bounds hzs hy).2
  refine ⟨?_, fun zs hzs => ?_⟩
  · have hrange : List.range' 1 (total + n) = List.range' 1 total ++ List.range' (total + 1) n := by
      rw [← List.range'_append_1, Nat.add_comm 1 total]
    rw [flatten_cons, List.append_assoc, ← flatten_cons, hrange]
    exact List.perm_append_comm.trans (h.perm.append hys)
  · rcases mem_cons.mp hzs with rfl | hzs
    · exact Strung.append_iff.mpr ⟨hnew, hold xs (.head _)⟩
    · exact hold zs (.tail _ hzs)

end Strands

end Bray.Lib
