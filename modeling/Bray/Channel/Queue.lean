/-
  File:      Bray/Channel/Queue.lean
  Subject:   THE WAIT QUEUE OF A CHANNEL (std/channel/queue.bray) and the FIFO list it stands for.

  The queue is a list of entries with a cursor. What lies before the cursor is gone, cancelled
  entries behind it are skipped when the cursor meets them, and `compact` moves the rest down.
  `rest` is what lies behind the cursor; every operation is described by what it does to `rest`,
  and from there to the live entries in order (`view`), which is a plain queue (`Fifo`).
-/
import Bray.Lib.Run
import Mathlib.Data.List.Pairwise
import Mathlib.Order.Lattice

namespace Bray.Channel

open Bray.Lib List

structure WaiterEntry where
  ticket : Nat
  cancelled : Bool
  completed : Bool
  deriving DecidableEq, Inhabited

structure WaitQueue where
  entries : List WaiterEntry
  head : Nat
  nextTicket : Nat

namespace WaitQueue

/-! ## 1. The operations -/

def empty : WaitQueue := ⟨[], 0, 0⟩

def isEmpty (q : WaitQueue) : Bool := q.head == q.entries.length

def isHead (q : WaitQueue) (ticket : Nat) : Bool :=
  !q.isEmpty && (q.entries[q.head]?.any fun e => e.ticket == ticket)

def isHeadCompleted (q : WaitQueue) (ticket : Nat) : Bool :=
  q.isHead ticket && (q.entries[q.head]?.any fun e => e.completed)

def completeHead (q : WaitQueue) (ticket : Nat) : WaitQueue :=
  if q.isHead ticket then
    { q with entries := q.entries.modify q.head fun e => { e with completed := true } }
  else q

/-- The cursor moves over the cancelled entries; a queue that is used up is cleared. -/
def skipCancelled (q : WaitQueue) : WaitQueue :=
  let next := q.head + ((q.entries.drop q.head).takeWhile fun e => e.cancelled).length
  if next = q.entries.length then { q with entries := [], head := 0 } else { q with head := next }

def popHead (q : WaitQueue) : WaitQueue :=
  if q.isEmpty then q else { q with head := q.head + 1 }.skipCancelled

/-- The first entry behind the cursor with the ticket is cancelled. -/
def remove (q : WaitQueue) (ticket : Nat) : WaitQueue × Bool :=
  match (q.entries.drop q.head).findIdx? fun e => e.ticket == ticket with
  | some index =>
    ({ q with entries := q.entries.modify (q.head + index) fun e => { e with cancelled := true } }
      |>.skipCancelled, true)
  | none => (q, false)

/-- The loop of `compact`: `count` entries are copied from `source` on to `index` on. -/
def copyDown (entries : List WaiterEntry) (source index : Nat) : Nat → List WaiterEntry
  | 0 => entries
  | count + 1 =>
    copyDown (entries.set index (entries[source + index]?.getD default)) source (index + 1) count

def compact (q : WaitQueue) : WaitQueue :=
  if q.head < 64 ∨ q.head < q.entries.length - q.head then q
  else
    let remaining := q.entries.length - q.head
    { q with entries := (copyDown q.entries q.head 0 remaining).take remaining, head := 0 }

/-- `enqueue`, on a target whose `usize` ends at `usizeMax`: nothing when the tickets are used up
    (the source panics). -/
def enqueue (usizeMax : Nat) (q : WaitQueue) : Option (WaitQueue × Nat) :=
  let q := q.compact
  if q.nextTicket = usizeMax then none
  else some ({ q with entries := q.entries ++ [⟨q.nextTicket, false, false⟩],
                      nextTicket := q.nextTicket + 1 }, q.nextTicket)

/-! ## 2. What lies behind the cursor -/

def rest (q : WaitQueue) : List WaiterEntry := q.entries.drop q.head

/-- **The invariant**: the cursor is within the list and on a live entry, and the tickets ascend. -/
structure WellFormed (q : WaitQueue) : Prop where
  bound : q.head ≤ q.entries.length
  ascending : q.rest.Pairwise fun a b => a.ticket < b.ticket
  issued : ∀ e ∈ q.rest, e.ticket < q.nextTicket
  live : ∀ e, q.rest.head? = some e → e.cancelled = false

theorem wellFormed_empty : empty.WellFormed :=
  ⟨Nat.le_refl _, List.Pairwise.nil, fun _ h => absurd h not_mem_nil, fun _ h => by cases h⟩

theorem rest_head (q : WaitQueue) : q.rest.head? = q.entries[q.head]? := by
  rw [rest, head?_drop]

variable {q : WaitQueue}

theorem isEmpty_iff (h : q.WellFormed) : q.isEmpty = true ↔ q.rest = [] := by
  rw [isEmpty, beq_iff_eq, rest, drop_eq_nil_iff]
  have := h.bound
  omega

variable {ticket usizeMax : Nat}

theorem isHead_iff (h : q.WellFormed) :
    q.isHead ticket = true ↔ ∃ e, q.rest.head? = some e ∧ e.ticket = ticket := by
  rw [isHead, Bool.and_eq_true, Bool.not_eq_true', ← Bool.not_eq_true, isEmpty_iff h, ← rest_head]
  cases q.rest with
  | nil => simp
  | cons e rest => simp

theorem isHeadCompleted_iff (h : q.WellFormed) : q.isHeadCompleted ticket = true ↔
      ∃ e, q.rest.head? = some e ∧ e.ticket = ticket ∧ e.completed = true := by
  rw [isHeadCompleted, Bool.and_eq_true, isHead_iff h, ← rest_head]
  cases q.rest with
  | nil => simp
  | cons e rest => simp

theorem drop_takeWhile_length {α : Type} (p : α → Bool) (l : List α) :
    l.drop (l.takeWhile p).length = l.dropWhile p := by
  induction l with
  | nil => rfl
  | cons a l ih =>
    cases h : p a with
    | true => simpa [h] using ih
    | false => simp [h]

theorem rest_skipCancelled (q : WaitQueue) : q.skipCancelled.rest = q.rest.dropWhile fun e => e.cancelled := by
  have drop := drop_takeWhile_length (fun e : WaiterEntry => e.cancelled) q.rest
  unfold skipCancelled
  simp only
  split
  · rename_i hnext
    -- everything behind the cursor is cancelled
    have : q.rest.dropWhile (fun e => e.cancelled) = [] := by
      rw [← drop, rest, drop_drop]
      exact drop_of_length_le hnext.ge
    rw [this]
    rfl
  · rw [← drop]
    simp only [rest, drop_drop]

theorem skipCancelled_bound (h : q.head ≤ q.entries.length) :
    q.skipCancelled.head ≤ q.skipCancelled.entries.length := by
  unfold skipCancelled
  simp only
  split
  · exact Nat.zero_le _
  · have : ((q.entries.drop q.head).takeWhile fun e => e.cancelled).length ≤
        (q.entries.drop q.head).length := (takeWhile_sublist _).length_le
    rw [length_drop] at this
    show q.head + _ ≤ q.entries.length
    omega

@[simp] theorem skipCancelled_nextTicket (q : WaitQueue) : q.skipCancelled.nextTicket = q.nextTicket := by
  unfold skipCancelled
  simp only
  split <;> rfl

/-- Skipping the cancelled entries leaves a well-formed queue. -/
theorem wellFormed_skipCancelled (hb : q.head ≤ q.entries.length)
    (ha : q.rest.Pairwise fun a b => a.ticket < b.ticket)
    (hi : ∀ e ∈ q.rest, e.ticket < q.nextTicket) : q.skipCancelled.WellFormed where
  bound := skipCancelled_bound hb
  ascending := by
    rw [rest_skipCancelled]
    exact ha.sublist (dropWhile_sublist _)
  issued := by
    intro e he
    rw [rest_skipCancelled] at he
    rw [skipCancelled_nextTicket]
    exact hi e ((dropWhile_sublist _).subset he)
  live := by
    intro e he
    rw [rest_skipCancelled] at he
    have := head?_dropWhile_not (fun e : WaiterEntry => e.cancelled) q.rest
    rw [he] at this
    simpa using this

theorem rest_completeHead (h : q.WellFormed) (ticket : Nat) : (q.completeHead ticket).rest =
      q.rest.modifyHead fun e => if e.ticket = ticket then { e with completed := true } else e := by
  unfold completeHead
  split
  · rename_i hh
    obtain ⟨e, he, ht⟩ := (isHead_iff h).mp hh
    obtain ⟨tail, hr⟩ : ∃ tail, q.rest = e :: tail := by
      cases hr : q.rest with
      | nil => rw [hr] at he; cases he
      | cons a tail => rw [hr] at he; cases he; exact ⟨tail, rfl⟩
    subst ht
    rw [hr, modifyHead_cons, if_pos rfl]
    rw [rest] at hr
    simp only [rest]
    rw [drop_modify_of_ge _ _ _ _ (Nat.le_refl _), Nat.sub_self, hr]
    rfl
  · rename_i hh
    cases hr : q.rest with
    | nil => rfl
    | cons e tail =>
      have : e.ticket ≠ ticket := fun ht => hh ((isHead_iff h).mpr ⟨e, by rw [hr]; rfl, ht⟩)
      rw [modifyHead_cons, if_neg this]

theorem rest_popHead (q : WaitQueue) (h : q.WellFormed) :
    q.popHead.rest = q.rest.tail.dropWhile fun e => e.cancelled := by
  unfold popHead
  split
  · rename_i he
    rw [(isEmpty_iff h).mp he]
    rfl
  · rw [rest_skipCancelled]
    simp only [rest, tail_drop]

/-- The loop of `compact` brings the part behind the cursor to the front. -/
theorem take_copyDown (entries : List WaiterEntry) (source index count : Nat)
    (hb : source + index + count ≤ entries.length) : (copyDown entries source index count).take (index + count) =
      entries.take index ++ (entries.drop (source + index)).take count := by
  induction count generalizing entries index with
  | zero => simp [copyDown]
  | succ count ih =>
    have hs : source + index < entries.length := by omega
    have hi : index < entries.length := by omega
    rw [copyDown, show index + (count + 1) = index + 1 + count by omega, ih]
    · rw [getElem?_eq_getElem hs, Option.getD_some, take_add_one,
        getElem?_set_self hi, take_set_of_le (Nat.le_refl _), Option.toList_some,
        append_assoc]
      congr 1
      rw [drop_set_of_lt (by omega), drop_eq_getElem_cons hs, take_succ_cons]
      rfl
    · rw [length_set]
      omega

theorem rest_compact (h : q.head ≤ q.entries.length) : q.compact.rest = q.rest := by
  unfold compact
  split
  · rfl
  · have := take_copyDown q.entries q.head 0 (q.entries.length - q.head) (by omega)
    simp only [Nat.zero_add, Nat.add_zero, take_zero, nil_append] at this
    simp only [rest, drop_zero]
    rw [this, take_of_length_le (Nat.le_of_eq length_drop)]

@[simp] theorem compact_nextTicket (q : WaitQueue) : q.compact.nextTicket = q.nextTicket := by
  unfold compact
  split <;> rfl

theorem compact_bound (h : q.head ≤ q.entries.length) : q.compact.head ≤ q.compact.entries.length := by
  unfold compact
  split
  · exact h
  · exact Nat.zero_le _

/-- Cancelling, on the entries behind the cursor. -/
def mark (ticket : Nat) (e : WaiterEntry) : WaiterEntry :=
  if e.ticket = ticket then { e with cancelled := true } else e

@[simp] theorem mark_ticket (ticket : Nat) (e : WaiterEntry) : (mark ticket e).ticket = e.ticket := by
  unfold mark
  split <;> rfl

/-- In a list with ascending tickets the first entry with the ticket is the only one. -/
theorem modify_findIdx {l : List WaiterEntry} (ha : l.Pairwise fun a b => a.ticket < b.ticket)
    (ticket index : Nat) (hf : l.findIdx? (fun e => e.ticket == ticket) = some index) :
    l.modify index (fun e => { e with cancelled := true }) = l.map (mark ticket) := by
  induction l generalizing index with
  | nil => cases hf
  | cons e l ih =>
    rw [findIdx?_cons] at hf
    by_cases he : e.ticket = ticket
    · rw [if_pos (by simpa using he)] at hf
      obtain rfl : 0 = index := Option.some.inj hf
      have rest : l.map (mark ticket) = l.map id := by
        refine map_congr_left fun a ha' => ?_
        have := rel_of_pairwise_cons ha ha'
        exact if_neg (by omega)
      rw [map_cons, rest, map_id, modify_zero_cons]
      rw [mark, if_pos he]
    · rw [if_neg (by simpa using he)] at hf
      obtain ⟨i, hi, rfl⟩ := Option.map_eq_some_iff.mp hf
      rw [modify_succ_cons, map_cons, ih ha.of_cons i hi, mark, if_neg he]

theorem rest_remove (h : q.WellFormed) (ticket : Nat) :
    (q.remove ticket).1.rest = (q.rest.map (mark ticket)).dropWhile fun e => e.cancelled := by
  unfold remove
  split
  · rename_i index hf
    rw [rest_skipCancelled, ← modify_findIdx h.ascending ticket index hf]
    simp only [rest]
    rw [drop_modify_of_ge _ _ _ _ (Nat.le_add_right _ _), Nat.add_sub_cancel_left]
  · rename_i hf
    have none : ∀ e ∈ q.rest, mark ticket e = e := by
      intro e he
      have := findIdx?_eq_none_iff.mp hf e he
      exact if_neg (by simpa using this)
    have same : q.rest.map (mark ticket) = q.rest :=
      (map_congr_left none).trans (map_id _)
    rw [same]
    cases hr : q.rest with
    | nil => rfl
    | cons e tail =>
      have : e.cancelled = false := h.live e (by rw [hr]; rfl)
      rw [dropWhile_cons, this]
      rfl

theorem remove_nextTicket (q : WaitQueue) (ticket : Nat) : (q.remove ticket).1.nextTicket = q.nextTicket := by
  unfold remove
  split
  · rw [skipCancelled_nextTicket]
  · rfl

@[simp] theorem completeHead_nextTicket (q : WaitQueue) (ticket : Nat) :
    (q.completeHead ticket).nextTicket = q.nextTicket := by
  unfold completeHead
  split <;> rfl

@[simp] theorem popHead_nextTicket (q : WaitQueue) : q.popHead.nextTicket = q.nextTicket := by
  unfold popHead
  split
  · rfl
  · rw [skipCancelled_nextTicket]

theorem wellFormed_completeHead (h : q.WellFormed) (ticket : Nat) : (q.completeHead ticket).WellFormed := by
  have hrest := rest_completeHead h ticket
  refine ⟨?_, ?_, ?_, ?_⟩
  · unfold completeHead
    split
    · simpa using h.bound
    · exact h.bound
  · rw [hrest]
    have := h.ascending
    cases hr : q.rest with
    | nil => exact List.Pairwise.nil
    | cons e tail =>
      rw [hr] at this
      rw [modifyHead_cons, pairwise_cons] at *
      refine ⟨fun b hb => ?_, this.2⟩
      have := this.1 b hb
      split <;> exact this
  · rw [hrest, completeHead_nextTicket]
    have := h.issued
    cases hr : q.rest with
    | nil => intro e he; cases he
    | cons e tail =>
      rw [hr] at this
      rw [modifyHead_cons]
      intro a ha
      rcases mem_cons.mp ha with rfl | ha
      · have := this e (.head _)
        split <;> exact this
      · exact this a (.tail _ ha)
  · rw [hrest]
    have := h.live
    cases hr : q.rest with
    | nil => intro e he; cases he
    | cons e tail =>
      rw [hr] at this
      intro a ha
      rw [modifyHead_cons, head?_cons, Option.some.injEq] at ha
      have he := this e rfl
      rw [← ha]
      split <;> exact he

theorem wellFormed_popHead (h : q.WellFormed) : q.popHead.WellFormed := by
  unfold popHead
  split
  · exact h
  · rename_i he
    have hlt : q.head < q.entries.length := by
      have := h.bound
      have hne : q.head ≠ q.entries.length := fun e => he (beq_iff_eq.mpr e)
      omega
    have htail : ({ q with head := q.head + 1 } : WaitQueue).rest = q.rest.tail := by
      simp only [rest, tail_drop]
    refine wellFormed_skipCancelled hlt ?_ ?_
    · rw [htail]
      exact h.ascending.sublist (tail_sublist _)
    · rw [htail]
      exact fun e he => h.issued e (mem_of_mem_tail he)

theorem wellFormed_remove (h : q.WellFormed) (ticket : Nat) : (q.remove ticket).1.WellFormed := by
  unfold remove
  split
  · rename_i index hf
    have hrest : (⟨q.entries.modify (q.head + index) fun e => { e with cancelled := true }, q.head,
        q.nextTicket⟩ : WaitQueue).rest = q.rest.map (mark ticket) := by
      rw [← modify_findIdx h.ascending ticket index hf]
      simp only [rest]
      rw [drop_modify_of_ge _ _ _ _ (Nat.le_add_right _ _), Nat.add_sub_cancel_left]
    refine wellFormed_skipCancelled ?_ ?_ ?_
    · simpa using h.bound
    · rw [hrest, pairwise_map]
      exact h.ascending.imp fun hlt => by simpa using hlt
    · rw [hrest]
      intro e he
      obtain ⟨a, ha, rfl⟩ := mem_map.mp he
      simpa using h.issued a ha
  · exact h

theorem enqueue_eq {q' : WaitQueue} (he : q.enqueue usizeMax = some (q', ticket)) :
    ticket = q.nextTicket ∧ q.nextTicket ≠ usizeMax ∧
      q' = { q.compact with entries := q.compact.entries ++ [⟨q.nextTicket, false, false⟩],
                            nextTicket := q.nextTicket + 1 } := by
  simp only [enqueue, compact_nextTicket] at he
  split at he
  · cases he
  · rename_i hne
    obtain ⟨rfl, rfl⟩ := Prod.mk.inj (Option.some.inj he)
    exact ⟨rfl, hne, rfl⟩

theorem rest_enqueue {q' : WaitQueue} (h : q.WellFormed) (he : q.enqueue usizeMax = some (q', ticket)) :
    q'.rest = q.rest ++ [⟨q.nextTicket, false, false⟩] := by
  obtain ⟨-, -, rfl⟩ := enqueue_eq he
  simp only [rest]
  rw [drop_append_of_le_length (compact_bound h.bound)]
  have := rest_compact h.bound
  rw [rest, rest] at this
  rw [this]

theorem wellFormed_enqueue {q' : WaitQueue} (h : q.WellFormed)
    (he : q.enqueue usizeMax = some (q', ticket)) : q'.WellFormed := by
  have hrest := rest_enqueue h he
  obtain ⟨-, -, rfl⟩ := enqueue_eq he
  refine ⟨?_, ?_, ?_, ?_⟩
  · have := compact_bound h.bound
    show q.compact.head ≤ (q.compact.entries ++ _).length
    rw [length_append]
    omega
  · rw [hrest, pairwise_append]
    refine ⟨h.ascending, pairwise_singleton _ _, fun a ha b hb => ?_⟩
    rw [mem_singleton.mp hb]
    exact h.issued a ha
  · rw [hrest]
    intro e he
    rcases mem_append.mp he with he | he
    · exact Nat.lt_succ_of_lt (h.issued e he)
    · rw [mem_singleton.mp he]
      exact Nat.lt_succ_self _
  · rw [hrest]
    intro e he
    cases hr : q.rest with
    | nil =>
      rw [hr] at he
      cases he
      rfl
    | cons a tail =>
      rw [hr] at he
      exact h.live e (by rw [hr]; exact he)

end WaitQueue

/-! ## 3. The plain queue -/

/-- **What a wait queue is for**: the live tickets in order, each with its completion mark, and the
    next ticket. -/
structure Fifo where
  line : List (Nat × Bool)
  next : Nat

namespace Fifo

def empty : Fifo := ⟨[], 0⟩

def tickets (f : Fifo) : List Nat := f.line.map Prod.fst

def enqueue (f : Fifo) : Fifo := ⟨f.line ++ [(f.next, false)], f.next + 1⟩

def completeHead (f : Fifo) (ticket : Nat) : Fifo :=
  { f with line := f.line.modifyHead fun w => if w.1 = ticket then (w.1, true) else w }

def popHead (f : Fifo) : Fifo := { f with line := f.line.tail }

def remove (f : Fifo) (ticket : Nat) : Fifo :=
  { f with line := f.line.filter fun w => w.1 != ticket }

end Fifo

namespace WaitQueue

def liveOf (entries : List WaiterEntry) : List (Nat × Bool) :=
  (entries.filter fun e => !e.cancelled).map fun e => (e.ticket, e.completed)

/-- The plain queue a wait queue stands for. -/
def view (q : WaitQueue) : Fifo := ⟨liveOf q.rest, q.nextTicket⟩

theorem liveOf_cons (e : WaiterEntry) (l : List WaiterEntry) :
    liveOf (e :: l) = if e.cancelled then liveOf l else (e.ticket, e.completed) :: liveOf l := by
  unfold liveOf
  cases h : e.cancelled with
  | true => simp [h]
  | false => simp [h]

theorem liveOf_dropWhile (l : List WaiterEntry) : liveOf (l.dropWhile fun e => e.cancelled) = liveOf l := by
  induction l with
  | nil => rfl
  | cons e l ih =>
    rw [dropWhile_cons, liveOf_cons]
    cases h : e.cancelled with
    | true => simpa [h] using ih
    | false => simp [h, liveOf_cons]

theorem liveOf_map_mark (ticket : Nat) (l : List WaiterEntry) :
    liveOf (l.map (mark ticket)) = (liveOf l).filter fun w => w.1 != ticket := by
  induction l with
  | nil => rfl
  | cons e l ih =>
    rw [map_cons, liveOf_cons, liveOf_cons, ih]
    by_cases he : e.ticket = ticket
    · cases e.cancelled <;> simp [mark, he]
    · cases h : e.cancelled <;> simp [mark, he, h]

variable {q : WaitQueue}

/-- A well-formed queue starts with its first live entry. -/
theorem liveOf_rest (h : q.WellFormed) : (q.rest = [] ∧ q.view.line = []) ∨
      ∃ e tail, q.rest = e :: tail ∧ q.view.line = (e.ticket, e.completed) :: liveOf tail := by
  unfold view
  cases hr : q.rest with
  | nil => exact .inl ⟨rfl, rfl⟩
  | cons e tail =>
    have : e.cancelled = false := h.live e (by rw [hr]; rfl)
    exact .inr ⟨e, tail, rfl, by rw [liveOf_cons, this]; rfl⟩

theorem view_completeHead (h : q.WellFormed) (ticket : Nat) :
    (q.completeHead ticket).view = q.view.completeHead ticket := by
  have hrest := rest_completeHead h ticket
  unfold view Fifo.completeHead
  rw [hrest, completeHead_nextTicket]
  congr 1
  cases hr : q.rest with
  | nil => rfl
  | cons e tail =>
    have : e.cancelled = false := h.live e (by rw [hr]; rfl)
    rw [modifyHead_cons, liveOf_cons, liveOf_cons, this]
    by_cases he : e.ticket = ticket
    · simp [he]
    · simp [he, this]

theorem view_popHead (h : q.WellFormed) : q.popHead.view = q.view.popHead := by
  unfold view Fifo.popHead
  rw [rest_popHead q h, liveOf_dropWhile, popHead_nextTicket]
  congr 1
  cases hr : q.rest with
  | nil => rfl
  | cons e tail =>
    have : e.cancelled = false := h.live e (by rw [hr]; rfl)
    rw [liveOf_cons, this]
    rfl

theorem view_remove (h : q.WellFormed) (ticket : Nat) : (q.remove ticket).1.view = q.view.remove ticket := by
  unfold view Fifo.remove
  rw [rest_remove h, liveOf_dropWhile, liveOf_map_mark, remove_nextTicket]

variable {ticket : Nat}

theorem view_enqueue {usizeMax : Nat} {q' : WaitQueue} (h : q.WellFormed)
    (he : q.enqueue usizeMax = some (q', ticket)) : q'.view = q.view.enqueue ∧ ticket = q.view.next := by
  have hrest := rest_enqueue h he
  obtain ⟨rfl, -, rfl⟩ := enqueue_eq he
  refine ⟨?_, rfl⟩
  unfold view Fifo.enqueue
  rw [hrest]
  simp [liveOf]

/-- The answer of `remove`: some entry behind the cursor has the ticket. -/
theorem remove_answer (q : WaitQueue) (ticket : Nat) :
    (q.remove ticket).2 = true ↔ ticket ∈ q.rest.map WaiterEntry.ticket := by
  unfold remove
  split
  · rename_i index hf
    have := (findIdx?_eq_some_iff_getElem.mp hf)
    obtain ⟨hlt, hp, -⟩ := this
    simp only [true_iff, mem_map]
    exact ⟨_, getElem_mem hlt, by simpa using hp⟩
  · rename_i hf
    have := findIdx?_eq_none_iff.mp hf
    simp only [Bool.false_eq_true, false_iff, mem_map, not_exists, not_and]
    intro e he ht
    simpa [ht] using this e he

theorem mem_tickets_view (h : ticket ∈ q.view.tickets) : ticket ∈ q.rest.map WaiterEntry.ticket := by
  obtain ⟨w, hw, rfl⟩ := mem_map.mp h
  obtain ⟨e, he, rfl⟩ := mem_map.mp hw
  exact mem_map_of_mem (mem_filter.mp he).1

theorem isEmpty_view (h : q.WellFormed) : q.isEmpty = true ↔ q.view.line = [] := by
  rw [isEmpty_iff h]
  obtain ⟨hr, hv⟩ | ⟨e, tail, hr, hv⟩ := liveOf_rest h
  · simp [hr, hv]
  · simp [hr, hv]

theorem isHead_view (h : q.WellFormed) :
    q.isHead ticket = true ↔ ∃ done tail, q.view.line = (ticket, done) :: tail := by
  rw [isHead_iff h]
  obtain ⟨hr, hv⟩ | ⟨e, tail, hr, hv⟩ := liveOf_rest h
  · simp [hr, hv]
  · rw [hr, hv]
    constructor
    · rintro ⟨a, ha, rfl⟩
      cases ha
      exact ⟨_, _, rfl⟩
    · rintro ⟨done, t, hc⟩
      exact ⟨e, rfl, (Prod.mk.inj (List.cons.inj hc).1).1⟩

theorem isHeadCompleted_view (h : q.WellFormed) :
    q.isHeadCompleted ticket = true ↔ ∃ tail, q.view.line = (ticket, true) :: tail := by
  rw [isHeadCompleted_iff h]
  obtain ⟨hr, hv⟩ | ⟨e, tail, hr, hv⟩ := liveOf_rest h
  · simp [hr, hv]
  · rw [hr, hv]
    constructor
    · rintro ⟨a, ha, rfl, hc⟩
      cases ha
      exact ⟨_, by rw [hc]⟩
    · rintro ⟨t, hc⟩
      have := Prod.mk.inj (List.cons.inj hc).1
      exact ⟨e, rfl, this.1, this.2⟩

end WaitQueue

/-! ## 4. Every sequence of operations -/

inductive QueueOp where
  | enqueue
  | completeHead (ticket : Nat)
  | popHead
  | remove (ticket : Nat)

inductive QueueAnswer where
  | ticket (ticket : Nat)
  | done
  | removed (found : Bool)

/-- The tickets of the target are used up. -/
inductive QueueFault where
  | exhausted

def WaitQueue.step (usizeMax : Nat) (q : WaitQueue) :
    QueueOp → Except QueueFault (WaitQueue × QueueAnswer)
  | .enqueue => match q.enqueue usizeMax with
    | some (q', ticket) => .ok (q', .ticket ticket)
    | none => .error .exhausted
  | .completeHead ticket => .ok (q.completeHead ticket, .done)
  | .popHead => .ok (q.popHead, .done)
  | .remove ticket => .ok ((q.remove ticket).1, .removed (q.remove ticket).2)

/-- What the plain queue does, and the answers it allows: of a ticket that is not in the line
    nothing is asked. -/
inductive Fifo.Steps (f : Fifo) : QueueOp → QueueAnswer → Fifo → Prop where
  | enqueue : Steps f .enqueue (.ticket f.next) f.enqueue
  | completeHead (ticket : Nat) : Steps f (.completeHead ticket) .done (f.completeHead ticket)
  | popHead : Steps f .popHead .done f.popHead
  | remove (ticket : Nat) (found : Bool) (hf : ticket ∈ f.tickets → found = true) :
    Steps f (.remove ticket) (.removed found) (f.remove ticket)

/-- A sequence of steps of the plain queue. -/
inductive Fifo.Follows : Fifo → List (QueueOp × QueueAnswer) → Fifo → Prop where
  | nil (f : Fifo) : Follows f [] f
  | snoc {f f' f'' : Fifo} {tr : List (QueueOp × QueueAnswer)} {op : QueueOp} {a : QueueAnswer}
    (h : Follows f tr f') (hs : f'.Steps op a f'') : Follows f (tr ++ [(op, a)]) f''

namespace WaitQueue

section

variable {usizeMax : Nat} {q q' : WaitQueue} {op : QueueOp} {a : QueueAnswer}
variable (h : q.WellFormed) (hs : q.step usizeMax op = .ok (q', a))
include h hs

theorem wellFormed_step : q'.WellFormed := by
  cases op with
  | enqueue =>
    simp only [step] at hs
    split at hs
    · rename_i he
      cases hs
      exact wellFormed_enqueue h he
    · cases hs
  | completeHead ticket => cases hs; exact wellFormed_completeHead h ticket
  | popHead => cases hs; exact wellFormed_popHead h
  | remove ticket => cases hs; exact wellFormed_remove h ticket

theorem view_step : q.view.Steps op a q'.view := by
  cases op with
  | enqueue =>
    simp only [step] at hs
    split at hs
    · rename_i he
      cases hs
      obtain ⟨hv, ht⟩ := view_enqueue h he
      rw [hv, ht]
      exact .enqueue
    · cases hs
  | completeHead ticket =>
    cases hs
    rw [view_completeHead h]
    exact .completeHead ticket
  | popHead =>
    cases hs
    rw [view_popHead h]
    exact .popHead
  | remove ticket =>
    cases hs
    rw [view_remove h]
    exact .remove ticket _ fun ht => (remove_answer q ticket).mpr (mem_tickets_view ht)

end

/-- **A wait queue refines the plain queue**, whatever is done to it. -/
theorem refines {usizeMax : Nat} {tr : List (QueueOp × QueueAnswer)} {q : WaitQueue}
    (h : Run (step usizeMax) empty tr q) : q.WellFormed ∧ Fifo.empty.Follows tr q.view := by
  refine Run.invariant_trace
    (P := fun tr q => q.WellFormed ∧ Fifo.empty.Follows tr q.view) ?_ h
    ⟨wellFormed_empty, .nil _⟩
  intro tr s i s' o hP hs
  exact ⟨wellFormed_step hP.1 hs, .snoc hP.2 (view_step hP.1 hs)⟩

end WaitQueue

end Bray.Channel
