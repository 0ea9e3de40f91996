/-
  File:      Bray/Scheduler/Layout.lean
  Subject:   HOW A STATE SPELLS ITS LISTS. The representation invariant of the two arenas and
             the effect of every link operation on it.

  A `View` names what the links are supposed to spell: the active lane headers in their order,
  the entries of every header in theirs, and the two free lists. `Layout s v` says the links of
  `s` spell `v`, that members sit in the lane of their header, that active lanes are distinct,
  and that every header is either active or free.

  Each operation of Queue.lean has ONE lemma here. It says that the operation succeeds on a
  state laid out as `v`, that the result is laid out as the list operation of `v`
  (`View.drop`, `View.rotate`, `View.enter`), and what it leaves alone (`Frame`). Nothing after
  this file looks at a link again.
-/
import Bray.Lib.Intrusive
import Bray.Scheduler.Dispatch

namespace Bray.Scheduler

open Bray.Lib List Function

/-! ## 1. Reads and writes inside the arenas -/

section Access

variable {s : State} {i : Nat}

@[simp] theorem ok_bind {ε α β : Type} (a : α) (f : α → Except ε β) : (Except.ok a >>= f) = f a :=
  rfl

theorem bind_of_ok {ε α β : Type} {x : Except ε α} {a : α} (h : x = .ok a) (f : α → Except ε β) :
    (x >>= f) = f a := by
  rw [h]; rfl

@[simp] theorem pure_ok {ε α : Type} (a : α) : (pure a : Except ε α) = .ok a := rfl

theorem entry_ok (h : s.HasRow i) : entry s i = .ok (s.row i) := by
  unfold entry
  cases he : s.entries with
  | none =>
    have : s.entryCount = 0 := by simp [State.entryCount, State.entryRows, he]
    have := h.2
    have := h.1
    omega
  | some b => simp [h]

theorem queue_ok (h : s.HasHeader i) : queue s i = .ok (s.header i) := by
  unfold queue
  cases he : s.queues with
  | none =>
    have : s.queueCount = 0 := by simp [State.queueCount, State.queueRows, he]
    have := h.2
    have := h.1
    omega
  | some b => simp [h]

theorem modifyEntry_ok (h : s.HasRow i) (f : Entry → Entry) :
    modifyEntry s i f = .ok (s.setRow i (f (s.row i))) := by
  simp only [modifyEntry, entry_ok h]
  rfl

theorem modifyQueue_ok (h : s.HasHeader i) (f : Queue → Queue) :
    modifyQueue s i f = .ok (s.setHeader i (f (s.header i))) := by
  simp only [modifyQueue, queue_ok h]
  rfl

theorem sameLane_iff {a b : Lane} : sameLane a b = true ↔ a = b := by
  cases a; cases b
  simp [sameLane, and_assoc]

end Access

def Entry.core (row : Entry) : Entry := { row with next := 0, previous := 0 }

theorem Entry.lane_of_core {a b : Entry} (h : a.core = b.core) : a.lane = b.lane := by
  have : a.core.lane = b.core.lane := by rw [h]
  exact this

theorem Entry.queue_of_core {a b : Entry} (h : a.core = b.core) : a.queue = b.queue := by
  have : a.core.queue = b.core.queue := by rw [h]
  exact this

/-- What the link operations leave alone: storage sizes, the slot counter, the waiters, the free
    entries, the lanes of the headers, and every entry up to its links. -/
structure Frame (s s' : State) : Prop where
  entryCount : s'.entryCount = s.entryCount
  queueCount : s'.queueCount = s.queueCount
  entryCapacity : s'.entries.map RawBuffer.capacity = s.entries.map RawBuffer.capacity
  queueCapacity : s'.queues.map RawBuffer.capacity = s.queues.map RawBuffer.capacity
  free : s'.free = s.free
  running : s'.running = s.running
  waiters : s'.waiters = s.waiters

namespace Frame

variable {s s' s'' : State}

theorem refl (s : State) : Frame s s := ⟨rfl, rfl, rfl, rfl, rfl, rfl, rfl⟩

theorem trans (h : Frame s s') (h' : Frame s' s'') : Frame s s'' where
  entryCount := h'.entryCount.trans h.entryCount
  queueCount := h'.queueCount.trans h.queueCount
  entryCapacity := h'.entryCapacity.trans h.entryCapacity
  queueCapacity := h'.queueCapacity.trans h.queueCapacity
  free := h'.free.trans h.free
  running := h'.running.trans h.running
  waiters := h'.waiters.trans h.waiters

theorem setRow (s : State) (i : Nat) (e : Entry) : Frame s (s.setRow i e) where
  entryCount := State.entryCount_setRow
  queueCount := rfl
  entryCapacity := by cases h : s.entries <;> simp [State.setRow, h, RawBuffer.setRow]
  queueCapacity := rfl
  free := rfl
  running := rfl
  waiters := rfl

theorem setHeader (s : State) (i : Nat) (q : Queue) : Frame s (s.setHeader i q) where
  entryCount := rfl
  queueCount := State.queueCount_setHeader
  entryCapacity := rfl
  queueCapacity := by cases h : s.queues <;> simp [State.setHeader, h, RawBuffer.setRow]
  free := rfl
  running := rfl
  waiters := rfl

theorem hasRow (h : Frame s s') {i : Nat} : s'.HasRow i ↔ s.HasRow i := by
  simp [State.HasRow, h.entryCount]

theorem hasHeader (h : Frame s s') {i : Nat} : s'.HasHeader i ↔ s.HasHeader i := by
  simp [State.HasHeader, h.queueCount]

end Frame

/-! ## 2. The view of a state -/

/-- What the links of a state spell. -/
structure View where
  active : List Nat
  members : Nat → List Nat
  freeQueues : List Nat
  freeEntries : List Nat

namespace View

/-- An entry that is in no list. -/
def Loose (v : View) (e : Nat) : Prop := (∀ q ∈ v.active, e ∉ v.members q) ∧ e ∉ v.freeEntries

/-- The header `q` holds the entries `xs` from here on. -/
def hold (v : View) (q : Nat) (xs : List Nat) : View :=
  { v with members := Function.update v.members q xs }

/-- The entry `e` leaves the header `q`; an emptied header becomes free. -/
def drop (v : View) (q e : Nat) : View :=
  if (v.members q).erase e = [] then
    { v.hold q [] with active := v.active.erase q, freeQueues := q :: v.freeQueues }
  else v.hold q ((v.members q).erase e)

/-- The header `q` moves behind the other active headers. -/
def rotate (v : View) (q : Nat) : View := { v with active := v.active.erase q ++ [q] }

/-- The entry `e` joins the active header `q` as its last member. -/
def join (v : View) (q e : Nat) : View := v.hold q (v.members q ++ [e])

/-- The free header `q` becomes the last active one, with no members yet. -/
def activate (v : View) (q : Nat) : View :=
  { v.hold q [] with active := v.active ++ [q], freeQueues := v.freeQueues.erase q }

end View

/-- **The links of `s` spell `v`.** -/
structure Layout (s : State) (v : View) : Prop where
  lanes : Linked (fun i => (s.header i).next) (fun i => (s.header i).previous) s.head s.tail v.active
  queues : ∀ q ∈ v.active, Linked (fun i => (s.row i).next) (fun i => (s.row i).previous)
    (s.header q).head (s.header q).tail (v.members q)
  own : ∀ q ∈ v.active, ∀ e ∈ v.members q, s.HasRow e ∧ (s.row e).lane = (s.header q).lane ∧ (s.row e).queue = q
  distinct : ∀ p ∈ v.active, ∀ q ∈ v.active, (s.header p).lane = (s.header q).lane → p = q
  freeQueue : Chain (fun i => (s.header i).next) s.freeQueue v.freeQueues
  unused : ∀ q ∈ v.freeQueues, (s.header q).head = 0
  headers : ∀ q, s.HasHeader q ↔ q ∈ v.active ∨ q ∈ v.freeQueues
  apart : ∀ q ∈ v.active, q ∉ v.freeQueues
  freeEntry : Chain (fun i => (s.row i).next) s.free v.freeEntries
  freeRow : ∀ e ∈ v.freeEntries, s.HasRow e
  freeApart : ∀ q ∈ v.active, ∀ e ∈ v.members q, e ∉ v.freeEntries
  cached : ∀ e, s.HasRow e → (s.row e).queue ≤ s.queueCount

namespace Layout

variable {s : State} {v : View}

theorem hasHeader (h : Layout s v) {q : Nat} (hq : q ∈ v.active) : s.HasHeader q :=
  (h.headers q).mpr (.inl hq)

/-- A member determines its header. -/
theorem member_unique (h : Layout s v) {p q e : Nat} (hp : p ∈ v.active) (hq : q ∈ v.active)
    (hep : e ∈ v.members p) (heq : e ∈ v.members q) : p = q :=
  (h.own p hp e hep).2.2.symm.trans (h.own q hq e heq).2.2

/-- The layout depends on the initialized rows and the list ends only. -/
theorem of_eq {s' : State} (h : Layout s v) (he : s'.entryRows = s.entryRows)
    (hq : s'.queueRows = s.queueRows) (h1 : s'.freeQueue = s.freeQueue) (h2 : s'.free = s.free)
    (h3 : s'.head = s.head) (h4 : s'.tail = s.tail) : Layout s' v := by
  have er : s'.row = s.row := by funext i; simp only [State.row, he]
  have eh : s'.header = s.header := by funext i; simp only [State.header, hq]
  have ec : s'.entryCount = s.entryCount := by simp only [State.entryCount, he]
  have eq : s'.queueCount = s.queueCount := by simp only [State.queueCount, hq]
  obtain ⟨a, b, c, d, e, f, g, i, j, k, l, m⟩ := h
  refine ⟨?_, ?_, ?_, ?_, ?_, ?_, ?_, i, ?_, ?_, l, ?_⟩ <;>
    simp only [State.HasRow, State.HasHeader, er, eh, ec, eq, h1, h2, h3, h4] <;> assumption

/-- **An entry changes, its place in the lists does not.** -/
theorem setRow (h : Layout s v) {e : Nat} {r : Entry} (he : s.HasRow e)
    (hm : ∀ q ∈ v.active, e ∈ v.members q → r.next = (s.row e).next ∧
      r.previous = (s.row e).previous ∧ r.lane = (s.row e).lane ∧ r.queue = (s.row e).queue)
    (hf : e ∈ v.freeEntries → r.next = (s.row e).next) (hc : r.queue ≤ s.queueCount) :
    Layout (s.setRow e r) v where
  lanes := h.lanes
  queues q hq := by
    refine (h.queues q hq).congr (fun y hy => ?_) (fun y hy => ?_)
    · rw [State.row_setRow he]
      split
      · rename_i e'; subst e'; exact (hm q hq hy).1
      · rfl
    · rw [State.row_setRow he]
      split
      · rename_i e'; subst e'; exact (hm q hq hy).2.1
      · rfl
  own q hq y hy := by
    obtain ⟨h1, h2, h3⟩ := h.own q hq y hy
    rw [State.row_setRow he]
    refine ⟨State.hasRow_setRow.mpr h1, ?_⟩
    split
    · rename_i e'; subst e'
      rw [(hm q hq hy).2.2.1, (hm q hq hy).2.2.2]; exact ⟨h2, h3⟩
    · exact ⟨h2, h3⟩
  distinct := h.distinct
  freeQueue := h.freeQueue
  unused := h.unused
  headers := h.headers
  apart := h.apart
  freeEntry := by
    refine h.freeEntry.congr fun y hy => ?_
    rw [State.row_setRow he]
    split
    · rename_i e'; subst e'; exact hf hy
    · rfl
  freeRow y hy := State.hasRow_setRow.mpr (h.freeRow y hy)
  freeApart := h.freeApart
  cached y hy := by
    rw [State.row_setRow he]
    split
    · exact hc
    · exact h.cached y (State.hasRow_setRow.mp hy)

/-- A loose entry may change at will. -/
theorem setRow_loose (h : Layout s v) {e : Nat} {r : Entry} (he : s.HasRow e) (hl : v.Loose e)
    (hc : r.queue ≤ s.queueCount) : Layout (s.setRow e r) v :=
  h.setRow he (fun q hq hm => absurd hm (hl.1 q hq)) (fun hf => absurd hf hl.2) hc

end Layout

/-! ## 3. The list of active headers -/

/-- What an operation on the list of active headers leaves alone: the entries, the free headers
    and the contents of every header. -/
structure HeaderFrame (s s' : State) : Prop extends Frame s s' where
  entries : s'.entries = s.entries
  freeQueue : s'.freeQueue = s.freeQueue
  lane : ∀ q, (s'.header q).lane = (s.header q).lane
  first : ∀ q, (s'.header q).head = (s.header q).head
  last : ∀ q, (s'.header q).tail = (s.header q).tail

namespace HeaderFrame

variable {s s' s'' : State}

theorem seq (h : HeaderFrame s s') (h' : HeaderFrame s' s'') : HeaderFrame s s'' where
  toFrame := h.toFrame.trans h'.toFrame
  entries := h'.entries.trans h.entries
  freeQueue := h'.freeQueue.trans h.freeQueue
  lane q := (h'.lane q).trans (h.lane q)
  first q := (h'.first q).trans (h.first q)
  last q := (h'.last q).trans (h.last q)

theorem row (h : HeaderFrame s s') (i : Nat) : s'.row i = s.row i := by
  simp only [State.row, State.entryRows, h.entries]

/-- A header whose contents stay. -/
theorem keep {i : Nat} {q' : Queue} (hi : s.HasHeader i)
    (h1 : q'.lane = (s.header i).lane) (h2 : q'.head = (s.header i).head)
    (h3 : q'.tail = (s.header i).tail) : HeaderFrame s (s.setHeader i q') where
  toFrame := .setHeader _ _ _
  entries := rfl
  freeQueue := rfl
  lane q := by
    rw [State.header_setHeader hi]; split
    · rename_i e; rw [e]; exact h1
    · rfl
  first q := by
    rw [State.header_setHeader hi]; split
    · rename_i e; rw [e]; exact h2
    · rfl
  last q := by
    rw [State.header_setHeader hi]; split
    · rename_i e; rw [e]; exact h3
    · rfl

theorem ends (s : State) (h t : Nat) : HeaderFrame s { s with head := h, tail := t } where
  toFrame := ⟨rfl, rfl, rfl, rfl, rfl, rfl, rfl⟩
  entries := rfl
  freeQueue := rfl
  lane _ := rfl
  first _ := rfl
  last _ := rfl

end HeaderFrame

abbrev State.qnext (s : State) (i : Nat) : Nat := (s.header i).next

abbrev State.qprev (s : State) (i : Nat) : Nat := (s.header i).previous

variable {s : State} {p q e : Nat}

/-- The forward link of header `p`, or the head of the list where there is none, becomes `n`. -/
theorem linkForward_spec (n : Nat) (hp : p ≠ 0 → s.HasHeader p) : ∃ s', linkForward s p n = .ok s' ∧
      HeaderFrame s s' ∧ s'.head = (if p = 0 then n else s.head) ∧ s'.tail = s.tail ∧
      (∀ y, y ≠ 0 → s'.qnext y = if y = p then n else s.qnext y) ∧
      (∀ y, s'.qprev y = s.qprev y) ∧ ∀ y, y ≠ p → s'.header y = s.header y := by
  unfold linkForward
  by_cases h0 : p = 0
  · subst h0
    refine ⟨{ s with head := n }, rfl, .ends s n s.tail, rfl, rfl, fun y hy => ?_, fun _ => rfl, fun _ _ => rfl⟩
    rw [if_neg hy]; rfl
  · have hh := hp h0
    refine ⟨s.setHeader p { s.header p with next := n }, by rw [if_neg h0, modifyQueue_ok hh],
      .keep hh rfl rfl rfl, by rw [if_neg h0]; rfl, rfl, fun y _ => ?_, fun y => ?_, fun y hy => ?_⟩
    · simp only [State.qnext]
      rw [State.header_setHeader hh]; split
      · rfl
      · rfl
    · simp only [State.qprev]
      rw [State.header_setHeader hh]; split
      · rename_i e; rw [e]
      · rfl
    · rw [State.header_setHeader hh, if_neg hy]

/-- The backward link of header `p`, or the tail of the list where there is none, becomes `n`. -/
theorem linkBackward_spec (n : Nat) (hp : p ≠ 0 → s.HasHeader p) : ∃ s', linkBackward s p n = .ok s' ∧
      HeaderFrame s s' ∧ s'.tail = (if p = 0 then n else s.tail) ∧ s'.head = s.head ∧
      (∀ y, y ≠ 0 → s'.qprev y = if y = p then n else s.qprev y) ∧
      (∀ y, s'.qnext y = s.qnext y) ∧ ∀ y, y ≠ p → s'.header y = s.header y := by
  unfold linkBackward
  by_cases h0 : p = 0
  · subst h0
    refine ⟨{ s with tail := n }, rfl, .ends s s.head n, rfl, rfl, fun y hy => ?_, fun _ => rfl, fun _ _ => rfl⟩
    rw [if_neg hy]; rfl
  · have hh := hp h0
    refine ⟨s.setHeader p { s.header p with previous := n }, by rw [if_neg h0, modifyQueue_ok hh],
      .keep hh rfl rfl rfl, by rw [if_neg h0]; rfl, rfl, fun y _ => ?_, fun y => ?_, fun y hy => ?_⟩
    · simp only [State.qprev]
      rw [State.header_setHeader hh]; split
      · rfl
      · rfl
    · simp only [State.qnext]
      rw [State.header_setHeader hh]; split
      · rename_i e; rw [e]
      · rfl
    · rw [State.header_setHeader hh, if_neg hy]

/-- **`unlink_queue` takes a header out of the active list** and touches no header outside it. -/
theorem unlinkQueue_spec {l r : List Nat} (h : Linked s.qnext s.qprev s.head s.tail (l ++ q :: r))
    (hv : ∀ x ∈ l ++ q :: r, s.HasHeader x) :
    ∃ s', unlinkQueue s q = .ok s' ∧ Linked s'.qnext s'.qprev s'.head s'.tail (l ++ r) ∧
      HeaderFrame s s' ∧ ∀ y, y ∉ l ++ r → y ≠ 0 → s'.header y = s.header y := by
  have hpl : s.qprev q ≠ 0 → s.qprev q ∈ l ++ r := fun h0 =>
    mem_append_left r (h.prev_mem_left h0)
  have hnl : s.qnext q ≠ 0 → s.qnext q ∈ l ++ r := fun h0 =>
    mem_append_right l (h.next_mem_right h0)
  have hsub : ∀ y ∈ l ++ r, y ∈ l ++ q :: r := fun y hy => by
    simp only [mem_append, mem_cons] at hy ⊢; tauto
  have h0 : ∀ y ∈ l ++ r, y ≠ 0 := fun y hy e => h.pos (e ▸ hsub y hy)
  obtain ⟨s₁, e₁, f₁, hd₁, tl₁, n₁, p₁, o₁⟩ :=
    linkForward_spec (s.qnext q) fun h0 => hv (s.qprev q) (hsub _ (hpl h0))
  obtain ⟨s₂, e₂, f₂, tl₂, hd₂, p₂, n₂, o₂⟩ :=
    linkBackward_spec (s.qprev q) fun h0 => f₁.hasHeader.mpr (hv (s.qnext q) (hsub _ (hnl h0)))
  refine ⟨s₂, ?_, h.remove ?_ ?_ ?_ ?_, f₁.seq f₂, fun y hy hy0 => ?_⟩
  · have hq : s.HasHeader q := hv q (mem_append_right l (.head _))
    simp [unlinkQueue, queue_ok hq, ok_bind, e₁, e₂]
  · exact fun y hy => by rw [n₂, n₁ y (h0 y hy)]
  · exact fun y hy => by rw [p₂ y (h0 y hy), p₁]
  · rw [hd₂, hd₁]
  · rw [tl₂, tl₁]
  · have hn : y ≠ s.qnext q := fun e => hy (e ▸ hnl fun z => hy0 (e.trans z))
    have hp : y ≠ s.qprev q := fun e => hy (e ▸ hpl fun z => hy0 (e.trans z))
    rw [o₂ y hn, o₁ y hp]

/-- **`append_queue` puts a header behind the active list.** -/
theorem appendQueue_spec {xs : List Nat}
    (h : Linked s.qnext s.qprev s.head s.tail xs) (hv : ∀ x ∈ xs, s.HasHeader x)
    (hq : s.HasHeader q) (hx : q ∉ xs) :
    ∃ s', appendQueue s q = .ok s' ∧ Linked s'.qnext s'.qprev s'.head s'.tail (xs ++ [q]) ∧
      HeaderFrame s s' ∧ ∀ y, y ∉ xs → y ≠ 0 → y ≠ q → s'.header y = s.header y := by
  let s₁ := s.setHeader q { s.header q with previous := s.tail, next := 0 }
  have f₁ : HeaderFrame s s₁ := .keep hq rfl rfl rfl
  have ht : s.tail ≠ 0 → s.tail ∈ xs := fun h0 => h.tail_mem h0
  have h0 : ∀ y ∈ xs, y ≠ 0 := fun y hy e => h.pos (e ▸ hy)
  have hne : ∀ y ∈ xs, y ≠ q := fun y hy e => hx (e ▸ hy)
  obtain ⟨s₂, e₂, f₂, hd₂, tl₂, n₂, p₂, o₂⟩ :=
    linkForward_spec q fun h0 => f₁.hasHeader.mpr (hv s.tail (ht h0))
  have hq₁ : s₁.header q = { s.header q with previous := s.tail, next := 0 } :=
    State.header_setHeader_self hq
  have hy₁ : ∀ y, y ≠ q → s₁.header y = s.header y := fun y hy => by
    rw [State.header_setHeader hq, if_neg hy]
  have hqt : q ≠ s.tail := fun e => hx (e ▸ ht fun z => hq.1 (e.trans z))
  refine ⟨{ s₂ with tail := q }, ?_, h.append hx hq.1 (fun y hy => ?_) ?_ (fun y hy => ?_) ?_ ?_,
    (f₁.seq f₂).seq (.ends s₂ s₂.head q), fun y hy hy0 hyq => ?_⟩
  · simp only [appendQueue, modifyQueue_ok hq, ok_bind]
    rw [show s.setHeader q _ = s₁ from rfl, e₂]
    rfl
  · show s₂.qnext y = _
    rw [n₂ y (h0 y hy)]
    simp only [State.qnext, hy₁ y (hne y hy)]
  · show s₂.qnext q = 0
    rw [n₂ q hq.1, if_neg hqt]
    simp only [State.qnext, hq₁]
  · show s₂.qprev y = _
    rw [p₂]
    simp only [State.qprev, hy₁ y (hne y hy)]
  · show s₂.qprev q = _
    rw [p₂]
    simp only [State.qprev, hq₁]
  · rw [hd₂]; rfl
  · show s₂.header y = _
    have hyt : y ≠ s.tail := fun e => hy (e ▸ ht fun z => hy0 (e.trans z))
    rw [o₂ y hyt, hy₁ y hyq]

/-! ## 4. The list of one header -/

/-- What an operation on the list of one header leaves alone: the lists of headers, the lanes,
    and every entry up to its links. -/
structure EntryFrame (s s' : State) : Prop extends Frame s s' where
  head : s'.head = s.head
  tail : s'.tail = s.tail
  freeQueue : s'.freeQueue = s.freeQueue
  lane : ∀ q, (s'.header q).lane = (s.header q).lane
  qnext : ∀ q, s'.qnext q = s.qnext q
  qprev : ∀ q, s'.qprev q = s.qprev q
  core : ∀ y, (s'.row y).core = (s.row y).core

abbrev State.rnext (s : State) (i : Nat) : Nat := (s.row i).next

abbrev State.rprev (s : State) (i : Nat) : Nat := (s.row i).previous

namespace EntryFrame

variable {s s' s'' : State}

theorem seq (h : EntryFrame s s') (h' : EntryFrame s' s'') : EntryFrame s s'' where
  toFrame := h.toFrame.trans h'.toFrame
  head := h'.head.trans h.head
  tail := h'.tail.trans h.tail
  freeQueue := h'.freeQueue.trans h.freeQueue
  lane q := (h'.lane q).trans (h.lane q)
  qnext q := (h'.qnext q).trans (h.qnext q)
  qprev q := (h'.qprev q).trans (h.qprev q)
  core y := (h'.core y).trans (h.core y)

/-- Links of an entry change. -/
theorem relink {i : Nat} {r : Entry} (hi : s.HasRow i) (h : r.core = (s.row i).core) :
    EntryFrame s (s.setRow i r) where
  toFrame := .setRow _ _ _
  head := rfl
  tail := rfl
  freeQueue := rfl
  lane _ := rfl
  qnext _ := rfl
  qprev _ := rfl
  core y := by
    rw [State.row_setRow hi]; split
    · rename_i e; rw [e]; exact h
    · rfl

/-- Ends of a header change. -/
theorem reend {i : Nat} (hi : s.HasHeader i) (a b : Nat) :
    EntryFrame s (s.setHeader i { s.header i with head := a, tail := b }) where
  toFrame := .setHeader _ _ _
  head := rfl
  tail := rfl
  freeQueue := rfl
  lane q := by
    rw [State.header_setHeader hi]; split
    · rename_i e; rw [e]
    · rfl
  qnext q := by
    simp only [State.qnext]
    rw [State.header_setHeader hi]; split
    · rename_i e; rw [e]
    · rfl
  qprev q := by
    simp only [State.qprev]
    rw [State.header_setHeader hi]; split
    · rename_i e; rw [e]
    · rfl
  core _ := rfl

end EntryFrame

/-- The forward link of entry `p`, or the head of the header where there is none, becomes `n`. -/
theorem linkAfter_spec {o : Nat} (n : Nat) (ho : s.HasHeader o) (hp : p ≠ 0 → s.HasRow p) :
    ∃ s', linkAfter s o p n = .ok s' ∧ EntryFrame s s' ∧
      (s'.header o).head = (if p = 0 then n else (s.header o).head) ∧
      (s'.header o).tail = (s.header o).tail ∧ (∀ q, q ≠ o → s'.header q = s.header q) ∧
      (∀ y, y ≠ 0 → s'.rnext y = if y = p then n else s.rnext y) ∧
      (∀ y, s'.rprev y = s.rprev y) ∧ ∀ y, y ≠ p → s'.row y = s.row y := by
  unfold linkAfter
  by_cases h0 : p = 0
  · subst h0
    refine ⟨s.setHeader o { s.header o with head := n }, by rw [if_pos rfl, modifyQueue_ok ho],
      .reend ho n _, ?_, ?_, fun q hq => ?_, fun y hy => ?_, fun _ => rfl, fun _ _ => rfl⟩
    · rw [State.header_setHeader_self ho, if_pos rfl]
    · rw [State.header_setHeader_self ho]
    · rw [State.header_setHeader ho, if_neg hq]
    · rw [if_neg hy]; rfl
  · have hr := hp h0
    refine ⟨s.setRow p { s.row p with next := n }, by rw [if_neg h0, modifyEntry_ok hr],
      .relink hr rfl, by rw [if_neg h0]; rfl, rfl, fun _ _ => rfl, fun y _ => ?_, fun y => ?_,
      fun y hy => ?_⟩
    · simp only [State.rnext]
      rw [State.row_setRow hr]; split <;> rfl
    · simp only [State.rprev]
      rw [State.row_setRow hr]; split
      · rename_i e; rw [e]
      · rfl
    · rw [State.row_setRow hr, if_neg hy]

/-- The backward link of entry `p`, or the tail of the header where there is none, becomes `n`. -/
theorem linkBefore_spec {o : Nat} (n : Nat) (ho : s.HasHeader o) (hp : p ≠ 0 → s.HasRow p) :
    ∃ s', linkBefore s o p n = .ok s' ∧ EntryFrame s s' ∧
      (s'.header o).tail = (if p = 0 then n else (s.header o).tail) ∧
      (s'.header o).head = (s.header o).head ∧ (∀ q, q ≠ o → s'.header q = s.header q) ∧
      (∀ y, y ≠ 0 → s'.rprev y = if y = p then n else s.rprev y) ∧
      (∀ y, s'.rnext y = s.rnext y) ∧ ∀ y, y ≠ p → s'.row y = s.row y := by
  unfold linkBefore
  by_cases h0 : p = 0
  · subst h0
    refine ⟨s.setHeader o { s.header o with tail := n }, by rw [if_pos rfl, modifyQueue_ok ho],
      .reend ho _ n, ?_, ?_, fun q hq => ?_, fun y hy => ?_, fun _ => rfl, fun _ _ => rfl⟩
    · rw [State.header_setHeader_self ho, if_pos rfl]
    · rw [State.header_setHeader_self ho]
    · rw [State.header_setHeader ho, if_neg hq]
    · rw [if_neg hy]; rfl
  · have hr := hp h0
    refine ⟨s.setRow p { s.row p with previous := n }, by rw [if_neg h0, modifyEntry_ok hr],
      .relink hr rfl, by rw [if_neg h0]; rfl, rfl, fun _ _ => rfl, fun y _ => ?_, fun y => ?_,
      fun y hy => ?_⟩
    · simp only [State.rprev]
      rw [State.row_setRow hr]; split <;> rfl
    · simp only [State.rnext]
      rw [State.row_setRow hr]; split
      · rename_i e; rw [e]
      · rfl
    · rw [State.row_setRow hr, if_neg hy]

namespace Layout

variable {s s' : State} {v : View}

/-- **The list of one header is respelled**, every other entry and header stays. -/
theorem rehold (h : Layout s v) {q : Nat} {xs : List Nat} (f : EntryFrame s s')
    (hl : Linked s'.rnext s'.rprev (s'.header q).head (s'.header q).tail xs)
    (hx : ∀ e ∈ xs, s.HasRow e ∧ (s.row e).lane = (s.header q).lane ∧ (s.row e).queue = q ∧ e ∉ v.freeEntries)
    (hr : ∀ y, (∀ p ∈ v.active, p ≠ q → y ∉ v.members p) ∧ y ∉ v.freeEntries ∨ s'.row y = s.row y)
    (hh : ∀ p, p ≠ q → s'.header p = s.header p) (hu : q ∉ v.freeQueues) :
    Layout s' (v.hold q xs) where
  lanes := by
    have := h.lanes.congr (fun y _ => f.qnext y) (fun y _ => f.qprev y)
    rw [f.head, f.tail]; exact this
  queues p hp := by
    by_cases e : p = q
    · subst e
      rw [show (v.hold p xs).members p = xs from update_self ..]
      exact hl
    · rw [show (v.hold q xs).members p = v.members p from update_of_ne e ..]
      have hy : ∀ y ∈ v.members p, s'.row y = s.row y := fun y hy =>
        (hr y).resolve_left fun n => n.1 p hp e hy
      rw [hh p e]
      exact (h.queues p hp).congr (fun y m => by rw [hy y m]) (fun y m => by rw [hy y m])
  own p hp y hy := by
    have hc := f.core y
    have hlane : (s'.row y).lane = (s.row y).lane := Entry.lane_of_core hc
    have hqueue : (s'.row y).queue = (s.row y).queue := Entry.queue_of_core hc
    rw [f.hasRow, f.lane, hlane, hqueue]
    by_cases e : p = q
    · subst e
      rw [show (v.hold p xs).members p = xs from update_self ..] at hy
      obtain ⟨h1, h2, h3, _⟩ := hx y hy
      exact ⟨h1, h2, h3⟩
    · rw [show (v.hold q xs).members p = v.members p from update_of_ne e ..] at hy
      exact h.own p hp y hy
  distinct a ha b hb e := by
    rw [f.lane, f.lane] at e; exact h.distinct a ha b hb e
  freeQueue := by
    rw [f.freeQueue]; exact h.freeQueue.congr fun y _ => f.qnext y
  unused p hp := by
    have hne : p ≠ q := fun e => hu (e ▸ hp)
    rw [hh p hne]; exact h.unused p hp
  headers p := by rw [f.hasHeader]; exact h.headers p
  apart := h.apart
  freeEntry := by
    rw [f.free]
    refine h.freeEntry.congr fun y hy => ?_
    rw [(hr y).resolve_left fun n => n.2 hy]
  freeRow y hy := f.hasRow.mpr (h.freeRow y hy)
  freeApart p hp y hy := by
    by_cases e : p = q
    · subst e
      rw [show (v.hold p xs).members p = xs from update_self ..] at hy
      exact (hx y hy).2.2.2
    · rw [show (v.hold q xs).members p = v.members p from update_of_ne e ..] at hy
      exact h.freeApart p hp y hy
  cached y hy := by
    have hqueue : (s'.row y).queue = (s.row y).queue := Entry.queue_of_core (f.core y)
    rw [hqueue, f.queueCount]
    exact h.cached y (f.hasRow.mp hy)

end Layout

variable {v : View}

/-- **`unlink`, first half: the entry leaves the list of its header.** -/
theorem detach_spec (h : Layout s v) (hq : q ∈ v.active) (he : e ∈ v.members q) :
    ∃ s', detach s e = .ok s' ∧ Layout s' (v.hold q ((v.members q).erase e)) ∧ EntryFrame s s' := by
  obtain ⟨l, r, hm⟩ := append_of_mem he
  have hL := h.queues q hq
  rw [hm] at hL
  have hel : e ∉ l := fun m => hL.not_mem_sides (mem_append_left r m)
  have herase : (v.members q).erase e = l ++ r := by
    rw [hm, erase_append_right _ hel, erase_cons_head]
  have hsub : ∀ y ∈ l ++ r, y ∈ v.members q := fun y hy => by
    rw [hm]; simp only [mem_append, mem_cons] at hy ⊢; tauto
  obtain ⟨hre, _, hqe⟩ := h.own q hq e he
  have hh : s.HasHeader q := h.hasHeader hq
  have hpl : s.rprev e ≠ 0 → s.rprev e ∈ l ++ r := fun h0 =>
    mem_append_left r (hL.prev_mem_left h0)
  have hnl : s.rnext e ≠ 0 → s.rnext e ∈ l ++ r := fun h0 =>
    mem_append_right l (hL.next_mem_right h0)
  have h0 : ∀ y ∈ l ++ r, y ≠ 0 := fun y hy e' => hL.pos (e' ▸ hm ▸ hsub y hy)
  have hne : ∀ y ∈ l ++ r, y ≠ e := fun y hy e' => hL.not_mem_sides (e' ▸ hy)
  -- the entry drops its own links, then its neighbours are linked past it
  let s₁ := s.setRow e { s.row e with previous := 0, next := 0 }
  have f₁ : EntryFrame s s₁ := .relink hre rfl
  have r₁ : ∀ y, y ≠ e → s₁.row y = s.row y := fun y hy => by
    rw [State.row_setRow hre, if_neg hy]
  obtain ⟨s₂, e₂, f₂, hd₂, tl₂, hh₂, n₂, p₂, o₂⟩ := linkAfter_spec (p := s.rprev e) (s.rnext e)
    (f₁.hasHeader.mpr hh) fun z => f₁.hasRow.mpr (h.own q hq _ (hsub _ (hpl z))).1
  obtain ⟨s₃, e₃, f₃, tl₃, hd₃, hh₃, p₃, n₃, o₃⟩ := linkBefore_spec (p := s.rnext e) (s.rprev e)
    ((f₁.seq f₂).hasHeader.mpr hh) fun z =>
      (f₁.seq f₂).hasRow.mpr (h.own q hq _ (hsub _ (hnl z))).1
  have f : EntryFrame s s₃ := (f₁.seq f₂).seq f₃
  refine ⟨s₃, ?_, ?_, f⟩
  · have e₂ : linkAfter s₁ (s.row e).queue (s.row e).previous (s.row e).next = .ok s₂ := by
      rw [hqe]; exact e₂
    have e₃ : linkBefore s₂ (s.row e).queue (s.row e).next (s.row e).previous = .ok s₃ := by
      rw [hqe]; exact e₃
    simp only [detach, entry_ok hre, ok_bind, modifyEntry_ok hre]
    exact (bind_of_ok e₂ _).trans e₃
  · rw [herase]
    refine h.rehold f ?_ (fun y hy => ?_) (fun y => ?_) (fun p hp => ?_) (h.apart q hq)
    · refine hL.remove (fun y hy => ?_) (fun y hy => ?_) ?_ ?_
      · rw [n₃, n₂ y (h0 y hy)]
        simp only [State.rnext, r₁ y (hne y hy)]
      · rw [p₃ y (h0 y hy), p₂]
        simp only [State.rprev, r₁ y (hne y hy)]
      · rw [hd₃, hd₂]; rfl
      · rw [tl₃, tl₂]; rfl
    · obtain ⟨h1, h2, h3⟩ := h.own q hq y (hsub y hy)
      exact ⟨h1, h2, h3, h.freeApart q hq y (hsub y hy)⟩
    · -- an entry outside this list keeps its row
      by_cases hy : y ∈ v.members q
      · exact .inl ⟨fun p hp hpq hyp => hpq (h.member_unique hp hq hyp hy), h.freeApart q hq y hy⟩
      · by_cases hy0 : y = 0
        · subst hy0
          refine .inl ⟨fun p hp _ hyp => (h.queues p hp).pos hyp, h.freeEntry.pos⟩
        · refine .inr ?_
          have hye : y ≠ e := fun z => hy (z ▸ he)
          have hyn : y ≠ s.rnext e := fun z => hy (hsub y (z ▸ hnl fun w => hy0 (z.trans w)))
          have hyp : y ≠ s.rprev e := fun z => hy (hsub y (z ▸ hpl fun w => hy0 (z.trans w)))
          rw [o₃ y hyn, o₂ y hyp, r₁ y hye]
    · rw [hh₃ p hp, hh₂ p hp]; rfl

/-- **The lists of headers are respelled**, the entries stay. A header that was not active
    before brings no members. -/
theorem Layout.reheader {s' : State} (h : Layout s v) (v' : View)
    (he : s'.entries = s.entries) (hf : s'.free = s.free) (hc : s'.queueCount = s.queueCount)
    (hl : Linked s'.qnext s'.qprev s'.head s'.tail v'.active) (hq : ∀ p ∈ v'.active,
      Linked s.rnext s.rprev (s'.header p).head (s'.header p).tail (v'.members p))
    (ho : ∀ p ∈ v'.active, ∀ e ∈ v'.members p,
      p ∈ v.active ∧ e ∈ v.members p ∧ (s'.header p).lane = (s.header p).lane)
    (hd : ∀ p ∈ v'.active, ∀ q ∈ v'.active, (s'.header p).lane = (s'.header q).lane → p = q)
    (hfq : Chain s'.qnext s'.freeQueue v'.freeQueues) (hu : ∀ q ∈ v'.freeQueues, (s'.header q).head = 0)
    (hh : ∀ q, (q ∈ v'.active ∨ q ∈ v'.freeQueues) ↔ q ∈ v.active ∨ q ∈ v.freeQueues)
    (ha : ∀ q ∈ v'.active, q ∉ v'.freeQueues) (hfe : v'.freeEntries = v.freeEntries) : Layout s' v' := by
  have er : ∀ i, s'.row i = s.row i := fun i => by simp only [State.row, State.entryRows, he]
  have ec : s'.entryCount = s.entryCount := by simp only [State.entryCount, State.entryRows, he]
  have hr : ∀ i, s'.HasRow i ↔ s.HasRow i := fun i => by simp only [State.HasRow, ec]
  refine ⟨hl, fun p hp => ?_, fun p hp e hep => ?_, hd, hfq, hu, fun q => ?_, ha, ?_,
    fun e hem => ?_, fun p hp e hep => ?_, fun e hem => ?_⟩
  · simp only [er]; exact hq p hp
  · obtain ⟨h1, h2, h3⟩ := ho p hp e hep
    rw [er, hr, h3]; exact h.own p h1 e h2
  · rw [hh q, ← h.headers q]; simp only [State.HasHeader, hc]
  · rw [hf, hfe]; simp only [er]; exact h.freeEntry
  · rw [hr]; exact h.freeRow e (hfe ▸ hem)
  · obtain ⟨h1, h2, _⟩ := ho p hp e hep
    rw [hfe]; exact h.freeApart p h1 e h2
  · rw [er, hc]; exact h.cached e ((hr e).mp hem)

/-- **`unlink`, second half: an emptied header leaves the active lanes and becomes free.** -/
theorem retireHeader_spec (h : Layout s v) (hq : q ∈ v.active) (hm : v.members q = []) :
    ∃ s', retireHeader s q = .ok s' ∧
      Layout s' { v with active := v.active.erase q, freeQueues := q :: v.freeQueues } ∧
      Frame s s' ∧ s'.entries = s.entries ∧ ∀ p, (s'.header p).lane = (s.header p).lane := by
  obtain ⟨l, r, ha⟩ := append_of_mem hq
  have hL := h.lanes
  rw [ha] at hL
  have hql : q ∉ l := fun m => hL.not_mem_sides (mem_append_left r m)
  have herase : v.active.erase q = l ++ r := by
    rw [ha, erase_append_right _ hql, erase_cons_head]
  have hsub : ∀ y ∈ l ++ r, y ∈ v.active := fun y hy => by
    rw [ha]; simp only [mem_append, mem_cons] at hy ⊢; tauto
  have hne : ∀ y ∈ l ++ r, y ≠ q := fun y hy e => hL.not_mem_sides (e ▸ hy)
  obtain ⟨s₁, e₁, hl₁, f₁, o₁⟩ :=
    unlinkQueue_spec hL fun x hx => h.hasHeader (by rw [ha]; exact hx)
  have hqh : s₁.HasHeader q := f₁.hasHeader.mpr (h.hasHeader hq)
  have hqf : q ∉ v.freeQueues := h.apart q hq
  have hfree : ∀ y ∈ v.freeQueues, s₁.header y = s.header y := fun y hy =>
    o₁ y (fun m => h.apart y (hsub y m) hy) fun e => h.freeQueue.pos (e ▸ hy)
  let s₂ := s₁.setHeader q { s₁.header q with previous := 0, next := s₁.freeQueue }
  have f₂ : HeaderFrame s₁ s₂ := .keep hqh rfl rfl rfl
  have hy₂ : ∀ y, y ≠ q → s₂.header y = s₁.header y := fun y hy => by
    rw [State.header_setHeader hqh, if_neg hy]
  have hq₂ : s₂.header q = { s₁.header q with previous := 0, next := s₁.freeQueue } :=
    State.header_setHeader_self hqh
  have hemp : (s.header q).head = 0 := (h.queues q hq).head_zero.mpr hm
  have f := f₁.seq f₂
  refine ⟨{ s₂ with freeQueue := q }, ?_, ?_, ?_, f.entries, f.lane⟩
  · simp only [retireHeader, e₁, ok_bind, modifyQueue_ok hqh]
    rfl
  · rw [herase]
    refine h.reheader _ f.entries f.free f.queueCount ?_ (fun p hp => ?_) (fun p hp e hep => ?_)
      (fun a hpa b hpb e => ?_) ?_ (fun p hp => ?_) (fun p => ?_) (fun p hp => ?_) rfl
    · exact hl₁.congr (fun y hy => by simp only [State.qnext]; rw [← hy₂ y (hne y hy)]; rfl)
        (fun y hy => by simp only [State.qprev]; rw [← hy₂ y (hne y hy)]; rfl)
    · show Linked _ _ (s₂.header p).head (s₂.header p).tail _
      rw [f.first, f.last]; exact h.queues p (hsub p hp)
    · exact ⟨hsub p hp, hep, f.lane p⟩
    · exact h.distinct a (hsub a hpa) b (hsub b hpb) ((f.lane a).symm.trans (e.trans (f.lane b)))
    · refine h.freeQueue.push hqf (h.hasHeader hq).1 (fun y hy => ?_) ?_
      · show (s₂.header y).next = _
        rw [hy₂ y fun e => hqf (e ▸ hy), hfree y hy]
      · show (s₂.header q).next = _
        rw [hq₂]; exact f₁.freeQueue
    · show (s₂.header p).head = 0
      rw [f.first]
      rcases mem_cons.mp hp with rfl | hp
      · exact hemp
      · exact h.unused p hp
    · rw [ha]
      simp only [mem_append, mem_cons]; tauto
    · intro hp'
      rcases mem_cons.mp hp' with e | hp'
      · exact hne p hp e
      · exact h.apart p (hsub p hp) hp'
  · exact f.toFrame.trans ⟨rfl, rfl, rfl, rfl, rfl, rfl, rfl⟩

/-- **`unlink` takes a ready entry out of its lane**: the entries keep everything but their
    links, the headers keep their lanes. -/
theorem unlink_spec (h : Layout s v) (hq : q ∈ v.active) (he : e ∈ v.members q) :
    ∃ s', unlink s e = .ok s' ∧ Layout s' (v.drop q e) ∧ Frame s s' ∧
      (∀ y, (s'.row y).core = (s.row y).core) ∧ ∀ p, (s'.header p).lane = (s.header p).lane := by
  obtain ⟨s₁, e₁, h₁, f₁⟩ := detach_spec h hq he
  obtain ⟨hre, _, hqe⟩ := h.own q hq e he
  have hqh : s₁.HasHeader q := h₁.hasHeader hq
  have hz : (s₁.header q).head = 0 ↔ (v.members q).erase e = [] := by
    have := (h₁.queues q hq).head_zero
    rwa [show (v.hold q ((v.members q).erase e)).members q = _ from update_self ..] at this
  simp only [unlink, entry_ok hre, ok_bind, e₁, hqe, queue_ok hqh, hz, View.drop]
  split
  · -- the header is empty now
    rename_i hn
    rw [hn] at h₁
    obtain ⟨s₂, e₂, h₂, f₂, he₂, hl₂⟩ := retireHeader_spec h₁ hq (update_self ..)
    refine ⟨s₂, e₂, h₂, f₁.toFrame.trans f₂, fun y => ?_, fun p => (hl₂ p).trans (f₁.lane p)⟩
    have : s₂.row y = s₁.row y := by simp only [State.row, State.entryRows, he₂]
    rw [this]; exact f₁.core y
  · exact ⟨s₁, rfl, h₁, f₁.toFrame, f₁.core, f₁.lane⟩

/-- **The rotation of `acquisition`**: a header that still has entries moves behind the others. -/
theorem rotateHeader_spec (h : Layout s v) (hq : q ∈ v.active) (hm : v.members q ≠ []) :
    ∃ s', rotateHeader s q = .ok s' ∧ Layout s' (v.rotate q) ∧ HeaderFrame s s' := by
  have hqh : s.HasHeader q := h.hasHeader hq
  have hhead : (s.header q).head ≠ 0 := fun e => hm ((h.queues q hq).head_zero.mp e)
  obtain ⟨l, r, ha⟩ := append_of_mem hq
  have hL := h.lanes
  rw [ha] at hL
  have hql : q ∉ l := fun m => hL.not_mem_sides (mem_append_left r m)
  have herase : v.active.erase q = l ++ r := by
    rw [ha, erase_append_right _ hql, erase_cons_head]
  simp only [rotateHeader, queue_ok hqh, ok_bind, ne_eq, hhead, not_false_eq_true, true_and]
  by_cases ht : s.tail = q
  · -- it is the last one already
    rw [if_neg (not_not.mpr ht)]
    refine ⟨s, rfl, ?_, .ends s s.head s.tail⟩
    have hr : r = [] := by
      by_contra hr
      have e := hL.tail_eq
      rw [getLastD_cons_append, ht] at e
      rcases getLastD_mem_or r q with hmem | ⟨hnil, _⟩
      · exact hL.not_mem_sides (mem_append_right l (e ▸ hmem))
      · exact hr hnil
    have : v.rotate q = v := by
      unfold View.rotate
      rw [herase, hr, append_nil, ← show v.active = l ++ [q] by rw [ha, hr]]
    rw [this]; exact h
  · rw [if_pos ht]
    have hsub : ∀ y ∈ l ++ r, y ∈ v.active := fun y hy => by
      rw [ha]; simp only [mem_append, mem_cons] at hy ⊢; tauto
    obtain ⟨s₁, e₁, hl₁, f₁, o₁⟩ :=
      unlinkQueue_spec hL fun x hx => h.hasHeader (by rw [ha]; exact hx)
    obtain ⟨s₂, e₂, hl₂, f₂, o₂⟩ := appendQueue_spec hl₁
      (fun x hx => f₁.hasHeader.mpr (h.hasHeader (hsub x hx))) (f₁.hasHeader.mpr hqh)
      hL.not_mem_sides
    have f := f₁.seq f₂
    have hmem : ∀ p, p ∈ l ++ r ++ [q] ↔ p ∈ v.active := fun p => by
      rw [ha]; simp only [mem_append, mem_cons, not_mem_nil]; tauto
    refine ⟨s₂, by rw [e₁]; exact e₂, ?_, f⟩
    unfold View.rotate
    rw [herase]
    refine h.reheader _ f.entries f.free f.queueCount hl₂ (fun p hp => ?_) (fun p hp e hep => ?_)
      (fun a hpa b hpb e => ?_) ?_ (fun p hp => ?_) (fun p => ?_) (fun p hp => ?_) rfl
    · rw [f.first, f.last]; exact h.queues p ((hmem p).mp hp)
    · exact ⟨(hmem p).mp hp, hep, f.lane p⟩
    · rw [f.lane, f.lane] at e
      exact h.distinct a ((hmem a).mp hpa) b ((hmem b).mp hpb) e
    · rw [f.freeQueue]
      refine h.freeQueue.congr fun y hy => ?_
      have hy0 : y ≠ 0 := fun e => h.freeQueue.pos (e ▸ hy)
      have hya : y ∉ v.active := fun m => h.apart y m hy
      have hyl : y ∉ l ++ r := fun m => hya (hsub y m)
      simp only [State.qnext]
      rw [o₂ y hyl hy0 fun e => hya (e ▸ hq), o₁ y hyl hy0]
    · rw [f.first]; exact h.unused p hp
    · rw [hmem p]
    · exact h.apart p ((hmem p).mp hp)

/-! ## 5. The header of a lane -/

namespace Layout

variable {s : State} {v : View}

theorem active_le (h : Layout s v) : v.active.length ≤ s.queueCount :=
  length_le_of_nodup h.lanes.nodup fun _ hq => h.hasHeader hq

/-- **A header is free for every lane that may open.** Each active header holds an entry of its
    own, and an entry in no list is one more: there are fewer active headers than entries. -/
theorem room (h : Layout s v) (hn : ∀ q ∈ v.active, v.members q ≠ [])
    (hc : s.entryCount ≤ s.queueCount) {e : Nat} (he : s.HasRow e) (hl : v.Loose e) : v.freeQueues ≠ [] := by
  have hmem : ∀ q ∈ v.active, (v.members q).headD 0 ∈ v.members q := fun q hq =>
    (headD_mem_or (v.members q) 0).resolve_right fun n => hn q hq n.1
  have hlt : (e :: v.active.map fun q => (v.members q).headD 0).length ≤ s.entryCount := by
    refine length_le_of_nodup (nodup_cons.mpr ⟨fun m => ?_, ?_⟩) fun x hx => ?_
    · obtain ⟨q, hq, e'⟩ := mem_map.mp m
      exact hl.1 q hq (e' ▸ hmem q hq)
    · refine List.Nodup.map_on (fun p hp q hq e' => ?_) h.lanes.nodup
      exact h.member_unique hp hq (hmem p hp) (e' ▸ hmem q hq)
    · rcases mem_cons.mp hx with rfl | hx
      · exact he
      · obtain ⟨q, hq, e'⟩ := mem_map.mp hx
        exact (h.own q hq x (e' ▸ hmem q hq)).1
  intro hf
  have hge : s.queueCount ≤ v.active.length := le_length_of_mem fun q h0 hq => by
    rcases (h.headers q).mp ⟨h0, hq⟩ with ha | ha
    · exact ha
    · rw [hf] at ha; exact nomatch ha
  rw [length_cons, length_map] at hlt
  omega

end Layout

theorem searchLane_spec (h : Layout s v) (lane : Lane) (r : List Nat) :
    ∀ l fuel, v.active = l ++ r → r.length ≤ fuel → ∃ f, searchLane s lane fuel (r.headD 0) = .ok f ∧
        (f = 0 ∧ (∀ q ∈ r, (s.header q).lane ≠ lane) ∨ f ∈ r ∧ (s.header f).lane = lane) := by
  induction r with
  | nil =>
    intro l fuel _ _
    refine ⟨0, ?_, .inl ⟨rfl, fun q hq => nomatch hq⟩⟩
    cases fuel <;> rfl
  | cons q r ih =>
    intro l fuel ha hf
    have hq : q ∈ v.active := ha ▸ mem_append_right l (.head _)
    obtain ⟨fuel, rfl⟩ : ∃ n, fuel = n + 1 :=
      ⟨fuel - 1, by rw [length_cons] at hf; omega⟩
    obtain ⟨i, rfl⟩ : ∃ i, q = i + 1 := ⟨q - 1, by have := (h.hasHeader hq).1; omega⟩
    have hnext : (s.header (i + 1)).next = r.headD 0 := (h.lanes.links l (i + 1) r ha).2
    simp only [headD_cons, searchLane, queue_ok (h.hasHeader hq), ok_bind, hnext, sameLane_iff]
    split
    · rename_i he
      exact ⟨i + 1, rfl, .inr ⟨(.head _), he⟩⟩
    · rename_i he
      obtain ⟨f, e, hres⟩ := ih (l ++ [i + 1]) fuel (by rw [ha]; simp)
        (by rw [length_cons] at hf; omega)
      refine ⟨f, e, ?_⟩
      rcases hres with ⟨h0, hall⟩ | ⟨hm, hlane⟩
      · refine .inl ⟨h0, fun q hq => ?_⟩
        rcases mem_cons.mp hq with rfl | hq
        · exact he
        · exact hall q hq
      · exact .inr ⟨.tail _ hm, hlane⟩

variable {lane : Lane}

theorem activateHeader_spec (h : Layout s v)
    (hf : v.freeQueues ≠ []) (hn : ∀ p ∈ v.active, (s.header p).lane ≠ lane) :
    ∃ s' q, activateHeader s lane = .ok (s', q) ∧ Layout s' (v.activate q) ∧ Frame s s' ∧
      s'.entries = s.entries ∧ q ∈ v.freeQueues ∧ (s'.header q).lane = lane ∧
      ∀ p ∈ v.active, (s'.header p).lane = (s.header p).lane := by
  have h0 : s.freeQueue ≠ 0 := fun e => hf (h.freeQueue.head_zero.mp e)
  obtain ⟨fs, hfs⟩ := h.freeQueue.eq_cons h0
  generalize hq : s.freeQueue = q at h0 hfs
  have hqf : q ∈ v.freeQueues := hfs ▸ (.head _)
  have hqa : q ∉ v.active := fun m => h.apart q m hqf
  have hqh : s.HasHeader q := (h.headers q).mpr (.inr hqf)
  have hchain : Chain s.qnext q (q :: fs) := by
    have := h.freeQueue
    rwa [hfs, hq] at this
  have hqfs : q ∉ fs := (nodup_cons.mp hchain.nodup).1
  have hne : ∀ p ∈ v.active, p ≠ q := fun p hp e => hqa (e ▸ hp)
  let s₁ : State :=
    { s.setHeader q { s.header q with lane := lane, head := 0, tail := 0 } with
      freeQueue := (s.header q).next }
  have hy₁ : ∀ y, y ≠ q → s₁.header y = s.header y := fun y hy => by
    show (s.setHeader q _).header y = _
    rw [State.header_setHeader hqh, if_neg hy]
  have hq₁ : s₁.header q = { s.header q with lane := lane, head := 0, tail := 0 } :=
    State.header_setHeader_self hqh
  have f₁ : Frame s s₁ := (Frame.setHeader s q _).trans ⟨rfl, rfl, rfl, rfl, rfl, rfl, rfl⟩
  obtain ⟨s₂, e₂, hl₂, f₂, o₂⟩ := appendQueue_spec (s := s₁) (q := q)
    (h.lanes.congr (fun y hy => by rw [← hy₁ y (hne y hy)]) (fun y hy => by rw [← hy₁ y (hne y hy)]))
    (fun x hx => f₁.hasHeader.mpr (h.hasHeader hx)) (f₁.hasHeader.mpr hqh) hqa
  have hlane : ∀ p ∈ v.active, (s₂.header p).lane = (s.header p).lane := fun p hp => by
    rw [f₂.lane, hy₁ p (hne p hp)]
  have hlaneq : (s₂.header q).lane = lane := by rw [f₂.lane, hq₁]
  have hmem : ∀ p, p ∈ v.active ++ [q] ↔ p ∈ v.active ∨ p = q := fun p => by simp
  refine ⟨s₂, q, ?_, ?_, f₁.trans f₂.toFrame, f₂.entries, hqf, hlaneq, hlane⟩
  · simp only [activateHeader, hq, if_neg h0, queue_ok hqh, ok_bind, modifyQueue_ok hqh]
    exact (bind_of_ok e₂ _)
  · have hfe : v.freeQueues.erase q = fs := by rw [hfs, erase_cons_head]
    refine h.reheader (v.activate q) f₂.entries (f₂.free.trans f₁.free)
      (f₂.queueCount.trans f₁.queueCount) hl₂ (fun p hp => ?_) (fun p hp e hep => ?_)
      (fun a hpa b hpb e => ?_) ?_ (fun p hp => ?_) (fun p => ?_) (fun p hp => ?_) rfl
    · rw [f₂.first, f₂.last]
      rcases (hmem p).mp hp with hp | rfl
      · rw [hy₁ p (hne p hp), show (v.activate q).members p = v.members p from update_of_ne (hne p hp) ..]
        exact h.queues p hp
      · rw [hq₁, show (v.activate p).members p = [] from update_self ..]
        exact Linked.empty _ _
    · rcases (hmem p).mp hp with hp | rfl
      · rw [show (v.activate q).members p = v.members p from
          update_of_ne (hne p hp) ..] at hep
        exact ⟨hp, hep, hlane p hp⟩
      · rw [show (v.activate p).members p = [] from update_self ..] at hep
        exact nomatch hep
    · rcases (hmem a).mp hpa with ha | rfl <;> rcases (hmem b).mp hpb with hb | rfl
      · rw [hlane a ha, hlane b hb] at e; exact h.distinct a ha b hb e
      · rw [hlane a ha, hlaneq] at e; exact absurd e (hn a ha)
      · rw [hlane b hb, hlaneq] at e; exact absurd e.symm (hn b hb)
      · rfl
    · show Chain s₂.qnext s₂.freeQueue (v.freeQueues.erase q)
      rw [hfe, f₂.freeQueue]
      refine hchain.pop.congr fun y hy => ?_
      have hyf : y ∈ v.freeQueues := hfs ▸ .tail _ hy
      have hyq : y ≠ q := fun e => hqfs (e ▸ hy)
      simp only [State.qnext]
      rw [o₂ y (fun m => h.apart y m hyf) (fun e => h.freeQueue.pos (e ▸ hyf)) hyq, hy₁ y hyq]
    · have hp : p ∈ fs := hfe ▸ hp
      rw [f₂.first, hy₁ p fun e => hqfs (e ▸ hp)]
      exact h.unused p (hfs ▸ .tail _ hp)
    · show p ∈ v.active ++ [q] ∨ p ∈ v.freeQueues.erase q ↔ _
      rw [hmem p, hfe, hfs, mem_cons]; tauto
    · show p ∉ v.freeQueues.erase q
      rw [hfe]
      rcases (hmem p).mp hp with hp | rfl
      · exact fun m => h.apart p hp (hfs ▸ .tail _ m)
      · exact hqfs

/-- The header `q` is active from here on. -/
def View.opened (v : View) (q : Nat) : View := if q ∈ v.active then v else v.activate q

/-- The header `q` was the active one of the lane, or it was free and no active one had it. -/
def Chosen (s : State) (v : View) (lane : Lane) (q : Nat) : Prop :=
  q ∈ v.active ∧ (s.header q).lane = lane ∨ q ∈ v.freeQueues ∧ ∀ p ∈ v.active, (s.header p).lane ≠ lane

/-- What `queue_for` guarantees of the header `q` it returns. -/
structure Opened (s : State) (v : View) (lane : Lane) (s' : State) (q : Nat) : Prop where
  chosen : Chosen s v lane q
  layout : Layout s' (v.opened q)
  frame : Frame s s'
  entries : s'.entries = s.entries
  active : q ∈ (v.opened q).active
  lane : (s'.header q).lane = lane
  lanes : ∀ p ∈ v.active, (s'.header p).lane = (s.header p).lane

theorem Opened.hit (h : Layout s v) (hq : q ∈ v.active) (hl : (s.header q).lane = lane) : Opened s v lane s q := by
  have e : v.opened q = v := if_pos hq
  exact ⟨.inl ⟨hq, hl⟩, e.symm ▸ h, .refl s, rfl, e.symm ▸ hq, hl, fun _ _ => rfl⟩

theorem queueFor_miss (h : Layout s v) {cached : Nat}
    (hf : v.freeQueues ≠ []) (hm : cacheHit s lane cached = .ok false) :
    ∃ s' q, queueFor s lane cached = .ok (s', q) ∧ Opened s v lane s' q := by
  obtain ⟨f, e, hres⟩ := searchLane_spec h lane v.active [] s.queueCount rfl h.active_le
  rw [← h.lanes.head_eq] at e
  simp only [queueFor, hm, ok_bind, e, Bool.false_eq_true, if_false]
  rcases hres with ⟨rfl, hall⟩ | ⟨hfm, hl⟩
  · obtain ⟨s', q, e', hL, hF, hE, hqf, hlq, hlp⟩ := activateHeader_spec h hf hall
    have hopen : v.opened q = v.activate q := if_neg fun m => h.apart q m hqf
    refine ⟨s', q, e', .inr ⟨hqf, hall⟩, hopen.symm ▸ hL, hF, hE, ?_, hlq, hlp⟩
    rw [hopen]
    exact mem_append_right _ (.head _)
  · rw [if_pos (h.hasHeader hfm).1]
    exact ⟨s, f, rfl, .hit h hfm hl⟩

/-- **`queue_for`** ends with the lane's only active header. -/
theorem queueFor_spec (h : Layout s v) (lane : Lane) {cached : Nat}
    (hc : cached ≤ s.queueCount) (hf : v.freeQueues ≠ []) :
    ∃ s' q, queueFor s lane cached = .ok (s', q) ∧ Opened s v lane s' q := by
  by_cases h0 : cached = 0
  · exact queueFor_miss h hf (by rw [cacheHit, if_pos h0])
  have hh : s.HasHeader cached := ⟨h0, hc⟩
  by_cases hhit : (s.header cached).head ≠ 0 ∧ (s.header cached).lane = lane
  · -- an emptied header is free, so this one is active
    have ha : cached ∈ v.active := ((h.headers cached).mp hh).resolve_right fun m =>
      hhit.1 (h.unused cached m)
    refine ⟨s, cached, ?_, .hit h ha hhit.2⟩
    have hb : ((s.header cached).head != 0 && sameLane (s.header cached).lane lane) = true := by
      rw [Bool.and_eq_true, bne_iff_ne, sameLane_iff]; exact hhit
    simp [queueFor, cacheHit, if_neg h0, queue_ok hh, ok_bind, hb, pure_ok]
  · refine queueFor_miss h hf ?_
    have hb : ((s.header cached).head != 0 && sameLane (s.header cached).lane lane) = false := by
      rw [Bool.eq_false_iff, Ne, Bool.and_eq_true, bne_iff_ne, sameLane_iff]; exact hhit
    simp [cacheHit, queue_ok hh, ok_bind, hb, pure_ok]

/-! ## 6. Enqueueing -/

/-- **The entry becomes the last one of an active header of its lane.** -/
theorem attach_spec (cause now : Nat) (h : Layout s v) (hq : q ∈ v.active) (he : s.HasRow e) (hl : v.Loose e)
    (hlane : (s.row e).lane = (s.header q).lane) :
    ∃ s', attach s q e cause now = .ok s' ∧ Layout s' (v.join q e) ∧ Frame s s' ∧ (s'.row e).core =
        { (s.row e).core with phase := 1, cause := cause, queuedAt := now, queue := q } ∧
      (∀ y, y ≠ e → (s'.row y).core = (s.row y).core) ∧
      ∀ p, (s'.header p).lane = (s.header p).lane := by
  have hqh : s.HasHeader q := h.hasHeader hq
  have hL := h.queues q hq
  have hem : e ∉ v.members q := hl.1 q hq
  have ht : (s.header q).tail ≠ 0 → (s.header q).tail ∈ v.members q := fun z => hL.tail_mem z
  have h0 : ∀ y ∈ v.members q, y ≠ 0 := fun y hy z => hL.pos (z ▸ hy)
  have hne : ∀ y ∈ v.members q, y ≠ e := fun y hy z => hem (z ▸ hy)
  let row : Entry := { s.row e with phase := 1, cause := cause, queuedAt := now, queue := q,
                                    previous := (s.header q).tail, next := 0 }
  let s₁ := s.setRow e row
  have h₁ : Layout s₁ v := h.setRow_loose he hl hqh.2
  have r₁ : ∀ y, y ≠ e → s₁.row y = s.row y := fun y hy => by
    rw [State.row_setRow he, if_neg hy]
  have re₁ : s₁.row e = row := State.row_setRow_self he
  have hqh₁ : s₁.HasHeader q := hqh
  obtain ⟨s₂, e₂, f₂, hd₂, tl₂, hh₂, n₂, p₂, o₂⟩ := linkAfter_spec (p := (s.header q).tail) e hqh₁
    fun z => State.hasRow_setRow.mpr (h.own q hq _ (ht z)).1
  have hqh₂ : s₂.HasHeader q := f₂.hasHeader.mpr hqh₁
  let s₃ := s₂.setHeader q { s₂.header q with tail := e }
  have f₃ : EntryFrame s₂ s₃ := .reend hqh₂ _ _
  have f := f₂.seq f₃
  have hq₃ : s₃.header q = { s₂.header q with tail := e } := State.header_setHeader_self hqh₂
  have het : e ≠ (s.header q).tail := fun z => hem (z ▸ ht fun w => he.1 (z.trans w))
  refine ⟨s₃, ?_, ?_, (Frame.setRow s e row).trans f.toFrame, ?_, fun y hy => ?_, fun p => ?_⟩
  · simp only [attach, queue_ok hqh, ok_bind, modifyEntry_ok he]
    refine (bind_of_ok e₂ _).trans ?_
    rw [modifyQueue_ok hqh₂]
  · refine h₁.rehold f ?_ (fun y hy => ?_) (fun y => ?_) (fun p hp => ?_) (h.apart q hq)
    · rw [hq₃]
      refine hL.append hem he.1 (fun y hy => ?_) ?_ (fun y hy => ?_) ?_ ?_
      · show s₂.rnext y = _
        rw [n₂ y (h0 y hy)]
        simp only [State.rnext, r₁ y (hne y hy)]
      · show s₂.rnext e = 0
        rw [n₂ e he.1, if_neg het]
        simp only [State.rnext, re₁, row]
      · show s₂.rprev y = _
        rw [p₂]
        simp only [State.rprev, r₁ y (hne y hy)]
      · show s₂.rprev e = _
        rw [p₂]
        simp only [State.rprev, re₁, row]
      · exact hd₂
    · rcases mem_append.mp hy with hy | hy
      · obtain ⟨a, b, c⟩ := h₁.own q hq y hy
        exact ⟨a, b, c, h.freeApart q hq y hy⟩
      · obtain rfl := mem_singleton.mp hy
        rw [re₁]
        exact ⟨State.hasRow_setRow.mpr he, hlane, rfl, hl.2⟩
    · by_cases hy : y ∈ v.members q
      · exact .inl ⟨fun p hp hpq hyp => hpq (h.member_unique hp hq hyp hy), h.freeApart q hq y hy⟩
      · by_cases hy0 : y = 0
        · subst hy0
          exact .inl ⟨fun p hp _ hyp => (h.queues p hp).pos hyp, h.freeEntry.pos⟩
        · exact .inr (o₂ y fun z => hy (z ▸ ht fun w => hy0 (z.trans w)))
    · rw [State.header_setHeader hqh₂, if_neg hp, hh₂ p hp]
  · rw [f.core, re₁]; rfl
  · rw [f.core, r₁ y hy]
  · rw [f.lane]; rfl

/-- The entry `e` enters the lane of header `q`, which opens if it has to. -/
def View.enter (v : View) (q e : Nat) : View := (v.opened q).join q e

/-- What `enqueue` guarantees: the entry is ready in the lane it names, everything else is as it
    was. -/
structure Enqueued (s : State) (v : View) (e cause now : Nat) (s' : State) (q : Nat) : Prop where
  chosen : Chosen s v (s.row e).lane q
  layout : Layout s' (v.enter q e)
  frame : Frame s s'
  row : (s'.row e).core = { (s.row e).core with phase := 1, cause := cause, queuedAt := now, queue := q }
  rows : ∀ y, y ≠ e → (s'.row y).core = (s.row y).core
  lane : (s'.header q).lane = (s.row e).lane
  lanes : ∀ p ∈ v.active, (s'.header p).lane = (s.header p).lane

theorem Opened.loose {s' : State} (h : Opened s v lane s' q) (hl : v.Loose e) : (v.opened q).Loose e := by
  unfold View.opened
  split
  · exact hl
  · refine ⟨fun p hp m => ?_, hl.2⟩
    by_cases hpq : p = q
    · subst hpq
      rw [show (v.activate p).members p = [] from update_self ..] at m
      exact not_mem_nil m
    · rw [show (v.activate q).members p = v.members p from update_of_ne hpq ..] at m
      rcases mem_append.mp hp with hp | hp
      · exact hl.1 p hp m
      · exact hpq (mem_singleton.mp hp)

/-- **`enqueue` succeeds** on every entry that is in no list, and makes it the last ready entry
    of its lane. -/
theorem enqueue_spec (cause now : Nat) (h : Layout s v)
    (he : s.HasRow e) (hl : v.Loose e) (hf : v.freeQueues ≠ []) :
    ∃ s' q, enqueue s e cause now = .ok s' ∧ Enqueued s v e cause now s' q := by
  obtain ⟨s₁, q, e₁, o⟩ := queueFor_spec h (s.row e).lane (h.cached e he) hf
  have hrow : ∀ y, s₁.row y = s.row y := fun y => by
    simp only [State.row, State.entryRows, o.entries]
  obtain ⟨s₂, e₂, hL, f₂, hre, hro, hla⟩ := attach_spec cause now o.layout o.active
    (o.frame.hasRow.mpr he) (o.loose hl) (by rw [hrow, o.lane])
  refine ⟨s₂, q, ?_, o.chosen, hL, o.frame.trans f₂, ?_, fun y hy => ?_, ?_, fun p hp => ?_⟩
  · simp only [enqueue, entry_ok he, ok_bind, e₁, e₂]
  · rw [hre, hrow]
  · rw [hro y hy, hrow]
  · rw [hla, o.lane]
  · rw [hla, o.lanes p hp]

end Bray.Scheduler
