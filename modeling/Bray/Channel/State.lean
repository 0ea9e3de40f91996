/-
  File:      Bray/Channel/State.lean
  Subject:   THE STATE OF A CHANNEL (std/channel/storage.bray) and the contents it stands for: the
    messages in order, the two lines of waiters.

  The messages lie in a ring of slots. `ring` is the ring read from its head; every operation is
  described by what it does to `ring`, and from there to the list of messages (`contents`).
-/
import Bray.Channel.Queue
import Mathlib.Data.List.Induction

namespace Bray.Channel

open List


/-- What an operation on a channel can panic with. -/
inductive Panic where
  /-- "channel pending value has already been taken" -/
  | pendingTaken
  /-- "channel rendezvous ticket is not committed" -/
  | notCommitted
  /-- "channel message storage is full" -/
  | storageFull
  /-- "channel has no message to take" -/
  | noMessage
  /-- An index outside a slice, or "swap indexes must identify initialized elements". -/
  | outOfRange
  /-- A value is moved out of a slot that holds none: undefined, not a panic. -/
  | uninitialized

variable {T : Type}

/-! ## 1. Lists of slots -/

/-- `ring.index` -/
def ringIndex (head storageCapacity logicalIndex : Nat) : Nat :=
  if logicalIndex < storageCapacity - head then head + logicalIndex
  else logicalIndex - (storageCapacity - head)

/-- `swap_at` of std/collection/list.bray -/
def swapAt (values : List T) (left right : Nat) : Except Panic (List T) :=
  match values[left]?, values[right]? with
  | some temporary, some replacement =>
    if left = right then .ok values
    else .ok ((values.set left replacement).set right temporary)
  | _, _ => .error .outOfRange

/-- `reverse_values`, at its loop: `right - left` elements are still to be reversed. -/
def reverseLoop (values : List T) (left right : Nat) : Except Panic (List T) :=
  if left < right then do
    let right' := right - 1
    let values' ← if left < right' then swapAt values left right' else .ok values
    reverseLoop values' (left + 1) right'
  else .ok values
termination_by right - left

def reverseValues (values : List T) (count : Nat) : Except Panic (List T) :=
  reverseLoop values 0 count

/-- The loops of `take_storage`: `count` swaps of `left + index` with `right + index`. -/
def swapLoop (values : List T) (left right index : Nat) : Nat → Except Panic (List T)
  | 0 => .ok values
  | count + 1 => do
    let values' ← swapAt values (left + index) (right + index)
    swapLoop values' left right (index + 1) count

theorem swapAt_eq {values : List T} {left right : Nat} (hl : left < values.length) (hr : right < values.length) :
    swapAt values left right = .ok ((values.set left values[right]).set right values[left]) := by
  unfold swapAt
  rw [getElem?_eq_getElem hl, getElem?_eq_getElem hr]
  simp only
  split
  · rename_i e
    subst e
    rw [set_set, set_getElem_self]
  · rfl

/-- `swapLoop` brings the values from `right` on to `left` on, and leaves what is before. -/
theorem swapLoop_spec (values : List T) (left right index count : Nat) (hlr : left ≤ right)
    (hb : right + index + count ≤ values.length) :
    ∃ values', swapLoop values left right index count = .ok values' ∧ values'.length = values.length ∧
      values'.take (left + index + count) =
        values.take (left + index) ++ (values.drop (right + index)).take count := by
  induction count generalizing values index with
  | zero => exact ⟨values, rfl, rfl, by simp⟩
  | succ count ih =>
    have hr : right + index < values.length := by omega
    have hl : left + index < values.length := by omega
    rw [swapLoop, swapAt_eq hl hr]
    obtain ⟨values', he, hlen, htake⟩ :=
      ih ((values.set (left + index) values[right + index]).set (right + index)
        values[left + index]) (index + 1) (by simp; omega)
    refine ⟨values', he, by simpa using hlen, ?_⟩
    rw [show left + index + (count + 1) = left + (index + 1) + count by omega, htake]
    -- the slot at `right + index` was untouched so far, and is not read again
    have later : ((values.set (left + index) values[right + index]).set (right + index)
      values[left + index]).drop (right + (index + 1)) = values.drop (right + (index + 1)) := by
      rw [drop_set_of_lt (by omega), drop_set_of_lt (by omega)]
    rw [later, drop_eq_getElem_cons hr, take_succ_cons]
    rw [show left + (index + 1) = left + index + 1 by omega, take_add_one]
    rcases Nat.lt_or_eq_of_le hlr with hlt | rfl
    · rw [getElem?_set_ne (by omega), getElem?_set_self hl,
        take_set_of_le (by omega), take_set_of_le (Nat.le_refl _), Option.toList_some,
        append_assoc]
      rfl
    · rw [set_set, getElem?_set_self hl, take_set_of_le (Nat.le_refl _), Option.toList_some, append_assoc]
      rfl

/-- `reverseLoop` reverses the elements from `left` to `right`. -/
theorem reverseLoop_spec (before middle after : List T) :
    reverseLoop (before ++ middle ++ after) before.length (before.length + middle.length) =
      .ok (before ++ middle.reverse ++ after) := by
  induction middle using List.bidirectionalRec generalizing before after with
  | nil =>
    unfold reverseLoop
    simp
  | singleton a =>
    unfold reverseLoop
    unfold reverseLoop
    simp [bind, Except.bind]
  | cons_append a mid z ih =>
    -- the outer two are swapped, the elements between them are left to the loop
    have hlen : (a :: (mid ++ [z])).length = mid.length + 2 := by simp
    have hl : before.length < (before ++ (a :: (mid ++ [z])) ++ after).length := by simp
    have hr : before.length + mid.length + 1 < (before ++ (a :: (mid ++ [z])) ++ after).length := by
      simp
      omega
    have hgl : (before ++ (a :: (mid ++ [z])) ++ after)[before.length] = a := by simp
    have hgr : (before ++ (a :: (mid ++ [z])) ++ after)[before.length + mid.length + 1] = z := by
      rw [getElem_append_left (by simp; omega), getElem_append_right (by omega)]
      simp [show before.length + mid.length + 1 - before.length = mid.length + 1 by omega]
    have hset : ((before ++ (a :: (mid ++ [z])) ++ after).set before.length z).set
      (before.length + mid.length + 1) a = (before ++ [z]) ++ mid ++ ([a] ++ after) := by
      rw [append_assoc, set_append_right _ _ (Nat.le_refl _), Nat.sub_self,
        set_append_right _ _ (by omega)]
      rw [show before.length + mid.length + 1 - before.length = mid.length + 1 by omega]
      simp
    have inner := ih (before ++ [z]) ([a] ++ after)
    rw [length_append, length_singleton] at inner
    unfold reverseLoop
    rw [if_pos (by omega), hlen]
    simp only [show before.length + (mid.length + 2) - 1 = before.length + mid.length + 1 by omega]
    rw [if_pos (by omega), swapAt_eq hl hr, hgl, hgr, hset]
    simp only [bind, Except.bind]
    rw [show before.length + mid.length + 1 = before.length + 1 + mid.length by omega, inner]
    simp

theorem reverseValues_eq {values : List T} {count : Nat} (h : count ≤ values.length) :
    reverseValues values count = .ok ((values.take count).reverse ++ values.drop count) := by
  have := reverseLoop_spec [] (values.take count) (values.drop count)
  rw [length_take, Nat.min_eq_left h] at this
  simpa [reverseValues] using this

/-! ## 2. The state and its operations -/

structure ChannelState (T : Type) where
  /-- `Uninit<T>` slots: `none` is one that holds no value. -/
  storage : List (Option T)
  capacity : Nat
  head : Nat
  length : Nat
  receiverOpen : Bool
  rendezvousTicket : Option Nat
  sendWaiters : WaitQueue
  receiveWaiters : WaitQueue

namespace ChannelState

/-- `bounded` -/
def bounded (capacity : Nat) : ChannelState T where
  storage := List.replicate (if capacity = 0 then 1 else capacity) none
  capacity := capacity
  head := 0
  length := 0
  receiverOpen := true
  rendezvousTicket := none
  sendWaiters := .empty
  receiveWaiters := .empty

/-- The body of `take_storage`: the live ring is brought to the front of the buffer. -/
def frontValues (values : List (Option T)) (head length : Nat) : Except Panic (List (Option T)) :=
  let capacity := values.length
  let suffix := capacity - head
  if length = 0 then .ok values
  else if length ≤ suffix then swapLoop values 0 head 0 length
  else
    let pre := length - suffix
    if capacity - length ≥ suffix then do
      let values ← swapLoop values pre head 0 suffix
      let values ← reverseValues values pre
      let values ← reverseValues values length
      reverseValues values suffix
    else do
      let values ← reverseValues values head
      let values ← reverseValues values capacity
      reverseValues values suffix

/-- `take_storage`: the values handed over with the buffer. -/
def takeStorage (ch : ChannelState T) : Except Panic (List (Option T) × ChannelState T) := do
  let values ← frontValues ch.storage ch.head ch.length
  .ok (values.take ch.length, { ch with storage := [], length := 0, head := 0 })

def sendCanCommit (ch : ChannelState T) : Bool :=
  if ch.capacity = 0 then ch.length == 0 && !ch.receiveWaiters.isEmpty
  else ch.length < ch.capacity

def rendezvousBelongsTo (ch : ChannelState T) (ticket : Nat) : Bool :=
  match ch.rendezvousTicket with
  | some committed => committed == ticket
  | none => false

def storeMessage (ch : ChannelState T) (value : T) : Except Panic (ChannelState T) :=
  if ch.length ≥ ch.storage.length then .error .storageFull
  else
    let index := ringIndex ch.head ch.storage.length ch.length
    if index < ch.storage.length then
      .ok { ch with storage := ch.storage.set index (some value), length := ch.length + 1 }
    else .error .outOfRange

/-- `take_message`, with `channel_initialized_head` -/
def takeMessage (ch : ChannelState T) : Except Panic (T × ChannelState T) :=
  if ch.length = 0 then .error .noMessage
  else match ch.storage[ch.head]? with
    | none => .error .outOfRange
    | some none => .error .uninitialized
    | some (some value) =>
      let head := ch.head + 1
      .ok (value, { ch with
        storage := ch.storage.set ch.head none
        length := ch.length - 1
        head := if head = ch.storage.length then 0 else head })

def takeCommittedRendezvous (ch : ChannelState T) (ticket : Nat) :
  Except Panic (T × ChannelState T) :=
  if !ch.rendezvousBelongsTo ticket then .error .notCommitted
  else do
    let (message, ch) ← ch.takeMessage
    .ok (message, { ch with rendezvousTicket := none, sendWaiters := ch.sendWaiters.popHead })

def takeReceivedMessage (ch : ChannelState T) : Except Panic (T × ChannelState T) := do
  let (message, ch) ← ch.takeMessage
  match ch.rendezvousTicket with
  | some ticket =>
    .ok (message, { ch with
      sendWaiters := ch.sendWaiters.completeHead ticket
      rendezvousTicket := none })
  | none => .ok (message, ch)

/-! ## 3. The contents -/

/-- The slots in the order of the ring. -/
def ring (ch : ChannelState T) : List (Option T) := ch.storage.drop ch.head ++ ch.storage.take ch.head

def messages (ch : ChannelState T) : List T := (ch.ring.take ch.length).filterMap id

/-- **The invariant of the state**: the first `length` slots of the ring hold a message each, the
  slots are all there while the receiver lives, and both lines are well formed. -/
structure Sound (ch : ChannelState T) : Prop where
  head : ch.head < ch.storage.length ∨ ch.head = 0
  fits : ch.length ≤ ch.storage.length
  filled : ch.ring.take ch.length = ch.messages.map some
  slots : ch.receiverOpen = true → ch.storage.length = if ch.capacity = 0 then 1 else ch.capacity
  senders : ch.sendWaiters.WellFormed
  receivers : ch.receiveWaiters.WellFormed

theorem length_ring (ch : ChannelState T) : ch.ring.length = ch.storage.length := by
  rw [ring, length_append, length_drop, length_take]
  omega

variable {ch : ChannelState T}

theorem length_messages (h : ch.Sound) : ch.messages.length = ch.length := by
  have := congrArg List.length h.filled
  rw [length_take, length_ring, length_map] at this
  have := h.fits
  omega

/-- What the first slots hold determines the messages. -/
theorem messages_of_take {ch : ChannelState T} {ms : List T}
    (h : ch.ring.take ch.length = ms.map some) : ch.messages = ms := by
  rw [messages, h, filterMap_map]
  exact filterMap_some

theorem sound_bounded (capacity : Nat) : (bounded capacity : ChannelState T).Sound where
  head := .inr rfl
  fits := Nat.zero_le _
  filled := rfl
  slots := fun _ => length_replicate
  senders := WaitQueue.wellFormed_empty
  receivers := WaitQueue.wellFormed_empty

@[simp] theorem messages_bounded (capacity : Nat) :
  (bounded capacity : ChannelState T).messages = [] := rfl

variable {storage : List (Option T)}

/-- The ring after a slot was written. -/
theorem ring_set {head index : Nat} (hh : head ≤ storage.length) (hi : index < storage.length) (v : Option T) :
    (storage.set (ringIndex head storage.length index) v).drop head ++
       (storage.set (ringIndex head storage.length index) v).take head =
      (storage.drop head ++ storage.take head).set index v := by
  unfold ringIndex
  split
  · rename_i hlt
    rw [drop_set, if_neg (by omega), Nat.add_sub_cancel_left,
      take_set_of_le (by omega), set_append_left _ _ (by rw [length_drop]; exact hlt)]
  · rw [drop_set_of_lt (by omega), take_set,
      set_append_right _ _ (by rw [length_drop]; omega), length_drop]

theorem storeMessage_spec (h : ch.Sound) (hroom : ch.length < ch.storage.length)
    (value : T) : ∃ ch', ch.storeMessage value = .ok ch' ∧ ch'.Sound ∧ ch'.messages = ch.messages ++ [value] ∧
      ch' = { ch with storage := ch'.storage, length := ch.length + 1 } := by
  have hhead : ch.head ≤ ch.storage.length := by
    have := h.head
    omega
  have hindex : ringIndex ch.head ch.storage.length ch.length < ch.storage.length := by
    unfold ringIndex
    split <;> omega
  have hstore : ch.storeMessage value = .ok { ch with
    storage := ch.storage.set (ringIndex ch.head ch.storage.length ch.length) (some value)
    length := ch.length + 1 } := by
    rw [storeMessage, if_neg (by omega), if_pos hindex]
  refine ⟨_, hstore, ?_⟩
  have hring := ring_set hhead hroom (some value)
  have htake : ((ch.storage.drop ch.head ++ ch.storage.take ch.head).set ch.length
    (some value)).take (ch.length + 1) = (ch.messages ++ [value]).map some := by
    have hlen : ch.length < (ch.storage.drop ch.head ++ ch.storage.take ch.head).length := by
      have := length_ring ch
      rw [ring] at this
      omega
    rw [take_add_one, getElem?_set_self hlen, take_set_of_le (Nat.le_refl _), map_append, ← h.filled]
    rfl
  have hmessages := @messages_of_take T ({ ch with
    storage := ch.storage.set (ringIndex ch.head ch.storage.length ch.length) (some value)
    length := ch.length + 1 }) (ch.messages ++ [value]) (by
    rw [ring]
    rw [hring, htake])
  refine ⟨⟨?_, ?_, ?_, ?_, h.senders, h.receivers⟩, hmessages, rfl⟩
  · simpa using h.head
  · simp only [length_set]
    omega
  · rw [hmessages, ring]
    rw [hring, htake]
  · simpa using h.slots

theorem takeMessage_none (h : ch.Sound) (hm : ch.messages = []) : ch.takeMessage = .error .noMessage := by
  have hl : ch.length = 0 := by
    rw [← length_messages h, hm]
    rfl
  rw [takeMessage, if_pos hl]

theorem takeMessage_spec (h : ch.Sound) {m : T} {ms : List T}
    (hm : ch.messages = m :: ms) : ∃ ch', ch.takeMessage = .ok (m, ch') ∧ ch'.Sound ∧ ch'.messages = ms ∧
      ch' = { ch with storage := ch'.storage, length := ch'.length, head := ch'.head } := by
  have hlen := length_messages h
  rw [hm, length_cons] at hlen
  have hfits := h.fits
  have hhead : ch.head < ch.storage.length := by
    have := h.head
    omega
  -- the ring starts with the slot under the head
  have hring : ch.ring = ch.storage[ch.head] :: (ch.storage.drop (ch.head + 1) ++ ch.storage.take ch.head) := by
    rw [ring, drop_eq_getElem_cons hhead, cons_append]
  have hfilled := h.filled
  rw [hring, ← hlen, take_succ_cons, hm, map_cons] at hfilled
  obtain ⟨hslot, hrest⟩ := List.cons.inj hfilled
  have htaken : ch.takeMessage = .ok (m, { ch with
    storage := ch.storage.set ch.head none
    length := ch.length - 1
    head := if ch.head + 1 = ch.storage.length then 0 else ch.head + 1 }) := by
    rw [takeMessage, if_neg (by omega), getElem?_eq_getElem hhead, hslot]
  refine ⟨_, htaken, ?_⟩
  have hring' : (ch.storage.set ch.head none).drop
    (if ch.head + 1 = ch.storage.length then 0 else ch.head + 1) ++
    (ch.storage.set ch.head none).take
      (if ch.head + 1 = ch.storage.length then 0 else ch.head + 1) =
    ch.storage.drop (ch.head + 1) ++ ch.storage.take ch.head ++ [none] := by
    have htake : (ch.storage.set ch.head none).take (ch.head + 1) = ch.storage.take ch.head ++ [none] := by
      rw [take_add_one, getElem?_set_self hhead, take_set_of_le (Nat.le_refl _)]
      rfl
    split
    · rename_i hwrap
      rw [drop_zero, take_zero, append_nil,
        drop_of_length_le (Nat.le_of_eq hwrap.symm), nil_append, ← htake,
        take_of_length_le (by simp; omega)]
    · rw [drop_set_of_lt (by omega), htake, append_assoc]
  have htake' : (ch.storage.drop (ch.head + 1) ++ ch.storage.take ch.head ++ [none]).take
    (ch.length - 1) = ms.map some := by
    have hl : (ch.storage.drop (ch.head + 1) ++ ch.storage.take ch.head).length = ch.storage.length - 1 := by
      rw [length_append, length_drop, length_take]
      omega
    rw [take_append_of_le_length (by omega), ← hrest]
    congr 1
    omega
  have hmessages := @messages_of_take T ({ ch with
    storage := ch.storage.set ch.head none
    length := ch.length - 1
    head := if ch.head + 1 = ch.storage.length then 0 else ch.head + 1 }) ms (by
    rw [ring]
    rw [hring', htake'])
  refine ⟨⟨?_, ?_, ?_, ?_, h.senders, h.receivers⟩, hmessages, rfl⟩
  · simp only [length_set]
    split
    · exact .inr rfl
    · left
      omega
  · simp only [length_set]
    omega
  · rw [hmessages, ring]
    rw [hring', htake']
  · simpa using h.slots

theorem frontValues_spec {head length : Nat} (hhead : head ≤ storage.length) (hfits : length ≤ storage.length) :
    ∃ values, frontValues storage head length = .ok values ∧
      values.take length = (storage.drop head ++ storage.take head).take length := by
  unfold frontValues
  simp only
  split
  · rename_i h0
    exact ⟨_, rfl, by simp [h0]⟩
  split
  · -- the ring does not wrap
    rename_i hle
    obtain ⟨values, he, -, ht⟩ :=
      swapLoop_spec storage 0 head 0 length (Nat.zero_le _) (by omega)
    refine ⟨values, he, ?_⟩
    simp only [Nat.zero_add, Nat.add_zero, take_zero, nil_append] at ht
    rw [ht, take_append_of_le_length (by rw [length_drop]; exact hle)]
  · have hrdrop : (storage.drop head).length = storage.length - head := length_drop
    split
    · -- the suffix moves into the gap, then three reversals swap it with the part before it
      obtain ⟨values, he, hlen, ht⟩ := swapLoop_spec storage
        (length - (storage.length - head)) head 0 (storage.length - head)
        (by omega) (by omega)
      have htake : (storage.drop head).take (storage.length - head) =
        storage.drop head := take_of_length_le (Nat.le_of_eq hrdrop)
      rw [Nat.add_zero, Nat.add_zero, htake,
        show length - (storage.length - head) + (storage.length - head) = length by
          omega] at ht
      have hvalues : values = storage.take (length - (storage.length - head)) ++
        storage.drop head ++ values.drop length := by
        rw [← ht, take_append_drop]
      generalize hsuffix : storage.drop head = suffix at *
      generalize hpre : storage.take (length - (storage.length - head)) = pre at *
      generalize values.drop length = gap at hvalues
      have hprelen : pre.length = length - (storage.length - head) := by
        rw [← hpre, length_take]
        omega
      subst hvalues
      refine ⟨suffix ++ pre ++ gap, ?_, ?_⟩
      · rw [he]
        simp only [bind, Except.bind]
        rw [reverseValues_eq (by omega)]
        simp only
        rw [← hprelen, append_assoc, take_left, drop_left, reverseValues_eq (by simp; omega)]
        simp only
        have hl : length = (pre.reverse ++ suffix).length := by
          rw [length_append, length_reverse]
          omega
        rw [hl, ← append_assoc, take_left, drop_left,
          reverseValues_eq (by simp; omega), ← hrdrop, reverse_append, reverse_reverse,
          append_assoc]
        simp
      · have hl : length = (suffix ++ pre).length := by
          rw [length_append]
          omega
        rw [take_append_of_le_length (Nat.le_of_eq hl), hl, take_length]
        rw [length_append, take_append, take_of_length_le (Nat.le_add_right _ _),
          Nat.add_sub_cancel_left, take_take, hprelen, ← hpre]
        congr 2
        omega
    · -- both parts are reversed within the whole buffer
      have hslen : storage.length = ((storage.take head).reverse ++ storage.drop head).length := by
        simp
        omega
      refine ⟨storage.drop head ++ storage.take head, ?_, rfl⟩
      rw [reverseValues_eq hhead]
      simp only [bind, Except.bind]
      rw [reverseValues_eq (Nat.le_of_eq hslen)]
      simp only
      rw [take_of_length_le (Nat.le_of_eq hslen.symm),
        drop_of_length_le (Nat.le_of_eq hslen.symm), append_nil, reverse_append,
        reverse_reverse, reverseValues_eq (by simp), ← hrdrop,
        show (storage.drop head).length = (storage.drop head).reverse.length by simp,
        take_left, drop_left, reverse_reverse]

/-- `take_storage` hands over every message, in order. -/
theorem takeStorage_spec (h : ch.Sound) :
    ch.takeStorage = .ok (ch.messages.map some, { ch with storage := [], length := 0, head := 0 }) := by
  have hhead : ch.head ≤ ch.storage.length := by
    have := h.head
    omega
  obtain ⟨values, he, ht⟩ := frontValues_spec hhead h.fits
  rw [takeStorage, he, ← h.filled, ring, ← ht]
  rfl

/-- The slot at a place of the ring. -/
theorem getElem?_ring {head index : Nat} (hhead : head ≤ storage.length) (hi : index < storage.length) :
    (storage.drop head ++ storage.take head)[index]? = storage[ringIndex head storage.length index]? := by
  unfold ringIndex
  split
  · rw [getElem?_append_left (by rw [length_drop]; omega), getElem?_drop]
  · rw [getElem?_append_right (by rw [length_drop]; omega), length_drop, getElem?_take,
      if_pos (by omega)]

/-- **The ring is unrolled in order**: no swap leaves the buffer, and the slots handed over are those of the ring,
  from its head on. -/
theorem takeStorage_in_order {ch : ChannelState T} (hhead : ch.head ≤ ch.storage.length)
    (hfits : ch.length ≤ ch.storage.length) :
  ∃ values, ch.takeStorage = .ok (values, { ch with storage := [], length := 0, head := 0 }) ∧
    values.length = ch.length ∧
    ∀ index < ch.length, values[index]? = ch.storage[ringIndex ch.head ch.storage.length index]? := by
  obtain ⟨values, he, ht⟩ := frontValues_spec hhead hfits
  refine ⟨values.take ch.length, by rw [takeStorage, he]; rfl, ?_, fun index hi => ?_⟩
  · rw [ht, length_take, length_append, length_drop, length_take]
    omega
  · rw [ht, getElem?_take, if_pos hi, getElem?_ring hhead (by omega)]

/-- Three messages in a ring of four, the first in the last slot. -/
def wrapped : ChannelState Nat :=
  { (bounded 4 : ChannelState Nat) with storage := [some 2, some 3, none, some 1], head := 3, length := 3 }

theorem takeStorage_in_order_wrapped :
  ∃ values, wrapped.takeStorage = .ok (values, { wrapped with storage := [], length := 0, head := 0 }) ∧
    values.length = 3 ∧
    ∀ index < 3, values[index]? = [some 2, some 3, none, some 1][ringIndex 3 4 index]? :=
  takeStorage_in_order (by decide) (by decide)

end ChannelState

end Bray.Channel
