/-
  File:      Bray/Channel/Endpoint.lean
  Subject:   THE OPERATIONS UNDER THE LOCK (std/channel/endpoint.bray, lifecycle.bray): one turn of
    the loop of `send` and of `receive`, `try_send`, `try_receive`, `withdraw_waiter`,
    `release_receiver`.

  Beside each operation stands what it does to the contents of the channel: a list of messages, two
  plain queues, the rendezvous ticket (`Contents`). The lemma that connects the two is all that the
  protocol above needs to know of rings and wait queues.
-/
import Bray.Channel.State

namespace Bray.Channel

open WaitQueue

open Bool (and_eq_true not_eq_true not_eq_true')

variable {T : Type}

/-! ## 1. The contents of a channel -/

structure Contents (T : Type) where
  capacity : Nat
  messages : List T
  receiverOpen : Bool
  rendezvous : Option Nat
  senders : Fifo
  receivers : Fifo

namespace Fifo

def Leads (f : Fifo) (ticket : Nat) : Prop := ∃ done tail, f.line = (ticket, done) :: tail

end Fifo

namespace Contents

def CanCommit (c : Contents T) : Prop :=
  if c.capacity = 0 then c.messages = [] ∧ c.receivers.line ≠ [] else c.messages.length < c.capacity

/-- The first message is gone; the send that waits for its receipt is told. -/
def taken (c : Contents T) (ms : List T) : Contents T :=
  { c with
    messages := ms
    rendezvous := none
    senders := match c.rendezvous with
      | some ticket => c.senders.completeHead ticket
      | none => c.senders }

def takenBack (c : Contents T) (ms : List T) : Contents T :=
  { c with messages := ms, rendezvous := none, senders := c.senders.popHead }

end Contents

namespace ChannelState

def contents (ch : ChannelState T) : Contents T where
  capacity := ch.capacity
  messages := ch.messages
  receiverOpen := ch.receiverOpen
  rendezvous := ch.rendezvousTicket
  senders := ch.sendWaiters.view
  receivers := ch.receiveWaiters.view

variable {ch : ChannelState T}

theorem length_eq_zero_iff (h : ch.Sound) : ch.length = 0 ↔ ch.messages = [] := by
  rw [← length_messages h, List.length_eq_zero_iff]

theorem sendCanCommit_iff (h : ch.Sound) : ch.sendCanCommit = true ↔ ch.contents.CanCommit := by
  unfold sendCanCommit Contents.CanCommit contents
  split
  · rw [and_eq_true, beq_iff_eq, length_eq_zero_iff h, not_eq_true', ← not_eq_true,
    isEmpty_view h.receivers]
  · rw [decide_eq_true_eq, length_messages h]

theorem rendezvousBelongsTo_iff (ch : ChannelState T) (ticket : Nat) :
    ch.rendezvousBelongsTo ticket = true ↔ ch.rendezvousTicket = some ticket := by
  unfold rendezvousBelongsTo
  cases ch.rendezvousTicket with
  | none => simp
  | some committed => simp

theorem room_of_canCommit (h : ch.Sound) (ho : ch.receiverOpen = true)
    (hc : ch.contents.CanCommit) : ch.length < ch.storage.length := by
  have hs := h.slots ho
  unfold Contents.CanCommit contents at hc
  simp only at hc
  split at hc
  · rename_i h0
    rw [if_pos h0] at hs
    have := (length_eq_zero_iff h).mpr hc.1
    omega
  · rename_i h0
    rw [if_neg h0] at hs
    rw [length_messages h] at hc
    omega

theorem store_contents {ch' : ChannelState T} {value : T} (hm : ch'.messages = ch.messages ++ [value])
  (he : ch' = { ch with storage := ch'.storage, length := ch.length + 1 }) :
  ch'.contents = { ch.contents with messages := ch.messages ++ [value] } := by
  unfold contents
  rw [hm]
  rw [he]

/-- Other queues and another ticket under the same messages. -/
theorem sound_with (h : ch.Sound) {sw rw : WaitQueue} (r : Option Nat) (hs : sw.WellFormed) (hr : rw.WellFormed) :
  ({ ch with sendWaiters := sw, receiveWaiters := rw, rendezvousTicket := r } :
    ChannelState T).Sound :=
  ⟨h.head, h.fits, h.filled, h.slots, hs, hr⟩

theorem takeCommittedRendezvous_spec (h : ch.Sound) {ticket : Nat}
    (hr : ch.rendezvousTicket = some ticket) {m : T} {ms : List T} (hm : ch.messages = m :: ms) :
    ∃ ch', ch.takeCommittedRendezvous ticket = .ok (m, ch') ∧ ch'.Sound ∧
      ch'.contents = ch.contents.takenBack ms := by
  obtain ⟨ch', he, hs, hms, hch⟩ := takeMessage_spec h hm
  have hb := (rendezvousBelongsTo_iff ch ticket).mpr hr
  have hsw : ch'.sendWaiters = ch.sendWaiters := by rw [hch]
  refine ⟨{ ch' with rendezvousTicket := none, sendWaiters := ch'.sendWaiters.popHead }, ?_, ?_, ?_⟩
  · rw [takeCommittedRendezvous, hb, he]
    rfl
  · exact sound_with hs none (wellFormed_popHead hs.senders) hs.receivers
  · have hv := view_popHead hs.senders
    unfold contents Contents.takenBack
    rw [hv, hsw]
    rw [hch] at hms ⊢
    rw [← hms]
    rfl

theorem takeCommittedRendezvous_none (h : ch.Sound) {ticket : Nat}
    (hr : ch.rendezvousTicket = some ticket) (hm : ch.messages = []) :
    ch.takeCommittedRendezvous ticket = .error .noMessage := by
  have hb := (rendezvousBelongsTo_iff ch ticket).mpr hr
  rw [takeCommittedRendezvous, hb, takeMessage_none h hm]
  rfl

theorem takeReceivedMessage_spec (h : ch.Sound) {m : T} {ms : List T} (hm : ch.messages = m :: ms) :
    ∃ ch', ch.takeReceivedMessage = .ok (m, ch') ∧ ch'.Sound ∧
      ch'.contents = ch.contents.taken ms ∧ ch'.receiveWaiters = ch.receiveWaiters := by
  obtain ⟨ch', he, hs, hms, hch⟩ := takeMessage_spec h hm
  have hr : ch'.rendezvousTicket = ch.rendezvousTicket := by rw [hch]
  unfold takeReceivedMessage
  rw [he]
  simp only [bind, Except.bind]
  cases hr' : ch.rendezvousTicket with
  | none =>
    rw [hr, hr']
    refine ⟨ch', rfl, hs, ?_, by rw [hch]⟩
    unfold contents Contents.taken
    rw [hms]
    rw [hch]
    simp [hr']
  | some ticket =>
    rw [hr, hr']
    refine ⟨_, rfl, sound_with hs none (wellFormed_completeHead hs.senders ticket)
      hs.receivers, ?_, by rw [hch]⟩
    have hv := view_completeHead hs.senders ticket
    have hsw : ch'.sendWaiters = ch.sendWaiters := by rw [hch]
    unfold contents Contents.taken
    rw [hv, hsw, hr']
    rw [hch] at hms ⊢
    rw [← hms]
    rfl

end ChannelState

/-! ## 2. One turn of `send` -/

/-- How a turn of the loop of `send` ends. -/
inductive SendTurn (T : Type) where
  /-- `Error(Closed(message))` -/
  | closed (message : T)
  /-- `Ok`, of a rendezvous whose message was received. -/
  | acknowledged
  /-- `Ok`, the message was stored. -/
  | admitted (message : T)
  /-- The message was stored and waits for its receipt. -/
  | committed (message : T)
  | waits
  | panicked (panic : Panic)

/-- The body of the loop of `send`: the channel, the pending value, the end of the turn. -/
def ChannelState.sendTurn (ch : ChannelState T) (ticket : Nat) (pending : Option T) :
  ChannelState T × Option T × SendTurn T :=
  if !ch.receiverOpen then
    if ch.rendezvousBelongsTo ticket then
      match ch.takeCommittedRendezvous ticket with
      | .ok (message, ch) => (ch, pending, .closed message)
      | .error panic => (ch, pending, .panicked panic)
    else
      let ch := { ch with sendWaiters := (ch.sendWaiters.remove ticket).1 }
      match pending with
      | some message => (ch, none, .closed message)
      | none => (ch, none, .panicked .pendingTaken)
  else if ch.capacity == 0 && ch.sendWaiters.isHeadCompleted ticket then
    ({ ch with sendWaiters := ch.sendWaiters.popHead }, pending, .acknowledged)
  else if ch.sendWaiters.isHead ticket && ch.sendCanCommit then
    match pending with
    | none => (ch, none, .panicked .pendingTaken)
    | some message => match ch.storeMessage message with
      | .error panic => (ch, none, .panicked panic)
      | .ok ch =>
        if ch.capacity = 0 then
          ({ ch with rendezvousTicket := some ticket }, none, .committed message)
        else ({ ch with sendWaiters := ch.sendWaiters.popHead }, none, .admitted message)
  else (ch, pending, .waits)

/-- What a turn of `send` does to the contents. -/
inductive Contents.Sends (c : Contents T) (ticket : Nat) (pending : Option T) :
  Contents T → Option T → SendTurn T → Prop where
  | takesBack (m : T) (ms : List T) (ho : c.receiverOpen = false) (hr : c.rendezvous = some ticket)
    (hm : c.messages = m :: ms) : Sends c ticket pending (c.takenBack ms) pending (.closed m)
  | lacks (ho : c.receiverOpen = false) (hr : c.rendezvous = some ticket) (hm : c.messages = []) :
    Sends c ticket pending c pending (.panicked .noMessage)
  | returns (m : T) (ho : c.receiverOpen = false) (hr : c.rendezvous ≠ some ticket)
    (hp : pending = some m) :
    Sends c ticket pending { c with senders := c.senders.remove ticket } none (.closed m)
  | breaks (ho : c.receiverOpen = false) (hr : c.rendezvous ≠ some ticket) (hp : pending = none) :
    Sends c ticket pending { c with senders := c.senders.remove ticket } none
      (.panicked .pendingTaken)
  | acknowledges (tail : List (Nat × Bool)) (ho : c.receiverOpen = true) (h0 : c.capacity = 0)
    (hl : c.senders.line = (ticket, true) :: tail) :
    Sends c ticket pending { c with senders := c.senders.popHead } pending .acknowledged
  | commits (m : T) (tail : List (Nat × Bool)) (ho : c.receiverOpen = true) (h0 : c.capacity = 0)
    (hl : c.senders.line = (ticket, false) :: tail) (hc : c.CanCommit) (hp : pending = some m) :
    Sends c ticket pending { c with messages := c.messages ++ [m], rendezvous := some ticket } none
      (.committed m)
  | admits (m : T) (ho : c.receiverOpen = true) (h0 : c.capacity ≠ 0) (hl : c.senders.Leads ticket)
    (hc : c.CanCommit) (hp : pending = some m) :
    Sends c ticket pending { c with messages := c.messages ++ [m], senders := c.senders.popHead }
      none (.admitted m)
  | spent (done : Bool) (tail : List (Nat × Bool)) (ho : c.receiverOpen = true)
    (hl : c.senders.line = (ticket, done) :: tail) (hd : c.capacity = 0 → done = false)
    (hc : c.CanCommit) (hp : pending = none) :
    Sends c ticket pending c none (.panicked .pendingTaken)
  | waits (ho : c.receiverOpen = true) (hw : ¬ (c.senders.Leads ticket ∧ c.CanCommit))
    (hd : ∀ tail, c.capacity = 0 → c.senders.line ≠ (ticket, true) :: tail) :
    Sends c ticket pending c pending .waits

namespace ChannelState

/-- The queue was changed, nothing else. -/
theorem contents_senders (ch : ChannelState T) {q : WaitQueue} {f : Fifo} (h : q.view = f) :
    ({ ch with sendWaiters := q } : ChannelState T).contents = { ch.contents with senders := f } := by
  unfold contents
  rw [h]
  rfl

theorem contents_receivers (ch : ChannelState T) {q : WaitQueue} {f : Fifo} (h : q.view = f) :
  ({ ch with receiveWaiters := q } : ChannelState T).contents = { ch.contents with receivers := f } := by
  unfold contents
  rw [h]
  rfl

/-- **A turn of `send`, on the contents.** -/
theorem sendTurn_spec {ch ch' : ChannelState T} (h : ch.Sound) {ticket : Nat}
    {pending pending' : Option T} {turn : SendTurn T} (ht : ch.sendTurn ticket pending = (ch', pending', turn)) :
    ch'.Sound ∧ ch.contents.Sends ticket pending ch'.contents pending' turn := by
  unfold sendTurn at ht
  split at ht
  · rename_i hclosed
    have ho : ch.receiverOpen = false := by simpa using hclosed
    split at ht
    · rename_i hb
      have hr := (rendezvousBelongsTo_iff ch ticket).mp hb
      cases hm : ch.messages with
      | nil =>
        rw [takeCommittedRendezvous_none h hr hm] at ht
        cases ht
        exact ⟨h, .lacks ho hr hm⟩
      | cons m ms =>
        obtain ⟨ch₁, he, hs, hc⟩ := takeCommittedRendezvous_spec h hr hm
        rw [he] at ht
        cases ht
        rw [hc]
        exact ⟨hs, .takesBack m ms ho hr hm⟩
    · rename_i hb
      have hr : ch.rendezvousTicket ≠ some ticket := fun e =>
        hb ((rendezvousBelongsTo_iff ch ticket).mpr e)
      have hs : ({ ch with sendWaiters := (ch.sendWaiters.remove ticket).1 } :
        ChannelState T).Sound :=
        sound_with h _ (wellFormed_remove h.senders ticket) h.receivers
      have hc := contents_senders ch (view_remove h.senders ticket)
      cases pending with
      | some m =>
        cases ht
        rw [hc]
        exact ⟨hs, .returns m ho hr rfl⟩
      | none =>
        cases ht
        rw [hc]
        exact ⟨hs, .breaks ho hr rfl⟩
  · rename_i hopen
    have ho : ch.receiverOpen = true := by simpa using hopen
    split at ht
    · rename_i hdone
      rw [and_eq_true, beq_iff_eq, isHeadCompleted_view h.senders] at hdone
      obtain ⟨h0, tail, hl⟩ := hdone
      cases ht
      refine ⟨sound_with h _ (wellFormed_popHead h.senders) h.receivers, ?_⟩
      rw [contents_senders ch (view_popHead h.senders)]
      exact .acknowledges tail ho h0 hl
    · rename_i hdone
      have hnot : ∀ tail, ch.capacity = 0 → ch.sendWaiters.view.line ≠ (ticket, true) :: tail := by
        intro tail h0 hl
        refine hdone ?_
        rw [and_eq_true, beq_iff_eq, isHeadCompleted_view h.senders]
        exact ⟨h0, tail, hl⟩
      split at ht
      · rename_i hcommit
        rw [and_eq_true, isHead_view h.senders, sendCanCommit_iff h] at hcommit
        obtain ⟨⟨done, tail, hl⟩, hc⟩ := hcommit
        have hfalse : ch.capacity = 0 → done = false := by
          intro h0
          cases done with
          | false => rfl
          | true => exact absurd hl (hnot tail h0)
        cases pending with
        | none =>
          cases ht
          exact ⟨h, .spent done tail ho hl hfalse hc rfl⟩
        | some m =>
          obtain ⟨ch₁, he, hs, hm, hch⟩ := storeMessage_spec h (room_of_canCommit h ho hc) m
          have hcontents := store_contents hm hch
          have hcap : ch₁.capacity = ch.capacity := by rw [hch]
          have hsw : ch₁.sendWaiters = ch.sendWaiters := by rw [hch]
          simp only [he] at ht
          split at ht
          · rename_i h0
            rw [hcap] at h0
            cases ht
            refine ⟨sound_with hs _ hs.senders hs.receivers, ?_⟩
            have hr : ({ ch₁ with rendezvousTicket := some ticket } : ChannelState T).contents =
              { ch₁.contents with rendezvous := some ticket } := rfl
            rw [hr, hcontents]
            exact .commits m tail ho h0 (hfalse h0 ▸ hl) hc rfl
          · rename_i h0
            rw [hcap] at h0
            cases ht
            refine ⟨sound_with hs _ (wellFormed_popHead hs.senders) hs.receivers, ?_⟩
            rw [contents_senders ch₁ (view_popHead hs.senders), hcontents, hsw]
            exact .admits m ho h0 ⟨done, tail, hl⟩ hc rfl
      · rename_i hwait
        cases ht
        refine ⟨h, .waits ho (fun hboth => hwait ?_) hnot⟩
        rw [and_eq_true, isHead_view h.senders, sendCanCommit_iff h]
        exact hboth

end ChannelState

/-! ## 3. One turn of `receive`, and `try_receive` -/

inductive ReceiveTurn (T : Type) where
  | received (message : T)
  | closed
  | waits
  | panicked (panic : Panic)

/-- The body of the loop of `receive`; `sendersClosed` is `all_senders_closed`. -/
def ChannelState.receiveTurn (ch : ChannelState T) (ticket : Nat) (sendersClosed : Bool) :
  ChannelState T × ReceiveTurn T :=
  if ch.receiveWaiters.isHead ticket && 0 < ch.length then
    match ch.takeReceivedMessage with
    | .error panic => (ch, .panicked panic)
    | .ok (message, ch) =>
      ({ ch with receiveWaiters := ch.receiveWaiters.popHead }, .received message)
  else if ch.receiveWaiters.isHead ticket && sendersClosed then
    ({ ch with receiveWaiters := ch.receiveWaiters.popHead }, .closed)
  else (ch, .waits)

inductive Contents.Receives (c : Contents T) (ticket : Nat) (sendersClosed : Bool) :
  Contents T → ReceiveTurn T → Prop where
  | takes (m : T) (ms : List T) (hl : c.receivers.Leads ticket) (hm : c.messages = m :: ms) :
    Receives c ticket sendersClosed { c.taken ms with receivers := c.receivers.popHead }
      (.received m)
  | closes (hl : c.receivers.Leads ticket) (hm : c.messages = []) (hs : sendersClosed = true) :
    Receives c ticket sendersClosed { c with receivers := c.receivers.popHead } .closed
  | waits (hw : c.receivers.Leads ticket → c.messages = [] ∧ sendersClosed = false) :
    Receives c ticket sendersClosed c .waits

inductive TryReceive (T : Type) where
  | received (message : T)
  | closed
  | empty
  | panicked (panic : Panic)

def ChannelState.tryReceive (ch : ChannelState T) (sendersClosed : Bool) :
  ChannelState T × TryReceive T :=
  if ch.receiveWaiters.isEmpty && 0 < ch.length then
    match ch.takeReceivedMessage with
    | .error panic => (ch, .panicked panic)
    | .ok (message, ch) => (ch, .received message)
  else if sendersClosed then (ch, .closed)
  else (ch, .empty)

inductive Contents.TriesReceive (c : Contents T) (sendersClosed : Bool) :
  Contents T → TryReceive T → Prop where
  | takes (m : T) (ms : List T) (hl : c.receivers.line = []) (hm : c.messages = m :: ms) :
    TriesReceive c sendersClosed (c.taken ms) (.received m)
  | closes (hb : c.receivers.line = [] → c.messages = []) (hs : sendersClosed = true) :
    TriesReceive c sendersClosed c .closed
  | fails (hb : c.receivers.line = [] → c.messages = []) (hs : sendersClosed = false) :
    TriesReceive c sendersClosed c .empty

namespace ChannelState

theorem length_pos_iff {ch : ChannelState T} (h : ch.Sound) : 0 < ch.length ↔ ∃ m ms, ch.messages = m :: ms := by
  rw [Nat.pos_iff_ne_zero, ne_eq, length_eq_zero_iff h, ← ne_eq, List.ne_nil_iff_exists_cons]

/-- **A turn of `receive`, on the contents.** -/
theorem receiveTurn_spec {ch ch' : ChannelState T} (h : ch.Sound) {ticket : Nat}
    {sendersClosed : Bool} {turn : ReceiveTurn T} (ht : ch.receiveTurn ticket sendersClosed = (ch', turn)) :
    ch'.Sound ∧ ch.contents.Receives ticket sendersClosed ch'.contents turn := by
  unfold receiveTurn at ht
  split at ht
  · rename_i hg
    rw [and_eq_true, isHead_view h.receivers, decide_eq_true_eq, length_pos_iff h] at hg
    obtain ⟨hl, m, ms, hm⟩ := hg
    obtain ⟨ch₁, he, hs, hc, hrw⟩ := takeReceivedMessage_spec h hm
    rw [he] at ht
    cases ht
    refine ⟨sound_with hs _ hs.senders (wellFormed_popHead hs.receivers), ?_⟩
    rw [contents_receivers ch₁ (view_popHead hs.receivers), hc, hrw]
    exact .takes m ms hl hm
  · rename_i hg
    have hempty : ch.receiveWaiters.view.Leads ticket → ch.messages = [] := by
      intro hl
      refine (length_eq_zero_iff h).mp (Nat.eq_zero_of_not_pos fun hpos => hg ?_)
      rw [and_eq_true, isHead_view h.receivers, decide_eq_true_eq]
      exact ⟨hl, hpos⟩
    split at ht
    · rename_i hcl
      rw [and_eq_true, isHead_view h.receivers] at hcl
      cases ht
      refine ⟨sound_with h _ h.senders (wellFormed_popHead h.receivers), ?_⟩
      rw [contents_receivers ch (view_popHead h.receivers)]
      exact .closes hcl.1 (hempty hcl.1) hcl.2
    · rename_i hcl
      cases ht
      refine ⟨h, .waits fun hl => ⟨hempty hl, ?_⟩⟩
      cases hsc : sendersClosed with
      | false => rfl
      | true =>
        refine absurd ?_ hcl
        rw [and_eq_true, isHead_view h.receivers]
        exact ⟨hl, hsc⟩

/-- **`try_receive`, on the contents.** -/
theorem tryReceive_spec {ch ch' : ChannelState T} (h : ch.Sound) {sendersClosed : Bool}
    {result : TryReceive T} (ht : ch.tryReceive sendersClosed = (ch', result)) :
    ch'.Sound ∧ ch.contents.TriesReceive sendersClosed ch'.contents result := by
  unfold tryReceive at ht
  split at ht
  · rename_i hg
    rw [and_eq_true, isEmpty_view h.receivers, decide_eq_true_eq, length_pos_iff h] at hg
    obtain ⟨hl, m, ms, hm⟩ := hg
    obtain ⟨ch₁, he, hs, hc, -⟩ := takeReceivedMessage_spec h hm
    rw [he] at ht
    cases ht
    rw [hc]
    exact ⟨hs, .takes m ms hl hm⟩
  · rename_i hg
    have hempty : ch.receiveWaiters.view.line = [] → ch.messages = [] := by
      intro hl
      refine (length_eq_zero_iff h).mp (Nat.eq_zero_of_not_pos fun hpos => hg ?_)
      rw [and_eq_true, isEmpty_view h.receivers, decide_eq_true_eq]
      exact ⟨hl, hpos⟩
    split at ht
    · rename_i hs
      cases ht
      exact ⟨h, .closes hempty hs⟩
    · rename_i hs
      cases ht
      exact ⟨h, .fails hempty (by simpa using hs)⟩

end ChannelState

/-! ## 4. `try_send`, `withdraw_waiter`, `release_receiver` -/

inductive TrySend (T : Type) where
  | sent
  | full
  | closed
  | panicked (panic : Panic)

def ChannelState.trySend (ch : ChannelState T) (value : T) : ChannelState T × TrySend T :=
  if !ch.receiverOpen then (ch, .closed)
  else if !ch.sendWaiters.isEmpty || !ch.sendCanCommit then (ch, .full)
  else match ch.storeMessage value with
    | .error panic => (ch, .panicked panic)
    | .ok ch => (ch, .sent)

inductive Contents.TriesSend (c : Contents T) (value : T) : Contents T → TrySend T → Prop where
  | closes (ho : c.receiverOpen = false) : TriesSend c value c .closed
  | fails (ho : c.receiverOpen = true) (hf : c.senders.line ≠ [] ∨ ¬ c.CanCommit) :
    TriesSend c value c .full
  | stores (ho : c.receiverOpen = true) (hl : c.senders.line = []) (hc : c.CanCommit) :
    TriesSend c value { c with messages := c.messages ++ [value] } .sent

/-- `withdraw_waiter` of a sender: the message that is discarded. -/
def ChannelState.withdrawSender (ch : ChannelState T) (ticket : Nat) :
  ChannelState T × Except Panic (Option T) :=
  if ch.rendezvousBelongsTo ticket then
    match ch.takeCommittedRendezvous ticket with
    | .error panic => (ch, .error panic)
    | .ok (message, ch) => (ch, .ok (some message))
  else ({ ch with sendWaiters := (ch.sendWaiters.remove ticket).1 }, .ok none)

inductive Contents.Withdraws (c : Contents T) (ticket : Nat) :
  Contents T → Except Panic (Option T) → Prop where
  | takesBack (m : T) (ms : List T) (hr : c.rendezvous = some ticket) (hm : c.messages = m :: ms) :
    Withdraws c ticket (c.takenBack ms) (.ok (some m))
  | lacks (hr : c.rendezvous = some ticket) (hm : c.messages = []) :
    Withdraws c ticket c (.error .noMessage)
  | leaves (hr : c.rendezvous ≠ some ticket) :
    Withdraws c ticket { c with senders := c.senders.remove ticket } (.ok none)

/-- `withdraw_waiter` of a receiver -/
def ChannelState.withdrawReceiver (ch : ChannelState T) (ticket : Nat) : ChannelState T :=
  { ch with receiveWaiters := (ch.receiveWaiters.remove ticket).1 }

/-- `release_receiver`: the values that are discarded. -/
def ChannelState.releaseReceiver (ch : ChannelState T) :
  ChannelState T × Except Panic (List (Option T)) :=
  let ch := { ch with receiverOpen := false }
  if ch.rendezvousTicket.isSome then (ch, .ok [])
  else match ch.takeStorage with
    | .error panic => (ch, .error panic)
    | .ok (values, ch) => (ch, .ok values)

inductive Contents.Releases (c : Contents T) : Contents T → List T → Prop where
  | keeps (ticket : Nat) (hr : c.rendezvous = some ticket) :
    Releases c { c with receiverOpen := false } []
  | drains (hr : c.rendezvous = none) :
    Releases c { c with receiverOpen := false, messages := [] } c.messages

namespace ChannelState

variable {ch ch' : ChannelState T}

/-- **`try_send`, on the contents.** -/
theorem trySend_spec (h : ch.Sound) {value : T} {result : TrySend T} (ht : ch.trySend value = (ch', result)) :
    ch'.Sound ∧ ch.contents.TriesSend value ch'.contents result := by
  unfold trySend at ht
  split at ht
  · rename_i hclosed
    have ho : ch.receiverOpen = false := by simpa using hclosed
    cases ht
    exact ⟨h, .closes ho⟩
  · rename_i hopen
    have ho : ch.receiverOpen = true := by simpa using hopen
    split at ht
    · rename_i hf
      cases ht
      refine ⟨h, .fails ho ?_⟩
      rw [Bool.or_eq_true, not_eq_true', not_eq_true', ← not_eq_true,
        isEmpty_view h.senders, ← not_eq_true, sendCanCommit_iff h] at hf
      exact hf
    · rename_i hf
      rw [Bool.or_eq_true, not_eq_true', not_eq_true', ← not_eq_true,
        isEmpty_view h.senders, ← not_eq_true, sendCanCommit_iff h, not_or,
        not_not, not_not] at hf
      obtain ⟨ch₁, he, hs, hm, hch⟩ := storeMessage_spec h (room_of_canCommit h ho hf.2) value
      rw [he] at ht
      cases ht
      rw [store_contents hm hch]
      exact ⟨hs, .stores ho hf.1 hf.2⟩

theorem withdrawSender_spec (h : ch.Sound) {ticket : Nat}
    {result : Except Panic (Option T)} (ht : ch.withdrawSender ticket = (ch', result)) :
    ch'.Sound ∧ ch.contents.Withdraws ticket ch'.contents result := by
  unfold withdrawSender at ht
  split at ht
  · rename_i hb
    have hr := (rendezvousBelongsTo_iff ch ticket).mp hb
    cases hm : ch.messages with
    | nil =>
      rw [takeCommittedRendezvous_none h hr hm] at ht
      cases ht
      exact ⟨h, .lacks hr hm⟩
    | cons m ms =>
      obtain ⟨ch₁, he, hs, hc⟩ := takeCommittedRendezvous_spec h hr hm
      rw [he] at ht
      cases ht
      rw [hc]
      exact ⟨hs, .takesBack m ms hr hm⟩
  · rename_i hb
    cases ht
    refine ⟨sound_with h _ (wellFormed_remove h.senders ticket) h.receivers, ?_⟩
    rw [contents_senders ch (view_remove h.senders ticket)]
    exact .leaves fun e => hb ((rendezvousBelongsTo_iff ch ticket).mpr e)

theorem withdrawReceiver_spec (h : ch.Sound) (ticket : Nat) :
    (ch.withdrawReceiver ticket).Sound ∧ (ch.withdrawReceiver ticket).contents =
      { ch.contents with receivers := ch.contents.receivers.remove ticket } :=
  ⟨sound_with h _ h.senders (wellFormed_remove h.receivers ticket),
    contents_receivers ch (view_remove h.receivers ticket)⟩

/-- **`release_receiver` hands over every message that no send waits for.** -/
theorem releaseReceiver_spec (h : ch.Sound)
    {result : Except Panic (List (Option T))} (ht : ch.releaseReceiver = (ch', result)) :
    ch'.Sound ∧ ∃ ms, result = .ok (ms.map some) ∧ ch.contents.Releases ch'.contents ms := by
  have hclosed : ({ ch with receiverOpen := false } : ChannelState T).Sound :=
    ⟨h.head, h.fits, h.filled, fun e => absurd e Bool.false_ne_true, h.senders, h.receivers⟩
  unfold releaseReceiver at ht
  simp only at ht
  split at ht
  · rename_i hr
    obtain ⟨ticket, hr⟩ := Option.isSome_iff_exists.mp hr
    cases ht
    exact ⟨hclosed, [], rfl, .keeps ticket hr⟩
  · rename_i hr
    have hnone : ch.rendezvousTicket = none := by simpa using hr
    rw [takeStorage_spec hclosed] at ht
    cases ht
    exact ⟨⟨.inr rfl, Nat.le_refl _, rfl, fun e => absurd e Bool.false_ne_true, h.senders, h.receivers⟩,
      ch.messages, rfl, .drains hnone⟩

/-- `register_waiter` of a sender -/
theorem enqueueSender_spec (h : ch.Sound) {usizeMax ticket : Nat}
    {q : WaitQueue} (he : ch.sendWaiters.enqueue usizeMax = some (q, ticket)) :
  ({ ch with sendWaiters := q } : ChannelState T).Sound ∧ ({ ch with sendWaiters := q } : ChannelState T).contents =
      { ch.contents with senders := ch.contents.senders.enqueue } ∧
    ticket = ch.contents.senders.next :=
  ⟨sound_with h _ (wellFormed_enqueue h.senders he) h.receivers,
    contents_senders ch (view_enqueue h.senders he).1,
    (view_enqueue h.senders he).2⟩

/-- `register_waiter` of a receiver -/
theorem enqueueReceiver_spec (h : ch.Sound) {usizeMax ticket : Nat}
    {q : WaitQueue} (he : ch.receiveWaiters.enqueue usizeMax = some (q, ticket)) :
  ({ ch with receiveWaiters := q } : ChannelState T).Sound ∧
    ({ ch with receiveWaiters := q } : ChannelState T).contents =
      { ch.contents with receivers := ch.contents.receivers.enqueue } ∧
    ticket = ch.contents.receivers.next :=
  ⟨sound_with h _ h.senders (wellFormed_enqueue h.receivers he),
    contents_receivers ch (view_enqueue h.receivers he).1,
    (view_enqueue h.receivers he).2⟩

end ChannelState

end Bray.Channel
