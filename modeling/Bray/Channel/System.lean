/-
  File:      Bray/Channel/System.lean
  Subject:   A CHANNEL AND ITS PARTIES. Any number of tasks run `send`, `receive`, `try_send` and
    `try_receive` on the endpoints of one channel; every section under the lock is one
    step, and so is every change of the count of senders.

  A waiting task is in the loop of `send` or `receive`, between two turns; there it can be cancelled.
  The wake-ups (`generation`) only say when a turn is worth taking: here a turn may be taken at any
  time. An endpoint is not dropped while an operation borrows it.

  Every value handed to `send` or `try_send` gets a number (`Parcel`) that no operation reads.
-/
import Bray.Channel.Endpoint

namespace Bray.Channel

open Bray.Lib

variable {n : Nat} {T : Type}

/-! ## 1. The steps -/

/-- A value with the number of its hand-over. -/
structure Parcel (T : Type) where
  origin : Nat
  value : T

/-- Where a task is, with its locals: the borrowed endpoint, its `WaitRegistration`, its
  `PendingValue`. -/
inductive Party (T : Type) where
  | idle
  | sending (endpoint ticket origin : Nat) (pending : Option (Parcel T))
  /-- A send that panicked; its registration is not yet withdrawn. -/
  | unwinding (endpoint ticket : Nat) (pending : Option (Parcel T))
  | receiving (ticket : Nat)

namespace Party

/-- The sender endpoint the task borrows. -/
def endpoint : Party T → Option Nat
  | .idle => none
  | .sending endpoint _ _ _ => some endpoint
  | .unwinding endpoint _ _ => some endpoint
  | .receiving _ => none

def isReceiving : Party T → Bool
  | .receiving _ => true
  | .idle => false
  | .sending _ _ _ _ => false
  | .unwinding _ _ _ => false

end Party

/-- The channel, the tasks, the live sender endpoints, the sender count. The receiver is live as long
  as `receiver_open` says so. -/
structure Sys (n : Nat) (C T : Type) where
  channel : C
  party : Fin n → Party T
  endpoints : List Nat
  /-- The name of the next endpoint. -/
  fresh : Nat
  /-- `ChannelCore.senders` -/
  senders : Nat
  /-- The number of values handed over so far. -/
  handed : Nat

inductive Op (n : Nat) (T : Type) where
  | duplicate (endpoint : Nat)
  | dropSender (endpoint : Nat)
  | dropReceiver
  | send (party : Fin n) (endpoint : Nat) (value : T)
  | receive (party : Fin n)
  /-- One turn of the loop the task is in. -/
  | poll (party : Fin n)
  | cancel (party : Fin n)
  | trySend (endpoint : Nat) (value : T)
  | tryReceive

inductive Out (T : Type) where
  | silent
  | sendRegistered (ticket : Nat)
  | receiveRegistered (ticket : Nat)
  /-- A rendezvous message is stored. -/
  | committed (ticket : Nat) (message : Parcel T)
  /-- A message is stored and its send reports `Ok`. -/
  | admitted (ticket : Nat) (message : Parcel T)
  /-- A rendezvous send reports `Ok`. -/
  | acknowledged (origin : Nat)
  | sendClosed (message : Parcel T)
  | trySent (message : Parcel T)
  | tryFull (message : Parcel T)
  | tryClosed (message : Parcel T)
  | received (ticket : Nat) (message : Parcel T)
  | tryReceived (message : Parcel T)
  | receiveClosed (ticket : Nat)
  | tryReceiveClosed
  | tryReceiveEmpty
  | discarded (messages : List (Parcel T))
  | panicked (panic : Panic)

inductive Fault where
  /-- "channel waiter count exceeded the target range" -/
  | tickets
  /-- "channel endpoint count exceeded the target range" -/
  | endpoints

def SendTurn.out (ticket origin : Nat) : SendTurn (Parcel T) → Out T
  | .closed message => .sendClosed message
  | .acknowledged => .acknowledged origin
  | .admitted message => .admitted ticket message
  | .committed message => .committed ticket message
  | .waits => .silent
  | .panicked panic => .panicked panic

/-- Where the task is after a turn of `send`. -/
def SendTurn.next (endpoint ticket origin : Nat) (pending : Option (Parcel T)) :
  SendTurn (Parcel T) → Party T
  | .closed _ => .idle
  | .acknowledged => .idle
  | .admitted _ => .idle
  | .committed _ => .sending endpoint ticket origin pending
  | .waits => .sending endpoint ticket origin pending
  | .panicked _ => .unwinding endpoint ticket pending

def ReceiveTurn.out (ticket : Nat) : ReceiveTurn (Parcel T) → Out T
  | .received message => .received ticket message
  | .closed => .receiveClosed ticket
  | .waits => .silent
  | .panicked panic => .panicked panic

def ReceiveTurn.next (ticket : Nat) : ReceiveTurn (Parcel T) → Party T
  | .received _ => .idle
  | .closed => .idle
  | .waits => .receiving ticket
  | .panicked _ => .idle

def TryReceive.out : TryReceive (Parcel T) → Out T
  | .received message => .tryReceived message
  | .closed => .tryReceiveClosed
  | .empty => .tryReceiveEmpty
  | .panicked panic => .panicked panic

def TrySend.out (message : Parcel T) : TrySend (Parcel T) → Out T
  | .sent => .trySent message
  | .full => .tryFull message
  | .closed => .tryClosed message
  | .panicked panic => .panicked panic

/-- What a withdrawn send discards: the message it committed, the value it still holds. -/
def withdrawn (pending : Option (Parcel T)) : Except Panic (Option (Parcel T)) → Out T
  | .ok message => .discarded (message.toList ++ pending.toList)
  | .error panic => .panicked panic

def released : Except Panic (List (Option (Parcel T))) → Out T
  | .ok values => .discarded (values.filterMap id)
  | .error panic => .panicked panic

namespace Sys

def goto {C : Type} (s : Sys n C T) (party : Fin n) (at' : Party T) : Sys n C T :=
  { s with party := Function.update s.party party at' }

/-- `all_senders_closed` -/
def allSendersClosed {C : Type} (s : Sys n C T) : Bool := s.senders == 0

/-- **One step.** What does not belong to the state of the task or of the endpoint does nothing. -/
def step (usizeMax : Nat) (s : Sys n (ChannelState (Parcel T)) T) :
  Op n T → Except Fault (Sys n (ChannelState (Parcel T)) T × Out T)
  | .duplicate endpoint =>
    if endpoint ∈ s.endpoints then
      if s.senders = usizeMax then .error .endpoints
      else .ok ({ s with
        endpoints := s.fresh :: s.endpoints
        fresh := s.fresh + 1
        senders := s.senders + 1 }, .silent)
    else .ok (s, .silent)
  | .dropSender endpoint =>
    if endpoint ∈ s.endpoints ∧ ∀ p, (s.party p).endpoint ≠ some endpoint then
      .ok ({ s with endpoints := s.endpoints.erase endpoint, senders := s.senders - 1 }, .silent)
    else .ok (s, .silent)
  | .dropReceiver =>
    if s.channel.receiverOpen = true ∧ ∀ p, (s.party p).isReceiving = false then
      .ok ({ s with channel := s.channel.releaseReceiver.1 }, released s.channel.releaseReceiver.2)
    else .ok (s, .silent)
  | .send party endpoint value => match s.party party with
    | .idle =>
      if endpoint ∈ s.endpoints then match s.channel.sendWaiters.enqueue usizeMax with
        | none => .error .tickets
        | some (queue, ticket) =>
          .ok ({ s with
            channel := { s.channel with sendWaiters := queue }
            handed := s.handed + 1 }.goto party
              (.sending endpoint ticket s.handed (some ⟨s.handed, value⟩)),
            .sendRegistered ticket)
      else .ok (s, .silent)
    | .sending _ _ _ _ => .ok (s, .silent)
    | .unwinding _ _ _ => .ok (s, .silent)
    | .receiving _ => .ok (s, .silent)
  | .receive party => match s.party party with
    | .idle =>
      if s.channel.receiverOpen then match s.channel.receiveWaiters.enqueue usizeMax with
        | none => .error .tickets
        | some (queue, ticket) =>
          .ok ({ s with channel := { s.channel with receiveWaiters := queue } }.goto party
            (.receiving ticket), .receiveRegistered ticket)
      else .ok (s, .silent)
    | .sending _ _ _ _ => .ok (s, .silent)
    | .unwinding _ _ _ => .ok (s, .silent)
    | .receiving _ => .ok (s, .silent)
  | .poll party => match s.party party with
    | .idle => .ok (s, .silent)
    | .sending endpoint ticket origin pending =>
      let (channel, pending, turn) := s.channel.sendTurn ticket pending
      .ok ({ s with channel := channel }.goto party (turn.next endpoint ticket origin pending),
        turn.out ticket origin)
    | .unwinding _ _ _ => .ok (s, .silent)
    | .receiving ticket =>
      let (channel, turn) := s.channel.receiveTurn ticket s.allSendersClosed
      .ok ({ s with channel := channel }.goto party (turn.next ticket), turn.out ticket)
  | .cancel party => match s.party party with
    | .idle => .ok (s, .silent)
    | .sending _ ticket _ pending =>
      .ok ({ s with channel := (s.channel.withdrawSender ticket).1 }.goto party .idle,
        withdrawn pending (s.channel.withdrawSender ticket).2)
    | .unwinding _ ticket pending =>
      .ok ({ s with channel := (s.channel.withdrawSender ticket).1 }.goto party .idle,
        withdrawn pending (s.channel.withdrawSender ticket).2)
    | .receiving ticket =>
      .ok ({ s with channel := s.channel.withdrawReceiver ticket }.goto party .idle, .silent)
  | .trySend endpoint value =>
    if endpoint ∈ s.endpoints then
      let (channel, result) := s.channel.trySend ⟨s.handed, value⟩
      .ok ({ s with channel := channel, handed := s.handed + 1 }, result.out ⟨s.handed, value⟩)
    else .ok (s, .silent)
  | .tryReceive =>
    if s.channel.receiverOpen then
      let (channel, result) := s.channel.tryReceive s.allSendersClosed
      .ok ({ s with channel := channel }, result.out)
    else .ok (s, .silent)

/-- `bounded`: a channel, one sender endpoint, the receiver; all tasks idle. -/
def initial (capacity : Nat) : Sys n (ChannelState (Parcel T)) T where
  channel := .bounded capacity
  party := fun _ => .idle
  endpoints := [0]
  fresh := 1
  senders := 1
  handed := 0

end Sys

/-! ## 2. The same on the contents -/

/-- A channel of which only the contents are known. -/
abbrev Model (n : Nat) (T : Type) := Sys n (Contents (Parcel T)) T

/-- **Everything a step can do.** -/
inductive Moves (s : Model n T) : Op n T → Out T → Model n T → Prop where
  | stays (op : Op n T) : Moves s op .silent s
  | duplicates (endpoint : Nat) (he : endpoint ∈ s.endpoints) :
    Moves s (.duplicate endpoint) .silent { s with
      endpoints := s.fresh :: s.endpoints
      fresh := s.fresh + 1
      senders := s.senders + 1 }
  | dropsSender (endpoint : Nat) (he : endpoint ∈ s.endpoints)
    (hfree : ∀ p, (s.party p).endpoint ≠ some endpoint) :
    Moves s (.dropSender endpoint) .silent { s with
      endpoints := s.endpoints.erase endpoint
      senders := s.senders - 1 }
  | dropsReceiver (c : Contents (Parcel T)) (ms : List (Parcel T))
    (ho : s.channel.receiverOpen = true) (hfree : ∀ p, (s.party p).isReceiving = false)
    (hr : s.channel.Releases c ms) : Moves s .dropReceiver (.discarded ms) { s with channel := c }
  | registersSend (p : Fin n) (endpoint : Nat) (value : T) (hp : s.party p = .idle)
    (he : endpoint ∈ s.endpoints) :
    Moves s (.send p endpoint value) (.sendRegistered s.channel.senders.next)
      ({ s with
        channel := { s.channel with senders := s.channel.senders.enqueue }
        handed := s.handed + 1 }.goto p
          (.sending endpoint s.channel.senders.next s.handed (some ⟨s.handed, value⟩)))
  | registersReceive (p : Fin n) (hp : s.party p = .idle) (ho : s.channel.receiverOpen = true) :
    Moves s (.receive p) (.receiveRegistered s.channel.receivers.next)
      ({ s with channel := { s.channel with receivers := s.channel.receivers.enqueue } }.goto p
        (.receiving s.channel.receivers.next))
  | sends (p : Fin n) (endpoint ticket origin : Nat) (pending pending' : Option (Parcel T))
    (c : Contents (Parcel T)) (turn : SendTurn (Parcel T))
    (hp : s.party p = .sending endpoint ticket origin pending)
    (ht : s.channel.Sends ticket pending c pending' turn) :
    Moves s (.poll p) (turn.out ticket origin)
      ({ s with channel := c }.goto p (turn.next endpoint ticket origin pending'))
  | receives (p : Fin n) (ticket : Nat) (c : Contents (Parcel T)) (turn : ReceiveTurn (Parcel T))
    (hp : s.party p = .receiving ticket)
    (ht : s.channel.Receives ticket s.allSendersClosed c turn) :
    Moves s (.poll p) (turn.out ticket) ({ s with channel := c }.goto p (turn.next ticket))
  | cancelsSend (p : Fin n) (ticket : Nat) (pending : Option (Parcel T))
    (c : Contents (Parcel T)) (result : Except Panic (Option (Parcel T)))
    (hp : (∃ endpoint origin, s.party p = .sending endpoint ticket origin pending) ∨
      ∃ endpoint, s.party p = .unwinding endpoint ticket pending)
    (hw : s.channel.Withdraws ticket c result) :
    Moves s (.cancel p) (withdrawn pending result) ({ s with channel := c }.goto p .idle)
  | cancelsReceive (p : Fin n) (ticket : Nat) (hp : s.party p = .receiving ticket) :
    Moves s (.cancel p) .silent
      ({ s with channel := { s.channel with
        receivers := s.channel.receivers.remove ticket } }.goto p .idle)
  | triesSend (endpoint : Nat) (value : T) (c : Contents (Parcel T)) (result : TrySend (Parcel T))
    (he : endpoint ∈ s.endpoints) (ht : s.channel.TriesSend ⟨s.handed, value⟩ c result) :
    Moves s (.trySend endpoint value) (result.out ⟨s.handed, value⟩)
      { s with channel := c, handed := s.handed + 1 }
  | triesReceive (c : Contents (Parcel T)) (result : TryReceive (Parcel T))
    (ho : s.channel.receiverOpen = true)
    (ht : s.channel.TriesReceive s.allSendersClosed c result) :
    Moves s .tryReceive result.out { s with channel := c }

namespace Sys

def view (s : Sys n (ChannelState (Parcel T)) T) : Model n T where
  channel := s.channel.contents
  party := s.party
  endpoints := s.endpoints
  fresh := s.fresh
  senders := s.senders
  handed := s.handed

/-- **A step of the system is a move on its contents.** -/
theorem step_moves {usizeMax : Nat} {s s' : Sys n (ChannelState (Parcel T)) T} {op : Op n T}
    {o : Out T} (h : s.channel.Sound) (hs : s.step usizeMax op = .ok (s', o)) :
    s'.channel.Sound ∧ Moves s.view op o s'.view := by
  cases op with
  | duplicate endpoint =>
    simp only [step] at hs
    split at hs
    · rename_i he
      split at hs
      · cases hs
      · cases hs
        exact ⟨h, .duplicates endpoint he⟩
    · cases hs
      exact ⟨h, .stays _⟩
  | dropSender endpoint =>
    simp only [step] at hs
    split at hs
    · rename_i he
      cases hs
      exact ⟨h, .dropsSender endpoint he.1 he.2⟩
    · cases hs
      exact ⟨h, .stays _⟩
  | dropReceiver =>
    simp only [step] at hs
    split at hs
    · rename_i he
      cases hs
      cases hr : s.channel.releaseReceiver with
      | mk channel result =>
        obtain ⟨hsound, ms, rfl, hrel⟩ := ChannelState.releaseReceiver_spec h hr
        refine ⟨hsound, ?_⟩
        have hms : released (.ok (ms.map some)) = .discarded ms := by
          rw [released, List.filterMap_map]
          exact congrArg Out.discarded List.filterMap_some
        rw [hms]
        exact .dropsReceiver channel.contents ms he.1 he.2 hrel
    · cases hs
      exact ⟨h, .stays _⟩
  | send party endpoint value =>
    simp only [step] at hs
    cases hp : s.party party with
    | idle =>
      simp only [hp] at hs
      split at hs
      · rename_i he
        split at hs
        · cases hs
        · rename_i queue ticket hq
          cases hs
          obtain ⟨hsound, hc, rfl⟩ := ChannelState.enqueueSender_spec h hq
          refine ⟨hsound, ?_⟩
          have := Moves.registersSend (s := s.view) party endpoint value hp he
          rw [show s.view.channel = s.channel.contents from rfl, ← hc] at this
          exact this
      · cases hs
        exact ⟨h, .stays _⟩
    | sending _ _ _ _ | unwinding _ _ _ | receiving _ => rw [hp] at hs; cases hs; exact ⟨h, .stays _⟩
  | receive party =>
    simp only [step] at hs
    cases hp : s.party party with
    | idle =>
      simp only [hp] at hs
      split at hs
      · rename_i ho
        split at hs
        · cases hs
        · rename_i queue ticket hq
          cases hs
          obtain ⟨hsound, hc, rfl⟩ := ChannelState.enqueueReceiver_spec h hq
          refine ⟨hsound, ?_⟩
          have := Moves.registersReceive (s := s.view) party hp ho
          rw [show s.view.channel = s.channel.contents from rfl, ← hc] at this
          exact this
      · cases hs
        exact ⟨h, .stays _⟩
    | sending _ _ _ _ | unwinding _ _ _ | receiving _ => rw [hp] at hs; cases hs; exact ⟨h, .stays _⟩
  | poll party =>
    simp only [step] at hs
    cases hp : s.party party with
    | idle | unwinding _ _ _ => rw [hp] at hs; cases hs; exact ⟨h, .stays _⟩
    | sending endpoint ticket origin pending =>
      simp only [hp] at hs
      cases hs
      obtain ⟨hsound, ht⟩ := ChannelState.sendTurn_spec h (Eq.refl (s.channel.sendTurn ticket pending))
      exact ⟨hsound, .sends party endpoint ticket origin pending _ _ _ hp ht⟩
    | receiving ticket =>
      simp only [hp] at hs
      cases hs
      obtain ⟨hsound, ht⟩ := ChannelState.receiveTurn_spec h
        (Eq.refl (s.channel.receiveTurn ticket s.allSendersClosed))
      exact ⟨hsound, .receives party ticket _ _ hp ht⟩
  | cancel party =>
    simp only [step] at hs
    cases hp : s.party party with
    | idle => rw [hp] at hs; cases hs; exact ⟨h, .stays _⟩
    | sending endpoint ticket origin pending =>
      simp only [hp] at hs
      cases hs
      obtain ⟨hsound, hw⟩ := ChannelState.withdrawSender_spec h
        (Eq.refl (s.channel.withdrawSender ticket))
      exact ⟨hsound, .cancelsSend party ticket pending _ _ (.inl ⟨endpoint, origin, hp⟩) hw⟩
    | unwinding endpoint ticket pending =>
      simp only [hp] at hs
      cases hs
      obtain ⟨hsound, hw⟩ := ChannelState.withdrawSender_spec h
        (Eq.refl (s.channel.withdrawSender ticket))
      exact ⟨hsound, .cancelsSend party ticket pending _ _ (.inr ⟨endpoint, hp⟩) hw⟩
    | receiving ticket =>
      simp only [hp] at hs
      cases hs
      obtain ⟨hsound, hc⟩ := ChannelState.withdrawReceiver_spec h ticket
      refine ⟨hsound, ?_⟩
      have := Moves.cancelsReceive (s := s.view) party ticket hp
      rw [show s.view.channel = s.channel.contents from rfl, ← hc] at this
      exact this
  | trySend endpoint value =>
    simp only [step] at hs
    split at hs
    · rename_i he
      cases hs
      obtain ⟨hsound, ht⟩ := ChannelState.trySend_spec h
        (Eq.refl (s.channel.trySend ⟨s.handed, value⟩))
      exact ⟨hsound, .triesSend endpoint value _ _ he ht⟩
    · cases hs
      exact ⟨h, .stays _⟩
  | tryReceive =>
    simp only [step] at hs
    split at hs
    · rename_i ho
      cases hs
      obtain ⟨hsound, ht⟩ := ChannelState.tryReceive_spec h
        (Eq.refl (s.channel.tryReceive s.allSendersClosed))
      exact ⟨hsound, .triesReceive _ _ ho ht⟩
    · cases hs
      exact ⟨h, .stays _⟩

end Sys

end Bray.Channel
