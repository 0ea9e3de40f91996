/-
  File:      Bray/Channel/Order.lean
  Subject:   CLOSURE AND ORDER. When a receiver may be told that the channel is closed, and in which
    order messages, senders and receivers pass.

  Closure: with no endpoint and no message left nothing is ever stored again (`Shut`). The order of
  the messages is that of one list with an end and a front; the order of the waiters is that of their
  tickets, which number the registrations (`Order`).
-/
import Bray.Channel.Delivery

namespace Bray.Channel

open Bray.Lib List

variable {n : Nat} {T : Type}

/-! ## 1. Closure -/

/-- The count of senders is that of the endpoints, and an endpoint in use is there. -/
structure Live (s : Model n T) : Prop where
  count : s.senders = s.endpoints.length
  borrowed : ∀ p e, (s.party p).endpoint = some e → e ∈ s.endpoints

namespace Live

variable {s s' : Model n T} {op : Op n T} {out : Out T}

/-- A task that borrows no other endpoint than before. -/
theorem goto (h : Live s) {c : Contents (Parcel T)} {p : Fin n} {x : Party T}
    (hx : ∀ e, x.endpoint = some e → e ∈ s.endpoints) {handed : Nat} :
    Live ({ s with channel := c, handed := handed }.goto p x) := by
  refine ⟨h.count, fun q e hq => ?_⟩
  by_cases hqp : q = p
  · subst hqp
    exact hx e (by simpa [Sys.goto] using hq)
  · exact h.borrowed q e (by simpa [Sys.goto, hqp] using hq)

theorem moves (h : Live s) (hm : Moves s op out s') : Live s' := by
  have idle : ∀ e, (Party.idle : Party T).endpoint = some e → e ∈ s.endpoints :=
    fun e he => by cases he
  cases hm with
  | stays op => exact h
  | duplicates endpoint he =>
    refine ⟨?_, fun p e hp => .tail _ (h.borrowed p e hp)⟩
    rw [h.count, length_cons]
  | dropsSender endpoint he hfree =>
    refine ⟨?_, fun p e hp => ?_⟩
    · rw [h.count, length_erase_of_mem he]
    · have hne : e ≠ endpoint := by
        rintro rfl
        exact hfree p hp
      exact (mem_erase_of_ne hne).mpr (h.borrowed p e hp)
  | dropsReceiver c ms ho hfree hr => exact ⟨h.count, h.borrowed⟩
  | registersSend p endpoint value hp he =>
    refine h.goto fun e hx => ?_
    cases hx
    exact he
  | registersReceive p hp ho => exact h.goto fun e hx => by cases hx
  | sends p endpoint ticket origin pending pending' c turn hp ht =>
    have he := h.borrowed p endpoint (by rw [hp]; rfl)
    refine h.goto fun e hx => ?_
    cases turn <;> cases hx <;> exact he
  | receives p ticket c turn hp ht =>
    refine h.goto fun e hx => ?_
    cases turn <;> cases hx
  | cancelsSend p ticket pending c result hp hw | cancelsReceive p ticket hp => exact h.goto idle
  | triesSend endpoint value c result he ht | triesReceive c result ho ht => exact ⟨h.count, h.borrowed⟩

end Live

/-- No endpoint and no message is left. -/
def Shut (s : Model n T) : Prop := s.endpoints = [] ∧ s.channel.messages = []

variable {s s' : Model n T} {op : Op n T} {out : Out T}

/-- **A channel that is shut stays shut**, and nothing is received from it. -/
theorem Shut.moves (hl : Live s) (h : Shut s) (hm : Moves s op out s') : Shut s' ∧ out.receipt = [] := by
  obtain ⟨hends, hms⟩ := h
  have gone : ∀ e, e ∉ s.endpoints := fun e he => by
    rw [hends] at he
    cases he
  have taken : ∀ m ms, s.channel.messages ≠ m :: ms := fun m ms he => by
    rw [hms] at he
    cases he
  cases hm with
  | stays op => exact ⟨⟨hends, hms⟩, rfl⟩
  | duplicates endpoint he | dropsSender endpoint he hfree => exact absurd he (gone _)
  | dropsReceiver c ms ho hfree hr =>
    cases hr with
    | keeps ticket hr => exact ⟨⟨hends, hms⟩, rfl⟩
    | drains hr => exact ⟨⟨hends, rfl⟩, rfl⟩
  | registersSend p endpoint value hp he => exact absurd he (gone _)
  | registersReceive p hp ho => exact ⟨⟨hends, hms⟩, rfl⟩
  | sends p endpoint ticket origin pending pending' c turn hp ht =>
    exact absurd (hl.borrowed p endpoint (by rw [hp]; rfl)) (gone _)
  | receives p ticket c turn hp ht =>
    cases ht with
    | takes m ms hlead hm => exact absurd hm (taken m ms)
    | closes hlead hm hs | waits hw => exact ⟨⟨hends, hms⟩, rfl⟩
  | cancelsSend p ticket pending c result hp hw =>
    cases hw with
    | takesBack m ms hr hm => exact absurd hm (taken m ms)
    | lacks hr hm | leaves hr => exact ⟨⟨hends, hms⟩, rfl⟩
  | cancelsReceive p ticket hp => exact ⟨⟨hends, hms⟩, rfl⟩
  | triesSend endpoint value c result he ht => exact absurd he (gone _)
  | triesReceive c result ho ht =>
    cases ht with
    | takes m ms hlead hm => exact absurd hm (taken m ms)
    | closes hb hs | fails hb hs => exact ⟨⟨hends, hms⟩, rfl⟩

/-- A step reports the channel closed to a receiver. -/
def Out.ReportsClosed (out : Out T) : Prop := (∃ ticket, out = .receiveClosed ticket) ∨ out = .tryReceiveClosed

/-- A receiver is told so by a turn of `receive` with no endpoint and no message left, or by
  `try_receive`. -/
theorem Moves.reportsClosed (hl : Live s) (hm : Moves s op out s') (ho : out.ReportsClosed) :
    s.endpoints = [] ∧ (s.channel.messages = [] ∨
      op = .tryReceive ∧ (s.channel.receivers.line = [] → s.channel.messages = [])) ∧
      s'.endpoints = s.endpoints ∧ s'.channel.messages = s.channel.messages := by
  have closed : s.allSendersClosed = true → s.endpoints = [] := by
    intro h
    rw [Sys.allSendersClosed, beq_iff_eq, hl.count] at h
    exact length_eq_zero_iff.mp h
  cases hm with
  | receives p ticket c turn hp ht =>
    cases ht with
    | closes hlead hm hs => exact ⟨closed hs, .inl hm, rfl, rfl⟩
    | takes m ms hlead hm | waits hw => rcases ho with ⟨t, ho⟩ | ho <;> cases ho
  | triesReceive c result hopen ht =>
    cases ht with
    | closes hb hs => exact ⟨closed hs, .inr ⟨rfl, hb⟩, rfl, rfl⟩
    | takes m ms hlead hm | fails hb hs => rcases ho with ⟨t, ho⟩ | ho <;> cases ho
  | stays op | duplicates endpoint he | dropsSender endpoint he hfree | dropsReceiver c ms hopen hfree hr
  | registersSend p endpoint value hp he | registersReceive p hp hopen => rcases ho with ⟨t, ho⟩ | ho <;> cases ho
  | sends p e t o pending pending' c turn hp ht =>
    cases turn <;> rcases ho with ⟨t, ho⟩ | ho <;> cases ho
  | cancelsSend p t pending c result hp hw =>
    cases result <;> rcases ho with ⟨t, ho⟩ | ho <;> cases ho
  | cancelsReceive p t hp => rcases ho with ⟨t, ho⟩ | ho <;> cases ho
  | triesSend e value c result he ht => cases result <;> rcases ho with ⟨t, ho⟩ | ho <;> cases ho

namespace Sys

/-- `try_receive` is not called with a receiver in line, a message stored and no sender left. -/
def Patient (s : Sys n (ChannelState (Parcel T)) T) : Op n T → Prop
  | .tryReceive => s.senders = 0 → s.channel.receiveWaiters.isEmpty = false → s.channel.length = 0
  | _ => True

theorem live_run {usizeMax capacity : Nat} {tr : List (Op n T × Out T)}
    {s : Sys n (ChannelState (Parcel T)) T} (h : Run (step usizeMax) (initial capacity) tr s) :
    s.channel.Sound ∧ Live s.view := by
  refine Run.invariant (P := fun s => s.channel.Sound ∧ Live s.view) ?_ h
    ⟨ChannelState.sound_bounded capacity, rfl, fun p e hp => by cases hp⟩
  intro s op s' out hP hs
  obtain ⟨hsound, hm⟩ := step_moves hP.1 hs
  exact ⟨hsound, hP.2.moves hm⟩

/-- A receiver that is told the channel is closed finds it shut. -/
theorem shut_of_closed {usizeMax : Nat} {s s' : Sys n (ChannelState (Parcel T)) T} {op : Op n T}
    {out : Out T} (hsound : s.channel.Sound) (hl : Live s.view) (hp : s.Patient op)
    (hs : s.step usizeMax op = .ok (s', out)) (ho : out.ReportsClosed) : Shut s.view ∧ Shut s'.view := by
  obtain ⟨-, hm⟩ := step_moves hsound hs
  obtain ⟨hends, hms, hends', hms'⟩ := hm.reportsClosed hl ho
  have hempty : s.view.channel.messages = [] := by
    rcases hms with hms | ⟨rfl, hb⟩
    · exact hms
    · cases he : s.channel.receiveWaiters.isEmpty with
      | true => exact hb ((WaitQueue.isEmpty_view hsound.receivers).mp he)
      | false =>
        have hzero : s.senders = 0 := by
          have := hl.count
          rw [hends] at this
          exact this
        exact (ChannelState.length_eq_zero_iff hsound).mp (hp hzero he)
  exact ⟨⟨hends, hempty⟩, hends'.trans hends, hms'.trans hempty⟩

/-- From a shut channel nothing is received. -/
theorem shut_run {usizeMax : Nat} {tr : List (Op n T × Out T)}
    {s s' : Sys n (ChannelState (Parcel T)) T} (h : Run (step usizeMax) s tr s')
    (hsound : s.channel.Sound) (hl : Live s.view) (hshut : Shut s.view) : ∀ x ∈ tr, x.2.receipt = [] := by
  induction h with
  | nil s => exact fun x hx => by cases hx
  | cons hs hr ih =>
    obtain ⟨hsound', hm⟩ := step_moves hsound hs
    obtain ⟨hshut', hout⟩ := hshut.moves hl hm
    intro x hx
    rcases mem_cons.mp hx with rfl | hx
    · exact hout
    · exact ih hsound' (hl.moves hm) hshut' x hx

/-- **Closure is reported after draining.** In every run in which `try_receive` is not called with a
  receiver in line, a message stored and no sender left: a receiver is told that the channel is
  closed only when no endpoint is live and no message stored, and nothing is received after that. -/
theorem closed_after_draining {usizeMax capacity : Nat} {tr : List (Op n T × Out T)}
    {s : Sys n (ChannelState (Parcel T)) T} (h : RunWhere Patient (step usizeMax) (initial capacity) tr s) :
    (∀ op s' out, s.Patient op → s.step usizeMax op = .ok (s', out) → out.ReportsClosed →
      s.endpoints = [] ∧ s.channel.messages = [] ∧ s.channel.length = 0) ∧
    ∀ tr₁ op out tr₂, tr = tr₁ ++ (op, out) :: tr₂ → out.ReportsClosed → ∀ x ∈ tr₂, x.2.receipt = [] := by
  constructor
  · intro op s' out hp hs ho
    obtain ⟨hsound, hl⟩ := live_run h.run
    obtain ⟨⟨hends, hms⟩, -⟩ := shut_of_closed hsound hl hp hs ho
    exact ⟨hends, hms, (ChannelState.length_eq_zero_iff hsound).mpr hms⟩
  · rintro tr₁ op out tr₂ rfl ho
    obtain ⟨s₁, h₁, h₂⟩ := h.split
    obtain ⟨hsound, hl⟩ := live_run h₁.run
    cases h₂ with
    | cons hp hs hr =>
      obtain ⟨-, hshut⟩ := shut_of_closed hsound hl hp hs ho
      obtain ⟨hsound', hm⟩ := step_moves hsound hs
      exact shut_run hr.run hsound' (hl.moves hm) hshut

/-- A message is sent, received, the endpoint dropped: then the channel is closed. -/
theorem closed_after_draining_one : ∃ s : Sys 1 (ChannelState (Parcel Nat)) Nat,
    RunWhere Patient (step (2 ^ 64 - 1)) (initial 1)
      [(.trySend 0 7, .trySent ⟨0, 7⟩), (.tryReceive, .tryReceived ⟨0, 7⟩), (.dropSender 0, .silent),
        (.tryReceive, .tryReceiveClosed)] s ∧
    ∀ op s' out, s.Patient op → s.step (2 ^ 64 - 1) op = .ok (s', out) → out.ReportsClosed →
      s.endpoints = [] ∧ s.channel.messages = [] ∧ s.channel.length = 0 := by
  have h : ∃ s : Sys 1 (ChannelState (Parcel Nat)) Nat, RunWhere Patient (step (2 ^ 64 - 1)) (initial 1)
      [(.trySend 0 7, .trySent ⟨0, 7⟩), (.tryReceive, .tryReceived ⟨0, 7⟩), (.dropSender 0, .silent),
        (.tryReceive, .tryReceiveClosed)] s :=
    ⟨_, .cons trivial rfl (.cons (fun h => by cases h) rfl (.cons trivial rfl
      (.cons (fun _ h => by cases h) rfl (.nil _))))⟩
  obtain ⟨s, hs⟩ := h
  exact ⟨s, hs, (closed_after_draining hs).1⟩

/-- A receiver waits, a message is stored, the last endpoint is dropped: `try_receive` reports the
  channel closed, and then the message is received. -/
theorem closed_before_the_last_message :
    ∃ s : Sys 1 (ChannelState (Parcel Nat)) Nat, Run (step (2 ^ 64 - 1)) (initial 1)
      [(.receive 0, .receiveRegistered 0), (.trySend 0 7, .trySent ⟨0, 7⟩), (.dropSender 0, .silent),
        (.tryReceive, .tryReceiveClosed), (.poll 0, .received 0 ⟨0, 7⟩)] s :=
  ⟨_, .of_execute [.receive 0, .trySend 0 7, .dropSender 0, .tryReceive, .poll 0] rfl⟩

end Sys

/-! ## 2. The order of the messages -/

namespace Out

/-- What a step stores. -/
def acceptance : Out T → List (Parcel T)
  | .committed _ message => [message]
  | .admitted _ message => [message]
  | .trySent message => [message]
  | _ => []

end Out

/-- **Messages go in at the end and come out at the front**; some are taken back or discarded. -/
theorem Moves.fifo (hm : Moves s op out s') :
    (out.receipt ++ s'.channel.messages).Sublist (s.channel.messages ++ out.acceptance) := by
  have same : (s.channel.messages).Sublist (s.channel.messages ++ []) := by
    rw [append_nil]
  have back : ∀ {m ms}, s.channel.messages = m :: ms → ms.Sublist (s.channel.messages ++ []) := by
    intro m ms hm
    rw [append_nil, hm]
    exact sublist_cons_self m ms
  have front : ∀ {m ms}, s.channel.messages = m :: ms → (m :: ms).Sublist (s.channel.messages ++ []) := by
    intro m ms hm
    rw [append_nil, hm]
  cases hm with
  | stays op | duplicates endpoint he | dropsSender endpoint he hfree => exact same
  | dropsReceiver c ms ho hfree hr =>
    cases hr with
    | keeps ticket hr => exact same
    | drains hr => exact nil_sublist _
  | registersSend p endpoint value hp he | registersReceive p hp ho => exact same
  | sends p endpoint ticket origin pending pending' c turn hp ht =>
    cases ht with
    | takesBack m ms ho hr hm => exact back hm
    | lacks ho hr hm | returns m ho hr hpend | breaks ho hr hpend | acknowledges tail ho h0 hl => exact same
    | commits m tail ho h0 hl hc hpend | admits m ho h0 hl hc hpend => exact List.Sublist.refl _
    | spent done tail ho hl hd hc hpend | waits ho hw hd => exact same
  | receives p ticket c turn hp ht =>
    cases ht with
    | takes m ms hl hm => exact front hm
    | closes hl hm hs | waits hw => exact same
  | cancelsSend p ticket pending c result hp hw =>
    cases hw with
    | takesBack m ms hr hm => exact back hm
    | lacks hr hm | leaves hr => exact same
  | cancelsReceive p ticket hp => exact same
  | triesSend endpoint value c result he ht =>
    cases ht with
    | closes ho | fails ho hf => exact same
    | stores ho hl hc => exact List.Sublist.refl _
  | triesReceive c result ho ht =>
    cases ht with
    | takes m ms hl hm => exact front hm
    | closes hb hs | fails hb hs => exact same

/-! ## 3. The order of the senders -/

namespace Out

def sendRegistration : Out T → List Nat
  | .sendRegistered ticket => [ticket]
  | _ => []

/-- The ticket of a blocked send whose message is accepted. -/
def admission : Out T → List Nat
  | .committed ticket _ => [ticket]
  | .admitted ticket _ => [ticket]
  | _ => []

def receiveRegistration : Out T → List Nat
  | .receiveRegistered ticket => [ticket]
  | _ => []

/-- The ticket of a blocked receiver that is served. -/
def service : Out T → List Nat
  | .received ticket _ => [ticket]
  | .receiveClosed ticket => [ticket]
  | _ => []

end Out

def tickets (f : Out T → List Nat) (tr : List (Op n T × Out T)) : List Nat :=
  tr.flatMap fun step => f step.2

theorem tickets_snoc (f : Out T → List Nat) (tr : List (Op n T × Out T)) (op : Op n T)
    (out : Out T) : tickets f (tr ++ [(op, out)]) = tickets f tr ++ f out := by
  simp [tickets]

/-- The message of the send with the ticket is committed or received. -/
def Contents.Marked (c : Contents T) (ticket : Nat) : Prop :=
  c.rendezvous = some ticket ∨ (ticket, true) ∈ c.senders.line

/-- What a step does to the line of senders. -/
structure SendLine (s s' : Model n T) (out : Out T) : Prop where
  next : s'.channel.senders.next = s.channel.senders.next + out.sendRegistration.length
  registered : ∀ t ∈ out.sendRegistration, t = s.channel.senders.next
  stays : ∀ u ∈ s'.channel.senders.tickets,
    u ∈ s.channel.senders.tickets ∧ (s.channel.Marked u → s'.channel.Marked u) ∨ u = s.channel.senders.next
  admitted : ∀ t ∈ out.admission, s.channel.senders.Leads t ∧ ¬ s.channel.Marked t ∧
    (t ∈ s'.channel.senders.tickets → s'.channel.Marked t)

namespace SendLine

variable {s s' : Model n T} {out : Out T}

/-- The line stays as it is, and nothing is accepted from it. -/
theorem same (hs : s'.channel.senders = s.channel.senders)
    (hr : s'.channel.rendezvous = s.channel.rendezvous) (ho : out.sendRegistration = [])
  (ha : out.admission = []) : SendLine s s' out where
  next := by rw [hs, ho]; rfl
  registered := by rw [ho]; exact fun t ht => by cases ht
  stays := by
    intro u hu
    rw [hs] at hu
    refine .inl ⟨hu, fun hmark => ?_⟩
    rw [Contents.Marked, hs, hr]
    exact hmark
  admitted := by rw [ha]; exact fun t ht => by cases ht

theorem leave {t : Nat} (hs : s'.channel.senders = s.channel.senders.remove t)
    (hr : ∀ u, u ≠ t → s.channel.rendezvous = some u → s'.channel.rendezvous = some u)
    (ho : out.sendRegistration = [])
    (ha : ∀ u ∈ out.admission, u = t ∧ s.channel.senders.Leads t ∧ ¬ s.channel.Marked t) :
  SendLine s s' out where
  next := by rw [hs, ho]; rfl
  registered := by rw [ho]; exact fun t ht => by cases ht
  stays := by
    intro u hu
    rw [hs, Fifo.tickets_remove, mem_filter] at hu
    have hne : u ≠ t := by simpa using hu.2
    refine .inl ⟨hu.1, fun hmark => ?_⟩
    rcases hmark with hrv | hd
    · exact .inl (hr u hne hrv)
    · right
      rw [hs]
      exact mem_filter.mpr ⟨hd, by simpa using hne⟩
  admitted := by
    intro u hu
    obtain ⟨rfl, hl, hn⟩ := ha u hu
    refine ⟨hl, hn, fun hmem => ?_⟩
    rw [hs, Fifo.tickets_remove, mem_filter] at hmem
    exact absurd hmem.2 (by simp)

end SendLine

/-- A received message marks its send, and nothing else changes in the line. -/
theorem Inv.sendLine_taken (h : Inv s) (ms : List (Parcel T))
    (hs : s'.channel.senders = (s.channel.taken ms).senders)
    (hr : s'.channel.rendezvous = none) (ho : out.sendRegistration = [])
    (ha : out.admission = []) : SendLine s s' out := by
  cases hrv : s.channel.rendezvous with
  | none =>
    have hsame : s'.channel.senders = s.channel.senders := by
      rw [hs]
      unfold Contents.taken
      rw [hrv]
    exact SendLine.same hsame (hr.trans hrv.symm) ho ha
  | some t =>
    obtain ⟨-, -, tail, -, hl⟩ := h.committed t hrv
    have hline : s'.channel.senders = s.channel.senders.completeHead t := by
      rw [hs]
      unfold Contents.taken
      rw [hrv]
    have hline' : s'.channel.senders.line = (t, true) :: tail := by
      rw [hline, Fifo.completeHead, hl]
      simp
    have htickets : s'.channel.senders.tickets = s.channel.senders.tickets := by
      unfold Fifo.tickets
      rw [hline', hl]
      rfl
    refine ⟨by rw [hline, ho]; rfl, by rw [ho]; exact fun _ ht => absurd ht not_mem_nil, ?_,
      by rw [ha]; exact fun _ ht => absurd ht not_mem_nil⟩
    intro u hu
    rw [htickets] at hu
    refine .inl ⟨hu, fun hmark => .inr ?_⟩
    rw [hline']
    rcases hmark with hu' | hd
    · rw [hrv] at hu'
      rw [Option.some.inj hu']
      exact (.head _)
    · have := (h.completed u hd).2.1
      rw [hrv] at this
      cases this

/-- **Every step, on the line of senders.** -/
theorem Inv.sendLine (h : Inv s) (hm : Moves s op out s') : SendLine s s' out := by
  have other : ∀ {t u : Nat}, s.channel.rendezvous = some t → u ≠ t →
    s.channel.rendezvous = some u → (none : Option Nat) = some u := by
    intro t u hr hne hu
    rw [hr] at hu
    exact absurd (Option.some.inj hu).symm hne
  cases hm with
  | stays op | duplicates endpoint he | dropsSender endpoint he hfree => exact .same rfl rfl rfl rfl
  | dropsReceiver c ms ho hfree hr => cases hr <;> exact .same rfl rfl rfl rfl
  | registersSend p endpoint value hp he =>
    refine ⟨rfl, fun t ht => mem_singleton.mp ht, ?_, fun t ht => by cases ht⟩
    intro u hu
    have hu' : u ∈ s.channel.senders.enqueue.tickets := hu
    rw [Fifo.tickets, Fifo.enqueue, map_append] at hu'
    rcases mem_append.mp hu' with hold | hnew
    · refine .inl ⟨hold, fun hmark => ?_⟩
      rcases hmark with hr | hd
      · exact .inl hr
      · exact .inr (mem_append_left _ hd)
    · exact .inr (mem_singleton.mp hnew)
  | registersReceive p hp ho => exact .same rfl rfl rfl rfl
  | sends p endpoint ticket origin pending pending' c turn hp ht =>
    cases ht with
    | takesBack m ms ho hr hm =>
      exact .leave (h.takenBack_leaves hr hm).2 (fun u hne hu => other hr hne hu) rfl
        fun u hu => by cases hu
    | lacks ho hr hm => exact .same rfl rfl rfl rfl
    | returns m ho hr hpend | breaks ho hr hpend => exact .leave rfl (fun u _ hu => hu) rfl fun u hu => by cases hu
    | acknowledges tail ho h0 hl =>
      exact .leave (Fifo.popHead_eq_remove h.ascending ⟨true, tail, hl⟩) (fun u _ hu => hu) rfl
        fun u hu => by cases hu
    | commits m tail ho h0 hl hc hpend =>
      subst hpend
      obtain ⟨-, hr, hd⟩ := h.holds p endpoint ticket origin m hp
      have hms : s.channel.messages = [] := by
        rw [Contents.CanCommit, if_pos h0] at hc
        exact hc.1
      refine ⟨rfl, fun _ ht => absurd ht not_mem_nil, ?_, ?_⟩
      · intro u hu
        refine .inl ⟨hu, fun hmark => ?_⟩
        rcases hmark with hu' | hd'
        · obtain ⟨-, m', -, hm', -⟩ := h.committed u hu'
          rw [hms] at hm'
          cases hm'
        · exact .inr hd'
      · intro t ht
        obtain rfl := mem_singleton.mp ht
        refine ⟨⟨false, tail, hl⟩, ?_, fun _ => .inl rfl⟩
        rintro (hr' | hd')
        · exact hr hr'
        · exact hd hd'
    | admits m ho h0 hl hc hpend =>
      subst hpend
      obtain ⟨-, hr, hd⟩ := h.holds p endpoint ticket origin m hp
      refine .leave (Fifo.popHead_eq_remove h.ascending hl) (fun u _ hu => hu) rfl ?_
      intro u hu
      obtain rfl := mem_singleton.mp hu
      refine ⟨rfl, hl, ?_⟩
      rintro (hr' | hd')
      · exact hr hr'
      · exact hd hd'
    | spent done tail ho hl hd hc hpend | waits ho hw hd => exact .same rfl rfl rfl rfl
  | receives p ticket c turn hp ht =>
    cases ht with
    | takes m ms hl hm => exact h.sendLine_taken ms rfl rfl rfl rfl
    | closes hl hm hs | waits hw => exact .same rfl rfl rfl rfl
  | cancelsSend p ticket pending c result hp hw =>
    cases hw with
    | takesBack m ms hr hm =>
      exact .leave (h.takenBack_leaves hr hm).2 (fun u hne hu => other hr hne hu) rfl
        fun u hu => by cases hu
    | lacks hr hm => exact .same rfl rfl rfl rfl
    | leaves hr => exact .leave rfl (fun u _ hu => hu) rfl fun u hu => by cases hu
  | cancelsReceive p ticket hp => exact .same rfl rfl rfl rfl
  | triesSend endpoint value c result he ht => cases ht <;> exact .same rfl rfl rfl rfl
  | triesReceive c result ho ht =>
    cases ht with
    | takes m ms hl hm => exact h.sendLine_taken ms rfl rfl rfl rfl
    | closes hb hs | fails hb hs => exact .same rfl rfl rfl rfl

/-! ## 4. The order of the receivers -/

namespace Party

def receiveTicket : Party T → Option Nat
  | .idle => none
  | .sending _ _ _ _ => none
  | .unwinding _ _ _ => none
  | .receiving ticket => some ticket

end Party

/-- **The line of receivers is made of the tasks blocked in `receive`.** -/
structure ReceiveInv (s : Model n T) : Prop where
  ascending : s.channel.receivers.tickets.Pairwise (· < ·)
  issued : ∀ t ∈ s.channel.receivers.tickets, t < s.channel.receivers.next
  waiting : ∀ p t, (s.party p).receiveTicket = some t → t ∈ s.channel.receivers.tickets
  waited : ∀ t ∈ s.channel.receivers.tickets, ∃ p, (s.party p).receiveTicket = some t
  distinct : ∀ p q t, (s.party p).receiveTicket = some t → (s.party q).receiveTicket = some t → p = q

/-- What a step does to the line of receivers. -/
structure ReceiveLine (s s' : Model n T) (out : Out T) : Prop where
  next : s'.channel.receivers.next = s.channel.receivers.next + out.receiveRegistration.length
  registered : ∀ t ∈ out.receiveRegistration, t = s.channel.receivers.next
  stays : ∀ u ∈ s'.channel.receivers.tickets, u ∈ s.channel.receivers.tickets ∨ u = s.channel.receivers.next
  served : ∀ t ∈ out.service, s.channel.receivers.Leads t ∧ t ∉ s'.channel.receivers.tickets

namespace ReceiveInv

variable {s s' : Model n T} {out : Out T}

theorem same (h : ReceiveInv s) (hline : s'.channel.receivers = s.channel.receivers)
    (hparty : ∀ p, (s'.party p).receiveTicket = (s.party p).receiveTicket)
    (ho : out.receiveRegistration = []) (hs : out.service = []) : ReceiveInv s' ∧ ReceiveLine s s' out := by
  refine ⟨⟨?_, ?_, ?_, ?_, ?_⟩, ?_, ?_, ?_, ?_⟩
  · rw [hline]
    exact h.ascending
  · rw [hline]
    exact h.issued
  · intro p t hp
    rw [hparty] at hp
    rw [hline]
    exact h.waiting p t hp
  · intro t ht
    rw [hline] at ht
    obtain ⟨p, hp⟩ := h.waited t ht
    exact ⟨p, (hparty p).trans hp⟩
  · intro p q t hp hq
    rw [hparty] at hp hq
    exact h.distinct p q t hp hq
  · rw [hline, ho]
    rfl
  · rw [ho]
    exact fun _ ht => absurd ht not_mem_nil
  · intro u hu
    rw [hline] at hu
    exact .inl hu
  · rw [hs]
    exact fun _ ht => absurd ht not_mem_nil

/-- A task that is no receiver, before or after. -/
theorem bystander {c : Contents (Parcel T)} {p : Fin n} {x : Party T} {handed : Nat}
    (hp : (s.party p).receiveTicket = none) (hx : x.receiveTicket = none) (q : Fin n) :
  (({ s with channel := c, handed := handed }.goto p x).party q).receiveTicket = (s.party q).receiveTicket := by
  by_cases hqp : q = p
  · subst hqp
    rw [hp]
    simpa [Sys.goto] using hx
  · simp [Sys.goto, hqp]

/-- A receiver leaves the line: it was served or cancelled. -/
theorem leave (h : ReceiveInv s) {p : Fin n} {t : Nat} (hp : s.party p = .receiving t)
    {c : Contents (Parcel T)} (hline : c.receivers = s.channel.receivers.remove t)
    (ho : out.receiveRegistration = []) (hs : ∀ u ∈ out.service, u = t ∧ s.channel.receivers.Leads t) :
  ReceiveInv ({ s with channel := c }.goto p .idle) ∧ ReceiveLine s ({ s with channel := c }.goto p .idle) out := by
  have hmem : ∀ u, u ∈ c.receivers.tickets ↔ u ∈ s.channel.receivers.tickets ∧ u ≠ t := by
    intro u
    rw [hline, Fifo.tickets_remove, mem_filter]
    simp
  have ticket : ∀ q u, (({ s with channel := c }.goto p .idle).party q).receiveTicket = some u →
    (s.party q).receiveTicket = some u ∧ q ≠ p := by
    intro q u hq
    by_cases hqp : q = p
    · subst hqp
      simp [Sys.goto, Party.receiveTicket] at hq
    · exact ⟨by simpa [Sys.goto, hqp] using hq, hqp⟩
  refine ⟨⟨?_, ?_, ?_, ?_, ?_⟩, ?_, ?_, ?_, ?_⟩
  · show c.receivers.tickets.Pairwise _
    rw [hline, Fifo.tickets_remove]
    exact h.ascending.sublist filter_sublist
  · intro u hu
    show u < c.receivers.next
    rw [hline]
    exact h.issued u ((hmem u).mp hu).1
  · intro q u hq
    obtain ⟨hq, hqp⟩ := ticket q u hq
    refine (hmem u).mpr ⟨h.waiting q u hq, ?_⟩
    rintro rfl
    exact hqp (h.distinct q p u hq (by rw [hp]; rfl))
  · intro u hu
    obtain ⟨hold, hne⟩ := (hmem u).mp hu
    obtain ⟨q, hq⟩ := h.waited u hold
    have hqp : q ≠ p := by
      rintro rfl
      rw [hp] at hq
      exact hne (Option.some.inj hq).symm
    exact ⟨q, by simpa [Sys.goto, hqp] using hq⟩
  · exact fun q q' u hq hq' => h.distinct q q' u (ticket q u hq).1 (ticket q' u hq').1
  · show c.receivers.next = _
    rw [hline, ho]
    rfl
  · rw [ho]
    exact fun _ ht => absurd ht not_mem_nil
  · exact fun u hu => .inl ((hmem u).mp hu).1
  · intro u hu
    obtain ⟨rfl, hl⟩ := hs u hu
    exact ⟨hl, fun hin => ((hmem u).mp hin).2 rfl⟩

theorem enter (h : ReceiveInv s) {p : Fin n} (hp : s.party p = .idle) :
  ReceiveInv ({ s with channel := { s.channel with
    receivers := s.channel.receivers.enqueue } }.goto p (.receiving s.channel.receivers.next)) ∧
    ReceiveLine s ({ s with channel := { s.channel with
      receivers := s.channel.receivers.enqueue } }.goto p (.receiving s.channel.receivers.next))
      (.receiveRegistered s.channel.receivers.next) := by
  have htickets : s.channel.receivers.enqueue.tickets =
    s.channel.receivers.tickets ++ [s.channel.receivers.next] := by
    simp [Fifo.tickets, Fifo.enqueue]
  have hmem : ∀ u, u ∈ s.channel.receivers.enqueue.tickets ↔
    u ∈ s.channel.receivers.tickets ∨ u = s.channel.receivers.next := by
    intro u
    rw [htickets, mem_append, mem_singleton]
  have ticket : ∀ q u, ((Function.update s.party p (.receiving s.channel.receivers.next)) q).receiveTicket
    = some u → (q = p ∧ u = s.channel.receivers.next) ∨ (q ≠ p ∧ (s.party q).receiveTicket = some u) := by
    intro q u hq
    by_cases hqp : q = p
    · subst hqp
      rw [Function.update_self] at hq
      exact .inl ⟨rfl, (Option.some.inj hq).symm⟩
    · rw [Function.update_of_ne hqp] at hq
      exact .inr ⟨hqp, hq⟩
  refine ⟨⟨?_, ?_, ?_, ?_, ?_⟩, rfl, fun t ht => mem_singleton.mp ht, ?_,
    fun _ ht => absurd ht not_mem_nil⟩
  · show s.channel.receivers.enqueue.tickets.Pairwise _
    rw [htickets, pairwise_append]
    refine ⟨h.ascending, pairwise_singleton _ _, fun a ha b hb => ?_⟩
    rw [mem_singleton.mp hb]
    exact h.issued a ha
  · intro u hu
    rcases (hmem u).mp hu with hu | rfl
    · exact Nat.lt_succ_of_lt (h.issued u hu)
    · exact Nat.lt_succ_self _
  · intro q u hq
    rcases ticket q u hq with ⟨-, rfl⟩ | ⟨-, hq⟩
    · exact (hmem _).mpr (.inr rfl)
    · exact (hmem _).mpr (.inl (h.waiting q u hq))
  · intro u hu
    rcases (hmem u).mp hu with hu | rfl
    · obtain ⟨q, hq⟩ := h.waited u hu
      have hqp : q ≠ p := by
        rintro rfl
        rw [hp] at hq
        cases hq
      exact ⟨q, by simpa [Sys.goto, hqp] using hq⟩
    · exact ⟨p, by simp [Sys.goto, Party.receiveTicket]⟩
  · intro q q' u hq hq'
    rcases ticket q u hq with ⟨hqp, hu⟩ | ⟨-, hold⟩
    · rcases ticket q' u hq' with ⟨hqp', -⟩ | ⟨-, hold'⟩
      · exact hqp.trans hqp'.symm
      · exact absurd (h.issued u (h.waiting q' u hold')) (by omega)
    · rcases ticket q' u hq' with ⟨-, hu⟩ | ⟨-, hold'⟩
      · exact absurd (h.issued u (h.waiting q u hold)) (by omega)
      · exact h.distinct q q' u hold hold'
  · exact fun u hu => (hmem u).mp hu

/-- **Every step, on the line of receivers.** -/
theorem moves {op : Op n T} (h : ReceiveInv s) (hm : Moves s op out s') : ReceiveInv s' ∧ ReceiveLine s s' out := by
  cases hm with
  | stays op | duplicates endpoint he | dropsSender endpoint he hfree => exact h.same rfl (fun _ => rfl) rfl rfl
  | dropsReceiver c ms ho hfree hr => cases hr <;> exact h.same rfl (fun _ => rfl) rfl rfl
  | registersSend p endpoint value hp he =>
    exact h.same rfl (bystander (by rw [hp]; rfl) rfl) rfl rfl
  | registersReceive p hp ho => exact h.enter hp
  | sends p endpoint ticket origin pending pending' c turn hp ht =>
    have hnone : (s.party p).receiveTicket = none := by rw [hp]; rfl
    have hnext : (turn.next endpoint ticket origin pending').receiveTicket = none := by
      cases turn <;> rfl
    cases ht <;> exact h.same rfl (bystander hnone hnext) rfl rfl
  | receives p ticket c turn hp ht =>
    cases ht with
    | takes m ms hl hm | closes hl hm hs =>
      refine h.leave hp (Fifo.popHead_eq_remove h.ascending hl) rfl fun u hu => ?_
      exact ⟨mem_singleton.mp hu, hl⟩
    | waits hw =>
      refine h.same rfl (fun q => ?_) rfl rfl
      by_cases hqp : q = p
      · subst hqp
        rw [hp]
        simp [Sys.goto, ReceiveTurn.next]
      · simp [Sys.goto, hqp]
  | cancelsSend p ticket pending c result hp hw =>
    have hnone : (s.party p).receiveTicket = none := by
      rcases hp with ⟨e, o, hp⟩ | ⟨e, hp⟩ <;> rw [hp] <;> rfl
    cases hw <;> exact h.same rfl (bystander hnone rfl) rfl rfl
  | cancelsReceive p ticket hp => exact h.leave hp rfl rfl fun u hu => by cases hu
  | triesSend endpoint value c result he ht | triesReceive c result ho ht =>
    cases ht <;> exact h.same rfl (fun _ => rfl) rfl rfl

end ReceiveInv

/-! ## 5. Every run -/

/-- **The order of a run so far.** -/
structure Order (tr : List (Op n T × Out T)) (s : Model n T) : Prop where
  inv : Inv s
  receivers : ReceiveInv s
  fifo : (collect Out.receipt tr ++ s.channel.messages).Sublist (collect Out.acceptance tr)
  /-- The tickets number the registrations. -/
  sends : tickets Out.sendRegistration tr = List.range s.channel.senders.next
  receives : tickets Out.receiveRegistration tr = List.range s.channel.receivers.next
  admitted : (tickets Out.admission tr).Pairwise (· < ·)
  /-- Who was admitted is ahead of those in the line, or in it and waiting for its receipt. -/
  ahead : ∀ t ∈ tickets Out.admission tr, t < s.channel.senders.next ∧
    ∀ u ∈ s.channel.senders.tickets, t < u ∨ t = u ∧ s.channel.Marked u
  served : (tickets Out.service tr).Pairwise (· < ·)
  passed : ∀ t ∈ tickets Out.service tr, t < s.channel.receivers.next ∧ ∀ u ∈ s.channel.receivers.tickets, t < u

namespace Order

theorem initial (capacity : Nat) :
  Order [] (Sys.view (Sys.initial capacity : Sys n (ChannelState (Parcel T)) T)) where
  inv := Inv.initial capacity
  receivers := by
    refine ⟨List.Pairwise.nil, fun _ ht => absurd ht not_mem_nil, ?_, fun _ ht => absurd ht not_mem_nil, ?_⟩
    · intro _ _ hp
      cases hp
    · intro _ _ _ hp
      cases hp
  fifo := List.Sublist.refl _
  sends := rfl
  receives := rfl
  admitted := List.Pairwise.nil
  ahead := fun _ ht => absurd ht not_mem_nil
  served := List.Pairwise.nil
  passed := fun _ ht => absurd ht not_mem_nil

/-- The next registrations get the next numbers. -/
theorem range_snoc {l new : List Nat} {k k' : Nat} (hl : l = List.range k)
    (hk : k' = k + new.length) (hnew : ∀ t ∈ new, t = k) (hone : new.length ≤ 1) : l ++ new = List.range k' := by
  match new with
  | [] =>
    rw [hk, hl]
    simp
  | [t] =>
    rw [hk, hl, hnew t (mem_singleton_self t)]
    exact range_succ.symm
  | _ :: _ :: _ => simp at hone

theorem moves {tr : List (Op n T × Out T)} {s s' : Model n T} {op : Op n T} {out : Out T}
    (h : Order tr s) (hm : Moves s op out s') : Order (tr ++ [(op, out)]) s' := by
  have hsend := h.inv.sendLine hm
  obtain ⟨hrecv, hreceive⟩ := h.receivers.moves hm
  refine ⟨h.inv.moves hm, hrecv, ?_, ?_, ?_, ?_, ?_, ?_, ?_⟩
  · rw [collect_snoc, collect_snoc, append_assoc]
    have step := hm.fifo.append_left (collect Out.receipt tr)
    rw [← append_assoc _ s.channel.messages] at step
    exact step.trans (h.fifo.append_right _)
  · rw [tickets_snoc]
    exact range_snoc h.sends hsend.next hsend.registered (by cases out <;> simp [Out.sendRegistration])
  · rw [tickets_snoc]
    exact range_snoc h.receives hreceive.next hreceive.registered
      (by cases out <;> simp [Out.receiveRegistration])
  · rw [tickets_snoc, pairwise_append]
    refine ⟨h.admitted, by cases out <;> simp [Out.admission], fun t ht u hu => ?_⟩
    -- an earlier admission is ahead of the line, and who is admitted now had not committed
    obtain ⟨hlead, hnot, -⟩ := hsend.admitted u hu
    rcases (h.ahead t ht).2 u hlead.mem with hlt | ⟨-, hmark⟩
    · exact hlt
    · exact absurd hmark hnot
  · intro t ht
    rw [tickets_snoc] at ht
    have hnext : s.channel.senders.next ≤ s'.channel.senders.next := by
      rw [hsend.next]
      exact Nat.le_add_right _ _
    rcases mem_append.mp ht with hold | hnew
    · obtain ⟨hlt, hline⟩ := h.ahead t hold
      refine ⟨Nat.lt_of_lt_of_le hlt hnext, fun u hu => ?_⟩
      rcases hsend.stays u hu with ⟨hu, hmark⟩ | rfl
      · rcases hline u hu with hlt | ⟨rfl, hm⟩
        · exact .inl hlt
        · exact .inr ⟨rfl, hmark hm⟩
      · exact .inl hlt
    · obtain ⟨hlead, -, hmark⟩ := hsend.admitted t hnew
      have hlt := h.inv.issued t hlead.mem
      refine ⟨Nat.lt_of_lt_of_le hlt hnext, fun u hu => ?_⟩
      rcases hsend.stays u hu with ⟨hold, -⟩ | rfl
      · rcases Nat.lt_or_eq_of_le (hlead.le h.inv.ascending hold) with hlt | rfl
        · exact .inl hlt
        · exact .inr ⟨rfl, hmark hu⟩
      · exact .inl hlt
  · rw [tickets_snoc, pairwise_append]
    refine ⟨h.served, by cases out <;> simp [Out.service], fun t ht u hu => ?_⟩
    exact (h.passed t ht).2 u (hreceive.served u hu).1.mem
  · intro t ht
    rw [tickets_snoc] at ht
    have hnext : s.channel.receivers.next ≤ s'.channel.receivers.next := by
      rw [hreceive.next]
      exact Nat.le_add_right _ _
    rcases mem_append.mp ht with hold | hnew
    · obtain ⟨hlt, hline⟩ := h.passed t hold
      refine ⟨Nat.lt_of_lt_of_le hlt hnext, fun u hu => ?_⟩
      rcases hreceive.stays u hu with hu | rfl
      · exact hline u hu
      · exact hlt
    · obtain ⟨hlead, hgone⟩ := hreceive.served t hnew
      have hlt := h.receivers.issued t hlead.mem
      refine ⟨Nat.lt_of_lt_of_le hlt hnext, fun u hu => ?_⟩
      rcases hreceive.stays u hu with hold | rfl
      · rcases Nat.lt_or_eq_of_le (hlead.le h.receivers.ascending hold) with hlt | rfl
        · exact hlt
        · exact absurd hu hgone
      · exact hlt

end Order

/-- Who comes first in the line is the blocked task with the least ticket. -/
theorem Fifo.leads_of_least {f : Fifo} (ha : f.tickets.Pairwise (· < ·)) {t : Nat}
    (ht : t ∈ f.tickets) (hleast : ∀ u ∈ f.tickets, t ≤ u) : f.Leads t := by
  cases hl : f.line with
  | nil =>
    rw [tickets, hl] at ht
    cases ht
  | cons w tail =>
    have hw : f.Leads w.1 := ⟨w.2, tail, hl⟩
    obtain rfl : t = w.1 := Nat.le_antisymm (hleast w.1 hw.mem) (hw.le ha ht)
    exact hw

variable {m : Parcel T}

/-- `try_send` stores a message only when no send is in line. -/
theorem Moves.line_of_trySent (hm : Moves s op out s') (ho : out = .trySent m) : s.channel.senders.line = [] := by
  cases hm with
  | triesSend e value c result he ht =>
    cases ht with
    | stores hopen hl hc => exact hl
    | closes hopen | fails hopen hf => cases ho
  | sends p e t o pending pending' c turn hp ht => cases turn <;> cases ho
  | receives p t c turn hp ht => cases ht <;> cases ho
  | cancelsSend p t pending c result hp hw => cases result <;> cases ho
  | triesReceive c result hopen ht => cases ht <;> cases ho
  | stays op | duplicates e he | dropsSender e he hfree | dropsReceiver c ms hopen hfree hr
  | registersSend p e value hp he | registersReceive p hp hopen | cancelsReceive p t hp => cases ho

/-- `try_receive` takes a message only when no receiver is in line. -/
theorem Moves.line_of_tryReceived (hm : Moves s op out s') (ho : out = .tryReceived m) :
    s.channel.receivers.line = [] := by
  cases hm with
  | triesReceive c result hopen ht =>
    cases ht with
    | takes m ms hl hm => exact hl
    | closes hb hs | fails hb hs => cases ho
  | triesSend e value c result he ht => cases ht <;> cases ho
  | sends p e t o pending pending' c turn hp ht => cases turn <;> cases ho
  | receives p t c turn hp ht => cases ht <;> cases ho
  | cancelsSend p t pending c result hp hw => cases result <;> cases ho
  | stays op | duplicates e he | dropsSender e he hfree | dropsReceiver c ms hopen hfree hr
  | registersSend p e value hp he | registersReceive p hp hopen | cancelsReceive p t hp => cases ho

/-- A blocked send takes its turn with room for its message: it is admitted if and only if no send
  registered before it is still blocked. -/
theorem Inv.admitted_iff (h : Inv s) {p : Fin n} {e t o : Nat}
    (hp : s.party p = .sending e t o (some m)) (ho : s.channel.receiverOpen = true)
    (hc : s.channel.CanCommit) {c : Contents (Parcel T)} {pending : Option (Parcel T)}
    {turn : SendTurn (Parcel T)} (ht : s.channel.Sends t (some m) c pending turn) :
    (turn.out t o = .committed t m ∨ turn.out t o = .admitted t m) ↔
      ∀ q e' u o' pending', s.party q = .sending e' u o' pending' → t ≤ u := by
  obtain ⟨-, hr, hd⟩ := h.holds p e t o m hp
  -- the least of the blocked leads
  have leads : (∀ q e' u o' pending', s.party q = .sending e' u o' pending' → t ≤ u) ↔
    s.channel.senders.Leads t := by
    constructor
    · intro hleast
      refine Fifo.leads_of_least h.ascending (h.waiting p e t o _ hp) fun u hu => ?_
      obtain ⟨q, e', o', pending', hq⟩ := h.waited u hu
      exact hleast q e' u o' pending' hq
    · intro hlead q e' u o' pending' hq
      exact hlead.le h.ascending (h.waiting q e' u o' pending' hq)
  rw [leads]
  cases ht with
  | takesBack m' ms hclosed hr hm | lacks hclosed hr hm | returns m' hclosed hr hpend
  | breaks hclosed hr hpend => rw [ho] at hclosed; cases hclosed
  | acknowledges tail ho h0 hl =>
    refine absurd ?_ hd
    rw [hl]
    exact (.head _)
  | commits m' tail ho h0 hl hc hpend =>
    cases hpend
    exact ⟨fun _ => ⟨false, tail, hl⟩, fun _ => .inl rfl⟩
  | admits m' ho h0 hl hc hpend =>
    cases hpend
    exact ⟨fun _ => hl, fun _ => .inr rfl⟩
  | spent done tail ho hl hd hc hpend => cases hpend
  | waits ho hw hnot =>
    constructor
    · rintro (hout | hout) <;> cases hout
    · exact fun hlead => absurd ⟨hlead, hc⟩ hw

/-- A blocked receiver takes its turn with a message stored: it is served if and only if no receiver
  registered before it is still blocked. -/
theorem ReceiveInv.received_iff (h : ReceiveInv s) {p : Fin n} {t : Nat}
    (hp : s.party p = .receiving t) {ms : List (Parcel T)}
    (hm : s.channel.messages = m :: ms) {closed : Bool} {c : Contents (Parcel T)}
    {turn : ReceiveTurn (Parcel T)} (ht : s.channel.Receives t closed c turn) :
    turn.out t = .received t m ↔ ∀ q u, s.party q = .receiving u → t ≤ u := by
  have leads : (∀ q u, s.party q = .receiving u → t ≤ u) ↔ s.channel.receivers.Leads t := by
    constructor
    · intro hleast
      refine Fifo.leads_of_least h.ascending (h.waiting p t (by rw [hp]; rfl)) fun u hu => ?_
      obtain ⟨q, hq⟩ := h.waited u hu
      cases hq' : s.party q with
      | receiving u' =>
        rw [hq'] at hq
        rw [← Option.some.inj hq]
        exact hleast q u' hq'
      | idle | sending e t o pending | unwinding e t pending => rw [hq'] at hq; cases hq
    · intro hlead q u hq
      exact hlead.le h.ascending (h.waiting q u (by rw [hq]; rfl))
  rw [leads]
  cases ht with
  | takes m' ms' hl hm' =>
    rw [hm] at hm'
    cases hm'
    exact ⟨fun _ => hl, fun _ => rfl⟩
  | closes hl hm' hs =>
    rw [hm] at hm'
    cases hm'
  | waits hw =>
    constructor
    · intro hout
      cases hout
    · intro hlead
      have := (hw hlead).1
      rw [hm] at this
      cases this

namespace Sys

theorem order_run {usizeMax capacity : Nat} {tr : List (Op n T × Out T)}
    {s : Sys n (ChannelState (Parcel T)) T} (h : Run (step usizeMax) (initial capacity) tr s) :
    s.channel.Sound ∧ Order tr s.view := by
  refine Run.invariant_trace (P := fun tr s => s.channel.Sound ∧ Order tr s.view) ?_ h
    ⟨ChannelState.sound_bounded capacity, Order.initial capacity⟩
  intro tr s op s' out hP hs
  obtain ⟨hsound, hm⟩ := step_moves hP.1 hs
  exact ⟨hsound, hP.2.moves hm⟩

/-- **Order.** In every run: the messages are received in the order of their acceptance; the tickets
  number the registrations, and both the sends that are admitted and the receivers that are served
  come in the order of their tickets. A blocked send with room for its message is admitted, and a
  blocked receiver with a message stored is served, if and only if nobody registered before it is
  still blocked; `try_send` and `try_receive` succeed only when nobody is. And the wait queue, by
  itself, refines the plain queue of live tickets, whatever is done to it. -/
theorem channel_order {usizeMax capacity : Nat} {tr : List (Op n T × Out T)}
    {s : Sys n (ChannelState (Parcel T)) T} (h : Run (step usizeMax) (initial capacity) tr s) :
    (collect Out.receipt tr).Sublist (collect Out.acceptance tr) ∧
    tickets Out.sendRegistration tr = List.range s.channel.sendWaiters.nextTicket ∧
    tickets Out.receiveRegistration tr = List.range s.channel.receiveWaiters.nextTicket ∧
    (tickets Out.admission tr).Pairwise (· < ·) ∧ (tickets Out.service tr).Pairwise (· < ·) ∧
    (∀ p e t o m s' out, s.party p = .sending e t o (some m) → s.channel.receiverOpen = true →
      s.channel.sendCanCommit = true → s.step usizeMax (.poll p) = .ok (s', out) →
      ((out = .committed t m ∨ out = .admitted t m) ↔
        ∀ q e' u o' pending, s.party q = .sending e' u o' pending → t ≤ u)) ∧
    (∀ p t m ms s' out, s.party p = .receiving t → s.channel.messages = m :: ms →
      s.step usizeMax (.poll p) = .ok (s', out) → (out = .received t m ↔ ∀ q u, s.party q = .receiving u → t ≤ u)) ∧
    (∀ op m s', s.step usizeMax op = .ok (s', .trySent m) → ∀ q e u o pending, s.party q ≠ .sending e u o pending) ∧
    (∀ op m s', s.step usizeMax op = .ok (s', .tryReceived m) → ∀ q u, s.party q ≠ .receiving u) ∧
    ∀ qtr q, Run (WaitQueue.step usizeMax) .empty qtr q →
      Fifo.empty.Follows qtr q.view ∧ (q.isEmpty = true ↔ q.view.line = []) ∧
      ∀ t, (q.isHead t = true ↔ q.view.Leads t) ∧
        (q.isHeadCompleted t = true ↔ ∃ tail, q.view.line = (t, true) :: tail) := by
  obtain ⟨hsound, ho⟩ := order_run h
  refine ⟨(sublist_append_left _ _).trans ho.fifo, ho.sends, ho.receives, ho.admitted,
    ho.served, ?_, ?_, ?_, ?_, ?_⟩
  · intro p e t o m s' out hp hopen hc hs
    rw [step_poll_sending hp] at hs
    obtain ⟨-, ht⟩ := ChannelState.sendTurn_spec hsound (Eq.refl (s.channel.sendTurn t (some m)))
    rw [← (Prod.mk.inj (Except.ok.inj hs)).2]
    exact ho.inv.admitted_iff hp hopen ((ChannelState.sendCanCommit_iff hsound).mp hc) ht
  · intro p t m ms s' out hp hm hs
    have hstep : s.step usizeMax (.poll p) =
      .ok ({ s with channel := (s.channel.receiveTurn t s.allSendersClosed).1 }.goto p
        ((s.channel.receiveTurn t s.allSendersClosed).2.next t),
        (s.channel.receiveTurn t s.allSendersClosed).2.out t) := by
      simp only [step, hp]
    obtain ⟨-, ht⟩ := ChannelState.receiveTurn_spec hsound
      (Eq.refl (s.channel.receiveTurn t s.allSendersClosed))
    rw [hstep] at hs
    rw [← (Prod.mk.inj (Except.ok.inj hs)).2]
    exact ho.receivers.received_iff hp hm ht
  · intro op m s' hs q e u o pending hq
    obtain ⟨-, hm⟩ := step_moves hsound hs
    have hline := hm.line_of_trySent rfl
    have := ho.inv.waiting q e u o pending hq
    rw [Fifo.tickets, hline] at this
    cases this
  · intro op m s' hs q u hq
    obtain ⟨-, hm⟩ := step_moves hsound hs
    have hline := hm.line_of_tryReceived rfl
    have := ho.receivers.waiting q u (by rw [show s.view.party q = _ from hq]; rfl)
    rw [Fifo.tickets, hline] at this
    cases this
  · intro qtr q hq
    obtain ⟨hwf, hf⟩ := WaitQueue.refines hq
    exact ⟨hf, WaitQueue.isEmpty_view hwf, fun t => ⟨WaitQueue.isHead_view hwf, WaitQueue.isHeadCompleted_view hwf⟩⟩

/-- Three sends of a channel with one slot; the second is cancelled, the third follows the first. -/
def threeSends : List (Op 3 Nat × Out Nat) :=
  [(.send 0 0 5, .sendRegistered 0), (.send 1 0 6, .sendRegistered 1), (.send 2 0 7, .sendRegistered 2),
    (.poll 2, .silent), (.poll 0, .admitted 0 ⟨0, 5⟩), (.cancel 1, .discarded [⟨1, 6⟩]),
    (.tryReceive, .tryReceived ⟨0, 5⟩), (.poll 2, .admitted 2 ⟨2, 7⟩)]

theorem channel_order_three : ∃ s : Sys 3 (ChannelState (Parcel Nat)) Nat,
    Run (step (2 ^ 64 - 1)) (initial 1) threeSends s ∧
    (collect Out.receipt threeSends).Sublist (collect Out.acceptance threeSends) ∧
    (tickets Out.admission threeSends).Pairwise (· < ·) := by
  have h : ∃ s : Sys 3 (ChannelState (Parcel Nat)) Nat, Run (step (2 ^ 64 - 1)) (initial 1) threeSends s :=
    ⟨_, .of_execute [.send 0 0 5, .send 1 0 6, .send 2 0 7, .poll 2, .poll 0, .cancel 1, .tryReceive, .poll 2] rfl⟩
  obtain ⟨s, hs⟩ := h
  exact ⟨s, hs, (channel_order hs).1, (channel_order hs).2.2.2.1⟩

end Sys

/-! ## 6. No deadlock -/

/-- A turn ends its call, or hands the message over. -/
def Out.Advances : Out T → Prop
  | .committed _ _ => True
  | .admitted _ _ => True
  | .acknowledged _ => True
  | .received _ _ => True
  | .receiveClosed _ => True
  | _ => False

theorem Fifo.exists_leads {f : Fifo} {t : Nat} (ht : t ∈ f.tickets) : ∃ u, f.Leads u := by
  cases hl : f.line with
  | nil =>
    rw [tickets, hl] at ht
    cases ht
  | cons w tail => exact ⟨w.1, w.2, tail, hl⟩

/-- With a message stored, or no sender left, the receiver that leads is served. -/
theorem ReceiveInv.serves (h : ReceiveInv s) {q : Fin n} {u : Nat} (hq : s.party q = .receiving u)
    {closed : Bool} (hm : s.channel.messages = [] → closed = true) :
    ∃ r t, s.party r = .receiving t ∧ ∀ c turn, s.channel.Receives t closed c turn →
      (turn.out t : Out T).Advances := by
  obtain ⟨t, hlead⟩ := Fifo.exists_leads (h.waiting q u (by rw [hq]; rfl))
  obtain ⟨r, hr⟩ := h.waited t hlead.mem
  cases hr' : s.party r with
  | idle | sending e t o pending | unwinding e t pending => rw [hr'] at hr; cases hr
  | receiving t' =>
    rw [hr'] at hr
    obtain rfl := Option.some.inj hr
    refine ⟨r, _, hr', fun c turn ht => ?_⟩
    cases ht with
    | takes m ms hl hms | closes hl hms hs => trivial
    | waits hw =>
      obtain ⟨hempty, hopen⟩ := hw hlead
      rw [hm hempty] at hopen
      cases hopen

/-- With no message stored and a receiver in line, the send that leads goes on. -/
theorem Inv.hands (h : Inv s) {p : Fin n} {e u o : Nat} {pending : Option (Parcel T)}
    (hp : s.party p = .sending e u o pending) (hopen : s.channel.receiverOpen = true)
    (hm : s.channel.messages = []) (hline : s.channel.receivers.line ≠ []) :
    ∃ r e t o pending, s.party r = .sending e t o pending ∧
      ∀ c pending' turn, s.channel.Sends t pending c pending' turn → (turn.out t o).Advances := by
  obtain ⟨t, hlead⟩ := Fifo.exists_leads (h.waiting p e u o pending hp)
  obtain ⟨r, e, o, pending, hr⟩ := h.waited t hlead.mem
  have hcommit : s.channel.CanCommit := by
    unfold Contents.CanCommit
    split
    · exact ⟨hm, hline⟩
    · rw [hm]
      exact Nat.pos_of_ne_zero ‹_›
  refine ⟨r, e, t, o, pending, hr, fun c pending' turn ht => ?_⟩
  have lost : s.channel.receiverOpen ≠ false := by
    rw [hopen]
    simp
  cases ht with
  | takesBack m ms hclosed hr hm | lacks hclosed hr hm | returns m hclosed hr hpend | breaks hclosed hr hpend =>
    exact absurd hclosed lost
  | acknowledges tail ho h0 hl | commits m tail ho h0 hl hc hpend | admits m ho h0 hl hc hpend => trivial
  | spent done tail ho hl hd hc hpend =>
    exact absurd (h.sends_panic hr (.spent done tail ho hl hd hc hpend)).2.1 lost
  | waits ho hw hd => exact absurd ⟨hlead, hcommit⟩ hw

namespace Sys

theorem step_poll_receiving {usizeMax : Nat} {s : Sys n (ChannelState (Parcel T)) T} {p : Fin n} {t : Nat}
    (hp : s.party p = .receiving t) : s.step usizeMax (.poll p) =
      .ok ({ s with channel := (s.channel.receiveTurn t s.allSendersClosed).1 }.goto p
        ((s.channel.receiveTurn t s.allSendersClosed).2.next t),
        (s.channel.receiveTurn t s.allSendersClosed).2.out t) := by
  simp only [step, hp]

/-- **No deadlock.** In every run, whatever the capacity: while a task is blocked in `receive` and
  another in `send`, or no sender is left, a turn of one of the blocked tasks ends its call or hands
  its message over. -/
theorem no_deadlock {usizeMax capacity : Nat} {tr : List (Op n T × Out T)}
    {s : Sys n (ChannelState (Parcel T)) T} (h : Run (step usizeMax) (initial capacity) tr s)
    {q : Fin n} {u : Nat} (hq : s.party q = .receiving u) (hopen : s.channel.receiverOpen = true)
    (hwork : (∃ p e t o pending, s.party p = .sending e t o pending) ∨ s.endpoints = []) :
    ∃ r s' out, s.step usizeMax (.poll r) = .ok (s', out) ∧ out.Advances := by
  obtain ⟨hsound, ho⟩ := order_run h
  have receives (hm : s.channel.messages = [] → s.allSendersClosed = true) :
      ∃ r s' out, s.step usizeMax (.poll r) = .ok (s', out) ∧ out.Advances := by
    obtain ⟨r, t, hr, hturn⟩ := ho.receivers.serves hq hm
    obtain ⟨-, ht⟩ := ChannelState.receiveTurn_spec hsound
      (Eq.refl (s.channel.receiveTurn t s.allSendersClosed))
    exact ⟨r, _, _, step_poll_receiving hr, hturn _ _ ht⟩
  cases hm : s.channel.messages with
  | cons m ms => exact receives fun hempty => by rw [hm] at hempty; cases hempty
  | nil =>
    rcases hwork with ⟨p, e, t, o, pending, hp⟩ | hgone
    · have hline : s.view.channel.receivers.line ≠ [] := by
        intro hl
        have := ho.receivers.waiting q u (by rw [show s.view.party q = _ from hq]; rfl)
        rw [Fifo.tickets, hl] at this
        cases this
      obtain ⟨r, e, t, o, pending, hr, hturn⟩ := ho.inv.hands hp hopen hm hline
      obtain ⟨-, ht⟩ := ChannelState.sendTurn_spec hsound (Eq.refl (s.channel.sendTurn t pending))
      exact ⟨r, _, _, step_poll_sending hr, hturn _ _ _ ht⟩
    · refine receives fun _ => ?_
      rw [allSendersClosed, beq_iff_eq, show s.senders = _ from (live_run h).2.count]
      exact congrArg List.length hgone

/-- A rendezvous of two tasks that are both blocked. -/
theorem no_deadlock_two : ∃ s : Sys 2 (ChannelState (Parcel Nat)) Nat,
    ∃ r s' out, s.step (2 ^ 64 - 1) (.poll r) = .ok (s', out) ∧ out.Advances := by
  have h : ∃ s : Sys 2 (ChannelState (Parcel Nat)) Nat, Run (step (2 ^ 64 - 1)) (initial 0)
      [(.send 0 0 5, .sendRegistered 0), (.receive 1, .receiveRegistered 0)] s ∧
      s.party 1 = .receiving 0 ∧ s.channel.receiverOpen = true ∧ s.party 0 = .sending 0 0 0 (some ⟨0, 5⟩) :=
    ⟨_, .of_execute [.send 0 0 5, .receive 1] rfl, rfl, rfl, rfl⟩
  obtain ⟨s, hs, hq, hopen, hp⟩ := h
  exact ⟨s, no_deadlock hs hq hopen (.inl ⟨0, 0, 0, 0, _, hp⟩)⟩

end Sys

end Bray.Channel
