/-
  File:      Bray/Channel/Protocol.lean
  Subject:   WHAT HOLDS BETWEEN TWO STEPS OF A CHANNEL. The senders in the line are the tasks blocked
    in `send`; a committed rendezvous is at the head of the line with its message in the ring;
    a received one is at the head, marked completed (`Inv`).

  A task that leaves the line, for whatever reason, is one kind of change (`Inv.leave`), a message
  that is received another (`Inv.taken`). Each move is put together from these.
-/
import Bray.Channel.System
import Mathlib.Data.List.Nodup

namespace Bray.Channel

open Bray.Lib List Function
open Option (some_ne_none)

variable {n : Nat} {T : Type}

namespace Party

/-- The ticket of a send that is not yet withdrawn. -/
def sendTicket : Party T → Option Nat
  | .idle => none
  | .sending _ ticket _ _ => some ticket
  | .unwinding _ ticket _ => some ticket
  | .receiving _ => none

/-- The value a send still holds. -/
def pending : Party T → Option (Parcel T)
  | .idle => none
  | .sending _ _ _ pending => pending
  | .unwinding _ _ pending => pending
  | .receiving _ => none

end Party

/-! ## 1. The line of senders -/

namespace Fifo

variable {f : Fifo}

theorem mem_tickets {t : Nat} : t ∈ f.tickets ↔ ∃ done, (t, done) ∈ f.line := by
  unfold tickets
  rw [mem_map]
  constructor
  · rintro ⟨⟨u, done⟩, hw, rfl⟩
    exact ⟨done, hw⟩
  · rintro ⟨done, hw⟩
    exact ⟨(t, done), hw, rfl⟩

theorem Leads.mem {t : Nat} (h : f.Leads t) : t ∈ f.tickets := by
  obtain ⟨done, tail, hl⟩ := h
  exact mem_tickets.mpr ⟨done, by rw [hl]; exact (.head _)⟩

theorem Leads.eq {t u : Nat} (h : f.Leads t) (h' : f.Leads u) : t = u := by
  obtain ⟨done, tail, hl⟩ := h
  obtain ⟨done', tail', hl'⟩ := h'
  rw [hl] at hl'
  exact (Prod.mk.inj (List.cons.inj hl').1).1

theorem Leads.le {t u : Nat} (ha : f.tickets.Pairwise (· < ·)) (h : f.Leads t) (hu : u ∈ f.tickets) : t ≤ u := by
  obtain ⟨done, tail, hl⟩ := h
  rw [tickets, hl, map_cons] at ha hu
  rcases mem_cons.mp hu with rfl | hu
  · exact Nat.le_refl _
  · exact Nat.le_of_lt (rel_of_pairwise_cons ha hu)

/-- A ticket stands once in the line. -/
theorem line_unique (ha : f.tickets.Pairwise (· < ·)) {t : Nat} {a b : Bool}
    (h : (t, a) ∈ f.line) (h' : (t, b) ∈ f.line) : a = b := by
  have hnd : (f.line.map Prod.fst).Nodup := ha.imp fun hlt => Nat.ne_of_lt hlt
  exact (Prod.mk.inj (inj_on_of_nodup_map hnd h h' rfl)).2

@[simp] theorem tickets_remove (f : Fifo) (t : Nat) : (f.remove t).tickets = f.tickets.filter fun u => u != t := by
  unfold tickets remove
  rw [filter_map]
  rfl

theorem popHead_eq_remove (ha : f.tickets.Pairwise (· < ·)) {t : Nat} (h : f.Leads t) : f.popHead = f.remove t := by
  obtain ⟨done, tail, hl⟩ := h
  rw [tickets, hl, map_cons] at ha
  unfold popHead remove
  rw [hl, tail_cons, filter_cons]
  simp only [bne_self_eq_false, Bool.false_eq_true, if_false]
  congr 1
  refine (filter_eq_self.mpr fun w hw => ?_).symm
  have := rel_of_pairwise_cons ha (mem_map_of_mem hw)
  simp only [bne_iff_ne, ne_eq]
  omega

theorem Leads.remove {t u : Nat} {done : Bool} {tail : List (Nat × Bool)}
    (hl : f.line = (t, done) :: tail) (hne : t ≠ u) :
    (f.remove u).line = (t, done) :: tail.filter fun w => w.1 != u := by
  unfold Fifo.remove
  rw [hl, filter_cons, if_pos (by simpa using hne)]

end Fifo

/-! ## 2. The invariant -/

/-- **What holds of the senders between two steps.** -/
structure Inv (s : Model n T) : Prop where
  ascending : s.channel.senders.tickets.Pairwise (· < ·)
  issued : ∀ t ∈ s.channel.senders.tickets, t < s.channel.senders.next
  /-- A committed message is the only one, and its send leads. -/
  committed : ∀ t, s.channel.rendezvous = some t → s.channel.capacity = 0 ∧
    ∃ m tail, s.channel.messages = [m] ∧ s.channel.senders.line = (t, false) :: tail
  completed : ∀ t, (t, true) ∈ s.channel.senders.line → s.channel.capacity = 0 ∧
    s.channel.rendezvous = none ∧ s.channel.senders.Leads t
  /-- The line is made of the tasks blocked in `send`. -/
  waiting : ∀ p e t o pending, s.party p = .sending e t o pending → t ∈ s.channel.senders.tickets
  waited : ∀ t ∈ s.channel.senders.tickets, ∃ p e o pending, s.party p = .sending e t o pending
  distinct : ∀ p q t, (s.party p).sendTicket = some t → (s.party q).sendTicket = some t → p = q
  given : ∀ p t, (s.party p).sendTicket = some t → t < s.channel.senders.next
  unwound : ∀ p e t pending, s.party p = .unwinding e t pending → t ∉ s.channel.senders.tickets ∧ pending = none
  /-- A send that holds its value has not committed. -/
  holds : ∀ p e t o m, s.party p = .sending e t o (some m) → m.origin = o ∧
    s.channel.rendezvous ≠ some t ∧ (t, true) ∉ s.channel.senders.line
  /-- A send without its value has committed it, and it is in the ring or was received. -/
  spent : ∀ p e t o, s.party p = .sending e t o none →
    (s.channel.rendezvous = some t ∧ ∃ m, s.channel.messages = [m] ∧ m.origin = o) ∨
      (t, true) ∈ s.channel.senders.line
  /-- After the receiver only a committed message is left. -/
  drained : s.channel.receiverOpen = false → s.channel.rendezvous = none → s.channel.messages = []

namespace Inv

variable {s : Model n T}

theorem initial (capacity : Nat) :
  Inv (Sys.view (Sys.initial capacity : Sys n (ChannelState (Parcel T)) T)) where
  ascending := List.Pairwise.nil
  issued := fun _ h => nomatch h
  committed := fun _ h => by cases h
  completed := fun _ h => nomatch h
  waiting := fun _ _ _ _ _ h => by cases h
  waited := fun _ h => nomatch h
  distinct := fun _ _ _ h => by cases h
  given := fun _ _ h => by cases h
  unwound := fun _ _ _ _ h => by cases h
  holds := fun _ _ _ _ _ h => by cases h
  spent := fun _ _ _ _ h => by cases h
  drained := fun h => by cases h

/-- A task that has no business with the senders may change. -/
theorem bystander (h : Inv s) (p : Fin n) (x : Party T) (hp : (s.party p).sendTicket = none)
    (hx : x.sendTicket = none) : Inv (s.goto p x) := by
  have other : ∀ q, ((s.goto p x).party q).sendTicket ≠ none → (s.goto p x).party q = s.party q := by
    intro q hq
    by_cases hqp : q = p
    · subst hqp
      exact absurd (by simpa [Sys.goto] using hx) hq
    · simp [Sys.goto, hqp]
  have sending : ∀ q e t o pending, (s.goto p x).party q = .sending e t o pending →
    s.party q = .sending e t o pending := by
    intro q e t o pending hq
    rw [← other q (by rw [hq]; exact some_ne_none _)]
    exact hq
  have ticket : ∀ q t, ((s.goto p x).party q).sendTicket = some t → (s.party q).sendTicket = some t := by
    intro q t hq
    rw [← other q (by rw [hq]; exact some_ne_none _)]
    exact hq
  refine ⟨h.ascending, h.issued, h.committed, h.completed, ?_, ?_, ?_, ?_, ?_, ?_, ?_, h.drained⟩
  · exact fun q e t o pending hq => h.waiting q e t o pending (sending q e t o pending hq)
  · intro t ht
    obtain ⟨q, e, o, pending, hq⟩ := h.waited t ht
    refine ⟨q, e, o, pending, ?_⟩
    have hqp : q ≠ p := by
      rintro rfl
      rw [hq] at hp
      cases hp
    simpa [Sys.goto, hqp] using hq
  · exact fun q q' t hq hq' => h.distinct q q' t (ticket q t hq) (ticket q' t hq')
  · exact fun q t hq => h.given q t (ticket q t hq)
  · intro q e t pending hq
    have := other q (by rw [hq]; exact some_ne_none _)
    exact h.unwound q e t pending (this ▸ hq)
  · exact fun q e t o m hq => h.holds q e t o m (sending q e t o (some m) hq)
  · exact fun q e t o hq => h.spent q e t o (sending q e t o none hq)

variable {p : Fin n} {c : Contents (Parcel T)}

section

variable (h : Inv s)
include h

/-- **A send leaves the line**: it reported, was cancelled, or panicked. -/
theorem leave {t : Nat} (hp : (s.party p).sendTicket = some t)
    {x : Party T} (hx : x = .idle ∨ ∃ e, x = .unwinding e t none)
    (hline : c.senders = s.channel.senders.remove t) (hcap : c.capacity = s.channel.capacity)
    (hopen : c.receiverOpen = s.channel.receiverOpen)
    (hr : c.rendezvous = none ∧ (s.channel.rendezvous = some t ∨ s.channel.rendezvous = none) ∧
      (c.receiverOpen = false → c.messages = []) ∨
      c.rendezvous = s.channel.rendezvous ∧ s.channel.rendezvous ≠ some t ∧
        c.messages = s.channel.messages) : Inv ({ s with channel := c }.goto p x) := by
  have htickets : c.senders.tickets = s.channel.senders.tickets.filter fun u => u != t := by
    rw [hline, Fifo.tickets_remove]
  have hmem : ∀ {w : Nat × Bool}, w ∈ c.senders.line ↔ w ∈ s.channel.senders.line ∧ w.1 ≠ t := by
    intro w
    rw [hline]
    simp [Fifo.remove]
  have self : ({ s with channel := c }.goto p x).party p = x := by simp [Sys.goto]
  have other : ∀ q, q ≠ p → ({ s with channel := c }.goto p x).party q = s.party q := by
    intro q hq
    simp [Sys.goto, hq]
  have notSending : ∀ e u o pending, x ≠ .sending e u o pending := by
    intro e u o pending hxs
    rcases hx with rfl | ⟨e', rfl⟩ <;> cases hxs
  -- a task that is still sending is another one, with another ticket
  have sending : ∀ q e u o pending, ({ s with channel := c }.goto p x).party q =
    .sending e u o pending → s.party q = .sending e u o pending ∧ u ≠ t := by
    intro q e u o pending hq
    by_cases hqp : q = p
    · subst hqp
      rw [self] at hq
      exact absurd hq (notSending e u o pending)
    · rw [other q hqp] at hq
      refine ⟨hq, ?_⟩
      rintro rfl
      exact hqp (h.distinct q p u (by rw [hq]; rfl) hp)
  have ticket : ∀ q u, (({ s with channel := c }.goto p x).party q).sendTicket = some u →
    (s.party q).sendTicket = some u := by
    intro q u hq
    by_cases hqp : q = p
    · subst hqp
      rw [self] at hq
      rcases hx with rfl | ⟨e', rfl⟩
      · cases hq
      · cases hq
        exact hp
    · rw [other q hqp] at hq
      exact hq
  refine ⟨?_, ?_, ?_, ?_, ?_, ?_, ?_, ?_, ?_, ?_, ?_, ?_⟩
  · show c.senders.tickets.Pairwise _
    rw [htickets]
    exact h.ascending.sublist filter_sublist
  · show ∀ u ∈ c.senders.tickets, u < c.senders.next
    intro u hu
    rw [htickets] at hu
    rw [hline]
    exact h.issued u (mem_filter.mp hu).1
  · show ∀ u, c.rendezvous = some u → c.capacity = 0 ∧ ∃ m tail, c.messages = [m] ∧
    c.senders.line = (u, false) :: tail
    intro u hu
    rcases hr with ⟨hnone, -, -⟩ | ⟨hsame, hne, hms⟩
    · rw [hnone] at hu
      cases hu
    · rw [hsame] at hu
      obtain ⟨h0, m, tail, hm, hl⟩ := h.committed u hu
      have hut : u ≠ t := fun e => hne (e ▸ hu)
      exact ⟨hcap.trans h0, m, _, hms.trans hm, (congrArg Fifo.line hline).trans (Fifo.Leads.remove hl hut)⟩
  · intro u hu
    obtain ⟨hu, hne⟩ := hmem.mp hu
    obtain ⟨h0, hnone, done, tail, hl⟩ := h.completed u hu
    refine ⟨hcap.trans h0, ?_, done, _, (congrArg Fifo.line hline).trans (Fifo.Leads.remove hl hne)⟩
    rcases hr with ⟨hn, -, -⟩ | ⟨hsame, -, -⟩
    · exact hn
    · exact hsame.trans hnone
  · intro q e u o pending hq
    obtain ⟨hq, hne⟩ := sending q e u o pending hq
    show u ∈ c.senders.tickets
    rw [htickets, mem_filter]
    exact ⟨h.waiting q e u o pending hq, by simpa using hne⟩
  · intro u hu
    have hu' : u ∈ c.senders.tickets := hu
    rw [htickets, mem_filter] at hu'
    obtain ⟨q, e, o, pending, hq⟩ := h.waited u hu'.1
    refine ⟨q, e, o, pending, ?_⟩
    rw [other q ?_]
    · exact hq
    · rintro rfl
      rw [hq] at hp
      cases hp
      exact absurd hu'.2 (by simp)
  · exact fun q q' u hq hq' => h.distinct q q' u (ticket q u hq) (ticket q' u hq')
  · intro q u hq
    show u < c.senders.next
    rw [hline]
    exact h.given q u (ticket q u hq)
  · intro q e u pending hq
    show u ∉ c.senders.tickets ∧ pending = none
    rw [htickets, mem_filter]
    by_cases hqp : q = p
    · subst hqp
      rw [self] at hq
      rcases hx with rfl | ⟨e', rfl⟩
      · cases hq
      · cases hq
        simp
    · rw [other q hqp] at hq
      obtain ⟨hnot, hpend⟩ := h.unwound q e u pending hq
      exact ⟨fun hu => hnot hu.1, hpend⟩
  · intro q e u o m hq
    obtain ⟨hq, -⟩ := sending q e u o (some m) hq
    obtain ⟨ho, hru, hd⟩ := h.holds q e u o m hq
    refine ⟨ho, ?_, fun hu => hd (hmem.mp hu).1⟩
    show c.rendezvous ≠ some u
    rcases hr with ⟨hn, -, -⟩ | ⟨hsame, -, -⟩
    · rw [hn]
      exact some_ne_none u |>.symm
    · rw [hsame]
      exact hru
  · intro q e u o hq
    obtain ⟨hq, hne⟩ := sending q e u o none hq
    rcases h.spent q e u o hq with ⟨hru, m, hm, ho⟩ | hd
    · rcases hr with ⟨-, hold | hold, -⟩ | ⟨hsame, -, hms⟩
      · rw [hold] at hru
        exact absurd (Option.some.inj hru).symm hne
      · rw [hold] at hru
        cases hru
      · exact .inl ⟨hsame.trans hru, m, hms.trans hm, ho⟩
    · exact .inr (hmem.mpr ⟨hd, hne⟩)
  · show c.receiverOpen = false → c.rendezvous = none → c.messages = []
    intro hclosed hnone
    rcases hr with ⟨-, -, hms⟩ | ⟨hsame, -, hms⟩
    · exact hms hclosed
    · rw [hms]
      exact h.drained (hopen ▸ hclosed) (hsame ▸ hnone)

/-- What the senders do not see may change. -/
theorem unseen {s' : Model n T} (hparty : s'.party = s.party)
    (hc : s'.channel = { s.channel with receivers := s'.channel.receivers }) : Inv s' := by
  cases s' with
  | mk c party endpoints fresh senders handed =>
    subst hparty
    rw [show c = { s.channel with receivers := c.receivers } from hc]
    exact ⟨h.ascending, h.issued, h.committed, h.completed, h.waiting, h.waited, h.distinct,
      h.given, h.unwound, h.holds, h.spent, h.drained⟩

/-- **A message is received.** -/
theorem taken {m : Parcel T} {ms : List (Parcel T)}
    (hm : s.channel.messages = m :: ms) : Inv { s with channel := s.channel.taken ms } := by
  cases hr : s.channel.rendezvous with
  | none =>
    have hc : s.channel.taken ms = { s.channel with messages := ms } := by
      simp [Contents.taken, hr]
    rw [hc]
    refine ⟨h.ascending, h.issued, ?_, h.completed, h.waiting, h.waited, h.distinct, h.given,
      h.unwound, h.holds, ?_, ?_⟩
    · intro t ht
      rw [show s.channel.rendezvous = some t from ht] at hr
      cases hr
    · intro p e t o hp
      rcases h.spent p e t o hp with ⟨ht, -⟩ | hd
      · rw [hr] at ht
        cases ht
      · exact .inr hd
    · intro hclosed _
      rw [h.drained hclosed hr] at hm
      cases hm
  | some t =>
    obtain ⟨h0, m', tail, hm', hl⟩ := h.committed t hr
    have hline : (s.channel.senders.completeHead t).line = (t, true) :: tail := by
      unfold Fifo.completeHead
      rw [hl]
      simp
    have htickets : (s.channel.senders.completeHead t).tickets = s.channel.senders.tickets := by
      unfold Fifo.tickets
      rw [hline, hl]
      rfl
    have hc : s.channel.taken ms = { s.channel with
      messages := ms, rendezvous := none, senders := s.channel.senders.completeHead t } := by
      unfold Contents.taken
      rw [hr]
    -- nobody else is completed while a message is committed
    have hnone : ∀ u, (u, true) ∉ s.channel.senders.line := by
      intro u hu
      have := (h.completed u hu).2.1
      rw [hr] at this
      cases this
    have hmem : ∀ u, (u, true) ∈ (s.channel.senders.completeHead t).line ↔ u = t := by
      intro u
      rw [hline]
      constructor
      · intro hu
        rcases mem_cons.mp hu with e | hu
        · exact (Prod.mk.inj e).1
        · exact absurd (by rw [hl]; exact .tail _ hu) (hnone u)
      · rintro rfl
        exact (.head _)
    rw [hc]
    refine ⟨?_, ?_, ?_, ?_, ?_, ?_, h.distinct, h.given, ?_, ?_, ?_, ?_⟩
    · rw [htickets]
      exact h.ascending
    · rw [htickets]
      exact h.issued
    · intro u hu
      cases hu
    · intro u hu
      rw [(hmem u).mp hu]
      exact ⟨h0, rfl, true, tail, hline⟩
    · intro p e u o pending hp
      rw [htickets]
      exact h.waiting p e u o pending hp
    · rw [htickets]
      exact h.waited
    · intro p e u pending hp
      rw [htickets]
      exact h.unwound p e u pending hp
    · intro p e u o m hp
      obtain ⟨hor, hru, -⟩ := h.holds p e u o m hp
      refine ⟨hor, some_ne_none u |>.symm, fun hu => ?_⟩
      rw [(hmem u).mp hu] at hru
      exact hru hr
    · intro p e u o hp
      rcases h.spent p e u o hp with ⟨hu, -⟩ | hu
      · rw [hr] at hu
        exact .inr ((hmem u).mpr (Option.some.inj hu).symm)
      · exact absurd hu (hnone u)
    · intro _ _
      rw [hm] at hm'
      exact (List.cons.inj hm').2

/-- **A rendezvous message is committed.** -/
theorem commit {e t o : Nat} {m : Parcel T} {tail : List (Nat × Bool)}
    (hp : s.party p = .sending e t o (some m)) (ho : s.channel.receiverOpen = true)
    (h0 : s.channel.capacity = 0) (hl : s.channel.senders.line = (t, false) :: tail)
    (hm : s.channel.messages = []) :
  Inv ({ s with channel := { s.channel with messages := [m], rendezvous := some t } }.goto p
    (.sending e t o none)) := by
  have hhold := h.holds p e t o m hp
  have hnone : ∀ u, s.channel.rendezvous ≠ some u := by
    intro u hu
    obtain ⟨-, m', -, hm', -⟩ := h.committed u hu
    rw [hm] at hm'
    cases hm'
  have hnot : ∀ u, (u, true) ∉ s.channel.senders.line := by
    intro u hu
    obtain ⟨-, -, hlead⟩ := h.completed u hu
    obtain rfl := hlead.eq ⟨false, tail, hl⟩
    exact hhold.2.2 hu
  have sending : ∀ q e' u o' pending,
    (Function.update s.party p (.sending e t o none)) q = .sending e' u o' pending →
    (q = p ∧ e' = e ∧ u = t ∧ o' = o ∧ pending = none) ∨ (q ≠ p ∧ s.party q = .sending e' u o' pending) := by
    intro q e' u o' pending hq
    by_cases hqp : q = p
    · subst hqp
      rw [update_self] at hq
      cases hq
      exact .inl ⟨rfl, rfl, rfl, rfl, rfl⟩
    · rw [update_of_ne hqp] at hq
      exact .inr ⟨hqp, hq⟩
  have ticket : ∀ q u, ((Function.update s.party p (.sending e t o none)) q).sendTicket = some u →
    (s.party q).sendTicket = some u := by
    intro q u hq
    by_cases hqp : q = p
    · subst hqp
      rw [update_self] at hq
      rw [hp]
      exact hq
    · rwa [update_of_ne hqp] at hq
  refine ⟨h.ascending, h.issued, ?_, ?_, ?_, ?_, ?_, ?_, ?_, ?_, ?_, ?_⟩
  · intro u hu
    obtain rfl : t = u := Option.some.inj hu
    exact ⟨h0, m, tail, rfl, hl⟩
  · exact fun u hu => absurd hu (hnot u)
  · intro q e' u o' pending hq
    rcases sending q e' u o' pending hq with ⟨-, -, rfl, -, -⟩ | ⟨-, hq⟩
    · exact h.waiting p e u o _ hp
    · exact h.waiting q e' u o' pending hq
  · intro u hu
    obtain ⟨q, e', o', pending, hq⟩ := h.waited u hu
    by_cases hqp : q = p
    · subst hqp
      rw [hp] at hq
      cases hq
      exact ⟨q, e, o, none, update_self _ _ _⟩
    · exact ⟨q, e', o', pending, (update_of_ne hqp _ _).trans hq⟩
  · exact fun q q' u hq hq' => h.distinct q q' u (ticket q u hq) (ticket q' u hq')
  · exact fun q u hq => h.given q u (ticket q u hq)
  · intro q e' u pending hq
    by_cases hqp : q = p
    · subst hqp
      cases (update_self q _ s.party).symm.trans hq
    · exact h.unwound q e' u pending ((update_of_ne hqp _ _).symm.trans hq)
  · intro q e' u o' m' hq
    rcases sending q e' u o' (some m') hq with ⟨-, -, -, -, hc⟩ | ⟨hqp, hq⟩
    · cases hc
    · obtain ⟨hor, -, hd⟩ := h.holds q e' u o' m' hq
      refine ⟨hor, fun hu => ?_, hd⟩
      obtain rfl : t = u := Option.some.inj hu
      exact hqp (h.distinct q p t (by rw [hq]; rfl) (by rw [hp]; rfl))
  · intro q e' u o' hq
    rcases sending q e' u o' none hq with ⟨-, -, rfl, rfl, -⟩ | ⟨-, hq⟩
    · exact .inl ⟨rfl, m, rfl, hhold.1⟩
    · rcases h.spent q e' u o' hq with ⟨hu, -⟩ | hu
      · exact absurd hu (hnone u)
      · exact absurd hu (hnot u)
  · intro hclosed
    rw [show s.channel.receiverOpen = false from hclosed] at ho
    cases ho

/-- **A send enters the line.** -/
theorem enter (hp : s.party p = .idle) (e : Nat) (value : T) : Inv ({ s with
  channel := { s.channel with senders := s.channel.senders.enqueue }
  handed := s.handed + 1 }.goto p
    (.sending e s.channel.senders.next s.handed (some ⟨s.handed, value⟩))) := by
  have htickets : s.channel.senders.enqueue.tickets = s.channel.senders.tickets ++ [s.channel.senders.next] := by
    simp [Fifo.tickets, Fifo.enqueue]
  have hmem : ∀ w, w ∈ s.channel.senders.enqueue.line ↔
    w ∈ s.channel.senders.line ∨ w = (s.channel.senders.next, false) := by
    intro w
    simp [Fifo.enqueue]
  have hleads : ∀ u, s.channel.senders.Leads u → s.channel.senders.enqueue.Leads u := by
    rintro u ⟨done, tail, hl⟩
    exact ⟨done, tail ++ [(s.channel.senders.next, false)], by simp [Fifo.enqueue, hl]⟩
  have hfresh : ∀ u, s.channel.rendezvous = some u → u ≠ s.channel.senders.next := by
    intro u hu
    obtain ⟨-, m, tail, -, hl⟩ := h.committed u hu
    exact Nat.ne_of_lt (h.issued u (Fifo.Leads.mem ⟨false, tail, hl⟩))
  have self : ∀ x : Party T, Function.update s.party p x p = x :=
    fun x => update_self _ _ _
  have other : ∀ (x : Party T) q, q ≠ p → Function.update s.party p x q = s.party q :=
    fun x q hq => update_of_ne hq _ _
  have sending : ∀ q e' u o' pending, Function.update s.party p
    (.sending e s.channel.senders.next s.handed (some ⟨s.handed, value⟩)) q = .sending e' u o' pending →
    (q = p ∧ u = s.channel.senders.next ∧ o' = s.handed ∧ pending = some ⟨s.handed, value⟩) ∨
      (q ≠ p ∧ s.party q = .sending e' u o' pending) := by
    intro q e' u o' pending hq
    by_cases hqp : q = p
    · subst hqp
      rw [self] at hq
      cases hq
      exact .inl ⟨rfl, rfl, rfl, rfl⟩
    · rw [other _ q hqp] at hq
      exact .inr ⟨hqp, hq⟩
  have ticket : ∀ q u, (Function.update s.party p
    (.sending e s.channel.senders.next s.handed (some ⟨s.handed, value⟩)) q).sendTicket = some u →
    (q = p ∧ u = s.channel.senders.next) ∨ (q ≠ p ∧ (s.party q).sendTicket = some u) := by
    intro q u hq
    by_cases hqp : q = p
    · subst hqp
      rw [self] at hq
      exact .inl ⟨rfl, (Option.some.inj hq).symm⟩
    · rw [other _ q hqp] at hq
      exact .inr ⟨hqp, hq⟩
  refine ⟨?_, ?_, ?_, ?_, ?_, ?_, ?_, ?_, ?_, ?_, ?_, h.drained⟩
  · show s.channel.senders.enqueue.tickets.Pairwise _
    rw [htickets, pairwise_append]
    refine ⟨h.ascending, pairwise_singleton _ _, fun a ha b hb => ?_⟩
    rw [mem_singleton.mp hb]
    exact h.issued a ha
  · show ∀ u ∈ s.channel.senders.enqueue.tickets, u < s.channel.senders.next + 1
    intro u hu
    rw [htickets] at hu
    rcases mem_append.mp hu with hu | hu
    · exact Nat.lt_succ_of_lt (h.issued u hu)
    · rw [mem_singleton.mp hu]
      exact Nat.lt_succ_self _
  · intro u hu
    obtain ⟨h0, m, tail, hm, hl⟩ := h.committed u hu
    exact ⟨h0, m, tail ++ [(s.channel.senders.next, false)], hm, by
      show s.channel.senders.line ++ _ = _
      rw [hl]
      rfl⟩
  · intro u hu
    rcases (hmem _).mp hu with hu | hu
    · obtain ⟨h0, hr, hlead⟩ := h.completed u hu
      exact ⟨h0, hr, hleads u hlead⟩
    · cases (Prod.mk.inj hu).2
  · intro q e' u o' pending hq
    show u ∈ s.channel.senders.enqueue.tickets
    rw [htickets, mem_append]
    rcases sending q e' u o' pending hq with ⟨-, rfl, -, -⟩ | ⟨-, hq⟩
    · exact .inr (mem_singleton_self _)
    · exact .inl (h.waiting q e' u o' pending hq)
  · intro u hu
    have hu : u ∈ s.channel.senders.enqueue.tickets := hu
    rw [htickets] at hu
    rcases mem_append.mp hu with hu | hu
    · obtain ⟨q, e', o', pending, hq⟩ := h.waited u hu
      have hqp : q ≠ p := by
        rintro rfl
        rw [hp] at hq
        cases hq
      exact ⟨q, e', o', pending, (other _ q hqp).trans hq⟩
    · rw [mem_singleton.mp hu]
      exact ⟨p, e, s.handed, _, self _⟩
  · intro q q' u hq hq'
    rcases ticket q u hq with ⟨hqp, hu⟩ | ⟨-, hold⟩
    · rcases ticket q' u hq' with ⟨hqp', -⟩ | ⟨-, hold'⟩
      · exact hqp.trans hqp'.symm
      · exact absurd (h.given q' u hold') (by omega)
    · rcases ticket q' u hq' with ⟨-, hu⟩ | ⟨-, hold'⟩
      · exact absurd (h.given q u hold) (by omega)
      · exact h.distinct q q' u hold hold'
  · intro q u hq
    rcases ticket q u hq with ⟨-, rfl⟩ | ⟨-, hq⟩
    · exact Nat.lt_succ_self _
    · exact Nat.lt_succ_of_lt (h.given q u hq)
  · intro q e' u pending hq
    show u ∉ s.channel.senders.enqueue.tickets ∧ pending = none
    rcases ticket q u (by rw [show Function.update s.party p _ q = _ from hq]; rfl) with
      ⟨rfl, -⟩ | ⟨hqp, hold⟩
    · cases (self _).symm.trans hq
    · have hq : s.party q = .unwinding e' u pending := (other _ q hqp).symm.trans hq
      obtain ⟨hnot, hpend⟩ := h.unwound q e' u pending hq
      have := h.given q u hold
      rw [htickets, mem_append, mem_singleton]
      refine ⟨?_, hpend⟩
      rintro (hu | hu)
      · exact hnot hu
      · omega
  · intro q e' u o' m hq
    rcases sending q e' u o' (some m) hq with ⟨-, rfl, rfl, hm⟩ | ⟨-, hq⟩
    · cases hm
      refine ⟨rfl, fun hu => hfresh _ hu rfl, fun hu => ?_⟩
      rcases (hmem _).mp hu with hu | hu
      · have := h.issued _ (Fifo.mem_tickets.mpr ⟨true, hu⟩)
        omega
      · cases (Prod.mk.inj hu).2
    · obtain ⟨hor, hr, hd⟩ := h.holds q e' u o' m hq
      refine ⟨hor, hr, fun hu => ?_⟩
      rcases (hmem _).mp hu with hu | hu
      · exact hd hu
      · cases (Prod.mk.inj hu).2
  · intro q e' u o' hq
    rcases sending q e' u o' none hq with ⟨-, -, -, hm⟩ | ⟨-, hq⟩
    · cases hm
    · rcases h.spent q e' u o' hq with hr | hd
      · exact .inl hr
      · exact .inr ((hmem _).mpr (.inl hd))

/-- A turn of `send` that panics finds its value taken after the receiver is gone. -/
theorem sends_panic {e t o : Nat} {pending pending' : Option (Parcel T)}
    {panic : Panic} (hp : s.party p = .sending e t o pending)
    (ht : s.channel.Sends t pending c pending' (.panicked panic)) :
    panic = .pendingTaken ∧ s.channel.receiverOpen = false ∧ (t, true) ∈ s.channel.senders.line ∧
      pending = none ∧ pending' = none ∧ c = { s.channel with senders := s.channel.senders.remove t } := by
  cases ht with
  | lacks ho hr hm =>
    obtain ⟨-, m, -, hm', -⟩ := h.committed t hr
    rw [hm] at hm'
    cases hm'
  | breaks ho hr hpend =>
    subst hpend
    rcases h.spent p e t o hp with ⟨hr', -⟩ | hd
    · exact absurd hr' hr
    · exact ⟨rfl, ho, hd, rfl, rfl, rfl⟩
  | spent done tail ho hl hd hc hpend =>
    subst hpend
    rcases h.spent p e t o hp with ⟨hr, m, hm, -⟩ | hdone
    · have h0 := (h.committed t hr).1
      rw [Contents.CanCommit, if_pos h0, hm] at hc
      cases hc.1
    · have h0 := (h.completed t hdone).1
      have := Fifo.line_unique h.ascending hdone
        (show (t, done) ∈ s.channel.senders.line by rw [hl]; exact (.head _))
      rw [hd h0] at this
      cases this

theorem withdraws_ok {t : Nat} {panic : Panic} : ¬ s.channel.Withdraws t c (.error panic) := by
  intro hw
  cases hw with
  | lacks hr hm =>
    obtain ⟨-, m, -, hm', -⟩ := h.committed t hr
    rw [hm] at hm'
    cases hm'

/-- After a committed message was taken back, none is left. -/
theorem takenBack_leaves {t : Nat} (hr : s.channel.rendezvous = some t)
    {m : Parcel T} {ms : List (Parcel T)} (hm : s.channel.messages = m :: ms) :
    ms = [] ∧ s.channel.senders.popHead = s.channel.senders.remove t := by
  obtain ⟨-, m', tail, hm', hl⟩ := h.committed t hr
  rw [hm] at hm'
  exact ⟨(List.cons.inj hm').2, Fifo.popHead_eq_remove h.ascending ⟨false, tail, hl⟩⟩

theorem sends {e t o : Nat} {pending pending' : Option (Parcel T)} {turn : SendTurn (Parcel T)}
    (hp : s.party p = .sending e t o pending) (ht : s.channel.Sends t pending c pending' turn) :
    Inv ({ s with channel := c }.goto p (turn.next e t o pending')) := by
  have hticket : (s.party p).sendTicket = some t := by rw [hp]; rfl
  cases turn with
  | panicked panic =>
    obtain ⟨-, -, hd, -, rfl, rfl⟩ := h.sends_panic hp ht
    have hr := (h.completed t hd).2.1
    exact h.leave hticket (.inr ⟨e, rfl⟩) rfl rfl rfl
      (.inr ⟨rfl, by rw [hr]; exact some_ne_none t |>.symm, rfl⟩)
  | closed m =>
    cases ht with
    | takesBack _ ms ho hr hm =>
      obtain ⟨hnil, hpop⟩ := h.takenBack_leaves hr hm
      exact h.leave hticket (.inl rfl) hpop rfl rfl (.inl ⟨rfl, .inl hr, fun _ => hnil⟩)
    | returns _ ho hr hpend =>
      exact h.leave hticket (.inl rfl) rfl rfl rfl (.inr ⟨rfl, hr, rfl⟩)
  | acknowledged =>
    cases ht with
    | acknowledges tail ho h0 hl =>
      have hd : (t, true) ∈ s.channel.senders.line := by rw [hl]; exact (.head _)
      have hr := (h.completed t hd).2.1
      exact h.leave hticket (.inl rfl) (Fifo.popHead_eq_remove h.ascending ⟨true, tail, hl⟩) rfl
        rfl (.inr ⟨rfl, by rw [hr]; exact some_ne_none t |>.symm, rfl⟩)
  | admitted m =>
    cases ht with
    | admits _ ho h0 hl hc hpend =>
      have hr : s.channel.rendezvous = none := by
        cases hr : s.channel.rendezvous with
        | none => rfl
        | some u => exact absurd (h.committed u hr).1 h0
      refine h.leave hticket (.inl rfl) (Fifo.popHead_eq_remove h.ascending hl) rfl rfl
        (.inl ⟨hr, .inr hr, fun hclosed => ?_⟩)
      rw [show s.channel.receiverOpen = false from hclosed] at ho
      cases ho
  | committed m =>
    cases ht with
    | commits _ tail ho h0 hl hc hpend =>
      subst hpend
      rw [Contents.CanCommit, if_pos h0] at hc
      rw [hc.1]
      exact h.commit hp ho h0 hl hc.1
  | waits =>
    cases ht with
    | waits ho hw hd =>
      have hself : ({ s with channel := s.channel } : Model n T).goto p (.sending e t o pending) = s := by
        rw [Sys.goto, ← hp, update_eq_self]
      rw [SendTurn.next, hself]
      exact h

theorem receives {t : Nat} {turn : ReceiveTurn (Parcel T)} (hp : s.party p = .receiving t)
    (ht : s.channel.Receives t s.allSendersClosed c turn) : Inv ({ s with channel := c }.goto p (turn.next t)) := by
  have hnone : (s.party p).sendTicket = none := by rw [hp]; rfl
  have hnext : (turn.next t).sendTicket = none := by cases turn <;> rfl
  refine bystander ?_ p _ hnone hnext
  cases ht with
  | takes m ms hl hm => exact unseen (h.taken hm) rfl rfl
  | closes hl hm hs => exact unseen h rfl rfl
  | waits hw => exact h

/-- **Every move keeps the invariant.** -/
theorem moves {op : Op n T} {out : Out T} {s' : Model n T} (hm : Moves s op out s') : Inv s' := by
  cases hm with
  | stays op => exact h
  | duplicates endpoint he => exact unseen h rfl rfl
  | dropsSender endpoint he hfree => exact unseen h rfl rfl
  | dropsReceiver c ms ho hfree hr =>
    cases hr with
    | keeps ticket hr =>
      refine ⟨h.ascending, h.issued, h.committed, h.completed, h.waiting, h.waited, h.distinct,
        h.given, h.unwound, h.holds, h.spent, fun _ hnone => ?_⟩
      rw [show s.channel.rendezvous = none from hnone] at hr
      cases hr
    | drains hr =>
      refine ⟨h.ascending, h.issued, ?_, h.completed, h.waiting, h.waited, h.distinct,
        h.given, h.unwound, h.holds, ?_, fun _ _ => rfl⟩
      · intro t ht
        rw [show s.channel.rendezvous = some t from ht] at hr
        cases hr
      · intro p e t o hp
        rcases h.spent p e t o hp with ⟨ht, -⟩ | hd
        · rw [hr] at ht
          cases ht
        · exact .inr hd
  | registersSend p endpoint value hp he => exact h.enter hp endpoint value
  | registersReceive p hp ho =>
    exact bystander (s := { s with channel := { s.channel with
      receivers := s.channel.receivers.enqueue } }) (unseen h rfl rfl) p _ (by rw [hp]; rfl) rfl
  | sends p endpoint ticket origin pending pending' c turn hp ht => exact h.sends hp ht
  | receives p ticket c turn hp ht => exact h.receives hp ht
  | cancelsSend p ticket pending c result hp hw =>
    have hticket : (s.party p).sendTicket = some ticket := by
      rcases hp with ⟨e, o, hp⟩ | ⟨e, hp⟩ <;> rw [hp] <;> rfl
    cases hw with
    | takesBack m ms hr hm =>
      obtain ⟨hnil, hpop⟩ := h.takenBack_leaves hr hm
      exact h.leave hticket (.inl rfl) hpop rfl rfl (.inl ⟨rfl, .inl hr, fun _ => hnil⟩)
    | lacks hr hm => exact absurd (.lacks hr hm) h.withdraws_ok
    | leaves hr => exact h.leave hticket (.inl rfl) rfl rfl rfl (.inr ⟨rfl, hr, rfl⟩)
  | cancelsReceive p ticket hp =>
    exact bystander (s := { s with channel := { s.channel with
      receivers := s.channel.receivers.remove ticket } }) (unseen h rfl rfl) p _
      (by rw [show _ = _ from hp]; rfl) rfl
  | triesSend endpoint value c result he ht =>
    cases ht with
    | closes ho => exact unseen h rfl rfl
    | fails ho hf => exact unseen h rfl rfl
    | stores ho hl hc =>
      have hr : ∀ t, s.channel.rendezvous ≠ some t := by
        intro t ht
        obtain ⟨-, m, tail, -, hl'⟩ := h.committed t ht
        rw [hl] at hl'
        cases hl'
      refine ⟨h.ascending, h.issued, fun t ht => absurd ht (hr t), h.completed, h.waiting,
        h.waited, h.distinct, h.given, h.unwound, h.holds, ?_, fun hclosed => ?_⟩
      · intro p e t o hp
        rcases h.spent p e t o hp with ⟨ht, -⟩ | hd
        · exact absurd ht (hr t)
        · exact .inr hd
      · rw [show s.channel.receiverOpen = false from hclosed] at ho
        cases ho
  | triesReceive c result ho ht =>
    cases ht with
    | takes m ms hl hm => exact h.taken hm
    | closes hb hs => exact h
    | fails hb hs => exact h

end

end Inv

end Bray.Channel
