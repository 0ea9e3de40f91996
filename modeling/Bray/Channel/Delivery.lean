/-
  File:      Bray/Channel/Delivery.lean
  Subject:   EVERY MESSAGE ENDS IN ONE PLACE. A value handed to `send` or `try_send` is held by its
    send, stored, received, handed back or discarded, and never two of these.

  One step moves a value from one place to another (`Inv.balance`); a run adds the steps up
  (`balance_run`). A turn of `send` that finds its message received and the receiver gone panics:
  between the receipt and the turn that acknowledges it the receiver must not be dropped (`Prompt`).
-/
import Bray.Channel.Protocol
import Bray.Lib.Census
import Mathlib

namespace Bray.Channel

open Bray.Lib List Function

variable {n : Nat} {T : Type}

/-! ## 1. The places of a value -/

namespace Out

/-- What a step hands to a receiver. -/
def receipt : Out T → List (Parcel T)
  | .received _ message => [message]
  | .tryReceived message => [message]
  | _ => []

/-- What a step hands back to a sender. -/
def refund : Out T → List (Parcel T)
  | .sendClosed message => [message]
  | .tryFull message => [message]
  | .tryClosed message => [message]
  | _ => []

/-- What a step discards. -/
def waste : Out T → List (Parcel T)
  | .discarded messages => messages
  | _ => []

end Out

/-- How often the value with the number is in a list. -/
def countOf (origin : Nat) (ms : List (Parcel T)) : Nat := (ms.map Parcel.origin).count origin

@[simp] theorem countOf_nil (o : Nat) : countOf o ([] : List (Parcel T)) = 0 := rfl

theorem countOf_cons (o : Nat) (m : Parcel T) (ms : List (Parcel T)) :
    countOf o (m :: ms) = countOf o ms + if m.origin = o then 1 else 0 := by
  simp [countOf, count_cons]

theorem countOf_append (o : Nat) (ms ms' : List (Parcel T)) :
    countOf o (ms ++ ms') = countOf o ms + countOf o ms' := by
  simp [countOf, count_append]

theorem countOf_pos {o : Nat} {ms : List (Parcel T)} : 0 < countOf o ms ↔ ∃ m ∈ ms, m.origin = o := by
  rw [countOf, count_pos_iff, mem_map]

/-- What the steps of a trace put out, in order. -/
def collect (f : Out T → List (Parcel T)) (tr : List (Op n T × Out T)) : List (Parcel T) :=
  tr.flatMap fun step => f step.2

theorem collect_snoc (f : Out T → List (Parcel T)) (tr : List (Op n T × Out T)) (op : Op n T)
    (out : Out T) : collect f (tr ++ [(op, out)]) = collect f tr ++ f out := by
  simp [collect]

def received (tr : List (Op n T × Out T)) (o : Nat) : Nat := countOf o (collect Out.receipt tr)
def returned (tr : List (Op n T × Out T)) (o : Nat) : Nat := countOf o (collect Out.refund tr)
def discarded (tr : List (Op n T × Out T)) (o : Nat) : Nat := countOf o (collect Out.waste tr)

namespace Party

def Holds (o : Nat) (x : Party T) : Prop := ∃ m, x.pending = some m ∧ m.origin = o

instance (o : Nat) : DecidablePred (Holds o : Party T → Prop) := fun x =>
  match h : x.pending with
  | none => .isFalse fun ⟨_, hm, _⟩ => by rw [h] at hm; cases hm
  | some m =>
    if ho : m.origin = o then .isTrue ⟨m, h, ho⟩
    else .isFalse fun ⟨m', hm, ho'⟩ => by rw [h] at hm; cases hm; exact ho ho'

theorem holds_some {o : Nat} {x : Party T} {m : Parcel T} (h : x.pending = some m) : x.Holds o ↔ m.origin = o := by
  constructor
  · rintro ⟨m', hm, ho⟩
    rw [h] at hm
    cases hm
    exact ho
  · exact fun ho => ⟨m, h, ho⟩

theorem not_holds {o : Nat} {x : Party T} (h : x.pending = none) : ¬ x.Holds o := by
  rintro ⟨m, hm, -⟩
  rw [h] at hm
  cases hm

end Party

namespace Sys

/-- How many sends hold the value with the number. -/
def held {C : Type} (s : Sys n C T) (o : Nat) : Nat := census s.party (Party.Holds o)

def stored (s : Sys n (ChannelState (Parcel T)) T) (o : Nat) : Nat := countOf o s.channel.messages

theorem held_goto {C : Type} (s : Sys n C T) (p : Fin n) (x : Party T) (o : Nat) :
    (s.goto p x).held o + countOf o (s.party p).pending.toList = s.held o + countOf o x.pending.toList := by
  have unit : ∀ y : Party T, countOf o y.pending.toList = if y.Holds o then 1 else 0 := by
    intro y
    cases h : y.pending with
    | none => rw [if_neg (Party.not_holds h)]; rfl
    | some m =>
      rw [if_congr (Party.holds_some h) rfl rfl]
      simp [countOf_cons]
  rw [unit, unit]
  exact census_update s.party (Party.Holds o) p x

end Sys

/-! ## 2. One step -/

namespace Inv

variable {s : Model n T}

/-- A send whose message is committed or received holds nothing. -/
theorem pending_none (h : Inv s) {p : Fin n} {e t o : Nat} {pending : Option (Parcel T)}
    (hp : s.party p = .sending e t o pending)
    (ht : s.channel.rendezvous = some t ∨ (t, true) ∈ s.channel.senders.line) : pending = none := by
  cases pending with
  | none => rfl
  | some m =>
    obtain ⟨-, hr, hd⟩ := h.holds p e t o m hp
    rcases ht with ht | ht
    · exact absurd ht hr
    · exact absurd ht hd

/-- **One step moves a value from one place to another**, or hands a new one over. -/
theorem balance (h : Inv s) {op : Op n T} {out : Out T} {s' : Model n T} (hm : Moves s op out s')
    (o : Nat) : s'.held o + countOf o s'.channel.messages + countOf o out.receipt + countOf o out.refund +
       countOf o out.waste + (if o < s.handed then 1 else 0) =
      s.held o + countOf o s.channel.messages + if o < s'.handed then 1 else 0 := by
  -- a new value has the next number
  have fresh : ∀ value : T, countOf o [(⟨s.handed, value⟩ : Parcel T)] +
    (if o < s.handed then 1 else 0) = if o < s.handed + 1 then 1 else 0 := by
    intro value
    rw [countOf_cons, countOf_nil]
    split <;> split <;> split <;> simp only at * <;> omega
  cases hm with
  | stays op | duplicates endpoint he | dropsSender endpoint he hfree => rfl
  | dropsReceiver c ms ho hfree hr =>
    cases hr with
    | keeps ticket hr => rfl
    | drains hr =>
      show s.held o + countOf o [] + 0 + 0 + countOf o s.channel.messages + _ = _
      simp only [countOf_nil]
      omega
  | registersSend p endpoint value hp he =>
    have hg := Sys.held_goto { s with
      channel := { s.channel with senders := s.channel.senders.enqueue }
      handed := s.handed + 1 } p
      (.sending endpoint s.channel.senders.next s.handed (some ⟨s.handed, value⟩)) o
    have hf := fresh value
    simp only [hp] at hg
    change _ + countOf o [] = s.held o + countOf o [_] at hg
    change _ + countOf o s.channel.messages + 0 + 0 + 0 + _ =
      _ + _ + if o < s.handed + 1 then 1 else 0
    dsimp only
    simp only [countOf_nil] at hg
    omega
  | registersReceive p hp ho =>
    have hg := Sys.held_goto { s with channel := { s.channel with
      receivers := s.channel.receivers.enqueue } } p (.receiving s.channel.receivers.next) o
    simp only [hp] at hg
    change _ + countOf o [] = s.held o + countOf o [] at hg
    change _ + countOf o s.channel.messages + 0 + 0 + 0 + _ = _ + _ + if o < s.handed then 1 else 0
    dsimp only
    omega
  | sends p endpoint ticket origin pending pending' c turn hp ht =>
    have hg := Sys.held_goto { s with channel := c } p
      (turn.next endpoint ticket origin pending') o
    simp only [hp] at hg
    change _ + countOf o pending.toList = s.held o + _ at hg
    change _ + countOf o c.messages + _ + _ + _ + _ = _ + _ + if o < s.handed then 1 else 0
    cases turn with
    | panicked panic =>
      obtain ⟨-, -, -, rfl, rfl, rfl⟩ := h.sends_panic hp ht
      change _ + countOf o [] = s.held o + countOf o [] at hg
      change _ + countOf o s.channel.messages + 0 + 0 + 0 + _ = _
      omega
    | closed m =>
      change _ = s.held o + countOf o [] at hg
      change _ + countOf o c.messages + 0 + countOf o [m] + 0 + _ = _
      cases ht with
      | takesBack _ ms ho hr hm =>
        obtain rfl := h.pending_none hp (.inl hr)
        change _ + countOf o [] = _ at hg
        rw [hm]
        change _ + countOf o ms + 0 + countOf o [m] + 0 + _ = _
        simp only [countOf_nil, countOf_cons] at hg ⊢
        omega
      | returns _ ho hr hpend =>
        subst hpend
        change _ + countOf o [m] = _ at hg
        simp only [countOf_nil, countOf_cons] at hg ⊢
        omega
    | acknowledged =>
      cases ht with
      | acknowledges tail ho h0 hl =>
        obtain rfl := h.pending_none hp (.inr (by rw [hl]; exact (.head _)))
        change _ + countOf o [] = s.held o + countOf o [] at hg
        change _ + countOf o s.channel.messages + 0 + 0 + 0 + _ = _
        omega
    | admitted m =>
      cases ht with
      | admits _ ho h0 hl hc hpend =>
        subst hpend
        change _ + countOf o [m] = s.held o + countOf o [] at hg
        change _ + countOf o (s.channel.messages ++ [m]) + 0 + 0 + 0 + _ = _
        simp only [countOf_nil, countOf_append, countOf_cons] at hg ⊢
        omega
    | committed m =>
      cases ht with
      | commits _ tail ho h0 hl hc hpend =>
        subst hpend
        change _ + countOf o [m] = s.held o + countOf o [] at hg
        change _ + countOf o (s.channel.messages ++ [m]) + 0 + 0 + 0 + _ = _
        simp only [countOf_nil, countOf_append, countOf_cons] at hg ⊢
        omega
    | waits =>
      cases ht with
      | waits ho hw hd =>
        change _ = s.held o + countOf o pending.toList at hg
        change _ + countOf o s.channel.messages + 0 + 0 + 0 + _ = _
        omega
  | receives p ticket c turn hp ht =>
    have hg := Sys.held_goto { s with channel := c } p (turn.next ticket) o
    have hnext : (turn.next ticket).pending = none := by cases turn <;> rfl
    simp only [hp, hnext] at hg
    change _ + countOf o [] = s.held o + countOf o [] at hg
    change _ + countOf o c.messages + _ + _ + _ + _ = _ + _ + if o < s.handed then 1 else 0
    cases ht with
    | takes m ms hl hm =>
      rw [hm]
      change _ + countOf o ms + countOf o [m] + 0 + 0 + _ = _
      simp only [countOf_nil, countOf_cons] at hg ⊢
      omega
    | closes hl hm hs | waits hw =>
      change _ + countOf o s.channel.messages + 0 + 0 + 0 + _ = _
      omega
  | cancelsSend p ticket pending c result hp hw =>
    have hg := Sys.held_goto { s with channel := c } p .idle o
    have hpend : (s.party p).pending = pending := by
      rcases hp with ⟨e, o', hp⟩ | ⟨e, hp⟩ <;> rw [hp] <;> rfl
    simp only [hpend] at hg
    change _ = s.held o + countOf o [] at hg
    change _ + countOf o c.messages + _ + _ + _ + _ = _ + _ + if o < s.handed then 1 else 0
    simp only [countOf_nil] at hg
    cases hw with
    | takesBack m ms hr hm =>
      obtain rfl : pending = none := by
        rcases hp with ⟨e, o', hp⟩ | ⟨e, hp⟩
        · exact h.pending_none hp (.inl hr)
        · exact (h.unwound p e ticket pending hp).2
      change _ + countOf o [] = _ at hg
      rw [hm]
      change _ + countOf o ms + 0 + 0 + countOf o [m] + _ = _
      simp only [countOf_nil, countOf_cons] at hg ⊢
      omega
    | lacks hr hm => exact absurd (.lacks hr hm) h.withdraws_ok
    | leaves hr =>
      change _ + countOf o s.channel.messages + 0 + 0 + countOf o pending.toList + _ = _
      omega
  | cancelsReceive p ticket hp =>
    have hg := Sys.held_goto { s with channel := { s.channel with
      receivers := s.channel.receivers.remove ticket } } p .idle o
    simp only [hp] at hg
    change _ + countOf o [] = s.held o + countOf o [] at hg
    change _ + countOf o s.channel.messages + 0 + 0 + 0 + _ = _ + _ + if o < s.handed then 1 else 0
    dsimp only
    omega
  | triesSend endpoint value c result he ht =>
    have hf := fresh value
    change s.held o + countOf o c.messages + _ + _ + _ + _ = s.held o + _ + if o < s.handed + 1 then 1 else 0
    cases ht with
    | closes ho | fails ho hfull =>
      change _ + _ + 0 + countOf o [_] + 0 + _ = _
      omega
    | stores ho hl hc =>
      change _ + countOf o (s.channel.messages ++ [_]) + 0 + 0 + 0 + _ = _
      rw [countOf_append]
      omega
  | triesReceive c result ho ht =>
    change s.held o + countOf o c.messages + _ + _ + _ + _ = s.held o + _ + if o < s.handed then 1 else 0
    cases ht with
    | takes m ms hl hm =>
      rw [hm]
      change _ + countOf o ms + countOf o [m] + 0 + 0 + _ = _
      simp only [countOf_nil, countOf_cons]
      omega
    | closes hb hs | fails hb hs => rfl

/-- A send is marked completed by the step that hands its message to a receiver. -/
theorem completion (h : Inv s) {op : Op n T} {out : Out T} {s' : Model n T}
    (hm : Moves s op out s') {q : Fin n} {e t o : Nat} (hq : s'.party q = .sending e t o none)
    (hd : (t, true) ∈ s'.channel.senders.line) :
    (s.party q = .sending e t o none ∧ (t, true) ∈ s.channel.senders.line) ∨ 0 < countOf o out.receipt := by
  -- whoever is sending after a step that moves `p` elsewhere was sending before it
  have same : ∀ (p : Fin n) (x : Party T), (∀ e t o, x ≠ .sending e t o none) →
    Function.update s.party p x q = .sending e t o none → s.party q = .sending e t o none := by
    intro p x hx hu
    by_cases hqp : q = p
    · subst hqp
      rw [update_self] at hu
      exact absurd hu (hx e t o)
    · rwa [update_of_ne hqp] at hu
  have removed : ∀ u, (t, true) ∈ (s.channel.senders.remove u).line →
    (t, true) ∈ s.channel.senders.line := fun u hu => (mem_filter.mp hu).1
  have popped : (t, true) ∈ s.channel.senders.popHead.line → (t, true) ∈ s.channel.senders.line :=
    mem_of_mem_tail
  -- the first message is received
  have taken : ∀ m ms, s.channel.messages = m :: ms → s.party q = .sending e t o none →
    (t, true) ∈ (s.channel.taken ms).senders.line →
    (t, true) ∈ s.channel.senders.line ∨ 0 < countOf o [m] := by
    intro m ms hms hq hd
    rcases h.spent q e t o hq with ⟨-, m', hm', ho⟩ | hline
    · right
      rw [hms] at hm'
      cases hm'
      exact countOf_pos.mpr ⟨m, mem_singleton_self _, ho⟩
    · exact .inl hline
  cases hm with
  | stays op | duplicates endpoint he | dropsSender endpoint he hfree => exact .inl ⟨hq, hd⟩
  | dropsReceiver c ms ho hfree hr => cases hr <;> exact .inl ⟨hq, hd⟩
  | registersSend p endpoint value hp he =>
    refine .inl ⟨same p _ (by intro _ _ _ hx; cases hx) hq, ?_⟩
    rcases mem_append.mp hd with hd | hd
    · exact hd
    · cases mem_singleton.mp hd
  | registersReceive p hp ho | cancelsReceive p ticket hp =>
    exact .inl ⟨same p _ (by intro _ _ _ hx; cases hx) hq, hd⟩
  | sends p endpoint ticket origin pending pending' c turn hp ht =>
    cases ht with
    | takesBack m ms ho hr hm => exact .inl ⟨same p _ (by intro _ _ _ hx; cases hx) hq, popped hd⟩
    | lacks ho hr hm => exact .inl ⟨same p _ (by intro _ _ _ hx; cases hx) hq, hd⟩
    | returns m ho hr hpend =>
      exact .inl ⟨same p _ (by intro _ _ _ hx; cases hx) hq, removed _ hd⟩
    | breaks ho hr hpend => exact .inl ⟨same p _ (by intro _ _ _ hx; cases hx) hq, removed _ hd⟩
    | acknowledges tail ho h0 hl | admits m ho h0 hl hc hpend =>
      exact .inl ⟨same p _ (by intro _ _ _ hx; cases hx) hq, popped hd⟩
    | commits m tail ho h0 hl hc hpend =>
      subst hpend
      by_cases hqp : q = p
      · subst hqp
        cases (update_self q _ s.party).symm.trans hq
        exact absurd hd (h.holds q e t o m hp).2.2
      · exact .inl ⟨(update_of_ne hqp _ _).symm.trans hq, hd⟩
    | spent done tail ho hl hdone hc hpend =>
      exact .inl ⟨same p _ (by intro _ _ _ hx; cases hx) hq, hd⟩
    | waits ho hw hnot =>
      refine .inl ⟨?_, hd⟩
      by_cases hqp : q = p
      · subst hqp
        exact hp.trans ((update_self q _ s.party).symm.trans hq)
      · exact (update_of_ne hqp _ _).symm.trans hq
  | receives p ticket c turn hp ht =>
    have hold := same p _ (by intro _ _ _ hx; cases turn <;> cases hx) hq
    cases ht with
    | takes m ms hl hm =>
      rcases taken m ms hm hold hd with hd | hd
      · exact .inl ⟨hold, hd⟩
      · exact .inr hd
    | closes hl hm hs | waits hw => exact .inl ⟨hold, hd⟩
  | cancelsSend p ticket pending c result hp hw =>
    have hold := same p _ (by intro _ _ _ hx; cases hx) hq
    cases hw with
    | takesBack m ms hr hm => exact .inl ⟨hold, popped hd⟩
    | lacks hr hm => exact .inl ⟨hold, hd⟩
    | leaves hr => exact .inl ⟨hold, removed _ hd⟩
  | triesSend endpoint value c result he ht => cases ht <;> exact .inl ⟨hq, hd⟩
  | triesReceive c result ho ht =>
    cases ht with
    | takes m ms hl hm =>
      rcases taken m ms hm hq hd with hd | hd
      · exact .inl ⟨hq, hd⟩
      · exact .inr hd
    | closes hb hs | fails hb hs => exact .inl ⟨hq, hd⟩

end Inv

/-! ## 3. The values -/

/-- The value a step hands over. -/
def handedBy : Op n T × Out T → List T
  | (_, .silent) => []
  | (.send _ _ value, _) => [value]
  | (.trySend _ value, _) => [value]
  | _ => []

/-- The values handed over so far; the one numbered `o` is the `o`-th. -/
def handedValues (tr : List (Op n T × Out T)) : List T := tr.flatMap handedBy

theorem handedValues_snoc (tr : List (Op n T × Out T)) (op : Op n T) (out : Out T) :
    handedValues (tr ++ [(op, out)]) = handedValues tr ++ handedBy (op, out) := by
  simp [handedValues]

/-- A parcel is held or stored. -/
def Sys.Has (s : Model n T) (m : Parcel T) : Prop :=
  (∃ p, (s.party p).pending = some m) ∨ m ∈ s.channel.messages

/-- The parcels a step puts out. -/
def Out.parcels (out : Out T) : List (Parcel T) := out.receipt ++ out.refund ++ out.waste

/-- What a task takes with it, what is stored and what comes out was there before. -/
theorem Sys.Has.of_goto {s : Model n T} {p : Fin n} {x : Party T} {c : Contents (Parcel T)}
  {out : Out T} {m : Parcel T} (hm : ({ s with channel := c }.goto p x).Has m ∨ m ∈ out.parcels)
  (hx : ∀ m, x.pending = some m → s.Has m) (hc : ∀ m ∈ c.messages, s.Has m)
  (ho : ∀ m ∈ out.parcels, s.Has m) : s.Has m := by
  rcases hm with (⟨q, hq⟩ | hm) | hm
  · by_cases hqp : q = p
    · subst hqp
      exact hx m (by simpa [Sys.goto] using hq)
    · exact .inl ⟨q, by simpa [Sys.goto, hqp] using hq⟩
  · exact hc m hm
  · exact ho m hm

/-- **No step makes a parcel up**: what is there after it, or comes out of it, was there before or is
  the value handed over. -/
theorem Moves.parcels {s s' : Model n T} {op : Op n T} {out : Out T} (hm : Moves s op out s') :
    s'.handed = s.handed + (handedBy (op, out)).length ∧ ∀ m, s'.Has m ∨ m ∈ out.parcels →
      s.Has m ∨ ∃ value, handedBy (op, out) = [value] ∧ m = ⟨s.handed, value⟩ := by
  have none : ∀ m : Parcel T, Option.none = some m → s.Has m := fun m hm => by cases hm
  have nothing : ∀ m : Parcel T, m ∈ ([] : List (Parcel T)) → s.Has m := fun m hm => by cases hm
  have stored : ∀ m ∈ s.channel.messages, s.Has m := fun m hm => .inr hm
  have first : ∀ {m' ms}, s.channel.messages = m' :: ms → ∀ m ∈ [m'], s.Has m := by
    intro m' ms hms m hm
    obtain rfl := mem_singleton.mp hm
    exact .inr (by rw [hms]; exact (.head _))
  have rest : ∀ {m' ms}, s.channel.messages = m' :: ms → ∀ m ∈ ms, s.Has m :=
    fun hms m hm => .inr (by rw [hms]; exact .tail _ hm)
  cases hm with
  | stays op => exact ⟨by cases op <;> rfl, fun m hm => .inl (hm.elim id (nothing m))⟩
  | duplicates endpoint he | dropsSender endpoint he hfree => exact ⟨rfl, fun m hm => .inl (hm.elim id (nothing m))⟩
  | dropsReceiver c ms ho hfree hr =>
    refine ⟨rfl, fun m hm => .inl ?_⟩
    cases hr with
    | keeps ticket hr => exact hm.elim id (nothing m)
    | drains hr =>
      rcases hm with (hm | hm) | hm
      · exact .inl hm
      · exact nothing m hm
      · exact stored m hm
  | registersSend p endpoint value hp he =>
    refine ⟨rfl, fun m hm => ?_⟩
    rcases hm with (⟨q, hq⟩ | hm) | hm
    · by_cases hqp : q = p
      · subst hqp
        have hpend := (congrArg Party.pending (update_self q _ s.party)).symm.trans hq
        exact .inr ⟨value, rfl, (Option.some.inj hpend).symm⟩
      · exact .inl (.inl ⟨q, by simpa [Sys.goto, hqp] using hq⟩)
    · exact .inl (stored m hm)
    · exact .inl (nothing m hm)
  | registersReceive p hp ho | cancelsReceive p ticket hp =>
    exact ⟨rfl, fun m hm => .inl (Sys.Has.of_goto hm none stored nothing)⟩
  | sends p endpoint ticket origin pending pending' c turn hp ht =>
    have holds : ∀ m, pending = some m → s.Has m := fun m hm => .inl ⟨p, by rw [hp]; exact hm⟩
    have held : ∀ {m'}, pending = some m' → ∀ m ∈ [m'], s.Has m := by
      intro m' hpend m hm
      exact holds m (hpend.trans (by rw [mem_singleton.mp hm]))
    refine ⟨by cases turn <;> rfl, fun m hm => .inl ?_⟩
    cases ht with
    | takesBack m' ms ho hr hms => exact Sys.Has.of_goto hm none (rest hms) (first hms)
    | lacks ho hr hms | waits ho hw hd => exact Sys.Has.of_goto hm holds stored nothing
    | returns m' ho hr hpend => exact Sys.Has.of_goto hm none stored (held hpend)
    | breaks ho hr hpend | acknowledges tail ho h0 hl | spent done tail ho hl hd hc hpend =>
      exact Sys.Has.of_goto hm none stored nothing
    | commits m' tail ho h0 hl hc hpend | admits m' ho h0 hl hc hpend =>
      exact Sys.Has.of_goto hm none
        (fun m hm => (mem_append.mp hm).elim (stored m) (held hpend m)) nothing
  | receives p ticket c turn hp ht =>
    refine ⟨by cases turn <;> rfl, fun m hm => .inl ?_⟩
    cases ht with
    | takes m' ms hl hms => exact Sys.Has.of_goto hm none (rest hms) (first hms)
    | closes hl hms hs | waits hw => exact Sys.Has.of_goto hm none stored nothing
  | cancelsSend p ticket pending c result hp hw =>
    have holds : ∀ m ∈ pending.toList, s.Has m := by
      intro m hm
      refine .inl ⟨p, ?_⟩
      rcases hp with ⟨e, o, hp⟩ | ⟨e, hp⟩ <;> rw [hp] <;> exact Option.mem_toList.mp hm
    refine ⟨by cases result <;> rfl, fun m hm => .inl ?_⟩
    cases hw with
    | takesBack m' ms hr hms =>
      exact Sys.Has.of_goto hm none (rest hms)
        (fun m hm => (mem_append.mp (show m ∈ [m'] ++ pending.toList from hm)).elim
          (first hms m) (holds m))
    | lacks hr hms => exact Sys.Has.of_goto hm none stored nothing
    | leaves hr => exact Sys.Has.of_goto hm none stored holds
  | triesSend endpoint value c result he ht =>
    refine ⟨by cases result <;> rfl, fun m hm => ?_⟩
    cases ht with
    | closes ho | fails ho hf => exact hm.imp id fun hm => ⟨value, rfl, mem_singleton.mp hm⟩
    | stores ho hl hc =>
      rcases hm with (hm | hm) | hm
      · exact .inl (.inl hm)
      · exact (mem_append.mp hm).imp (stored m) fun hm =>
          ⟨value, rfl, mem_singleton.mp hm⟩
      · exact .inl (nothing m hm)
  | triesReceive c result ho ht =>
    refine ⟨by cases result <;> rfl, fun m hm => .inl ?_⟩
    cases ht with
    | takes m' ms hl hms =>
      rcases hm with (hm | hm) | hm
      · exact .inl hm
      · exact rest hms m hm
      · exact first hms m hm
    | closes hb hs | fails hb hs => exact hm.elim id (nothing m)

/-! ## 4. Every run -/

/-- **What a run has done with the values**, as far as the state and the trace tell. -/
structure Ledger (tr : List (Op n T × Out T)) (s : Model n T) : Prop where
  inv : Inv s
  balance : ∀ o, s.held o + countOf o s.channel.messages + received tr o + returned tr o +
    discarded tr o = if o < s.handed then 1 else 0
  /-- A completed send had its message received. -/
  receipts : ∀ p e t o, s.party p = .sending e t o none → (t, true) ∈ s.channel.senders.line → 0 < received tr o
  count : (handedValues tr).length = s.handed
  genuine : ∀ m, s.Has m ∨ m ∈ collect Out.parcels tr → (handedValues tr)[m.origin]? = some m.value

namespace Ledger

theorem initial (capacity : Nat) :
  Ledger [] (Sys.view (Sys.initial capacity : Sys n (ChannelState (Parcel T)) T)) where
  inv := Inv.initial capacity
  balance := by
    intro o
    have : Sys.held (Sys.view (Sys.initial capacity : Sys n (ChannelState (Parcel T)) T)) o = 0 :=
      census_eq_zero fun _ => Party.not_holds rfl
    rw [this]
    rfl
  receipts := fun _ _ _ _ h => by cases h
  count := rfl
  genuine := by
    rintro m ((⟨_, hm⟩ | hm) | hm)
    · cases hm
    · cases hm
    · cases hm

theorem moves {tr : List (Op n T × Out T)} {s s' : Model n T} {op : Op n T} {out : Out T}
  (h : Ledger tr s) (hm : Moves s op out s') : Ledger (tr ++ [(op, out)]) s' where
  inv := h.inv.moves hm
  balance := by
    intro o
    have hstep := h.inv.balance hm o
    have hold := h.balance o
    unfold received returned discarded at hold ⊢
    rw [collect_snoc, collect_snoc, collect_snoc, countOf_append, countOf_append, countOf_append]
    omega
  receipts := by
    intro p e t o hp hd
    unfold received
    rw [collect_snoc, countOf_append]
    rcases h.inv.completion hm hp hd with ⟨hp, hd⟩ | hr
    · have := h.receipts p e t o hp hd
      unfold received at this
      omega
    · omega
  count := by
    rw [handedValues_snoc, length_append, h.count, hm.parcels.1]
  genuine := by
    intro m hm'
    rw [handedValues_snoc]
    have old : ∀ m, s.Has m ∨ m ∈ collect Out.parcels tr →
      (handedValues tr ++ handedBy (op, out))[m.origin]? = some m.value := by
      intro m hm
      have := h.genuine m hm
      rw [List.getElem?_append_left (List.getElem_of_getElem? this).1]
      exact this
    have new : s'.Has m ∨ m ∈ out.parcels → (handedValues tr ++ handedBy (op, out))[m.origin]? = some m.value := by
      intro hnew
      rcases hm.parcels.2 m hnew with hhas | ⟨value, hv, rfl⟩
      · exact old m (.inl hhas)
      · rw [hv, ← h.count, getElem?_concat_length]
    rw [collect_snoc, mem_append] at hm'
    rcases hm' with hm' | hm' | hm'
    · exact new (.inl hm')
    · exact old m (.inr hm')
    · exact new (.inr hm')

end Ledger

/-! What a step that puts something out was. -/

namespace Inv

variable {s s' : Model n T} {op : Op n T} {out : Out T}

/-- Only a turn of `send` panics, after the receiver is gone and with the message received. -/
theorem panics (h : Inv s) (hm : Moves s op out s') {panic : Panic} (ho : out = .panicked panic) :
    ∃ p e t o pending, op = .poll p ∧ s.party p = .sending e t o pending ∧
      s.channel.receiverOpen = false ∧ (t, true) ∈ s.channel.senders.line := by
  cases hm with
  | sends p e t o pending pending' c turn hp ht =>
    cases turn with
    | panicked panic =>
      obtain ⟨-, hclosed, hd, -⟩ := h.sends_panic hp ht
      exact ⟨p, e, t, o, pending, rfl, hp, hclosed, hd⟩
    | closed m | acknowledged | admitted m | committed m | waits => cases ho
  | receives p t c turn hp ht => cases ht <;> cases ho
  | cancelsSend p t pending c result hp hw =>
    cases result with
    | error panic => exact absurd hw h.withdraws_ok
    | ok m => cases ho
  | triesSend e value c result he ht | triesReceive c result hopen ht => cases ht <;> cases ho
  | stays op | duplicates e he | dropsSender e he hfree | dropsReceiver c ms hopen hfree hr
  | registersSend p e value hp he | registersReceive p hp hopen | cancelsReceive p t hp => cases ho

/-- Who reports `Ok` on a rendezvous channel, is marked completed. -/
theorem acknowledges (hm : Moves s op out s') {o : Nat} (ho : out = .acknowledged o) :
    ∃ p e t pending, op = .poll p ∧ s.party p = .sending e t o pending ∧ (t, true) ∈ s.channel.senders.line := by
  cases hm with
  | sends p e t o' pending pending' c turn hp ht =>
    cases turn with
    | acknowledged =>
      cases ho
      cases ht with
      | acknowledges tail hopen h0 hl =>
        exact ⟨p, e, t, pending, rfl, hp, by rw [hl]; exact (.head _)⟩
    | panicked panic | closed m | admitted m | committed m | waits => cases ho
  | receives p t c turn hp ht => cases ht <;> cases ho
  | cancelsSend p t pending c result hp hw => cases result <;> cases ho
  | triesSend e value c result he ht | triesReceive c result hopen ht => cases ht <;> cases ho
  | stays op | duplicates e he | dropsSender e he hfree | dropsReceiver c ms hopen hfree hr
  | registersSend p e value hp he | registersReceive p hp hopen | cancelsReceive p t hp => cases ho

theorem admits (hm : Moves s op out s') {t : Nat} {m : Parcel T} (ho : out = .admitted t m) :
    s.channel.capacity ≠ 0 := by
  cases hm with
  | sends p e t' o' pending pending' c turn hp ht =>
    cases turn with
    | admitted m =>
      cases ht with
      | admits _ hopen h0 hl hc hpend => exact h0
    | acknowledged | panicked panic | closed m | committed m | waits => cases ho
  | receives p t c turn hp ht => cases ht <;> cases ho
  | cancelsSend p t pending c result hp hw => cases result <;> cases ho
  | triesSend e value c result he ht | triesReceive c result hopen ht => cases ht <;> cases ho
  | stays op | duplicates e he | dropsSender e he hfree | dropsReceiver c ms hopen hfree hr
  | registersSend p e value hp he | registersReceive p hp hopen | cancelsReceive p t hp => cases ho

/-- A send gets its own value back, held or committed. -/
theorem refunds (h : Inv s) (hm : Moves s op out s') {m : Parcel T} (ho : out = .sendClosed m) :
    s.Has m ∧ ∃ p e t pending, op = .poll p ∧ s.party p = .sending e t m.origin pending := by
  cases hm with
  | sends p e t o pending pending' c turn hp ht =>
    cases turn with
    | closed m' =>
      cases ho
      cases ht with
      | takesBack _ ms hopen hr hms =>
        have hstored : m ∈ s.channel.messages := by rw [hms]; exact (.head _)
        obtain rfl := h.pending_none hp (.inl hr)
        rcases h.spent p e t o hp with ⟨-, m', hm', horigin⟩ | hd
        · rw [hm'] at hstored
          obtain rfl := mem_singleton.mp hstored
          exact ⟨.inr (by rw [hm']; exact hstored), p, e, t, none, rfl, by rw [horigin, hp]⟩
        · have := (h.completed t hd).2.1
          rw [hr] at this
          cases this
      | returns _ hopen hr hpend =>
        subst hpend
        refine ⟨.inl ⟨p, by rw [hp]; rfl⟩, p, e, t, some m, rfl, ?_⟩
        rw [(h.holds p e t o m hp).1, hp]
    | admitted m | acknowledged | panicked panic | committed m | waits => cases ho
  | receives p t c turn hp ht => cases ht <;> cases ho
  | cancelsSend p t pending c result hp hw => cases result <;> cases ho
  | triesSend e value c result he ht | triesReceive c result hopen ht => cases ht <;> cases ho
  | stays op | duplicates e he | dropsSender e he hfree | dropsReceiver c ms hopen hfree hr
  | registersSend p e value hp he | registersReceive p hp hopen | cancelsReceive p t hp => cases ho

/-- `try_send` gives back the value it was called with. -/
theorem tryRefunds (hm : Moves s op out s') {m : Parcel T}
    (ho : out = .tryFull m ∨ out = .tryClosed m) : ∃ e, op = .trySend e m.value := by
  cases hm with
  | triesSend e value c result he ht =>
    cases ht <;> rcases ho with ho | ho <;> cases ho <;> exact ⟨e, rfl⟩
  | sends p e t o pending pending' c turn hp ht => cases turn <;> rcases ho with ho | ho <;> cases ho
  | receives p t c turn hp ht | triesReceive c result hopen ht =>
    cases ht <;> rcases ho with ho | ho <;> cases ho
  | cancelsSend p t pending c result hp hw => cases result <;> rcases ho with ho | ho <;> cases ho
  | stays op | duplicates e he | dropsSender e he hfree | dropsReceiver c ms hopen hfree hr
  | registersSend p e value hp he | registersReceive p hp hopen | cancelsReceive p t hp =>
    rcases ho with ho | ho <;> cases ho

/-- A value is discarded with the receiver, or by the cancellation of its own send. -/
theorem discards (h : Inv s) (hm : Moves s op out s') {ms : List (Parcel T)} (ho : out = .discarded ms) :
    ms = [] ∨ op = .dropReceiver ∨ ∃ p e t o pending, op = .cancel p ∧
      s.party p = .sending e t o pending ∧ ∀ m ∈ ms, m.origin = o := by
  cases hm with
  | dropsReceiver c ms hopen hfree hr => exact .inr (.inl rfl)
  | cancelsSend p t pending c result hp hw =>
    cases hw with
    | takesBack m ms' hr hms =>
      cases ho
      rcases hp with ⟨e, o, hp⟩ | ⟨e, hp⟩
      · refine .inr (.inr ⟨p, e, t, o, pending, rfl, hp, ?_⟩)
        obtain rfl := h.pending_none hp (.inl hr)
        rcases h.spent p e t o hp with ⟨-, m', hm', horigin⟩ | hd
        · rw [hms] at hm'
          cases hm'
          intro x hx
          rw [mem_singleton.mp hx]
          exact horigin
        · have := (h.completed t hd).2.1
          rw [hr] at this
          cases this
      · obtain ⟨-, m', tail, -, hl⟩ := h.committed t hr
        exact absurd (Fifo.Leads.mem ⟨false, tail, hl⟩) (h.unwound p e t pending hp).1
    | lacks hr hms => cases ho
    | leaves hr =>
      cases ho
      rcases hp with ⟨e, o, hp⟩ | ⟨e, hp⟩
      · refine .inr (.inr ⟨p, e, t, o, pending, rfl, hp, fun m hm => ?_⟩)
        have hpend : pending = some m := Option.mem_toList.mp hm
        subst hpend
        exact (h.holds p e t o m hp).1
      · obtain rfl := (h.unwound p e t pending hp).2
        exact .inl rfl
  | sends p e t o pending pending' c turn hp ht => cases turn <;> cases ho
  | receives p t c turn hp ht | triesSend e value c result he ht | triesReceive c result hopen ht =>
    cases ht <;> cases ho
  | stays op | duplicates e he | dropsSender e he hfree | registersSend p e value hp he
  | registersReceive p hp hopen | cancelsReceive p t hp => cases ho

end Inv

namespace Sys

variable {s : Sys n (ChannelState (Parcel T)) T}

/-- **Every run keeps the books.** -/
theorem ledger_run {usizeMax capacity : Nat} {tr : List (Op n T × Out T)}
    (h : Run (step usizeMax) (initial capacity) tr s) : s.channel.Sound ∧ Ledger tr s.view := by
  refine Run.invariant_trace (P := fun tr s => s.channel.Sound ∧ Ledger tr s.view) ?_ h
    ⟨ChannelState.sound_bounded capacity, Ledger.initial capacity⟩
  intro tr s op s' out hP hs
  obtain ⟨hsound, hm⟩ := step_moves hP.1 hs
  exact ⟨hsound, hP.2.moves hm⟩

/-- A send whose message was received takes its next turn while the receiver lives. -/
def Prompt (s : Sys n (ChannelState (Parcel T)) T) : Op n T → Prop
  | .poll p => ∀ e t o pending, s.party p = .sending e t o pending →
    s.channel.receiverOpen = false → s.channel.sendWaiters.isHeadCompleted t = false
  | _ => True

/-- A send whose message was received is marked so, and holds nothing. -/
theorem completed_of_received {tr : List (Op n T × Out T)} {s : Model n T} (h : Ledger tr s)
    {p : Fin n} {e t o : Nat} {pending : Option (Parcel T)}
    (hp : s.party p = .sending e t o pending) (hr : 0 < received tr o) :
    pending = none ∧ (t, true) ∈ s.channel.senders.line := by
  have hb := h.balance o
  have hone : (if o < s.handed then 1 else 0) ≤ 1 := by split <;> omega
  cases pending with
  | some m =>
    have : 0 < s.held o := census_pos (i := p) ⟨m, by rw [hp]; rfl, (h.inv.holds p e t o m hp).1⟩
    omega
  | none =>
    rcases h.inv.spent p e t o hp with ⟨-, m, hm, ho⟩ | hd
    · have : 0 < countOf o s.channel.messages := by
        rw [hm]
        exact countOf_pos.mpr ⟨m, mem_singleton_self _, ho⟩
      omega
    · exact ⟨rfl, hd⟩

theorem headCompleted_iff (hs : s.channel.Sound) (h : Inv s.view) (t : Nat) :
    s.channel.sendWaiters.isHeadCompleted t = true ↔ (t, true) ∈ s.view.channel.senders.line := by
  rw [WaitQueue.isHeadCompleted_view hs.senders]
  constructor
  · rintro ⟨tail, hl⟩
    show (t, true) ∈ s.channel.sendWaiters.view.line
    rw [hl]
    exact (.head _)
  · intro hd
    obtain ⟨-, -, done, tail, hl⟩ := h.completed t hd
    obtain rfl := Fifo.line_unique h.ascending hd
      (show (t, done) ∈ s.view.channel.senders.line by rw [hl]; exact (.head _))
    exact ⟨tail, hl⟩

theorem step_poll_sending {usizeMax : Nat} {p : Fin n}
    {e t o : Nat} {pending : Option (Parcel T)} (hp : s.party p = .sending e t o pending) :
    s.step usizeMax (.poll p) =
    .ok ({ s with channel := (s.channel.sendTurn t pending).1 }.goto p
      ((s.channel.sendTurn t pending).2.2.next e t o (s.channel.sendTurn t pending).2.1),
      (s.channel.sendTurn t pending).2.2.out t o) := by
  simp only [step, hp]

/-- A completed send that takes a turn while the receiver lives reports `Ok`. -/
theorem turn_of_completed {c c' : Contents (Parcel T)} {t o : Nat} {pending pending' : Option (Parcel T)}
    {turn : SendTurn (Parcel T)} (hopen : c.receiverOpen = true) (h0 : c.capacity = 0)
    (hd : (t, true) ∈ c.senders.line) (ha : c.senders.tickets.Pairwise (· < ·))
    (hlead : c.senders.Leads t) (ht : c.Sends t pending c' pending' turn) : turn.out t o = .acknowledged o := by
  obtain ⟨done, tail, hl⟩ := hlead
  obtain rfl := Fifo.line_unique ha hd
    (show (t, done) ∈ c.senders.line by rw [hl]; exact (.head _))
  cases ht with
  | acknowledges tail ho h0' hl' => rfl
  | takesBack m ms ho hr hm | lacks ho hr hm | returns m ho hr hpend | breaks ho hr hpend => rw [hopen] at ho; cases ho
  | commits m tail' ho h0' hl' hc hpend => rw [hl] at hl'; cases hl'
  | admits m ho hne hl' hc hpend => exact absurd h0 hne
  | spent done tail' ho hl' hfalse hc hpend =>
    rw [hl] at hl'
    cases hl'
    cases hfalse h0
  | waits ho hw hnot => exact absurd hl (hnot tail h0)

/-- **Delivery agreement.** In every run in which no send takes a turn between the receipt of its
  message and the end of the receiver: every value handed over is in exactly one place, and once
  nobody is at work and the receiver is gone it has come out exactly once; what comes out is what
  was handed over. And of every next step: it does not panic; a rendezvous send reports `Ok` only
  after its message was received, and a send whose message was received reports `Ok`; a value is
  handed back to the send or `try_send` it came from, and discarded when the receiver is dropped or
  its own send cancelled. -/
theorem delivery_agreement {usizeMax capacity : Nat} {tr : List (Op n T × Out T)}
    {s : Sys n (ChannelState (Parcel T)) T} (h : RunWhere Prompt (step usizeMax) (initial capacity) tr s) :
    (∀ o < s.handed, s.held o + s.stored o + received tr o + returned tr o + discarded tr o = 1) ∧
    (s.channel.receiverOpen = false → (∀ p, s.party p = .idle) → ∀ o < s.handed,
      received tr o + returned tr o + discarded tr o = 1) ∧
    (∀ m ∈ collect Out.parcels tr, (handedValues tr)[m.origin]? = some m.value) ∧
    ∀ op s' out, Prompt s op → s.step usizeMax op = .ok (s', out) → (∀ panic, out ≠ .panicked panic) ∧
      (∀ o, out = .acknowledged o → 0 < received tr o) ∧ (s.channel.capacity = 0 → ∀ t m, out ≠ .admitted t m) ∧
      (∀ p e t o pending, op = .poll p → s.party p = .sending e t o pending → 0 < received tr o →
        out = .acknowledged o) ∧ (∀ m, out = .sendClosed m → received tr m.origin = 0 ∧
        ∃ p e t pending, op = .poll p ∧ s.party p = .sending e t m.origin pending) ∧
      (∀ m, out = .tryFull m ∨ out = .tryClosed m → ∃ e, op = .trySend e m.value) ∧
      (∀ ms, out = .discarded ms → ms = [] ∨ op = .dropReceiver ∨ ∃ p e t o pending,
        op = .cancel p ∧ s.party p = .sending e t o pending ∧ ∀ m ∈ ms, m.origin = o) := by
  obtain ⟨hsound, hl⟩ := ledger_run h.run
  have places : ∀ o < s.handed, s.held o + s.stored o + received tr o + returned tr o + discarded tr o = 1 := by
    intro o ho
    exact (hl.balance o).trans (if_pos ho)
  refine ⟨places, ?_, fun m hm => hl.genuine m (.inr hm), ?_⟩
  · intro hclosed hidle o ho
    -- no send is in progress, so nothing is held and nothing committed
    have hheld : s.held o = 0 := census_eq_zero fun p => Party.not_holds (by rw [hidle p]; rfl)
    have hnone : s.channel.rendezvousTicket = none := by
      cases hr : s.channel.rendezvousTicket with
      | none => rfl
      | some t =>
        obtain ⟨-, m, tail, -, hline⟩ := hl.inv.committed t hr
        obtain ⟨p, e, o', pending, hp⟩ := hl.inv.waited t (Fifo.Leads.mem ⟨false, tail, hline⟩)
        cases (hidle p).symm.trans hp
    have hstored : s.stored o = 0 := by
      unfold stored
      rw [show s.channel.messages = [] from hl.inv.drained hclosed hnone]
      rfl
    have := places o ho
    omega
  · intro op s' out hprompt hs
    obtain ⟨-, hm⟩ := step_moves hsound hs
    refine ⟨?_, ?_, ?_, ?_, ?_, fun m ho => Inv.tryRefunds hm ho, fun ms ho => hl.inv.discards hm ho⟩
    · rintro panic rfl
      obtain ⟨p, e, t, o, pending, rfl, hp, hclosed, hd⟩ := hl.inv.panics hm rfl
      have := hprompt e t o pending hp hclosed
      rw [(headCompleted_iff hsound hl.inv t).mpr hd] at this
      cases this
    · rintro o rfl
      obtain ⟨p, e, t, pending, rfl, hp, hd⟩ := Inv.acknowledges hm rfl
      obtain rfl := hl.inv.pending_none hp (.inr hd)
      exact hl.receipts p e t o hp hd
    · rintro h0 t m rfl
      exact Inv.admits hm rfl h0
    · rintro p e t o pending rfl hp hr
      obtain ⟨-, hd⟩ := completed_of_received hl hp hr
      obtain ⟨h0, -, hlead⟩ := hl.inv.completed t hd
      have hopen : s.channel.receiverOpen = true := by
        cases hc : s.channel.receiverOpen with
        | true => rfl
        | false =>
          have := hprompt e t o pending hp hc
          rw [(headCompleted_iff hsound hl.inv t).mpr hd] at this
          cases this
      rw [step_poll_sending hp] at hs
      cases hs
      exact turn_of_completed hopen h0 hd hl.inv.ascending hlead
        (ChannelState.sendTurn_spec hsound (Eq.refl (s.channel.sendTurn t pending))).2
    · rintro m rfl
      obtain ⟨hhas, hsend⟩ := hl.inv.refunds hm rfl
      have hone : (if m.origin < s.view.handed then 1 else 0) ≤ 1 := by split <;> omega
      have hb := hl.balance m.origin
      refine ⟨?_, hsend⟩
      rcases hhas with ⟨p, hp⟩ | hstored
      · have : 0 < s.view.held m.origin := census_pos (i := p) ⟨m, hp, rfl⟩
        omega
      · have : 0 < countOf m.origin s.view.channel.messages := countOf_pos.mpr ⟨m, hstored, rfl⟩
        omega

/-- A rendezvous of two parties, from the registration of the receiver to the acknowledgement. -/
def rendezvousTrace : List (Op 2 Nat × Out Nat) :=
  [(.receive 0, .receiveRegistered 0), (.send 1 0 7, .sendRegistered 0),
    (.poll 1, .committed 0 ⟨0, 7⟩), (.poll 0, .received 0 ⟨0, 7⟩), (.poll 1, .acknowledged 0)]

theorem delivery_agreement_rendezvous : ∃ s : Sys 2 (ChannelState (Parcel Nat)) Nat,
    RunWhere Prompt (step (2 ^ 64 - 1)) (initial 0) rendezvousTrace s ∧
    ∀ o < s.handed, s.held o + s.stored o + received rendezvousTrace o +
      returned rendezvousTrace o + discarded rendezvousTrace o = 1 := by
  have h : ∃ s : Sys 2 (ChannelState (Parcel Nat)) Nat,
    RunWhere Prompt (step (2 ^ 64 - 1)) (initial 0) rendezvousTrace s := by
    refine ⟨_, .cons trivial rfl (.cons trivial rfl (.cons ?_ rfl (.cons ?_ rfl (.cons ?_ rfl
      (.nil _)))))⟩
    all_goals
      intro e t o pending hp hclosed
      cases hclosed
  obtain ⟨s, hs⟩ := h
  exact ⟨s, hs, (delivery_agreement hs).1⟩

/-- A receiver dropped after the receipt and before the acknowledgement: the send panics. -/
theorem receiver_dropped_before_acknowledgement :
    ∃ s : Sys 2 (ChannelState (Parcel Nat)) Nat, Run (step (2 ^ 64 - 1)) (initial 0)
      [(.receive 0, .receiveRegistered 0), (.send 1 0 7, .sendRegistered 0),
        (.poll 1, .committed 0 ⟨0, 7⟩), (.poll 0, .received 0 ⟨0, 7⟩), (.dropReceiver, .discarded []),
        (.poll 1, .panicked .pendingTaken)] s :=
  ⟨_, .of_execute [.receive 0, .send 1 0 7, .poll 1, .poll 0, .dropReceiver, .poll 1] rfl⟩

end Sys

end Bray.Channel
