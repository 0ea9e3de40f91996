/-
  File:      Bray/Sync/Mutex.lean
  Subject:   THE TICKET MUTEX (std/sync/mutex, tickets.bray). Two 16-bit counters in one word: the
    tickets handed out below, the ticket being served above.

  Any number of parties run `lock`, `try_lock` and the destruction of a guard; each load,
  compare-exchange and fetch-add of the word is one step. A target wait changes nothing and may
  end at any time, so it is the step from the load before it to the load after it.

  The run remembers more than the word does. Counted without wrap-around, the tickets handed out
  and the guards released (`admissions`, `releases`) differ by at most 2 ^ 16 - 1, so their
  remainders tell which of the outstanding tickets a party holds (`Inv`).
-/
import Bray.Lib.Packed
import Bray.Lib.Run
import Mathlib.Data.List.Infix

namespace Bray.Sync

open Bray.Lib List

abbrev Word := BitVec 32

namespace Tickets

def mask : Word := 65535#32
def shift : Nat := 16
def capacity : Word := mask + 1#32
def servingMask : Word := mask <<< shift

/-- The ticket a newcomer takes. -/
def next (observed : Word) : Word := observed &&& mask

/-- The ticket being served. -/
def serving (observed : Word) : Word := observed >>> shift

/-- The word with one more ticket handed out. -/
def desired (observed : Word) : Word :=
  (observed &&& servingMask) ||| ((next observed + 1#32) &&& mask)

/-- No ticket is left. -/
def full (observed : Word) : Bool := ((next observed + capacity - serving observed) &&& mask) == mask

theorem toNat_next (w : Word) : (next w).toNat = w.toNat % 65536 :=
  Packed.toNat_and_low w 16 mask (by decide)

theorem toNat_serving (w : Word) : (serving w).toNat = w.toNat / 65536 := Packed.toNat_shift w 16

theorem toNat_desired (w : Word) : (desired w).toNat = w.toNat / 65536 * 65536 + (w.toNat % 65536 + 1) % 65536 := by
  have hlow : ((next w + 1#32) &&& mask).toNat = (w.toNat % 65536 + 1) % 65536 := by
    rw [Packed.toNat_and_low _ 16 mask (by decide), BitVec.toNat_add, toNat_next]
    rw [Nat.mod_eq_of_lt (b := 2 ^ 32) (by simp; omega)]
    rfl
  have hhigh : (w &&& servingMask).toNat = w.toNat / 65536 * 65536 := by
    rw [Packed.toNat_and_field w 16 16 servingMask (by decide)]
    have : w.toNat / 2 ^ 16 < 2 ^ 16 := by
      omega
    rw [Nat.mod_eq_of_lt this]
    rfl
  rw [desired, Packed.toNat_or_low _ _ _ 16 hhigh, hhigh, hlow]
  rw [hlow]
  exact Nat.mod_lt _ (by decide)

theorem toNat_release (w : Word) :
    (w + capacity).toNat = (w.toNat / 65536 + 1) % 65536 * 65536 + w.toNat % 65536 := by
  have hc : capacity.toNat = 65536 := by decide
  rw [BitVec.toNat_add, hc]
  omega

theorem full_iff (w : Word) : full w = true ↔ (w.toNat % 65536 + 65536 - w.toNat / 65536) % 65536 = 65535 := by
  have hc : capacity.toNat = 65536 := by decide
  have hm : mask.toNat = 65535 := by decide
  have e : ((next w + capacity - serving w) &&& mask).toNat =
    (w.toNat % 65536 + 65536 - w.toNat / 65536) % 65536 := by
    rw [Packed.toNat_and_low _ 16 mask (by decide), BitVec.toNat_sub, BitVec.toNat_add, toNat_next,
      toNat_serving, hc]
    omega
  rw [full, beq_iff_eq, ← BitVec.toNat_inj, e, hm]

end Tickets

/-! ## 1. Steps -/

/-- Where a party is in `lock` or `try_lock`, with the locals it has there. -/
inductive MutexPc where
  | idle
  /-- `lock`, at the head of its first loop. -/
  | admission (observed : Word)
  /-- `lock`, waiting for a ticket to come free. -/
  | exhausted (observed : Word)
  /-- `lock` with a ticket, about to load. -/
  | ticketed (ticket : Word)
  /-- `lock` with a ticket that was not served, waiting. -/
  | waiting (ticket observed : Word)
  /-- `try_lock`, about to exchange. -/
  | attempt (observed : Word)
  | holding
  deriving DecidableEq

structure Mutex (n : Nat) where
  tickets : Word
  pc : Fin n → MutexPc

inductive MutexOp (n : Nat) where
  | lock (party : Fin n)
  | tryLock (party : Fin n)
  | advance (party : Fin n)
  | unlock (party : Fin n)

/-- The party of a step. -/
def MutexOp.party {n : Nat} : MutexOp n → Fin n
  | .lock party | .tryLock party | .advance party | .unlock party => party

/-- What a step tells: a ticket was handed out, the lock granted to its holder, both at once, the
  guard released. -/
inductive MutexOut where
  | silent
  | admitted
  | granted
  | acquired
  | refused
  | released
  deriving DecidableEq

namespace Mutex

variable {n : Nat}

def goto (s : Mutex n) (party : Fin n) (pc : MutexPc) : Mutex n :=
  { s with pc := Function.update s.pc party pc }

/-- **One step of the mutex.** A step that does not belong to the party's place does nothing. -/
def step (s : Mutex n) : MutexOp n → Except Empty (Mutex n × MutexOut)
  | .lock party => match s.pc party with
    | .idle => .ok (s.goto party (.admission s.tickets), .silent)
    | _ => .ok (s, .silent)
  | .tryLock party => match s.pc party with
    | .idle =>
      if Tickets.next s.tickets ≠ Tickets.serving s.tickets then .ok (s, .refused)
      else .ok (s.goto party (.attempt s.tickets), .silent)
    | _ => .ok (s, .silent)
  | .advance party => match s.pc party with
    | .admission observed =>
      if Tickets.full observed then .ok (s.goto party (.exhausted observed), .silent)
      else if s.tickets = observed then
        .ok ({ s with tickets := Tickets.desired observed }.goto party
          (.ticketed (Tickets.next observed)), .admitted)
      else .ok (s.goto party (.admission s.tickets), .silent)
    | .exhausted _ => .ok (s.goto party (.admission s.tickets), .silent)
    | .ticketed ticket =>
      if Tickets.serving s.tickets = ticket then .ok (s.goto party .holding, .granted)
      else .ok (s.goto party (.waiting ticket s.tickets), .silent)
    | .waiting ticket _ => .ok (s.goto party (.ticketed ticket), .silent)
    | .attempt observed =>
      if s.tickets = observed then
        .ok ({ s with tickets := Tickets.desired observed }.goto party .holding, .acquired)
      else .ok (s.goto party .idle, .refused)
    | _ => .ok (s, .silent)
  | .unlock party => match s.pc party with
    | .holding =>
      .ok ({ s with tickets := s.tickets + Tickets.capacity }.goto party .idle, .released)
    | _ => .ok (s, .silent)

def initial : Mutex n := ⟨0#32, fun _ => .idle⟩

/-- The party has a ticket and has not released the lock. -/
def ticketOf : MutexPc → Option Word
  | .ticketed ticket | .waiting ticket _ => some ticket
  | _ => none

/-- Everything a step can do. -/
inductive Moves (s : Mutex n) : MutexOp n → MutexOut → Mutex n → Prop where
  | stays (op : MutexOp n) (o : MutexOut) (ho : o = .silent ∨ o = .refused) : Moves s op o s
  /-- Between two places without a ticket. -/
  | wanders (op : MutexOp n) (o : MutexOut) (p : Fin n) (pc : MutexPc)
    (ho : o = .silent ∨ o = .refused) (hp : ticketOf (s.pc p) = none) (hh : s.pc p ≠ .holding)
    (hpc : ticketOf pc = none) (hh' : pc ≠ .holding)
    (hattempt : ∀ observed, pc = .attempt observed →
      Tickets.next observed = Tickets.serving observed) : Moves s op o (s.goto p pc)
  /-- Between two places with the same ticket. -/
  | rests (op : MutexOp n) (p : Fin n) (pc : MutexPc) (ticket : Word)
    (hp : ticketOf (s.pc p) = some ticket) (hpc : ticketOf pc = some ticket) :
    Moves s op .silent (s.goto p pc)
  | admits (p : Fin n) (hp : s.pc p = .admission s.tickets)
    (hroom : Tickets.full s.tickets = false) :
    Moves s (.advance p) .admitted ({ s with tickets := Tickets.desired s.tickets }.goto p
      (.ticketed (Tickets.next s.tickets)))
  | grants (p : Fin n) (hp : s.pc p = .ticketed (Tickets.serving s.tickets)) :
    Moves s (.advance p) .granted (s.goto p .holding)
  | acquires (p : Fin n) (hp : s.pc p = .attempt s.tickets) :
    Moves s (.advance p) .acquired
      ({ s with tickets := Tickets.desired s.tickets }.goto p .holding)
  | releases (p : Fin n) (hp : s.pc p = .holding) :
    Moves s (.unlock p) .released
      ({ s with tickets := s.tickets + Tickets.capacity }.goto p .idle)

/-- **A step does one of these.** -/
theorem moves_of_step {s s' : Mutex n} {op : MutexOp n} {o : MutexOut}
    (h : step s op = .ok (s', o)) : Moves s op o s' := by
  cases op with
  | lock p =>
    simp only [step] at h
    split at h
    · rename_i hp
      cases h
      exact .wanders _ _ p _ (.inl rfl) (by rw [hp]; rfl) (by rw [hp]; decide) rfl
        (by simp) (by simp)
    · cases h
      exact .stays _ _ (.inl rfl)
  | tryLock p =>
    simp only [step] at h
    split at h
    · rename_i hp
      split at h
      · cases h
        exact .stays _ _ (.inr rfl)
      · rename_i hfree
        cases h
        refine .wanders _ _ p _ (.inl rfl) (by rw [hp]; rfl) (by rw [hp]; decide) rfl
          (by simp) fun observed e => ?_
        cases e
        exact not_not.mp hfree
    · cases h
      exact .stays _ _ (.inl rfl)
  | advance p =>
    simp only [step] at h
    split at h
    · rename_i observed hp
      split at h
      · cases h
        exact .wanders _ _ p _ (.inl rfl) (by rw [hp]; rfl) (by rw [hp]; simp) rfl
          (by simp) (by simp)
      · rename_i hroom
        split at h
        · rename_i e
          subst e
          cases h
          exact .admits p hp (by simpa using hroom)
        · cases h
          exact .wanders _ _ p _ (.inl rfl) (by rw [hp]; rfl) (by rw [hp]; simp) rfl
            (by simp) (by simp)
    · rename_i observed hp
      cases h
      exact .wanders _ _ p _ (.inl rfl) (by rw [hp]; rfl) (by rw [hp]; simp) rfl
        (by simp) (by simp)
    · rename_i ticket hp
      split at h
      · rename_i e
        subst e
        cases h
        exact .grants p hp
      · cases h
        exact .rests _ p _ ticket (by rw [hp]; rfl) rfl
    · rename_i ticket observed hp
      cases h
      exact .rests _ p _ ticket (by rw [hp]; rfl) rfl
    · rename_i observed hp
      split at h
      · rename_i e
        subst e
        cases h
        exact .acquires p hp
      · cases h
        exact .wanders _ _ p _ (.inr rfl) (by rw [hp]; rfl) (by rw [hp]; simp) rfl
          (by simp) (by simp)
    · cases h
      exact .stays _ _ (.inl rfl)
  | unlock p =>
    simp only [step] at h
    split at h
    · rename_i hp
      obtain ⟨rfl, rfl⟩ := Prod.mk.inj (Except.ok.inj h)
      exact .releases p hp
    · cases h
      exact .stays _ _ (.inl rfl)

/-! ## 2. The run behind the word -/

/-- The parties of the steps of a trace whose output is among these, first step first. -/
def parties (outs : List MutexOut) (tr : List (MutexOp n × MutexOut)) : List (Fin n) :=
  (tr.filter fun x => outs.contains x.2).map fun x => x.1.party

/-- The tickets handed out. -/
abbrev admissions (tr : List (MutexOp n × MutexOut)) : List (Fin n) :=
  parties [.admitted, .acquired] tr

/-- The guards granted. -/
abbrev grants (tr : List (MutexOp n × MutexOut)) : List (Fin n) := parties [.granted, .acquired] tr

/-- The guards released. -/
abbrev releases (tr : List (MutexOp n × MutexOut)) : List (Fin n) := parties [.released] tr

theorem parties_snoc (outs : List MutexOut) (tr : List (MutexOp n × MutexOut)) (op : MutexOp n)
    (o : MutexOut) : parties outs (tr ++ [(op, o)]) =
      parties outs tr ++ if outs.contains o then [op.party] else [] := by
  unfold parties
  rw [filter_append, map_append]
  congr 1
  cases h : outs.contains o with
  | true => rw [filter_cons_of_pos (by exact h)]; rfl
  | false => rw [filter_cons_of_neg (by simpa using h)]; rfl

/-- The party holds the ticket with number `i`, the first of those that are outstanding being
  number `served`. -/
def Queued (served i : Nat) (pc : MutexPc) : Prop :=
  (∃ ticket, ticketOf pc = some ticket ∧ ticket.toNat = i % 65536) ∨ i = served ∧ pc = .holding

/-- **The invariant of a run**: the word holds the two counts modulo 2 ^ 16; the outstanding
  tickets, fewer than 2 ^ 16, are held by the parties they were handed to; the lock is granted
  in the order of the tickets, up to the one being served or short of it. -/
structure Inv (tr : List (MutexOp n × MutexOut)) (s : Mutex n) : Prop where
  served : (releases tr).length ≤ (admissions tr).length
  room : (admissions tr).length ≤ (releases tr).length + 65535
  word : s.tickets.toNat = (releases tr).length % 65536 * 65536 + (admissions tr).length % 65536
  queued : ∀ i p, (releases tr).length ≤ i → (admissions tr)[i]? = some p → Queued (releases tr).length i (s.pc p)
  member : ∀ p, (ticketOf (s.pc p)).isSome = true ∨ s.pc p = .holding →
    ∃ i, (releases tr).length ≤ i ∧ (admissions tr)[i]? = some p
  order : grants tr <+: admissions tr
  held : ∀ p, s.pc p = .holding → (grants tr).length = (releases tr).length + 1
  free : (∀ p, s.pc p ≠ .holding) → (grants tr).length = (releases tr).length
  fair : ∀ p observed, s.pc p = .attempt observed → Tickets.next observed = Tickets.serving observed

theorem inv_initial : Inv [] (initial : Mutex n) where
  served := le_rfl
  room := by simp [parties]
  word := by simp [parties, initial]
  queued := by
    intro i p _ h
    cases h
  member := by
    rintro p (h | h)
    · cases h
    · cases h
  order := nil_prefix
  held := by
    intro p h
    cases h
  free := fun _ => rfl
  fair := by
    intro p observed h
    cases h

@[simp] theorem goto_self (s : Mutex n) (p : Fin n) (pc : MutexPc) : (s.goto p pc).pc p = pc :=
  Function.update_self ..

theorem goto_of_ne (s : Mutex n) {p q : Fin n} (h : q ≠ p) (pc : MutexPc) :
  (s.goto p pc).pc q = s.pc q := Function.update_of_ne h ..

section Inv

variable {tr : List (MutexOp n × MutexOut)} {s : Mutex n}

variable {p : Fin n}

theorem Inv.lt_of_getElem {i : Nat} (h : (admissions tr)[i]? = some p) :
  i < (admissions tr).length := (List.getElem_of_getElem? h).1

section

variable (hi : Inv tr s)
include hi

/-- **The number of an outstanding ticket is known from its remainder.** -/
theorem Inv.number {i j : Nat} {q : Fin n} (hp : (admissions tr)[i]? = some p)
    (hq : (admissions tr)[j]? = some q) (hri : (releases tr).length ≤ i)
    (hrj : (releases tr).length ≤ j) (h : i % 65536 = j % 65536) : i = j := by
  have := Inv.lt_of_getElem hp
  have := Inv.lt_of_getElem hq
  have := hi.room
  omega

/-- The two halves of the word. -/
theorem Inv.low : s.tickets.toNat % 65536 = (admissions tr).length % 65536 := by
  have := hi.word
  omega

theorem Inv.high : s.tickets.toNat / 65536 = (releases tr).length % 65536 := by
  have := hi.word
  omega

/-- The holder of the lock has the ticket that is being served. -/
theorem Inv.holder (hp : s.pc p = .holding) : (admissions tr)[(releases tr).length]? = some p := by
  obtain ⟨i, hri, hip⟩ := hi.member p (.inr hp)
  rcases hi.queued i p hri hip with ⟨ticket, ht, _⟩ | ⟨rfl, _⟩
  · rw [hp] at ht
    cases ht
  · exact hip

/-- A party without a ticket has none of the outstanding ones. -/
theorem Inv.not_queued (hp : ticketOf (s.pc p) = none)
    (hh : s.pc p ≠ .holding) {i : Nat} {q : Fin n} (hri : (releases tr).length ≤ i)
    (hq : (admissions tr)[i]? = some q) : q ≠ p := by
  rintro rfl
  rcases hi.queued i q hri hq with ⟨ticket, ht, _⟩ | ⟨_, h⟩
  · rw [hp] at ht
    cases ht
  · exact hh h

/-- A step that hands out, grants and releases nothing. -/
theorem Inv.quiet (op : MutexOp n) {o : MutexOut} (ho : o = .silent ∨ o = .refused)
    {pc : MutexPc} (ht : ticketOf pc = ticketOf (s.pc p)) (hh : pc = .holding ↔ s.pc p = .holding)
    (hf : ∀ observed, pc = .attempt observed → Tickets.next observed = Tickets.serving observed) :
    Inv (tr ++ [(op, o)]) (s.goto p pc) := by
  have hsame : ∀ outs : List MutexOut, outs.contains o = false →
    parties outs (tr ++ [(op, o)]) = parties outs tr := by
    intro outs h
    rw [parties_snoc, h]
    simp
  have ha : admissions (tr ++ [(op, o)]) = admissions tr := hsame _ (by rcases ho with rfl | rfl <;> rfl)
  have hg : grants (tr ++ [(op, o)]) = grants tr := hsame _ (by rcases ho with rfl | rfl <;> rfl)
  have hr : releases (tr ++ [(op, o)]) = releases tr := hsame _ (by rcases ho with rfl | rfl <;> rfl)
  -- the party has the ticket it had, the others are where they were
  have hpc : ∀ q, ticketOf ((s.goto p pc).pc q) = ticketOf (s.pc q) ∧
    ((s.goto p pc).pc q = .holding ↔ s.pc q = .holding) := by
    intro q
    by_cases e : q = p
    · subst e
      rw [goto_self]
      exact ⟨ht, hh⟩
    · rw [goto_of_ne s e]
      exact ⟨rfl, Iff.rfl⟩
  constructor
  · rw [ha, hr]; exact hi.served
  · rw [ha, hr]; exact hi.room
  · rw [ha, hr]; exact hi.word
  · rw [ha, hr]
    intro i q hri hq
    rcases hi.queued i q hri hq with ⟨ticket, h, e⟩ | ⟨e, h⟩
    · exact .inl ⟨ticket, (hpc q).1.trans h, e⟩
    · exact .inr ⟨e, (hpc q).2.mpr h⟩
  · rw [ha, hr]
    intro q hq
    rw [(hpc q).1, (hpc q).2] at hq
    exact hi.member q hq
  · rw [ha, hg]; exact hi.order
  · rw [hg, hr]
    intro q hq
    exact hi.held q ((hpc q).2.mp hq)
  · rw [hg, hr]
    intro hnone
    exact hi.free fun q hq => hnone q ((hpc q).2.mpr hq)
  · intro q observed hq
    by_cases e : q = p
    · subst e
      rw [goto_self] at hq
      exact hf observed hq
    · rw [goto_of_ne s e] at hq
      exact hi.fair q observed hq

theorem Inv.admits (hp : s.pc p = .admission s.tickets) (hroom : Tickets.full s.tickets = false) :
  Inv (tr ++ [(.advance p, .admitted)]) ({ s with tickets := Tickets.desired s.tickets }.goto p
    (.ticketed (Tickets.next s.tickets))) := by
  have ha : admissions (tr ++ [(.advance p, .admitted)]) = admissions tr ++ [p] := parties_snoc ..
  have hg : grants (tr ++ [(.advance p, .admitted)]) = grants tr := by
    rw [grants, parties_snoc]
    exact append_nil _
  have hr : releases (tr ++ [(.advance p, .admitted)]) = releases tr := by
    rw [releases, parties_snoc]
    exact append_nil _
  have hserved := hi.served
  have hlimit := hi.room
  have hleft : (admissions tr).length ≤ (releases tr).length + 65534 := by
    have hn : ¬ (s.tickets.toNat % 65536 + 65536 - s.tickets.toNat / 65536) % 65536 = 65535 := by
      rw [← Tickets.full_iff, hroom]
      exact Bool.false_ne_true
    rw [hi.low, hi.high] at hn
    omega
  have hout : ∀ {i q}, (releases tr).length ≤ i → (admissions tr)[i]? = some q → q ≠ p :=
    hi.not_queued (by rw [hp]; rfl) (by rw [hp]; simp)
  constructor
  · rw [ha, hr, length_append]; omega
  · rw [ha, hr, length_append, length_singleton]; omega
  · rw [ha, hr, length_append, length_singleton]
    show (Tickets.desired s.tickets).toNat = _
    rw [Tickets.toNat_desired, hi.low, hi.high]
    omega
  · rw [ha, hr]
    intro i q hri hq
    rw [getElem?_append] at hq
    split at hq
    · rw [goto_of_ne _ (hout hri hq)]
      exact hi.queued i q hri hq
    · obtain ⟨hi', hq⟩ := List.getElem_of_getElem? hq
      obtain rfl : i = (admissions tr).length := by
        rw [length_singleton] at hi'
        omega
      obtain rfl : p = q := by simpa using hq
      refine .inl ⟨_, by rw [goto_self]; rfl, ?_⟩
      rw [Tickets.toNat_next]
      exact hi.low
  · rw [ha, hr]
    intro q hq
    by_cases e : q = p
    · subst e
      exact ⟨(admissions tr).length, hserved, by simp⟩
    · rw [goto_of_ne _ e] at hq
      obtain ⟨i, hri, hiq⟩ := hi.member q hq
      exact ⟨i, hri, by rw [getElem?_append_left (lt_of_getElem hiq)]; exact hiq⟩
  · rw [ha, hg]
    exact hi.order.trans (prefix_append ..)
  · rw [hg, hr]
    intro q hq
    by_cases e : q = p
    · subst e
      rw [goto_self] at hq
      cases hq
    · rw [goto_of_ne _ e] at hq
      exact hi.held q hq
  · rw [hg, hr]
    intro hnone
    refine hi.free fun q hq => ?_
    have e : q ≠ p := by
      rintro rfl
      rw [hp] at hq
      cases hq
    exact hnone q (by rw [goto_of_ne _ e]; exact hq)
  · intro q observed hq
    by_cases e : q = p
    · subst e
      rw [goto_self] at hq
      cases hq
    · rw [goto_of_ne _ e] at hq
      exact hi.fair q observed hq

/-- The ticket being served is the first of the outstanding ones. -/
theorem Inv.first (hp : s.pc p = .ticketed (Tickets.serving s.tickets)) :
    (admissions tr)[(releases tr).length]? = some p := by
  obtain ⟨i, hri, hip⟩ := hi.member p (.inl (by rw [hp]; rfl))
  have hlt := lt_of_getElem hip
  have hroom := hi.room
  rcases hi.queued i p hri hip with ⟨ticket, ht, e⟩ | ⟨rfl, _⟩
  · rw [hp] at ht
    obtain rfl := Option.some.inj ht
    rw [Tickets.toNat_serving, hi.high] at e
    obtain rfl : i = (releases tr).length := by omega
    exact hip
  · exact hip

end

theorem prefix_snoc {l l' : List (Fin n)} (h : l <+: l') (hp : l'[l.length]? = some p) : l ++ [p] <+: l' := by
  obtain ⟨rest, rfl⟩ := h
  rw [getElem?_append_right le_rfl, Nat.sub_self] at hp
  cases rest with
  | nil => cases hp
  | cons q rest =>
    obtain rfl : q = p := by simpa using hp
    exact ⟨rest, by simp⟩

theorem Inv.grants (hi : Inv tr s) (hp : s.pc p = .ticketed (Tickets.serving s.tickets)) :
    Inv (tr ++ [(.advance p, .granted)]) (s.goto p .holding) := by
  have ha : admissions (tr ++ [(.advance p, .granted)]) = admissions tr := by
    rw [admissions, parties_snoc]
    exact append_nil _
  have hg : Mutex.grants (tr ++ [(.advance p, .granted)]) = Mutex.grants tr ++ [p] :=
    parties_snoc ..
  have hr : releases (tr ++ [(.advance p, .granted)]) = releases tr := by
    rw [releases, parties_snoc]
    exact append_nil _
  have hfirst := hi.first hp
  -- the holder would have the same ticket
  have hnone : ∀ q, s.pc q ≠ .holding := by
    intro q hq
    obtain rfl : p = q := Option.some.inj (hfirst.symm.trans (hi.holder hq))
    rw [hp] at hq
    cases hq
  have hfree := hi.free hnone
  constructor
  · rw [ha, hr]; exact hi.served
  · rw [ha, hr]; exact hi.room
  · rw [ha, hr]; exact hi.word
  · rw [ha, hr]
    intro i q hri hq
    by_cases e : q = p
    · subst e
      rw [goto_self]
      refine .inr ⟨?_, rfl⟩
      rcases hi.queued i q hri hq with ⟨ticket, ht, e⟩ | ⟨e, _⟩
      · rw [hp] at ht
        obtain rfl := Option.some.inj ht
        rw [Tickets.toNat_serving, hi.high] at e
        exact (hi.number hfirst hq le_rfl hri e).symm
      · exact e
    · rw [goto_of_ne s e]
      exact hi.queued i q hri hq
  · rw [ha, hr]
    intro q hq
    by_cases e : q = p
    · subst e
      exact ⟨_, le_rfl, hfirst⟩
    · rw [goto_of_ne s e] at hq
      exact hi.member q hq
  · rw [ha, hg]
    exact prefix_snoc hi.order (by rw [hfree]; exact hfirst)
  · rw [hg, hr, length_append, hfree]
    intro _ _
    rfl
  · intro hno
    exact absurd (goto_self s p .holding) (hno p)
  · intro q observed hq
    by_cases e : q = p
    · subst e
      rw [goto_self] at hq
      cases hq
    · rw [goto_of_ne s e] at hq
      exact hi.fair q observed hq

theorem Inv.acquires (hi : Inv tr s) (hp : s.pc p = .attempt s.tickets) : Inv (tr ++ [(.advance p, .acquired)])
      ({ s with tickets := Tickets.desired s.tickets }.goto p .holding) := by
  have ha : admissions (tr ++ [(.advance p, .acquired)]) = admissions tr ++ [p] := parties_snoc ..
  have hg : Mutex.grants (tr ++ [(.advance p, .acquired)]) = Mutex.grants tr ++ [p] :=
    parties_snoc ..
  have hr : releases (tr ++ [(.advance p, .acquired)]) = releases tr := by
    rw [releases, parties_snoc]
    exact append_nil _
  -- no ticket is outstanding
  have hempty : (admissions tr).length = (releases tr).length := by
    have e := congrArg BitVec.toNat (hi.fair p _ hp)
    rw [Tickets.toNat_next, Tickets.toNat_serving, hi.low, hi.high] at e
    have := hi.served
    have := hi.room
    omega
  have hno : ∀ {i q}, (releases tr).length ≤ i → (admissions tr)[i]? = some q → False := by
    intro i q hri hq
    have := lt_of_getElem hq
    omega
  have hnone : ∀ q, s.pc q ≠ .holding := fun q hq => hno le_rfl (hi.holder hq)
  have hfree := hi.free hnone
  constructor
  · rw [ha, hr, length_append]; omega
  · rw [ha, hr, length_append, length_singleton]; omega
  · rw [ha, hr, length_append, length_singleton]
    show (Tickets.desired s.tickets).toNat = _
    rw [Tickets.toNat_desired, hi.low, hi.high]
    omega
  · rw [ha, hr]
    intro i q hri hq
    rw [getElem?_append_right (by omega)] at hq
    obtain ⟨hlt, hq⟩ := List.getElem_of_getElem? hq
    obtain rfl : p = q := by simpa using hq
    refine .inr ⟨?_, goto_self ..⟩
    rw [length_singleton] at hlt
    omega
  · rw [ha, hr]
    intro q hq
    by_cases e : q = p
    · subst e
      exact ⟨(admissions tr).length, by omega, by simp⟩
    · rw [goto_of_ne _ e] at hq
      obtain ⟨i, hri, hiq⟩ := hi.member q hq
      exact absurd hiq fun h => hno hri h
  · rw [ha, hg]
    obtain ⟨rest, e⟩ := hi.order
    have hrest : rest = [] := by
      have := congrArg List.length e
      rw [length_append] at this
      exact eq_nil_of_length_eq_zero (by omega)
    rw [← e, hrest, append_nil]
  · rw [hg, hr, length_append, hfree]
    intro _ _
    rfl
  · intro hn
    exact absurd (goto_self _ p .holding) (hn p)
  · intro q observed hq
    by_cases e : q = p
    · subst e
      rw [goto_self] at hq
      cases hq
    · rw [goto_of_ne _ e] at hq
      exact hi.fair q observed hq

theorem Inv.releases (hi : Inv tr s) (hp : s.pc p = .holding) : Inv (tr ++ [(.unlock p, .released)])
    ({ s with tickets := s.tickets + Tickets.capacity }.goto p .idle) := by
  have ha : admissions (tr ++ [(.unlock p, .released)]) = admissions tr := by
    rw [admissions, parties_snoc]
    exact append_nil _
  have hg : Mutex.grants (tr ++ [(.unlock p, .released)]) = Mutex.grants tr := by
    rw [Mutex.grants, parties_snoc]
    exact append_nil _
  have hr : (Mutex.releases (tr ++ [(.unlock p, .released)])).length = (Mutex.releases tr).length + 1 := by
    rw [Mutex.releases, parties_snoc]
    exact length_append
  have hfirst := hi.holder hp
  have hlt := lt_of_getElem hfirst
  have hroom := hi.room
  -- whoever has a later ticket is another party, and is not holding the lock
  have hlater : ∀ {i q}, (Mutex.releases tr).length + 1 ≤ i → (admissions tr)[i]? = some q →
    q ≠ p ∧ s.pc q ≠ .holding := by
    intro i q hri hq
    have hne : s.pc q ≠ .holding := by
      intro hh
      rcases hi.queued i q (by omega) hq with ⟨ticket, ht, _⟩ | ⟨e, _⟩
      · rw [hh] at ht
        cases ht
      · omega
    refine ⟨?_, hne⟩
    rintro rfl
    exact hne hp
  have hother : ∀ q, q ≠ p → s.pc q ≠ .holding := by
    intro q hne hq
    exact hne (Option.some.inj ((hi.holder hq).symm.trans hfirst))
  constructor
  · rw [ha, hr]; omega
  · rw [ha, hr]; omega
  · rw [ha, hr]
    show (s.tickets + Tickets.capacity).toNat = _
    rw [Tickets.toNat_release, hi.low, hi.high]
    omega
  · rw [ha, hr]
    intro i q hri hq
    obtain ⟨hne, hh⟩ := hlater hri hq
    rw [goto_of_ne _ hne]
    rcases hi.queued i q (by omega) hq with h | ⟨_, h⟩
    · exact .inl h
    · exact absurd h hh
  · rw [ha, hr]
    intro q hq
    by_cases e : q = p
    · subst e
      rw [goto_self] at hq
      rcases hq with hq | hq <;> cases hq
    · rw [goto_of_ne _ e] at hq
      obtain ⟨i, hri, hiq⟩ := hi.member q hq
      refine ⟨i, ?_, hiq⟩
      have hne : i ≠ (Mutex.releases tr).length := by
        rintro rfl
        exact e (Option.some.inj (hiq.symm.trans hfirst))
      omega
  · rw [ha, hg]; exact hi.order
  · intro q hq
    by_cases e : q = p
    · subst e
      rw [goto_self] at hq
      cases hq
    · rw [goto_of_ne _ e] at hq
      exact absurd hq (hother q e)
  · rw [hg, hr]
    intro _
    exact hi.held p hp
  · intro q observed hq
    by_cases e : q = p
    · subst e
      rw [goto_self] at hq
      cases hq
    · rw [goto_of_ne _ e] at hq
      exact hi.fair q observed hq

end Inv

variable {tr : List (MutexOp n × MutexOut)}

theorem inv_step {s s' : Mutex n} {op : MutexOp n}
    {o : MutexOut} (hi : Inv tr s) (h : step s op = .ok (s', o)) : Inv (tr ++ [(op, o)]) s' := by
  cases moves_of_step h with
  | stays op o ho =>
    have hsame := hi.quiet op ho (p := op.party) rfl Iff.rfl (hi.fair op.party)
    rwa [goto, Function.update_eq_self] at hsame
  | wanders op o p pc ho hp hh hpc hh' hattempt =>
    exact hi.quiet op ho (hpc.trans hp.symm) (iff_of_false hh' hh) hattempt
  | rests op p pc ticket hp hpc =>
    refine hi.quiet op (.inl rfl) (hpc.trans hp.symm) (iff_of_false ?_ ?_) ?_
    · rintro rfl
      cases hpc
    · intro e
      rw [e] at hp
      cases hp
    · rintro observed rfl
      cases hpc
  | admits p hp hroom => exact hi.admits hp hroom
  | grants p hp => exact hi.grants hp
  | acquires p hp => exact hi.acquires hp
  | releases p hp => exact hi.releases hp

/-- **The word of a mutex after any run.** -/
theorem inv_run {s : Mutex n} (h : Run step initial tr s) : Inv tr s :=
  h.invariant_trace (fun _ _ _ _ _ hi hs => inv_step hi hs) inv_initial

theorem Inv.exclusive {s : Mutex n} (hi : Inv tr s)
    {p q : Fin n} (hp : s.pc p = .holding) (hq : s.pc q = .holding) : p = q :=
  Option.some.inj ((hi.holder hp).symm.trans (hi.holder hq))

end Mutex

end Bray.Sync
