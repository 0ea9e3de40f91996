/-
  File:      Bray/Sync/RwLock.lean
  Subject:   THE READER-WRITER LOCK (std/sync/rw_lock). One word: the readers in its low half, the
    writers that wait above them, and the bit of the writer that holds the lock.

  Any number of parties run `read`, `write`, `try_read`, `try_write` and the destruction of a
  guard, one atomic access of the word at a time. The word is the census of the parties
  (`Inv.word`), within bounds that keep every addition and subtraction inside its field.
-/
import Bray.Lib.Census
import Bray.Sync.Mutex

namespace Bray.Sync

open Bray.Lib

namespace RwState

def writeLocked : Word := 2147483648#32
def writerPendingOne : Word := 65536#32
def writerPendingMask : Word := 2147418112#32
def readerCountMask : Word := 65535#32
def readerBlockedMask : Word := 4294901760#32

variable (w : Word)

theorem toNat_readers : (w &&& readerCountMask).toNat = w.toNat % 65536 :=
  Packed.toNat_and_low w 16 readerCountMask (by decide)

theorem toNat_pending : (w &&& writerPendingMask).toNat = w.toNat / 65536 % 32768 * 65536 :=
  Packed.toNat_and_field w 15 16 writerPendingMask (by decide)

theorem toNat_locked : (w &&& writeLocked).toNat = w.toNat / 2147483648 % 2 * 2147483648 :=
  Packed.toNat_and_field w 1 31 writeLocked (by decide)

theorem toNat_blocked : (w &&& readerBlockedMask).toNat = w.toNat / 65536 % 65536 * 65536 :=
  Packed.toNat_and_field w 16 16 readerBlockedMask (by decide)

theorem free_iff : w &&& (writeLocked ||| readerCountMask) = 0#32 ↔
    w.toNat / 2147483648 = 0 ∧ w.toNat % 65536 = 0 := by
  have e : w &&& (writeLocked ||| readerCountMask) = (w &&& writeLocked) ||| (w &&& readerCountMask) := by
    rw [BitVec.and_or_distrib_left]
  rw [e, Packed.or_eq_zero, ← BitVec.toNat_inj, ← BitVec.toNat_inj, toNat_locked, toNat_readers]
  simp only [BitVec.toNat_ofNat, Nat.zero_mod]
  omega

/-- The word with the writer's bit set in place of one pending writer. -/
theorem toNat_grant (h : w.toNat / 2147483648 = 0) (hp : 65536 ≤ w.toNat) :
    ((w - writerPendingOne) ||| writeLocked).toNat = w.toNat - 65536 + 2147483648 := by
  have hsub : (w - writerPendingOne).toNat = w.toNat - 65536 := by
    have hone : writerPendingOne.toNat = 65536 := by decide
    rw [BitVec.toNat_sub, hone]
    omega
  have hlock : writeLocked.toNat = 1 * 2 ^ 31 := by decide
  rw [BitVec.or_comm, Packed.toNat_or_low _ _ 1 31 hlock, hsub, hlock]
  · omega
  · omega

theorem toNat_unlock : (w &&& ~~~writeLocked).toNat = w.toNat % 2147483648 :=
  Packed.toNat_and_low w 31 (~~~writeLocked) (by decide)

end RwState

/-! ## 1. Steps -/

/-- Where a party is, with the word it has loaded there. -/
inductive RwPc where
  | idle
  | readLoad
  | readExchange (state : Word)
  | readWait (state : Word)
  | tryReadExchange (state : Word)
  | reading
  | registerLoad
  | registerExchange (state : Word)
  | writeLoad
  | writeExchange (state : Word)
  | writeWait (state : Word)
  | writing

/-- What a party counts as. -/
inductive RwKind where
  | none
  | reader
  | pending
  | writer
  deriving DecidableEq

def RwPc.kind : RwPc → RwKind
  | .reading => .reader
  | .writeLoad | .writeExchange _ | .writeWait _ => .pending
  | .writing => .writer
  | .idle | .readLoad | .readExchange _ | .readWait _ | .tryReadExchange _ | .registerLoad
  | .registerExchange _ => .none

structure RwLock (n : Nat) where
  state : Word
  pc : Fin n → RwPc

inductive RwOp (n : Nat) where
  | read (party : Fin n)
  | write (party : Fin n)
  | tryRead (party : Fin n)
  | tryWrite (party : Fin n)
  | advance (party : Fin n)
  | release (party : Fin n)

inductive RwOut where
  | silent
  | granted
  | refused
  | released
  | panicked (message : String)

namespace RwLock

open RwState

variable {n : Nat}

def goto (s : RwLock n) (party : Fin n) (pc : RwPc) : RwLock n :=
  { s with pc := Function.update s.pc party pc }

/-- The next step of a party in the middle of an operation. -/
def proceed (s : RwLock n) (party : Fin n) : RwPc → Except Empty (RwLock n × RwOut)
  | .readLoad =>
    if s.state &&& readerBlockedMask = 0#32 then
      if s.state &&& readerCountMask = readerCountMask then
        .ok (s.goto party .idle, .panicked "reader-writer lock reader count exceeded the target range")
      else .ok (s.goto party (.readExchange s.state), .silent)
    else .ok (s.goto party (.readWait s.state), .silent)
  | .readExchange state =>
    if s.state = state then .ok ({ s with state := state + 1#32 }.goto party .reading, .granted)
    else .ok (s.goto party (.readWait state), .silent)
  | .readWait _ => .ok (s.goto party .readLoad, .silent)
  | .tryReadExchange state =>
    if s.state = state then .ok ({ s with state := state + 1#32 }.goto party .reading, .granted)
    else .ok (s.goto party .idle, .refused)
  | .registerLoad =>
    if s.state &&& writerPendingMask = writerPendingMask then
      .ok (s.goto party .idle, .panicked "reader-writer lock pending writer count exceeded the target range")
    else .ok (s.goto party (.registerExchange s.state), .silent)
  | .registerExchange state =>
    if s.state = state then
      .ok ({ s with state := state + writerPendingOne }.goto party .writeLoad, .silent)
    else .ok (s.goto party .registerLoad, .silent)
  | .writeLoad =>
    if s.state &&& (writeLocked ||| readerCountMask) = 0#32 then
      .ok (s.goto party (.writeExchange s.state), .silent)
    else .ok (s.goto party (.writeWait s.state), .silent)
  | .writeExchange state =>
    if s.state = state then
      .ok ({ s with state := (state - writerPendingOne) ||| writeLocked }.goto party .writing, .granted)
    else .ok (s.goto party (.writeWait state), .silent)
  | .writeWait _ => .ok (s.goto party .writeLoad, .silent)
  | .idle | .reading | .writing => .ok (s, .silent)

/-- **One step of the lock.** A step that does not belong to the party's place does nothing. -/
def step (s : RwLock n) : RwOp n → Except Empty (RwLock n × RwOut)
  | .read party => match s.pc party with
    | .idle => .ok (s.goto party .readLoad, .silent)
    | _ => .ok (s, .silent)
  | .write party => match s.pc party with
    | .idle => .ok (s.goto party .registerLoad, .silent)
    | _ => .ok (s, .silent)
  | .tryRead party => match s.pc party with
    | .idle =>
      if s.state &&& readerBlockedMask ≠ 0#32 ∨ s.state &&& readerCountMask = readerCountMask then .ok (s, .refused)
      else .ok (s.goto party (.tryReadExchange s.state), .silent)
    | _ => .ok (s, .silent)
  | .tryWrite party => match s.pc party with
    | .idle =>
      if s.state = 0#32 then .ok ({ s with state := writeLocked }.goto party .writing, .granted)
      else .ok (s, .refused)
    | _ => .ok (s, .silent)
  | .advance party => s.proceed party (s.pc party)
  | .release party => match s.pc party with
    | .reading => .ok ({ s with state := s.state - 1#32 }.goto party .idle, .released)
    | .writing => .ok ({ s with state := s.state &&& ~~~writeLocked }.goto party .idle, .released)
    | _ => .ok (s, .silent)

def initial : RwLock n := ⟨0#32, fun _ => .idle⟩

/-- What a loaded word was tested for. -/
def Tested : RwPc → Prop
  | .readExchange state | .tryReadExchange state =>
    state &&& readerBlockedMask = 0#32 ∧ state &&& readerCountMask ≠ readerCountMask
  | .registerExchange state => state &&& writerPendingMask ≠ writerPendingMask
  | .writeExchange state => state &&& (writeLocked ||| readerCountMask) = 0#32
  | _ => True

/-- Everything a step can do. -/
inductive Moves (s : RwLock n) : RwLock n → Prop where
  | stays : Moves s s
  | goes (p : Fin n) (pc : RwPc) (hkind : pc.kind = (s.pc p).kind) (htested : Tested pc) :
    Moves s (s.goto p pc)
  | reads (p : Fin n) (hp : (s.pc p).kind = .none) (hblocked : s.state &&& readerBlockedMask = 0#32)
    (hroom : s.state &&& readerCountMask ≠ readerCountMask) :
    Moves s ({ s with state := s.state + 1#32 }.goto p .reading)
  | registers (p : Fin n) (hp : (s.pc p).kind = .none)
    (hroom : s.state &&& writerPendingMask ≠ writerPendingMask) :
    Moves s ({ s with state := s.state + writerPendingOne }.goto p .writeLoad)
  | writes (p : Fin n) (hp : (s.pc p).kind = .pending)
    (hfree : s.state &&& (writeLocked ||| readerCountMask) = 0#32) :
    Moves s ({ s with state := (s.state - writerPendingOne) ||| writeLocked }.goto p .writing)
  | takes (p : Fin n) (hp : (s.pc p).kind = .none) (hzero : s.state = 0#32) :
    Moves s ({ s with state := writeLocked }.goto p .writing)
  | readsNoMore (p : Fin n) (hp : (s.pc p).kind = .reader) :
    Moves s ({ s with state := s.state - 1#32 }.goto p .idle)
  | writesNoMore (p : Fin n) (hp : (s.pc p).kind = .writer) :
    Moves s ({ s with state := s.state &&& ~~~writeLocked }.goto p .idle)

variable {s : RwLock n}

/-- The next step of a party does one of these, when the word it has loaded was tested. -/
theorem moves_of_proceed {s' : RwLock n} {p : Fin n} {pc : RwPc} {o : RwOut} (hp : s.pc p = pc)
    (ht : Tested pc) (h : s.proceed p pc = .ok (s', o)) : Moves s s' := by
  cases pc with
  | readLoad =>
    simp only [proceed] at h
    split at h
    · rename_i hblocked
      split at h
      · cases h
        exact .goes p _ (by rw [hp]; rfl) trivial
      · rename_i hroom
        cases h
        exact .goes p _ (by rw [hp]; rfl) ⟨hblocked, hroom⟩
    · cases h
      exact .goes p _ (by rw [hp]; rfl) trivial
  | readExchange state | tryReadExchange state =>
    simp only [proceed] at h
    split at h
    · rename_i e
      subst e
      cases h
      exact .reads p (by rw [hp]; rfl) ht.1 ht.2
    · cases h
      exact .goes p _ (by rw [hp]; rfl) trivial
  | readWait state | writeWait state =>
    cases h
    exact .goes p _ (by rw [hp]; rfl) trivial
  | registerLoad =>
    simp only [proceed] at h
    split at h
    · cases h
      exact .goes p _ (by rw [hp]; rfl) trivial
    · rename_i hroom
      cases h
      exact .goes p _ (by rw [hp]; rfl) hroom
  | registerExchange state =>
    simp only [proceed] at h
    split at h
    · rename_i e
      subst e
      obtain ⟨rfl, rfl⟩ := Prod.mk.inj (Except.ok.inj h)
      exact .registers p (by rw [hp]; rfl) ht
    · cases h
      exact .goes p _ (by rw [hp]; rfl) trivial
  | writeLoad =>
    simp only [proceed] at h
    split at h
    · rename_i hfree
      cases h
      exact .goes p _ (by rw [hp]; rfl) hfree
    · cases h
      exact .goes p _ (by rw [hp]; rfl) trivial
  | writeExchange state =>
    simp only [proceed] at h
    split at h
    · rename_i e
      subst e
      cases h
      exact .writes p (by rw [hp]; rfl) ht
    · cases h
      exact .goes p _ (by rw [hp]; rfl) trivial
  | idle | reading | writing =>
    cases h
    exact .stays

/-- **A step does one of these**, when the words loaded before were tested. -/
theorem moves_of_step {s' : RwLock n} {op : RwOp n} {o : RwOut} (ht : ∀ p, Tested (s.pc p))
    (h : step s op = .ok (s', o)) : Moves s s' := by
  cases op with
  | read p | write p =>
    simp only [step] at h
    split at h
    · rename_i hp
      cases h
      exact .goes p _ (by rw [hp]; rfl) trivial
    · cases h
      exact .stays
  | tryRead p =>
    simp only [step] at h
    split at h
    · rename_i hp
      split at h
      · cases h
        exact .stays
      · rename_i hn
        rw [not_or, not_not] at hn
        cases h
        exact .goes p _ (by rw [hp]; rfl) hn
    · cases h
      exact .stays
  | tryWrite p =>
    simp only [step] at h
    split at h
    · rename_i hp
      split at h
      · rename_i hzero
        cases h
        exact .takes p (by rw [hp]; rfl) hzero
      · cases h
        exact .stays
    · cases h
      exact .stays
  | advance p => exact moves_of_proceed rfl (ht p) h
  | release p =>
    simp only [step] at h
    split at h
    · rename_i hp
      cases h
      exact .readsNoMore p (by rw [hp]; rfl)
    · rename_i hp
      cases h
      exact .writesNoMore p (by rw [hp]; rfl)
    · cases h
      exact .stays

/-! ## 2. The word counts the parties -/

/-- How many parties count as `kind`. -/
def count (s : RwLock n) (kind : RwKind) : Nat := census s.pc fun pc => pc.kind = kind

theorem count_goto (s : RwLock n) (p : Fin n) (pc : RwPc) (kind : RwKind) :
    (s.goto p pc).count kind + (if (s.pc p).kind = kind then 1 else 0) =
      s.count kind + if pc.kind = kind then 1 else 0 :=
  census_update s.pc (fun pc => pc.kind = kind) p pc

theorem count_pos {p : Fin n} {kind : RwKind} (h : (s.pc p).kind = kind) :
  0 < s.count kind := census_pos h

/-- **The invariant**: the fields of the word are the numbers of the parties, within their bounds;
  one writer excludes every other guard. -/
structure Inv (s : RwLock n) : Prop where
  word : s.state.toNat = s.count .writer * 2147483648 + s.count .pending * 65536 + s.count .reader
  readers : s.count .reader ≤ 65535
  pending : s.count .pending ≤ 32767
  writers : s.count .writer ≤ 1
  exclusive : s.count .writer = 1 → s.count .reader = 0
  tested : ∀ p, Tested (s.pc p)

theorem inv_initial : (initial : RwLock n).Inv := by
  have hzero : ∀ kind, kind ≠ .none → (initial : RwLock n).count kind = 0 := by
    intro kind h
    exact census_eq_zero fun p e => h e.symm
  constructor
  · rw [hzero _ (by decide), hzero _ (by decide), hzero _ (by decide)]
    rfl
  · rw [hzero _ (by decide)]; omega
  · rw [hzero _ (by decide)]; omega
  · rw [hzero _ (by decide)]; omega
  · intro _
    exact hzero _ (by decide)
  · intro p
    exact trivial

@[simp] theorem goto_self (s : RwLock n) (p : Fin n) (pc : RwPc) : (s.goto p pc).pc p = pc :=
  Function.update_self ..

theorem goto_of_ne (s : RwLock n) {p q : Fin n} (h : q ≠ p) (pc : RwPc) :
  (s.goto p pc).pc q = s.pc q := Function.update_of_ne h ..

theorem tested_goto (hi : ∀ p, Tested (s.pc p)) (state : Word) (p : Fin n)
    {pc : RwPc} (h : Tested pc) (q : Fin n) : Tested (({ s with state := state }.goto p pc).pc q) := by
  by_cases e : q = p
  · subst e
    rw [goto_self]
    exact h
  · rw [goto_of_ne _ e]
    exact hi q

/-- The census after one party changes from one kind to another. -/
theorem count_change (s : RwLock n) (state : Word) (p : Fin n) (pc : RwPc) {old : RwKind}
    (ho : (s.pc p).kind = old) (kind : RwKind) :
  ({ s with state := state }.goto p pc).count kind + (if old = kind then 1 else 0) =
    s.count kind + if pc.kind = kind then 1 else 0 := by
  have h := count_goto { s with state := state } p pc kind
  rwa [ho] at h

theorem count_enter {p : Fin n} (hp : (s.pc p).kind = .none) (state : Word)
    (pc : RwPc) (kind : RwKind) (hk : kind ≠ .none) :
  ({ s with state := state }.goto p pc).count kind = s.count kind + if pc.kind = kind then 1 else 0 := by
  have h := count_change s state p pc hp kind
  rw [if_neg hk.symm] at h
  exact h

theorem count_leave {p : Fin n} {old : RwKind} (hp : (s.pc p).kind = old)
    (state : Word) (kind : RwKind) (hk : kind ≠ .none) :
  ({ s with state := state }.goto p .idle).count kind + (if old = kind then 1 else 0) = s.count kind := by
  have h := count_change s state p .idle hp kind
  rw [if_neg (show RwPc.idle.kind ≠ kind from hk.symm)] at h
  exact h

theorem inv_step {s' : RwLock n} {op : RwOp n} {o : RwOut} (hi : s.Inv) (h : step s op = .ok (s', o)) : s'.Inv := by
  have hword := hi.word
  have hreaders := hi.readers
  have hpending := hi.pending
  have hexclusive := hi.exclusive
  cases moves_of_step hi.tested h with
  | stays => exact hi
  | goes p pc hkind htested =>
    have hsame : ∀ kind, (s.goto p pc).count kind = s.count kind := by
      intro kind
      have := count_goto s p pc kind
      rw [hkind] at this
      omega
    constructor
    · rw [hsame, hsame, hsame]; exact hi.word
    · rw [hsame]; exact hi.readers
    · rw [hsame]; exact hi.pending
    · rw [hsame]; exact hi.writers
    · rw [hsame, hsame]; exact hi.exclusive
    · exact tested_goto hi.tested s.state p htested
  | reads p hp hblocked hroom =>
    -- no writer holds the lock or waits for it, and the readers are below their limit
    have hb := congrArg BitVec.toNat hblocked
    rw [toNat_blocked, BitVec.toNat_ofNat, Nat.zero_mod] at hb
    have hr : s.state.toNat % 65536 ≠ 65535 := by
      intro e
      refine hroom (BitVec.eq_of_toNat_eq ?_)
      rw [toNat_readers, e]
      rfl
    have hadd : (s.state + 1#32).toNat = s.state.toNat + 1 := by
      rw [BitVec.toNat_add, BitVec.toNat_ofNat]
      omega
    have hcr := count_enter hp (s.state + 1#32) .reading .reader (by decide)
    have hcq := count_enter hp (s.state + 1#32) .reading .pending (by decide)
    have hcw := count_enter hp (s.state + 1#32) .reading .writer (by decide)
    simp only [RwPc.kind, if_true, reduceCtorEq, if_false] at hcr hcq hcw
    refine ⟨hadd.trans ?_, ?_, ?_, ?_, ?_, tested_goto hi.tested _ p trivial⟩ <;> omega
  | registers p hp hroom =>
    have hq : s.state.toNat / 65536 % 32768 ≠ 32767 := by
      intro e
      refine hroom (BitVec.eq_of_toNat_eq ?_)
      rw [toNat_pending, e]
      rfl
    have hadd : (s.state + writerPendingOne).toNat = s.state.toNat + 65536 := by
      have hone : writerPendingOne.toNat = 65536 := by decide
      rw [BitVec.toNat_add, hone]
      omega
    have hcr := count_enter hp (s.state + writerPendingOne) .writeLoad .reader (by decide)
    have hcq := count_enter hp (s.state + writerPendingOne) .writeLoad .pending (by decide)
    have hcw := count_enter hp (s.state + writerPendingOne) .writeLoad .writer (by decide)
    simp only [RwPc.kind, if_true, reduceCtorEq, if_false] at hcr hcq hcw
    refine ⟨hadd.trans ?_, ?_, ?_, ?_, ?_, tested_goto hi.tested _ p trivial⟩ <;> omega
  | writes p hp hfree =>
    -- the party itself is among the pending writers, so the subtraction does not borrow
    have hone : 0 < s.count .pending := count_pos hp
    obtain ⟨hbit, hlow⟩ := (free_iff s.state).mp hfree
    have hgrant := toNat_grant s.state hbit (by omega)
    have hc := count_change s ((s.state - writerPendingOne) ||| writeLocked) p .writing hp
    have hcr := hc .reader
    have hcq := hc .pending
    have hcw := hc .writer
    simp only [RwPc.kind, if_true, reduceCtorEq, if_false] at hcr hcq hcw
    refine ⟨hgrant.trans ?_, ?_, ?_, ?_, ?_, tested_goto hi.tested _ p trivial⟩ <;> omega
  | takes p hp hzero =>
    have hnat := congrArg BitVec.toNat hzero
    rw [BitVec.toNat_ofNat, Nat.zero_mod] at hnat
    have hlock : writeLocked.toNat = 2147483648 := by
      rw [writeLocked, BitVec.toNat_ofNat]
    have hcr := count_enter hp writeLocked .writing .reader (by decide)
    have hcq := count_enter hp writeLocked .writing .pending (by decide)
    have hcw := count_enter hp writeLocked .writing .writer (by decide)
    simp only [RwPc.kind, if_true, reduceCtorEq, if_false] at hcr hcq hcw
    refine ⟨hlock.trans ?_, ?_, ?_, ?_, ?_, tested_goto hi.tested _ p trivial⟩ <;> omega
  | readsNoMore p hp =>
    have hone : 0 < s.count .reader := count_pos hp
    have hsub : (s.state - 1#32).toNat = s.state.toNat - 1 := by
      rw [BitVec.toNat_sub, BitVec.toNat_ofNat]
      omega
    have hcr := count_leave hp (s.state - 1#32) .reader (by decide)
    have hcq := count_leave hp (s.state - 1#32) .pending (by decide)
    have hcw := count_leave hp (s.state - 1#32) .writer (by decide)
    simp only [if_true, reduceCtorEq, if_false] at hcr hcq hcw
    refine ⟨hsub.trans ?_, ?_, ?_, ?_, ?_, tested_goto hi.tested _ p trivial⟩ <;> omega
  | writesNoMore p hp =>
    have hcr := count_leave hp (s.state &&& ~~~writeLocked) .reader (by decide)
    have hcq := count_leave hp (s.state &&& ~~~writeLocked) .pending (by decide)
    have hcw := count_leave hp (s.state &&& ~~~writeLocked) .writer (by decide)
    simp only [if_true, reduceCtorEq, if_false] at hcr hcq hcw
    refine ⟨(toNat_unlock s.state).trans ?_, ?_, ?_, ?_, ?_, tested_goto hi.tested _ p trivial⟩ <;>
      omega

theorem inv_run {tr : List (RwOp n × RwOut)} (h : Run step initial tr s) : s.Inv :=
  h.invariant (fun _ _ _ _ hi hs => inv_step hi hs) inv_initial

end RwLock

/-! ## 3. Exclusion -/

/-- **EXCLUSION**, for any number of parties and any interleaving of atomic steps. At most one
  guard of a mutex is live, the lock is granted in the order of the tickets, and the halves of
  its word are the tickets handed out and the guards released, each modulo 2 ^ 16, however often
  they wrapped around. A writer of a reader-writer lock excludes every other guard, and the
  fields of its word are the numbers of the readers, of the registered writers and of the writer
  that was granted the lock. -/
theorem locks_exclude (n : Nat) :
    (∀ (tr : List (MutexOp n × MutexOut)) (s : Mutex n), Run Mutex.step Mutex.initial tr s →
      (∀ p q, s.pc p = .holding → s.pc q = .holding → p = q) ∧ Mutex.grants tr <+: Mutex.admissions tr ∧
      (Mutex.admissions tr).length ≤ (Mutex.releases tr).length + 65535 ∧
      (Tickets.next s.tickets).toNat = (Mutex.admissions tr).length % 65536 ∧
      (Tickets.serving s.tickets).toNat = (Mutex.releases tr).length % 65536) ∧
    (∀ (tr : List (RwOp n × RwOut)) (s : RwLock n), Run RwLock.step RwLock.initial tr s →
      (∀ p q, s.pc p = .writing → s.pc q = .writing ∨ s.pc q = .reading → q = p) ∧
      (s.state &&& RwState.readerCountMask).toNat = s.count .reader ∧
      (s.state &&& RwState.writerPendingMask).toNat = s.count .pending * 65536 ∧
      (s.state &&& RwState.writeLocked).toNat = s.count .writer * 2147483648) := by
  constructor
  · intro tr s h
    have hi := Mutex.inv_run h
    refine ⟨fun p q hp hq => hi.exclusive hp hq, hi.order, hi.room, ?_, ?_⟩
    · rw [Tickets.toNat_next, hi.low]
    · rw [Tickets.toNat_serving, hi.high]
  · intro tr s h
    have hi := RwLock.inv_run h
    have hword := hi.word
    have hreaders := hi.readers
    have hpending := hi.pending
    refine ⟨fun p q hp hq => ?_, ?_, ?_, ?_⟩
    · have hp : (s.pc p).kind = .writer := by rw [hp]; rfl
      have hone : s.count .writer = 1 := by
        have := RwLock.count_pos hp
        omega
      rcases hq with hq | hq
      · have hq : (s.pc q).kind = .writer := by rw [hq]; rfl
        exact eq_of_census_le_one hi.writers hq hp
      · have hq : (s.pc q).kind = .reader := by rw [hq]; rfl
        have := RwLock.count_pos hq
        have := hi.exclusive hone
        omega
    · rw [RwState.toNat_readers]
      omega
    · rw [RwState.toNat_pending]
      omega
    · rw [RwState.toNat_locked]
      omega

/-- Two parties take tickets, the first of them is granted the mutex; a reader keeps out a writer
  that has registered. -/
theorem locks_exclude_two : (∃ s : Mutex 2, Run Mutex.step Mutex.initial
    [(.lock 0, .silent), (.advance 0, .admitted), (.lock 1, .silent), (.advance 1, .admitted),
      (.advance 0, .granted)] s ∧ s.pc 0 = .holding ∧ s.pc 1 ≠ .holding) ∧
    ∃ s : RwLock 2, Run RwLock.step RwLock.initial
      [(.tryRead 0, .silent), (.advance 0, .granted), (.write 1, .silent), (.advance 1, .silent),
        (.advance 1, .silent)] s ∧ (s.state &&& RwState.readerCountMask).toNat = s.count .reader := by
  constructor
  · obtain ⟨s, h, hp⟩ : ∃ s : Mutex 2, Run Mutex.step Mutex.initial
      [(.lock 0, .silent), (.advance 0, .admitted), (.lock 1, .silent), (.advance 1, .admitted),
        (.advance 0, .granted)] s ∧ s.pc 0 = .holding :=
      ⟨_, .cons rfl (.cons rfl (.cons rfl (.cons rfl (.cons rfl (.nil _))))), rfl⟩
    refine ⟨s, h, hp, fun hq => ?_⟩
    exact absurd (((locks_exclude 2).1 _ _ h).1 0 1 hp hq) (by decide)
  · obtain ⟨s, h⟩ : ∃ s : RwLock 2, Run RwLock.step RwLock.initial
      [(.tryRead 0, .silent), (.advance 0, .granted), (.write 1, .silent), (.advance 1, .silent),
        (.advance 1, .silent)] s :=
      ⟨_, .cons rfl (.cons rfl (.cons rfl (.cons rfl (.cons rfl (.nil _)))))⟩
    exact ⟨s, h, ((locks_exclude 2).2 _ _ h).2.1⟩

/-! ## 4. Progress -/

/-- The state after a step. -/
def after {σ ι ο : Type} (step : σ → ι → Except Empty (σ × ο)) (op : ι) (s : σ) : σ :=
  match step s op with
  | .ok (s', _) => s'
  | .error e => e.elim

variable {n : Nat}

/-- The first of the tickets that are not released is the one being served, and its party enters. -/
theorem Mutex.enters {tr : List (MutexOp n × MutexOut)} {s : Mutex n} (hi : Inv tr s)
    (hfree : ∀ p, s.pc p ≠ .holding) {p : Fin n} (hp : (ticketOf (s.pc p)).isSome = true) :
    ∃ q, (admissions tr)[(releases tr).length]? = some q ∧
      ∃ k ≤ 2, ((after Mutex.step (.advance q))^[k] s).pc q = .holding := by
  obtain ⟨i, hri, hip⟩ := hi.member p (.inl hp)
  obtain ⟨q, hq⟩ : ∃ q, (admissions tr)[(releases tr).length]? = some q :=
    ⟨_, List.getElem?_eq_getElem (hri.trans_lt (Inv.lt_of_getElem hip))⟩
  obtain ⟨ticket, ht, e⟩ := (hi.queued _ q le_rfl hq).resolve_right fun h => hfree q h.2
  have hserved : Tickets.serving s.tickets = ticket := by
    rw [← BitVec.toNat_inj, Tickets.toNat_serving, hi.high, e]
  refine ⟨q, hq, ?_⟩
  cases hpc : s.pc q with
  | ticketed t =>
    rw [hpc] at ht
    obtain rfl := Option.some.inj ht
    exact ⟨1, by omega, by simp [after, Mutex.step, hpc, hserved]⟩
  | waiting t observed =>
    rw [hpc] at ht
    obtain rfl := Option.some.inj ht
    have tickets (pc : MutexPc) : (s.goto q pc).tickets = s.tickets := rfl
    exact ⟨2, le_rfl, by simp [after, Mutex.step, hpc, hserved, tickets]⟩
  | idle | admission | exhausted | attempt | holding =>
    rw [hpc] at ht
    cases ht

/-- A registered writer enters a free lock: its loads find it free, and its exchange succeeds. -/
theorem RwLock.enters {s : RwLock n} (hi : s.Inv) (hfree : ∀ p, s.pc p ≠ .reading ∧ s.pc p ≠ .writing)
    {p : Fin n} (hp : (s.pc p).kind = .pending) :
    ∃ k ≤ 4, ((after RwLock.step (.advance p))^[k] s).pc p = .writing := by
  have none_of (kind : RwKind) (h : ∀ q, (s.pc q).kind ≠ kind) : s.count kind = 0 := census_eq_zero h
  have hr := none_of .reader fun q e => by
    cases hq : s.pc q <;> rw [hq] at e <;> first | exact (hfree q).1 hq | cases e
  have hw := none_of .writer fun q e => by
    cases hq : s.pc q <;> rw [hq] at e <;> first | exact (hfree q).2 hq | cases e
  have free : s.state &&& (RwState.writeLocked ||| RwState.readerCountMask) = 0#32 := by
    have := hi.word
    have := hi.pending
    exact (RwState.free_iff _).mpr (by omega)
  have state (t : RwLock n) (pc : RwPc) : (t.goto p pc).state = t.state := rfl
  cases hpc : s.pc p with
  | writeLoad => exact ⟨2, by omega, by simp [after, RwLock.step, RwLock.proceed, hpc, free, state]⟩
  | writeWait old => exact ⟨3, by omega, by simp [after, RwLock.step, RwLock.proceed, hpc, free, state]⟩
  | writeExchange old =>
    by_cases same : s.state = old
    · exact ⟨1, by omega, by simp [after, RwLock.step, RwLock.proceed, hpc, same]⟩
    · exact ⟨4, le_rfl, by simp [after, RwLock.step, RwLock.proceed, hpc, same, free, state]⟩
  | _ =>
    rw [hpc] at hp
    cases hp

end Bray.Sync
