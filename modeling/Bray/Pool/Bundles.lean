/-
  File:      Bray/Pool/Bundles.lean
  Subject:   CREDITS. What a bundle reserves, and what is left of it when it is refused.

  A bundle acquires its descriptors one after the other, each with a credit of its shape. When one of
  them is refused, or has to wait for memory, the credits of those before it are given back, and all
  credits are as they were (`reserveLoop_spec`). A descriptor may occur more than once: `demand` counts.
-/
import Bray.Pool.Leases

namespace Bray.Pool

open Bray.Lib List Option

variable {V : Type} {target : Target} {pool pool' : ReportPool V} {shape : Shape} {frees : List (List Nat)}
  {free : List Nat} {bytes : Option (RawBuffer UInt8)} {pos : Nat}

/-- How many slots of a descriptor a list of descriptors demands. -/
def demand (descriptors : List Descriptor) (d : Descriptor) : Nat :=
  if d.bytes = 0 then 0 else descriptors.count d

theorem demand_nil (d : Descriptor) : demand [] d = 0 := by
  unfold demand
  split <;> rfl

theorem demand_append (xs ys : List Descriptor) (d : Descriptor) :
    demand (xs ++ ys) d = demand xs d + demand ys d := by
  unfold demand
  split
  · rfl
  · exact count_append

theorem demand_cons (x : Descriptor) (xs : List Descriptor) (d : Descriptor) :
  demand (x :: xs) d = demand [x] d + demand xs d := demand_append [x] xs d

theorem demand_singleton_zero {x : Descriptor} (h : x.bytes = 0) (d : Descriptor) : demand [x] d = 0 := by
  unfold demand
  split
  · rfl
  · rename_i hd
    exact count_eq_zero.mpr fun hmem => hd (by rw [mem_singleton.mp hmem]; exact h)

theorem demand_singleton {x : Descriptor} (h : x.bytes ≠ 0) (d : Descriptor) :
    demand [x] d = if d = x then 1 else 0 := by
  unfold demand
  by_cases hd : d = x
  · subst hd
    rw [if_neg h, if_pos rfl, count_singleton_self]
  · split
    · rfl
    · exact count_eq_zero.mpr fun hmem => hd (mem_singleton.mp hmem)

/-! ## 1. One credit -/

theorem ShapeOk.setCredits (h : ShapeOk target shape free) (credits : Nat) :
    ShapeOk target { shape with credits := credits } free :=
  ⟨h.contiguous, h.total_eq, h.total_le, h.layout, h.slabs, h.strung, h.nodup, h.mem_iff, h.head_eq, h.length_eq⟩

theorem setCredits_spec (h : StorageOk target pool frees bytes) (hi : (held pool.storage)[pos]? = some shape)
    (credits : Nat) :
  ∃ frees', StorageOk target (storeShape pool pos { shape with credits := credits }) frees' bytes ∧
    Steady pool (storeShape pool pos { shape with credits := credits }) ∧
    (∀ d, creditAt (storeShape pool pos { shape with credits := credits }) d =
      if d = shape.descriptor then credits else creditAt pool d) ∧
    ∀ d, availableAt (storeShape pool pos { shape with credits := credits }) d = availableAt pool d := by
  obtain ⟨free, hfree, hok⟩ := agree_get h.shapes hi
  have hheld := held_storeShape pool pos { shape with credits := credits }
  have hstored := h.update hi hheld (hok.setCredits credits) rfl rfl
  refine ⟨_, hstored, ⟨busyAt_grown hi hheld ⟨[], (append_nil _).symm, fun _ hm => nomatch hm⟩,
    rfl, fun i d hd => ?_⟩, fun d => ?_, fun d => ?_⟩
  · rw [descriptorAt_set hi hheld rfl]
    exact hd
  · rw [creditAt, creditAt, h.shapeAt_update hstored hi hheld rfl]
    split <;> rfl
  · rw [available_set h hstored hi hheld rfl]
    split
    · rename_i hd
      rw [hd, availableAt, h.shapeAt_eq hi]
      rfl
    · rfl

/-- **Credits are given back**, where the process does not stop. -/
theorem dischargeBundle_some {descriptors : List Descriptor} (h : StorageOk target pool frees bytes)
    (e : dischargeBundle pool descriptors = some pool') :
    ∃ frees', StorageOk target pool' frees' bytes ∧ Steady pool pool' ∧
      ∀ d, creditAt pool d = creditAt pool' d + demand descriptors d ∧ availableAt pool' d = availableAt pool d := by
  induction descriptors generalizing pool frees with
  | nil =>
    cases e
    exact ⟨frees, h, .refl _, fun d => ⟨by rw [demand_nil, Nat.add_zero], rfl⟩⟩
  | cons descriptor rest ih =>
    rw [dischargeBundle] at e
    split at e
    · rename_i hzero
      obtain ⟨frees', h', hsteady, hcredit⟩ := ih h e
      refine ⟨frees', h', hsteady, fun d => ⟨?_, (hcredit d).2⟩⟩
      rw [demand_cons, demand_singleton_zero hzero, Nat.zero_add]
      exact (hcredit d).1
    · rename_i hbytes
      rcases find_spec pool descriptor with ⟨hzero, -⟩ | ⟨pos, shape, hpos, hget, hd⟩
      · rw [if_pos hzero] at e
        cases e
      · rw [if_neg (by rw [hpos]; exact Nat.succ_ne_zero pos), hpos, shapes_of_held hget] at e
        simp only [some_bind, Nat.add_sub_cancel, hget] at e
        split at e
        · cases e
        · obtain ⟨frees₁, h₁, hsteady₁, hcredit₁, havailable₁⟩ := setCredits_spec h hget (shape.credits - 1)
          obtain ⟨frees', h', hsteady, hcredit⟩ := ih h₁ e
          refine ⟨frees', h', hsteady₁.trans hsteady, fun d => ⟨?_, (hcredit d).2.trans (havailable₁ d)⟩⟩
          have hrest := (hcredit d).1
          rw [hcredit₁ d] at hrest
          rw [demand_cons, demand_singleton hbytes]
          split at hrest
          · rename_i hdd
            have hfull : creditAt pool d = shape.credits := by
              rw [creditAt, hdd, h.shapeAt_eq hget]
              rfl
            rw [if_pos (hdd.trans hd)]
            omega
          · rename_i hdd
            rw [if_neg fun hdx => hdd (hdx.trans hd.symm)]
            omega

/-- Credits that are there can be given back. -/
theorem dischargeBundle_total {descriptors : List Descriptor} (h : StorageOk target pool frees bytes)
    (hcredit : ∀ d, demand descriptors d ≤ creditAt pool d) : ∃ pool', dischargeBundle pool descriptors = some pool' := by
  induction descriptors generalizing pool frees with
  | nil => exact ⟨pool, rfl⟩
  | cons descriptor rest ih =>
    rw [dischargeBundle]
    split
    · rename_i hzero
      refine ih h fun d => ?_
      have := hcredit d
      rw [demand_cons, demand_singleton_zero hzero, Nat.zero_add] at this
      exact this
    · rename_i hbytes
      have hone := hcredit descriptor
      rw [demand_cons, demand_singleton hbytes, if_pos rfl] at hone
      rcases find_spec pool descriptor with ⟨-, hnone⟩ | ⟨pos, shape, hpos, hget, hd⟩
      · have hzero : creditAt pool descriptor = 0 := by
          have hfind : shapeAt pool descriptor = none := find?_eq_none.mpr fun s hs => by
            simpa using hnone s hs
          rw [creditAt, hfind]
          rfl
        omega
      · have hfull : creditAt pool descriptor = shape.credits := by
          rw [creditAt, ← hd, h.shapeAt_eq hget]
          rfl
        have hne : shape.credits ≠ 0 := by omega
        obtain ⟨frees₁, h₁, -, hcredit₁, -⟩ := setCredits_spec h hget (shape.credits - 1)
        rw [if_neg (by rw [hpos]; exact Nat.succ_ne_zero pos), hpos, shapes_of_held hget]
        simp only [some_bind, Nat.add_sub_cancel, hget, if_neg hne]
        refine ih h₁ fun d => ?_
        have := hcredit d
        rw [demand_cons, demand_singleton hbytes] at this
        rw [hcredit₁ d]
        by_cases hdd : d = shape.descriptor
        · rw [if_pos hdd]
          rw [hdd, hd]
          omega
        · rw [if_neg hdd]
          omega

/-! ## 2. One requirement -/

variable {prepared : Prepared V}

/-- **A requirement** never stops the process. Where it is met, its shape has one credit more and free
  slots for all of them; otherwise the credits are as they were. -/
theorem reserveRequirement_spec (h : StorageOk target pool frees prepared.bytes) (descriptor : Descriptor) :
    ∃ reply pool' prepared' frees', reserveRequirement target pool descriptor prepared = some (reply, pool', prepared') ∧
      StorageOk target pool' frees' prepared'.bytes ∧ Steady pool pool' ∧
      (∀ d, availableAt pool d ≤ availableAt pool' d) ∧
      (reply ≠ .ok true → ∀ d, creditAt pool' d = creditAt pool d) ∧
      (reply = .ok true → ∀ d, creditAt pool' d = creditAt pool d + demand [descriptor] d ∧
        (creditAt pool' d = creditAt pool d ∨ creditAt pool' d ≤ availableAt pool' d)) := by
  rw [reserveRequirement]
  split
  · rename_i hzero
    refine ⟨_, pool, prepared, frees, rfl, h, .refl pool, fun d => Nat.le_refl _, fun _ d => rfl, fun _ d => ⟨?_, .inl rfl⟩⟩
    rw [demand_singleton_zero hzero, Nat.add_zero]
  · rename_i hbytes
    obtain ⟨reply, pool₁, prepared₁, frees₁, e₁, h₁, hsteady₁, hcredit₁, hposition⟩ := register_spec h descriptor
    rw [e₁, bind_eq_bind, bind_some]
    have havailable₁ : ∀ d, availableAt pool d ≤ availableAt pool₁ d := fun d => Nat.le_of_eq (hcredit₁ d).2.symm
    rcases reply with request | position
    · exact ⟨_, pool₁, prepared₁, frees₁, rfl, h₁, hsteady₁, havailable₁, fun _ d => (hcredit₁ d).1,
        fun hr => by cases hr⟩
    rcases position with _ | position
    · exact ⟨_, pool₁, prepared₁, frees₁, rfl, h₁, hsteady₁, havailable₁, fun _ d => (hcredit₁ d).1,
        fun hr => by cases hr⟩
    · obtain ⟨shape, hget, hd⟩ := hposition position rfl
      simp only [shapes_of_held hget, bind_eq_bind, bind_some, hget]
      split
      · exact ⟨_, pool₁, prepared₁, frees₁, rfl, h₁, hsteady₁, havailable₁, fun _ d => (hcredit₁ d).1,
          fun hr => by cases hr⟩
      · obtain ⟨reply₂, shape₂, prepared₂, frees₂, e₂, h₂, hsteady₂, hd₂, hcredits₂, hle₂, hready₂⟩ :=
          growShape_spec h₁ hget (shape.credits + 1)
        have hheld := held_storeShape pool₁ position shape₂
        have hcredit₂ := credit_set h₁ h₂ hget hheld hd₂ hcredits₂
        have havailable₂ : ∀ d, availableAt pool₁ d ≤ availableAt (storeShape pool₁ position shape₂) d := by
          intro d
          rw [available_set h₁ h₂ hget hheld hd₂]
          split
          · rename_i hdd
            rw [hdd, availableAt, h₁.shapeAt_eq hget]
            exact hle₂
          · exact Nat.le_refl _
        rw [e₂, bind_some]
        rcases reply₂ with request | ready
        · exact ⟨_, _, prepared₂, frees₂, rfl, h₂, hsteady₁.trans hsteady₂,
            fun d => Nat.le_trans (havailable₁ d) (havailable₂ d), fun _ d => (hcredit₂ d).trans (hcredit₁ d).1,
            fun hr => by cases hr⟩
        cases ready
        · exact ⟨_, _, prepared₂, frees₂, rfl, h₂, hsteady₁.trans hsteady₂,
            fun d => Nat.le_trans (havailable₁ d) (havailable₂ d), fun _ d => (hcredit₂ d).trans (hcredit₁ d).1,
            fun hr => by cases hr⟩
        · have hget₂ : (held (storeShape pool₁ position shape₂).storage)[position]? = some shape₂ := by
            rw [hheld, List.getElem?_set_self (List.getElem_of_getElem? hget).1]
          obtain ⟨frees₃, h₃, hsteady₃, hcredit₃, havailable₃⟩ := setCredits_spec h₂ hget₂ (shape₂.credits + 1)
          have htwice : storeShape (storeShape pool₁ position shape₂) position
            { shape₂ with credits := shape₂.credits + 1 } =
            storeShape pool₁ position { shape₂ with credits := shape₂.credits + 1 } := by
            rw [storeShape, storeShape, storeShape]
            cases pool₁.storage with
            | none => rfl
            | some buffer =>
              simp [map_some, RawBuffer.write, RawBuffer.overwrite, set_set]
          rw [htwice] at h₃ hsteady₃ hcredit₃ havailable₃
          refine ⟨_, _, prepared₂, frees₃, rfl, h₃, (hsteady₁.trans hsteady₂).trans hsteady₃, fun d => ?_,
            fun hr => absurd rfl hr, fun _ d => ?_⟩
          · rw [havailable₃ d]
            exact Nat.le_trans (havailable₁ d) (havailable₂ d)
          · have hdx : shape₂.descriptor = descriptor := hd₂.trans hd
            rw [hcredit₃ d, havailable₃ d, demand_singleton hbytes]
            by_cases hdd : d = descriptor
            · have hfull : creditAt pool d = shape.credits := by
                rw [← (hcredit₁ d).1, creditAt, hdd, ← hd, h₁.shapeAt_eq hget]
                rfl
              have hspace : availableAt (storeShape pool₁ position shape₂) d = shape₂.available := by
                rw [available_set h₁ h₂ hget hheld hd₂, if_pos (hdd.trans hd.symm)]
              rw [if_pos (hdd.trans hdx.symm), if_pos hdd, hfull, hcredits₂, hspace]
              exact ⟨rfl, .inr (hready₂ rfl)⟩
            · rw [if_neg fun e => hdd (e.trans hdx), if_neg hdd, hcredit₂ d, (hcredit₁ d).1]
              exact ⟨rfl, .inl rfl⟩

/-! ## 3. All requirements of a bundle -/

/-- What a bundle leaves of the storage: where it is accepted its demand is added to the credits `base`,
  and otherwise they are `base` again. -/
structure Reserved (base : Descriptor → Nat) (pool pool' : ReportPool V) (all : List Descriptor)
  (reply : Reply Request Bool) : Prop where
  steady : Steady pool pool'
  available : ∀ d, availableAt pool d ≤ availableAt pool' d
  refused : reply ≠ .ok true → ∀ d, creditAt pool' d = base d
  accepted : reply = .ok true → ∀ d, creditAt pool' d = base d + demand all d ∧
    (creditAt pool' d = creditAt pool d ∨ creditAt pool' d ≤ availableAt pool' d)

/-- **The loop of a bundle.** The credits of what was acquired before are `base` and its demand. -/
theorem reserveLoop_spec {base : Descriptor → Nat} (acquired rest : List Descriptor)
    (h : StorageOk target pool frees prepared.bytes) (hbase : ∀ d, creditAt pool d = base d + demand acquired d) :
    ∃ reply pool' prepared' frees', reserveLoop target acquired rest pool prepared = some (reply, pool', prepared') ∧
      StorageOk target pool' frees' prepared'.bytes ∧ Reserved base pool pool' (acquired ++ rest) reply := by
  induction rest generalizing pool frees prepared acquired with
  | nil =>
    refine ⟨_, pool, prepared, frees, rfl, h, ⟨.refl pool, fun d => Nat.le_refl _, fun hr => absurd rfl hr,
      fun _ d => ⟨?_, .inl rfl⟩⟩⟩
    rw [append_nil]
    exact hbase d
  | cons descriptor rest ih =>
    obtain ⟨reply₁, pool₁, prepared₁, frees₁, e₁, h₁, hsteady₁, havailable₁, hrefused₁, haccepted₁⟩ :=
      reserveRequirement_spec h descriptor
    -- a refusal gives back what was acquired
    have hback : reply₁ ≠ .ok true → ∃ pool' frees', dischargeBundle pool₁ acquired = some pool' ∧
      StorageOk target pool' frees' prepared₁.bytes ∧
      Reserved base pool pool' (acquired ++ descriptor :: rest) reply₁ := by
      intro hr
      have hcredit : ∀ d, creditAt pool₁ d = base d + demand acquired d := fun d =>
        (hrefused₁ hr d).trans (hbase d)
      obtain ⟨pool', e'⟩ := dischargeBundle_total h₁ fun d => by rw [hcredit d]; exact Nat.le_add_left _ _
      obtain ⟨frees', h', hsteady', hcredit'⟩ := dischargeBundle_some h₁ e'
      refine ⟨pool', frees', e', h', ⟨hsteady₁.trans hsteady', fun d => ?_, fun _ d => ?_, fun he => absurd he hr⟩⟩
      · rw [(hcredit' d).2]
        exact havailable₁ d
      · have := (hcredit' d).1
        rw [hcredit d] at this
        omega
    rw [reserveLoop, e₁, some_bind]
    match reply₁, hback, haccepted₁ with
    | .error request, hback, _ =>
      obtain ⟨pool', frees', e', h', hreserved⟩ := hback (fun e => by cases e)
      simp only [e', bind_some]
      exact ⟨_, pool', prepared₁, frees', rfl, h', hreserved⟩
    | .ok false, hback, _ =>
      obtain ⟨pool', frees', e', h', hreserved⟩ := hback (fun e => by cases e)
      simp only [e', bind_some]
      exact ⟨_, pool', prepared₁, frees', rfl, h', hreserved⟩
    | .ok true, _, haccepted₁ =>
      have hbase₁ : ∀ d, creditAt pool₁ d = base d + demand (acquired ++ [descriptor]) d := by
        intro d
        rw [(haccepted₁ rfl d).1, hbase d, demand_append, Nat.add_assoc]
      obtain ⟨reply, pool', prepared', frees', e', h', hreserved⟩ := ih (acquired ++ [descriptor]) h₁ hbase₁
      rw [append_assoc, singleton_append] at hreserved
      refine ⟨reply, pool', prepared', frees', e', h', ⟨hsteady₁.trans hreserved.steady,
        fun d => Nat.le_trans (havailable₁ d) (hreserved.available d), hreserved.refused, fun hr d => ?_⟩⟩
      obtain ⟨hcredit, hspace⟩ := hreserved.accepted hr d
      refine ⟨hcredit, ?_⟩
      rcases hspace with hspace | hspace
      · rcases (haccepted₁ rfl d).2 with hsame | hle
        · exact .inl (hspace.trans hsame)
        · exact .inr (by rw [hspace]; exact Nat.le_trans hle (hreserved.available d))
      · exact .inr hspace

/-- **The storage of a bundle** is reserved, with two epochs for each descriptor, or nothing is. -/
theorem reserveBundle_spec (h : StorageOk target pool frees prepared.bytes) (descriptors : List Descriptor) :
    ∃ reply pool' prepared' frees', reserveBundle target pool descriptors prepared = some (reply, pool', prepared') ∧
      StorageOk target pool' frees' prepared'.bytes ∧
    Reserved (creditAt pool) pool { pool' with remainingEpochs := pool.remainingEpochs } descriptors reply ∧
    (reply ≠ .ok true → pool'.remainingEpochs = pool.remainingEpochs) ∧
    (reply = .ok true → pool.remainingEpochs = pool'.remainingEpochs + descriptors.length * 2) := by
  rw [reserveBundle]
  split
  · refine ⟨_, pool, prepared, frees, rfl, h, ⟨.refl pool, fun d => Nat.le_refl _, fun _ d => rfl, fun hr => ?_⟩,
      fun _ => rfl, fun hr => ?_⟩
    · cases hr
    · cases hr
  · obtain ⟨reply, pool', prepared', frees', e, h', hreserved⟩ :=
      reserveLoop_spec [] descriptors h fun d => by rw [demand_nil, Nat.add_zero]
    have hrest : pool' = { pool with storage := pool'.storage } := hreserved.steady.rest
    have hremaining : pool'.remainingEpochs = pool.remainingEpochs := by rw [hrest]
    have hself : ({ pool' with remainingEpochs := pool.remainingEpochs } : ReportPool V) = pool' := by
      rw [← hremaining]
    rw [e, some_bind]
    match reply, hreserved with
    | .error request, hreserved =>
      refine ⟨_, pool', prepared', frees', rfl, h', by rw [hself]; exact hreserved, fun _ => hremaining,
        fun hr => by cases hr⟩
    | .ok false, hreserved =>
      refine ⟨_, pool', prepared', frees', rfl, h', by rw [hself]; exact hreserved, fun _ => hremaining,
        fun hr => by cases hr⟩
    | .ok true, hreserved =>
      have hle : descriptors.length * 2 ≤ pool'.remainingEpochs := by omega
      simp only [checkedSub_eq hle, bind_some]
      refine ⟨_, _, prepared', frees', rfl, h'.congr rfl, ?_, fun hr => absurd rfl hr, fun _ => ?_⟩
      · rw [hself]
        exact hreserved
      · show pool.remainingEpochs = pool'.remainingEpochs - descriptors.length * 2 + descriptors.length * 2
        omega

/-- A reservation of records does not touch the storage. -/
theorem reserveRecords_frame [Inhabited V] {count : Nat} {prepared' : Prepared V} {reply : Reply Request Bool}
    (e : reserveRecords target pool count prepared = some (reply, pool', prepared')) :
    pool'.storage = pool.storage ∧ pool'.credits = pool.credits ∧ pool'.nextEpoch = pool.nextEpoch ∧
      pool'.remainingEpochs = pool.remainingEpochs ∧ prepared'.bytes = prepared.bytes := by
  rw [reserveRecords] at e
  split at e
  · cases e
    exact ⟨rfl, rfl, rfl, rfl, rfl⟩
  · obtain ⟨limit, -, e⟩ := bind_eq_some_iff.mp e
    split at e
    · cases e
      exact ⟨rfl, rfl, rfl, rfl, rfl⟩
    · simp only at e
      split at e
      · cases e
        exact ⟨rfl, rfl, rfl, rfl, rfl⟩
      · cases e
        exact ⟨rfl, rfl, rfl, rfl, rfl⟩
      · split at e
        · cases e
          exact ⟨rfl, rfl, rfl, rfl, rfl⟩
        · split at e
          · cases e
            exact ⟨rfl, rfl, rfl, rfl, rfl⟩
          · obtain ⟨installed, einstall, e⟩ := bind_eq_some_iff.mp e
            cases e
            obtain ⟨filled, -, einstall⟩ := bind_eq_some_iff.mp einstall
            obtain ⟨index, -, einstall⟩ := bind_eq_some_iff.mp einstall
            obtain ⟨index', -, einstall⟩ := bind_eq_some_iff.mp einstall
            cases einstall
            exact ⟨rfl, rfl, rfl, rfl, rfl⟩

/-! ## 4. Leases that are issued -/

section Issue

variable {descriptor : Descriptor} {lease : Lease} {state : State}

theorem setBusy_twice (busy : Nat → Nat → Option Slot) (i o : Nat) (x y : Option Slot) :
    setBusy (setBusy busy i o x) i o y = setBusy busy i o y := by
  funext i' o'
  rw [setBusy, setBusy, setBusy]
  split <;> rfl

/-- A lease is issued: a slot that was free is in use under the next epoch. -/
structure Issued (target : Target) (pool pool' : ReportPool V) (descriptor : Descriptor) (lease : Lease)
  (state : State) : Prop where
  domain : lease.domain = target.identity
  shape_ne : lease.shape ≠ 0
  slot_ne : lease.slot ≠ 0
  epoch : lease.epoch = pool.nextEpoch
  fresh : busyAt pool lease.shape lease.slot = none
  busy : busyAt pool' = setBusy (busyAt pool) lease.shape lease.slot (some ⟨pool.nextEpoch, state, lease.address⟩)
  descriptor : descriptorAt pool' lease.shape = some descriptor
  descriptors : ∀ i d, descriptorAt pool i = some d → descriptorAt pool' i = some d
  credits : ∀ d, creditAt pool' d = creditAt pool d
  nextEpoch : pool'.nextEpoch = pool.nextEpoch + 1

theorem descriptorAt_of_held {pos : Nat} (hi : (held pool.storage)[pos]? = some shape) :
    descriptorAt pool (pos + 1) = some shape.descriptor := by
  rw [descriptorAt, if_neg (Nat.succ_ne_zero pos), Nat.add_sub_cancel, hi]
  rfl

/-- **An admission of storage** issues a reserved lease, or leaves leases and credits alone. Only an
  exhausted counter of epochs stops it. -/
theorem admitLocked_spec {prepared : Prepared V} (h : StorageOk target pool frees prepared.bytes)
    (descriptor : Descriptor) :
    (admitLocked target pool descriptor prepared = none ∧ pool.remainingEpochs ≠ 0 ∧ pool.nextEpoch = u64Max) ∨
    ∃ reply pool' prepared' frees', admitLocked target pool descriptor prepared = some (reply, pool', prepared') ∧
      StorageOk target pool' frees' prepared'.bytes ∧
      (((∀ lease, reply = .ok lease → lease = emptyLease) ∧ Steady pool pool' ∧
          ∀ d, creditAt pool' d = creditAt pool d ∧ availableAt pool d ≤ availableAt pool' d) ∨
        ∃ lease, reply = .ok lease ∧ Issued target pool pool' descriptor lease .reserved ∧
          pool.remainingEpochs ≠ 0 ∧ pool' = { pool with
          storage := pool'.storage, nextEpoch := pool.nextEpoch + 1
          remainingEpochs := pool.remainingEpochs - 1 } ∧
        ∀ d, creditAt pool d ≤ availableAt pool' d ∨ availableAt pool d ≤ availableAt pool' d) := by
  rw [admitLocked]
  split
  · refine .inr ⟨_, pool, prepared, frees, rfl, h, .inl ⟨?_, .refl pool, fun d => ⟨rfl, Nat.le_refl _⟩⟩⟩
    intro lease hl
    cases hl
    rfl
  · rename_i hremaining
    obtain ⟨reply, pool₁, prepared₁, frees₁, e₁, h₁, hsteady₁, hcredit₁, hposition⟩ := register_spec h descriptor
    have hkeep₁ : ∀ d, creditAt pool₁ d = creditAt pool d ∧ availableAt pool d ≤ availableAt pool₁ d := fun d =>
      ⟨(hcredit₁ d).1, Nat.le_of_eq (hcredit₁ d).2.symm⟩
    rw [e₁, bind_eq_bind, bind_some]
    rcases reply with request | position
    · exact .inr ⟨_, pool₁, prepared₁, frees₁, rfl, h₁, .inl ⟨(fun lease hl => by cases hl), hsteady₁, hkeep₁⟩⟩
    rcases position with _ | position
    · refine .inr ⟨_, pool₁, prepared₁, frees₁, rfl, h₁, .inl ⟨fun lease hl => ?_, hsteady₁, hkeep₁⟩⟩
      cases hl
      rfl
    · obtain ⟨shape, hget, hd⟩ := hposition position rfl
      simp only [shapes_of_held hget, bind_eq_bind, bind_some, hget]
      split
      · refine .inr ⟨_, pool₁, prepared₁, frees₁, rfl, h₁, .inl ⟨fun lease hl => ?_, hsteady₁, hkeep₁⟩⟩
        cases hl
        rfl
      · obtain ⟨reply₂, shape₂, prepared₂, frees₂, e₂, h₂, hsteady₂, hd₂, hcredits₂, hle₂, hready₂⟩ :=
          growShape_spec h₁ hget (shape.credits + 1)
        have hheld := held_storeShape pool₁ position shape₂
        have hcredit₂ := credit_set h₁ h₂ hget hheld hd₂ hcredits₂
        have hget₂ : (held (storeShape pool₁ position shape₂).storage)[position]? = some shape₂ := by
          rw [hheld, List.getElem?_set_self (List.getElem_of_getElem? hget).1]
        have hsteady := hsteady₁.trans hsteady₂
        have hkeep₂ : ∀ d, creditAt (storeShape pool₁ position shape₂) d = creditAt pool d ∧
          availableAt pool d ≤ availableAt (storeShape pool₁ position shape₂) d := by
          intro d
          refine ⟨(hcredit₂ d).trans (hcredit₁ d).1, Nat.le_trans (hkeep₁ d).2 ?_⟩
          rw [available_set h₁ h₂ hget hheld hd₂]
          split
          · rename_i hdd
            rw [hdd, availableAt, h₁.shapeAt_eq hget]
            exact hle₂
          · exact Nat.le_refl _
        rw [e₂, bind_some]
        rcases reply₂ with request | ready
        · exact .inr ⟨_, _, prepared₂, frees₂, rfl, h₂, .inl ⟨(fun lease hl => by cases hl), hsteady, hkeep₂⟩⟩
        cases ready
        · refine .inr ⟨_, _, prepared₂, frees₂, rfl, h₂, .inl ⟨fun lease hl => ?_, hsteady, hkeep₂⟩⟩
          cases hl
          rfl
        · have hrest := hsteady.rest
          have hremaining₂ : (storeShape pool₁ position shape₂).remainingEpochs = pool.remainingEpochs := by
            rw [hrest]
          have hepoch₂ : (storeShape pool₁ position shape₂).nextEpoch = pool.nextEpoch := by rw [hrest]
          simp only [hremaining₂, checkedSub_eq (Nat.pos_of_ne_zero hremaining), bind_some]
          by_cases hepoch : pool.nextEpoch = u64Max
          · refine .inl ⟨?_, hremaining, hepoch⟩
            rw [reserveLease, if_pos (hepoch₂.trans hepoch)]
            rfl
          · have h₃ : StorageOk target { storeShape pool₁ position shape₂ with
              remainingEpochs := pool.remainingEpochs - 1 } frees₂ prepared₂.bytes := h₂.congr rfl
            have hpos : 0 < shape₂.available := Nat.lt_of_lt_of_le (Nat.succ_pos _) (hready₂ rfl)
            obtain ⟨ordinal, address, pool₄, frees₄, e₄, h₄, hordinal, haddress, hfresh, hwrote, hrest₄,
              havailable₄⟩ := reserveLease_spec h₃ hget₂ (fun he => hepoch (hepoch₂.symm.trans he)) hpos
            have hbusy : busyAt { storeShape pool₁ position shape₂ with
              remainingEpochs := pool.remainingEpochs - 1 } = busyAt pool := hsteady.busy
            rw [e₄, bind_some]
            refine .inr ⟨_, pool₄, prepared₂, frees₄, rfl, h₄, .inr ⟨_, rfl, ⟨rfl, Nat.succ_ne_zero _,
              hordinal, hepoch₂, ?_, ?_, ?_, fun i d hi => ?_, fun d => ?_, ?_⟩, hremaining, ?_, fun d => ?_⟩⟩
            · rw [hbusy] at hfresh
              exact hfresh
            · rw [hwrote.busy, hbusy]
              exact congrArg (fun n => setBusy (busyAt pool) (position + 1) ordinal (some ⟨n, .reserved, address⟩))
                hepoch₂
            · rw [hwrote.descriptors]
              exact (descriptorAt_of_held hget₂).trans (congrArg some (hd₂.trans hd))
            · rw [hwrote.descriptors]
              exact hsteady.descriptors i d hi
            · rw [hwrote.credits]
              exact (hkeep₂ d).1
            · rw [hrest₄]
              exact congrArg (· + 1) hepoch₂
            · rw [hrest₄]
              rw [hrest]
            · rw [havailable₄ d]
              split
              · rename_i hdd
                refine .inl ?_
                have hfull : creditAt pool d = shape.credits := by
                  rw [← (hcredit₁ d).1, creditAt, hdd, hd₂, h₁.shapeAt_eq hget]
                  rfl
                have := hready₂ rfl
                omega
              · exact .inr (hkeep₂ d).2

theorem leasedAs_spec (h : StorageOk target pool frees bytes) (lease : Lease) (descriptor : Descriptor) :
    (∃ shape entry, leasedAs target pool lease descriptor = some (some (shape, entry)) ∧
       LeasedAt target pool lease shape entry ∧ shape.descriptor = descriptor) ∨
      leasedAs target pool lease descriptor = some none ∧
        ¬ (Live target pool lease ∧ descriptorAt pool lease.shape = some descriptor) := by
  rcases leased_spec h lease with ⟨shape, entry, e, hlease⟩ | ⟨e, hnot⟩
  · have hd : descriptorAt pool lease.shape = some shape.descriptor := by
      have := descriptorAt_of_held hlease.held
      rwa [Nat.sub_add_cancel (Nat.pos_of_ne_zero hlease.shape_ne)] at this
    by_cases hsame : shape.descriptor = descriptor
    · refine .inl ⟨shape, entry, ?_, hlease, hsame⟩
      rw [leasedAs, e, some_bind]
      exact if_pos (sameShape_iff.mpr hsame)
    · refine .inr ⟨?_, fun hboth => hsame ?_⟩
      · rw [leasedAs, e, some_bind]
        exact if_neg fun hs => hsame (sameShape_iff.mp hs)
      · rw [hd] at hboth
        exact Option.some.inj hboth.2
  · exact .inr ⟨by rw [leasedAs, e]; rfl, fun hboth => hnot hboth.1⟩

/-- **A claim** issues an active lease where its shape has a credit, a free slot and an epoch. -/
theorem claimValue_total (h : StorageOk target pool frees bytes) (hbytes : descriptor.bytes ≠ 0)
    (hcredit : creditAt pool descriptor ≠ 0) (havailable : 0 < availableAt pool descriptor)
    (hepoch : pool.nextEpoch ≠ u64Max) :
    ∃ lease pool' frees', claimValue target pool descriptor = some (lease, pool') ∧
      StorageOk target pool' frees' bytes ∧ Issued target pool pool' descriptor lease .active ∧
    pool' = { pool with storage := pool'.storage, nextEpoch := pool.nextEpoch + 1 } ∧
    ∀ d, availableAt pool' d = if d = descriptor then availableAt pool d - 1 else availableAt pool d := by
  rcases find_spec pool descriptor with ⟨-, hnone⟩ | ⟨pos, shape, hpos, hget, hd⟩
  · have hfind : shapeAt pool descriptor = none := find?_eq_none.mpr fun s hs => by simpa using hnone s hs
    rw [creditAt, hfind] at hcredit
    exact absurd rfl hcredit
  · have hshape : shapeAt pool descriptor = some shape := by rw [← hd, h.shapeAt_eq hget]
    have hcredits : shape.credits ≠ 0 := by
      rw [creditAt, hshape] at hcredit
      exact hcredit
    have hspace : availableAt pool descriptor = shape.available := by
      rw [availableAt, hshape]
      rfl
    obtain ⟨ordinal, address, pool₁, frees₁, e₁, h₁, hordinal, haddress, hfresh, hwrote, hrest₁, havailable₁⟩ :=
      reserveLease_spec h hget hepoch (hspace ▸ havailable)
    have hbusy₁ : busyAt pool₁ (pos + 1) ordinal = some ⟨pool.nextEpoch, .reserved, address⟩ := by
      rw [hwrote.busy, setBusy, if_pos ⟨rfl, rfl⟩]
    have hd₁ : descriptorAt pool₁ (pos + 1) = some descriptor := by
      rw [hwrote.descriptors, descriptorAt_of_held hget, hd]
    rcases leasedAs_spec h₁ ⟨target.identity, pos + 1, ordinal, pool.nextEpoch, address⟩ descriptor with
      ⟨shape₁, entry₁, eleased, hlease₁, -⟩ | ⟨-, hnot⟩
    · have hentry : entry₁ = ⟨pool.nextEpoch, .reserved, address⟩ :=
        Option.some.inj (hlease₁.busyAt_eq.symm.trans hbusy₁)
      subst hentry
      have hactive : State.active.isFree = false := rfl
      obtain ⟨frees₂, h₂, hwrote₂, havailable₂⟩ := storeLeased_spec h₁ hlease₁ hactive
      refine ⟨⟨target.identity, pos + 1, ordinal, pool.nextEpoch, address⟩, _, frees₂, ?_, h₂,
        ⟨rfl, Nat.succ_ne_zero _, hordinal, rfl, hfresh, ?_, ?_, fun i d hi => ?_, fun d => ?_, ?_⟩, ?_, fun d => ?_⟩
      · simp [claimValue, if_neg hbytes, hpos, shapes_of_held hget, some_bind, hget, if_neg hcredits, e₁,
          activateValue, eleased, if_neg haddress]
      · rw [hwrote₂.busy, hwrote.busy, setBusy_twice]
      · rw [hwrote₂.descriptors, hd₁]
      · rw [hwrote₂.descriptors, hwrote.descriptors]
        exact hi
      · rw [hwrote₂.credits, hwrote.credits]
      · show pool₁.nextEpoch = _
        rw [hrest₁]
      · rw [hrest₁]
        rfl
      · rw [havailable₂, havailable₁, hd]
        split
        · rename_i hdd
          rw [hdd, hspace]
        · rfl
    · exact absurd ⟨⟨rfl, _, hbusy₁, rfl, rfl⟩, hd₁⟩ hnot

/-- Where a claim returns a lease, it had one to issue. -/
theorem claimValue_some (h : StorageOk target pool frees bytes) (hbytes : descriptor.bytes ≠ 0)
    {r : Lease × ReportPool V} (e : claimValue target pool descriptor = some r) :
    creditAt pool descriptor ≠ 0 ∧ 0 < availableAt pool descriptor ∧ pool.nextEpoch ≠ u64Max := by
  rw [claimValue, if_neg hbytes] at e
  rcases find_spec pool descriptor with ⟨hzero, -⟩ | ⟨pos, shape, hpos, hget, hd⟩
  · rw [if_pos hzero] at e
    cases e
  · have hshape : shapeAt pool descriptor = some shape := by rw [← hd, h.shapeAt_eq hget]
    simp only [hpos, if_neg (Nat.succ_ne_zero pos), shapes_of_held hget, some_bind, Nat.add_sub_cancel, hget] at e
    split at e
    · cases e
    · rename_i hcredits
      obtain ⟨r₁, e₁, -⟩ := bind_eq_some_iff.mp e
      obtain ⟨pos', shape', hpos', hget', hepoch, havailable⟩ := reserveLease_some h e₁
      have hp : pos = pos' := by omega
      subst hp
      rw [hget] at hget'
      cases hget'
      rw [creditAt, availableAt, hshape]
      exact ⟨hcredits, havailable, hepoch⟩

end Issue

/-! ## 5. Admission and discharge of a bundle -/

/-- What an attempt to admit a bundle does. `grown` is the pool after the records were reserved. -/
structure Attempt (pool grown pool' : ReportPool V) (bundle : Bundle) (reply : Reply Request Bool) : Prop where
  busy : busyAt pool' = busyAt pool
  descriptors : ∀ i d, descriptorAt pool i = some d → descriptorAt pool' i = some d
  available : ∀ d, availableAt pool d ≤ availableAt pool' d
  nextEpoch : pool'.nextEpoch = pool.nextEpoch
  rest : pool' = { grown with
    storage := pool'.storage, credits := pool'.credits, remainingEpochs := pool'.remainingEpochs }
  refused : reply ≠ .ok true → pool'.credits = pool.credits ∧ pool'.remainingEpochs = pool.remainingEpochs ∧
    ∀ d, creditAt pool' d = creditAt pool d
  accepted : reply = .ok true → pool'.credits = pool.credits + bundle.records ∧
    pool.remainingEpochs = pool'.remainingEpochs + bundle.descriptors.length * 2 ∧
    ∀ d, creditAt pool' d = creditAt pool d + demand bundle.descriptors d ∧
      (creditAt pool' d = creditAt pool d ∨ creditAt pool' d ≤ availableAt pool' d)

/-- Nothing but the slabs of the records has grown. -/
theorem Attempt.of_grown {grown : ReportPool V} {bundle : Bundle} {reply : Reply Request Bool}
    (hstorage : grown.storage = pool.storage) (hcredits : grown.credits = pool.credits)
    (hnext : grown.nextEpoch = pool.nextEpoch) (hremaining : grown.remainingEpochs = pool.remainingEpochs)
    (hreply : reply ≠ .ok true) : Attempt pool grown grown bundle reply := by
  have hheld : held grown.storage = held pool.storage := congrArg held hstorage
  refine ⟨busyAt_congr hheld, fun i d hd => ?_, fun d => ?_, hnext, rfl, fun _ => ⟨hcredits, hremaining, fun d => ?_⟩,
    fun hr => absurd hr hreply⟩
  · rw [descriptorAt, hheld]
    exact hd
  · rw [availableAt, availableAt, shapeAt, shapeAt, hheld]
  · rw [creditAt, creditAt, shapeAt, shapeAt, hheld]

/-- **An attempt to admit a bundle** stops only where the reservation of its records does. -/
theorem acceptLocked_spec [Inhabited V] (h : StorageOk target pool frees prepared.bytes) (bundle : Bundle) :
    (acceptLocked target pool bundle prepared = none ∧
      reserveRecords target pool (pool.credits + bundle.records) prepared = none) ∨
    ∃ reply grown pool' prepared' frees', acceptLocked target pool bundle prepared = some (reply, pool', prepared') ∧
      StorageOk target pool' frees' prepared'.bytes ∧ Attempt pool grown pool' bundle reply ∧
      ((grown = pool ∧ reply ≠ .ok true) ∨ ∃ ready prepared₁,
        reserveRecords target pool (pool.credits + bundle.records) prepared = some (ready, grown, prepared₁) ∧
          (reply = .ok true → ready = .ok true)) := by
  rw [acceptLocked]
  split
  · exact .inr ⟨_, pool, pool, prepared, frees, rfl, h, .of_grown rfl rfl rfl rfl (fun e => by cases e),
      .inl ⟨rfl, fun e => by cases e⟩⟩
  · cases ereserve : reserveRecords target pool (pool.credits + bundle.records) prepared with
    | none => exact .inl ⟨rfl, rfl⟩
    | some found =>
      obtain ⟨ready, grown, prepared₁⟩ := found
      obtain ⟨hstorage, hcredits, hnext, hremaining, hbytes⟩ := reserveRecords_frame ereserve
      have hgrown : StorageOk target grown frees prepared₁.bytes := by
        rw [hbytes]
        exact h.congr hstorage
      have hheld : held grown.storage = held pool.storage := congrArg held hstorage
      rw [some_bind]
      refine .inr ?_
      rcases ready with request | ready
      · exact ⟨_, grown, grown, prepared₁, frees, rfl, hgrown,
          .of_grown hstorage hcredits hnext hremaining (fun e => by cases e),
          .inr ⟨_, _, rfl, fun e => by cases e⟩⟩
      cases ready
      · exact ⟨_, grown, grown, prepared₁, frees, rfl, hgrown,
          .of_grown hstorage hcredits hnext hremaining (fun e => by cases e),
          .inr ⟨_, _, rfl, fun e => by cases e⟩⟩
      · obtain ⟨reply, pool₂, prepared₂, frees₂, e₂, h₂, hreserved, hrefused, haccepted⟩ :=
          reserveBundle_spec hgrown bundle.descriptors
        have hrest : ({ pool₂ with remainingEpochs := grown.remainingEpochs } : ReportPool V) =
          { grown with storage := pool₂.storage } := hreserved.steady.rest
        have hpool₂ : pool₂ = { grown with
          storage := pool₂.storage, remainingEpochs := pool₂.remainingEpochs } := by
          cases pool₂
          simp only [ReportPool.mk.injEq] at hrest ⊢
          tauto
        have hcredits₂ : pool₂.credits = pool.credits := by rw [hpool₂]; exact hcredits
        have hnext₂ : pool₂.nextEpoch = pool.nextEpoch := by rw [hpool₂]; exact hnext
        have hbusy₂ : busyAt pool₂ = busyAt pool := hreserved.steady.busy.trans (busyAt_congr hheld)
        have hdescriptors₂ : ∀ i d, descriptorAt pool i = some d → descriptorAt pool₂ i = some d := by
          intro i d hd
          refine hreserved.steady.descriptors i d ?_
          rw [descriptorAt, hheld]
          exact hd
        have hcreditAt : ∀ d, creditAt grown d = creditAt pool d := by
          intro d
          rw [creditAt, creditAt, shapeAt, shapeAt, hheld]
        have havailable₂ : ∀ d, availableAt pool d ≤ availableAt pool₂ d := by
          intro d
          have hle := hreserved.available d
          rw [availableAt, shapeAt, hheld] at hle
          exact hle
        -- a refusal after the records were reserved
        have hback : reply ≠ .ok true → Attempt pool grown pool₂ bundle reply := by
          intro hr
          refine ⟨hbusy₂, hdescriptors₂, havailable₂, hnext₂, ?_, fun _ => ⟨hcredits₂, ?_, fun d => ?_⟩,
            fun he => absurd he hr⟩
          · rw [hcredits₂, ← hcredits]
            exact hpool₂
          · rw [hrefused hr, hremaining]
          · exact (hreserved.refused hr d).trans (hcreditAt d)
        simp only [e₂, bind_some]
        rcases reply with request | reply
        · exact ⟨_, grown, pool₂, prepared₂, frees₂, rfl, h₂, hback (fun e => by cases e),
            .inr ⟨_, _, rfl, fun e => by cases e⟩⟩
        cases reply
        · exact ⟨_, grown, pool₂, prepared₂, frees₂, rfl, h₂, hback (fun e => by cases e),
            .inr ⟨_, _, rfl, fun e => by cases e⟩⟩
        · refine ⟨_, grown, _, prepared₂, frees₂, rfl, h₂.congr rfl, ⟨hbusy₂, hdescriptors₂, havailable₂,
            hnext₂, ?_, fun hr => absurd rfl hr, fun _ => ⟨?_, ?_, fun d => ?_⟩⟩,
            .inr ⟨_, _, rfl, fun _ => rfl⟩⟩
          · rw [hpool₂]
          · rw [hcredits₂]
          · rw [← hremaining]
            exact haccepted rfl
          · obtain ⟨hcredit, hspace⟩ := hreserved.accepted rfl d
            rw [hcreditAt d] at hcredit hspace
            exact ⟨hcredit, hspace⟩

/-- **A bundle is discharged**, where the process does not stop. -/
theorem discharge_some {bundle : Bundle} (h : StorageOk target pool frees bytes) (e : discharge pool bundle = some pool') :
    ∃ frees', StorageOk target pool' frees' bytes ∧ busyAt pool' = busyAt pool ∧
      (∀ i d, descriptorAt pool i = some d → descriptorAt pool' i = some d) ∧
    pool' = { pool with storage := pool'.storage, credits := pool'.credits } ∧
    pool.credits = pool'.credits + bundle.records ∧
    ∀ d, creditAt pool d = creditAt pool' d + demand bundle.descriptors d ∧ availableAt pool' d = availableAt pool d := by
  rw [discharge] at e
  split at e
  · cases e
  · obtain ⟨pool₁, e₁, e⟩ := bind_eq_some_iff.mp e
    obtain ⟨credits, hsub, e⟩ := bind_eq_some_iff.mp e
    cases e
    obtain ⟨hle, rfl⟩ := checkedSub_some hsub
    obtain ⟨frees', h', hsteady, hcredit⟩ := dischargeBundle_some h e₁
    have hrest := hsteady.rest
    have hcredits : pool₁.credits = pool.credits := by rw [hrest]
    refine ⟨frees', h'.congr rfl, hsteady.busy, hsteady.descriptors, ?_, ?_, hcredit⟩
    · rw [hrest]
    · show pool.credits = pool₁.credits - bundle.records + bundle.records
      omega

theorem discharge_total {bundle : Bundle} (h : StorageOk target pool frees bytes) (hrecords : bundle.records ≤ pool.credits)
    (hcredit : ∀ d, demand bundle.descriptors d ≤ creditAt pool d) : ∃ pool', discharge pool bundle = some pool' := by
  obtain ⟨pool₁, e₁⟩ := dischargeBundle_total h hcredit
  obtain ⟨-, -, hsteady, -⟩ := dischargeBundle_some h e₁
  have hle : bundle.records ≤ pool₁.credits := by
    rw [hsteady.rest]
    exact hrecords
  rw [discharge, if_neg (Nat.not_lt.mpr hrecords), e₁, some_bind, checkedSub_eq hle]
  exact ⟨_, rfl⟩

end Bray.Pool
