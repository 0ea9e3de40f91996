/-
  File:      Bray/Scheduler/Ready.lean
  Subject:   THE READY REGISTRATIONS, read off a state by following its links.

  `State.ready` is computable: it walks the list of active headers and the list of each header.
  In a healthy system the walk spells the rota of the board, with every cell under the token it
  holds (`ready_eq`); statements about what is ready are made of it.
-/
import Bray.Scheduler.Tokens

namespace Bray.Scheduler

open Bray.Lib

/-- The ready registrations, lane by lane in the order of their turns. -/
def State.ready (s : State) : Rota Lane Nat :=
  (walk s.qnext s.queueCount s.head).map fun q =>
    ((s.header q).lane, (walk s.rnext s.entryCount (s.header q).head).map fun e => token (s.row e).generation e)

def Board.registrations (b : Board) : Rota Lane Nat := b.ready.rename b.registration

theorem Laid.ready_eq {s : State} {v : View} (h : Laid s v) : s.ready = (board s v).registrations := by
  unfold State.ready Board.registrations Rota.rename
  rw [h.lanes.chain.walk_eq h.active_le]
  show _ = List.map _ (List.map _ v.active)
  rw [List.map_map]
  refine List.map_congr_left fun q hq => ?_
  have hle : (v.members q).length ≤ s.entryCount :=
    length_le_of_nodup (h.queues q hq).nodup fun e he => (h.own q hq e he).1
  rw [(h.queues q hq).chain.walk_eq hle]
  rfl

theorem Healthy.ready_eq {sys : System} {b : Board} (h : Healthy sys b) :
    sys.domain.state.ready = b.registrations := by
  obtain ⟨⟨v, hL, rfl⟩, _⟩ := h.sound
  exact hL.ready_eq

namespace Board

variable {limit : Nat} {b : Board}

theorem Ok.item_le (h : Ok limit b) {i : Nat} (hi : i ∈ b.ready.items) : i ≤ u32Max := by
  obtain ⟨k, hk⟩ := Rota.exists_queue h.rota.keys hi
  have hc : b.Cell i := h.cell_of_phase (by rw [((h.queued i k).mp hk).1]; decide)
  exact hc.2.trans h.count

/-- **Every registration has at most one ready entry.** -/
theorem Ok.registrations_nodup (h : Ok limit b) : b.registrations.items.Nodup := by
  unfold registrations
  rw [Rota.items_rename]
  exact List.Nodup.map_on (fun i hi j hj e => registration_inj (h.item_le hi) (h.item_le hj) e)
    h.rota.items

theorem Ok.mem_registrations (h : Ok limit b) {r : UInt64} {i : Nat} (hl : b.Live r i) (k : Lane) :
    r.toNat ∈ b.registrations.queue k ↔ (b.cell i).phase = 1 ∧ (b.cell i).lane = k := by
  unfold registrations
  rw [Rota.queue_rename, hl.token, List.mem_map]
  constructor
  · rintro ⟨j, hj, e⟩
    obtain rfl : j = i := registration_inj (h.item_le (Rota.mem_items_of_queue hj))
      (hl.1.2.trans h.count) e
    exact (h.queued j k).mp hj
  · exact fun hp => ⟨i, (h.queued i k).mpr hp, rfl⟩

end Board

end Bray.Scheduler
