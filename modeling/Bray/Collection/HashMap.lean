/-
  File:      Bray/Collection/HashMap.lean
  Subject:   THE HASH MAP (std/collection/hash_map.bray) and what it refines: a finite map with a number
    of buckets, for every hash that is consistent with the equality of keys.

  A reference to an entry is modelled by the entry; what a caller writes through a mutable reference
  is a function on the value. A cursor is asked for its next entry a number of times, also past its
  end. An entry handle is modelled by what is done with it.
-/
import Bray.Collection.HashCells
import Bray.Lib.FiniteMap
import Bray.Lib.Run

namespace Bray.Collection

open Bray.Lib List Probe HashTable

variable {K V : Type}

/-- Keys with an equality and a hash (`stable_hash`, a `u128`) that agree. -/
structure HashKeys (K : Type) extends Equality K where
  hash : K → Nat
  consistent : ∀ a b, equals a b = true → hash a = hash b

/-! ## 1. The map -/

/-- A key and a value. -/
abbrev MapItem (K V : Type) := K × V

structure HashMap (K V : Type) where
  table : HashTable (MapItem K V)

inductive Entry (K : Type) where
  | occupied (index : Nat)
  | vacant (pendingKey : K) (hash : Nat)

namespace HashMap

def construct (target : HashTarget) (capacity : Nat) : Except MemoryLayoutError (HashMap K V) := do
  let table ← HashTable.construct target.toTarget capacity
  .ok ⟨table⟩

def length (map : HashMap K V) : Nat := map.table.count

def capacity (map : HashMap K V) : Nat := map.table.capacity

def isEmpty (map : HashMap K V) : Bool := map.table.count == 0

variable (target : HashTarget) (keys : HashKeys K)

/-- `hash_table_fingerprint` of the hash of a key. -/
def fingerprint (key : K) : Nat := target.fingerprint (keys.hash key)

/-- The loop of `find` -/
def findLoop (map : HashMap K V) (key : K) (hash : Nat) :
  Nat → Option Nat → Except Panic (Option Nat)
  | 0, _ => .error .endless
  | turns + 1, previous => do
    match ← findHash target map.table previous hash with
    | none => .ok none
    | some index => do
      let item ← Slot.get map.table.items index
      if keys.equals item.1 key then .ok (some index)
      else findLoop map key hash turns (some index)

def find (map : HashMap K V) (key : K) (hash : Nat) : Except Panic (Option Nat) :=
  map.findLoop target keys key hash (map.table.buckets.length + 1) none

def reserve (map : HashMap K V) (additional : Nat) :
  Except Panic (HashMap K V × Except MemoryLayoutError Unit) := do
  let (table, reserved) ← HashTable.reserve target map.table additional
  .ok (⟨table⟩, reserved)

def get (map : HashMap K V) (key : K) : Except Panic (Option V) := do
  match ← map.find target keys key (fingerprint target keys key) with
  | none => .ok none
  | some index => do
    let item ← Slot.get map.table.items index
    .ok (some item.2)

/-- A value is changed in its slot; the value as it was. -/
def changeAt (map : HashMap K V) (index : Nat) (f : V → V) : Except Panic (HashMap K V × V) := do
  let (item, items) ← Slot.update map.table.items index fun item => (item.1, f item.2)
  .ok (⟨{ map.table with items := items }⟩, item.2)

/-- `get_mut`, and what is written through the reference. -/
def getMut (map : HashMap K V) (key : K) (f : V → V) : Except Panic (HashMap K V × Option V) := do
  match ← map.find target keys key (fingerprint target keys key) with
  | none => .ok (map, none)
  | some index => do
    let (map, value) ← map.changeAt index f
    .ok (map, some value)

def containsKey (map : HashMap K V) (key : K) : Except Panic Bool := do
  let found ← map.find target keys key (fingerprint target keys key)
  .ok found.isSome

def insert (map : HashMap K V) (key : K) (value : V) :
  Except Panic (HashMap K V × Except MemoryLayoutError (Option V)) := do
  let hash := fingerprint target keys key
  match ← map.find target keys key hash with
  | some index => do
    let (map, previous) ← map.changeAt index fun _ => value
    .ok (map, .ok (some previous))
  | none => do
    let (map, reserved) ← map.reserve target 1
    match reserved with
    | .error e => .ok (map, .error e)
    | .ok () => do
      let (table, _) ← insertAvailable target map.table (key, value) hash
      .ok (⟨table⟩, .ok none)

def removeEntry (map : HashMap K V) (key : K) : Except Panic (HashMap K V × Option (K × V)) := do
  match ← map.find target keys key (fingerprint target keys key) with
  | none => .ok (map, none)
  | some index => do
    let (table, item) ← removeAt target map.table index
    .ok (⟨table⟩, some (item.1, item.2))

def remove (map : HashMap K V) (key : K) : Except Panic (HashMap K V × Option V) := do
  let (map, entry) ← map.removeEntry target keys key
  .ok (map, entry.map Prod.snd)

def clear (map : HashMap K V) : Except Panic (HashMap K V) := do
  let table ← HashTable.clear target map.table
  .ok ⟨table⟩

/-! ## 2. Entries -/

def entry (map : HashMap K V) (key : K) :
  Except Panic (HashMap K V × Except MemoryLayoutError (Entry K)) := do
  let hash := fingerprint target keys key
  match ← map.find target keys key hash with
  | some index => .ok (map, .ok (.occupied index))
  | none => do
    let (map, reserved) ← map.reserve target 1
    match reserved with
    | .error e => .ok (map, .error e)
    | .ok () => .ok (map, .ok (.vacant key hash))

/-- `get_mut` and `insert` of an occupied entry, one after the other; the values they found. -/
def changeCalls : List (V → V) → HashMap K V → Nat → Except Panic (HashMap K V × List V)
  | [], map, _ => .ok (map, [])
  | f :: fs, map, index => do
    let (map, value) ← map.changeAt index f
    let (map, values) ← changeCalls fs map index
    .ok (map, value :: values)

/-- `remove` of an occupied entry, or not. -/
def dropEntry (map : HashMap K V) (index : Nat) :
  Bool → Except Panic (HashMap K V × Option (K × V))
  | false => .ok (map, none)
  | true => do
    let (table, item) ← removeAt target map.table index
    .ok (⟨table⟩, some (item.1, item.2))

/-- `insert` of a vacant entry, and what is written through the reference it returns. -/
def insertVacant (map : HashMap K V) (pendingKey : K) (hash : Nat) (value : V) (f : V → V) :
  Except Panic (HashMap K V × V) := do
  let (table, index) ← insertAvailable target map.table (pendingKey, value) hash
  changeAt ⟨table⟩ index f

/-- `or_insert`, `or_insert_with` and what is written through the reference they return. -/
def orInsert (map : HashMap K V) (key : K) (default : V) (f : V → V) :
  Except Panic (HashMap K V × Except MemoryLayoutError V) := do
  let (map, result) ← map.entry target keys key
  match result with
  | .error e => .ok (map, .error e)
  | .ok (.occupied index) => do
    let (map, value) ← map.changeAt index f
    .ok (map, .ok value)
  | .ok (.vacant pendingKey hash) => do
    let (map, value) ← map.insertVacant target pendingKey hash default f
    .ok (map, .ok value)

/-! ## 3. Cursors -/

/-- The loop of `HashMapReadCursor.next` -/
def readNext (map : HashMap K V) : Nat → Nat → Except Panic (Nat × Option (K × V))
  | 0, index => .ok (index, none)
  | left + 1, index => do
    if ← occupiedAt target map.table.buckets index then
      let item ← Slot.get map.table.items index
      .ok (index + 1, some (item.1, item.2))
    else map.readNext left (index + 1)

def readCalls (map : HashMap K V) : Nat → Nat → Except Panic (List (Option (K × V)))
  | 0, _ => .ok []
  | calls + 1, index => do
    let (index, entry) ← map.readNext target (map.table.buckets.length - index) index
    let rest ← map.readCalls calls index
    .ok (entry :: rest)

/-- The loop of `HashMapWriteCursor.next`, and what is written through the reference. -/
def writeNext (map : HashMap K V) (f : V → V) :
  Nat → Nat → Except Panic (HashMap K V × Nat × Option (K × V))
  | 0, index => .ok (map, index, none)
  | left + 1, index => do
    if ← occupiedAt target map.table.buckets index then
      let (item, items) ← Slot.update map.table.items index fun item => (item.1, f item.2)
      .ok (⟨{ map.table with items := items }⟩, index + 1, some (item.1, item.2))
    else map.writeNext f left (index + 1)

def writeCalls : List (V → V) → HashMap K V → Nat → Except Panic (HashMap K V × List (Option (K × V)))
  | [], map, _ => .ok (map, [])
  | f :: fs, map, index => do
    let (map, index, entry) ← map.writeNext target f (map.table.buckets.length - index) index
    let (map, rest) ← writeCalls fs map index
    .ok (map, entry :: rest)

/-- The loop of `HashMapMoveCursor.next` -/
def moveNext (map : HashMap K V) : Nat → Nat → Except Panic (HashMap K V × Nat × Option (K × V))
  | 0, index => .ok (map, index, none)
  | left + 1, index => do
    if ← occupiedAt target map.table.buckets index then
      let (table, item) ← map.table.take index
      .ok (⟨{ table with count := table.count - 1 }⟩, index + 1, some (item.1, item.2))
    else map.moveNext left (index + 1)

def moveCalls : Nat → HashMap K V → Nat → Except Panic (HashMap K V × List (Option (K × V)))
  | 0, map, _ => .ok (map, [])
  | calls + 1, map, index => do
    let (map, index, entry) ← map.moveNext target (map.table.buckets.length - index) index
    let (map, rest) ← moveCalls calls map index
    .ok (map, entry :: rest)

end HashMap

/-! ## 4. What the map is for -/

/-- What is done with an entry: the changes made to the value of an occupied one, whether it is then
  removed, and the value that is put into a vacant one. -/
structure EntryUse (V : Type) where
  changes : List (V → V)
  remove : Bool
  vacant : Option V

inductive HashOp (K V : Type) where
  | length
  | capacity
  | isEmpty
  | reserve (additional : Nat)
  | get (key : K)
  | getMut (key : K) (f : V → V)
  | containsKey (key : K)
  | insert (key : K) (value : V)
  | remove (key : K)
  | removeEntry (key : K)
  | entry (key : K) (use : EntryUse V)
  | orInsert (key : K) (default : V) (f : V → V)
  | read (calls : Nat)
  | write (fs : List (V → V))
  | clear

inductive HashAnswer (K V : Type) where
  | done
  | count (n : Nat)
  | flag (b : Bool)
  | value (found : Option V)
  | entry (found : Option (K × V))
  | entries (yielded : List (Option (K × V)))
  | reserved (result : Except MemoryLayoutError Unit)
  | inserted (result : Except MemoryLayoutError (Option V))
  | referred (result : Except MemoryLayoutError V)
  | occupied (seen : List V) (removed : Option (K × V))
  | vacant
  | failed (e : MemoryLayoutError)

/-- The values that changes find, and the value they leave. -/
def changed : List (V → V) → V → List V × V
  | [], v => ([], v)
  | f :: fs, v => (v :: (changed fs (f v)).1, (changed fs (f v)).2)

/-- **A finite map with a number of buckets.** -/
structure HashModel (eq : Equality K) (V : Type) where
  map : FiniteMap eq V
  buckets : Nat

namespace HashModel

variable {eq : Equality K}

/-- The number of buckets after room for one more entry is asked for. -/
def grown (target : Target) (a : HashModel eq V) (additional : Nat) : Except MemoryLayoutError Nat :=
  grownBuckets target a.map.entries.length a.buckets additional

/-- Room was asked for: there is some, or the map is unchanged. -/
def Reserves (target : Target) (a : HashModel eq V) (additional : Nat) (a' : HashModel eq V) :
  Except MemoryLayoutError Unit → Prop
  | .error e => a.grown target additional = .error e ∧ a' = a
  | .ok () => ∃ n, a.grown target additional = .ok n ∧ a' = { a with buckets := n }

/-- The model with one more key. -/
def Adds (a : HashModel eq V) (key : K) (value : V) (a' : HashModel eq V) : Prop :=
  ∃ h : a.map.entryOf key = none, a' = { a with map := a.map.add key value h }

/-- **What the operations answer**, and what they do. The order of an iteration is not determined. -/
def Answers (target : Target) (a : HashModel eq V) :
  HashOp K V → HashAnswer K V → HashModel eq V → Prop
  | .length, answer, a' => answer = .count a.map.entries.length ∧ a' = a
  | .capacity, answer, a' => answer = .count (bucketCapacity a.buckets) ∧ a' = a
  | .isEmpty, answer, a' => answer = .flag a.map.entries.isEmpty ∧ a' = a
  | .reserve additional, answer, a' =>
    ∃ result, answer = .reserved result ∧ a.Reserves target additional a' result
  | .get key, answer, a' => answer = .value (a.map.get? key) ∧ a' = a
  | .getMut key f, answer, a' =>
    answer = .value (a.map.get? key) ∧ a' = { a with map := a.map.modify key f }
  | .containsKey key, answer, a' => answer = .flag (a.map.entryOf key).isSome ∧ a' = a
  | .insert key value, answer, a' =>
    match a.map.get? key with
    | some old => answer = .inserted (.ok (some old)) ∧
      a' = { a with map := a.map.modify key fun _ => value }
    | none => (∃ e, answer = .inserted (.error e) ∧ a.Reserves target 1 a' (.error e)) ∨
      ∃ a₁, answer = .inserted (.ok none) ∧ a.Reserves target 1 a₁ (.ok ()) ∧ a₁.Adds key value a'
  | .remove key, answer, a' =>
    answer = .value (a.map.get? key) ∧ a' = { a with map := a.map.erase key }
  | .removeEntry key, answer, a' =>
    answer = .entry (a.map.entryOf key) ∧ a' = { a with map := a.map.erase key }
  | .entry key use, answer, a' =>
    match a.map.entryOf key with
    | some e =>
      if use.remove then
        answer = .occupied (changed use.changes e.2).1 (some (e.1, (changed use.changes e.2).2)) ∧
          a' = { a with map := a.map.erase key }
      else
        answer = .occupied (changed use.changes e.2).1 none ∧
          a' = { a with map := a.map.modify key fun _ => (changed use.changes e.2).2 }
    | none => (∃ e, answer = .failed e ∧ a.Reserves target 1 a' (.error e)) ∨
      ∃ a₁, answer = .vacant ∧ a.Reserves target 1 a₁ (.ok ()) ∧
        match use.vacant with
        | some value => a₁.Adds key value a'
        | none => a' = a₁
  | .orInsert key default f, answer, a' =>
    match a.map.get? key with
    | some old => answer = .referred (.ok old) ∧ a' = { a with map := a.map.modify key f }
    | none => (∃ e, answer = .referred (.error e) ∧ a.Reserves target 1 a' (.error e)) ∨
      ∃ a₁, answer = .referred (.ok default) ∧ a.Reserves target 1 a₁ (.ok ()) ∧ a₁.Adds key (f default) a'
  | .read calls, answer, a' =>
    ∃ order, order.Perm a.map.entries ∧ answer = .entries (yields calls order) ∧ a' = a
  | .write fs, answer, a' =>
    ∃ order, order.Perm a.map.entries ∧ answer = .entries (yields fs.length order) ∧
      a'.map.entries = writeEntries fs order ∧ a'.buckets = a.buckets
  | .clear, answer, a' => answer = .done ∧ a' = { a with map := .empty eq V }

end HashModel

namespace HashMap

/-- What is done with an entry. -/
def useEntry (target : HashTarget) (map : HashMap K V) (use : EntryUse V) :
  Entry K → Except Panic (HashMap K V × HashAnswer K V)
  | .occupied index => do
    let (map, seen) ← changeCalls use.changes map index
    let (map, removed) ← map.dropEntry target index use.remove
    .ok (map, .occupied seen removed)
  | .vacant pendingKey hash => match use.vacant with
    | none => .ok (map, .vacant)
    | some value => do
      let (map, _) ← map.insertVacant target pendingKey hash value id
      .ok (map, .vacant)

def step (target : HashTarget) (keys : HashKeys K) (map : HashMap K V) :
  HashOp K V → Except Panic (HashMap K V × HashAnswer K V)
  | .length => .ok (map, .count map.length)
  | .capacity => .ok (map, .count map.capacity)
  | .isEmpty => .ok (map, .flag map.isEmpty)
  | .reserve additional => do
    let (map, result) ← map.reserve target additional
    .ok (map, .reserved result)
  | .get key => do
    let found ← map.get target keys key
    .ok (map, .value found)
  | .getMut key f => do
    let (map, found) ← map.getMut target keys key f
    .ok (map, .value found)
  | .containsKey key => do
    let found ← map.containsKey target keys key
    .ok (map, .flag found)
  | .insert key value => do
    let (map, result) ← map.insert target keys key value
    .ok (map, .inserted result)
  | .remove key => do
    let (map, found) ← map.remove target keys key
    .ok (map, .value found)
  | .removeEntry key => do
    let (map, found) ← map.removeEntry target keys key
    .ok (map, .entry found)
  | .entry key use => do
    let (map, result) ← map.entry target keys key
    match result with
    | .error e => .ok (map, .failed e)
    | .ok entry => map.useEntry target use entry
  | .orInsert key default f => do
    let (map, result) ← map.orInsert target keys key default f
    .ok (map, .referred result)
  | .read calls => do
    let yielded ← map.readCalls target calls 0
    .ok (map, .entries yielded)
  | .write fs => do
    let (map, yielded) ← writeCalls target fs map 0
    .ok (map, .entries yielded)
  | .clear => do
    let map ← map.clear target
    .ok (map, .done)

/-! ## 5. Search -/

section Find

variable {target : HashTarget} {keys : HashKeys K} {map : HashMap K V} {cells : Cells (MapItem K V)}
  {key : K}

/-- Every entry is stored with the retained bits of its hash. -/
def Tagged (target : HashTarget) (keys : HashKeys K) (cells : Cells (MapItem K V)) : Prop :=
  ∀ b ∈ stored cells, b.1 = fingerprint target keys b.2.1

/-- The cells before one, on the way from a home, do not hold the key. -/
def Passed (keys : HashKeys K) (cells : Cells (MapItem K V)) (key : K) (hash start i : Nat) : Prop :=
  ∀ (j : Nat) (y : MapItem K V), distance cells.length start j < distance cells.length start i →
    cells[j]? = some (some (hash, y)) → keys.equals y.1 key = false

/-- What a search finds: a cell with the key, or that there is none. -/
def FindResult (target : HashTarget) (keys : HashKeys K) (cells : Cells (MapItem K V)) (key : K) :
  Option Nat → Prop
  | some i => ∃ x, cells[i]? = some (some (fingerprint target keys key, x)) ∧
    keys.equals x.1 key = true
  | none => ∀ b ∈ stored cells, keys.equals b.2.1 key = false

theorem findLoop_eq {turns e i : Nat} {previous : Option Nat} (ht : Table target map.table cells)
    (htag : Tagged target keys cells) (he : cells[e]? = some none) (hi : i < cells.length)
    (hway : Way cells (fingerprint target keys key % cells.length) i)
    (hpassed : Passed keys cells key (fingerprint target keys key) (fingerprint target keys key % cells.length) i)
    (hprobe : ∃ r, findHash target map.table previous (fingerprint target keys key) = .ok r ∧
      Probed cells (fingerprint target keys key) (fingerprint target keys key % cells.length) i r)
    (hturns : distance cells.length i e < turns) :
    ∃ result, map.findLoop target keys key (fingerprint target keys key) turns previous = .ok result ∧
      FindResult target keys cells key result := by
  have hel := (List.getElem_of_getElem? he).1
  have hs : fingerprint target keys key % cells.length < cells.length := Nat.mod_lt _ (by omega)
  induction turns generalizing i previous with
  | zero => omega
  | succ turns ih =>
    obtain ⟨r, er, hr⟩ := hprobe
    rw [findLoop, er, ok_bind]
    cases r with
    | none =>
      refine ⟨none, rfl, fun b hb => ?_⟩
      obtain ⟨k, hk, hkway, hmissed⟩ := hr
      obtain ⟨c, hc⟩ := mem_stored.mp hb
      cases heq : keys.equals b.2.1 key with
      | false => rfl
      | true =>
        -- an equal key has the same home, and the empty cell is not on its way
        exfalso
        have hhash : b.1 = fingerprint target keys key := by
          rw [htag b hb, fingerprint, keys.consistent b.2.1 key heq, fingerprint]
        have hcell : cells[c]? = some (some (fingerprint target keys key, b.2)) := by
          rw [hc, ← hhash]
        have hcl := (List.getElem_of_getElem? hc).1
        have hkl := (List.getElem_of_getElem? hk).1
        have hreach := ht.reached c _ hcell
        have hle : distance cells.length (fingerprint target keys key % cells.length) c <
          distance cells.length (fingerprint target keys key % cells.length) k := by
          refine Nat.lt_of_le_of_ne (Nat.le_of_not_lt fun hlt => ?_) fun hsame => ?_
          · exact (not_occupied_iff hkl).mpr hk (hreach k hkl hlt)
          · rw [distance_inj hs hcl hkl hsame, hk] at hcell
            cases hcell
        rcases Nat.lt_or_ge (distance cells.length _ c) (distance cells.length _ i)
          with hlt | hge
        · rw [hpassed c b.2 hlt hcell] at heq
          cases heq
        · exact hmissed c b.2 hge hle hcell
    | some k =>
      obtain ⟨⟨x, hx⟩, hkway, hik, hmissed⟩ := hr
      have hkl := (List.getElem_of_getElem? hx).1
      simp only
      rw [Slot.get_eq (ht.filled hx).2.1, ok_bind]
      cases heq : keys.equals x.1 key with
      | true => exact ⟨some k, rfl, x, hx, heq⟩
      | false =>
        have hocc : Occupied cells k := ⟨_, hx⟩
        obtain ⟨hway', hne, hdist⟩ := hkway.next hs hocc he
        have hstep := distance_next hs hkl hne
        have hke : distance cells.length (fingerprint target keys key % cells.length) k ≤
          distance cells.length (fingerprint target keys key % cells.length) e :=
          Nat.le_of_not_lt fun hlt => (not_occupied_iff hel).mpr he (hkway e hel hlt)
        have h₁ := distance_between hs hkl hel hke
        have h₂ := distance_between hs hi hel (hik.trans hke)
        refine ih (next_lt hkl) hway' ?_ (findHash_next ht.toHolds he hs hocc hkway) (by omega)
        intro j y hlt hj
        rw [hstep] at hlt
        rcases Nat.lt_or_ge (distance cells.length _ j) (distance cells.length _ i)
          with hji | hji
        · exact hpassed j y hji hj
        · rcases Nat.lt_or_eq_of_le (Nat.le_of_lt_succ hlt) with hjk | hjk
          · exact absurd hj (hmissed j y hji hjk)
          · rw [distance_inj hs (List.getElem_of_getElem? hj).1 hkl hjk, hx] at hj
            cases hj
            exact heq

/-- **A search** finds the entry of a key, if there is one. -/
theorem find_eq (ht : Table target map.table cells) (htag : Tagged target keys cells) (key : K) :
    ∃ result, map.find target keys key (fingerprint target keys key) = .ok result ∧
      FindResult target keys cells key result := by
  rcases Nat.eq_zero_or_pos cells.length with hzero | hpos
  · refine ⟨none, ?_, fun b hb => ?_⟩
    · rw [find, findLoop, findHash_none ht.toHolds hzero]
      rfl
    · obtain ⟨c, hc⟩ := mem_stored.mp hb
      have := (List.getElem_of_getElem? hc).1
      omega
  · obtain ⟨e, he⟩ := ht.exists_empty hpos
    have hel := (List.getElem_of_getElem? he).1
    have hs : fingerprint target keys key % cells.length < cells.length := Nat.mod_lt _ hpos
    rw [find, ht.length_eq]
    refine findLoop_eq ht htag he hs (fun j _ hlt => ?_) (fun j y hlt => ?_)
      (findHash_first ht.toHolds he) (Nat.lt_succ_of_lt (distance_lt hs hel))
    · rw [distance_self] at hlt
      cases hlt
    · rw [distance_self] at hlt
      cases hlt

theorem changeAt_eq {cells : Cells (MapItem K V)} {i h : Nat} {x : MapItem K V}
    (ht : Table target map.table cells) (htag : Tagged target keys cells)
    (hx : cells[i]? = some (some (h, x))) (f : V → V) : ∃ map', map.changeAt i f = .ok (map', x.2) ∧
      Table target map'.table (cells.set i (some (h, (x.1, f x.2)))) ∧
      Tagged target keys (cells.set i (some (h, (x.1, f x.2)))) := by
  refine ⟨_, ?_, ht.update_eq hx (x.1, f x.2), fun b hb => ?_⟩
  · rw [changeAt, Slot.update_eq (ht.filled hx).2.1]
    rfl
  · rcases mem_cons.mp ((stored_set_over hx).mem_iff.mp hb) with rfl | hb
    · exact htag (h, x) (mem_stored.mpr ⟨i, hx⟩)
    · exact htag b ((stored_set_none hx).mem_iff.mpr (.tail _ hb))

end Find

/-! ## 6. Cursors walk the cells -/

section Cursors

variable {target : HashTarget} {keys : HashKeys K} {map : HashMap K V} {cells : Cells (MapItem K V)}

variable {index : Nat}

section

variable (ht : Holds target map.table cells)
include ht

theorem readNext_eq {left : Nat} (hleft : index + left = cells.length) : ∃ index', map.readNext target left index =
      .ok (index', (stored (cells.drop index)).head?.map Prod.snd) ∧ index' ≤ cells.length ∧
      stored (cells.drop index') = (stored (cells.drop index)).tail := by
  induction left generalizing index with
  | zero =>
    have hnil : stored (cells.drop index) = [] := by
      rw [drop_of_length_le (by omega)]
      rfl
    refine ⟨index, ?_, by omega, ?_⟩
    · rw [hnil]
      rfl
    · rw [hnil]
      rfl
  | succ left ih =>
    rw [readNext]
    rcases @cell_cases _ cells index (by omega) with hempty | ⟨h, x, hfilled⟩
    · rw [ht.occupiedAt_empty hempty, ok_bind, stored_drop_empty hempty]
      exact ih (by omega)
    · rw [ht.occupiedAt_filled hfilled, ok_bind, stored_drop_filled hfilled]
      refine ⟨index + 1, ?_, by omega, rfl⟩
      rw [Slot.get_eq (ht.filled hfilled).2.1]
      rfl

theorem readCalls_eq (hindex : index ≤ cells.length) (calls : Nat) : map.readCalls target calls index =
      .ok (yields calls ((stored (cells.drop index)).map Prod.snd)) := by
  induction calls generalizing index with
  | zero => rfl
  | succ calls ih =>
    obtain ⟨index', e, hle, htail⟩ := readNext_eq ht (Nat.add_sub_cancel' hindex)
    rw [readCalls, ht.length_eq, e, ok_bind]
    simp only
    rw [ih hle, htail]
    cases stored (cells.drop index) <;> rfl

theorem moveNext_eq {left : Nat} (hleft : index + left = cells.length) :
    ∃ map' index' cells', map.moveNext target left index =
      .ok (map', index', (stored (cells.drop index)).head?.map Prod.snd) ∧
      Holds target map'.table cells' ∧ cells'.length = cells.length ∧ index' ≤ cells.length ∧
      stored (cells'.drop index') = (stored (cells.drop index)).tail := by
  induction left generalizing index with
  | zero =>
    have hnil : stored (cells.drop index) = [] := by
      rw [drop_of_length_le (by omega)]
      rfl
    refine ⟨map, index, cells, ?_, ht, rfl, by omega, ?_⟩
    · rw [hnil]
      rfl
    · rw [hnil]
      rfl
  | succ left ih =>
    rw [moveNext]
    rcases @cell_cases _ cells index (by omega) with hempty | ⟨h, x, hfilled⟩
    · rw [ht.occupiedAt_empty hempty, ok_bind, stored_drop_empty hempty]
      exact ih (by omega)
    · obtain ⟨table', e, ht', -⟩ := ht.take_eq hfilled
      rw [ht.occupiedAt_filled hfilled, ok_bind, stored_drop_filled hfilled]
      refine ⟨⟨{ table' with count := table'.count - 1 }⟩, index + 1, cells.set index none, ?_,
        ⟨ht'.1, ht'.2, ht'.3⟩, length_set, by omega, ?_⟩
      · rw [e]
        rfl
      · rw [drop_set_of_lt (Nat.lt_add_one index)]
        rfl

theorem moveCalls_eq (hindex : index ≤ cells.length) (calls : Nat) : ∃ map', moveCalls target calls map index =
      .ok (map', yields calls ((stored (cells.drop index)).map Prod.snd)) := by
  induction calls generalizing index map cells with
  | zero => exact ⟨map, rfl⟩
  | succ calls ih =>
    obtain ⟨map₁, index', cells', e, ht', hlen, hle, htail⟩ :=
      moveNext_eq ht (Nat.add_sub_cancel' hindex)
    obtain ⟨map', e'⟩ := ih ht' (hlen ▸ hle)
    refine ⟨map', ?_⟩
    rw [moveCalls, ht.length_eq, e, ok_bind]
    simp only
    rw [e', htail]
    cases stored (cells.drop index) <;> rfl

end

/-- One call of `next` on a write cursor: the entries before and after the cursor. -/
theorem writeNext_eq {left : Nat} (ht : Table target map.table cells)
    (htag : Tagged target keys cells) (hleft : index + left = cells.length) (f : V → V) :
    ∃ map' index' cells', map.writeNext target f left index =
      .ok (map', index', (stored (cells.drop index)).head?.map Prod.snd) ∧
      Table target map'.table cells' ∧ Tagged target keys cells' ∧ cells'.length = cells.length ∧
      index' ≤ cells.length ∧ stored (cells'.drop index') = (stored (cells.drop index)).tail ∧
      stored (cells'.take index') = stored (cells.take index) ++
        (stored (cells.drop index)).head?.toList.map fun b => (b.1, (b.2.1, f b.2.2)) := by
  induction left generalizing index with
  | zero =>
    have hnil : stored (cells.drop index) = [] := by
      rw [drop_of_length_le (by omega)]
      rfl
    refine ⟨map, index, cells, ?_, ht, htag, rfl, by omega, ?_, ?_⟩
    · rw [hnil]
      rfl
    · rw [hnil]
      rfl
    · rw [hnil]
      exact (append_nil _).symm
  | succ left ih =>
    rw [writeNext]
    rcases @cell_cases _ cells index (by omega) with hempty | ⟨h, x, hfilled⟩
    · have htake := stored_take_succ hempty
      rw [Option.toList_none, append_nil] at htake
      rw [ht.occupiedAt_empty hempty, ok_bind, stored_drop_empty hempty, ← htake]
      exact ih (by omega)
    · obtain ⟨map', e, ht', htag'⟩ := changeAt_eq ht htag hfilled f
      have hlt := (List.getElem_of_getElem? hfilled).1
      rw [ht.occupiedAt_filled hfilled, ok_bind, stored_drop_filled hfilled]
      refine ⟨map', index + 1, cells.set index (some (h, (x.1, f x.2))), ?_, ht', htag',
        length_set, by omega, ?_, ?_⟩
      · rw [changeAt, Slot.update_eq (ht.filled hfilled).2.1] at e
        rw [Slot.update_eq (ht.filled hfilled).2.1]
        cases e
        rfl
      · rw [drop_set_of_lt (Nat.lt_add_one index)]
        rfl
      · rw [stored_take_succ (getElem?_set_self hlt), take_set_of_le (Nat.le_refl index)]
        rfl

theorem writeCalls_eq (ht : Table target map.table cells)
    (htag : Tagged target keys cells) (hindex : index ≤ cells.length) (fs : List (V → V)) :
    ∃ map' cells', writeCalls target fs map index =
      .ok (map', yields fs.length ((stored (cells.drop index)).map Prod.snd)) ∧
      Table target map'.table cells' ∧ Tagged target keys cells' ∧ cells'.length = cells.length ∧
      (stored cells').map Prod.snd = (stored (cells.take index)).map Prod.snd ++
        writeEntries fs ((stored (cells.drop index)).map Prod.snd) := by
  induction fs generalizing index map cells with
  | nil =>
    refine ⟨map, cells, rfl, ht, htag, rfl, ?_⟩
    conv_lhs => rw [← take_append_drop index cells, stored_append, map_append]
    rw [writeEntries]
  | cons f fs ih =>
    obtain ⟨map₁, index', cells₁, e, ht₁, htag₁, hlen, hle, htail, htake⟩ :=
      writeNext_eq ht htag (Nat.add_sub_cancel' hindex) f
    obtain ⟨map', cells', e', ht', htag', hlen', hstored⟩ := ih ht₁ htag₁ (hlen ▸ hle)
    refine ⟨map', cells', ?_, ht', htag', hlen'.trans hlen, ?_⟩
    · rw [writeCalls, ht.length_eq, e, ok_bind]
      simp only
      rw [e', htail]
      cases stored (cells.drop index) <;> rfl
    · rw [hstored, htake, htail]
      cases stored (cells.drop index) with
      | nil =>
        cases fs <;> simp [writeEntries]
      | cons b rest => simp [writeEntries]

end Cursors

/-! ## 7. Refinement -/

section Refinement

variable {target : HashTarget} {keys : HashKeys K} {map : HashMap K V}
  {a : HashModel keys.toEquality V} {key : K}

/-- **The table holds the entries of the model**, each with its hash, as many buckets as the model says,
  and is otherwise as linear probing needs it. -/
def Refines (target : HashTarget) (keys : HashKeys K) (map : HashMap K V)
  (a : HashModel keys.toEquality V) : Prop :=
  ∃ cells, Table target map.table cells ∧ Tagged target keys cells ∧
    ((stored cells).map Prod.snd).Perm a.map.entries ∧ cells.length = a.buckets

theorem Refines.count_eq (h : Refines target keys map a) : map.table.count = a.map.entries.length := by
  obtain ⟨cells, ht, -, hperm, -⟩ := h
  rw [ht.count_eq, ← hperm.length_eq, length_map]

/-- Where a search ends, in the table and in the model. -/
inductive Located (target : HashTarget) (keys : HashKeys K) (map : HashMap K V)
  (a : HashModel keys.toEquality V) (key : K) (cells : Cells (MapItem K V)) : Option Nat → Prop where
  | absent (h : ∀ e ∈ a.map.entries, keys.equals e.1 key = false) :
    Located target keys map a key cells none
  | present (i : Nat) (x : MapItem K V) (rest : List (K × V))
    (hx : cells[i]? = some (some (fingerprint target keys key, x)))
    (heq : keys.equals x.1 key = true) (hentries : a.map.entries.Perm (x :: rest))
    (hrest : ((stored (cells.set i none)).map Prod.snd).Perm rest) :
    Located target keys map a key cells (some i)

variable {cells : Cells (MapItem K V)}

theorem locate (ht : Table target map.table cells) (htag : Tagged target keys cells)
    (hperm : ((stored cells).map Prod.snd).Perm a.map.entries) (key : K) :
    ∃ result, map.find target keys key (fingerprint target keys key) = .ok result ∧
      Located target keys map a key cells result := by
  obtain ⟨result, e, hres⟩ := find_eq ht htag key
  refine ⟨result, e, ?_⟩
  cases result with
  | none =>
    refine .absent fun x hx => ?_
    obtain ⟨b, hb, rfl⟩ := mem_map.mp (hperm.mem_iff.mpr hx)
    exact hres b hb
  | some i =>
    obtain ⟨x, hx, heq⟩ := hres
    have hstored := (stored_set_none hx).map Prod.snd
    exact .present i x _ hx heq (hperm.symm.trans hstored) (.refl _)

theorem get_eq (h : Refines target keys map a) (key : K) : map.get target keys key = .ok (a.map.get? key) := by
  obtain ⟨cells, ht, htag, hperm, -⟩ := h
  obtain ⟨result, e, hloc⟩ := locate ht htag hperm key
  rw [get, e, ok_bind, FiniteMap.get?]
  cases hloc with
  | absent h => rw [FiniteMap.entryOf_eq_none h]; rfl
  | present i x rest hx heq hentries hrest =>
    rw [FiniteMap.entryOf_of_mem (hentries.mem_iff.mpr mem_cons_self) heq]
    simp only
    rw [Slot.get_eq (ht.filled hx).2.1]
    rfl

theorem containsKey_eq (h : Refines target keys map a) (key : K) :
    map.containsKey target keys key = .ok (a.map.entryOf key).isSome := by
  obtain ⟨cells, ht, htag, hperm, -⟩ := h
  obtain ⟨result, e, hloc⟩ := locate ht htag hperm key
  rw [containsKey, e, ok_bind]
  cases hloc with
  | absent h => rw [FiniteMap.entryOf_eq_none h]; rfl
  | present i x rest hx heq hentries hrest =>
    rw [FiniteMap.entryOf_of_mem (hentries.mem_iff.mpr mem_cons_self) heq]
    rfl

/-- The same, in the table and in the model. -/
theorem changeAt_refines {i : Nat} {x : MapItem K V}
    {rest : List (K × V)} (ht : Table target map.table cells) (htag : Tagged target keys cells)
    (hx : cells[i]? = some (some (fingerprint target keys key, x)))
    (heq : keys.equals x.1 key = true) (hentries : a.map.entries.Perm (x :: rest))
    (hrest : ((stored (cells.set i none)).map Prod.snd).Perm rest)
    (hlen : cells.length = a.buckets) (f : V → V) : ∃ map', map.changeAt i f = .ok (map', x.2) ∧
      Refines target keys map' { a with map := a.map.modify key f } := by
  obtain ⟨map', e, ht', htag'⟩ := changeAt_eq ht htag hx f
  refine ⟨map', e, _, ht', htag', ?_, by rw [length_set]; exact hlen⟩
  refine (((stored_set_over hx).map Prod.snd).trans ?_).trans
    (FiniteMap.modify_perm hentries heq f).symm
  exact hrest.cons _

theorem getMut_eq (h : Refines target keys map a) (key : K) (f : V → V) :
    ∃ map', map.getMut target keys key f = .ok (map', a.map.get? key) ∧
      Refines target keys map' { a with map := a.map.modify key f } := by
  obtain ⟨cells, ht, htag, hperm, hlen⟩ := h
  obtain ⟨result, e, hloc⟩ := locate ht htag hperm key
  rw [getMut, e, ok_bind, FiniteMap.get?]
  cases hloc with
  | absent h =>
    rw [FiniteMap.entryOf_eq_none h]
    refine ⟨map, rfl, cells, ht, htag, ?_, hlen⟩
    rw [FiniteMap.modify_of_none h]
    exact hperm
  | present i x rest hx heq hentries hrest =>
    rw [FiniteMap.entryOf_of_mem (hentries.mem_iff.mpr mem_cons_self) heq]
    obtain ⟨map', e', h'⟩ := changeAt_refines ht htag hx heq hentries hrest hlen f
    refine ⟨map', ?_, h'⟩
    simp only
    rw [e']
    rfl

/-- An entry is removed. -/
theorem removeAt_refines {i : Nat} {x : MapItem K V}
    {rest : List (K × V)} (ht : Table target map.table cells) (htag : Tagged target keys cells)
    (hx : cells[i]? = some (some (fingerprint target keys key, x)))
    (heq : keys.equals x.1 key = true) (hentries : a.map.entries.Perm (x :: rest))
    (hperm : ((stored cells).map Prod.snd).Perm a.map.entries) (hlen : cells.length = a.buckets) :
    ∃ table', removeAt target map.table i = .ok (table', x) ∧
      Refines target keys ⟨table'⟩ { a with map := a.map.erase key } := by
  obtain ⟨table', cells', e, ht', hl, hstored⟩ := ht.removeAt_eq hx
  refine ⟨table', e, cells', ht', fun b hb => ?_, ?_, hl.trans hlen⟩
  · exact htag b (hstored.mem_iff.mpr (.tail _ hb))
  · have h := (hstored.map Prod.snd).symm.trans (hperm.trans hentries)
    exact (List.Perm.cons_inv h).trans (FiniteMap.erase_perm hentries heq).symm

section

variable (h : Refines target keys map a)
include h

theorem removeEntry_eq (key : K) : ∃ map', map.removeEntry target keys key = .ok (map', a.map.entryOf key) ∧
      Refines target keys map' { a with map := a.map.erase key } := by
  obtain ⟨cells, ht, htag, hperm, hlen⟩ := h
  obtain ⟨result, e, hloc⟩ := locate ht htag hperm key
  rw [removeEntry, e, ok_bind]
  cases hloc with
  | absent h =>
    rw [FiniteMap.entryOf_eq_none h]
    refine ⟨map, rfl, cells, ht, htag, ?_, hlen⟩
    rw [FiniteMap.erase_of_none h]
    exact hperm
  | present i x rest hx heq hentries hrest =>
    rw [FiniteMap.entryOf_of_mem (hentries.mem_iff.mpr mem_cons_self) heq]
    obtain ⟨table', e', h'⟩ := removeAt_refines ht htag hx heq hentries hperm hlen
    refine ⟨⟨table'⟩, ?_, h'⟩
    simp only
    rw [e']
    rfl

/-- **A failed reservation leaves the map unchanged.** -/
theorem reserve_eq (additional : Nat) : (∃ e, map.reserve target additional = .ok (map, .error e) ∧
      a.grown target.toTarget additional = .error e) ∨
    ∃ map' n, map.reserve target additional = .ok (map', .ok ()) ∧
    a.grown target.toTarget additional = .ok n ∧ Refines target keys map' { a with buckets := n } ∧
    a.map.entries.length + additional ≤ bucketCapacity n := by
  have hcount := h.count_eq
  obtain ⟨cells, ht, htag, hperm, hlen⟩ := h
  rw [reserve, HashModel.grown, ← hcount, ← hlen]
  rcases ht.reserve_eq additional with ⟨e, hgrown, er⟩ | ⟨n, table', cells', hgrown, er, ht', hl, hstored, hroom⟩
  · exact .inl ⟨e, by rw [er]; rfl, hgrown⟩
  · refine .inr ⟨⟨table'⟩, n, by rw [er]; rfl, hgrown, ⟨cells', ht', fun b hb => ?_, ?_, hl⟩, hroom⟩
    · exact htag b (hstored.mem_iff.mp hb)
    · exact (hstored.map Prod.snd).trans hperm

/-- A key that is not there is added, where there is room. -/
theorem insertAvailable_refines (key : K)
    (hroom : a.map.entries.length + 1 ≤ bucketCapacity a.buckets) (value : V) :
    ∃ table' k, insertAvailable target map.table (key, value)
      (fingerprint target keys key) = .ok (table', k) ∧
      ∃ cells, Table target table' cells ∧ Tagged target keys cells ∧
        cells[k]? = some (some (fingerprint target keys key, (key, value))) ∧
        ((stored (cells.set k none)).map Prod.snd).Perm a.map.entries ∧ cells.length = a.buckets := by
  have hcount := h.count_eq
  obtain ⟨cells, ht, htag, hperm, hlen⟩ := h
  obtain ⟨table', k, e, hk, ht'⟩ := ht.insertAvailable_eq (h := fingerprint target keys key)
    (key, value) (target.fingerprint_lt (keys.hash key)) (by rw [hcount, hlen]; exact hroom)
  have hkl := (List.getElem_of_getElem? hk).1
  refine ⟨table', k, e, _, ht', fun b hb => ?_, getElem?_set_self hkl, ?_, ?_⟩
  · rcases mem_cons.mp ((stored_set_some hk).mem_iff.mp hb) with rfl | hb
    · rfl
    · exact htag b hb
  · have hself : (cells.set k (some (fingerprint target keys key, (key, value)))).set k none = cells := by
      rw [set_set]
      conv_rhs => rw [← set_getElem_self hkl, (List.getElem_of_getElem? hk).2]
    rw [hself]
    exact hperm
  · rw [length_set]
    exact hlen

theorem Refines.congr {a' : HashModel keys.toEquality V}
    (hentries : a.map.entries.Perm a'.map.entries) (hbuckets : a.buckets = a'.buckets) :
    Refines target keys map a' := by
  obtain ⟨cells, ht, htag, hperm, hlen⟩ := h
  exact ⟨cells, ht, htag, hperm.trans hentries, hlen.trans hbuckets⟩

theorem insertVacant_eq (key : K) (hnone : a.map.entryOf key = none)
    (hroom : a.map.entries.length + 1 ≤ bucketCapacity a.buckets) (value : V) (f : V → V) :
    ∃ map' a', map.insertVacant target key (fingerprint target keys key) value f = .ok (map', value) ∧
      a.Adds key (f value) a' ∧ Refines target keys map' a' := by
  obtain ⟨table', k, e, cells, ht, htag, hk, hperm, hlen⟩ := insertAvailable_refines h key hroom value
  obtain ⟨map', e', ht', htag'⟩ := changeAt_eq ht htag hk f
  refine ⟨map', _, ?_, ⟨hnone, rfl⟩, _, ht', htag', ?_, by rw [length_set]; exact hlen⟩
  · rw [insertVacant, e, ok_bind]
    exact e'
  · exact ((stored_set_over hk).map Prod.snd).trans (hperm.cons _)

theorem insert_eq (key : K) (value : V) : ∃ map' result a', map.insert target keys key value = .ok (map', result) ∧
      a.Answers target.toTarget (.insert key value) (.inserted result) a' ∧ Refines target keys map' a' := by
  have h₀ := h
  obtain ⟨cells, ht, htag, hperm, hlen⟩ := h
  obtain ⟨result, e, hloc⟩ := locate ht htag hperm key
  rw [insert, e, ok_bind]
  simp only [HashModel.Answers, FiniteMap.get?]
  cases hloc with
  | present i x rest hx heq hentries hrest =>
    rw [FiniteMap.entryOf_of_mem (hentries.mem_iff.mpr mem_cons_self) heq]
    obtain ⟨map', e', h'⟩ := changeAt_refines ht htag hx heq hentries hrest hlen fun _ => value
    refine ⟨map', .ok (some x.2), _, ?_, ⟨rfl, rfl⟩, h'⟩
    simp only
    rw [e']
    rfl
  | absent habsent =>
    have hnone := FiniteMap.entryOf_eq_none habsent
    rw [hnone]
    rcases reserve_eq h₀ 1 with ⟨err, er, hgrown⟩ | ⟨map₁, n, er, hgrown, h₁, hroom⟩
    · exact ⟨map, .error err, a, by rw [er]; rfl, .inl ⟨err, rfl, hgrown, rfl⟩, h₀⟩
    · obtain ⟨table', k, e', cells', ht', htag', hk, hperm', hlen'⟩ :=
        insertAvailable_refines h₁ key hroom value
      refine ⟨⟨table'⟩, .ok none, { map := a.map.add key value hnone, buckets := n }, ?_,
        .inr ⟨{ a with buckets := n }, rfl, ⟨n, hgrown, rfl⟩, hnone, rfl⟩, cells', ht', htag', ?_, hlen'⟩
      · rw [er, ok_bind]
        rw [e']
        rfl
      · exact ((stored_set_none hk).map Prod.snd).trans (hperm'.cons _)

end

/-- The changes made through an occupied entry. -/
theorem changeCalls_eq {i h : Nat} {x : MapItem K V}
    (ht : Table target map.table cells) (htag : Tagged target keys cells)
    (hx : cells[i]? = some (some (h, x))) (fs : List (V → V)) :
    ∃ map' cells', changeCalls fs map i = .ok (map', (changed fs x.2).1) ∧
      Table target map'.table cells' ∧ Tagged target keys cells' ∧
      cells'[i]? = some (some (h, (x.1, (changed fs x.2).2))) ∧ cells'.set i none = cells.set i none := by
  induction fs generalizing map cells x with
  | nil => exact ⟨map, cells, rfl, ht, htag, hx, rfl⟩
  | cons f fs ih =>
    have hlt := (List.getElem_of_getElem? hx).1
    obtain ⟨map₁, e₁, ht₁, htag₁⟩ := changeAt_eq ht htag hx f
    obtain ⟨map', cells', e', ht', htag', hx', hset⟩ := ih ht₁ htag₁ (getElem?_set_self hlt)
    refine ⟨map', cells', ?_, ht', htag', hx', ?_⟩
    · rw [changeCalls, e₁, ok_bind]
      simp only
      rw [e']
      rfl
    · rw [hset, set_set]

section

variable (h : Refines target keys map a)
include h

/-- What `entry` returns. -/
theorem entry_eq (key : K) : (∃ i x rest cells, map.entry target keys key = .ok (map, .ok (.occupied i)) ∧
      a.map.entryOf key = some x ∧ Table target map.table cells ∧ Tagged target keys cells ∧
      cells[i]? = some (some (fingerprint target keys key, x)) ∧ keys.equals x.1 key = true ∧
      a.map.entries.Perm (x :: rest) ∧
      ((stored (cells.set i none)).map Prod.snd).Perm rest ∧ cells.length = a.buckets) ∨
    a.map.entryOf key = none ∧
      ((∃ e, map.entry target keys key = .ok (map, .error e) ∧ a.Reserves target.toTarget 1 a (.error e)) ∨
      ∃ map₁ a₁, map.entry target keys key = .ok (map₁, .ok (.vacant key (fingerprint target keys key))) ∧
        a.Reserves target.toTarget 1 a₁ (.ok ()) ∧ Refines target keys map₁ a₁ ∧ a₁.map.entryOf key = none ∧
        a₁.map.entries.length + 1 ≤ bucketCapacity a₁.buckets) := by
  have h₀ := h
  obtain ⟨cells, ht, htag, hperm, hlen⟩ := h
  obtain ⟨result, e, hloc⟩ := locate ht htag hperm key
  rw [entry, e, ok_bind]
  cases hloc with
  | present i x rest hx heq hentries hrest =>
    refine .inl ⟨i, x, rest, cells, rfl, ?_, ht, htag, hx, heq, hentries, hrest, hlen⟩
    exact FiniteMap.entryOf_of_mem (hentries.mem_iff.mpr (.head _)) heq
  | absent habsent =>
    have hnone := FiniteMap.entryOf_eq_none habsent
    refine .inr ⟨hnone, ?_⟩
    rcases reserve_eq h₀ 1 with ⟨err, er, hgrown⟩ | ⟨map₁, n, er, hgrown, h₁, hroom⟩
    · exact .inl ⟨err, by rw [er]; rfl, hgrown, rfl⟩
    · exact .inr ⟨map₁, { a with buckets := n }, by rw [er]; rfl, ⟨n, hgrown, rfl⟩, h₁, hnone, hroom⟩

theorem useEntry_eq (key : K) (use : EntryUse V) :
    ∃ map' answer a', map.step target keys (.entry key use) = .ok (map', answer) ∧
      a.Answers target.toTarget (.entry key use) answer a' ∧ Refines target keys map' a' := by
  rw [step]
  simp only [HashModel.Answers]
  rcases entry_eq h key with
    ⟨i, x, rest, cells, e, hentry, ht, htag, hx, heq, hentries, hrest, hlen⟩ | ⟨hnone, hvacant⟩
  · obtain ⟨map₁, cells₁, e₁, ht₁, htag₁, hx₁, hset⟩ := changeCalls_eq ht htag hx use.changes
    have hlen₁ : cells₁.length = a.buckets := by
      have := congrArg List.length hset
      rw [length_set, length_set] at this
      exact this.trans hlen
    have hmodify := FiniteMap.modify_perm hentries heq fun _ => (changed use.changes x.2).2
    have hstored : ((stored cells₁).map Prod.snd).Perm
      (a.map.modify key fun _ => (changed use.changes x.2).2).entries := by
      refine ((stored_set_none hx₁).map Prod.snd).trans (.trans ?_ hmodify.symm)
      rw [hset]
      exact hrest.cons _
    rw [e, hentry, ok_bind]
    simp only [useEntry]
    rw [e₁, ok_bind]
    cases hremove : use.remove with
    | false =>
      exact ⟨map₁, _, _, rfl, ⟨rfl, rfl⟩, cells₁, ht₁, htag₁, hstored, hlen₁⟩
    | true =>
      obtain ⟨table', e₂, h₂⟩ := removeAt_refines
        (a := { a with map := a.map.modify key fun _ => (changed use.changes x.2).2 }) ht₁ htag₁ hx₁
        heq hmodify hstored hlen₁
      refine ⟨⟨table'⟩, _, _, ?_, ⟨rfl, rfl⟩, h₂.congr ?_ rfl⟩
      · rw [dropEntry, e₂]
        rfl
      · exact (FiniteMap.erase_perm hmodify heq).trans (FiniteMap.erase_perm hentries heq).symm
  · rw [hnone]
    rcases hvacant with ⟨err, e, hres⟩ | ⟨map₁, a₁, e, hres, h₁, hnone₁, hroom⟩
    · exact ⟨map, .failed err, a, by rw [e]; rfl, .inl ⟨err, rfl, hres⟩, h⟩
    · rw [e, ok_bind]
      simp only [useEntry]
      cases hvalue : use.vacant with
      | none => exact ⟨map₁, .vacant, a₁, rfl, .inr ⟨a₁, rfl, hres, rfl⟩, h₁⟩
      | some value =>
        obtain ⟨map', a', e', hadds, h'⟩ := insertVacant_eq h₁ key hnone₁ hroom value id
        refine ⟨map', .vacant, a', ?_, .inr ⟨a₁, rfl, hres, hadds⟩, h'⟩
        simp only
        rw [e']
        rfl

theorem orInsert_eq (key : K) (default : V) (f : V → V) :
    ∃ map' result a', map.orInsert target keys key default f = .ok (map', result) ∧
      a.Answers target.toTarget (.orInsert key default f) (.referred result) a' ∧ Refines target keys map' a' := by
  rw [orInsert]
  simp only [HashModel.Answers, FiniteMap.get?]
  rcases entry_eq h key with
    ⟨i, x, rest, cells, e, hentry, ht, htag, hx, heq, hentries, hrest, hlen⟩ | ⟨hnone, hvacant⟩
  · obtain ⟨map', e', h'⟩ := changeAt_refines ht htag hx heq hentries hrest hlen f
    rw [e, hentry, ok_bind]
    refine ⟨map', .ok x.2, _, ?_, ⟨rfl, rfl⟩, h'⟩
    simp only
    rw [e']
    rfl
  · rw [hnone]
    rcases hvacant with ⟨err, e, hres⟩ | ⟨map₁, a₁, e, hres, h₁, hnone₁, hroom⟩
    · exact ⟨map, .error err, a, by rw [e]; rfl, .inl ⟨err, rfl, hres⟩, h⟩
    · obtain ⟨map', a', e', hadds, h'⟩ := insertVacant_eq h₁ key hnone₁ hroom default f
      refine ⟨map', .ok default, a', ?_, .inr ⟨a₁, rfl, hres, hadds⟩, h'⟩
      rw [e, ok_bind]
      simp only
      rw [e']
      rfl

theorem readCalls_refines (calls : Nat) :
    ∃ order, order.Perm a.map.entries ∧ map.readCalls target calls 0 = .ok (yields calls order) := by
  obtain ⟨cells, ht, htag, hperm, -⟩ := h
  refine ⟨_, hperm, ?_⟩
  rw [readCalls_eq ht.toHolds (Nat.zero_le _), drop_zero]

theorem moveCalls_refines (calls : Nat) : ∃ order map', order.Perm a.map.entries ∧
      moveCalls target calls map 0 = .ok (map', yields calls order) := by
  obtain ⟨cells, ht, htag, hperm, -⟩ := h
  obtain ⟨map', e⟩ := moveCalls_eq ht.toHolds (Nat.zero_le _) calls
  refine ⟨_, map', hperm, ?_⟩
  rw [e, drop_zero]

theorem writeCalls_refines (fs : List (V → V)) : ∃ order map' a', order.Perm a.map.entries ∧
      writeCalls target fs map 0 = .ok (map', yields fs.length order) ∧
      a'.map.entries = writeEntries fs order ∧ a'.buckets = a.buckets ∧ Refines target keys map' a' := by
  obtain ⟨cells, ht, htag, hperm, hlen⟩ := h
  obtain ⟨map', cells', e, ht', htag', hlen', hstored⟩ := writeCalls_eq ht htag (Nat.zero_le _) fs
  have hdistinct : Distinct keys.toEquality (writeEntries fs ((stored cells).map Prod.snd)) := by
    -- the keys are the same, and only they matter
    have hkeys := (a.map.distinct.perm hperm.symm : Distinct _ _)
    rw [distinct_iff, map_fst_writeEntries, ← distinct_iff]
    exact hkeys
  refine ⟨_, map', ⟨⟨_, hdistinct⟩, a.buckets⟩, hperm, e, rfl, rfl, cells', ht', htag', ?_, hlen'.trans hlen⟩
  rw [hstored]
  exact .refl _

theorem clear_eq : ∃ map', map.clear target = .ok map' ∧
    Refines target keys map' { a with map := .empty keys.toEquality V } := by
  obtain ⟨cells, ht, -, -, hlen⟩ := h
  obtain ⟨table', e, ht'⟩ := ht.clear_eq
  have hstored := stored_replicate (β := Nat × MapItem K V) cells.length
  refine ⟨⟨table'⟩, by rw [clear, e]; rfl, _, ht', fun b hb => ?_, ?_, ?_⟩
  · rw [hstored] at hb
    cases hb
  · rw [hstored]
    exact .refl _
  · rw [length_replicate]
    exact hlen

end

/-- **One operation** answers as the model allows. -/
theorem step_refines (map : HashMap K V) (a : HashModel keys.toEquality V) (op : HashOp K V)
    (h : Refines target keys map a) : ∃ map' answer a', map.step target keys op = .ok (map', answer) ∧
      a.Answers target.toTarget op answer a' ∧ Refines target keys map' a' := by
  have hcount := h.count_eq
  cases op with
  | length => exact ⟨map, _, a, rfl, ⟨congrArg HashAnswer.count hcount, rfl⟩, h⟩
  | capacity =>
    refine ⟨map, _, a, rfl, ⟨?_, rfl⟩, h⟩
    obtain ⟨cells, ht, -, -, hlen⟩ := h
    rw [capacity, HashTable.capacity, ht.length_eq, hlen]
  | isEmpty =>
    refine ⟨map, _, a, rfl, ⟨?_, rfl⟩, h⟩
    rw [isEmpty, hcount]
    cases a.map.entries <;> rfl
  | reserve additional =>
    rw [step]
    rcases reserve_eq h additional with ⟨e, er, hgrown⟩ | ⟨map', n, er, hgrown, h', -⟩
    · exact ⟨map, _, a, by rw [er]; rfl, ⟨.error e, rfl, hgrown, rfl⟩, h⟩
    · exact ⟨map', _, _, by rw [er]; rfl, ⟨.ok (), rfl, n, hgrown, rfl⟩, h'⟩
  | get key => exact ⟨map, _, a, by rw [step, get_eq h]; rfl, ⟨rfl, rfl⟩, h⟩
  | getMut key f =>
    obtain ⟨map', e, h'⟩ := getMut_eq h key f
    exact ⟨map', _, _, by rw [step, e]; rfl, ⟨rfl, rfl⟩, h'⟩
  | containsKey key => exact ⟨map, _, a, by rw [step, containsKey_eq h]; rfl, ⟨rfl, rfl⟩, h⟩
  | insert key value =>
    obtain ⟨map', result, a', e, hanswers, h'⟩ := insert_eq h key value
    exact ⟨map', _, a', by rw [step, e]; rfl, hanswers, h'⟩
  | remove key =>
    obtain ⟨map', e, h'⟩ := removeEntry_eq h key
    exact ⟨map', _, _, by rw [step, remove, e]; rfl, ⟨rfl, rfl⟩, h'⟩
  | removeEntry key =>
    obtain ⟨map', e, h'⟩ := removeEntry_eq h key
    exact ⟨map', _, _, by rw [step, e]; rfl, ⟨rfl, rfl⟩, h'⟩
  | entry key use => exact useEntry_eq h key use
  | orInsert key default f =>
    obtain ⟨map', result, a', e, hanswers, h'⟩ := orInsert_eq h key default f
    exact ⟨map', _, a', by rw [step, e]; rfl, hanswers, h'⟩
  | read calls =>
    obtain ⟨order, hperm, e⟩ := readCalls_refines h calls
    exact ⟨map, _, a, by rw [step, e]; rfl, ⟨order, hperm, rfl, rfl⟩, h⟩
  | write fs =>
    obtain ⟨order, map', a', hperm, e, hentries, hbuckets, h'⟩ := writeCalls_refines h fs
    exact ⟨map', _, a', by rw [step, e]; rfl, ⟨order, hperm, rfl, hentries, hbuckets⟩, h'⟩
  | clear =>
    obtain ⟨map', e, h'⟩ := clear_eq h
    exact ⟨map', _, _, by rw [step, e]; rfl, ⟨rfl, rfl⟩, h'⟩

/-! ## 8. Every sequence of operations -/

theorem cell_unique {i j : Nat} {b c : Nat × MapItem K V}
    (hdistinct : Distinct keys.toEquality ((stored cells).map Prod.snd))
    (hi : cells[i]? = some (some b)) (hj : cells[j]? = some (some c))
    (heq : keys.equals b.2.1 c.2.1 = true) : i = j := by
  by_contra hne
  have hj' : (cells.set i none)[j]? = some (some c) := by
    rw [getElem?_set_ne hne]
    exact hj
  have hall := pairwise_cons.mp (hdistinct.perm ((stored_set_none hi).map Prod.snd))
  have hc := hall.1 c.2 (mem_map_of_mem (mem_stored.mpr ⟨j, hj'⟩))
  rw [heq] at hc
  cases hc

/-- **Every stored entry is found**, in its own cell. -/
theorem find_stored {i : Nat} {b : Nat × MapItem K V}
    (ht : Table target map.table cells) (htag : Tagged target keys cells)
    (hdistinct : Distinct keys.toEquality ((stored cells).map Prod.snd)) (hi : cells[i]? = some (some b)) :
    map.find target keys b.2.1 (fingerprint target keys b.2.1) = .ok (some i) := by
  obtain ⟨result, e, hres⟩ := find_eq ht htag b.2.1
  rw [e]
  cases result with
  | none =>
    have h := hres b (mem_stored.mpr ⟨i, hi⟩)
    rw [keys.refl] at h
    cases h
  | some j =>
    obtain ⟨x, hj, heq⟩ := hres
    rw [cell_unique hdistinct hj hi heq]

/-- **What the buckets of a map hold.** -/
structure Stores (target : HashTarget) (keys : HashKeys K) (map : HashMap K V)
  (entries : List (K × V)) (cells : Cells (MapItem K V)) : Prop where
  holds : Holds target map.table cells
  /-- no empty bucket stands between the home of an entry and the entry -/
  reached : Reached (fun b => b.1 % cells.length) cells
  tagged : Tagged target keys cells
  count : map.length = (stored cells).length
  /-- no key is stored twice -/
  distinct : Distinct keys.toEquality ((stored cells).map Prod.snd)
  room : 0 < cells.length → ∃ e : Nat, cells[e]? = some none
  found : ∀ (i : Nat) (b : Nat × MapItem K V), cells[i]? = some (some b) →
    map.find target keys b.2.1 (fingerprint target keys b.2.1) = .ok (some i)
  entries : ((stored cells).map Prod.snd).Perm entries

theorem Refines.stores (h : Refines target keys map a) : ∃ cells, Stores target keys map a.map.entries cells := by
  obtain ⟨cells, ht, htag, hperm, -⟩ := h
  have hdistinct := a.map.distinct.perm hperm.symm
  exact ⟨cells, ht.toHolds, ht.reached, htag, ht.count_eq, hdistinct, ht.exists_empty,
    fun i b hi => find_stored ht htag hdistinct hi, hperm⟩

theorem construct_eq (target : HashTarget) (keys : HashKeys K) (capacity : Nat) :
    (∃ e, (construct target capacity : Except _ (HashMap K V)) = .error e) ∨
    ∃ map : HashMap K V, construct target capacity = .ok map ∧
      capacity ≤ bucketCapacity map.table.buckets.length ∧
      Refines target keys map ⟨.empty keys.toEquality V, map.table.buckets.length⟩ := by
  rw [construct, HashTable.construct]
  cases hnew : newBuckets target.toTarget capacity with
  | error e => exact .inl ⟨e, rfl⟩
  | ok n =>
    obtain ⟨hmin, hcap⟩ := newBuckets_ge hnew
    have hstored := stored_replicate (β := Nat × MapItem K V) n
    refine .inr ⟨_, rfl, ?_, _, Table.replicate hmin, fun b hb => ?_, ?_, ?_⟩
    · rw [length_replicate]
      exact hcap
    · rw [hstored] at hb
      cases hb
    · rw [hstored]
      exact .refl _
    · rw [length_replicate, length_replicate]

end Refinement

end HashMap

end Bray.Collection
