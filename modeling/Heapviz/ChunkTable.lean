import Mathlib.Logic.Function.Basic
import Heapviz.Abi

/-!
# The chunk table

`tui/chunk_table.{h,cpp}`: one record for each allocation the target is
holding, in a Robin Hood table keyed by pointer, with the optional bound
on its size and the queue of freed keys that eviction takes from.

`slots_` is a function of the slot number with `capacity` beside it;
`mask_` and `shift_` are written together with it and are functions of
the capacity. `size_t` and the counters are natural numbers: the products
the code forms stay in range for every table that fits in memory. The key
hash is the one place where wrapping is the point, and it wraps.

The three probe loops take fuel and answer `none` when it runs out; their
callers give them one round of the table. That this is always enough is
part of what `Heapviz.ChunkMap` proves.
-/

namespace Heapviz

/-! ## Records -/

inductive ChunkState where
  | empty
  | live
  | freed
deriving Repr, DecidableEq

/-- `kChunkFlagRefined`. -/
def kChunkFlagRefined : Nat := 1

/-- `kChunkFlagMmapped`. -/
def kChunkFlagMmapped : Nat := 2

/-- `kChunkFlagNonMain`. -/
def kChunkFlagNonMain : Nat := 4

/-- `kHeaderFlagMask`: the bits `mark_refined` accepts from a header. -/
def kHeaderFlagMask : Nat := kChunkFlagMmapped ||| kChunkFlagNonMain

structure Chunk where
  key : Nat
  size : Nat
  usable : Nat
  allocMs : Nat
  freeMs : Nat
  tid : Nat
  state : ChunkState
  flags : Nat
  overheadExact : Nat
deriving Repr, DecidableEq

/-- `kEmptySlot`. -/
def kEmptySlot : Chunk := ⟨0, 0, 0, 0, 0, 0, .empty, 0, 0⟩

/-- Whether a slot holds a record. -/
def Chunk.full (c : Chunk) : Bool := c.state ≠ .empty

/-- The record `insert_live` places for a new key. -/
def Chunk.fresh (key size usable allocMs tid : Nat) : Chunk :=
  ⟨key, size, usable, allocMs, 0, tid, .live, 0, 0⟩

/-- What `insert_live` writes over a record that is already there: the flags
and the exact overhead stay. -/
def Chunk.reuse (c : Chunk) (size usable allocMs tid : Nat) : Chunk :=
  { c with
    size := size
    usable := usable
    allocMs := allocMs
    freeMs := 0
    tid := tid
    state := .live }

/-- What `mark_refined` writes: the exact overhead, the mark, and whatever
header bits the read decoded. -/
def Chunk.refine (c : Chunk) (exactOverhead headerFlags : Nat) : Chunk :=
  { c with
    overheadExact := exactOverhead
    flags := c.flags ||| kChunkFlagRefined ||| (headerFlags &&& kHeaderFlagMask) }

/-- What `clear_refined` does to one slot; `keep` is the byte complement of
the mark and the header bits. -/
def Chunk.unrefine (c : Chunk) : Chunk :=
  { c with
    flags := c.flags &&& (0xFF - (kChunkFlagRefined ||| kHeaderFlagMask))
    overheadExact := 0 }

structure ChunkTableStats where
  inserts : Nat
  updates : Nat
  erases : Nat
  rehashes : Nat
  evictions : Nat
  drops : Nat
  maxProbe : Nat
deriving Repr, DecidableEq

structure ChunkTable where
  slots : Nat → Chunk
  capacity : Nat
  size : Nat
  maxEntries : Nat
  freedFifo : List Nat
  freedHead : Nat
  freedTail : Nat
  stats : ChunkTableStats

/-! ## Geometry -/

def kFibonacci : Nat := 0x9E3779B97F4A7C15

def kMinCapacity : Nat := 16

def kLoadNumerator : Nat := 85

def kLoadDenominator : Nat := 100

/-- `round_capacity`; `std::bit_ceil` of a number above one is the power of
two with the bit width of its predecessor. -/
def roundCapacity (n : Nat) : Nat :=
  if n ≤ kMinCapacity then kMinCapacity else 2 ^ (Nat.log2 (n - 1) + 1)

/-- The constructor. -/
def ChunkTable.new (initialCapacity : Nat) : ChunkTable where
  slots := fun _ => kEmptySlot
  capacity := roundCapacity initialCapacity
  size := 0
  maxEntries := 0
  freedFifo := []
  freedHead := 0
  freedTail := 0
  stats := ⟨0, 0, 0, 0, 0, 0, 0⟩

namespace ChunkTable

/-- `mask_`. -/
def mask (t : ChunkTable) : Nat := t.capacity - 1

/-- `shift_`. -/
def shift (t : ChunkTable) : Nat := 64 - Nat.log2 t.capacity

def idealSlot (t : ChunkTable) (key : Nat) : Nat := (key * kFibonacci % 2 ^ 64) >>> t.shift

/-- `probe_distance`; adding the capacity is the wrap of the unsigned
difference under the mask. -/
def probeDistance (t : ChunkTable) (slot : Nat) : Nat :=
  (slot + t.capacity - t.idealSlot (t.slots slot).key) &&& t.mask

def set (t : ChunkTable) (slot : Nat) (c : Chunk) : ChunkTable :=
  { t with slots := Function.update t.slots slot c }

/-! ## Probing -/

def findLoop (t : ChunkTable) (key : Nat) : Nat → Nat → Nat → Option (Option Nat)
  | 0, _, _ => none
  | fuel + 1, slot, dist =>
      if (t.slots slot).state = .empty then some none
      else if (t.slots slot).key = key then some (some slot)
      else if dist > t.probeDistance slot then some none
      else t.findLoop key fuel ((slot + 1) &&& t.mask) (dist + 1)

/-- `find`: the slot the key is in. -/
def find (t : ChunkTable) (key : Nat) : Option Nat :=
  if key = 0 ∨ t.capacity = 0 then none
  else (t.findLoop key t.capacity (t.idealSlot key) 0).getD none

/-- The record behind the pointer `find` returns. -/
def lookup (t : ChunkTable) (key : Nat) : Option Chunk := (t.find key).map t.slots

def noteProbe (t : ChunkTable) (dist : Nat) : ChunkTable :=
  if dist > t.stats.maxProbe then { t with stats := { t.stats with maxProbe := dist } } else t

/-- The loop of `place`: put the record down in an empty slot, or take the
slot of one closer to home and carry that one onward. -/
def placeLoop : Nat → ChunkTable → Chunk → Nat → Nat → Option ChunkTable
  | 0, _, _, _, _ => none
  | fuel + 1, t, c, slot, dist =>
      if (t.slots slot).state = .empty then some ((t.set slot c).noteProbe dist)
      else if t.probeDistance slot < dist then
        placeLoop fuel ((t.set slot c).noteProbe (t.probeDistance slot + 1)) (t.slots slot)
          ((slot + 1) &&& t.mask) (t.probeDistance slot + 1)
      else
        placeLoop fuel (t.noteProbe (dist + 1)) c ((slot + 1) &&& t.mask) (dist + 1)

def place (t : ChunkTable) (c : Chunk) : ChunkTable :=
  (placeLoop t.capacity t c (t.idealSlot c.key) 0).getD t

/-- The zeroed slots `grow_to` starts from. -/
def emptied (t : ChunkTable) (capacity : Nat) : ChunkTable :=
  { t with slots := fun _ => kEmptySlot, capacity := capacity }

/-- Reinsert the record of one old slot. -/
def replace (t : ChunkTable) (c : Chunk) : ChunkTable :=
  if c.state = .empty then t else t.place c

/-- The new table after the first `j` old slots. -/
def rehashed (t : ChunkTable) (capacity j : Nat) : ChunkTable :=
  (List.range j).foldl (fun u i => u.replace (t.slots i)) (t.emptied capacity)

def growTo (t : ChunkTable) (newCapacity : Nat) : ChunkTable × Bool :=
  if roundCapacity newCapacity ≤ t.capacity then (t, true)
  else
    let t' := t.rehashed (roundCapacity newCapacity) t.capacity
    ({ t' with stats := { t'.stats with rehashes := t'.stats.rehashes + 1 } }, true)

def reserve (t : ChunkTable) (entries : Nat) : ChunkTable × Bool :=
  let needed := entries * kLoadDenominator / kLoadNumerator + 1
  if needed ≤ t.capacity then (t, true) else t.growTo (roundCapacity needed)

def clear (t : ChunkTable) : ChunkTable :=
  { t with slots := fun _ => kEmptySlot, size := 0, freedHead := 0, freedTail := 0 }

/-- The loop of `erase`: pull displaced records back until the run ends. -/
def eraseLoop : Nat → ChunkTable → Nat → Option ChunkTable
  | 0, _, _ => none
  | fuel + 1, t, i =>
      let j := (i + 1) &&& t.mask
      if (t.slots j).state = .empty then some (t.set i kEmptySlot)
      else if t.probeDistance j = 0 then some (t.set i kEmptySlot)
      else eraseLoop fuel (t.set i (t.slots j)) j

def erase (t : ChunkTable) (key : Nat) : ChunkTable × Bool :=
  match t.find key with
  | none => (t, false)
  | some i =>
      let t' := (eraseLoop t.capacity t i).getD t
      ({ t' with
        size := t'.size - 1
        stats := { t'.stats with erases := t'.stats.erases + 1 } }, true)

/-! ## The bounded-memory policy -/

def pushFreed (t : ChunkTable) (key : Nat) : ChunkTable :=
  if t.freedFifo = [] then t
  else
    let tail := (t.freedTail + 1) % t.freedFifo.length
    { t with
      freedFifo := t.freedFifo.set t.freedTail key
      freedTail := tail
      freedHead :=
        if tail = t.freedHead then (t.freedHead + 1) % t.freedFifo.length else t.freedHead }

def popEvictableLoop : Nat → ChunkTable → Option (ChunkTable × Bool)
  | 0, _ => none
  | fuel + 1, t =>
      if t.freedHead = t.freedTail then some (t, false)
      else
        let key := t.freedFifo.getD t.freedHead 0
        let t' := { t with freedHead := (t.freedHead + 1) % t.freedFifo.length }
        match t'.find key with
        | none => popEvictableLoop fuel t'
        | some i =>
            if (t'.slots i).state ≠ .freed then popEvictableLoop fuel t'
            else
              let t'' := (t'.erase key).1
              some ({ t'' with
                stats := { t''.stats with evictions := t''.stats.evictions + 1 } }, true)

/-- The head of the queue reaches its tail within one round of it. -/
def popEvictable (t : ChunkTable) : ChunkTable × Bool :=
  (popEvictableLoop (t.freedFifo.length + 1) t).getD (t, false)

/-- The freed records as `(free_ms, key)`, sorted as `std::pair` compares. -/
def freedInOrder (t : ChunkTable) : List (Nat × Nat) :=
  ((((List.range t.capacity).map t.slots).filter fun c => c.state = .freed).map
    fun c => (c.freeMs, c.key)).mergeSort
      fun a b => a.1 < b.1 || (a.1 == b.1 && a.2 ≤ b.2)

def refillFreedQueue (t : ChunkTable) : ChunkTable :=
  if t.freedFifo = [] then t
  else
    (t.freedInOrder.take (t.freedFifo.length - 1)).foldl (fun u e => u.pushFreed e.2)
      { t with freedHead := 0, freedTail := 0 }

def makeRoom (t : ChunkTable) : ChunkTable × Bool :=
  match t.popEvictable with
  | (t', true) => (t', true)
  | (t', false) => t'.refillFreedQueue.popEvictable

/-- `while (size_ > max_entries_ && make_room())`: each round that goes on
has removed a record. -/
def shrinkLoop : Nat → ChunkTable → ChunkTable
  | 0, t => t
  | fuel + 1, t =>
      if t.size > t.maxEntries then
        match t.makeRoom with
        | (t', true) => shrinkLoop fuel t'
        | (t', false) => t'
      else t

def setMaxEntries (t : ChunkTable) (n : Nat) : ChunkTable :=
  if n = 0 then
    { t with maxEntries := 0, freedFifo := [], freedHead := 0, freedTail := 0 }
  else
    let t' := refillFreedQueue
      { t with
        maxEntries := n
        freedFifo := List.replicate (n + 1) 0
        freedHead := 0
        freedTail := 0 }
    shrinkLoop t'.size t'

/-! ## Records in and out -/

/-- At the cap something freed has to go first. -/
def roomForOne (t : ChunkTable) : ChunkTable × Bool :=
  if t.maxEntries ≠ 0 ∧ t.size ≥ t.maxEntries then t.makeRoom else (t, true)

/-- Grow if one more record would pass the load bound. -/
def growForOne (t : ChunkTable) : ChunkTable × Bool :=
  if (t.size + 1) * kLoadDenominator > t.capacity * kLoadNumerator then
    t.growTo (t.capacity * 2)
  else (t, true)

def refuse (t : ChunkTable) : ChunkTable :=
  { t with stats := { t.stats with drops := t.stats.drops + 1 } }

/-- Place a record and count it. -/
def addNew (t : ChunkTable) (c : Chunk) : ChunkTable :=
  { t.place c with
    size := (t.place c).size + 1
    stats := { (t.place c).stats with inserts := (t.place c).stats.inserts + 1 } }

def insertLive (t : ChunkTable) (key size usable allocMs tid : Nat) : ChunkTable × Bool :=
  if key = 0 then (t, false)
  else
    match t.find key with
    | some i =>
        let t' := t.set i ((t.slots i).reuse size usable allocMs tid)
        ({ t' with stats := { t'.stats with updates := t'.stats.updates + 1 } }, true)
    | none =>
        match t.roomForOne with
        | (t, false) => (t.refuse, false)
        | (t, true) =>
            match t.growForOne with
            | (t, false) => (t.refuse, false)
            | (t, true) => (t.addNew (Chunk.fresh key size usable allocMs tid), true)

def markRefined (t : ChunkTable) (key exactOverhead headerFlags : Nat) : ChunkTable × Bool :=
  if exactOverhead > 2 ^ 16 - 1 then (t, false)
  else
    match t.find key with
    | none => (t, false)
    | some i => (t.set i ((t.slots i).refine exactOverhead headerFlags), true)

def clearRefined (t : ChunkTable) : ChunkTable :=
  { t with slots := fun i => (t.slots i).unrefine }

def markFreed (t : ChunkTable) (key freeMs : Nat) : ChunkTable × Bool :=
  match t.find key with
  | none => (t, false)
  | some i =>
      ((t.set i { t.slots i with state := .freed, freeMs := freeMs }).pushFreed key, true)

end ChunkTable

end Heapviz
