import Mathlib.Logic.Function.Basic
import Heapviz.Run
import Heapviz.Abi

/-!
# The event ring as a step machine

`hv_ring_push` and `hv_ring_drain` (`common/heapviz_ring.h`) taken apart
into the steps the memory sees: every load, store, compare-exchange
attempt and fetch-add of a shared word, and every write or read of one
field of a slot, is one step. Comparisons and other work on locals ride
on the step before them.

`pushStep` and `drainStep` are the two functions as programs over a
program counter; `RingSys.step` interleaves any number of producers with
one consumer. The `claimed`, `drained`, `started` and `completed` fields
of `RingSys` are history: no step reads them.
-/

namespace Heapviz

/-! ## The ring in memory -/

/-- The part of `HvRingHeader` the two functions use, and the slots behind
it. Slots are indexed by their place in the array; only the first
`capacity` of them exist in the mapping. -/
structure HvRing where
  capacity : Nat
  capacityLog2 : Nat
  head : Nat
  tail : Nat
  dropped : Nat
  totalEvents : Nat
  slots : Nat → HvEvent

/-- The zero-filled ring `hv_ring_setup` publishes. -/
def HvRing.init (capacity : Nat) : HvRing where
  capacity := capacity
  capacityLog2 := hvLog2Pow2 capacity
  head := 0
  tail := 0
  dropped := 0
  totalEvents := 0
  slots := fun _ => HvEvent.zero

/-- `hv_ring_slot`: the array index of a sequence number. -/
def HvRing.slotIndex (r : HvRing) (seq : Nat) : Nat := seq &&& (r.capacity - 1)

def HvRing.slot (r : HvRing) (seq : Nat) : HvEvent := r.slots (r.slotIndex seq)

def HvRing.setSlot (r : HvRing) (seq : Nat) (e : HvEvent) : HvRing :=
  { r with slots := Function.update r.slots (r.slotIndex seq) e }

/-- The parity flag of a sequence number's lap. -/
def lapParity (shift seq : Nat) : Nat :=
  if (seq >>> shift) &&& 1 ≠ 0 then hvOpParityBit else 0

/-- The `op` byte a producer release-stores to publish its slot. -/
def publishedOp (shift seq opcode : Nat) : Nat :=
  (opcode &&& hvOpMask) ||| hvOpCommitBit ||| lapParity shift seq

/-! ## Pushing -/

/-- The arguments of one `hv_ring_push` call. -/
structure HvPush where
  timestamp : Nat
  ptr : Nat
  size : Nat
  usable : Nat
  tid : Nat
  opcode : Nat
deriving Repr, DecidableEq

/-- The plain stores of a producer, in program order; the `op` byte is not
one of them. -/
inductive HvField where
  | timestamp
  | ptr
  | size
  | usable
  | tid0
  | tid1
  | tid2
deriving Repr, DecidableEq

/-- Program order of the plain stores, and of the consumer's copy. -/
def fieldOrder : List HvField :=
  [.timestamp, .ptr, .size, .usable, .tid0, .tid1, .tid2]

def HvEvent.get (e : HvEvent) : HvField → Nat
  | .timestamp => e.timestamp
  | .ptr => e.ptr
  | .size => e.size
  | .usable => e.usable
  | .tid0 => e.tid0
  | .tid1 => e.tid1
  | .tid2 => e.tid2

def HvEvent.set (e : HvEvent) (v : Nat) : HvField → HvEvent
  | .timestamp => { e with timestamp := v }
  | .ptr => { e with ptr := v }
  | .size => { e with size := v }
  | .usable => { e with usable := v }
  | .tid0 => { e with tid0 := v }
  | .tid1 => { e with tid1 := v }
  | .tid2 => { e with tid2 := v }

/-- The slot a push leaves behind, `op` byte aside. -/
def HvPush.event (a : HvPush) : HvEvent :=
  hvEventSetTid ⟨a.timestamp, a.ptr, a.size, a.usable, 0, 0, 0, 0⟩ a.tid

/-- Where a producer is inside `hv_ring_push`: about to perform the named
access. -/
inductive PushPc where
  | idle
  | loadHead (a : HvPush)
  | loadTail (a : HvPush) (head : Nat)
  | casHead (a : HvPush) (head : Nat)
  | bumpDropped (a : HvPush)
  | write (a : HvPush) (seq next : Nat)
  | bumpTotal (a : HvPush) (seq : Nat)
deriving Repr, DecidableEq

/-- What one step of a push does: run on, win a sequence number, or return. -/
inductive PushOut where
  | run (r : HvRing) (pc : PushPc)
  | claim (r : HvRing) (a : HvPush) (seq : Nat)
  | ret (r : HvRing) (landed : Bool)

/-- One memory access of `hv_ring_push`. `spurious` lets the weak
compare-exchange fail on an equal value. After the last plain store comes
the release store of `op`. -/
def pushStep (r : HvRing) (spurious : Bool) : PushPc → PushOut
  | .idle => .run r .idle
  | .loadHead a => .run r (.loadTail a r.head)
  | .loadTail a head =>
      if sub64 head r.tail ≥ r.capacity then .run r (.bumpDropped a)
      else .run r (.casHead a head)
  | .bumpDropped _ => .ret { r with dropped := add64 r.dropped 1 } false
  | .casHead a head =>
      if r.head = head ∧ spurious = false then
        .claim { r with head := add64 head 1 } a head
      else .run r (.loadHead a)
  | .write a seq next =>
      match fieldOrder[next]? with
      | some f =>
          .run (r.setSlot seq ((r.slot seq).set (a.event.get f) f))
            (.write a seq (next + 1))
      | none =>
          .run (r.setSlot seq { r.slot seq with
            op := publishedOp r.capacityLog2 seq a.opcode }) (.bumpTotal a seq)
  | .bumpTotal _ _ => .ret { r with totalEvents := add64 r.totalEvents 1 } true

/-! ## Draining -/

/-- Where the consumer is inside `hv_ring_drain`. `out` holds the events
copied so far, so its length is the source's `n`. -/
inductive DrainPc where
  | idle
  | loadTail (max : Nat)
  | loadHead (max tail : Nat)
  | scan (max tail head : Nat) (out : List HvEvent)
  | copy (max tail head : Nat) (out : List HvEvent) (op next : Nat) (e : HvEvent)
  | finish (tail : Nat) (out : List HvEvent)
deriving Repr, DecidableEq

/-- What one step of a drain does: run on, or return the drained events. -/
inductive DrainOut where
  | run (r : HvRing) (pc : DrainPc)
  | ret (r : HvRing) (out : List HvEvent)

/-- One memory access of `hv_ring_drain`. The struct copy `out[n] = *slot`
reads the fields one at a time; the last of them, `op`, is overwritten at
once with the masked byte loaded before. -/
def drainStep (r : HvRing) : DrainPc → DrainOut
  | .idle => .run r .idle
  | .loadTail max => .run r (.loadHead max r.tail)
  | .loadHead max tail => .run r (.scan max tail r.head [])
  | .scan max tail head out =>
      if out.length < max ∧ tail ≠ head then
        let op := (r.slot tail).op
        if op &&& hvOpCommitBit = 0 then .run r (.finish tail out)
        else if op &&& hvOpParityBit ≠ lapParity r.capacityLog2 tail then
          .run r (.finish tail out)
        else .run r (.copy max tail head out op 0 HvEvent.zero)
      else .run r (.finish tail out)
  | .copy max tail head out op next e =>
      match fieldOrder[next]? with
      | some f =>
          .run r (.copy max tail head out op (next + 1)
            (e.set ((r.slot tail).get f) f))
      | none =>
          .run r (.scan max (add64 tail 1) head
            (out ++ [{ e with op := op &&& hvOpMask }]))
  | .finish tail out =>
      if out.length ≠ 0 then .ret { r with tail := tail } out else .ret r out

/-! ## Producers and consumer together -/

/-- The ring, the program counter of every producer and of the consumer,
and the history of the run. -/
structure RingSys (P : Type) where
  ring : HvRing
  pc : P → PushPc
  cons : DrainPc
  claimed : List HvPush
  drained : List HvEvent
  started : Nat
  completed : Nat

def RingSys.init (P : Type) (capacity : Nat) : RingSys P where
  ring := HvRing.init capacity
  pc := fun _ => .idle
  cons := .idle
  claimed := []
  drained := []
  started := 0
  completed := 0

/-- A scheduling decision: a producer or the consumer makes a call or
performs its next access. -/
inductive RingAct (P : Type) where
  | callPush (p : P) (a : HvPush)
  | push (p : P) (spurious : Bool)
  | callDrain (max : Nat)
  | drain

section Step

variable {P : Type} [DecidableEq P]

/-- One producer access, with its history. -/
def RingSys.pushAct (s : RingSys P) (p : P) (spurious : Bool) : RingSys P :=
  match pushStep s.ring spurious (s.pc p) with
  | .run r pc => { s with ring := r, pc := Function.update s.pc p pc }
  | .claim r a seq =>
      { s with
        ring := r
        pc := Function.update s.pc p (.write a seq 0)
        claimed := s.claimed ++ [a] }
  | .ret r _ =>
      { s with
        ring := r
        pc := Function.update s.pc p .idle
        completed := s.completed + 1 }

/-- One consumer access, with its history. -/
def RingSys.drainAct (s : RingSys P) : RingSys P :=
  match drainStep s.ring s.cons with
  | .run r pc => { s with ring := r, cons := pc }
  | .ret r out => { s with ring := r, cons := .idle, drained := s.drained ++ out }

/-- One step of the whole system; `none` when the party is not at a point
where it could do that. -/
def RingSys.step (s : RingSys P) : RingAct P → Option (RingSys P)
  | .callPush p a =>
      if s.pc p = .idle then
        some { s with
          pc := Function.update s.pc p (.loadHead a)
          started := s.started + 1 }
      else none
  | .push p spurious => if s.pc p = .idle then none else some (s.pushAct p spurious)
  | .callDrain max =>
      if s.cons = .idle then some { s with cons := .loadTail max } else none
  | .drain => if s.cons = .idle then none else some s.drainAct

/-- A state some schedule leads to from the zeroed ring. -/
def RingSys.Reachable (capacity : Nat) (s : RingSys P) : Prop :=
  ∃ acts, Run.run RingSys.step (RingSys.init P capacity) acts = some s

end Step

end Heapviz
