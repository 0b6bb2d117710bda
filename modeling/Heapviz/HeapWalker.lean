import Heapviz.Abi
import Heapviz.Grid

/-!
# Reading a heap from outside

`tui/heap_walker.cpp`: the live set of a process that was never
instrumented, recovered from the chunk headers in its memory. A header
says how far the next one is, and the next one says whether the chunk
before it is in use, so the walk gives its verdict on a chunk one header
late. Memory is read in blocks, each starting at the header the walk
stands at.

The target is whatever `process_vm_readv` answers. `ReadFn` has the
number of calls made before as an argument: the memory may change between
two reads, and so may what a read of the same place delivers.
-/

namespace Heapviz

def kWalkBlockBytes : Nat := 256 * 1024

def kMaxChunksPerRegion : Nat := 4 * 2 ^ 20

def kMaxBlocksPerRegion : Nat := 8192

def kWalkMinChunk : Nat := 32

def kWalkAlign : Nat := 16

def kPermRead : Nat := 1

/-- A region with its permissions. -/
structure Mapping extends Region where
  perms : Nat
deriving Repr, DecidableEq

/-- Whether `walk` looks at the region at all. -/
def Mapping.walkable (r : Mapping) : Bool := r.allocatable && r.perms &&& kPermRead != 0

structure WalkedChunk where
  userPtr : Nat
  chunkSize : Nat
  usable : Nat
deriving Repr, DecidableEq

inductive WalkStatus where
  | ok
  | denied
  | targetGone
  | failed
deriving Repr, DecidableEq

structure WalkResult where
  status : WalkStatus
  chunks : Nat
  bytes : Nat
  freeChunks : Nat
  freeBytes : Nat
  opaqueBytes : Nat
  truncated : Bool
deriving Repr, DecidableEq

def WalkResult.init : WalkResult := ⟨.ok, 0, 0, 0, 0, 0, false⟩

/-! ## Reading -/

inductive ReadErrno where
  | eperm
  | eacces
  | esrch
  | other
deriving Repr, DecidableEq

inductive ReadReply where
  | failed (errno : ReadErrno)
  | bytes (read : List UInt8)
deriving Repr, DecidableEq

/-- What the `k`-th call answers for an address and a length. -/
abbrev ReadFn := Nat → Nat → Nat → ReadReply

structure HeapWalker where
  denied : Bool
  gone : Bool
  reads : Nat
  blocks : Nat
deriving Repr, DecidableEq

def HeapWalker.init : HeapWalker := ⟨false, false, 0, 0⟩

/-- `read_block`, with `none` for a result that is not positive. No call
delivers more than it was asked for. -/
def HeapWalker.readBlock (w : HeapWalker) (read : ReadFn) (addr len : Nat) :
    HeapWalker × Option (List UInt8) :=
  let reply := read w.reads addr len
  let w := { w with reads := w.reads + 1 }
  match reply with
  | .failed .eperm | .failed .eacces => ({ w with denied := true }, none)
  | .failed .esrch => ({ w with gone := true }, none)
  | .failed .other => (w, none)
  | .bytes read => (w, if read.take len = [] then none else some (read.take len))

/-- A little-endian word. -/
def leWord (bytes : List UInt8) : Nat := bytes.foldr (fun b n => b.toNat + 256 * n) 0

/-- The size field of a header that starts at this offset of the block. -/
def sizeField (block : List UInt8) (off : Nat) : Nat := leWord ((block.drop (off + 8)).take 8)

/-- The chunk's size: the low three bits are flags. -/
def sizeOfField (field : Nat) : Nat := field / 8 * 8

/-- The `PREV_INUSE` flag. -/
def prevInUse (field : Nat) : Bool := field % 2 == 1

/-! ## Where the chain begins -/

def kMinChainProbe : Nat := 4

def kMaxProbeBytes : Nat := 8 * 1024

/-- `score_chain`, for at most `rounds` headers. -/
def scoreChain (block : List UInt8) (span : Nat) : Nat → Nat → Nat
  | 0, _ => 0
  | rounds + 1, off =>
      if off + 16 ≤ block.length then
        let size := sizeOfField (sizeField block off)
        if size < kWalkMinChunk ∨ size % kWalkAlign ≠ 0 ∨ size > span then 0
        else scoreChain block span rounds (off + size) + 1
      else 0

/-- The loop of `find_chain_start` over the next candidates: the best offset
so far and its score. -/
def probeLoop (block : List UInt8) (span : Nat) : Nat → Nat → Nat → Nat → Nat × Nat
  | 0, _, bestOff, bestScore => (bestOff, bestScore)
  | candidates + 1, off, bestOff, bestScore =>
      let score := scoreChain block span 64 off
      if score > bestScore then
        if score ≥ 64 then (off, score)
        else probeLoop block span candidates (off + kWalkAlign) off score
      else probeLoop block span candidates (off + kWalkAlign) bestOff bestScore

/-- `find_chain_start`; as many candidates as headers fit below the limit. -/
def findChainStart (block : List UInt8) (span : Nat) : Option Nat :=
  let limit := min block.length kMaxProbeBytes
  let (bestOff, bestScore) := probeLoop block span (limit / kWalkAlign) 0 0 0
  if bestScore ≥ kMinChainProbe then some bestOff else none

/-- The best offset so far is the one the best score belongs to. -/
theorem probeLoop_score {block : List UInt8} {span : Nat} (candidates off : Nat)
    {bestOff bestScore : Nat}
    (h : bestScore = 0 ∨ scoreChain block span 64 bestOff = bestScore) :
    (probeLoop block span candidates off bestOff bestScore).2 = 0 ∨
      scoreChain block span 64 (probeLoop block span candidates off bestOff bestScore).1 =
        (probeLoop block span candidates off bestOff bestScore).2 := by
  induction candidates generalizing off bestOff bestScore with
  | zero => exact h
  | succ candidates ih =>
      unfold probeLoop
      dsimp only
      split_ifs
      · exact .inr rfl
      · exact ih _ (.inr rfl)
      · exact ih _ h

/-- The chain starts at a header the probe has read. -/
theorem findChainStart_le {block : List UInt8} {span off : Nat}
    (h : findChainStart block span = some off) : off + 16 ≤ block.length := by
  have hscore := @probeLoop_score block span (min block.length kMaxProbeBytes / kWalkAlign) 0 0 0
    (.inl rfl)
  unfold findChainStart at h
  dsimp only at h
  split_ifs at h with hmin
  obtain rfl := Option.some.inj h
  by_contra hlen
  have hzero : scoreChain block span 64
      (probeLoop block span (min block.length kMaxProbeBytes / kWalkAlign) 0 0 0).1 = 0 := by
    rw [scoreChain, if_neg hlen]
  unfold kMinChainProbe at hmin
  rcases hscore with hnone | hbest
  · omega
  · omega

/-! ## From header to header -/

/-- What `walk_region` carries along: the chunks it has found, the one that
awaits its verdict, and the caller's output and sums. -/
structure Scan where
  found : Nat
  prev : Option (Nat × Nat)
  out : List WalkedChunk
  sum : WalkResult
deriving Repr, DecidableEq

/-- ptmalloc lets a chunk use its successor's first word. -/
def walkedAt (addr size : Nat) : WalkedChunk := ⟨addr + 16, size, size - 8⟩

namespace Scan

def emit (s : Scan) (addr size : Nat) : Scan :=
  { s with
    found := s.found + 1
    out := s.out ++ [walkedAt addr size]
    sum := { s.sum with
      chunks := s.sum.chunks + 1
      bytes := s.sum.bytes + (walkedAt addr size).usable } }

/-- The verdict on the previous chunk, and whether that made too many. -/
def verdict (s : Scan) (inUse : Bool) : Scan × Bool :=
  match s.prev with
  | none => (s, false)
  | some (addr, size) =>
      if inUse then
        let s := s.emit addr size
        if s.found ≥ kMaxChunksPerRegion then
          ({ s with sum := { s.sum with truncated := true } }, true)
        else ({ s with prev := none }, false)
      else
        ({ s with
          prev := none
          sum := { s.sum with
            freeChunks := s.sum.freeChunks + 1
            freeBytes := s.sum.freeBytes + size } }, false)

/-- The header is one the walk follows. An address of a region below `2 ^ 63`
is no problem, its sum with a size may wrap. -/
def Follows (r : Mapping) (here size : Nat) : Prop :=
  ¬ (size < kWalkMinChunk ∨ size % kWalkAlign ≠ 0 ∨ add64 here size > r.limit ∨
    size > r.limit - r.start)

instance (r : Mapping) (here size : Nat) : Decidable (Follows r here size) :=
  inferInstanceAs (Decidable (¬ _))

/-- One header: the scan after it, and how far the next one is unless the
chain ends here. -/
def visit (s : Scan) (r : Mapping) (here field : Nat) : Scan × Option Nat :=
  let (s, full) := s.verdict (prevInUse field)
  if full then (s, none)
  else if Follows r here (sizeOfField field) then
    ({ s with prev := some (here, sizeOfField field) }, some (sizeOfField field))
  else (s, none)

/-- The chunk that awaits its verdict. -/
def pending (s : Scan) : List (Nat × Nat) := s.prev.toList

section Visit

variable {s s' : Scan} {r : Mapping} {here field : Nat} {next : Option Nat}

/-- What a header can do: end the walk because there are too many chunks, end
it because it makes no sense, or lead on. -/
theorem visit_cases (h : s.visit r here field = (s', next)) :
    ((s.verdict (prevInUse field)).2 = true ∧ s' = (s.verdict (prevInUse field)).1 ∧ next = none) ∨
      ((s.verdict (prevInUse field)).2 = false ∧ ¬ Follows r here (sizeOfField field) ∧
        s' = (s.verdict (prevInUse field)).1 ∧ next = none) ∨
      ((s.verdict (prevInUse field)).2 = false ∧ Follows r here (sizeOfField field) ∧
        s' = { (s.verdict (prevInUse field)).1 with prev := some (here, sizeOfField field) } ∧
        next = some (sizeOfField field)) := by
  unfold visit at h
  dsimp only at h
  split_ifs at h with hfull hfollows
  · obtain ⟨rfl, rfl⟩ := Prod.mk.inj h
    exact .inl ⟨hfull, rfl, rfl⟩
  · obtain ⟨rfl, rfl⟩ := Prod.mk.inj h
    exact .inr (.inr ⟨Bool.eq_false_iff.mpr hfull, hfollows, rfl, rfl⟩)
  · obtain ⟨rfl, rfl⟩ := Prod.mk.inj h
    exact .inr (.inl ⟨Bool.eq_false_iff.mpr hfull, hfollows, rfl, rfl⟩)

theorem visit_some {size : Nat} (h : s.visit r here field = (s', some size)) :
    kWalkMinChunk ≤ size := by
  rcases visit_cases h with ⟨-, -, hnext⟩ | ⟨-, -, -, hnext⟩ | ⟨-, hfollows, -, hnext⟩
  · cases hnext
  · cases hnext
  · obtain rfl := Option.some.inj hnext
    unfold Follows at hfollows
    omega

/-- The chunks a verdict adds to the output, and what it adds to the rest. -/
theorem verdict_out (s : Scan) (inUse : Bool) :
    (s.verdict inUse).1.out =
        s.out ++ (s.pending.filter fun _ => inUse).map (fun c => walkedAt c.1 c.2) ∧
      (s.verdict inUse).1.found = s.found + (s.pending.filter fun _ => inUse).length ∧
      (s.verdict inUse).1.sum.freeBytes =
        s.sum.freeBytes + ((s.pending.filter fun _ => !inUse).map Prod.snd).sum ∧
      (s.verdict inUse).1.sum.opaqueBytes = s.sum.opaqueBytes ∧
      (s.verdict inUse).1.sum.status = s.sum.status := by
  unfold verdict pending
  cases s.prev with
  | none => simp
  | some c =>
      cases inUse with
      | false => simp
      | true =>
          simp only [if_true]
          split_ifs <;> simp [emit]

/-- A verdict that goes on leaves nothing pending; one that does not has found
the last chunk of the ceiling. -/
theorem verdict_full (s : Scan) (inUse : Bool) :
    ((s.verdict inUse).2 = false → (s.verdict inUse).1.pending = [] ∧
        (s.verdict inUse).1.sum.truncated = s.sum.truncated ∧
        ((s.pending.filter fun _ => inUse) ≠ [] → s.found + 1 < kMaxChunksPerRegion)) ∧
      ((s.verdict inUse).2 = true → (s.verdict inUse).1.sum.truncated = true ∧
        (s.pending.filter fun _ => inUse) ≠ [] ∧ kMaxChunksPerRegion ≤ s.found + 1) := by
  unfold verdict pending
  cases hprev : s.prev with
  | none => simp [hprev]
  | some c =>
      cases inUse with
      | false => simp
      | true =>
          simp only [if_true]
          split_ifs with hfull
          · exact ⟨fun h => (by cases h), fun _ => ⟨rfl, by simp, hfull⟩⟩
          · exact ⟨fun _ => ⟨rfl, rfl, fun _ => not_le.mp hfull⟩, fun h => (by cases h)⟩

end Visit

end Scan

/-- The headers of one block: the offset the walk stops at for want of bytes,
unless the chain ended. -/
def blockLoop (r : Mapping) (block : List UInt8) (cursor off : Nat) (s : Scan) :
    Scan × Option Nat :=
  if off + 16 ≤ block.length then
    match _h : s.visit r (cursor + off) (sizeField block off) with
    | (s', none) => (s', none)
    | (s', some size) => blockLoop r block cursor (off + size) s'
  else (s, some off)
termination_by block.length - off
decreasing_by
  have := Scan.visit_some _h
  unfold kWalkMinChunk at this
  omega

section Block

variable {r : Mapping} {block : List UInt8} {cursor off : Nat} {s s' : Scan}

theorem blockLoop_done (h : ¬ off + 16 ≤ block.length) :
    blockLoop r block cursor off s = (s, some off) := by
  rw [blockLoop, if_neg h]

theorem blockLoop_stop (h : off + 16 ≤ block.length)
    (hv : s.visit r (cursor + off) (sizeField block off) = (s', none)) :
    blockLoop r block cursor off s = (s', none) := by
  rw [blockLoop, if_pos h]
  split
  · rename_i heq
    rw [← heq, hv]
  · rename_i heq
    rw [hv] at heq
    cases heq

theorem blockLoop_next {size : Nat} (h : off + 16 ≤ block.length)
    (hv : s.visit r (cursor + off) (sizeField block off) = (s', some size)) :
    blockLoop r block cursor off s = blockLoop r block cursor (off + size) s' := by
  rw [blockLoop, if_pos h]
  split
  · rename_i heq
    rw [hv] at heq
    cases heq
  · rename_i heq
    rw [hv] at heq
    obtain ⟨rfl, hsize⟩ := Prod.mk.inj heq
    obtain rfl := Option.some.inj hsize
    rfl

/-- Induction along the headers of a block. -/
theorem blockLoop_induction (r : Mapping) (block : List UInt8) (cursor : Nat)
    {P : Nat → Scan → Prop}
    (hdone : ∀ off s, ¬ off + 16 ≤ block.length → P off s)
    (hstop : ∀ off s s', off + 16 ≤ block.length →
      s.visit r (cursor + off) (sizeField block off) = (s', none) → P off s)
    (hnext : ∀ off s s' size, off + 16 ≤ block.length →
      s.visit r (cursor + off) (sizeField block off) = (s', some size) →
      P (off + size) s' → P off s) (off : Nat) (s : Scan) : P off s := by
  induction off, s using blockLoop.induct r block cursor with
  | case1 off s h s' hv => exact hstop off s s' h hv
  | case2 off s h s' size hv ih => exact hnext off s s' size h hv ih
  | case3 off s h => exact hdone off s h

end Block

namespace HeapWalker

/-- The blocks of a region, as many as are left of the ceiling. -/
def walkBlocks (read : ReadFn) (r : Mapping) :
    Nat → HeapWalker → Nat → Scan → HeapWalker × Scan
  | 0, w, cursor, s =>
      if cursor + 16 ≤ r.limit then (w, { s with sum := { s.sum with truncated := true } })
      else (w, s)
  | left + 1, w, cursor, s =>
      if cursor + 16 ≤ r.limit then
        match w.readBlock read cursor (min (r.limit - cursor) kWalkBlockBytes) with
        | (w, none) => (w, s)
        | (w, some block) =>
            let w := { w with blocks := w.blocks + 1 }
            match blockLoop r block cursor 0 s with
            | (s, none) => (w, s)
            | (s, some off) => if off = 0 then (w, s) else walkBlocks read r left w (cursor + off) s
      else (w, s)

/-- `walk_region`; the flag is whether the chain produced a chunk. -/
def walkRegion (w : HeapWalker) (read : ReadFn) (r : Mapping) (out : List WalkedChunk)
    (sum : WalkResult) : HeapWalker × Scan × Bool :=
  let s : Scan := ⟨0, none, out, sum⟩
  if r.limit ≤ r.start ∨ r.limit - r.start < kWalkMinChunk then (w, s, false)
  else
    match w.readBlock read r.start (min (r.limit - r.start) kWalkBlockBytes) with
    | (w, none) => (w, s, false)
    | (w, some block) =>
        match findChainStart block (r.limit - r.start) with
        | none => (w, s, false)
        | some off =>
            let (w, s) := walkBlocks read r kMaxBlocksPerRegion w (r.start + off) s
            (w, s, 0 < s.found)

/-- What the output holds of a region. -/
def accounted (r : Mapping) (out : List WalkedChunk) : Nat :=
  ((out.filter fun c => r.start ≤ c.userPtr && c.userPtr < r.limit).map WalkedChunk.chunkSize).sum

/-- The bytes of a region the walk has no chunk for. -/
def opaqueOf (r : Mapping) (out : List WalkedChunk) (chained : Bool) : Nat :=
  let span := sub64 r.limit r.start
  if chained then if span > accounted r out then span - accounted r out else 0 else span

/-- The loop of `walk`. -/
def walkRegions (read : ReadFn) : List Mapping → HeapWalker → List WalkedChunk → WalkResult →
    HeapWalker × List WalkedChunk × WalkResult
  | [], w, out, sum => (w, out, sum)
  | r :: rs, w, out, sum =>
      if r.walkable = false then walkRegions read rs w out sum
      else
        let (w, s, chained) := w.walkRegion read r out sum
        if w.denied then (w, s.out, { s.sum with status := .denied })
        else if w.gone then (w, s.out, { s.sum with status := .targetGone })
        else walkRegions read rs w s.out
          { s.sum with opaqueBytes := s.sum.opaqueBytes + opaqueOf r s.out chained }

def walk (w : HeapWalker) (read : ReadFn) (regions : List Mapping) :
    HeapWalker × List WalkedChunk × WalkResult :=
  if w.denied then (w, [], { WalkResult.init with status := .denied })
  else if w.gone then (w, [], { WalkResult.init with status := .targetGone })
  else walkRegions read regions w [] WalkResult.init

/-! ## One block, one region -/

section Blocks

variable {w w' : HeapWalker} {read : ReadFn} {r : Mapping} {left cursor : Nat} {s s' : Scan}
  {block : List UInt8}

theorem walkBlocks_done (h : ¬ cursor + 16 ≤ r.limit) :
    walkBlocks read r left w cursor s = (w, s) := by
  cases left with
  | zero => exact if_neg h
  | succ left => exact if_neg h

theorem walkBlocks_ceiling (h : cursor + 16 ≤ r.limit) :
    walkBlocks read r 0 w cursor s = (w, { s with sum := { s.sum with truncated := true } }) :=
  if_pos h

/-- A block within the region is read and its headers are followed. -/
theorem walkBlocks_succ (h : cursor + 16 ≤ r.limit) :
    walkBlocks read r (left + 1) w cursor s =
      match w.readBlock read cursor (min (r.limit - cursor) kWalkBlockBytes) with
      | (w, none) => (w, s)
      | (w, some block) =>
          let w := { w with blocks := w.blocks + 1 }
          match blockLoop r block cursor 0 s with
          | (s, none) => (w, s)
          | (s, some off) => if off = 0 then (w, s) else walkBlocks read r left w (cursor + off) s :=
  if_pos h

theorem walkBlocks_unread (h : cursor + 16 ≤ r.limit)
    (hb : w.readBlock read cursor (min (r.limit - cursor) kWalkBlockBytes) = (w', none)) :
    walkBlocks read r (left + 1) w cursor s = (w', s) := by
  rw [walkBlocks_succ h, hb]

theorem walkBlocks_ended (h : cursor + 16 ≤ r.limit)
    (hb : w.readBlock read cursor (min (r.limit - cursor) kWalkBlockBytes) = (w', some block))
    (hl : blockLoop r block cursor 0 s = (s', none)) :
    walkBlocks read r (left + 1) w cursor s = ({ w' with blocks := w'.blocks + 1 }, s') := by
  rw [walkBlocks_succ h, hb]
  dsimp only
  rw [hl]

theorem walkBlocks_stuck (h : cursor + 16 ≤ r.limit)
    (hb : w.readBlock read cursor (min (r.limit - cursor) kWalkBlockBytes) = (w', some block))
    (hl : blockLoop r block cursor 0 s = (s', some 0)) :
    walkBlocks read r (left + 1) w cursor s = ({ w' with blocks := w'.blocks + 1 }, s') := by
  rw [walkBlocks_succ h, hb]
  dsimp only
  rw [hl]
  exact if_pos rfl

theorem walkBlocks_next {off : Nat} (h : cursor + 16 ≤ r.limit)
    (hb : w.readBlock read cursor (min (r.limit - cursor) kWalkBlockBytes) = (w', some block))
    (hl : blockLoop r block cursor 0 s = (s', some off)) (hoff : off ≠ 0) :
    walkBlocks read r (left + 1) w cursor s =
      walkBlocks read r left { w' with blocks := w'.blocks + 1 } (cursor + off) s' := by
  rw [walkBlocks_succ h, hb]
  dsimp only
  rw [hl]
  exact if_neg hoff

/-- Induction along the blocks of a region. -/
theorem walkBlocks_induction (read : ReadFn) (r : Mapping)
    {P : Nat → HeapWalker → Nat → Scan → Prop}
    (hdone : ∀ left w cursor s, ¬ cursor + 16 ≤ r.limit → P left w cursor s)
    (hceiling : ∀ w cursor s, cursor + 16 ≤ r.limit → P 0 w cursor s)
    (hunread : ∀ left w cursor s w', cursor + 16 ≤ r.limit →
      w.readBlock read cursor (min (r.limit - cursor) kWalkBlockBytes) = (w', none) →
      P (left + 1) w cursor s)
    (hended : ∀ left w cursor s w' block s', cursor + 16 ≤ r.limit →
      w.readBlock read cursor (min (r.limit - cursor) kWalkBlockBytes) = (w', some block) →
      blockLoop r block cursor 0 s = (s', none) → P (left + 1) w cursor s)
    (hstuck : ∀ left w cursor s w' block s', cursor + 16 ≤ r.limit →
      w.readBlock read cursor (min (r.limit - cursor) kWalkBlockBytes) = (w', some block) →
      blockLoop r block cursor 0 s = (s', some 0) → P (left + 1) w cursor s)
    (hnext : ∀ left w cursor s w' block s' off, cursor + 16 ≤ r.limit →
      w.readBlock read cursor (min (r.limit - cursor) kWalkBlockBytes) = (w', some block) →
      blockLoop r block cursor 0 s = (s', some off) → off ≠ 0 →
      P left { w' with blocks := w'.blocks + 1 } (cursor + off) s' → P (left + 1) w cursor s)
    (left : Nat) (w : HeapWalker) (cursor : Nat) (s : Scan) : P left w cursor s := by
  induction left generalizing w cursor s with
  | zero =>
      by_cases h : cursor + 16 ≤ r.limit
      · exact hceiling w cursor s h
      · exact hdone 0 w cursor s h
  | succ left ih =>
      by_cases h : cursor + 16 ≤ r.limit
      · rcases hb : w.readBlock read cursor (min (r.limit - cursor) kWalkBlockBytes) with
          ⟨w', none | block⟩
        · exact hunread left w cursor s w' h hb
        · rcases hl : blockLoop r block cursor 0 s with ⟨s', none | off⟩
          · exact hended left w cursor s w' block s' h hb hl
          · by_cases hoff : off = 0
            · subst hoff
              exact hstuck left w cursor s w' block s' h hb hl
            · exact hnext left w cursor s w' block s' off h hb hl hoff (ih _ _ _)
      · exact hdone (left + 1) w cursor s h

end Blocks

section Region

variable {w w' : HeapWalker} {read : ReadFn} {r : Mapping} {out : List WalkedChunk}
  {sum : WalkResult} {block : List UInt8}

theorem walkRegion_small (h : r.limit ≤ r.start ∨ r.limit - r.start < kWalkMinChunk) :
    w.walkRegion read r out sum = (w, ⟨0, none, out, sum⟩, false) := by
  rw [walkRegion, if_pos h]

theorem walkRegion_unread (h : ¬ (r.limit ≤ r.start ∨ r.limit - r.start < kWalkMinChunk))
    (hb : w.readBlock read r.start (min (r.limit - r.start) kWalkBlockBytes) = (w', none)) :
    w.walkRegion read r out sum = (w', ⟨0, none, out, sum⟩, false) := by
  rw [walkRegion, if_neg h, hb]

theorem walkRegion_unchained (h : ¬ (r.limit ≤ r.start ∨ r.limit - r.start < kWalkMinChunk))
    (hb : w.readBlock read r.start (min (r.limit - r.start) kWalkBlockBytes) = (w', some block))
    (hstart : findChainStart block (r.limit - r.start) = none) :
    w.walkRegion read r out sum = (w', ⟨0, none, out, sum⟩, false) := by
  rw [walkRegion, if_neg h, hb]
  dsimp only
  rw [hstart]

theorem walkRegion_chained {off : Nat}
    (h : ¬ (r.limit ≤ r.start ∨ r.limit - r.start < kWalkMinChunk))
    (hb : w.readBlock read r.start (min (r.limit - r.start) kWalkBlockBytes) = (w', some block))
    (hstart : findChainStart block (r.limit - r.start) = some off) :
    w.walkRegion read r out sum =
      ((walkBlocks read r kMaxBlocksPerRegion w' (r.start + off) ⟨0, none, out, sum⟩).1,
        (walkBlocks read r kMaxBlocksPerRegion w' (r.start + off) ⟨0, none, out, sum⟩).2,
        decide (0 < (walkBlocks read r kMaxBlocksPerRegion w' (r.start + off)
          ⟨0, none, out, sum⟩).2.found)) := by
  rw [walkRegion, if_neg h, hb]
  dsimp only
  rw [hstart]

/-- A region is left alone but for its probe, or its chain is walked. -/
theorem walkRegion_cases (w : HeapWalker) (read : ReadFn) (r : Mapping) (out : List WalkedChunk)
    (sum : WalkResult) :
    (∃ w', (w' = w ∨
        ∃ b, w.readBlock read r.start (min (r.limit - r.start) kWalkBlockBytes) = (w', b)) ∧
      w.walkRegion read r out sum = (w', ⟨0, none, out, sum⟩, false)) ∨
    ∃ w' block off,
      w.readBlock read r.start (min (r.limit - r.start) kWalkBlockBytes) = (w', some block) ∧
        findChainStart block (r.limit - r.start) = some off ∧
        w.walkRegion read r out sum =
          ((walkBlocks read r kMaxBlocksPerRegion w' (r.start + off) ⟨0, none, out, sum⟩).1,
            (walkBlocks read r kMaxBlocksPerRegion w' (r.start + off) ⟨0, none, out, sum⟩).2,
            decide (0 < (walkBlocks read r kMaxBlocksPerRegion w' (r.start + off)
              ⟨0, none, out, sum⟩).2.found)) := by
  by_cases h : r.limit ≤ r.start ∨ r.limit - r.start < kWalkMinChunk
  · exact .inl ⟨w, .inl rfl, walkRegion_small h⟩
  · rcases hb : w.readBlock read r.start (min (r.limit - r.start) kWalkBlockBytes) with
      ⟨w', none | block⟩
    · exact .inl ⟨w', .inr ⟨none, rfl⟩, walkRegion_unread h hb⟩
    · cases hstart : findChainStart block (r.limit - r.start) with
      | none => exact .inl ⟨w', .inr ⟨some block, rfl⟩, walkRegion_unchained h hb hstart⟩
      | some off => exact .inr ⟨w', block, off, rfl, hstart, walkRegion_chained h hb hstart⟩

end Region

section Regions

variable {w : HeapWalker} {read : ReadFn} {r : Mapping} {rs : List Mapping}
  {out : List WalkedChunk} {sum : WalkResult}

/-- The sums after a region, with what of it is opaque. -/
def afterRegion (w : HeapWalker) (read : ReadFn) (r : Mapping) (out : List WalkedChunk)
    (sum : WalkResult) : WalkResult :=
  let (_, s, chained) := w.walkRegion read r out sum
  { s.sum with opaqueBytes := s.sum.opaqueBytes + opaqueOf r s.out chained }

theorem walkRegions_skip (h : r.walkable = false) :
    walkRegions read (r :: rs) w out sum = walkRegions read rs w out sum := by
  rw [walkRegions, if_pos h]

/-- A walk that ends well has gone on after every region. -/
theorem walkRegions_next (h : r.walkable = true)
    (hok : (walkRegions read (r :: rs) w out sum).2.2.status = .ok) :
    walkRegions read (r :: rs) w out sum =
      walkRegions read rs (w.walkRegion read r out sum).1 (w.walkRegion read r out sum).2.1.out
        (w.afterRegion read r out sum) := by
  rw [walkRegions, if_neg (by rw [h]; exact Bool.true_eq_false_eq_False)] at hok ⊢
  dsimp only at hok ⊢
  by_cases hdenied : (w.walkRegion read r out sum).1.denied = true
  · rw [if_pos hdenied] at hok
    cases hok
  · by_cases hgone : (w.walkRegion read r out sum).1.gone = true
    · rw [if_neg hdenied, if_pos hgone] at hok
      cases hok
    · rw [if_neg hdenied, if_neg hgone]
      rfl

theorem walk_ok (hok : (w.walk read rs).2.2.status = .ok) :
    w.walk read rs = walkRegions read rs w [] WalkResult.init := by
  unfold walk at hok ⊢
  by_cases hdenied : w.denied = true
  · rw [if_pos hdenied] at hok
    cases hok
  · by_cases hgone : w.gone = true
    · rw [if_neg hdenied, if_pos hgone] at hok
      cases hok
    · rw [if_neg hdenied, if_neg hgone]

end Regions

/-! ## Every walk is bounded -/

section Bound

variable {w w' : HeapWalker} {read : ReadFn}

theorem readBlock_reads {addr len : Nat} {b : Option (List UInt8)}
    (h : w.readBlock read addr len = (w', b)) : w'.reads = w.reads + 1 := by
  have hfst := congrArg Prod.fst h
  rw [← (show (w.readBlock read addr len).1 = w' from hfst)]
  unfold readBlock
  dsimp only
  split <;> rfl

/-- One read for each block, and no more blocks than are left. -/
theorem walkBlocks_reads {r : Mapping} {left cursor : Nat} {s : Scan} :
    (walkBlocks read r left w cursor s).1.reads ≤ w.reads + left := by
  induction left, w, cursor, s using walkBlocks_induction read r with
  | hdone left w cursor s h =>
      rw [walkBlocks_done h]
      exact Nat.le_add_right ..
  | hceiling w cursor s h =>
      rw [walkBlocks_ceiling h]
      exact Nat.le_refl _
  | hunread left w cursor s w' h hb =>
      rw [walkBlocks_unread h hb]
      have := readBlock_reads hb
      dsimp only
      omega
  | hended left w cursor s w' block s' h hb hl =>
      rw [walkBlocks_ended h hb hl]
      have := readBlock_reads hb
      dsimp only
      omega
  | hstuck left w cursor s w' block s' h hb hl =>
      rw [walkBlocks_stuck h hb hl]
      have := readBlock_reads hb
      dsimp only
      omega
  | hnext left w cursor s w' block s' off h hb hl hoff ih =>
      rw [walkBlocks_next h hb hl hoff]
      have := readBlock_reads hb
      dsimp only at ih
      omega

/-- A region takes its probe and its blocks, whatever they hold. -/
theorem walkRegion_reads (w : HeapWalker) (read : ReadFn) (r : Mapping) (out : List WalkedChunk)
    (sum : WalkResult) :
    (w.walkRegion read r out sum).1.reads ≤ w.reads + 1 + kMaxBlocksPerRegion := by
  rcases w.walkRegion_cases read r out sum with
    ⟨w', hw', heq⟩ | ⟨w', block, off, hb, -, heq⟩
  · rw [heq]
    rcases hw' with rfl | ⟨b, hb⟩
    · dsimp only
      omega
    · have := readBlock_reads hb
      dsimp only
      omega
  · rw [heq, ← readBlock_reads hb]
    exact walkBlocks_reads

end Bound

end HeapWalker

end Heapviz
