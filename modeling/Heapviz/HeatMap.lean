import Heapviz.Grid
import Heapviz.ChunkTable

/-!
# Per-cell aggregation

`tui/heatmap.cpp`: the cells of the map, folded forward event by event
(`onAlloc`, `onFree`, `refineOverhead`) or recomputed from the chunk table
(`rebuild`).

The map holds a pointer to the region map that translates addresses, not
a copy; every function that follows it takes the region map as it is at
that moment, `none` standing for the null pointer. The per-cell counters
`n_live` and `overhead_bytes` are 32-bit and wrap; the 64-bit byte sums
are natural numbers. A guarded decrement `x -= (x >= d) ? d : x` is the
truncated subtraction.
-/

namespace Heapviz

/-- `kNoTime`. -/
def kNoTime : Nat := 0xFFFFFFFF

structure CellAggregate where
  liveBytes : Nat
  nLive : Nat
  overheadBytes : Nat
  lastAllocMs : Nat
  lastFreeMs : Nat
deriving Repr, DecidableEq

/-- `kEmptyAggregate`. -/
def kEmptyAggregate : CellAggregate := ⟨0, 0, 0, kNoTime, kNoTime⟩

/-- `cell_occupied`: live payload, or header bytes of it. -/
def cellOccupied (a : CellAggregate) : Bool := a.nLive ≠ 0 || a.overheadBytes ≠ 0

structure HeatMap where
  grid : Grid
  cells : Nat → CellAggregate
  cellCount : Nat
  totalLiveBytes : Nat
  totalLive : Nat
  rebuilds : Nat

def HeatMap.init : HeatMap := ⟨Grid.init, fun _ => kEmptyAggregate, 0, 0, 0, 0⟩

/-- `bump`: the later stamp, with `kNoTime` before every other. -/
def bump (slot value : Nat) : Nat := if slot = kNoTime ∨ value > slot then value else slot

def overheadOf (size usable : Nat) : Nat := if usable > size then usable - size else 0

/-- The comparison of `HeatMap::configure`. -/
def HeatMap.sameGeometry (h : HeatMap) (g : Grid) : Bool :=
  (h.grid.valid == g.valid && h.grid.base == g.base && h.grid.cellBytes == g.cellBytes &&
    h.grid.cols == g.cols && h.grid.rows == g.rows) && h.cellCount == g.cellCount

/-- `HeatMap::configure`, with the flag that says a rebuild is needed. -/
def HeatMap.configure (h : HeatMap) (g : Grid) : HeatMap × Bool :=
  if h.sameGeometry g then (h, false)
  else
    ({ h with
      grid := g
      cells := fun _ => kEmptyAggregate
      cellCount := g.cellCount
      totalLiveBytes := 0
      totalLive := 0 }, true)

/-- `HeatMap::at`, total: a cell the map does not have is an empty one. -/
def HeatMap.at (h : HeatMap) (i : Nat) : CellAggregate :=
  if i < h.cellCount then h.cells i else kEmptyAggregate

/-- `coordinate_of`. -/
def coordinateOf (regions : Option RegionMap) (ptr : Nat) : Option Nat :=
  match regions with
  | none => some ptr
  | some r => r.toFlat ptr

/-- The cell number `rebuild` puts a record under. -/
def HeatMap.indexFor (h : HeatMap) (regions : Option RegionMap) (ptr : Nat) : Option Nat :=
  (coordinateOf regions ptr).bind h.grid.indexOf

/-- `cell_for`: the number of the cell the pointer it returns is to. -/
def HeatMap.cellFor (h : HeatMap) (regions : Option RegionMap) (ptr : Nat) : Option Nat :=
  (h.indexFor regions ptr).filter fun i => i < h.cellCount

def HeatMap.setCell (h : HeatMap) (i : Nat) (c : CellAggregate) : HeatMap :=
  { h with cells := Function.update h.cells i c }

/-! ## Folding one event -/

def CellAggregate.addLive (c : CellAggregate) (size usable : Nat) : CellAggregate :=
  { c with
    nLive := add32 c.nLive 1
    liveBytes := c.liveBytes + usable
    overheadBytes := add32 c.overheadBytes (overheadOf size usable) }

def CellAggregate.dropLive (c : CellAggregate) (size usable : Nat) : CellAggregate :=
  { c with
    nLive := c.nLive - 1
    liveBytes := c.liveBytes - usable
    overheadBytes := c.overheadBytes - overheadOf size usable }

def HeatMap.onAlloc (h : HeatMap) (regions : Option RegionMap) (ptr size usable nowMs : Nat) :
    HeatMap :=
  match h.cellFor regions ptr with
  | none => h
  | some i =>
      let c := (h.cells i).addLive size usable
      { h.setCell i { c with lastAllocMs := bump c.lastAllocMs nowMs } with
        totalLive := h.totalLive + 1
        totalLiveBytes := h.totalLiveBytes + usable }

/-- Counters move only in a cell that counts something; the flash is recorded
either way. -/
def HeatMap.onFree (h : HeatMap) (regions : Option RegionMap) (ptr size usable nowMs : Nat) :
    HeatMap :=
  match h.cellFor regions ptr with
  | none => h
  | some i =>
      let c := h.cells i
      if c.nLive > 0 then
        { h.setCell i { c.dropLive size usable with
            lastFreeMs := bump c.lastFreeMs nowMs } with
          totalLive := h.totalLive - 1
          totalLiveBytes := h.totalLiveBytes - usable }
      else h.setCell i { c with lastFreeMs := bump c.lastFreeMs nowMs }

/-- `refine_overhead`, with the flag it returns. `from` is the source's name
for `old` and `to` for `exact`. -/
def HeatMap.refineOverhead (h : HeatMap) (regions : Option RegionMap) (ptr old exact : Nat) :
    HeatMap × Bool :=
  match h.cellFor regions ptr with
  | none => (h, false)
  | some i =>
      let c := h.cells i
      (h.setCell i { c with overheadBytes := add32 (c.overheadBytes - old) exact }, true)

/-! ## Rebuilding -/

/-- One slot of the loop of `rebuild`. -/
def HeatMap.rebuildSlot (regions : Option RegionMap) (h : HeatMap) (ch : Chunk) : HeatMap :=
  if ch.state = .empty then h
  else
    match h.indexFor regions ch.key with
    | none => h
    | some i =>
        let c := { h.cells i with lastAllocMs := bump (h.cells i).lastAllocMs ch.allocMs }
        if ch.state = .live then
          { h.setCell i (c.addLive ch.size ch.usable) with
            totalLive := h.totalLive + 1
            totalLiveBytes := h.totalLiveBytes + ch.usable }
        else h.setCell i { c with lastFreeMs := bump c.lastFreeMs ch.freeMs }

/-- Every cell and total cleared, as `rebuild` starts. -/
def HeatMap.cleared (h : HeatMap) : HeatMap :=
  { h with
    cells := fun _ => kEmptyAggregate
    totalLiveBytes := 0
    totalLive := 0
    rebuilds := h.rebuilds + 1 }

def HeatMap.rebuild (h : HeatMap) (regions : Option RegionMap) (t : ChunkTable) : HeatMap :=
  if h.grid.valid = false then h.cleared
  else ((List.range t.capacity).map t.slots).foldl (HeatMap.rebuildSlot regions) h.cleared

end Heapviz
