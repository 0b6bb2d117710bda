import Mathlib.Data.Nat.Log
import Heapviz.Abi

/-!
# From addresses to cells

The two translations between an address and a cell of the map.
`RegionMap` (`tui/region_map.cpp`) packs the target's allocatable regions
end to end and turns an address into an offset of that packed space;
`Grid` (`tui/grid.cpp`) cuts a span into cells of a power-of-two size and
turns a coordinate into a cell number. `MapsScanner` (`tui/proc_maps.cpp`)
is where the regions come from: here the part of it that decides when a
scan is owed and what it leaves behind, with the parsed lines as input.

Coordinates are natural numbers; 64-bit spans and offsets are in range
wherever the code forms them.
-/

namespace Heapviz

/-! ## The grid -/

def kMinCellBytes : Nat := 64

def kMaxCellBytes : Nat := 2 ^ 30

/-- `clamped_pow2`. -/
def clampedPow2 (v : Nat) : Nat :=
  if v ≤ kMinCellBytes then kMinCellBytes
  else if v ≥ kMaxCellBytes then kMaxCellBytes
  else 2 ^ (Nat.log2 (v - 1) + 1)

structure Grid where
  base : Nat
  limit : Nat
  cellBytes : Nat
  log2CellBytes : Nat
  cols : Nat
  rows : Nat
  valid : Bool
deriving Repr, DecidableEq

/-- A default-constructed grid. -/
def Grid.init : Grid := ⟨0, 0, kMinCellBytes, 6, 0, 0, false⟩

/-- `Grid::configure`; the flag it returns is the new `valid`. `end` is the
source's name for `limit`. -/
def Grid.configure (base limit : Nat) (cols rows : Int) : Grid :=
  if limit ≤ base ∨ cols ≤ 0 ∨ rows ≤ 0 then
    ⟨base, limit, kMinCellBytes, Nat.log2 kMinCellBytes, cols.toNat, rows.toNat, false⟩
  else
    let cells := cols.toNat * rows.toNat
    let perCell := (limit - base) / cells + if (limit - base) % cells ≠ 0 then 1 else 0
    ⟨base, limit, clampedPow2 perCell, Nat.log2 (clampedPow2 perCell), cols.toNat, rows.toNat,
      true⟩

def Grid.setBounds (g : Grid) (base limit : Nat) : Grid :=
  Grid.configure base limit g.cols g.rows

def Grid.setViewport (g : Grid) (cols rows : Int) : Grid :=
  Grid.configure g.base g.limit cols rows

def Grid.cellCount (g : Grid) : Nat := g.cols * g.rows

def Grid.indexOf (g : Grid) (addr : Nat) : Option Nat :=
  if g.valid = false ∨ addr < g.base then none
  else
    let index := (addr - g.base) >>> g.log2CellBytes
    if index ≥ g.cellCount then none else some index

/-- `Grid::span`, which wraps for a grid configured with inverted bounds. -/
def Grid.span (g : Grid) : Nat := sub64 g.limit g.base

/-- `Grid::covers_whole_span`. -/
def Grid.coversWholeSpan (g : Grid) : Bool :=
  g.valid && decide (g.cellCount ≥
    g.span / g.cellBytes + if g.span % g.cellBytes ≠ 0 then 1 else 0)

/-! ## The packed regions -/

inductive RegionKind where
  | heap
  | anon
  | stack
  | file
  | other
deriving Repr, DecidableEq

/-- A mapping of the target, as far as packing looks at it. -/
structure Region where
  start : Nat
  limit : Nat
  kind : RegionKind
  threadArena : Bool
deriving Repr, DecidableEq

def Region.size (r : Region) : Nat := r.limit - r.start

def Region.allocatable (r : Region) : Bool := r.kind == .heap || r.kind == .anon

structure Span where
  start : Nat
  limit : Nat
  flat : Nat
  kind : RegionKind
  threadArena : Bool
deriving Repr, DecidableEq

def Span.size (s : Span) : Nat := s.limit - s.start

structure RegionMap where
  spans : List Span
  total : Nat
  repacks : Nat
deriving Repr, DecidableEq

def RegionMap.init : RegionMap := ⟨[], 0, 0⟩

/-- The loop of `RegionMap::rebuild` over the scanned regions: the spans laid
out from `flat` on, where they end, and whether they differ from the old
ones. What is left of `old` is the part of `spans_` not yet overwritten. -/
def repackLoop : List Region → List Span → Nat → List Span × Nat × Bool
  | [], old, flat => ([], flat, old ≠ [])
  | r :: rs, old, flat =>
      if r.allocatable = false ∨ r.size = 0 then repackLoop rs old flat
      else
        let s : Span := ⟨r.start, r.limit, flat, r.kind, r.threadArena⟩
        match old with
        | o :: old =>
            let (spans, total, changed) := repackLoop rs old (flat + s.size)
            (s :: spans, total,
              (o.start ≠ s.start || o.limit ≠ s.limit || o.flat ≠ s.flat) || changed)
        | [] =>
            let (spans, total, _) := repackLoop rs [] (flat + s.size)
            (s :: spans, total, true)

/-- `RegionMap::rebuild`, with the flag it returns. -/
def RegionMap.rebuild (m : RegionMap) (regions : List Region) : RegionMap × Bool :=
  let (spans, total, changed) := repackLoop regions m.spans 0
  (⟨spans, total, if changed then m.repacks + 1 else m.repacks⟩, changed)

/-- The binary search of `span_at_addr`; the interval shrinks every round. -/
def RegionMap.spanLoop (m : RegionMap) (addr : Nat) : Nat → Nat → Nat → Option Span
  | 0, _, _ => none
  | fuel + 1, lo, hi =>
      if lo < hi then
        let mid := lo + (hi - lo) / 2
        match m.spans[mid]? with
        | none => none
        | some s =>
            if addr < s.start then m.spanLoop addr fuel lo mid
            else if addr ≥ s.limit then m.spanLoop addr fuel (mid + 1) hi
            else some s
      else none

def RegionMap.spanAtAddr (m : RegionMap) (addr : Nat) : Option Span :=
  m.spanLoop addr (m.spans.length + 1) 0 m.spans.length

def RegionMap.toFlat (m : RegionMap) (addr : Nat) : Option Nat :=
  (m.spanAtAddr addr).map fun s => s.flat + (addr - s.start)

/-- The binary search of `span_at_flat`, over the packed offsets. -/
def RegionMap.flatLoop (m : RegionMap) (flat : Nat) : Nat → Nat → Nat → Option Span
  | 0, _, _ => none
  | fuel + 1, lo, hi =>
      if lo < hi then
        let mid := lo + (hi - lo) / 2
        match m.spans[mid]? with
        | none => none
        | some s =>
            if flat < s.flat then m.flatLoop flat fuel lo mid
            else if flat ≥ s.flat + s.size then m.flatLoop flat fuel (mid + 1) hi
            else some s
      else none

def RegionMap.spanAtFlat (m : RegionMap) (flat : Nat) : Option Span :=
  m.flatLoop flat (m.spans.length + 1) 0 m.spans.length

def RegionMap.toAddr (m : RegionMap) (flat : Nat) : Option Nat :=
  (m.spanAtFlat flat).map fun s => s.start + (flat - s.flat)

/-! ## The scanner -/

def kRescanIntervalMs : Nat := 500

inductive ScanStatus where
  | ok
  | targetGone
  | denied
  | readFailed
deriving Repr, DecidableEq

/-- A half-open range; empty when it ends where it begins or before. -/
structure AddrRange where
  base : Nat
  limit : Nat
deriving Repr, DecidableEq

def AddrRange.isEmpty (r : AddrRange) : Bool := r.limit ≤ r.base

structure MapsScanner where
  regions : List Region
  bounds : AddrRange
  status : ScanStatus
  lastScanMs : Nat
  forced : Bool
  mainArena : Bool
  threadArenas : Nat
  scans : Nat
  malformed : Nat
deriving Repr, DecidableEq

def MapsScanner.init : MapsScanner := ⟨[], ⟨0, 0⟩, .ok, 0, true, false, 0, 0, 0⟩

/-- The hull `MapsScanner::rebuild` grows region by region. -/
def AddrRange.hull (b : AddrRange) (r : Region) : AddrRange :=
  if r.allocatable = false ∨ r.size = 0 then b
  else if b.isEmpty then ⟨r.start, r.limit⟩
  else ⟨min b.base r.start, max b.limit r.limit⟩

/-- What reading the maps file gave: an error, no text at all, or the
non-empty lines of the text, each parsed to a region or malformed. -/
inductive ScanInput where
  | failed (status : ScanStatus)
  | empty
  | lines (parsed : List (Option Region))
deriving Repr, DecidableEq

/-- `MapsScanner::scan`. A failed read keeps the regions and resets the timer;
so does an empty file, which is what an unreaped process leaves. The count of
thread arenas is an `unsigned`. -/
def MapsScanner.scan (s : MapsScanner) (nowMs : Nat) : ScanInput → MapsScanner
  | .failed status => { s with status := status, lastScanMs := nowMs, forced := false }
  | .empty => { s with status := .targetGone, lastScanMs := nowMs, forced := false }
  | .lines parsed =>
      let regions := parsed.filterMap id
      { regions := regions
        bounds := regions.foldl AddrRange.hull ⟨0, 0⟩
        status := .ok
        lastScanMs := nowMs
        forced := false
        mainArena := regions.any fun r => r.kind == .heap
        threadArenas := (regions.countP fun r => r.threadArena) % 2 ^ 32
        scans := s.scans + 1
        malformed := s.malformed + parsed.countP Option.isNone }

def MapsScanner.due (s : MapsScanner) (nowMs : Nat) : Bool :=
  s.forced || sub32 nowMs s.lastScanMs ≥ kRescanIntervalMs

def MapsScanner.noteAddress (s : MapsScanner) (addr : Nat) : MapsScanner :=
  if s.forced then s
  else if s.status = .targetGone then s
  else if s.bounds.isEmpty ∨ addr < s.bounds.base ∨ addr ≥ s.bounds.limit then
    { s with forced := true }
  else s

end Heapviz
