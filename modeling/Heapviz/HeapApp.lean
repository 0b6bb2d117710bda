import Heapviz.Abi
import Heapviz.HeatMap

/-!
# The attached session

`tui/heap_app.cpp` in event mode: drained events are applied to the chunk
table and the heat map, the target's regions are scanned and repacked,
the grid is refitted and the map rebuilt when its geometry changed, and
exact overhead is read out of the target a slice at a time.

What lies outside is input: what the maps file said, what the header
reads returned, whether the target is alive, and the events the ring
handed over. Left out is what only displays - panels, cursor, metrics,
fragmentation and leak figures are computed from this state and write
none of it - and snapshot mode, which is another driver of the same
parts.
-/

namespace Heapviz

/-! ## Layout -/

structure Rect where
  x : Int
  y : Int
  w : Int
  h : Int
deriving Repr, DecidableEq

/-- The part of `AppLayout` the map is placed by. -/
structure AppLayout where
  map : Rect
  legend : Bool
deriving Repr, DecidableEq

def AppLayout.init : AppLayout := ⟨⟨0, 0, 0, 0⟩, true⟩

/-- `solve_layout`: three header rows and a footer, then the lower panels as
far as four rows stay for the map. -/
def solveLayout (w h : Int) : AppLayout :=
  if w ≤ 0 ∨ h ≤ 0 then AppLayout.init
  else
    let bottom := h - 1
    let top := min 3 bottom
    let panelH := 7
    let available := bottom - top
    let bottom :=
      if 100 ≤ w ∧ available ≥ panelH + 4 then bottom - panelH
      else if w < 100 ∧ available ≥ panelH * 2 + 4 then bottom - panelH - panelH
      else if available ≥ panelH + 4 then bottom - panelH
      else bottom
    ⟨⟨0, top, w, max 0 (bottom - top)⟩, 30 ≤ h⟩

def kGutterWidth : Int := 7

def kMinMapCols : Int := 8

/-- The cells `map_layout` leaves room for, `none` when it is not valid. -/
def mapLayout (area : Rect) (showLegend : Bool) : Option Rect :=
  if area.w ≤ 0 ∨ area.h ≤ 0 then none
  else
    let legend : Int := if showLegend ∧ area.h ≥ 2 then 1 else 0
    let gutterCols := kGutterWidth + 1
    let gutter := if area.w ≥ gutterCols + kMinMapCols then gutterCols else 0
    let cells : Rect := ⟨area.x + gutter, area.y + legend, area.w - gutter, area.h - legend⟩
    if cells.w > 0 ∧ cells.h > 0 then some cells else none

/-- `fit_grid`: size the grid for the area; its flag is whether the grid is
valid then. -/
def fitGrid (g : Grid) (area : Rect) (halfBlock showLegend : Bool) : Grid :=
  match mapLayout area showLegend with
  | none => g.setViewport 0 0
  | some cells => g.setViewport cells.w (cells.h * if halfBlock then 2 else 1)

/-! ## The session's state -/

def kMaxEventsPerFrame : Nat := 32768

def kEnrichPerPass : Nat := 512

def kEnrichIntervalMs : Nat := 250

inductive SessionState where
  | detached
  | live
  | exited
deriving Repr, DecidableEq

structure HeapApp where
  attached : Bool
  unicode : Bool
  table : ChunkTable
  map : HeatMap
  /-- `map_.set_regions(&regions_)` has been called. -/
  mapRegions : Bool
  grid : Grid
  scanner : MapsScanner
  regions : RegionMap
  readerDenied : Bool
  staged : List HvEvent
  stagedHead : Nat
  enrichCursor : Nat
  enrichLastMs : Nat
  refined : Nat
  exactOverhead : Nat
  originNs : Nat
  nowMs : Nat
  exitedMs : Nat
  events : Nat
  freesUnknown : Nat
  live : Nat
  liveBytes : Nat
  bounds : AddrRange
  state : SessionState
  width : Int
  height : Int
  geometryDirty : Bool
  paused : Bool
  helpVisible : Bool
  layout : AppLayout

/-- The constructor, at monotonic time `originNs`. -/
def HeapApp.new (attached unicode : Bool) (originNs : Nat) : HeapApp where
  attached := attached
  unicode := unicode
  table := ((ChunkTable.new 1024).reserve (2 ^ 16)).1
  map := HeatMap.init
  mapRegions := false
  grid := Grid.init
  scanner := MapsScanner.init
  regions := RegionMap.init
  readerDenied := false
  staged := []
  stagedHead := 0
  enrichCursor := 0
  enrichLastMs := 0
  refined := 0
  exactOverhead := 0
  originNs := originNs
  nowMs := 0
  exitedMs := 0
  events := 0
  freesUnknown := 0
  live := 0
  liveBytes := 0
  bounds := ⟨0, 0⟩
  state := if attached then .live else .detached
  width := 0
  height := 0
  geometryDirty := true
  paused := false
  helpVisible := false
  layout := AppLayout.init

namespace HeapApp

/-- What `map_` translates addresses through. -/
def translation (a : HeapApp) : Option RegionMap := if a.mapRegions then some a.regions else none

/-! ## Applying events -/

/-- `clamp_u32`. -/
def clampU32 (v : Nat) : Nat := min v (2 ^ 32 - 1)

def eventMs (a : HeapApp) (timestampNs : Nat) : Nat :=
  if timestampNs ≤ a.originNs then 0 else clampU32 ((timestampNs - a.originNs) / 1000000)

/-- A free of a chunk the table has a record of: the exact overhead is taken
back first, then the chunk leaves its cell. -/
def applyKnownFree (a : HeapApp) (ptr : Nat) (c : Chunk) (ms : Nat) : HeapApp :=
  let map :=
    if c.flags &&& kChunkFlagRefined ≠ 0 then
      (a.map.refineOverhead a.translation ptr c.overheadExact (overheadOf c.size c.usable)).1
    else a.map
  { a with
    live := if c.state = .live then a.live - 1 else a.live
    liveBytes := if c.state = .live then a.liveBytes - c.usable else a.liveBytes
    map := map.onFree a.translation ptr c.size c.usable ms
    table := (a.table.markFreed ptr ms).1 }

def applyUnknownFree (a : HeapApp) (e : HvEvent) (ms : Nat) : HeapApp :=
  { a with
    freesUnknown := a.freesUnknown + 1
    map := a.map.onFree a.translation e.ptr e.usable e.usable ms }

def applyAlloc (a : HeapApp) (e : HvEvent) (ms : Nat) : HeapApp :=
  let prevLive := (a.table.lookup e.ptr).filter fun c => c.state = .live
  { a with
    live := if prevLive.isNone then a.live + 1 else a.live
    liveBytes := (a.liveBytes - ((prevLive.map Chunk.usable).getD 0)) + e.usable
    map := a.map.onAlloc a.translation e.ptr (clampU32 e.size) e.usable ms
    table := (a.table.insertLive e.ptr (clampU32 e.size) e.usable ms (hvEventGetTid e)).1 }

/-- One round of the loop of `apply`. -/
def applyEvent (a : HeapApp) (e : HvEvent) : HeapApp :=
  let ms := a.eventMs e.timestamp
  let a := { a with scanner := a.scanner.noteAddress e.ptr }
  if e.op &&& hvOpMask = HvOp.free.code then
    match a.table.lookup e.ptr with
    | some c => a.applyKnownFree e.ptr c ms
    | none => a.applyUnknownFree e ms
  else a.applyAlloc e ms

def apply (a : HeapApp) (events : List HvEvent) : HeapApp := events.foldl applyEvent a

/-! ## Draining -/

/-- What a call of `drain` still wants from the ring: nothing, a batch to
stage, or up to `room` events to apply on top of those it has replayed. -/
inductive DrainPlan where
  | done (applied : Nat)
  | stage
  | take (applied room : Nat)
deriving Repr, DecidableEq

/-- Staged events go first, in the order they were published; with how many
were replayed. -/
def replay (a : HeapApp) : HeapApp × Nat :=
  let waiting := a.staged.length - a.stagedHead
  if waiting = 0 then (a, 0)
  else
    let take := min waiting kMaxEventsPerFrame
    let head := a.stagedHead + take
    let b := a.apply ((a.staged.drop a.stagedHead).take take)
    if head = a.staged.length then ({ b with staged := [], stagedHead := 0 }, take)
    else ({ b with stagedHead := head }, take)

/-- `drain` up to its read of the ring. -/
def drainPlan (a : HeapApp) : HeapApp × DrainPlan :=
  if a.attached = false then (a, .done 0)
  else if a.paused then (a, .stage)
  else
    let (b, applied) := a.replay
    if applied < kMaxEventsPerFrame ∧ b.staged = [] then
      (b, .take applied (kMaxEventsPerFrame - applied))
    else ({ b with events := b.events + applied }, .done applied)

/-- How many events a plan asks the ring for. -/
def DrainPlan.request : DrainPlan → Nat
  | .done _ => 0
  | .stage => kMaxEventsPerFrame
  | .take _ room => room

/-- `drain` from the read of the ring on, with what it returned. -/
def drainFinish (a : HeapApp) (batch : List HvEvent) : DrainPlan → HeapApp × Nat
  | .done applied => (a, applied)
  | .stage => ({ a with staged := a.staged ++ batch }, 0)
  | .take applied _ =>
      let a := a.apply batch
      ({ a with events := a.events + (applied + batch.length) }, applied + batch.length)

/-- A whole call of `drain` on a ring that holds `queued`. -/
def drain (a : HeapApp) (queued : List HvEvent) : HeapApp × Nat :=
  a.drainPlan.1.drainFinish (queued.take a.drainPlan.2.request) a.drainPlan.2

/-- The Space key; every other key leaves the events alone. -/
def keySpace (a : HeapApp) : HeapApp :=
  if a.state = .live ∨ a.paused then { a with paused := !a.paused, helpVisible := false } else a

/-! ## Regions and geometry -/

def repack (a : HeapApp) : HeapApp × Bool :=
  let (regions, moved) := a.regions.rebuild a.scanner.regions
  ({ a with
    regions := regions
    bounds := if regions.spans = [] then ⟨0, 0⟩ else ⟨0, regions.total⟩ }, moved)

/-- The grid `refit` fits. -/
def fitted (a : HeapApp) : Grid :=
  fitGrid (a.grid.setBounds a.bounds.base a.bounds.limit) a.layout.map a.unicode a.layout.legend

/-- Recompute the map; the exact figures are gone with it, and so are the
marks that say they were folded in. -/
def rebuildMap (a : HeapApp) : HeapApp :=
  { a with
    map := a.map.rebuild a.translation a.table
    table := a.table.clearRefined
    refined := 0
    exactOverhead := 0 }

def refit (a : HeapApp) : HeapApp :=
  let a := { a with mapRegions := true, grid := a.fitted }
  if a.grid.valid = false then a
  else
    let (map, changed) := a.map.configure a.grid
    let a := { a with map := map }
    let a := if changed then a.rebuildMap else a
    { a with geometryDirty := false }

def resized (a : HeapApp) (w h : Int) : HeapApp :=
  let a := { a with width := w, height := h, layout := solveLayout w h, geometryDirty := true }
  if a.bounds.isEmpty then a else a.refit

/-! ## Exact overhead -/

/-- `incomplete` is the source's `Partial`. -/
inductive ReadStatus where
  | ok
  | denied
  | targetGone
  | incomplete
  | failed
deriving Repr, DecidableEq

/-- What a header read says of one chunk. -/
structure ChunkInfo where
  overhead : Nat
  mmapped : Bool
  nonMainArena : Bool
  valid : Bool
deriving Repr, DecidableEq

/-- What `ChunkReader::read` returned, one entry for each pointer asked. -/
structure ReaderReply where
  status : ReadStatus
  out : List ChunkInfo
deriving Repr, DecidableEq

/-- Whether the enrichment pass wants this record's header. -/
def wantsHeader (c : Chunk) : Bool :=
  c.state = .live && c.flags &&& kChunkFlagRefined == 0 && c.key != 0 && c.size != 0

/-- The walk of `enrich` over the slots, one lap at most: the records picked
and where the cursor stops. -/
def gather (t : ChunkTable) : Nat → Nat → List Chunk → List Chunk × Nat
  | 0, cursor, picked => (picked, cursor)
  | fuel + 1, cursor, picked =>
      if picked.length ≥ kEnrichPerPass then (picked, cursor)
      else
        let c := t.slots cursor
        gather t fuel ((cursor + 1) % t.capacity) (if wantsHeader c then picked ++ [c] else picked)

/-- The header bits that ride along with the overhead. -/
def ChunkInfo.header (info : ChunkInfo) : Nat :=
  (if info.mmapped then kChunkFlagMmapped else 0) |||
    (if info.nonMainArena then kChunkFlagNonMain else 0)

/-- Fold one header in. The mark comes first: what the table cannot remember
is not folded. -/
def foldHeader (a : HeapApp) (c : Chunk) (info : ChunkInfo) : HeapApp :=
  if info.valid = false then a
  else if (a.table.markRefined c.key info.overhead info.header).2 = false then a
  else
    { a with
      table := (a.table.markRefined c.key info.overhead info.header).1
      refined := a.refined + 1
      exactOverhead := a.exactOverhead + info.overhead
      map := (a.map.refineOverhead a.translation c.key (overheadOf c.size c.usable)
        info.overhead).1 }

/-- `enrich` at `a.nowMs` up to its fold loop: the headers to fold in, with
the records they were asked for. -/
def enrichBegin (a : HeapApp) (reply : ReaderReply) : HeapApp × List (Chunk × ChunkInfo) :=
  if a.readerDenied ∨ a.state ≠ .live then (a, [])
  else if sub32 a.nowMs a.enrichLastMs < kEnrichIntervalMs then (a, [])
  else
    let (picked, cursor) := gather a.table a.table.capacity a.enrichCursor []
    let a := { a with enrichLastMs := a.nowMs, enrichCursor := cursor }
    if picked = [] then (a, [])
    else
      let a := { a with readerDenied := a.readerDenied || reply.status = .denied }
      if reply.status = .denied ∨ reply.status = .targetGone then (a, [])
      else (a, picked.zip reply.out)

/-- `enrich`, with what the reader answers. -/
def enrich (a : HeapApp) (reply : ReaderReply) : HeapApp :=
  let (a, headers) := a.enrichBegin reply
  headers.foldl (fun a p => a.foldHeader p.1 p.2) a

/-! ## The frame -/

/-- What the world says during one `update`. -/
structure UpdateEnv where
  nowNs : Nat
  targetGone : Bool
  maps : ScanInput
  reply : ReaderReply
deriving Repr, DecidableEq

/-- The clock, and whether the target is still there. -/
def tick (a : HeapApp) (env : UpdateEnv) : HeapApp :=
  let a := { a with nowMs := clampU32 (sub64 env.nowNs a.originNs / 1000000) }
  if a.state = .live ∧ env.targetGone then { a with state := .exited, exitedMs := a.nowMs }
  else a

/-- Scan and repack when a scan is owed; the flag is `repack`'s. -/
def rescan (a : HeapApp) (env : UpdateEnv) : HeapApp × Bool :=
  if a.scanner.due a.nowMs then
    let (a, moved) := { a with scanner := a.scanner.scan a.nowMs env.maps }.repack
    ({ a with geometryDirty := a.geometryDirty || moved }, moved)
  else (a, false)

def refitDirty (a : HeapApp) : HeapApp :=
  if a.geometryDirty ∧ a.bounds.isEmpty = false ∧ a.width > 0 then a.refit else a

/-- `update` in event mode. -/
def update (a : HeapApp) (env : UpdateEnv) : HeapApp :=
  if a.paused then a else (((a.tick env).rescan env).1.refitDirty).enrich env.reply

/-! ## Everything that happens to a session -/

inductive AppAct where
  | drain (queued : List HvEvent)
  | resized (w h : Int)
  | update (env : UpdateEnv)
  | space
deriving Repr, DecidableEq

def act (a : HeapApp) : AppAct → HeapApp
  | .drain queued => (a.drain queued).1
  | .resized w h => a.resized w h
  | .update env => a.update env
  | .space => a.keySpace

def actStep (a : HeapApp) (x : AppAct) : Option HeapApp := some (a.act x)

end HeapApp

end Heapviz
