import Mathlib.Data.List.TakeWhile
import Heapviz.EventLoop
import Heapviz.HeatColor
import Heapviz.Snapshot

/-!
# Skipped frames

`EventLoop::run` driving a `HeapApp`: a frame in which nothing arrived,
nothing changed and nothing is animating is not drawn, because the screen
is already right. This module says when it is.

Everything that touches a cell of the map makes the frame dirty, so at a
skipped frame the aggregates are those of the last drawn one (`Still`);
what is left to differ is the clock. A cell that does not animate now has
the colour it settles at. The cell on the screen has the colour of the
time it was drawn at, and that is the settled one if it did not animate
then. If it did, and all of its windows have passed before the loop comes
round again, nobody repaints it: `InTime` excludes just this.
-/

namespace Heapviz

/-! ## The map on the screen -/

structure MapView (Lab : Type) where
  ramp : HeatRamp Lab
  halfBlock : Bool
  animations : Bool
  showLegend : Bool

namespace MapView

variable {Lab : Type}

/-- The cells `MapView::draw` paints, in its order: row by row, clipped to the
room there is, the whole drawing left at the first number that is no cell's,
and with half blocks a cell and the one below it at a time. -/
def visible (v : MapView Lab) (area : Rect) (map : HeatMap) : List Nat :=
  match mapLayout area v.showLegend with
  | none => []
  | some room =>
      if map.grid.valid = false then []
      else
        let g := map.grid
        let displayRows := if v.halfBlock then (g.rows + 1) / 2 else g.rows
        let rows := min displayRows room.h.toNat
        let cols := min g.cols room.w.toNat
        let order := (List.range rows).flatMap fun row =>
          (List.range cols).map fun col => (if v.halfBlock then row * 2 else row) * g.cols + col
        (order.takeWhile (· < map.cellCount)).flatMap fun i =>
          if v.halfBlock = true ∧ i + g.cols < map.cellCount then [i, i + g.cols] else [i]

def colorOf (v : MapView Lab) (a : CellAggregate) (cellBytes nowMs : Nat) : Nat :=
  if v.animations then v.ramp.color a cellBytes nowMs else v.ramp.settled a cellBytes

/-- What `MapView::draw` paints: cells with their colours. -/
def draw (v : MapView Lab) (area : Rect) (map : HeatMap) (nowMs : Nat) : List (Nat × Nat) :=
  (v.visible area map).map fun i => (i, v.colorOf (map.cells i) map.grid.cellBytes nowMs)

/-- `MapView::animating`, which asks every cell, seen or not. -/
def animating (map : HeatMap) (nowMs : Nat) : Bool :=
  (List.range map.cellCount).any fun i => cellAnimating (map.cells i) kDefaultTimings nowMs

end MapView

/-! ## What the application reports -/

namespace HeapApp

def animating (animations : Bool) (a : HeapApp) : Bool :=
  animations && !a.paused && MapView.animating a.map a.nowMs

/-- Whether a header folded in was seen by the map. -/
def headerSeen (a : HeapApp) (c : Chunk) (info : ChunkInfo) : Bool :=
  info.valid && (a.table.markRefined c.key info.overhead info.header).2 &&
    (a.map.refineOverhead a.translation c.key (overheadOf c.size c.usable) info.overhead).2

/-- The fold loop of `enrich`, with its flag. -/
def foldHeaders (a : HeapApp) (headers : List (Chunk × ChunkInfo)) : HeapApp × Bool :=
  headers.foldl (fun s p => (s.1.foldHeader p.1 p.2, s.2 || s.1.headerSeen p.1 p.2)) (a, false)

/-- Whether `enrich` gets as far as the read. -/
def enrichAsks (a : HeapApp) : Bool :=
  !a.readerDenied && a.state == .live && sub32 a.nowMs a.enrichLastMs ≥ kEnrichIntervalMs &&
    !(gather a.table a.table.capacity a.enrichCursor []).1.isEmpty

/-- What `enrich` returns. -/
def enrichChanged (a : HeapApp) (reply : ReaderReply) : Bool :=
  (a.enrichAsks && (reply.status == .denied || reply.status == .targetGone)) ||
    ((a.enrichBegin reply).1.foldHeaders (a.enrichBegin reply).2).2

def refitDue (a : HeapApp) : Bool := a.geometryDirty && !a.bounds.isEmpty && a.width > 0

/-- A key: Space, `?`, `r`, or one that moves the cursor or changes a panel,
with what it returns. -/
inductive Key where
  | space
  | help
  | reset
  | other (changed : Bool)
deriving Repr, DecidableEq

def key (a : HeapApp) : Key → HeapApp × Bool
  | .space => (a.keySpace, a.state == .live || a.paused)
  | .help => ({ a with helpVisible := !a.helpVisible }, true)
  | .reset =>
      if a.state ≠ .detached then ({ a with events := 0, freesUnknown := 0 }, true) else (a, false)
  | .other changed => (a, changed)

end HeapApp

/-- `update` in either mode, with what it returns. `panels` is what the
fragmentation, the leak overlay, the inspector and the metrics report; they
read the model and write none of it. -/
def SnapshotApp.update (snapshotMode : Bool) (env : HeapApp.UpdateEnv) (pass : PassEnv)
    (panels : Bool) (a : SnapshotApp) : SnapshotApp × Bool :=
  if a.app.paused then (a, false)
  else
    let exited := a.app.state == .live && env.targetGone
    let (scanned, moved) := (a.app.tick env).rescan env
    let a := { a with app := scanned }
    let (a, walked) := if snapshotMode then a.snapshot pass else (a, false)
    let refit := a.app.refitDue
    let app := a.app.refitDirty
    let (app, enriched) :=
      if snapshotMode then (app, false) else (app.enrich env.reply, app.enrichChanged env.reply)
    ({ a with app := app }, exited || moved || walked || refit || enriched || panels)

/-- In event mode this is the `update` the session's events go through. -/
theorem SnapshotApp.update_app (env : HeapApp.UpdateEnv) (pass : PassEnv) (panels : Bool)
    (a : SnapshotApp) : (a.update false env pass panels).1.app = a.app.update env := by
  unfold SnapshotApp.update HeapApp.update
  split <;> rfl

/-! ## The loop and its application -/

/-- What a frame finds: whether to quit, whether the statistics are to be
reset, whether a resize was requested and what is measured then; what the
ring holds, what the world tells `update`, what the panels report, what is
painted around the map, and whether the write goes through. -/
structure FrameInput where
  quit : Bool
  reset : Bool
  request : Bool
  measured : Option (Int × Int)
  queued : List HvEvent
  env : HeapApp.UpdateEnv
  pass : PassEnv
  panels : Bool
  puts : List Put
  writes : Bool

/-- The loop with its application; beside these whether the last frame was
skipped, what the last drawn one painted, and its `now_ms`. -/
structure FrameSys where
  loop : EventLoop
  snap : SnapshotApp
  skipped : Bool
  shown : List (Nat × Nat)
  drawnMs : Nat

inductive FrameAct where
  | frame (input : FrameInput)
  | key (k : HeapApp.Key)
  | wait (quit : Bool)

section System

variable {Lab : Type} (cfg : LoopConfig) (ramp : HeatRamp Lab) (animations snapshotMode : Bool)

/-- The application's view of the map. -/
def HeapApp.view (a : HeapApp) : MapView Lab := ⟨ramp, a.unicode, animations, a.layout.legend⟩

def HeapApp.drawMap (a : HeapApp) (nowMs : Nat) : List (Nat × Nat) :=
  (a.view ramp animations).draw a.layout.map a.map nowMs

/-- The cells on the screen. -/
def HeapApp.visibleCells (a : HeapApp) : List Nat :=
  (a.view ramp animations).visible a.layout.map a.map

namespace FrameSys

def start (fb : Framebuffer) (snap : SnapshotApp) : FrameSys :=
  ⟨EventLoop.start cfg fb, snap, false, [], 0⟩

/-- The resize block, as far as the loop goes on behind it. -/
def resizeStep (input : FrameInput) (l : EventLoop) : EventLoop :=
  if input.request then l.sized cfg input.measured else { l with phase := .work }

/-- The application is told of a size that is not the one before. -/
def tellSize (before after : EventLoop) (a : SnapshotApp) : SnapshotApp :=
  if after.fb.w ≠ before.fb.w ∨ after.fb.h ≠ before.fb.h then
    { a with app := a.app.resized after.fb.w after.fb.h }
  else a

/-- Drain, update, and the decision: the loop and the application where the
frame is drawn or skipped. -/
def work (input : FrameInput) (l : EventLoop) (a : SnapshotApp) : EventLoop × SnapshotApp :=
  let (app, n) := a.app.drain input.queued
  let (a, updated) := { a with app := app }.update snapshotMode input.env input.pass input.panels
  (l.mark n updated (a.app.animating animations), a)

/-- A frame up to the decision, unless the loop ends before. -/
def decision (input : FrameInput) (s : FrameSys) : EventLoop × SnapshotApp :=
  let looked := s.loop.begin cfg input.quit input.reset
  if looked.phase = .look then
    let sized := resizeStep cfg input looked
    if sized.phase = .work then
      work animations snapshotMode input sized (tellSize looked sized s.snap)
    else (sized, s.snap)
  else (looked, s.snap)

/-- A frame. -/
def frame (input : FrameInput) (s : FrameSys) : FrameSys :=
  let (l, snap) := s.decision cfg animations snapshotMode input
  if l.phase = .work then
    let drawn := l.draw input.puts
    if l.dirty = false then { s with loop := drawn, snap := snap, skipped := true }
    else if input.writes then
      { loop := drawn.drawn
        snap := snap
        skipped := false
        shown := snap.app.drawMap ramp animations snap.app.nowMs
        drawnMs := snap.app.nowMs }
    else
      { s with
        loop := { drawn with phase := .exited .writeFailed }
        snap := snap
        skipped := false }
  else { s with loop := l, snap := snap, skipped := false }

def step (s : FrameSys) : FrameAct → Option FrameSys
  | .frame input =>
      if s.loop.phase = .top then some (s.frame cfg ramp animations snapshotMode input) else none
  | .key k =>
      if s.loop.phase = .wait then
        some { s with
          loop := { s.loop with dirty := s.loop.dirty || (s.snap.app.key k).2 }
          snap := { s.snap with app := (s.snap.app.key k).1 } }
      else none
  | .wait quit =>
      if s.loop.phase = .wait then some { s with loop := s.loop.waited quit false } else none

end FrameSys

/-- A frame that is about to be skipped comes while nothing on the screen was
animating when it was drawn, or while the clock stands still. -/
def InTime (s : FrameSys) : FrameAct → Prop
  | .frame input =>
      (s.decision cfg animations snapshotMode input).1.phase = .work →
      (s.decision cfg animations snapshotMode input).1.dirty = false →
        s.snap.app.paused = true ∨ ∀ i ∈ s.snap.app.visibleCells ramp animations,
          cellAnimating (s.snap.app.map.cells i) kDefaultTimings s.drawnMs = false
  | .key _ | .wait _ => True

instance (s : FrameSys) : ∀ a, Decidable (InTime cfg ramp animations snapshotMode s a)
  | .frame _ => inferInstanceAs (Decidable (_ → _ → _ ∨ _))
  | .key _ | .wait _ => .isTrue trivial

end System

/-! ## What leaves the map alone -/

/-- Two states of the application that draw the same map at the same time, and
are paused alike. -/
structure Still (a b : HeapApp) : Prop where
  map : b.map = a.map
  unicode : b.unicode = a.unicode
  layout : b.layout = a.layout
  paused : b.paused = a.paused

section Still

variable {a b c : HeapApp}

theorem Still.refl (a : HeapApp) : Still a a := ⟨rfl, rfl, rfl, rfl⟩

theorem Still.trans (h : Still a b) (h' : Still b c) : Still a c :=
  ⟨h'.map.trans h.map, h'.unicode.trans h.unicode, h'.layout.trans h.layout,
    h'.paused.trans h.paused⟩

theorem HeapApp.replay_cases (a : HeapApp) : a.replay = (a, 0) ∨ 0 < a.replay.2 := by
  unfold HeapApp.replay
  dsimp only
  by_cases hwaiting : a.staged.length - a.stagedHead = 0
  · rw [if_pos hwaiting]
    exact .inl rfl
  · rw [if_neg hwaiting]
    have htake : 0 < min (a.staged.length - a.stagedHead) kMaxEventsPerFrame :=
      lt_min (Nat.pos_of_ne_zero hwaiting) (by decide)
    right
    split
    · exact htake
    · exact htake

/-- A drain that reports no event has applied none. -/
theorem HeapApp.drain_still {queued : List HvEvent} (h : (a.drain queued).2 = 0) :
    Still a (a.drain queued).1 ∧ (a.drain queued).1.nowMs = a.nowMs := by
  unfold HeapApp.drain at h ⊢
  generalize queued.take a.drainPlan.2.request = batch at h ⊢
  unfold HeapApp.drainPlan at h ⊢
  by_cases hattached : a.attached = false
  · rw [if_pos hattached]
    exact ⟨.refl a, rfl⟩
  rw [if_neg hattached] at h ⊢
  by_cases hpaused : a.paused = true
  · rw [if_pos hpaused]
    exact ⟨⟨rfl, rfl, rfl, rfl⟩, rfl⟩
  rw [if_neg hpaused] at h ⊢
  dsimp only at h ⊢
  rcases a.replay_cases with hreplay | hreplay
  · rw [hreplay] at h ⊢
    by_cases hroom : 0 < kMaxEventsPerFrame ∧ a.staged = []
    · rw [if_pos hroom] at h ⊢
      have hbatch : batch = [] := List.length_eq_zero_iff.mp (Nat.eq_zero_of_add_eq_zero_left h)
      rw [hbatch]
      exact ⟨⟨rfl, rfl, rfl, rfl⟩, rfl⟩
    · rw [if_neg hroom]
      exact ⟨⟨rfl, rfl, rfl, rfl⟩, rfl⟩
  · split_ifs at h with hroom
    · have hsum : a.replay.2 + batch.length = 0 := h
      omega
    · have hdone : a.replay.2 = 0 := h
      omega

theorem HeapApp.tick_still (a : HeapApp) (env : HeapApp.UpdateEnv) : Still a (a.tick env) := by
  unfold HeapApp.tick
  dsimp only
  split <;> exact ⟨rfl, rfl, rfl, rfl⟩

/-- Regions move under the cells; the cells stay. -/
theorem HeapApp.rescan_still (a : HeapApp) (env : HeapApp.UpdateEnv) :
    Still a (a.rescan env).1 := by
  unfold HeapApp.rescan HeapApp.repack
  split <;> exact ⟨rfl, rfl, rfl, rfl⟩

theorem HeapApp.refitDirty_still (h : a.refitDue = false) : a.refitDirty = a := by
  unfold HeapApp.refitDirty
  rw [if_neg]
  rintro ⟨hdirty, hbounds, hwidth⟩
  simp [HeapApp.refitDue, hdirty, hbounds, hwidth] at h

theorem HeapApp.enrichBegin_still (a : HeapApp) (reply : HeapApp.ReaderReply) :
    Still a (a.enrichBegin reply).1 := by
  unfold HeapApp.enrichBegin
  split
  · exact .refl a
  · split
    · exact .refl a
    · dsimp only
      split
      · exact ⟨rfl, rfl, rfl, rfl⟩
      · split <;> exact ⟨rfl, rfl, rfl, rfl⟩

theorem HeapApp.foldHeader_still {r : Chunk} {info : HeapApp.ChunkInfo}
    (h : a.headerSeen r info = false) : Still a (a.foldHeader r info) := by
  unfold HeapApp.foldHeader
  by_cases hvalid : info.valid = false
  · rw [if_pos hvalid]
    exact .refl a
  rw [if_neg hvalid]
  by_cases hmark : (a.table.markRefined r.key info.overhead info.header).2 = false
  · rw [if_pos hmark]
    exact .refl a
  rw [if_neg hmark]
  refine ⟨?_, rfl, rfl, rfl⟩
  have hcell : (a.map.refineOverhead a.translation r.key (overheadOf r.size r.usable)
      info.overhead).2 = false := by
    simpa [HeapApp.headerSeen, hvalid, hmark] using h
  unfold HeatMap.refineOverhead at hcell ⊢
  cases hfor : a.map.cellFor a.translation r.key with
  | none => rfl
  | some i =>
      rw [hfor] at hcell
      cases hcell

/-- The loop of `enrich` is the fold of `foldHeaders`; without its flag, it
leaves the map. -/
theorem HeapApp.foldHeaders_still (a : HeapApp) (seen : Bool) :
    ∀ headers : List (Chunk × HeapApp.ChunkInfo),
      (headers.foldl (fun s p => (s.1.foldHeader p.1 p.2, s.2 || s.1.headerSeen p.1 p.2))
          (a, seen)).2 = false →
        seen = false ∧ Still a (headers.foldl (fun a p => a.foldHeader p.1 p.2) a) := by
  intro headers
  induction headers generalizing a seen with
  | nil => exact fun h => ⟨h, .refl a⟩
  | cons p headers ih =>
      intro h
      obtain ⟨hseen, hstill⟩ := ih (a.foldHeader p.1 p.2) (seen || a.headerSeen p.1 p.2) h
      obtain ⟨hseen, hhere⟩ := Bool.or_eq_false_iff.mp hseen
      exact ⟨hseen, (HeapApp.foldHeader_still hhere).trans hstill⟩

theorem HeapApp.enrich_still {reply : HeapApp.ReaderReply} (h : a.enrichChanged reply = false) :
    Still a (a.enrich reply) := by
  obtain ⟨-, hfold⟩ := Bool.or_eq_false_iff.mp h
  exact (a.enrichBegin_still reply).trans
    ((a.enrichBegin reply).1.foldHeaders_still false _ hfold).2

theorem SnapshotApp.snapshot_still {a : SnapshotApp} {pass : PassEnv}
    (h : (a.snapshot pass).2 = false) : (a.snapshot pass).1 = a := by
  unfold SnapshotApp.snapshot at h ⊢
  by_cases hdue : a.due = false
  · rw [if_pos hdue]
  · rw [if_neg hdue] at h
    dsimp only at h
    split_ifs at h

/-- An update that reports nothing leaves the map; one that is paused leaves
the clock too. -/
theorem SnapshotApp.update_still {a : SnapshotApp} {snapshotMode panels : Bool}
    {env : HeapApp.UpdateEnv} {pass : PassEnv}
    (h : (a.update snapshotMode env pass panels).2 = false) :
    Still a.app (a.update snapshotMode env pass panels).1.app ∧
      (a.app.paused = true →
        (a.update snapshotMode env pass panels).1.app.nowMs = a.app.nowMs) := by
  unfold SnapshotApp.update at h ⊢
  by_cases hpaused : a.app.paused = true
  · rw [if_pos hpaused]
    exact ⟨.refl a.app, fun _ => rfl⟩
  rw [if_neg hpaused] at h ⊢
  refine ⟨?_, fun hp => absurd hp hpaused⟩
  have hscan := (a.app.tick_still env).trans ((a.app.tick env).rescan_still env)
  generalize (a.app.tick env).rescan env = scan at h hscan ⊢
  cases snapshotMode with
  | false =>
      simp only [Bool.false_eq_true, if_false, Bool.or_eq_false_iff] at h ⊢
      obtain ⟨⟨⟨-, hrefit⟩, henrich⟩, -⟩ := h
      rw [HeapApp.refitDirty_still hrefit] at henrich ⊢
      exact hscan.trans (HeapApp.enrich_still henrich)
  | true =>
      simp only [if_true, Bool.or_eq_false_iff] at h ⊢
      obtain ⟨⟨⟨⟨-, hwalked⟩, hrefit⟩, -⟩, -⟩ := h
      rw [HeapApp.refitDirty_still hrefit, SnapshotApp.snapshot_still hwalked]
      exact hscan

end Still

/-! ## Colours -/

section Colours

variable {Lab : Type} {v : MapView Lab} {area : Rect} {map : HeatMap} {i t t' : Nat}

theorem MapView.visible_lt (h : i ∈ v.visible area map) : i < map.cellCount := by
  unfold MapView.visible at h
  split at h
  · cases h
  · by_cases hvalid : map.grid.valid = false
    · rw [if_pos hvalid] at h
      cases h
    · rw [if_neg hvalid] at h
      obtain ⟨j, hj, hi⟩ := List.mem_flatMap.mp h
      have hlt : j < map.cellCount := by simpa using List.mem_takeWhile_imp hj
      split_ifs at hi with hlower
      · rcases List.mem_cons.mp hi with rfl | hi
        · exact hlt
        · rw [List.mem_singleton.mp hi]
          exact hlower.2
      · rw [List.mem_singleton.mp hi]
        exact hlt

theorem MapView.animating_eq_false (h : MapView.animating map t = false) (hi : i < map.cellCount) :
    cellAnimating (map.cells i) kDefaultTimings t = false := by
  have hall := List.any_eq_false.mp h i (List.mem_range.mpr hi)
  simpa using hall

/-- Cells that animate at neither of two times are drawn alike at both. -/
theorem MapView.draw_settled (htimings : v.ramp.timings = kDefaultTimings)
    (ht : ∀ i ∈ v.visible area map, cellAnimating (map.cells i) kDefaultTimings t = false)
    (ht' : ∀ i ∈ v.visible area map, cellAnimating (map.cells i) kDefaultTimings t' = false) :
    v.draw area map t = v.draw area map t' := by
  refine List.map_congr_left ?_
  intro i hi
  have hflash : v.ramp.timings.freeFlashMs ≤ v.ramp.timings.freeSpan := by
    rw [htimings]
    decide
  have h := ht i hi
  have h' := ht' i hi
  rw [← htimings] at h h'
  unfold MapView.colorOf
  rw [HeatRamp.color_of_settled hflash h, HeatRamp.color_of_settled hflash h']

end Colours

/-! ## The decision -/

section Decision

variable {l : EventLoop} {cfg : LoopConfig}

theorem EventLoop.begin_clean {quit reset : Bool} (h : (l.begin cfg quit reset).dirty = false) :
    l.dirty = false := by
  unfold EventLoop.begin at h
  cases quit with
  | true => exact h
  | false =>
      cases reset with
      | true =>
          simp only [Bool.false_eq_true, if_false, if_true] at h
          split_ifs at h
      | false =>
          simp only [Bool.false_eq_true, if_false] at h
          split_ifs at h <;> exact h

/-- A size that is not the one before makes the frame dirty. -/
theorem EventLoop.sized_clean {measured : Option (Int × Int)}
    (h : (l.sized cfg measured).dirty = false) :
    l.dirty = false ∧ (l.sized cfg measured).fb = l.fb := by
  unfold EventLoop.sized at h ⊢
  dsimp only at h ⊢
  generalize measured.getD _ = size at h ⊢
  by_cases hsmall : size.1 < cfg.minWidth ∨ size.2 < cfg.minHeight
  · rw [if_pos hsmall] at h ⊢
    exact ⟨h, rfl⟩
  rw [if_neg hsmall] at h ⊢
  by_cases hnew : size.1 ≠ l.fb.w ∨ size.2 ≠ l.fb.h
  · rw [if_pos hnew] at h ⊢
    generalize l.fb.resize size.1 size.2 = resized at h ⊢
    obtain ⟨fb, ok⟩ := resized
    cases ok with
    | true => cases h
    | false => exact ⟨h, rfl⟩
  · rw [if_neg hnew] at h ⊢
    exact ⟨h, rfl⟩

theorem EventLoop.mark_clean {n : Nat} {updated animating : Bool}
    (h : (l.mark n updated animating).dirty = false) :
    l.dirty = false ∧ n = 0 ∧ updated = false ∧ animating = false := by
  simp only [EventLoop.mark, Bool.or_eq_false_iff, bne_eq_false_iff_eq] at h
  obtain ⟨⟨⟨hl, hn⟩, hupdated⟩, hanimating⟩ := h
  exact ⟨hl, hn, hupdated, hanimating⟩

variable {animations snapshotMode : Bool} {input : FrameInput}

theorem FrameSys.work_clean {a : SnapshotApp}
    (h : (FrameSys.work animations snapshotMode input l a).1.dirty = false) :
    l.dirty = false ∧
      Still a.app (FrameSys.work animations snapshotMode input l a).2.app ∧
      (a.app.paused = true →
        (FrameSys.work animations snapshotMode input l a).2.app.nowMs = a.app.nowMs) ∧
      (FrameSys.work animations snapshotMode input l a).2.app.animating animations = false := by
  obtain ⟨hl, hn, hupdated, hanimating⟩ := EventLoop.mark_clean h
  obtain ⟨hdrain, hms⟩ := HeapApp.drain_still hn
  obtain ⟨hupdate, hclock⟩ := SnapshotApp.update_still hupdated
  refine ⟨hl, hdrain.trans hupdate, fun hp => ?_, hanimating⟩
  exact (hclock (hdrain.paused.trans hp)).trans hms

theorem FrameSys.resizeStep_clean (h : (FrameSys.resizeStep cfg input l).dirty = false) :
    l.dirty = false ∧ (FrameSys.resizeStep cfg input l).fb = l.fb := by
  unfold FrameSys.resizeStep at h ⊢
  cases hrequest : input.request with
  | true =>
      rw [hrequest, if_pos rfl] at h
      exact EventLoop.sized_clean h
  | false =>
      rw [hrequest] at h
      exact ⟨h, rfl⟩

/-- A frame about to be skipped: the loop was clean before it, and the map is
the one there was. -/
theorem FrameSys.decision_clean {s : FrameSys}
    (hphase : (s.decision cfg animations snapshotMode input).1.phase = .work)
    (hdirty : (s.decision cfg animations snapshotMode input).1.dirty = false) :
    s.loop.dirty = false ∧
      Still s.snap.app (s.decision cfg animations snapshotMode input).2.app ∧
      (s.snap.app.paused = true →
        (s.decision cfg animations snapshotMode input).2.app.nowMs = s.snap.app.nowMs) ∧
      (s.decision cfg animations snapshotMode input).2.app.animating animations = false := by
  unfold FrameSys.decision at hphase hdirty ⊢
  dsimp only at hphase hdirty ⊢
  by_cases hlook : (s.loop.begin cfg input.quit input.reset).phase = .look
  swap
  · rw [if_neg hlook] at hphase
    obtain ⟨_, _, _, hbegin, rfl | ⟨why, rfl⟩⟩ :=
      EventLoop.begin_cases cfg input.quit input.reset s.loop
    · rw [hbegin] at hlook
      exact absurd rfl hlook
    · rw [hbegin] at hphase
      cases hphase
  rw [if_pos hlook] at hphase hdirty ⊢
  by_cases hsized : (FrameSys.resizeStep cfg input
      (s.loop.begin cfg input.quit input.reset)).phase = .work
  swap
  · rw [if_neg hsized] at hphase
    exact absurd hphase hsized
  rw [if_pos hsized] at hdirty ⊢
  obtain ⟨hclean, hstill, hclock, hanimating⟩ := FrameSys.work_clean hdirty
  obtain ⟨hlooked, hfb⟩ := FrameSys.resizeStep_clean hclean
  have hsame : FrameSys.tellSize (s.loop.begin cfg input.quit input.reset)
      (FrameSys.resizeStep cfg input (s.loop.begin cfg input.quit input.reset)) s.snap =
        s.snap := by
    unfold FrameSys.tellSize
    rw [hfb, if_neg]
    simp
  rw [hsame] at hstill hclock hanimating ⊢
  exact ⟨EventLoop.begin_clean hlooked, hstill, hclock, hanimating⟩

/-- A loop that ends before the drain has told the application nothing. -/
theorem FrameSys.decision_exit {s : FrameSys}
    (hphase : (s.decision cfg animations snapshotMode input).1.phase ≠ .work) :
    (s.decision cfg animations snapshotMode input).2 = s.snap ∧
      ((s.decision cfg animations snapshotMode input).1.dirty = false → s.loop.dirty = false) := by
  unfold FrameSys.decision at hphase ⊢
  dsimp only at hphase ⊢
  by_cases hlook : (s.loop.begin cfg input.quit input.reset).phase = .look
  · rw [if_pos hlook] at hphase ⊢
    by_cases hsized : (FrameSys.resizeStep cfg input
        (s.loop.begin cfg input.quit input.reset)).phase = .work
    · rw [if_pos hsized] at hphase
      exact absurd hsized hphase
    · rw [if_neg hsized]
      exact ⟨rfl, fun hd => EventLoop.begin_clean (FrameSys.resizeStep_clean hd).1⟩
  · rw [if_neg hlook]
    exact ⟨rfl, fun hd => EventLoop.begin_clean hd⟩

end Decision

/-! ## Whole runs -/

section Runs

variable {Lab : Type} {cfg : LoopConfig} {ramp : HeatRamp Lab} {snapshotMode : Bool} {s : FrameSys}

/-- What the screen shows was right when it was drawn; after a skipped frame it
is right now. -/
structure ShownInv (ramp : HeatRamp Lab) (s : FrameSys) : Prop where
  skipped : s.skipped = true → s.shown = s.snap.app.drawMap ramp true s.snap.app.nowMs
  clean : s.loop.dirty = false → s.shown = s.snap.app.drawMap ramp true s.drawnMs
  frozen : s.loop.dirty = false → s.snap.app.paused = true → s.snap.app.nowMs = s.drawnMs

theorem Still.drawMap {a b : HeapApp} (h : Still a b) (animations : Bool) (t : Nat) :
    b.drawMap ramp animations t = a.drawMap ramp animations t := by
  unfold HeapApp.drawMap HeapApp.view
  rw [h.map, h.unicode, h.layout]

/-- **A skipped frame.** The map drawn now would be the one on the screen. -/
theorem ShownInv.skip (h : ShownInv ramp s) (htimings : ramp.timings = kDefaultTimings)
    {input : FrameInput} (hg : InTime cfg ramp true snapshotMode s (.frame input))
    (hphase : (s.decision cfg true snapshotMode input).1.phase = .work)
    (hdirty : (s.decision cfg true snapshotMode input).1.dirty = false) :
    s.shown = (s.decision cfg true snapshotMode input).2.app.drawMap ramp true
      (s.decision cfg true snapshotMode input).2.app.nowMs := by
  obtain ⟨hclean, hstill, hclock, hanimating⟩ := FrameSys.decision_clean hphase hdirty
  rw [hstill.drawMap, h.clean hclean]
  by_cases hpaused : s.snap.app.paused = true
  · rw [hclock hpaused, h.frozen hclean hpaused]
  · -- every window has passed now, and none was open when the frame was drawn
    have hthen := (hg hphase hdirty).resolve_left hpaused
    have hmap : MapView.animating s.snap.app.map
        (s.decision cfg true snapshotMode input).2.app.nowMs = false := by
      have hrunning := (hstill.paused.trans (Bool.eq_false_iff.mpr hpaused))
      simpa [HeapApp.animating, hrunning, hstill.map] using hanimating
    exact MapView.draw_settled htimings hthen fun i hi =>
      MapView.animating_eq_false hmap (MapView.visible_lt hi)

theorem ShownInv.frame (h : ShownInv ramp s) (htimings : ramp.timings = kDefaultTimings)
    {input : FrameInput} (hg : InTime cfg ramp true snapshotMode s (.frame input)) :
    ShownInv ramp (s.frame cfg ramp true snapshotMode input) := by
  unfold FrameSys.frame
  dsimp only
  by_cases hphase : (s.decision cfg true snapshotMode input).1.phase = .work
  swap
  · rw [if_neg hphase]
    obtain ⟨hsnap, hclean⟩ := FrameSys.decision_exit hphase
    rw [hsnap]
    exact ⟨fun hfalse => (by cases hfalse), fun hd => h.clean (hclean hd),
      fun hd => h.frozen (hclean hd)⟩
  rw [if_pos hphase]
  cases hdirty : (s.decision cfg true snapshotMode input).1.dirty with
  | false =>
      obtain ⟨hclean, hstill, hclock, -⟩ := FrameSys.decision_clean hphase hdirty
      have hskip := h.skip htimings hg hphase hdirty
      rw [if_pos rfl]
      refine ⟨fun _ => hskip, ?_, ?_⟩
      · intro _
        exact (h.clean hclean).trans (hstill.drawMap true s.drawnMs).symm
      · intro _ hp
        have hpaused := hstill.paused.symm.trans hp
        exact (hclock hpaused).trans (h.frozen hclean hpaused)
  | true =>
      have hdrawn : ((s.decision cfg true snapshotMode input).1.draw input.puts).dirty = true := by
        unfold EventLoop.draw
        rw [if_pos hdirty]
        exact hdirty
      rw [if_neg (by simp)]
      cases input.writes with
      | true => exact ⟨fun hfalse => (by cases hfalse), fun _ => rfl, fun _ _ => rfl⟩
      | false =>
          have hlost : ∀ {P : Prop},
              ((s.decision cfg true snapshotMode input).1.draw input.puts).dirty = false → P :=
            fun hd => absurd (hdrawn.symm.trans hd) (by simp)
          exact ⟨fun hfalse => (by cases hfalse), fun hd => hlost hd, fun hd => hlost hd⟩

/-- No key touches the map or the clock, and one that reports nothing does not
touch the pause. -/
theorem HeapApp.key_still (a : HeapApp) (k : HeapApp.Key) :
    (a.key k).1.map = a.map ∧ (a.key k).1.unicode = a.unicode ∧ (a.key k).1.layout = a.layout ∧
      (a.key k).1.nowMs = a.nowMs ∧ ((a.key k).2 = false → (a.key k).1.paused = a.paused) := by
  cases k with
  | space =>
      unfold HeapApp.key HeapApp.keySpace
      dsimp only
      by_cases hlive : a.state = .live ∨ a.paused = true
      · rw [if_pos hlive]
        refine ⟨rfl, rfl, rfl, rfl, fun hfalse => ?_⟩
        simp only [Bool.or_eq_false_iff, beq_eq_false_iff_ne] at hfalse
        rcases hlive with hl | hp
        · exact absurd hl hfalse.1
        · rw [hp] at hfalse
          cases hfalse.2
      · rw [if_neg hlive]
        exact ⟨rfl, rfl, rfl, rfl, fun _ => rfl⟩
  | help => exact ⟨rfl, rfl, rfl, rfl, fun _ => rfl⟩
  | reset =>
      unfold HeapApp.key
      dsimp only
      split <;> exact ⟨rfl, rfl, rfl, rfl, fun _ => rfl⟩
  | other changed => exact ⟨rfl, rfl, rfl, rfl, fun _ => rfl⟩

theorem ShownInv.key (h : ShownInv ramp s) (k : HeapApp.Key) :
    ShownInv ramp { s with
      loop := { s.loop with dirty := s.loop.dirty || (s.snap.app.key k).2 }
      snap := { s.snap with app := (s.snap.app.key k).1 } } := by
  obtain ⟨hmap, hunicode, hlayout, hclock, hpaused⟩ := s.snap.app.key_still k
  have hdraw : ∀ t, (s.snap.app.key k).1.drawMap ramp true t = s.snap.app.drawMap ramp true t := by
    intro t
    unfold HeapApp.drawMap HeapApp.view
    rw [hmap, hunicode, hlayout]
  refine ⟨?_, ?_, ?_⟩
  · intro hskip
    show s.shown = (s.snap.app.key k).1.drawMap ramp true (s.snap.app.key k).1.nowMs
    rw [hdraw, hclock]
    exact h.skipped hskip
  · intro hd
    exact (h.clean (Bool.or_eq_false_iff.mp hd).1).trans (hdraw s.drawnMs).symm
  · intro hd hp
    obtain ⟨hloop, hkey⟩ := Bool.or_eq_false_iff.mp hd
    exact hclock.trans (h.frozen hloop ((hpaused hkey).symm.trans hp))

theorem ShownInv.step (h : ShownInv ramp s) (htimings : ramp.timings = kDefaultTimings)
    {a : FrameAct} {s' : FrameSys} (hg : InTime cfg ramp true snapshotMode s a)
    (hstep : s.step cfg ramp true snapshotMode a = some s') : ShownInv ramp s' := by
  cases a with
  | frame input =>
      obtain ⟨-, hs'⟩ := Option.ite_none_right_eq_some.mp hstep
      obtain rfl := Option.some.inj hs'
      exact h.frame htimings hg
  | key k =>
      obtain ⟨-, hs'⟩ := Option.ite_none_right_eq_some.mp hstep
      obtain rfl := Option.some.inj hs'
      exact h.key k
  | wait quit =>
      obtain ⟨-, hs'⟩ := Option.ite_none_right_eq_some.mp hstep
      obtain rfl := Option.some.inj hs'
      have hdirty : (s.loop.waited quit false).dirty = s.loop.dirty := Bool.or_false _
      exact ⟨h.skipped, fun hd => h.clean (hdirty.symm.trans hd),
        fun hd => h.frozen (hdirty.symm.trans hd)⟩

end Runs

/-- **Skipped frames are sound.** For every Oklab arithmetic and palette, every
session the loop starts with, whatever its map holds, in either mode: in
every run of frames at any times, keys and waits, in which no frame is
skipped that finds the windows of a cell closed which were open when it was
drawn, whenever a frame is skipped the cells on the screen have the colours
the ramp gives them at this frame's `now_ms`. -/
theorem skipped_frame_current {Lab : Type} (lab : Oklab Lab) (palette : HeatPalette)
    (cfg : LoopConfig) (snapshotMode : Bool) (fb : Framebuffer) (snap : SnapshotApp)
    (as : List FrameAct) (s : FrameSys)
    (hg : Run.Guarded (FrameSys.step cfg ⟨lab, palette, kDefaultTimings⟩ true snapshotMode)
      (InTime cfg ⟨lab, palette, kDefaultTimings⟩ true snapshotMode)
      (FrameSys.start cfg fb snap) as)
    (hrun : Run.run (FrameSys.step cfg ⟨lab, palette, kDefaultTimings⟩ true snapshotMode)
      (FrameSys.start cfg fb snap) as = some s)
    (hskip : s.skipped = true) :
    s.shown = (s.snap.app.visibleCells ⟨lab, palette, kDefaultTimings⟩ true).map fun i =>
      (i, HeatRamp.color ⟨lab, palette, kDefaultTimings⟩ (s.snap.app.map.cells i)
        s.snap.app.map.grid.cellBytes s.snap.app.nowMs) := by
  have hstart : ShownInv ⟨lab, palette, kDefaultTimings⟩ (FrameSys.start cfg fb snap) :=
    ⟨fun hfalse => (by cases hfalse), fun hfalse => (by cases hfalse),
      fun hfalse => (by cases hfalse)⟩
  have hend : ShownInv ⟨lab, palette, kDefaultTimings⟩ s :=
    Run.guarded_invariant (fun _ _ _ h hg hstep => h.step rfl hg hstep) hstart hg hrun
  exact hend.skipped hskip

/-- An arithmetic for examples: every blend is its first colour. -/
def flatLab : Oklab Nat := ⟨id, id, fun a _ _ => a, fun a _ => a, fun _ _ => 0, fun a _ => a⟩

def flatRamp : HeatRamp Nat := ⟨flatLab, kDefaultPalette, kDefaultTimings⟩

/-- A session on a terminal of 20 by 6, 950 ms old. The target's heap is one
page; it freed a chunk there at 900 ms, allocated before the session began,
and exited. -/
def flashedApp : HeapApp :=
  let scanner := { MapsScanner.init with
    regions := [⟨0x1000, 0x2000, .heap, false⟩]
    forced := false }
  let regions := (RegionMap.init.rebuild scanner.regions).1
  let layout := solveLayout 20 6
  let grid := fitGrid (Grid.init.setBounds 0 0x1000) layout.map true layout.legend
  { HeapApp.new true true 0 with
    state := .exited
    nowMs := 950
    exitedMs := 950
    events := 1
    freesUnknown := 1
    scanner := scanner
    regions := regions
    mapRegions := true
    bounds := ⟨0, 0x1000⟩
    width := 20
    height := 6
    layout := layout
    grid := grid
    geometryDirty := false
    map := (HeatMap.init.configure grid).1.onFree (some regions) 0x1010 32 40 900 }

def flashedSession : SnapshotApp := { SnapshotApp.new true 0 with app := flashedApp }

/-- A frame at `ms` with nothing new in it. -/
def quietFrame (request : Bool) (ms : Nat) : FrameAct :=
  .frame ⟨false, false, request, some (20, 6), [], ⟨ms * 1000000, false, .failed .targetGone,
    ⟨.ok, []⟩⟩, ⟨[], fun _ _ _ => .bytes [], 0⟩, false, [], true⟩

/-- A session whose cells have settled: the second frame is skipped. -/
def settledRun : List FrameAct := [quietFrame true 4000, .wait false, quietFrame false 4016]

theorem skipped_frame_current_settled : ∃ s,
    Run.run (FrameSys.step .default flatRamp true false)
        (FrameSys.start .default .init flashedSession) settledRun = some s ∧ s.skipped = true ∧
      s.shown = (s.snap.app.visibleCells flatRamp true).map fun i =>
        (i, flatRamp.color (s.snap.app.map.cells i) s.snap.app.map.grid.cellBytes
          s.snap.app.nowMs) := by
  have hskip : (Run.run (FrameSys.step .default flatRamp true false)
      (FrameSys.start .default .init flashedSession) settledRun).map FrameSys.skipped =
        some true := by decide
  obtain ⟨s, hs, hskip⟩ := Option.map_eq_some_iff.mp hskip
  exact ⟨s, hs, hskip, skipped_frame_current flatLab kDefaultPalette .default false .init
    flashedSession settledRun s (by decide) hs hskip⟩

/-- The first frame shows the flash 100 ms after the free; the second comes two
and a half seconds late and finds nothing to animate. -/
def lateRun : List FrameAct := [quietFrame true 1000, .wait false, quietFrame false 3500]

/-- The flash stays on the screen. -/
theorem flash_left_behind : ∃ s,
    Run.run (FrameSys.step .default flatRamp true false)
        (FrameSys.start .default .init flashedSession) lateRun = some s ∧ s.skipped = true ∧
      ¬ s.shown = (s.snap.app.visibleCells flatRamp true).map fun i =>
        (i, flatRamp.color (s.snap.app.map.cells i) s.snap.app.map.grid.cellBytes
          s.snap.app.nowMs) := by
  have hfirst : (Run.run (FrameSys.step .default flatRamp true false)
      (FrameSys.start .default .init flashedSession) lateRun).map (fun s =>
        (s.skipped, s.shown.head?, ((s.snap.app.visibleCells flatRamp true).map fun i =>
          (i, flatRamp.color (s.snap.app.map.cells i) s.snap.app.map.grid.cellBytes
            s.snap.app.nowMs)).head?)) =
      some (true, some (0, 0xE01B24), some (0, 0x2A2A2A)) := by decide
  obtain ⟨s, hs, hfirst⟩ := Option.map_eq_some_iff.mp hfirst
  obtain ⟨hskip, hfirst⟩ := Prod.mk.inj hfirst
  obtain ⟨hshown, hnow⟩ := Prod.mk.inj hfirst
  refine ⟨s, hs, hskip, fun hsame => ?_⟩
  rw [hsame, hnow] at hshown
  exact absurd hshown (by decide)

end Heapviz
