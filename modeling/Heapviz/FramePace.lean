import Heapviz.EventLoop
import Heapviz.Recent
import Heapviz.Run

/-!
# The loop by the clock

`EventLoop::run` and `wait_for_deadline` (`tui/event_loop.cpp`) with what the clock
decides and what is measured by it: when a frame begins and how long it waits,
what is polled, where the time of a frame went, and the statistics over the
frames. What a frame does to the screen is that of `Heapviz.EventLoop`.

An action carries what the world answered, and when. The clock does not go
back; `poll` and `nanosleep` end when their time is over, or before it for a
reason they give.

The rate of the frames drawn is a quotient of two numbers, the frames and the
nanoseconds they took; the source divides them as `double`s.
-/

namespace Heapviz

def kNsPerSec : Nat := 1000 * 1000 * 1000

def kNsPerMs : Nat := 1000 * 1000

def kFpsSamples : Nat := 30

/-- `LoopConfig` with the rate the loop is to keep to. -/
structure PaceConfig extends LoopConfig where
  targetFps : Nat

/-- `period_ns_`. -/
def PaceConfig.periodNs (cfg : PaceConfig) : Nat :=
  kNsPerSec / (if cfg.targetFps = 0 then 1 else cfg.targetFps)

structure FrameTiming where
  drainNs : Nat
  updateNs : Nat
  drawNs : Nat
  diffNs : Nat
  writeNs : Nat
  totalNs : Nat
deriving Repr, DecidableEq

def FrameTiming.init : FrameTiming := ⟨0, 0, 0, 0, 0, 0⟩

/-- `LoopStats` without `frames`, which `EventLoop` has. -/
structure LoopStats where
  drawn : Nat
  skipped : Nat
  repaints : Nat
  writes : Nat
  bytesWritten : Nat
  events : Nat
  overruns : Nat
  last : FrameTiming
  worst : FrameTiming
  /-- Frames, and the nanoseconds they took. -/
  fps : Nat × Nat
deriving Repr, DecidableEq

def LoopStats.init : LoopStats := ⟨0, 0, 0, 0, 0, 0, 0, .init, .init, (0, 0)⟩

/-- Where the loop stands between two points of its phase: before `drain`, before
`draw`, after it, at the top of the wait, asleep until, or in `poll` until. -/
inductive Place where
  | fresh
  | marked
  | painted
  | check
  | asleep (wake : Nat)
  | polling (wake : Nat)
deriving Repr, DecidableEq

/-- What ends a `poll`, and what the `read` after it brings. -/
inductive PollResult where
  | timeout
  | signal
  | failed
  | hangup
  | eof
  | readFailed
  | again
  | data (changed quit : Bool)
deriving Repr, DecidableEq

/-- The loop with its clock: `frameStart`, `deadline`, `timing` and `updatedAt` are
the locals of the iteration, `recent` the three members behind `fps`. -/
structure PacedLoop where
  loop : EventLoop
  stats : LoopStats
  recent : Recent (Nat × Nat) kFpsSamples
  inputOpen : Bool
  frameStart : Nat
  deadline : Nat
  timing : FrameTiming
  updatedAt : Nat
  diffedAt : Nat
  place : Place

namespace PacedLoop

def start (cfg : PaceConfig) (fb : Framebuffer) : PacedLoop where
  loop := .start cfg.toLoopConfig fb
  stats := .init
  recent := .clear (0, 0)
  inputOpen := true
  frameStart := 0
  deadline := 0
  timing := .init
  updatedAt := 0
  diffedAt := 0
  place := .fresh

/-- The top of an iteration; a reset starts the statistics anew. -/
def begin (cfg : PaceConfig) (now : Nat) (quit reset : Bool) (p : PacedLoop) : PacedLoop :=
  let fresh : Bool := !quit && reset
  { p with
    loop := p.loop.begin cfg.toLoopConfig quit reset
    stats := if fresh then .init else p.stats
    recent := if fresh then .clear (0, 0) else p.recent
    frameStart := now
    deadline := now + cfg.periodNs
    place := .fresh }

/-- The frame takes the size measured; a buffer of another size is a repaint. -/
def measure (cfg : PaceConfig) (size : Option (Int × Int)) (p : PacedLoop) : PacedLoop :=
  let loop := p.loop.sized cfg.toLoopConfig size
  { p with
    loop := loop
    stats :=
      if loop.fb.w ≠ p.loop.fb.w ∨ loop.fb.h ≠ p.loop.fb.h then
        { p.stats with repaints := p.stats.repaints + 1 }
      else p.stats }

/-- `drain`, `update` and `animating`. -/
def work (n : Nat) (updated animating : Bool) (drainedAt updatedAt : Nat) (p : PacedLoop) :
    PacedLoop :=
  { p with
    loop := p.loop.mark n updated animating
    stats := { p.stats with events := (p.stats.events + n) % 2 ^ 64 }
    timing := ⟨drainedAt - p.frameStart, updatedAt - drainedAt, 0, 0, 0, 0⟩
    updatedAt := updatedAt
    place := .marked }

def draw (puts : List Put) (drawnAt diffedAt : Nat) (p : PacedLoop) : PacedLoop :=
  { p with
    loop := p.loop.draw puts
    timing := { p.timing with drawNs := drawnAt - p.updatedAt, diffNs := diffedAt - drawnAt }
    diffedAt := diffedAt }

/-- A frame that is not dirty. -/
def skip (p : PacedLoop) : PacedLoop :=
  { p with
    loop := p.loop.draw []
    stats := { p.stats with skipped := p.stats.skipped + 1 }
    place := .painted }

/-- The bytes of the frame are written, if there are any, and the buffers swapped. -/
def flush (rest : List Nat) (ok : Bool) (writtenAt : Nat) (p : PacedLoop) : PacedLoop :=
  if rest ≠ [] ∧ ok = false then
    { p with loop := { p.loop with phase := .exited .writeFailed } }
  else
    { p with
      loop := p.loop.drawn
      stats := { p.stats with
        drawn := p.stats.drawn + 1
        writes := if rest ≠ [] then p.stats.writes + 1 else p.stats.writes
        bytesWritten := p.stats.bytesWritten + rest.length }
      timing := { p.timing with writeNs := writtenAt - p.diffedAt }
      place := .painted }

/-- The rate over the frames that are still held. -/
def rate (recent : Recent (Nat × Nat) kFpsSamples) (stats : LoopStats) (updatedAt : Nat) :
    Nat × Nat :=
  if recent.count ≥ 2 then
    let first := recent.oldest
    let elapsed := updatedAt - first.1
    if elapsed = 0 then (0, 0) else (stats.drawn - first.2, elapsed)
  else stats.fps

/-- What is counted at the end of a frame, before the wait. -/
def finish (cfg : PaceConfig) (now : Nat) (p : PacedLoop) : PacedLoop :=
  let timing := { p.timing with totalNs := now - p.frameStart }
  let recent := p.recent.push (p.updatedAt, p.stats.drawn)
  { p with
    timing := timing
    stats := { p.stats with
      last := timing
      worst := if timing.totalNs > p.stats.worst.totalNs then timing else p.stats.worst
      overruns :=
        if timing.totalNs > cfg.periodNs then p.stats.overruns + 1 else p.stats.overruns
      fps := rate recent p.stats p.updatedAt }
    recent := recent
    place := .check }

/-- The wait ends: the next iteration, or none. -/
def leave (quit key : Bool) (p : PacedLoop) : PacedLoop :=
  { p with loop := p.loop.waited quit key, place := .fresh }

/-- The timeout for what is left, in whole milliseconds and not too few. -/
def timeoutNs (left : Nat) : Nat := (left + (kNsPerMs - 1)) / kNsPerMs * kNsPerMs

/-- The top of `wait_for_deadline`'s loop. -/
def check (now : Nat) (quit : Bool) (p : PacedLoop) : PacedLoop :=
  if quit then p.leave true false
  else if now ≥ p.deadline then p.leave false false
  else if p.inputOpen = false then { p with place := .asleep (now + (p.deadline - now)) }
  else { p with place := .polling (now + timeoutNs (p.deadline - now)) }

/-- What follows a `poll`. -/
def polled (r : PollResult) (p : PacedLoop) : PacedLoop :=
  match r with
  | .timeout | .signal => p.leave false false
  | .failed | .hangup | .eof | .readFailed => { p with inputOpen := false, place := .check }
  | .again => { p with place := .check }
  | .data changed quit =>
      if quit then p.leave true changed
      else { p with loop := { p.loop with dirty := p.loop.dirty || changed }, place := .check }

end PacedLoop

/-! ## What the loop's parts do -/

/-- The loop is in an iteration. -/
def Phase.busy : Phase → Bool
  | .top | .exited _ => false
  | _ => true

theorem Phase.busy_of {p q : Phase} (h : p = q) (hbusy : q.busy = true) : p.busy = true :=
  h ▸ hbusy

section Parts

variable (cfg : LoopConfig) (l : EventLoop)

theorem EventLoop.begin_phase (quit reset : Bool) :
    ((l.begin cfg quit reset).phase = .look ∧
      (l.begin cfg quit reset).frames = (if reset then 0 else l.frames) + 1) ∨
    ∃ why, (l.begin cfg quit reset).phase = .exited why := by
  unfold EventLoop.begin
  cases quit with
  | true => exact .inr ⟨_, rfl⟩
  | false =>
      cases reset with
      | false =>
          simp only [Bool.false_eq_true, if_false]
          split_ifs
          · exact .inr ⟨_, rfl⟩
          · exact .inl ⟨rfl, rfl⟩
      | true =>
          simp only [Bool.false_eq_true, if_false, if_true]
          split_ifs
          · exact .inr ⟨_, rfl⟩
          · exact .inl ⟨rfl, rfl⟩

theorem EventLoop.sized_phase (size : Option (Int × Int)) :
    ((l.sized cfg size).phase = .work ∨ ∃ why, (l.sized cfg size).phase = .exited why) ∧
      (l.sized cfg size).frames = l.frames := by
  unfold EventLoop.sized
  generalize size.getD (if l.fb.isEmpty then (80, 24) else ((l.fb.w : Int), (l.fb.h : Int))) = sz
  dsimp only
  split_ifs
  · exact ⟨.inr ⟨_, rfl⟩, rfl⟩
  · split
    · exact ⟨.inl rfl, rfl⟩
    · exact ⟨.inr ⟨_, rfl⟩, rfl⟩
  · exact ⟨.inl rfl, rfl⟩

theorem EventLoop.draw_dirty (hdirty : l.dirty = true) (puts : List Put) :
    ∃ rest, (l.draw puts).phase = .flush rest := by
  unfold EventLoop.draw
  rw [if_pos hdirty]
  exact ⟨_, rfl⟩

theorem EventLoop.draw_frames (puts : List Put) : (l.draw puts).frames = l.frames := by
  unfold EventLoop.draw
  split <;> rfl

theorem EventLoop.draw_clean (hclean : l.dirty = false) (puts : List Put) :
    l.draw puts = { l with phase := .wait } := by
  unfold EventLoop.draw
  rw [if_neg (by simp [hclean])]

end Parts

/-- The timeout covers what is left, by less than a millisecond more. -/
theorem PacedLoop.le_timeoutNs (left : Nat) : left ≤ timeoutNs left := by
  unfold timeoutNs kNsPerMs
  omega

/-- The frame fails to be written, which ends the loop, or is done. -/
theorem PacedLoop.flush_cases (rest : List Nat) (ok : Bool) (writtenAt : Nat) (p : PacedLoop) :
    p.flush rest ok writtenAt =
        { p with loop := { p.loop with phase := .exited .writeFailed } } ∨
      p.flush rest ok writtenAt =
        { p with
          loop := p.loop.drawn
          stats := { p.stats with
            drawn := p.stats.drawn + 1
            writes := if rest ≠ [] then p.stats.writes + 1 else p.stats.writes
            bytesWritten := p.stats.bytesWritten + rest.length }
          timing := { p.timing with writeNs := writtenAt - p.diffedAt }
          place := .painted } := by
  unfold PacedLoop.flush
  split_ifs <;> simp

/-- The wait of a frame: over, until the deadline, or at the top of its loop again. -/
theorem PacedLoop.check_cases (now : Nat) (quit : Bool) (p : PacedLoop) :
    (p.check now quit = p.leave quit false ∧ (quit = false → p.deadline ≤ now)) ∨
      ∃ wake place, p.check now quit = { p with place := place } ∧ p.deadline ≤ wake ∧
        (place = .asleep wake ∨ place = .polling wake ∧ p.inputOpen = true) := by
  unfold PacedLoop.check
  cases quit with
  | true => exact .inl ⟨rfl, fun h => nomatch h⟩
  | false =>
      rw [if_neg Bool.false_ne_true]
      split_ifs with hover hclosed
      · exact .inl ⟨rfl, fun _ => hover⟩
      · exact .inr ⟨_, _, rfl, by omega, .inl rfl⟩
      · have hle := PacedLoop.le_timeoutNs (p.deadline - now)
        exact .inr ⟨_, _, rfl, by omega, .inr ⟨rfl, Bool.of_not_eq_false hclosed⟩⟩

/-- What a `poll` leads to: out of the wait, or back to the top of its loop. -/
theorem PacedLoop.polled_cases (r : PollResult) (p : PacedLoop) :
    (∃ quit key, p.polled r = p.leave quit key ∧
      (quit = false → r = .timeout ∨ r = .signal)) ∨
      ∃ dirty inputOpen, p.polled r =
          { p with
            loop := { p.loop with dirty := dirty }, inputOpen := inputOpen, place := .check } ∧
        (inputOpen = false ∨ inputOpen = p.inputOpen ∧ (r = .again ∨ ∃ c q, r = .data c q)) := by
  cases r with
  | timeout => exact .inl ⟨false, false, rfl, fun _ => .inl rfl⟩
  | signal => exact .inl ⟨false, false, rfl, fun _ => .inr rfl⟩
  | failed => exact .inr ⟨p.loop.dirty, false, rfl, .inl rfl⟩
  | hangup => exact .inr ⟨p.loop.dirty, false, rfl, .inl rfl⟩
  | eof => exact .inr ⟨p.loop.dirty, false, rfl, .inl rfl⟩
  | readFailed => exact .inr ⟨p.loop.dirty, false, rfl, .inl rfl⟩
  | again => exact .inr ⟨p.loop.dirty, p.inputOpen, rfl, .inr ⟨rfl, .inl rfl⟩⟩
  | data changed quit =>
      cases quit with
      | true => exact .inl ⟨true, changed, rfl, fun h => nomatch h⟩
      | false =>
          exact .inr ⟨p.loop.dirty || changed, p.inputOpen, rfl, .inr ⟨rfl, .inr ⟨_, _, rfl⟩⟩⟩

theorem PacedLoop.leave_idle (quit key : Bool) (p : PacedLoop) :
    (p.leave quit key).loop.phase.busy = false ∧
      ((p.leave quit key).loop.phase = .top → quit = false) := by
  cases quit with
  | true => exact ⟨rfl, fun h => nomatch h⟩
  | false => exact ⟨rfl, fun _ => rfl⟩

/-! ## Runs of it -/

/-- What a frame came to, once it is over. -/
structure FrameRecord where
  timing : FrameTiming
  updatedAt : Nat
  painted : Bool
  resized : Bool
  bytes : Nat
  events : Nat
deriving Repr, DecidableEq

def FrameRecord.init : FrameRecord := ⟨.init, 0, false, false, 0, 0⟩

/-- The loop and the time. The rest is history: frames begun, waits a signal cut
short, sleeps and polls begun, reads that brought input and reads that brought
nothing, and the frames finished since the last reset, with `current` the one
the loop is in. -/
structure PaceSys where
  paced : PacedLoop
  clock : Nat
  begun : Nat
  cut : Nat
  waits : Nat
  fed : Nat
  again : Nat
  finished : List FrameRecord
  current : FrameRecord

inductive PaceAct where
  | begin (now : Nat) (quit reset : Bool)
  | look (requested : Bool)
  | measure (size : Option (Int × Int))
  | work (now : Nat) (n : Nat) (updated animating : Bool) (drainedAt : Nat)
  | draw (now : Nat) (puts : List Put) (drawnAt : Nat)
  | skip
  | flush (now : Nat) (ok : Bool)
  | finish (now : Nat)
  | check (now : Nat) (quit : Bool)
  | woken (now : Nat) (signal : Bool)
  | polled (now : Nat) (r : PollResult)

namespace PaceSys

def start (cfg : PaceConfig) (fb : Framebuffer) (now : Nat) : PaceSys where
  paced := .start cfg fb
  clock := now
  begun := 0
  cut := 0
  waits := 0
  fed := 0
  again := 0
  finished := []
  current := .init

/-- One step of the loop, if it is one the loop can take there. -/
def step (cfg : PaceConfig) (s : PaceSys) : PaceAct → Option PaceSys
  | .begin now quit reset =>
      if s.paced.loop.phase = .top ∧ s.clock ≤ now then
        let p := s.paced.begin cfg now quit reset
        some { s with
          paced := p
          clock := now
          begun := if p.loop.phase = .look then s.begun + 1 else s.begun
          finished := if quit = false ∧ reset = true then [] else s.finished
          current := .init }
      else none
  | .look requested =>
      if s.paced.loop.phase = .look then
        some { s with paced := { s.paced with
          loop := { s.paced.loop with phase := if requested then .measure else .work } } }
      else none
  | .measure size =>
      if s.paced.loop.phase = .measure then
        let p := s.paced.measure cfg size
        some { s with
          paced := p
          current := { s.current with
            resized := p.loop.fb.w ≠ s.paced.loop.fb.w ∨ p.loop.fb.h ≠ s.paced.loop.fb.h } }
      else none
  | .work now n updated animating drainedAt =>
      if s.paced.loop.phase = .work ∧ s.paced.place = .fresh ∧ s.clock ≤ drainedAt ∧
          drainedAt ≤ now then
        some { s with
          paced := s.paced.work n updated animating drainedAt now
          clock := now
          current := { s.current with updatedAt := now, events := n } }
      else none
  | .draw now puts drawnAt =>
      if s.paced.loop.phase = .work ∧ s.paced.place = .marked ∧ s.paced.loop.dirty = true ∧
          s.clock ≤ drawnAt ∧ drawnAt ≤ now then
        some { s with paced := s.paced.draw puts drawnAt now, clock := now }
      else none
  | .skip =>
      if s.paced.loop.phase = .work ∧ s.paced.place = .marked ∧ s.paced.loop.dirty = false then
        some { s with paced := s.paced.skip }
      else none
  | .flush now ok =>
      match s.paced.loop.phase with
      | .flush rest =>
          if s.clock ≤ now then
            let p := s.paced.flush rest ok now
            some { s with
              paced := p
              clock := now
              current :=
                if p.loop.phase = .wait then
                  { s.current with painted := true, bytes := rest.length }
                else s.current }
          else none
      | _ => none
  | .finish now =>
      if s.paced.loop.phase = .wait ∧ s.paced.place = .painted ∧ s.clock ≤ now then
        let p := s.paced.finish cfg now
        some { s with
          paced := p
          clock := now
          finished := s.finished ++ [{ s.current with timing := p.timing }]
          current := .init }
      else none
  | .check now quit =>
      if s.paced.loop.phase = .wait ∧ s.paced.place = .check ∧ s.clock ≤ now then
        let p := s.paced.check now quit
        some { s with
          paced := p
          clock := now
          waits := if p.loop.phase = .wait then s.waits + 1 else s.waits }
      else none
  | .woken now signal =>
      match s.paced.place with
      | .asleep wake =>
          if s.paced.loop.phase = .wait ∧ s.clock ≤ now ∧ (signal = true ∨ wake ≤ now) then
            some { s with
              paced := s.paced.leave false false
              clock := now
              cut := if signal then s.cut + 1 else s.cut }
          else none
      | _ => none
  | .polled now r =>
      match s.paced.place with
      | .polling wake =>
          if s.paced.loop.phase = .wait ∧ s.clock ≤ now ∧ (r = .timeout → wake ≤ now) then
            some { s with
              paced := s.paced.polled r
              clock := now
              cut := if r = .signal then s.cut + 1 else s.cut
              fed := match r with | .data _ _ => s.fed + 1 | _ => s.fed
              again := if r = .again then s.again + 1 else s.again }
          else none
      | _ => none

end PaceSys

end Heapviz
