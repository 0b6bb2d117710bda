import Heapviz.Renderer

/-!
# The event loop

`EventLoop::run` (`tui/event_loop.cpp`): one iteration looks for a resize
request, drains, updates, and draws if any of these, a key or an animation
has made the frame dirty. The loop is cut at the points where something
outside of it can be seen or can act: the request flag, the size of the
terminal, the bytes written, the wait.

The functions here are the loop's own code from one such point to the next.
What the application answers (`drain`, `update`, `key`, `animating`,
`take_stats_reset`) and what it paints are arguments. Of the statistics only
`frames` decides anything; the clock decides how long the loop waits, and
nothing else.
-/

namespace Heapviz

inductive LoopExit where
  | quit
  | frameLimit
  | tooSmall
  | writeFailed
  | resizeFailed
deriving Repr, DecidableEq

/-- What `LoopConfig` holds that decides anything. -/
structure LoopConfig where
  color : ColorMode
  minWidth : Int
  minHeight : Int
  maxFrames : Nat
deriving Repr, DecidableEq

/-- The defaults. -/
def LoopConfig.default : LoopConfig := ⟨.trueColor, 20, 6, 0⟩

/-- Where the loop stands: at the top of the iteration, before the flag is
taken, before the terminal is measured, before the drain, with bytes of the
frame still to be written, waiting out the frame, or outside. -/
inductive Phase where
  | top
  | look
  | measure
  | work
  | flush (rest : List Nat)
  | wait
  | exited (why : LoopExit)
deriving Repr, DecidableEq

structure EventLoop where
  fb : Framebuffer
  r : Renderer
  frames : Nat
  dirty : Bool
  fullRepaint : Bool
  phase : Phase

/-- One call that paints a cell of the back buffer. Every drawing call of the
framebuffer comes down to a list of them. -/
structure Put where
  x : Int
  y : Int
  cell : Cell

def Framebuffer.paint (fb : Framebuffer) (puts : List Put) : Framebuffer :=
  puts.foldl (fun fb p => fb.put p.x p.y p.cell) fb

namespace EventLoop

/-- The loop as `run` starts it; the buffer may have been sized before. -/
def start (cfg : LoopConfig) (fb : Framebuffer) : EventLoop :=
  ⟨fb, Renderer.init.setColorMode cfg.color, 0, true, true, .top⟩

/-- The top of an iteration, to where the request flag is taken. -/
def begin (cfg : LoopConfig) (quit reset : Bool) (l : EventLoop) : EventLoop :=
  if quit then { l with phase := .exited .quit }
  else
    let l := if reset then { l with frames := 0, dirty := true } else l
    if cfg.maxFrames ≠ 0 ∧ l.frames ≥ cfg.maxFrames then { l with phase := .exited .frameLimit }
    else { l with frames := l.frames + 1, phase := .look }

/-- What the loop does with a request: the size it goes on with is the one
measured, else the one it has, else 80 by 24. -/
def sized (cfg : LoopConfig) (measured : Option (Int × Int)) (l : EventLoop) : EventLoop :=
  let size : Int × Int := measured.getD
    (if l.fb.isEmpty then (80, 24) else ((l.fb.w : Int), (l.fb.h : Int)))
  if size.1 < cfg.minWidth ∨ size.2 < cfg.minHeight then { l with phase := .exited .tooSmall }
  else if size.1 ≠ l.fb.w ∨ size.2 ≠ l.fb.h then
    match l.fb.resize size.1 size.2 with
    | (fb, true) => { l with fb := fb, fullRepaint := true, dirty := true, phase := .work }
    | (_, false) => { l with phase := .exited .resizeFailed }
  else { l with phase := .work }

/-- What `drain`, `update` and `animating` make of the dirty flag. -/
def mark (n : Nat) (updated animating : Bool) (l : EventLoop) : EventLoop :=
  { l with dirty := l.dirty || n != 0 || updated || animating }

/-- Draw and diff, or skip both; the bytes that come out of it are to be
written. -/
def draw (puts : List Put) (l : EventLoop) : EventLoop :=
  if l.dirty then
    let fb := l.fb.paint puts
    let r := (l.r.render fb l.fullRepaint).1
    { l with fb := fb, r := r, phase := .flush r.out }
  else { l with phase := .wait }

/-- What follows the last byte. -/
def drawn (l : EventLoop) : EventLoop :=
  { l with fb := l.fb.swap emptyCell, dirty := false, fullRepaint := false, phase := .wait }

/-- The wait, whose keys may have changed the model. -/
def waited (quit key : Bool) (l : EventLoop) : EventLoop :=
  { l with dirty := l.dirty || key, phase := if quit then .exited .quit else .top }

end EventLoop

/-! ## What each part does -/

/-- What the top of an iteration leaves as it is. -/
theorem EventLoop.begin_cases (cfg : LoopConfig) (quit reset : Bool) (l : EventLoop) :
    ∃ frames dirty phase, l.begin cfg quit reset =
        { l with frames := frames, dirty := dirty, phase := phase } ∧
      (phase = .look ∨ ∃ why, phase = .exited why) := by
  unfold EventLoop.begin
  cases quit with
  | true => exact ⟨l.frames, l.dirty, _, rfl, .inr ⟨.quit, rfl⟩⟩
  | false =>
      cases reset with
      | false =>
          simp only [Bool.false_eq_true, if_false]
          split_ifs
          · exact ⟨l.frames, l.dirty, _, rfl, .inr ⟨.frameLimit, rfl⟩⟩
          · exact ⟨l.frames + 1, l.dirty, _, rfl, .inl rfl⟩
      | true =>
          simp only [Bool.false_eq_true, if_false, if_true]
          split_ifs
          · exact ⟨0, true, _, rfl, .inr ⟨.frameLimit, rfl⟩⟩
          · exact ⟨1, true, _, rfl, .inl rfl⟩

/-- A frame that is skipped, and one whose bytes are to be written. -/
theorem EventLoop.draw_cases (l : EventLoop) (puts : List Put) :
    l.draw puts = { l with phase := .wait } ∨
      l.draw puts = { l with
        fb := l.fb.paint puts
        r := (l.r.render (l.fb.paint puts) l.fullRepaint).1
        phase := .flush (l.r.render (l.fb.paint puts) l.fullRepaint).1.out } := by
  unfold EventLoop.draw
  split_ifs
  · exact .inr rfl
  · exact .inl rfl

/-! ## Sizes -/

section Sizes

variable (fb : Framebuffer)

theorem Framebuffer.put_size (x y : Int) (c : Cell) :
    (fb.put x y c).w = fb.w ∧ (fb.put x y c).h = fb.h := by
  unfold Framebuffer.put
  split <;> exact ⟨rfl, rfl⟩

theorem Framebuffer.paint_size (puts : List Put) :
    (fb.paint puts).w = fb.w ∧ (fb.paint puts).h = fb.h := by
  induction puts generalizing fb with
  | nil => exact ⟨rfl, rfl⟩
  | cons p puts ih =>
      obtain ⟨hw, hh⟩ := ih (fb.put p.x p.y p.cell)
      obtain ⟨hw', hh'⟩ := fb.put_size p.x p.y p.cell
      exact ⟨hw.trans hw', hh.trans hh'⟩

/-- Painting is seen in the back buffer alone. -/
theorem Framebuffer.paint_atFront (puts : List Put) : (fb.paint puts).atFront = fb.atFront := by
  induction puts generalizing fb with
  | nil => rfl
  | cons p puts ih => exact (ih (fb.put p.x p.y p.cell)).trans (fb.put_atFront p.x p.y p.cell)

theorem Framebuffer.isEmpty_congr {fb fb' : Framebuffer} (hw : fb'.w = fb.w) (hh : fb'.h = fb.h) :
    fb'.isEmpty = fb.isEmpty := by
  unfold Framebuffer.isEmpty
  rw [hw, hh]

/-- A size that `resize` accepts is the buffer's afterwards. -/
theorem Framebuffer.resize_size {fb fb' : Framebuffer} {w h : Nat}
    (hresize : fb.resize w h = (fb', true)) : fb'.w = w ∧ fb'.h = h ∧ fb'.isEmpty = false := by
  unfold Framebuffer.resize at hresize
  by_cases hpos : (w : Int) ≤ 0 ∨ (h : Int) ≤ 0
  · rw [if_pos hpos] at hresize
    cases hresize
  rw [if_neg hpos] at hresize
  by_cases hcells : (w : Int).toNat * (h : Int).toNat ≤ kMaxCells
  · rw [dif_pos hcells] at hresize
    obtain ⟨rfl, -⟩ := Prod.mk.inj hresize
    refine ⟨Int.toNat_natCast w, Int.toNat_natCast h, Framebuffer.isEmpty_eq_false.mpr ⟨?_, ?_⟩⟩
    · show 0 < (w : Int).toNat
      omega
    · show 0 < (h : Int).toNat
      omega
  · rw [dif_neg hcells] at hresize
    cases hresize

end Sizes

end Heapviz
