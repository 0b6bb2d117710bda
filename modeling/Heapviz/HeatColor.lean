import Heapviz.HeatMap

/-!
# Heat

`tui/heat_color.cpp`: the colour of a cell as a function of its aggregate
and the clock. Four windows decide the stage a cell is in; the colours of
the flash and of a settled cell without payload are palette colours, the
others come out of Oklab arithmetic.

That arithmetic is a parameter. A ratio of two millisecond counts enters
it as the pair, since nothing here depends on what is computed from it.
-/

namespace Heapviz

/-! ## Windows -/

structure HeatTimings where
  mallocPulseMs : Nat
  mallocFadeMs : Nat
  freeFlashMs : Nat
  freeFadeMs : Nat
deriving Repr, DecidableEq

def kDefaultTimings : HeatTimings := ⟨200, 800, 300, 2000⟩

/-- How long an allocation shows. -/
def HeatTimings.allocSpan (t : HeatTimings) : Nat := add32 t.mallocPulseMs t.mallocFadeMs

/-- How long a free shows. -/
def HeatTimings.freeSpan (t : HeatTimings) : Nat := add32 t.freeFlashMs t.freeFadeMs

/-- `age_of`: a stamp from the future wraps to an age past every window. -/
def ageOf (stamp now none : Nat) : Nat := if stamp = kNoTime then none else sub32 now stamp

def cellAnimating (a : CellAggregate) (t : HeatTimings) (nowMs : Nat) : Bool :=
  ageOf a.lastAllocMs nowMs kNoTime < t.allocSpan ||
    ageOf a.lastFreeMs nowMs kNoTime < t.freeSpan

/-! ## The ramp -/

structure HeatPalette where
  fresh : Nat
  freed : Nat
  settled : Nat
  overhead : Nat
  empty : Nat
deriving Repr, DecidableEq

/-- `kDefaultPalette`: the dark theme's `malloc`, `freed`, `active`, `overhead`
and `unalloc`. -/
def kDefaultPalette : HeatPalette := ⟨0x4EC94E, 0xE01B24, 0x3584E4, 0xF6D32D, 0x2A2A2A⟩

/-- The arithmetic of the ramp. `pulsed` is the pulse of a colour at a ratio,
`densityStep` the quantised ratio of live bytes to the cell's size, and
`stepped` a colour dimmed to a step. -/
structure Oklab (Lab : Type) where
  srgbToOklab : Nat → Lab
  oklabToSrgb : Lab → Nat
  lerp : Lab → Lab → Nat × Nat → Lab
  pulsed : Lab → Nat × Nat → Lab
  densityStep : Nat → Nat → Nat
  stepped : Lab → Nat → Lab

structure HeatRamp (Lab : Type) where
  lab : Oklab Lab
  srgb : HeatPalette
  timings : HeatTimings

namespace HeatRamp

variable {Lab : Type}

def labForStep (r : HeatRamp Lab) (step : Nat) : Lab :=
  r.lab.stepped (r.lab.srgbToOklab r.srgb.settled) step

def settledLab (r : HeatRamp Lab) (a : CellAggregate) (cellBytes : Nat) : Lab :=
  if a.nLive = 0 then
    if a.overheadBytes > 0 then r.lab.srgbToOklab r.srgb.overhead
    else r.lab.srgbToOklab r.srgb.empty
  else r.labForStep (r.lab.densityStep a.liveBytes cellBytes)

/-- The colour a cell settles at; for a live one an entry of `settled_lut_`. -/
def settled (r : HeatRamp Lab) (a : CellAggregate) (cellBytes : Nat) : Nat :=
  if a.nLive = 0 then if a.overheadBytes > 0 then r.srgb.overhead else r.srgb.empty
  else r.lab.oklabToSrgb (r.labForStep (r.lab.densityStep a.liveBytes cellBytes))

/-- The colour the cell would have without the free. -/
def afterAlloc (r : HeatRamp Lab) (a : CellAggregate) (cellBytes allocAge : Nat) : Lab :=
  let base := r.settledLab a cellBytes
  if allocAge < r.timings.mallocPulseMs then
    r.lab.pulsed (r.lab.srgbToOklab r.srgb.fresh) (allocAge, r.timings.mallocPulseMs)
  else if allocAge < r.timings.allocSpan ∧ r.timings.mallocFadeMs > 0 then
    r.lab.lerp (r.lab.srgbToOklab r.srgb.fresh) base
      (sub32 allocAge r.timings.mallocPulseMs, r.timings.mallocFadeMs)
  else base

def color (r : HeatRamp Lab) (a : CellAggregate) (cellBytes nowMs : Nat) : Nat :=
  let freeAge := ageOf a.lastFreeMs nowMs r.timings.freeSpan
  if freeAge < r.timings.freeFlashMs then r.srgb.freed
  else
    let allocAge := ageOf a.lastAllocMs nowMs r.timings.allocSpan
    if allocAge ≥ r.timings.allocSpan ∧ freeAge ≥ r.timings.freeSpan then r.settled a cellBytes
    else if freeAge < r.timings.freeSpan ∧ r.timings.freeFadeMs > 0 then
      r.lab.oklabToSrgb (r.lab.lerp (r.lab.srgbToOklab r.srgb.freed)
        (r.afterAlloc a cellBytes allocAge)
        (sub32 freeAge r.timings.freeFlashMs, r.timings.freeFadeMs))
    else r.lab.oklabToSrgb (r.afterAlloc a cellBytes allocAge)

end HeatRamp

/-! ## Settled cells -/

theorem cellAnimating_eq_false {a : CellAggregate} {t : HeatTimings} {nowMs : Nat} :
    cellAnimating a t nowMs = false ↔
      t.allocSpan ≤ ageOf a.lastAllocMs nowMs kNoTime ∧
        t.freeSpan ≤ ageOf a.lastFreeMs nowMs kNoTime := by
  simp [cellAnimating]

theorem le_ageOf_span {stamp now span none : Nat} (h : span ≤ ageOf stamp now none) :
    span ≤ ageOf stamp now span := by
  unfold ageOf at h ⊢
  split_ifs with hstamp
  · exact le_refl _
  · rwa [if_neg hstamp] at h

/-- A cell that is not animating has the colour it settles at, provided the
flash is no longer than its own window. -/
theorem HeatRamp.color_of_settled {Lab : Type} {r : HeatRamp Lab} {a : CellAggregate}
    {cellBytes nowMs : Nat} (hflash : r.timings.freeFlashMs ≤ r.timings.freeSpan)
    (h : cellAnimating a r.timings nowMs = false) :
    r.color a cellBytes nowMs = r.settled a cellBytes := by
  obtain ⟨halloc, hfree⟩ := cellAnimating_eq_false.mp h
  have hfree' := le_ageOf_span hfree
  unfold HeatRamp.color
  dsimp only
  rw [if_neg (not_lt.mpr (hflash.trans hfree')), if_pos ⟨le_ageOf_span halloc, hfree'⟩]

end Heapviz
