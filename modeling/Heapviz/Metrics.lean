import Heapviz.Panels

/-!
# The metrics panel

`tui/metrics.cpp`: what the panel keeps of its own - the running total, the peak
and when it was reached - and how it is drawn. The live figures are handed to it
once a frame.

`sample` reports whether a redraw would put different characters on the screen,
and a frame that changes nothing is not drawn. What the drawing looks at is
`Metrics.Looks`: two panels that look alike draw alike (`draw_congr`), and a
sample that reports no change leaves the looks as they were (`sample_looks`). The
ring's depth is not among them, only the percentage it comes to.

- `draw_keeps`: the panel keeps to its area.
-/

namespace Heapviz

/-! ## Figures -/

def kMetricsMinCols : Int := 28

def kMetricsWideCols : Int := 44

def kRingWarnPct : Nat := 50

def kRingBadPct : Nat := 80

def kFragMedPct : Int := 15

def kFragHighPct : Int := 40

inductive FragBadge where
  | unknown
  | low
  | med
  | high
deriving Repr, DecidableEq

/-- `frag_badge`. -/
def fragBadge (pct : Int) : FragBadge :=
  if pct < 0 then .unknown
  else if pct < kFragMedPct then .low
  else if pct < kFragHighPct then .med
  else .high

/-- `frag_badge_str`. -/
def fragBadgeStr : FragBadge → List Nat
  | .unknown => []
  | .low => lit "[Low]".toList
  | .med => lit "[Med]".toList
  | .high => lit "[High]".toList

inductive Pressure where
  | calm
  | warn
  | bad
deriving Repr, DecidableEq

/-- `ring_percent`: a ring that is not empty never shows as 0%. -/
def ringPercent (queued capacity : Nat) : Nat :=
  if capacity = 0 ∨ queued = 0 then 0
  else if queued ≥ capacity then 100
  else
    let pct := queued * 100 % 2 ^ 64 / capacity
    if pct = 0 then 1 else pct

/-- `ring_pressure`. -/
def ringPressure (queued capacity : Nat) : Pressure :=
  let pct := ringPercent queued capacity
  if pct ≥ kRingBadPct then .bad else if pct ≥ kRingWarnPct then .warn else .calm

/-! ## The panel's state -/

structure MetricsSample where
  liveChunks : Nat
  liveBytes : Nat
  ringQueued : Nat
  ringCapacity : Nat
  dropped : Nat
  nowMs : Nat
deriving Repr, DecidableEq

structure MetricsStyle where
  ink : Nat
  dim : Nat
  accent : Nat
  frame : Nat
  good : Nat
  warn : Nat
  bad : Nat
  bg : Nat
deriving Repr, DecidableEq

/-- The defaults, tokens of the dark theme. -/
def MetricsStyle.default : MetricsStyle :=
  ⟨0xD8D8D8, 0x7A7A7A, 0xF5A623, 0xC87828, 0x7FE08A, 0xF5A623, 0xF36A72, 0x0C0C0C⟩

structure Metrics where
  style : MetricsStyle
  live : MetricsSample
  totalBytes : Nat
  totalAllocs : Nat
  peakBytes : Nat
  peakMs : Nat
  largestGap : Nat
  gapKnown : Bool
  cumulativeKnown : Bool
  fragPct : Int
deriving Repr, DecidableEq

def kUint64Max : Nat := 2 ^ 64 - 1

namespace Metrics

def init (style : MetricsStyle) : Metrics :=
  ⟨style, ⟨0, 0, 0, 0, 0, 0⟩, 0, 0, 0, 0, 0, false, true, -1⟩

/-- `on_alloc`, which saturates. -/
def onAlloc (m : Metrics) (usable : Nat) : Metrics :=
  { m with
    totalBytes :=
      if m.totalBytes > kUint64Max - usable then kUint64Max else m.totalBytes + usable
    totalAllocs := if m.totalAllocs ≠ kUint64Max then m.totalAllocs + 1 else m.totalAllocs }

/-- `reset`: the live set becomes the new peak. -/
def reset (m : Metrics) (baseline : MetricsSample) : Metrics :=
  { m with
    live := baseline
    totalBytes := 0
    totalAllocs := 0
    peakBytes := baseline.liveBytes
    peakMs := baseline.nowMs }

/-- `sample`, with what it returns. -/
def sample (m : Metrics) (s : MetricsSample) : Metrics × Bool :=
  let higher : Bool := s.liveBytes > m.peakBytes
  let counts : Bool := s.liveChunks ≠ m.live.liveChunks ∨ s.liveBytes ≠ m.live.liveBytes ∨
    s.dropped ≠ m.live.dropped ∨ s.ringCapacity ≠ m.live.ringCapacity
  let depth : Bool := ringPercent s.ringQueued s.ringCapacity ≠
    ringPercent m.live.ringQueued m.live.ringCapacity
  ({ m with
      live := s
      peakBytes := if higher then s.liveBytes else m.peakBytes
      peakMs := if higher then s.nowMs else m.peakMs },
    higher || counts || depth)

def setFragmentation (m : Metrics) (pct : Int) : Metrics := { m with fragPct := pct }

def setLargestGap (m : Metrics) (bytes : Nat) (known : Bool) : Metrics :=
  { m with largestGap := bytes, gapKnown := known }

def ringPct (m : Metrics) : Nat := ringPercent m.live.ringQueued m.live.ringCapacity

def pressure (m : Metrics) : Pressure := ringPressure m.live.ringQueued m.live.ringCapacity

/-! ## Drawing -/

/-- Where the values start. -/
def kValueCol : Int := 14

/-- A row of the panel. -/
def field (style : MetricsStyle) : Rect → Int → List Nat → List Nat → Nat → Bool → Framebuffer →
    Framebuffer :=
  panelField style.dim style.bg kValueCol

def wide (area : Rect) : Bool := area.w ≥ kMetricsWideCols

/-- The row for the total, which snapshot mode cannot know. -/
def drawAllocated (m : Metrics) (area : Rect) (fb : Framebuffer) : Framebuffer :=
  if m.cumulativeKnown = false then
    field m.style area 1 (lit "Allocated".toList) (lit "not observable".toList) m.style.dim false fb
  else
    let human := formatByteSize m.totalBytes
    let line :=
      if wide area then
        human ++ lit " (".toList ++ formatCount 48 m.totalBytes ++ lit " B)".toList
      else human
    field m.style area 1 (lit "Allocated".toList) (snprintf 192 line) m.style.ink true fb

def drawActive (m : Metrics) (area : Rect) (fb : Framebuffer) : Framebuffer :=
  let line := formatCount 48 m.live.liveChunks ++ lit " chunks / ".toList ++
    formatByteSize m.live.liveBytes
  field m.style area 2 (lit "Active".toList) (snprintf 192 line) m.style.ink true fb

def drawPeak (m : Metrics) (area : Rect) (fb : Framebuffer) : Framebuffer :=
  let human := formatByteSize m.peakBytes
  let line :=
    if wide area = true ∧ m.peakBytes > m.live.liveBytes then
      human ++ lit " (now -".toList ++ formatByteSize (m.peakBytes - m.live.liveBytes) ++
        lit ")".toList
    else human
  field m.style area 3 (lit "Peak".toList) (snprintf 192 line) m.style.ink true fb

/-- The largest hole, on the row of the percentage where both fit. -/
def drawHole (m : Metrics) (area : Rect) (fragLen : Int) (fb : Framebuffer) : Framebuffer :=
  if m.gapKnown = true then
    let hole := snprintf 64
      (lit "max hole ".toList ++ formatByteSize m.largestGap ++ lit " ".toList)
    if kValueCol + fragLen + 2 + hole.length ≤ area.w then
      (panelTextRight fb area 4 hole m.style.dim m.style.bg 0).1
    else fb
  else fb

def drawFragmented (m : Metrics) (area : Rect) (fb : Framebuffer) : Framebuffer :=
  let badge := fragBadge m.fragPct
  if badge = .unknown then
    field m.style area 4 (lit "Fragmented".toList) (lit "--".toList) m.style.dim false fb
  else
    let colour :=
      if badge = .high then m.style.bad else if badge = .med then m.style.warn else m.style.good
    let line := snprintf 192
      (formatDec m.fragPct.toNat ++ lit "%  ".toList ++ fragBadgeStr badge)
    let fb := (panelText fb area 2 4 (lit "Fragmented".toList) m.style.dim m.style.bg 0).1
    let fb := (panelText fb area kValueCol 4 line colour m.style.bg 0).1
    m.drawHole area line.length fb

/-- A text behind the label: the first if it is wanted, else the second. -/
def drawEither (m : Metrics) (area : Rect) (first : Bool) (a b : List Nat × Nat × Nat)
    (fb : Framebuffer) : Framebuffer :=
  if first = true then (panelText fb area kValueCol 5 a.1 a.2.1 m.style.bg a.2.2).1
  else (panelText fb area kValueCol 5 b.1 b.2.1 m.style.bg b.2.2).1

/-- The ring's row: its depth and the drops where both fit, else the drops if there
are any. -/
def drawRing (m : Metrics) (area : Rect) (fb : Framebuffer) : Framebuffer :=
  if m.live.ringCapacity = 0 then
    let fb := (panelText fb area 2 5 (lit "Sampling".toList) m.style.dim m.style.bg 0).1
    (panelText fb area kValueCol 5 (lit "read from target, no event stream".toList) m.style.dim
      m.style.bg 0).1
  else
    let ringColour :=
      match m.pressure with
      | .calm => m.style.good
      | .warn => m.style.warn
      | .bad => m.style.bad
    let percent := formatDec m.ringPct ++ lit "%".toList
    let line := snprintf 192
      (if wide area then percent ++ lit " of ".toList ++ formatCount 48 m.live.ringCapacity
        else percent)
    let quiet : Bool := m.live.dropped = 0
    let drops := snprintf 80
      (if quiet then lit "0 dropped".toList
        else lit " ".toList ++ formatCount 48 m.live.dropped ++ lit " DROPPED ".toList)
    let dropColour := if quiet then m.style.dim else m.style.bad
    let dropAttrs := if quiet then 0 else kAttrBold
    if kValueCol + line.length + 2 + drops.length ≤ area.w then
      let fb := (panelText fb area kValueCol 5 line ringColour m.style.bg 0).1
      let fb := (panelTextRight fb area 5 drops dropColour m.style.bg dropAttrs).1
      (panelText fb area 2 5 (lit "Ring".toList) m.style.dim m.style.bg 0).1
    else
      let fb := (panelText fb area 2 5 (lit "Ring".toList) m.style.dim m.style.bg 0).1
      m.drawEither area (!quiet) (drops, dropColour, dropAttrs) (line, ringColour, 0) fb

/-- `Metrics::draw`. -/
def draw (m : Metrics) (area : Rect) (fb : Framebuffer) : Framebuffer :=
  if area.w < kMetricsMinCols ∨ area.h ≤ 0 then fb
  else
    let fb := panelRule fb area (lit " TELEMETRY METRICS ".toList) m.style.frame m.style.accent
      m.style.bg
    m.drawRing area (m.drawFragmented area (m.drawPeak area (m.drawActive area
      (m.drawAllocated area fb))))

/-! ## What the drawing looks at -/

/-- The two panels show the same figures in the same style. Of the ring's depth only
the percentage is shown, and of the clock nothing. -/
structure Looks (m m' : Metrics) : Prop where
  style : m'.style = m.style
  liveChunks : m'.live.liveChunks = m.live.liveChunks
  liveBytes : m'.live.liveBytes = m.live.liveBytes
  ringCapacity : m'.live.ringCapacity = m.live.ringCapacity
  dropped : m'.live.dropped = m.live.dropped
  ringPct : m'.ringPct = m.ringPct
  totalBytes : m'.totalBytes = m.totalBytes
  peakBytes : m'.peakBytes = m.peakBytes
  largestGap : m'.largestGap = m.largestGap
  gapKnown : m'.gapKnown = m.gapKnown
  cumulativeKnown : m'.cumulativeKnown = m.cumulativeKnown
  fragPct : m'.fragPct = m.fragPct

section Looks

variable {m m' m'' : Metrics}

theorem Looks.refl (m : Metrics) : m.Looks m :=
  ⟨rfl, rfl, rfl, rfl, rfl, rfl, rfl, rfl, rfl, rfl, rfl, rfl⟩

theorem Looks.trans (h : m.Looks m') (h' : m'.Looks m'') : m.Looks m'' where
  style := h'.style.trans h.style
  liveChunks := h'.liveChunks.trans h.liveChunks
  liveBytes := h'.liveBytes.trans h.liveBytes
  ringCapacity := h'.ringCapacity.trans h.ringCapacity
  dropped := h'.dropped.trans h.dropped
  ringPct := h'.ringPct.trans h.ringPct
  totalBytes := h'.totalBytes.trans h.totalBytes
  peakBytes := h'.peakBytes.trans h.peakBytes
  largestGap := h'.largestGap.trans h.largestGap
  gapKnown := h'.gapKnown.trans h.gapKnown
  cumulativeKnown := h'.cumulativeKnown.trans h.cumulativeKnown
  fragPct := h'.fragPct.trans h.fragPct

theorem Looks.pressure (h : m.Looks m') : m'.pressure = m.pressure := by
  have hpct : ringPercent m'.live.ringQueued m'.live.ringCapacity =
      ringPercent m.live.ringQueued m.live.ringCapacity := h.ringPct
  rw [Metrics.pressure, Metrics.pressure, ringPressure, ringPressure, hpct]

/-- Panels that look alike draw alike. -/
theorem draw_congr (h : m.Looks m') (area : Rect) (fb : Framebuffer) :
    m'.draw area fb = m.draw area fb := by
  unfold draw drawRing drawEither drawFragmented drawHole drawPeak drawActive drawAllocated
  simp only [h.style, h.liveChunks, h.liveBytes, h.ringCapacity, h.dropped, h.ringPct,
    h.totalBytes, h.peakBytes, h.largestGap, h.gapKnown, h.cumulativeKnown, h.fragPct, h.pressure]

/-- A sample that reports no change leaves the looks as they were. -/
theorem sample_looks {s : MetricsSample} (h : (m.sample s).2 = false) :
    m.Looks (m.sample s).1 := by
  unfold sample at h ⊢
  simp only [Bool.or_eq_false_iff, decide_eq_false_iff_not, not_or, ne_eq, not_not] at h
  obtain ⟨⟨hpeak, hchunks, hbytes, hdropped, hcapacity⟩, hdepth⟩ := h
  refine ⟨rfl, hchunks, hbytes, hcapacity, hdropped, hdepth, rfl, ?_, rfl, rfl, rfl, rfl⟩
  simp only [decide_eq_true_eq, if_neg hpeak]

end Looks

/-! ## The panel keeps to its area -/

section Keeps

variable {base : Framebuffer} {area : Rect} (m : Metrics)

theorem drawAllocated_keeps : base.Keeps (m.drawAllocated area) area.Has :=
  .ite (fun _ => panelField_keeps _ _ _ _ _ _ _ _) fun _ => panelField_keeps _ _ _ _ _ _ _ _

theorem drawHole_keeps (fragLen : Int) : base.Keeps (m.drawHole area fragLen) area.Has :=
  .when fun _ => .when fun _ => panelTextRight_keeps _ _ _ _ _

theorem drawFragmented_keeps : base.Keeps (m.drawFragmented area) area.Has :=
  .ite (fun _ => panelField_keeps _ _ _ _ _ _ _ _) fun _ =>
    .comp (g := fun fb => m.drawHole area _ (panelText fb area kValueCol 4 _ _ _ 0).1)
      (panelText_keeps _ _ _ _ _ _)
      (.comp (g := m.drawHole area _) (panelText_keeps _ _ _ _ _ _) (m.drawHole_keeps _))

theorem drawEither_keeps (first : Bool) (a b : List Nat × Nat × Nat) :
    base.Keeps (m.drawEither area first a b) area.Has :=
  .ite (fun _ => panelText_keeps _ _ _ _ _ _) fun _ => panelText_keeps _ _ _ _ _ _

theorem drawRing_keeps : base.Keeps (m.drawRing area) area.Has :=
  .ite (fun _ => .comp (panelText_keeps _ _ _ _ _ _) (panelText_keeps _ _ _ _ _ _)) fun _ =>
    .ite
      (fun _ => .comp (panelText_keeps _ _ _ _ _ _)
        (.comp (panelTextRight_keeps _ _ _ _ _) (panelText_keeps _ _ _ _ _ _)))
      fun _ => .comp (panelText_keeps _ _ _ _ _ _) (m.drawEither_keeps _ _ _)

theorem draw_keeps (hr : area.Fits) : base.Keeps (m.draw area) area.Has :=
  .ite (fun _ => .skip) fun _ => .comp (panelRule_keeps hr _ _ _ _) <|
    .comp m.drawAllocated_keeps <| .comp (panelField_keeps _ _ _ _ _ _ _ _) <|
    .comp (panelField_keeps _ _ _ _ _ _ _ _) <| .comp m.drawFragmented_keeps m.drawRing_keeps

end Keeps

end Metrics

end Heapviz
