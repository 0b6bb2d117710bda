import Heapviz.HeapWalker
import Heapviz.InspectorPanel
import Heapviz.LeakDiff
import Heapviz.Layout
import Heapviz.MapArea
import Heapviz.Metrics

/-!
# A frame

`HeapApp::draw` (`tui/heap_app.cpp`) with all it puts on the screen: the three
header rows, the map with its two overlays, the two lower panels, the footer and
the help over all of them.

The parts are drawn one after the other on the one buffer, and each clips as it
sees fit. That they do not meet is what `frame_composed` is about: a cell of a
frame is what the one layer it belongs to draws there. The layers keep to parts
of their own (`layer_keeps`), which the layout puts apart (`layers_apart`). Only a screen of
less than four rows has its footer in a row that a header line is drawn in, and
there the help covers it too.

The frame rate is a `double` printed as a whole number; the digits are a parameter.
-/

namespace Heapviz

/-! ## The theme -/

/-- `Theme`, as far as a frame needs it. -/
structure Theme where
  frame : Nat
  title : Nat
  accent : Nat
  active : Nat
  cursor : Nat
  text : Nat
  dim : Nat
  bg : Nat
  dangerText : Nat
  leak : Nat
deriving Repr, DecidableEq

/-- `dark_theme`. -/
def darkTheme : Theme :=
  ⟨0xC87828, 0x7FE08A, 0xF5A623, 0x3584E4, 0x33D7E8, 0xD8D8D8, 0x7A7A7A, 0x0C0C0C, 0xF36A72,
    0xE57BFF⟩

/-- The styles the constructor hands out. -/
def Theme.mapStyle (t : Theme) : MapStyle := ⟨t.text, t.dim, t.accent, t.bg, t.cursor, t.leak⟩

def Theme.inspectorStyle (t : Theme) : InspectorStyle :=
  ⟨t.text, t.dim, t.accent, t.frame, t.active, t.dangerText, t.bg⟩

def Theme.metricsStyle (t : Theme) : MetricsStyle :=
  ⟨t.text, t.dim, t.accent, t.frame, t.title, t.accent, t.dangerText, t.bg⟩

/-- The panels' own defaults are the dark theme's. -/
theorem darkTheme_styles :
    darkTheme.mapStyle = MapStyle.default ∧ darkTheme.inspectorStyle = InspectorStyle.default ∧
      darkTheme.metricsStyle = MetricsStyle.default := ⟨rfl, rfl, rfl⟩

/-! ## What a frame is drawn from -/

/-- `HeapApp` with the members that only drawing needs; `app` has the others. -/
structure DrawnApp (Lab : Type) where
  app : HeapApp
  theme : Theme
  view : MapPainter Lab
  cursor : MapCursor
  inspect : InspectorPanel
  metrics : Metrics
  snap : SnapshotDiff
  screen : ScreenLayout
  pid : Nat
  comm : List Nat
  dropped : Nat
  droppedAtAttach : Nat
  snapshotMode : Bool
  walker : Option HeapWalker
  walk : WalkResult
  readerGone : Bool
  exitNote : List Nat

/-- `ChunkReader::hint`. -/
def readerHint (denied gone : Bool) : Option (List Nat) :=
  if denied then some (lit "ptrace denied: overhead unavailable".toList)
  else if gone then some (lit "target exited: chunk detail frozen".toList)
  else none

/-- `HeapWalker::hint`. -/
def HeapWalker.hint (walker : HeapWalker) : Option (List Nat) :=
  if walker.denied then
    some (lit "cannot read this process: raise ptrace_scope or grant cap_sys_ptrace".toList)
  else if walker.gone then some (lit "target exited: heap frozen".toList)
  else none

def kArenaLabelMax : Nat := 32

/-- `format_arena_label`: a label that does not fit is none. -/
def formatArenaLabel (n : Nat) (mainArena : Bool) (threadArenas : Nat) : List Nat :=
  let threads := formatDec threadArenas ++ lit " thread".toList ++
    (if threadArenas = 1 then [] else lit "s".toList)
  let label :=
    if mainArena = true ∧ threadArenas = 0 then lit "Main".toList
    else if mainArena = true then lit "Main + ".toList ++ threads
    else if threadArenas ≠ 0 then threads
    else lit "None".toList
  if label.length ≥ n then [] else label

/-- `clear` of the back buffer. -/
def Framebuffer.clear (fb : Framebuffer) (c : Cell) : Framebuffer :=
  { fb with back := .replicate _ c }

def Framebuffer.hline (fb : Framebuffer) (x y len : Int) (glyph fg bg attrs : Nat) : Framebuffer :=
  fb.fill ⟨x, y, len, 1⟩ ⟨glyph, fg, bg, attrs⟩

/-- A text that ends in column `w` of a row, if there is room for more than it. -/
def textEnding (fb : Framebuffer) (w y : Int) (line : List Nat) (fg bg attrs : Nat) :
    Framebuffer :=
  if w > line.length then (fb.text (w - line.length) y line fg bg attrs).1 else fb

namespace DrawnApp

variable {Lab : Type}

/-! ## The layers -/

def blank (a : DrawnApp Lab) : Cell := ⟨0x20, a.theme.text, a.theme.bg, 0⟩

def titleLine (a : DrawnApp Lab) : List Nat :=
  snprintf 256 <|
    lit " heapviz v0.1   [PID: ".toList ++ formatDec a.pid ++
      (if a.comm ≠ [] then lit " - ".toList ++ a.comm else []) ++ lit "]".toList ++
      (if a.snapshotMode then lit "   SNAPSHOT - sampled, no events".toList else [])

/-- The banner of the diff mode. -/
def diffLine (a : DrawnApp Lab) : List Nat :=
  let lr := a.snap.report
  let head := lit " [DIFF] ".toList ++ formatCount 24 lr.chunks ++ lit " chunks / ".toList ++
    formatByteSize lr.bytes ++ lit " leaked since ".toList ++ lit a.snap.takenAt
  snprintf 256 <|
    if lr.offmap ≠ 0 then
      head ++ lit " (".toList ++ formatCount 24 lr.offmap ++ lit " off map) ".toList
    else head ++ lit " ".toList

/-- Row 0: what is being watched. -/
def drawTitle (a : DrawnApp Lab) (w : Int) (fps : List Nat) (fb : Framebuffer) : Framebuffer :=
  let rate := snprintf 256 (fps ++ lit " fps ".toList)
  let fb := (fb.text 0 0 a.titleLine a.theme.title a.theme.bg kAttrBold).1
  let fb := textEnding fb w 0 rate a.theme.dim a.theme.bg 0
  if a.snap.diff = true then
    textEnding fb (w - rate.length) 0 a.diffLine a.theme.leak a.theme.bg kAttrBold
  else fb

def addressLine (a : DrawnApp Lab) : List Nat :=
  let arena := formatArenaLabel kArenaLabelMax a.app.scanner.mainArena a.app.scanner.threadArenas
  snprintf 256 <|
    if a.app.bounds.isEmpty then
      lit " Heap Address Range: (not yet known) | Active Arena: ".toList ++ arena
    else
      let lo := (a.app.regions.spans.head?.map Span.start).getD 0
      let hi := (a.app.regions.spans.getLast?.map Span.limit).getD 0
      lit " Heap Address Range: 0x".toList ++ formatHex 12 lo ++ lit " - 0x".toList ++
        formatHex 12 hi ++ lit " | Active Arena: ".toList ++ arena ++ lit " | ".toList ++
        formatByteSize a.app.regions.total ++ lit " mapped | 1 cell = ".toList ++
        formatByteSize a.app.grid.cellBytes

/-- Row 1: where the heap is. -/
def drawAddress (a : DrawnApp Lab) (w : Int) (fb : Framebuffer) : Framebuffer :=
  let fb := (fb.text 0 1 a.addressLine a.theme.text a.theme.bg 0).1
  if a.app.regions.spans.length > 1 then
    textEnding fb w 1 (snprintf 256 (lit " ".toList ++ formatDec a.app.regions.spans.length ++
      lit " regions packed ".toList)) a.theme.accent a.theme.bg 0
  else fb

def sectionName : List Nat := lit " SPATIAL HEAP MAP ".toList

/-- What has gone by in the ring since the session attached. -/
def lost (a : DrawnApp Lab) : Nat := sub64 a.dropped a.droppedAtAttach

/-- What is said about how the figures were come by, if anything. -/
def modelLine (a : DrawnApp Lab) : List Nat :=
  if a.snapshotMode then
    match a.walker.bind HeapWalker.hint with
    | some hint => snprintf 256 (lit " snapshot: ".toList ++ hint ++ lit " ".toList)
    | none => snprintf 256 (lit " snapshot: ".toList ++ formatByteSize a.walk.opaqueBytes ++
        lit " not readable".toList ++ (if a.walk.truncated then lit ", truncated".toList else []) ++
        lit " ".toList)
  else
    match readerHint a.app.readerDenied a.readerGone with
    | some why => snprintf 256 (lit " overhead: ".toList ++ why ++ lit " ".toList)
    | none =>
        if a.app.refined ≠ 0 then
          snprintf 256 (lit " overhead: ".toList ++ formatDec a.app.exactOverhead ++
            lit " B exact over ".toList ++ formatDec a.app.refined ++ lit " chunks ".toList)
        else []

/-- The rule of the map's section, where there is room for its name. -/
def drawRule (a : DrawnApp Lab) (w : Int) (fb : Framebuffer) : Framebuffer :=
  if w ≥ sectionName.length then
    let fb := fb.hline 0 2 w (if a.app.unicode then 0x2500 else 0x2D) a.theme.frame a.theme.bg 0
    (fb.text ((w - sectionName.length).tdiv 2) 2 sectionName a.theme.accent a.theme.bg
      kAttrBold).1
  else fb

/-- Row 2: the model, and what is wrong with it. -/
def drawSection (a : DrawnApp Lab) (w : Int) (fb : Framebuffer) : Framebuffer :=
  let fb := a.drawRule w fb
  if a.lost = 0 then
    if a.modelLine ≠ [] then textEnding fb w 2 a.modelLine a.theme.dim a.theme.bg 0 else fb
  else
    textEnding fb w 2 (snprintf 256 (lit " ".toList ++ formatDec a.lost ++
      lit " events DROPPED - display is incomplete ".toList)) a.theme.dangerText a.theme.bg
      kAttrBold

/-- The map, the leak candidates on it, and the cursor over both. -/
def drawMap (a : DrawnApp Lab) (fb : Framebuffer) : Framebuffer :=
  let area := a.screen.map
  let fb := a.view.draw fb area a.app.map a.app.translation a.app.nowMs
  let fb := a.view.drawLeaks fb area a.app.map a.snap
  a.view.drawCursor fb area a.app.map a.cursor

def drawInspector (a : DrawnApp Lab) (fb : Framebuffer) : Framebuffer :=
  if a.screen.inspector.h > 0 then
    a.inspect.draw a.screen.inspector a.app.grid a.cursor (some a.app.regions) a.app.nowMs fb
  else fb

def drawMetrics (a : DrawnApp Lab) (fb : Framebuffer) : Framebuffer :=
  if a.screen.metrics.w > 0 then a.metrics.draw a.screen.metrics fb else fb

/-- The note of a session that is neither paused nor has its help open. -/
def stateNote (a : DrawnApp Lab) : List Nat × Nat :=
  match a.app.state with
  | .live =>
      (snprintf 256 <| lit " ".toList ++ (if a.snap.diff then lit "DIFF ".toList else []) ++
        lit " q quit  ? help  Space pause  r reset".toList ++
        lit "  hjkl/HJKL move  g/G ends  n/N chunk  s snap".toList ++
        (if a.snap.taken then lit "  d diff  S drop".toList else []),
        if a.snap.diff then a.theme.leak else a.theme.dim)
  | .exited =>
      (snprintf 256 <|
        if a.exitNote ≠ [] then
          lit " TARGET EXITED: ".toList ++ a.exitNote ++ lit "   q quit".toList
        else
          lit " TARGET EXITED   q quit  ? help  r reset".toList ++
            lit "  hjkl/HJKL move  g/G ends  n/N chunk".toList,
        a.theme.accent)
  | .detached => (lit " NOT ATTACHED   q quit  ? help".toList, a.theme.dim)

/-- The footer's note and its colour. -/
def note (a : DrawnApp Lab) : List Nat × Nat :=
  if a.app.helpVisible then
    (if a.app.paused then lit " HELP   q quit   ? close   r reset   Space resume".toList
      else match a.app.state with
        | .live => lit " HELP   q quit   ? close   r reset   Space pause".toList
        | .exited => lit " HELP   q quit   ? close   r reset".toList
        | .detached => lit " HELP   q quit   ? close".toList,
      a.theme.title)
  else if a.app.paused then
    (snprintf 256 <| lit " PAUSED   q quit   ? help   Space resume   r reset   ".toList ++
      formatDec (a.app.staged.length - a.app.stagedHead) ++ lit " events staged".toList,
      a.theme.accent)
  else a.stateNote

def drawFooter (a : DrawnApp Lab) (h : Int) (fb : Framebuffer) : Framebuffer :=
  (fb.text 0 (h - 1) a.note.1 a.note.2 a.theme.bg 0).1

/-- Where the help goes. -/
def helpBox (w h : Int) : Rect :=
  let boxW := min 68 (max 4 (w - 4))
  let boxH := min 17 (max 3 (h - 4))
  ⟨(w - boxW).tdiv 2, (h - boxH).tdiv 2, boxW, boxH⟩

/-- The lines of the help, each with its colour and attributes. -/
def helpLines (a : DrawnApp Lab) : List (List Nat × Nat × Nat) :=
  let plain := ["", "q          quit", "?          close this help",
    "Space      pause / resume (live target)",
    "r          reset counters, peaks, drops, and frame stats", "",
    "h j k l    move cursor       H J K L    move x10", "g / G      first / last cell",
    "n / N      next / previous occupied cell", "Tab        cycle chunks in the selected cell",
    "", "s          take snapshot     d          toggle diff", "S          clear snapshot"]
  (lit "KEYBOARD HELP".toList, a.theme.title, kAttrBold) ::
    (plain.map fun line => (lit line.toList, a.theme.text, 0)) ++
    (if a.app.paused then
      [(lit "Display paused; ring events are still being drained.".toList, a.theme.accent, 0)]
    else [])

/-- `draw_help`. -/
def drawHelp (a : DrawnApp Lab) (w h : Int) (fb : Framebuffer) : Framebuffer :=
  let box := helpBox w h
  let fb := fb.fill box ⟨0x20, a.theme.text, a.theme.bg, 0⟩
  let fb := fb.box box (if a.app.unicode then .rounded else .ascii) a.theme.title a.theme.bg 0
  a.helpLines.zipIdx.foldl
    (fun fb line => (panelText fb box 2 (1 + (line.2 : Int)) line.1.1 line.1.2.1 a.theme.bg
      line.1.2.2).1) fb

/-- `HeapApp::draw`. -/
def draw (a : DrawnApp Lab) (fps : List Nat) (fb : Framebuffer) : Framebuffer :=
  let w : Int := fb.w
  let h : Int := fb.h
  let fb := fb.clear a.blank
  let fb := a.drawTitle w fps fb
  let fb := a.drawAddress w fb
  let fb := a.drawSection w fb
  let fb := a.drawMap fb
  let fb := a.drawInspector fb
  let fb := a.drawMetrics fb
  let fb := a.drawFooter h fb
  if a.app.helpVisible then a.drawHelp w h fb else fb

/-- The layer of a part of the screen. -/
def layer (a : DrawnApp Lab) (w h : Int) (fps : List Nat) :
    ScreenPart → Framebuffer → Framebuffer
  | .title => a.drawTitle w fps
  | .address => a.drawAddress w
  | .sectionRow => a.drawSection w
  | .map => a.drawMap
  | .inspector => a.drawInspector
  | .metrics => a.drawMetrics
  | .footer => a.drawFooter h

/-- Where the layer may draw: a header line anywhere in its row, whether or not
the layout has it. -/
def reach (a : DrawnApp Lab) (h : Int) : ScreenPart → Int → Int → Prop
  | .title => fun _ y => y = 0
  | .address => fun _ y => y = 1
  | .sectionRow => fun _ y => y = 2
  | .map => a.screen.map.Has
  | .inspector => a.screen.inspector.Has
  | .metrics => a.screen.metrics.Has
  | .footer => fun _ y => y = h - 1

/-! ## Each layer keeps to its part -/

section Keeps

variable {base : Framebuffer} (a : DrawnApp Lab)

theorem rowText_keeps (x row : Int) (s : List Nat) (fg bg attrs : Nat) :
    base.Keeps (fun fb => (fb.text x row s fg bg attrs).1) fun _ y => y = row :=
  .text _ _ _ _ _ _ fun _ _ => rfl

theorem textEnding_keeps (w row : Int) (s : List Nat) (fg bg attrs : Nat) :
    base.Keeps (fun fb => textEnding fb w row s fg bg attrs) fun _ y => y = row :=
  .when fun _ => rowText_keeps _ _ _ _ _ _

theorem drawTitle_keeps (w : Int) (fps : List Nat) :
    base.Keeps (a.drawTitle w fps) fun _ y => y = 0 :=
  ((rowText_keeps 0 0 a.titleLine a.theme.title a.theme.bg kAttrBold).comp
    (textEnding_keeps w 0 (snprintf 256 (fps ++ lit " fps ".toList)) a.theme.dim a.theme.bg
      0)).comp (.when fun _ => textEnding_keeps _ _ _ _ _ _)

theorem drawAddress_keeps (w : Int) : base.Keeps (a.drawAddress w) fun _ y => y = 1 :=
  (rowText_keeps 0 1 a.addressLine a.theme.text a.theme.bg 0).comp
    (.when fun _ => textEnding_keeps _ _ _ _ _ _)

theorem drawRule_keeps {w : Int} (hw : w < 2 ^ 31) :
    base.Keeps (a.drawRule w) fun _ y => y = 2 := by
  refine .when fun hroom => ?_
  have hline : base.Keeps (fun fb => fb.hline 0 2 w (if a.app.unicode then 0x2500 else 0x2D)
      a.theme.frame a.theme.bg 0) fun _ y => y = 2 := by
    have hfits : Rect.Fits ⟨0, 2, w, 1⟩ :=
      ⟨by norm_num, by norm_num, ⟨show -2 ^ 31 ≤ w by omega, hw⟩, by norm_num⟩
    refine Framebuffer.Keeps.mono (.fill hfits _) fun x y hin => ?_
    simp only [Rect.Has] at hin
    omega
  exact hline.comp (rowText_keeps _ _ _ _ _ _)

theorem drawSection_keeps {w : Int} (hw : w < 2 ^ 31) :
    base.Keeps (a.drawSection w) fun _ y => y = 2 :=
  (a.drawRule_keeps hw).comp <|
    .ite (fun _ => .when fun _ => textEnding_keeps _ _ _ _ _ _) fun _ =>
      textEnding_keeps _ _ _ _ _ _

theorem drawMap_keeps : base.Keeps a.drawMap a.screen.map.Has :=
  ((a.view.draw_keeps a.app.map a.app.translation a.app.nowMs).comp
    (a.view.drawLeaks_keeps a.app.map a.snap)).comp (a.view.drawCursor_keeps a.app.map a.cursor)

theorem drawInspector_keeps (hr : a.screen.inspector.Fits) :
    base.Keeps a.drawInspector a.screen.inspector.Has :=
  .when fun _ => a.inspect.draw_keeps hr _ _ _ _

theorem drawMetrics_keeps (hr : a.screen.metrics.Fits) :
    base.Keeps a.drawMetrics a.screen.metrics.Has :=
  .when fun _ => a.metrics.draw_keeps hr

theorem drawFooter_keeps (h : Int) : base.Keeps (a.drawFooter h) fun _ y => y = h - 1 :=
  rowText_keeps _ _ _ _ _ _

theorem layer_keeps {w h : Int} (fps : List Nat) (hw : w < 2 ^ 31)
    (hi : a.screen.inspector.Fits) (hm : a.screen.metrics.Fits) (p : ScreenPart) :
    base.Keeps (a.layer w h fps p) (a.reach h p) := by
  cases p with
  | title => exact a.drawTitle_keeps w fps
  | address => exact a.drawAddress_keeps w
  | sectionRow => exact a.drawSection_keeps hw
  | map => exact a.drawMap_keeps
  | inspector => exact a.drawInspector_keeps hi
  | metrics => exact a.drawMetrics_keeps hm
  | footer => exact a.drawFooter_keeps h

theorem drawHelp_keeps {w h : Int} (hr : (helpBox w h).Fits) :
    base.Keeps (a.drawHelp w h) (helpBox w h).Has :=
  ((Framebuffer.Keeps.fill hr _).comp (.box hr _ _ _ _)).comp
    (.foldl _ fun _ _ => panelText_keeps _ _ _ _ _ _)

end Keeps

/-! ## The parts are apart -/

section Apart

variable {w h : Int}

/-- Halving rounds towards zero. -/
theorem tdiv_two (v : Int) : v.tdiv 2 = if 0 ≤ v then v / 2 else -(-v / 2) := by
  split_ifs with hv
  · exact Int.tdiv_eq_ediv_of_nonneg hv
  · have hneg : (- -v).tdiv 2 = -((-v).tdiv 2) := Int.neg_tdiv _ _
    rw [neg_neg, Int.tdiv_eq_ediv_of_nonneg (show 0 ≤ -v by omega)] at hneg
    exact hneg

/-- The help lies on a screen that is large enough, and ends above its footer. -/
theorem helpBox_fits (hw : 0 < w ∧ w < 2 ^ 31) (hh : 0 < h ∧ h < 2 ^ 31) :
    (helpBox w h).Fits := by
  unfold helpBox
  simp only [tdiv_two]
  refine ⟨?_, ?_, ?_, ?_⟩ <;> dsimp only <;> omega

theorem helpBox_above {x y : Int} (hh : 4 ≤ h) (hin : (helpBox w h).Has x y) : y < h - 1 := by
  unfold helpBox at hin
  simp only [Rect.Has, tdiv_two] at hin
  omega

/-- The rows a layer may draw in, the lower panels beginning in row `begins`. -/
def reachRows (h begins : Int) : ScreenPart → Int × Int
  | .title => (0, 1)
  | .address => (1, 2)
  | .sectionRow => (2, 3)
  | .map => (min 3 (h - 1), begins)
  | .inspector | .metrics => (begins, h - 1)
  | .footer => (h - 1, h)

/-- No other layer may draw where that of a part does that the layout has; the footer
has to be below the header rows for it. -/
theorem layers_apart (a : DrawnApp Lab) (hw : 0 < w) (hh : 0 < h)
    (hlayout : a.screen = ScreenLayout.solve w h) {p q : ScreenPart} {x y : Int}
    (hp : (a.screen.part p).Has x y) (hfooter : p = .footer → 4 ≤ h) (hne : q ≠ p) (i j : Int)
    (hi : a.reach h p i j) : ¬ a.reach h q i j := by
  obtain ⟨begins, hlow, hhigh, -, hbody⟩ := ScreenLayout.body_has hw hh
  rw [← hlayout] at hbody
  have hrows : ∀ r i j, a.reach h r i j →
      (reachRows h begins r).1 ≤ j ∧ j < (reachRows h begins r).2 := by
    intro r i j hr
    obtain ⟨hmap, hpanels, -⟩ := hbody i j
    cases r with
    | title => simp only [reach, reachRows] at hr ⊢; omega
    | address => simp only [reach, reachRows] at hr ⊢; omega
    | sectionRow => simp only [reach, reachRows] at hr ⊢; omega
    | map => exact (hmap.mp hr).2.2
    | inspector => exact (hpanels.mp (.inl hr)).2.2
    | metrics => exact (hpanels.mp (.inr hr)).2.2
    | footer => simp only [reach, reachRows] at hr ⊢; omega
  -- a part that the layout has ends above the footer, or the header rows all do
  have hend : (reachRows h begins p).2 ≤ h - 1 ∨ 4 ≤ h := by
    obtain ⟨htitle, haddress, hsection, -⟩ := ScreenLayout.header_has hw hh x y
    rw [← hlayout] at htitle haddress hsection
    cases p with
    | title => have := htitle.mp hp; simp only [reachRows]; omega
    | address => have := haddress.mp hp; simp only [reachRows]; omega
    | sectionRow => have := hsection.mp hp; simp only [reachRows]; omega
    | map => exact .inl hhigh
    | inspector => exact .inl le_rfl
    | metrics => exact .inl le_rfl
    | footer => exact .inr (hfooter rfl)
  intro hj
  have hp' := hrows p i j hi
  have hq' := hrows q i j hj
  have hpanels := (hbody i j).2.2
  cases p <;> cases q <;> simp only [reachRows] at hp' hq' hend
  all_goals first
    | exact hne rfl
    | exact hpanels ⟨hi, hj⟩
    | exact hpanels ⟨hj, hi⟩
    | omega

end Apart

/-! ## A drawn frame -/

section Drawn

variable {fb : Framebuffer} (a : DrawnApp Lab) (fps : List Nat)

/-- The layers in the order they are drawn in. -/
def drawOrder : List ScreenPart :=
  [.title, .address, .sectionRow, .map, .inspector, .metrics, .footer]

theorem clear_sameFront (fb : Framebuffer) (c : Cell) : fb.SameFront (fb.clear c) := ⟨rfl, rfl, rfl⟩

/-- A frame before its help: the layers in order, on a blank screen. -/
theorem draw_eq : a.draw fps fb =
    let under := drawOrder.foldl (fun under p => a.layer fb.w fb.h fps p under) (fb.clear a.blank)
    if a.app.helpVisible then a.drawHelp fb.w fb.h under else under := rfl

/-- The help covers all of its box. -/
theorem drawHelp_covers {fb' : Framebuffer} {w h : Int} (hr : (helpBox w h).Fits)
    (hsame : fb.SameFront fb') {x y : Nat} (hx : x < fb.w) (hy : y < fb.h)
    (hin : (helpBox w h).Has x y) :
    (a.drawHelp w h fb').atBack x y = (a.drawHelp w h fb).atBack x y := by
  have hrest : fb.Keeps (fun fb => a.helpLines.zipIdx.foldl
      (fun fb line => (panelText fb (helpBox w h) 2 (1 + (line.2 : Int)) line.1.1 line.1.2.1
        a.theme.bg line.1.2.2).1)
      (fb.box (helpBox w h) (if a.app.unicode then .rounded else .ascii) a.theme.title a.theme.bg
        0)) (helpBox w h).Has :=
    .comp (.box hr _ _ _ _) (.foldl _ fun _ _ => panelText_keeps _ _ _ _ _ _)
  have hfilled : ∀ fb'', fb.SameFront fb'' →
      fb.SameFront (fb''.fill (helpBox w h) ⟨0x20, a.theme.text, a.theme.bg, 0⟩) ∧
      ∀ l : Fin fb.w × Fin fb.h, (helpBox w h).Has l.1 l.2 →
        Framebuffer.cellView fb.w fb.h
          (fb''.fill (helpBox w h) ⟨0x20, a.theme.text, a.theme.bg, 0⟩) l =
        ⟨0x20, a.theme.text, a.theme.bg, 0⟩ := by
    intro fb'' hfb''
    have hpaints := @Framebuffer.fill_paints fb'' _ hr ⟨0x20, a.theme.text, a.theme.bg, 0⟩
    refine ⟨hfb''.trans hpaints.toSameFront, fun l hl => ?_⟩
    refine (hpaints.back l.1 l.2 (l.1.isLt.trans_eq hfb''.w.symm)
      (l.2.isLt.trans_eq hfb''.h.symm)).trans ?_
    rw [if_pos hl]
    rfl
  obtain ⟨hok', hcell'⟩ := hfilled fb' hsame
  obtain ⟨hok, hcell⟩ := hfilled fb (.refl fb)
  exact hrest.reads _ _ hok' hok (fun l hl => (hcell' l hl).trans (hcell l hl).symm)
    (⟨x, hx⟩, ⟨y, hy⟩) hin

/-- The help is open and covers the character. -/
def Covered (a : DrawnApp Lab) (fb : Framebuffer) (x y : Nat) : Prop :=
  a.app.helpVisible = true ∧ (helpBox fb.w fb.h).Has x y

/-- **A frame is put together from layers that do not meet.** On a screen the layout
was solved for, a character of a frame is what one layer alone draws there on a
blank screen: the help, where it is open and covers it, else the layer of the part
the character lies in, the footer's if there are four rows. With four rows the help
leaves the footer's row alone. -/
theorem frame_composed (a : DrawnApp Lab) (fps : List Nat) (fb : Framebuffer)
    (hlayout : a.screen = ScreenLayout.solve fb.w fb.h) (p : ScreenPart) (x y : Nat)
    (hx : x < fb.w) (hy : y < fb.h) (hp : (a.screen.part p).Has x y) :
    fb.SameFront (a.draw fps fb) ∧
    (a.Covered fb x y →
      (a.draw fps fb).atBack x y = (a.drawHelp fb.w fb.h (fb.clear a.blank)).atBack x y) ∧
    (¬ a.Covered fb x y → (p = .footer → 4 ≤ fb.h) →
      (a.draw fps fb).atBack x y = (a.layer fb.w fb.h fps p (fb.clear a.blank)).atBack x y) ∧
    (p = .footer → 4 ≤ fb.h → ¬ a.Covered fb x y) := by
  obtain ⟨hw, hh⟩ := Framebuffer.sides_lt (Framebuffer.isEmpty_of_inside hx hy)
  have hw' : (0 : Int) < fb.w ∧ (fb.w : Int) < 2 ^ 31 := by omega
  have hh' : (0 : Int) < fb.h ∧ (fb.h : Int) < 2 ^ 31 := by omega
  obtain ⟨hinspector, hmetrics⟩ := ScreenLayout.panels_fit hw' hh'
  rw [← hlayout] at hinspector hmetrics
  let op : ScreenPart → Footprint.Op (Framebuffer.cellView fb.w fb.h) fb.SameFront := fun q =>
    ⟨a.layer fb.w fb.h fps q, fun l => a.reach fb.h q l.1 l.2,
      a.layer_keeps fps hw'.2 hinspector hmetrics q⟩
  have hblank := clear_sameFront fb a.blank
  have hunder := Footprint.perform_ok (drawOrder.map op) hblank
  have hhelp := helpBox_fits hw' hh'
  have hframe : ∀ under, fb.SameFront under →
      fb.SameFront (if a.app.helpVisible then a.drawHelp fb.w fb.h under else under) := by
    intro under hok
    split
    · exact (a.drawHelp_keeps hhelp).keeps under hok
    · exact hok
  rw [a.draw_eq fps]
  refine ⟨hframe _ hunder, ?_, ?_, ?_⟩
  · rintro ⟨hvisible, hin⟩
    dsimp only
    rw [if_pos hvisible]
    exact (a.drawHelp_covers hhelp hunder hx hy hin).trans
      (a.drawHelp_covers hhelp hblank hx hy hin).symm
  · intro hcovered hfooter
    have hreach : a.reach fb.h p x y := by
      obtain ⟨htitle, haddress, hsection, hfoot⟩ := ScreenLayout.header_has hw'.1 hh'.1 x y
      rw [← hlayout] at htitle haddress hsection hfoot
      cases p with
      | title => exact (htitle.mp hp).2.2.1
      | address => exact (haddress.mp hp).2.2.1
      | sectionRow => exact (hsection.mp hp).2.2.1
      | map => exact hp
      | inspector => exact hp
      | metrics => exact hp
      | footer => exact (hfoot.mp hp).2.2
    have hlayer : Framebuffer.cellView fb.w fb.h
        (Footprint.perform (drawOrder.map op) (fb.clear a.blank)) (⟨x, hx⟩, ⟨y, hy⟩) =
          Framebuffer.cellView fb.w fb.h ((op p).run (fb.clear a.blank)) (⟨x, hx⟩, ⟨y, hy⟩) :=
      Footprint.perform_named hblank (by decide) (by cases p <;> decide)
        (fun q _ hne l hl => a.layers_apart hw'.1 hh'.1 hlayout hp
          (fun hp' => by have := hfooter hp'; omega) hne _ _ hl) hreach
    refine Eq.trans ?_ hlayer
    dsimp only
    split
    · rename_i hvisible
      exact (a.drawHelp_keeps hhelp).frame _ hunder (⟨x, hx⟩, ⟨y, hy⟩)
        fun hin => hcovered ⟨hvisible, hin⟩
    · rfl
  · rintro rfl hfour ⟨-, hin⟩
    have habove := helpBox_above (by omega) hin
    have hrow := ((ScreenLayout.header_has hw'.1 hh'.1 x y).2.2.2.mp (hlayout ▸ hp)).2.2
    omega

/-- A session that has just started, its help open on a screen of 80 by 24. -/
def helpOpen : DrawnApp Nat where
  app := { HeapApp.new true true 0 with helpVisible := true }
  theme := darkTheme
  view :=
    { toMapView := ⟨flatRamp, true, true, false⟩
      glyphs := .glyphsFor true
      palette := kDefaultPalette
      style := darkTheme.mapStyle
      density := fun _ _ => .light }
  cursor := ⟨0⟩
  inspect := { ChunkInspector.init with
    style := darkTheme.inspectorStyle
    firstSeen := false
    seconds := formatDec }
  metrics := .init darkTheme.metricsStyle
  snap := .init
  screen := .solve 80 24
  pid := 42
  comm := lit "sh".toList
  dropped := 0
  droppedAtAttach := 0
  snapshotMode := false
  walker := none
  walk := .init
  readerGone := false
  exitNote := []

/-- The footer says how to close the help. -/
theorem frame_composed_help :
    (helpOpen.draw (formatDec 60) (Framebuffer.init.resize 80 24).1).atBack 1 23 =
      (helpOpen.drawFooter 24 ((Framebuffer.init.resize 80 24).1.clear helpOpen.blank)).atBack 1
        23 := by
  obtain ⟨-, -, hshown, hfooter⟩ := frame_composed helpOpen (formatDec 60)
    (Framebuffer.init.resize 80 24).1 rfl .footer 1 23 (by decide) (by decide) (by decide)
  exact hshown (hfooter rfl (by decide)) fun _ => by decide

end Drawn

end DrawnApp

end Heapviz
