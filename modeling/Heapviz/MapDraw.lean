import Heapviz.Cursor
import Heapviz.DrawClip
import Heapviz.FrameSkip
import Heapviz.LeakDiff
import Heapviz.MapsText

/-!
# The map on the framebuffer

`tui/map_view.cpp`, with the label texts of `tui/grid.cpp`: legend, gutter and
cells of a frame, and the two passes over a map already drawn, one for the
leak candidates and one for the cursor.

The view of `Heapviz.FrameSkip` knows which cells are painted and in which
colour; here is where on the screen that happens. With half blocks a character
shows two cells, the upper one in its foreground and the lower one in its
background.

- `draw_char`, `draw_label`: what a drawn map leaves in the character of a
  cell and in a gutter column.
- `drawCursor_atBack`: what the cursor adds.

A ratio of live bytes to a cell's size only chooses between four glyphs. That
choice is a parameter, as the arithmetic of the ramp is. Positions are
integers: the area is one on a screen.
-/

namespace Heapviz

/-! ## Texts -/

/-- `kUnits`. -/
def kUnits : List (List Nat) :=
  ["B", "KB", "MB", "GB", "TB", "PB", "EB"].map fun unit => lit unit.toList

/-- The loop of `scale_bytes`, with as many rounds as there are units left: the
value, the last remainder and the unit. -/
def scaleLoop : Nat → Nat → Nat → Nat → Nat × Nat × Nat
  | 0, v, rem, unit => (v, rem, unit)
  | left + 1, v, rem, unit =>
      if v ≥ 1024 then scaleLoop left (v / 1024) (v % 1024) (unit + 1) else (v, rem, unit)

/-- `scale_bytes`: the value, its tenths and the unit. -/
def scaleBytes (bytes : Nat) : Nat × Nat × Nat :=
  let (v, rem, unit) := scaleLoop (kUnits.length - 1) bytes 0 0
  (v, if unit > 0 ∧ v < 10 then rem * 10 / 1024 else 0, unit)

/-- A size with its unit, and what stands between. -/
def scaledText (gap : List Nat) (bytes : Nat) : List Nat :=
  let (whole, tenths, unit) := scaleBytes bytes
  formatDec whole ++ (if tenths ≠ 0 then 0x2E :: formatDec tenths else []) ++ gap ++
    kUnits.getD unit []

/-- `format_byte_size`. -/
def formatByteSize (bytes : Nat) : List Nat := scaledText [0x20] bytes

/-- `format_offset`: right-aligned, and cut to the gutter's width. -/
def formatOffset (offset : Nat) : List Nat :=
  let body := (scaledText [] offset).take kGutterWidth.toNat
  List.replicate (kGutterWidth.toNat - body.length) 0x20 ++ body

/-! ## Rows and columns -/

namespace Grid

def rowOf (g : Grid) (i : Nat) : Nat := if g.cols = 0 then 0 else i / g.cols

def colOf (g : Grid) (i : Nat) : Nat := if g.cols = 0 then 0 else i % g.cols

/-- `offset_of_row`, a 64-bit product. -/
def offsetOfRow (g : Grid) (row : Nat) : Nat :=
  if g.valid = false then 0 else row * g.cols * g.cellBytes % 2 ^ 64

theorem cols_pos {g : Grid} {i : Nat} (hi : i < g.cellCount) : 0 < g.cols := by
  by_contra hzero
  rw [Grid.cellCount, Nat.eq_zero_of_not_pos hzero, Nat.zero_mul] at hi
  exact absurd hi (Nat.not_lt_zero i)

end Grid

/-! ## The layout -/

structure MapLayout where
  legend : Rect
  cells : Rect
  gutterX : Int
  valid : Bool
deriving Repr, DecidableEq

/-- `map_layout`, with all it returns; `mapLayout` is the part of it the grid is
sized by. -/
def MapLayout.solve (area : Rect) (showLegend : Bool) : MapLayout :=
  if area.w ≤ 0 ∨ area.h ≤ 0 then ⟨⟨0, 0, 0, 0⟩, ⟨0, 0, 0, 0⟩, -1, false⟩
  else
    let legend : Bool := showLegend ∧ area.h ≥ 2
    let gutterCols := kGutterWidth + 1
    let gutter : Bool := area.w ≥ gutterCols + kMinMapCols
    let cells : Rect :=
      ⟨area.x + if gutter then gutterCols else 0, area.y + if legend then 1 else 0,
        area.w - if gutter then gutterCols else 0, area.h - if legend then 1 else 0⟩
    ⟨if legend then ⟨area.x, area.y, area.w, 1⟩ else ⟨0, 0, 0, 0⟩, cells,
      if gutter then area.x else -1, cells.w > 0 ∧ cells.h > 0⟩

/-! ## The view -/

/-- The glyphs of `GlyphSet` the map is made of. -/
structure GlyphSet where
  full : Nat
  dark : Nat
  medium : Nat
  light : Nat
  half : Nat
deriving Repr, DecidableEq

/-- `glyphs_for`. -/
def GlyphSet.glyphsFor (unicode : Bool) : GlyphSet :=
  if unicode then ⟨0x2588, 0x2593, 0x2592, 0x2591, 0x2580⟩ else ⟨0x23, 0x4F, 0x3D, 0x2E, 0x23⟩

structure MapStyle where
  ink : Nat
  dim : Nat
  warn : Nat
  bg : Nat
  cursor : Nat
  leak : Nat
deriving Repr, DecidableEq

/-- The defaults, tokens of the dark theme. -/
def MapStyle.default : MapStyle :=
  ⟨0xD8D8D8, 0x7A7A7A, 0xF5A623, 0x0C0C0C, 0x33D7E8, 0xE57BFF⟩

/-- How full a cell is, as the thresholds of `glyph_for` have it. -/
inductive Density where
  | full
  | dark
  | medium
  | light
deriving Repr, DecidableEq

/-- `MapView` with the members that only drawing needs. -/
structure MapPainter (Lab : Type) extends MapView Lab where
  glyphs : GlyphSet
  palette : HeatPalette
  style : MapStyle
  density : Nat → Nat → Density

/-- `Pen`: it stops at the right edge of the legend. -/
structure LegendPen where
  fb : Framebuffer
  x : Int
  y : Int
  limit : Int

namespace LegendPen

/-- A segment that does not fit is dropped whole. -/
def text (pen : LegendPen) (s : List Nat) (fg bg : Nat) : LegendPen :=
  if pen.x + s.length > pen.limit then { pen with x := pen.limit }
  else
    let (fb, written) := pen.fb.text pen.x pen.y s fg bg 0
    { pen with fb := fb, x := pen.x + written }

def glyph (pen : LegendPen) (g fg bg : Nat) : LegendPen :=
  if pen.x ≥ pen.limit then pen
  else { pen with fb := pen.fb.put pen.x pen.y ⟨g, fg, bg, 0⟩, x := pen.x + 1 }

def roomFor (pen : LegendPen) (cols : Int) : Bool := pen.x + cols ≤ pen.limit

end LegendPen

namespace MapPainter

variable {Lab : Type}

/-- `glyph_for`. -/
def glyphFor (v : MapPainter Lab) (a : CellAggregate) (cellBytes : Nat) : Nat :=
  if cellOccupied a = false then v.glyphs.light
  else if cellBytes = 0 then v.glyphs.full
  else
    match v.density a.liveBytes cellBytes with
    | .full => v.glyphs.full
    | .dark => v.glyphs.dark
    | .medium => v.glyphs.medium
    | .light => v.glyphs.light

/-- The swatches of the legend, as far as there is room for a whole one. -/
def drawSwatches (v : MapPainter Lab) : List (Nat × List Nat) → LegendPen → LegendPen
  | [], pen => pen
  | (color, label) :: rest, pen =>
      if pen.roomFor (2 + 1 + label.length) = false then pen
      else
        let pen := pen.text [0x20, 0x20] v.style.dim v.style.bg
        let pen := pen.glyph v.glyphs.full color v.style.bg
        v.drawSwatches rest (pen.text label v.style.dim v.style.bg)

def swatches (v : MapPainter Lab) : List (Nat × List Nat) :=
  [(v.palette.settled, lit " live".toList), (v.palette.fresh, lit " new".toList),
    (v.palette.freed, lit " freed".toList), (v.palette.overhead, lit " overhead".toList),
    (v.palette.empty, lit " unused".toList)]

def drawLegend (v : MapPainter Lab) (fb : Framebuffer) (r : Rect) (g : Grid) : Framebuffer :=
  if r.w ≤ 0 ∨ r.h ≤ 0 then fb
  else
    let pen : LegendPen := ⟨fb, r.x, r.y, r.x + r.w⟩
    if g.valid = false then
      (pen.text (lit "no heap bounds yet".toList) v.style.dim v.style.bg).fb
    else
      let head := lit "1 cell = ".toList ++ formatByteSize g.cellBytes
      let pen := v.drawSwatches v.swatches (pen.text head v.style.ink v.style.bg)
      if g.coversWholeSpan then pen.fb
      else (pen.text (lit "   top of range not shown".toList) v.style.warn v.style.bg).fb

/-- The label of the row that begins at a coordinate, and its colour. -/
def rowLabel (v : MapPainter Lab) (regions : Option RegionMap) (coord rowBytes : Nat) :
    List Nat × Nat :=
  match regions with
  | none => (formatOffset coord, v.style.dim)
  | some rm =>
      match rm.spanAtFlat coord with
      | some span =>
          (formatOffset (sub64 coord span.flat),
            if span.flat ≥ coord ∧ span.flat < add64 coord rowBytes then v.style.warn
            else v.style.dim)
      | none => ([], v.style.dim)

/-- The character of a cell; with half blocks, of the cell and the one below. -/
def charOf (v : MapPainter Lab) (map : HeatMap) (nowMs i : Nat) : Cell :=
  let cellBytes := map.grid.cellBytes
  let top := v.colorOf (map.at i) cellBytes nowMs
  if v.halfBlock = false then ⟨v.glyphFor (map.at i) cellBytes, top, v.style.bg, 0⟩
  else
    let lower := i + map.grid.cols
    let bottom :=
      if lower < map.cellCount then v.colorOf (map.at lower) cellBytes nowMs else v.style.bg
    ⟨v.glyphs.half, top, bottom, 0⟩

/-- The columns of a row; the flag is whether every number was a cell's. -/
def drawCols (v : MapPainter Lab) (map : HeatMap) (nowMs : Nat) (x y : Int) (base : Nat) :
    List Nat → Framebuffer → Framebuffer × Bool
  | [], fb => (fb, true)
  | col :: cols, fb =>
      if base + col ≥ map.cellCount then (fb, false)
      else
        drawCols v map nowMs x y base cols (fb.put (x + col) y (v.charOf map nowMs (base + col)))

/-- The logical row a row of the display begins with. -/
def logicalRow (v : MapPainter Lab) (row : Nat) : Nat := if v.halfBlock then row * 2 else row

/-- The gutter of a row. -/
def drawGutter (v : MapPainter Lab) (map : HeatMap) (regions : Option RegionMap) (l : MapLayout)
    (row : Nat) (fb : Framebuffer) : Framebuffer :=
  if l.gutterX ≥ 0 then
    let g := map.grid
    let (label, ink) :=
      v.rowLabel regions (g.offsetOfRow (v.logicalRow row)) (g.cellBytes * g.cols % 2 ^ 64)
    (fb.text l.gutterX (l.cells.y + row) label ink v.style.bg 0).1
  else fb

/-- The rows; a number that is no cell's ends the drawing. -/
def drawRows (v : MapPainter Lab) (map : HeatMap) (regions : Option RegionMap) (nowMs : Nat)
    (l : MapLayout) (cols : List Nat) : List Nat → Framebuffer → Framebuffer
  | [], fb => fb
  | row :: rows, fb =>
      let fb := v.drawGutter map regions l row fb
      let (fb, more) := v.drawCols map nowMs l.cells.x (l.cells.y + row)
        (v.logicalRow row * map.grid.cols) cols fb
      if more then drawRows v map regions nowMs l cols rows fb else fb

/-- The rows of the display that a grid takes up. -/
def displayRows (v : MapPainter Lab) (g : Grid) : Nat :=
  if v.halfBlock then (g.rows + 1) / 2 else g.rows

/-- `MapView::draw`. -/
def draw (v : MapPainter Lab) (fb : Framebuffer) (area : Rect) (map : HeatMap)
    (regions : Option RegionMap) (nowMs : Nat) : Framebuffer :=
  let l := MapLayout.solve area v.showLegend
  if l.valid = false then fb
  else
    let g := map.grid
    let fb := v.drawLegend fb l.legend g
    if g.valid = false then fb
    else
      let rows := min (v.displayRows g) l.cells.h.toNat
      let cols := min g.cols l.cells.w.toNat
      v.drawRows map regions nowMs l (List.range cols) (List.range rows) fb

/-- The row of the display a cell is shown in. -/
def displayRow (v : MapPainter Lab) (g : Grid) (i : Nat) : Nat :=
  if v.halfBlock then g.rowOf i / 2 else g.rowOf i

/-- Where `draw_leaks` and `draw_cursor` look for a cell, if its character is on
the framebuffer. -/
def charPos (v : MapPainter Lab) (fb : Framebuffer) (l : MapLayout) (g : Grid) (i : Nat) :
    Option (Int × Int) :=
  let row := v.displayRow g i
  let col := g.colOf i
  if (row : Int) ≥ l.cells.h ∨ (col : Int) ≥ l.cells.w then none
  else if fb.contains (l.cells.x + col) (l.cells.y + row) then
    some (l.cells.x + col, l.cells.y + row)
  else none

/-- One candidate of `draw_leaks`: the half that shows the cell. -/
def drawLeak (v : MapPainter Lab) (l : MapLayout) (map : HeatMap) (fb : Framebuffer) (i : Nat) :
    Framebuffer :=
  if i ≥ map.cellCount then fb
  else
    match v.charPos fb l map.grid i with
    | none => fb
    | some (x, y) =>
        let c := fb.atBack x.toNat y.toNat
        fb.put x y
          (if v.halfBlock = true ∧ map.grid.rowOf i % 2 ≠ 0 then { c with bg := v.style.leak }
          else { c with fg := v.style.leak })

def drawLeaks (v : MapPainter Lab) (fb : Framebuffer) (area : Rect) (map : HeatMap)
    (diff : SnapshotDiff) : Framebuffer :=
  let l := MapLayout.solve area v.showLegend
  if diff.diff = false ∨ l.valid = false ∨ map.grid.valid = false ∨
      diff.cellSpan ≠ map.cellCount then fb
  else diff.hot.foldl (v.drawLeak l map) fb

/-- The gutter label of the cursor's row, column by column up to the edge of the
framebuffer. -/
def tintGutter (v : MapPainter Lab) (y : Int) : Nat → Int → Framebuffer → Framebuffer
  | 0, _, fb => fb
  | left + 1, gx, fb =>
      if fb.contains gx y = false then fb
      else
        v.tintGutter y left (gx + 1)
          (fb.put gx y { fb.atBack gx.toNat y.toNat with fg := v.style.cursor })

def drawCursor (v : MapPainter Lab) (fb : Framebuffer) (area : Rect) (map : HeatMap)
    (cur : MapCursor) : Framebuffer :=
  let l := MapLayout.solve area v.showLegend
  if l.valid = false ∨ map.grid.valid = false then fb
  else
    match v.charPos fb l map.grid (cur.index map.grid) with
    | none => fb
    | some (x, y) =>
        let c := fb.atBack x.toNat y.toNat
        let fb := fb.put x y { c with bg := v.style.cursor, attrs := c.attrs ||| kAttrBold }
        if l.gutterX ≥ 0 then v.tintGutter y kGutterWidth.toNat l.gutterX fb else fb

end MapPainter

/-! ## Where the parts are -/

section Layout

variable {area : Rect} {showLegend : Bool}

/-- The grid is sized for the cells that are drawn. -/
theorem MapLayout.solve_cells (area : Rect) (showLegend : Bool) :
    mapLayout area showLegend =
      if (MapLayout.solve area showLegend).valid then
        some (MapLayout.solve area showLegend).cells
      else none := by
  unfold mapLayout MapLayout.solve
  by_cases hempty : area.w ≤ 0 ∨ area.h ≤ 0
  · rw [if_pos hempty, if_pos hempty, if_neg Bool.false_ne_true]
  · rw [if_neg hempty, if_neg hempty]
    simp only [decide_eq_true_eq]

/-- The gutter, if there is one, ends a column before the cells begin. -/
theorem MapLayout.solve_gutter (h : 0 ≤ (MapLayout.solve area showLegend).gutterX) :
    (MapLayout.solve area showLegend).gutterX + kGutterWidth + 1 =
      (MapLayout.solve area showLegend).cells.x := by
  unfold MapLayout.solve at h ⊢
  split_ifs at h ⊢ with hempty
  · exact absurd h (by decide)
  · dsimp only at h ⊢
    by_cases hgutter : area.w ≥ kGutterWidth + 1 + kMinMapCols
    · simp only [hgutter, decide_true, if_true]
      exact add_assoc ..
    · simp [hgutter] at h

end Layout

/-! ## Drawing stays where it is -/

/-- Outside of the part the back buffer is left alone. -/
structure Framebuffer.Confined (fb fb' : Framebuffer) (part : Nat → Nat → Prop) : Prop
    extends fb.SameFront fb' where
  rest : ∀ x y, x < fb.w → y < fb.h → ¬ part x y → fb'.atBack x y = fb.atBack x y

namespace Framebuffer.Confined

variable {fb fb' fb'' : Framebuffer} {part : Nat → Nat → Prop}

theorem refl (fb : Framebuffer) : fb.Confined fb part := ⟨.refl fb, fun _ _ _ _ _ => rfl⟩

theorem trans (h : fb.Confined fb' part) (h' : fb'.Confined fb'' part) : fb.Confined fb'' part :=
  ⟨h.toSameFront.trans h'.toSameFront, fun x y hx hy hout =>
    (h'.rest x y (h.w ▸ hx) (h.h ▸ hy) hout).trans (h.rest x y hx hy hout)⟩

theorem of_paints {new : Nat → Nat → Option Cell} (h : fb.Paints fb' new)
    (hnew : ∀ x y, ¬ part x y → new x y = none) : fb.Confined fb' part := by
  refine ⟨h.toSameFront, fun x y hx hy hout => ?_⟩
  rw [h.back x y hx hy, hnew x y hout]
  rfl

theorem put {px py : Int} (h : ∀ x y : Nat, px = x → py = y → part x y) (c : Cell) :
    fb.Confined (fb.put px py c) part :=
  of_paints (.put fb px py c) fun x y hout => if_neg fun hhere => hout (h x y hhere.1 hhere.2)

/-- Text stays in its row. -/
theorem text (fb : Framebuffer) (tx ty : Int) (s : List Nat) (fg bg attrs : Nat) :
    fb.Confined (fb.text tx ty s fg bg attrs).1 fun _ y => ty = y :=
  of_paints (.call fb (.text tx ty s fg bg attrs)) fun _ _ hout => if_neg fun hin => hout hin.1

end Framebuffer.Confined

theorem Framebuffer.put_atBack_self {fb : Framebuffer} {x y : Int} (hon : fb.contains x y = true)
    (c : Cell) : (fb.put x y c).atBack x.toNat y.toNat = c := by
  obtain ⟨hx, hy, hxw, hyh⟩ := Framebuffer.contains_iff.mp hon
  rw [Framebuffer.put_atBack fb x y c (by omega) (by omega), if_pos ⟨by omega, by omega⟩]

/-! ## The legend -/

/-- The pen has gone on in its row. -/
structure LegendPen.Moves (pen pen' : LegendPen) : Prop where
  y : pen'.y = pen.y
  confined : pen.fb.Confined pen'.fb fun _ y => pen.y = y

namespace LegendPen.Moves

variable {pen pen' pen'' : LegendPen}

theorem trans (h : pen.Moves pen') (h' : pen'.Moves pen'') : pen.Moves pen'' :=
  ⟨h'.y.trans h.y, h.confined.trans (h.y ▸ h'.confined)⟩

theorem text (pen : LegendPen) (s : List Nat) (fg bg : Nat) : pen.Moves (pen.text s fg bg) := by
  unfold LegendPen.text
  split
  · exact ⟨rfl, .refl _⟩
  · exact ⟨rfl, .text pen.fb pen.x pen.y s fg bg 0⟩

theorem glyph (pen : LegendPen) (g fg bg : Nat) : pen.Moves (pen.glyph g fg bg) := by
  unfold LegendPen.glyph
  split
  · exact ⟨rfl, .refl _⟩
  · exact ⟨rfl, .put (fun _ _ _ hy => hy) _⟩

end LegendPen.Moves

namespace MapPainter

variable {Lab : Type} {v : MapPainter Lab}

theorem drawSwatches_moves (items : List (Nat × List Nat)) (pen : LegendPen) :
    pen.Moves (v.drawSwatches items pen) := by
  induction items generalizing pen with
  | nil => exact ⟨rfl, .refl _⟩
  | cons item items ih =>
      obtain ⟨color, label⟩ := item
      unfold drawSwatches
      split
      · exact ⟨rfl, .refl _⟩
      · exact (LegendPen.Moves.text pen _ _ _).trans
          ((LegendPen.Moves.glyph _ _ _ _).trans ((LegendPen.Moves.text _ label _ _).trans (ih _)))

theorem drawLegend_confined (fb : Framebuffer) (r : Rect) (g : Grid) :
    fb.Confined (v.drawLegend fb r g) fun _ y => 0 < r.w ∧ r.y = y := by
  unfold drawLegend
  by_cases hempty : r.w ≤ 0 ∨ r.h ≤ 0
  · rw [if_pos hempty]
    exact .refl fb
  · rw [if_neg hempty]
    -- every segment is drawn along the one row of the legend
    have hrow : ∀ pen' : LegendPen, LegendPen.Moves ⟨fb, r.x, r.y, r.x + r.w⟩ pen' →
        fb.Confined pen'.fb fun _ y => 0 < r.w ∧ r.y = y := fun pen' h =>
      ⟨h.confined.toSameFront, fun x y hx hy hout =>
        h.confined.rest x y hx hy fun hy' => hout ⟨by omega, hy'⟩⟩
    split
    · exact hrow _ (.text _ _ _ _)
    · have hhead := (LegendPen.Moves.text ⟨fb, r.x, r.y, r.x + r.w⟩
        (lit "1 cell = ".toList ++ formatByteSize g.cellBytes) v.style.ink v.style.bg).trans
        (v.drawSwatches_moves v.swatches _)
      dsimp only
      split
      · exact hrow _ hhead
      · exact hrow _ (hhead.trans (.text _ _ _ _))

/-! ## The rows -/

section Rows

variable {fb : Framebuffer} {map : HeatMap} {regions : Option RegionMap} {nowMs : Nat}
  {l : MapLayout}

/-- Where every number is a cell's, the columns are drawn to the end. -/
theorem drawCols_eq {x y : Int} {base : Nat} {cols : List Nat}
    (hin : ∀ col ∈ cols, base + col < map.cellCount) (fb : Framebuffer) :
    v.drawCols map nowMs x y base cols fb =
      (cols.foldl (fun fb col => fb.put (x + col) y (v.charOf map nowMs (base + col))) fb,
        true) := by
  induction cols generalizing fb with
  | nil => rfl
  | cons col cols ih =>
      have hhead := hin col List.mem_cons_self
      rw [drawCols, if_neg (by omega), ih fun c hc => hin c (List.mem_cons_of_mem _ hc)]
      rfl

theorem drawCols_paints (x y : Int) (base n : Nat) (fb : Framebuffer) :
    fb.Paints
      ((List.range n).foldl
        (fun fb (col : Nat) => fb.put (x + col) y (v.charOf map nowMs (base + col))) fb)
      fun px py =>
        if y = py ∧ x ≤ px ∧ px < x + n then
          some (v.charOf map nowMs (base + (px - x : Int).toNat))
        else none := by
  refine .foldl _ (fun col _ fb' _ => .put fb' _ y _) (fun px py _ _ col hcol c hc => ?_)
    fun px py _ _ c hc => ?_
  · obtain ⟨⟨hx, hy⟩, hcell⟩ := Option.ite_none_right_eq_some.mp hc
    have hlt := List.mem_range.mp hcol
    have hback : (px - x : Int).toNat = col := by omega
    rw [if_pos ⟨hy, by omega, by omega⟩, hback, hcell]
  · obtain ⟨⟨hy, hlow, hhigh⟩, hcell⟩ := Option.ite_none_right_eq_some.mp hc
    exact ⟨(px - x : Int).toNat, List.mem_range.mpr (by omega),
      (if_pos ⟨by omega, hy⟩).trans hcell⟩

/-- What the gutter of a row has for a character. -/
def gutterAt (v : MapPainter Lab) (map : HeatMap) (regions : Option RegionMap) (l : MapLayout)
    (row x y : Nat) : Option Cell :=
  if l.gutterX ≥ 0 then
    let (label, ink) := v.rowLabel regions (map.grid.offsetOfRow (v.logicalRow row))
      (map.grid.cellBytes * map.grid.cols % 2 ^ 64)
    (DrawCall.text l.gutterX (l.cells.y + row) label ink v.style.bg 0).cellAt x y
  else none

/-- What a row has for a character: one of its cells, or its gutter. -/
def rowAt (v : MapPainter Lab) (map : HeatMap) (regions : Option RegionMap) (nowMs : Nat)
    (l : MapLayout) (cols row x y : Nat) : Option Cell :=
  (if l.cells.y + row = y ∧ l.cells.x ≤ x ∧ x < l.cells.x + cols then
    some (v.charOf map nowMs (v.logicalRow row * map.grid.cols + (x - l.cells.x : Int).toNat))
  else none).or (v.gutterAt map regions l row x y)

theorem gutterAt_row {row x y : Nat} {c : Cell} (h : v.gutterAt map regions l row x y = some c) :
    l.cells.y + row = y := by
  obtain ⟨-, h⟩ := Option.ite_none_right_eq_some.mp h
  exact (Option.ite_none_right_eq_some.mp h).1.1

theorem rowAt_row {cols row x y : Nat} {c : Cell}
    (h : v.rowAt map regions nowMs l cols row x y = some c) : l.cells.y + row = y := by
  rcases Option.or_eq_some_iff.mp h with hcell | ⟨-, hgutter⟩
  · exact (Option.ite_none_right_eq_some.mp hcell).1.1
  · exact gutterAt_row hgutter

theorem drawGutter_paints (row : Nat) (fb : Framebuffer) :
    fb.Paints (v.drawGutter map regions l row fb) (v.gutterAt map regions l row) := by
  unfold drawGutter gutterAt
  by_cases hgutter : l.gutterX ≥ 0
  · simp only [if_pos hgutter]
    exact .call fb (.text _ _ _ _ _ _)
  · simp only [if_neg hgutter]
    exact .nothing fb

/-- Where every number is a cell's, each row is drawn: its gutter, then its
cells. -/
theorem drawRows_eq {n : Nat} {rows : List Nat}
    (hin : ∀ row ∈ rows, ∀ col < n, v.logicalRow row * map.grid.cols + col < map.cellCount)
    (fb : Framebuffer) :
    v.drawRows map regions nowMs l (List.range n) rows fb =
      rows.foldl (fun fb (row : Nat) =>
        (List.range n).foldl
          (fun fb (col : Nat) => fb.put (l.cells.x + col) (l.cells.y + row)
            (v.charOf map nowMs (v.logicalRow row * map.grid.cols + col)))
          (v.drawGutter map regions l row fb)) fb := by
  induction rows generalizing fb with
  | nil => rfl
  | cons row rows ih =>
      rw [drawRows, drawCols_eq fun col hcol =>
        hin row List.mem_cons_self col (List.mem_range.mp hcol)]
      dsimp only
      rw [if_pos rfl, ih fun r hr => hin r (List.mem_cons_of_mem _ hr)]
      rfl

theorem drawRows_paints {n : Nat} {rows : Nat}
    (hin : ∀ row < rows, ∀ col < n, v.logicalRow row * map.grid.cols + col < map.cellCount)
    (fb : Framebuffer) :
    fb.Paints (v.drawRows map regions nowMs l (List.range n) (List.range rows) fb) fun x y =>
      if l.cells.y ≤ y ∧ y < l.cells.y + rows then
        v.rowAt map regions nowMs l n (y - l.cells.y : Int).toNat x y
      else none := by
  rw [drawRows_eq fun row hrow => hin row (List.mem_range.mp hrow)]
  refine .foldl _ (fun row _ fb' _ => (drawGutter_paints row fb').trans
    (v.drawCols_paints l.cells.x (l.cells.y + row) (v.logicalRow row * map.grid.cols) n _))
    (fun x y _ _ row hrow c hc => ?_) fun x y _ _ c hc => ?_
  · have hy : l.cells.y + row = y := rowAt_row hc
    have hlt := List.mem_range.mp hrow
    have hback : (y - l.cells.y : Int).toNat = row := by omega
    rw [if_pos ⟨by omega, by omega⟩, hback]
    exact hc
  · obtain ⟨⟨hlow, hhigh⟩, hc⟩ := Option.ite_none_right_eq_some.mp hc
    exact ⟨(y - l.cells.y : Int).toNat, List.mem_range.mpr (by omega), hc⟩

end Rows

/-! ## A drawn map -/

section Drawn

variable {fb fb' : Framebuffer} {area : Rect} {map : HeatMap} {regions : Option RegionMap}
  {nowMs i : Nat} {x y : Int}

theorem lt_of_displayRows {row col : Nat} (hrow : row < v.displayRows map.grid)
    (hcol : col < map.grid.cols) :
    v.logicalRow row * map.grid.cols + col < map.grid.cellCount := by
  have hlogical : v.logicalRow row < map.grid.rows := by
    unfold displayRows at hrow
    unfold logicalRow
    split_ifs at hrow ⊢ <;> omega
  calc v.logicalRow row * map.grid.cols + col
      < v.logicalRow row * map.grid.cols + map.grid.cols := Nat.add_lt_add_left hcol _
    _ = (v.logicalRow row + 1) * map.grid.cols := (Nat.succ_mul ..).symm
    _ ≤ map.grid.rows * map.grid.cols := Nat.mul_le_mul_right _ hlogical
    _ = map.grid.cellCount := Nat.mul_comm ..

/-- The legend in its row, and then the rows of the map. -/
theorem draw_paints (v : MapPainter Lab) (regions : Option RegionMap) (nowMs : Nat)
    (hmap : map.cellCount = map.grid.cellCount)
    (hl : (MapLayout.solve area v.showLegend).valid = true) (hg : map.grid.valid = true)
    (fb : Framebuffer) :
    ∃ fb₁, fb.Confined fb₁ (fun _ y => 0 < (MapLayout.solve area v.showLegend).legend.w ∧
        (MapLayout.solve area v.showLegend).legend.y = y) ∧
      fb₁.Paints (v.draw fb area map regions nowMs) fun x y =>
        if (MapLayout.solve area v.showLegend).cells.y ≤ y ∧
            y < (MapLayout.solve area v.showLegend).cells.y +
              (min (v.displayRows map.grid)
                (MapLayout.solve area v.showLegend).cells.h.toNat : Nat) then
          v.rowAt map regions nowMs (MapLayout.solve area v.showLegend)
            (min map.grid.cols (MapLayout.solve area v.showLegend).cells.w.toNat)
            (y - (MapLayout.solve area v.showLegend).cells.y : Int).toNat x y
        else none := by
  refine ⟨_, v.drawLegend_confined fb (MapLayout.solve area v.showLegend).legend map.grid, ?_⟩
  unfold draw
  dsimp only
  rw [if_neg (by simp [hl]), if_neg (by simp [hg])]
  refine drawRows_paints (fun row hrow col hcol => ?_) _
  rw [hmap]
  exact lt_of_displayRows (lt_of_lt_of_le hrow (min_le_left ..))
    (lt_of_lt_of_le hcol (min_le_left ..))

theorem draw_sameFront (hmap : map.cellCount = map.grid.cellCount)
    (hl : (MapLayout.solve area v.showLegend).valid = true) (hg : map.grid.valid = true) :
    fb.SameFront (v.draw fb area map regions nowMs) := by
  obtain ⟨fb₁, hlegend, hrows⟩ := draw_paints v regions nowMs hmap hl hg fb
  exact hlegend.toSameFront.trans hrows.toSameFront

/-- In a drawn row the back buffer has what the row has for the character. -/
theorem draw_atBack (hmap : map.cellCount = map.grid.cellCount)
    (hl : (MapLayout.solve area v.showLegend).valid = true) (hg : map.grid.valid = true)
    {row px py : Nat} {c : Cell} (hrow : row < v.displayRows map.grid)
    (hh : (row : Int) < (MapLayout.solve area v.showLegend).cells.h)
    (hx : px < fb.w) (hy : py < fb.h)
    (hc : v.rowAt map regions nowMs (MapLayout.solve area v.showLegend)
      (min map.grid.cols (MapLayout.solve area v.showLegend).cells.w.toNat) row px py = some c) :
    (v.draw fb area map regions nowMs).atBack px py = c := by
  obtain ⟨fb₁, hlegend, hrows⟩ := draw_paints v regions nowMs hmap hl hg fb
  have hrowy := rowAt_row hc
  rw [hrows.back px py (hlegend.w ▸ hx) (hlegend.h ▸ hy), if_pos (by omega)]
  have hback : (py - (MapLayout.solve area v.showLegend).cells.y : Int).toNat = row := by omega
  rw [hback, hc]
  rfl

theorem charPos_eq_some {l : MapLayout} {g : Grid} :
    v.charPos fb l g i = some (x, y) ↔
      (v.displayRow g i : Int) < l.cells.h ∧ (g.colOf i : Int) < l.cells.w ∧
        fb.contains x y = true ∧ x = l.cells.x + g.colOf i ∧ y = l.cells.y + v.displayRow g i := by
  unfold charPos
  dsimp only
  split_ifs with hclipped hin
  · constructor
    · intro h
      cases h
    · rintro ⟨hrow, hcol, -⟩
      omega
  · constructor
    · intro h
      obtain ⟨rfl, rfl⟩ := Prod.mk.inj (Option.some.inj h)
      exact ⟨by omega, by omega, hin, rfl, rfl⟩
    · rintro ⟨-, -, -, rfl, rfl⟩
      rfl
  · constructor
    · intro h
      cases h
    · rintro ⟨-, -, hon, rfl, rfl⟩
      exact absurd hon hin

theorem charPos_congr (h : fb.SameFront fb') (l : MapLayout) (g : Grid) (i : Nat) :
    v.charPos fb' l g i = v.charPos fb l g i := by
  unfold charPos Framebuffer.contains
  rw [h.w, h.h]

/-- The first cell of the character a cell is shown in. -/
def firstOf (v : MapPainter Lab) (g : Grid) (i : Nat) : Nat :=
  v.logicalRow (v.displayRow g i) * g.cols + g.colOf i

theorem displayRow_lt {g : Grid} (hi : i < g.cellCount) : v.displayRow g i < v.displayRows g := by
  have hrow : g.rowOf i < g.rows := by
    rw [Grid.rowOf, if_neg (Grid.cols_pos hi).ne']
    exact Nat.div_lt_of_lt_mul hi
  unfold displayRow displayRows
  split_ifs <;> omega

theorem colOf_lt {g : Grid} (hi : i < g.cellCount) : g.colOf i < g.cols := by
  rw [Grid.colOf, if_neg (Grid.cols_pos hi).ne']
  exact Nat.mod_lt _ (Grid.cols_pos hi)

/-- Every cell that has a place on the framebuffer is drawn there. -/
theorem draw_char (hmap : map.cellCount = map.grid.cellCount)
    (hl : (MapLayout.solve area v.showLegend).valid = true) (hg : map.grid.valid = true)
    (hi : i < map.cellCount)
    (hpos : v.charPos fb (MapLayout.solve area v.showLegend) map.grid i = some (x, y)) :
    (v.draw fb area map regions nowMs).atBack x.toNat y.toNat =
      v.charOf map nowMs (v.firstOf map.grid i) := by
  obtain ⟨hrow, hcol, hon, hx, hy⟩ := charPos_eq_some.mp hpos
  obtain ⟨hx0, hy0, hxw, hyh⟩ := Framebuffer.contains_iff.mp hon
  have hlt := colOf_lt (hmap ▸ hi)
  refine draw_atBack hmap hl hg (displayRow_lt (v := v) (hmap ▸ hi)) hrow (by omega) (by omega) ?_
  have hcell : (x.toNat - (MapLayout.solve area v.showLegend).cells.x : Int).toNat =
      map.grid.colOf i := by omega
  rw [rowAt, if_pos ⟨by omega, by omega, by omega⟩, hcell]
  rfl

/-- A gutter column that the label reaches has the colour of the row. -/
theorem draw_label (hmap : map.cellCount = map.grid.cellCount)
    (hl : (MapLayout.solve area v.showLegend).valid = true) (hg : map.grid.valid = true)
    {row k : Nat} (hrow : row < v.displayRows map.grid)
    (hh : (row : Int) < (MapLayout.solve area v.showLegend).cells.h)
    (hgutter : 0 ≤ (MapLayout.solve area v.showLegend).gutterX) {label : List Nat} {ink : Nat}
    (hlabel : v.rowLabel regions (map.grid.offsetOfRow (v.logicalRow row))
      (map.grid.cellBytes * map.grid.cols % 2 ^ 64) = (label, ink))
    (hk : k < (decodeText label).length) (hwidth : (k : Int) < kGutterWidth)
    (hon : fb.contains ((MapLayout.solve area v.showLegend).gutterX + k)
      ((MapLayout.solve area v.showLegend).cells.y + row) = true) :
    ((v.draw fb area map regions nowMs).atBack
      ((MapLayout.solve area v.showLegend).gutterX + k).toNat
      ((MapLayout.solve area v.showLegend).cells.y + row).toNat).fg = ink := by
  have hcells := MapLayout.solve_gutter hgutter
  obtain ⟨hx0, hy0, hxw, hyh⟩ := Framebuffer.contains_iff.mp hon
  rw [draw_atBack hmap hl hg hrow hh (by omega) (by omega)
    (c := ⟨(decodeText label)[k], ink, v.style.bg, 0⟩)]
  rw [rowAt, if_neg (by omega), Option.none_or, gutterAt, if_pos hgutter, hlabel]
  have hcol : (((MapLayout.solve area v.showLegend).gutterX + k).toNat -
      (MapLayout.solve area v.showLegend).gutterX : Int).toNat = k := by omega
  dsimp only
  rw [DrawCall.cellAt, if_pos ⟨by omega, by omega⟩, hcol, List.getElem?_eq_getElem hk]
  rfl

end Drawn

/-! ## The cursor over it -/

section CursorOver

variable {fb : Framebuffer} {area : Rect} {map : HeatMap} {cur : MapCursor} {x y : Int}

theorem tintGutter_confined (ty : Int) (left : Nat) (gx : Int) (fb : Framebuffer) :
    fb.Confined (v.tintGutter ty left gx fb) fun x y => ty = y ∧ gx ≤ x ∧ x < gx + left := by
  induction left generalizing gx fb with
  | zero => exact .refl fb
  | succ left ih =>
      unfold tintGutter
      split
      · exact .refl fb
      · have hput : fb.Confined
            (fb.put gx ty { fb.atBack gx.toNat ty.toNat with fg := v.style.cursor })
            fun x y => ty = y ∧ gx ≤ x ∧ x < gx + (left + 1 : Nat) :=
          .put (fun x y hx hy => ⟨hy, by omega, by omega⟩) _
        have hrest := ih (gx + 1)
          (fb.put gx ty { fb.atBack gx.toNat ty.toNat with fg := v.style.cursor })
        exact hput.trans ⟨hrest.toSameFront, fun x y hx hy hout =>
          hrest.rest x y hx hy fun hin => hout ⟨hin.1, by omega, by omega⟩⟩

/-- Before the gutter: the character with the highlight. -/
def highlighted (v : MapPainter Lab) (fb : Framebuffer) (x y : Int) : Framebuffer :=
  fb.put x y
    { fb.atBack x.toNat y.toNat with
      bg := v.style.cursor
      attrs := (fb.atBack x.toNat y.toNat).attrs ||| kAttrBold }

theorem drawCursor_eq (hl : (MapLayout.solve area v.showLegend).valid = true)
    (hg : map.grid.valid = true)
    (hpos : v.charPos fb (MapLayout.solve area v.showLegend) map.grid (cur.index map.grid) =
      some (x, y)) :
    v.drawCursor fb area map cur =
      if (MapLayout.solve area v.showLegend).gutterX ≥ 0 then
        v.tintGutter y kGutterWidth.toNat (MapLayout.solve area v.showLegend).gutterX
          (v.highlighted fb x y)
      else v.highlighted fb x y := by
  unfold drawCursor
  dsimp only
  rw [if_neg (by simp [hl, hg]), hpos]
  rfl

/-- The cursor leaves every character of the map alone but its own, and gives that
one its background and a bold face. -/
theorem drawCursor_atBack (hl : (MapLayout.solve area v.showLegend).valid = true)
    (hg : map.grid.valid = true)
    (hpos : v.charPos fb (MapLayout.solve area v.showLegend) map.grid (cur.index map.grid) =
      some (x, y)) {px py : Nat} (hx : px < fb.w) (hy : py < fb.h)
    (hcells : (MapLayout.solve area v.showLegend).cells.x ≤ px) :
    (v.drawCursor fb area map cur).atBack px py =
      if x = px ∧ y = py then
        { fb.atBack px py with
          bg := v.style.cursor
          attrs := (fb.atBack px py).attrs ||| kAttrBold }
      else fb.atBack px py := by
  have hput : (v.highlighted fb x y).atBack px py =
      if x = px ∧ y = py then
        { fb.atBack px py with
          bg := v.style.cursor
          attrs := (fb.atBack px py).attrs ||| kAttrBold }
      else fb.atBack px py := by
    rw [highlighted, Framebuffer.put_atBack fb x y _ hx hy]
    split_ifs with hhere
    · rw [hhere.1, hhere.2]
      rfl
    · rfl
  rw [drawCursor_eq hl hg hpos, ← hput]
  split_ifs with hgutter
  · have hsame := fb.put_sameFront x y
      { fb.atBack x.toNat y.toNat with
        bg := v.style.cursor
        attrs := (fb.atBack x.toNat y.toNat).attrs ||| kAttrBold }
    have hcol := MapLayout.solve_gutter hgutter
    refine (tintGutter_confined y kGutterWidth.toNat _ _).rest px py (hsame.w ▸ hx)
      (hsame.h ▸ hy) ?_
    rintro ⟨-, -, hin⟩
    unfold kGutterWidth at hin hcol
    omega
  · rfl

end CursorOver

end MapPainter

end Heapviz
