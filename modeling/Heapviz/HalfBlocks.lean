import Heapviz.MapDraw

/-!
# Two cells in one character

With half blocks on, the cells of two logical rows share a row of characters:
the upper one is the foreground of its character, the lower one the
background. `draw` and `draw_leaks` agree on this (`draw_half`,
`drawLeak_half`). `draw_cursor` takes the background whichever of the two the
cursor is on, so that both look alike under it, and the one below the cursor's
cell loses its colour (`half_block_cursor`).
-/

namespace Heapviz

/-! ## Cells that share a character -/

namespace Grid

variable {g : Grid} {i j : Nat}

/-- The two cells are shown in one character. -/
def SameChar (g : Grid) (i j : Nat) : Prop :=
  g.rowOf i / 2 = g.rowOf j / 2 ∧ g.colOf i = g.colOf j

theorem rowOf_mul_add_colOf (hcols : 0 < g.cols) (i : Nat) :
    g.rowOf i * g.cols + g.colOf i = i := by
  rw [rowOf, colOf, if_neg hcols.ne', if_neg hcols.ne', Nat.mul_comm]
  exact Nat.div_add_mod i g.cols

theorem eq_of_rowOf_colOf (hcols : 0 < g.cols) (hrow : g.rowOf i = g.rowOf j)
    (hcol : g.colOf i = g.colOf j) : i = j := by
  rw [← rowOf_mul_add_colOf hcols i, hrow, hcol]
  exact rowOf_mul_add_colOf hcols j

theorem rowOf_add_cols (hcols : 0 < g.cols) (i : Nat) : g.rowOf (i + g.cols) = g.rowOf i + 1 := by
  rw [rowOf, rowOf, if_neg hcols.ne', if_neg hcols.ne']
  exact Nat.add_div_right i hcols

theorem colOf_add_cols (g : Grid) (i : Nat) : g.colOf (i + g.cols) = g.colOf i := by
  unfold colOf
  rw [Nat.add_mod_right]

theorem SameChar.symm (h : g.SameChar i j) : g.SameChar j i := ⟨h.1.symm, h.2.symm⟩

/-- One of the two is the upper one. -/
theorem SameChar.parity (hcols : 0 < g.cols) (h : g.SameChar i j) (hne : i ≠ j) :
    g.rowOf i % 2 = 1 ↔ g.rowOf j % 2 = 0 := by
  obtain ⟨hrow, hcol⟩ := h
  have hdiff : g.rowOf i ≠ g.rowOf j := fun hsame => hne (eq_of_rowOf_colOf hcols hsame hcol)
  omega

/-- The lower cell of a character is one row below the upper one. -/
theorem SameChar.below (hcols : 0 < g.cols) (h : g.SameChar i j) (hne : i ≠ j)
    (heven : g.rowOf i % 2 = 0) : j = i + g.cols := by
  have hparity := h.parity hcols hne
  have hrow := h.1
  refine eq_of_rowOf_colOf hcols ?_ ?_
  · rw [rowOf_add_cols hcols]
    omega
  · rw [colOf_add_cols, h.2]

end Grid

namespace MapPainter

variable {Lab : Type} {v : MapPainter Lab} {fb : Framebuffer} {area : Rect} {map : HeatMap}
  {regions : Option RegionMap} {nowMs i j : Nat} {x y : Int} {c d : MapCursor}

/-! ## What a frame shows -/

/-- The colour of the half that shows the cell. -/
def halfOf (g : Grid) (i : Nat) (c : Cell) : Nat := if g.rowOf i % 2 = 1 then c.bg else c.fg

/-- The map, and the cursor over it. -/
def frame (v : MapPainter Lab) (fb : Framebuffer) (area : Rect) (map : HeatMap)
    (regions : Option RegionMap) (nowMs : Nat) (cur : MapCursor) : Framebuffer :=
  v.drawCursor (v.draw fb area map regions nowMs) area map cur

/-- A cell of the map that has a place on the framebuffer. -/
structure Visible (v : MapPainter Lab) (fb : Framebuffer) (area : Rect) (map : HeatMap) (i : Nat) :
    Prop where
  layout : (MapLayout.solve area v.showLegend).valid = true
  grid : map.grid.valid = true
  cell : i < map.cellCount
  placed : (v.charPos fb (MapLayout.solve area v.showLegend) map.grid i).isSome = true

/-- The cursor has a colour of its own. -/
structure CursorApart (v : MapPainter Lab) (map : HeatMap) (nowMs : Nat) : Prop where
  cells : ∀ i < map.cellCount, v.colorOf (map.at i) map.grid.cellBytes nowMs ≠ v.style.cursor
  bg : v.style.bg ≠ v.style.cursor

/-- The half that shows another cell than the cursor's is as the map was drawn. -/
def KeepsOther (v : MapPainter Lab) (fb : Framebuffer) (area : Rect) (map : HeatMap)
    (regions : Option RegionMap) (nowMs : Nat) (cur : MapCursor) : Prop :=
  ∀ j < map.cellCount, j ≠ cur.index map.grid → map.grid.SameChar (cur.index map.grid) j →
    ∀ x y, v.charPos fb (MapLayout.solve area v.showLegend) map.grid j = some (x, y) →
      halfOf map.grid j ((v.frame fb area map regions nowMs cur).atBack x.toNat y.toNat) =
        halfOf map.grid j ((v.draw fb area map regions nowMs).atBack x.toNat y.toNat)

/-- The cell is the lower one of its character, or the only one. -/
def Lowest (map : HeatMap) (i : Nat) : Prop :=
  map.grid.rowOf i % 2 = 1 ∨ map.cellCount ≤ i + map.grid.cols

/-! ## The map and the overlay -/

theorem charPos_sameChar (hhalf : v.halfBlock = true) {g : Grid} (h : g.SameChar i j)
    (fb : Framebuffer) (l : MapLayout) : v.charPos fb l g i = v.charPos fb l g j := by
  unfold charPos displayRow
  rw [if_pos hhalf, if_pos hhalf, h.1, h.2]

/-- The upper cell is the first of its character. -/
theorem firstOf_even (hhalf : v.halfBlock = true) {g : Grid} (hcols : 0 < g.cols)
    (heven : g.rowOf i % 2 = 0) : v.firstOf g i = i := by
  unfold firstOf logicalRow displayRow
  rw [if_pos hhalf, if_pos hhalf, Nat.div_mul_cancel (Nat.dvd_of_mod_eq_zero heven)]
  exact Grid.rowOf_mul_add_colOf hcols i

theorem firstOf_odd (hhalf : v.halfBlock = true) {g : Grid} (hcols : 0 < g.cols)
    (hodd : g.rowOf i % 2 = 1) : v.firstOf g i + g.cols = i := by
  have hrow : g.rowOf i / 2 * 2 + 1 = g.rowOf i := by omega
  unfold firstOf logicalRow displayRow
  rw [if_pos hhalf, if_pos hhalf]
  calc g.rowOf i / 2 * 2 * g.cols + g.colOf i + g.cols
      = (g.rowOf i / 2 * 2 + 1) * g.cols + g.colOf i := by rw [Nat.succ_mul]; omega
    _ = i := by rw [hrow]; exact Grid.rowOf_mul_add_colOf hcols i

theorem charOf_half (hhalf : v.halfBlock = true) (map : HeatMap) (nowMs i : Nat) :
    v.charOf map nowMs i =
      ⟨v.glyphs.half, v.colorOf (map.at i) map.grid.cellBytes nowMs,
        if i + map.grid.cols < map.cellCount then
          v.colorOf (map.at (i + map.grid.cols)) map.grid.cellBytes nowMs
        else v.style.bg, 0⟩ :=
  if_neg (by simp [hhalf])

/-- The half of a cell is drawn in its colour. -/
theorem draw_half (hhalf : v.halfBlock = true) (hmap : map.cellCount = map.grid.cellCount)
    (hi : v.Visible fb area map i)
    (hpos : v.charPos fb (MapLayout.solve area v.showLegend) map.grid i = some (x, y)) :
    halfOf map.grid i ((v.draw fb area map regions nowMs).atBack x.toNat y.toNat) =
      v.colorOf (map.at i) map.grid.cellBytes nowMs := by
  have hcols := Grid.cols_pos (hmap ▸ hi.cell)
  rw [draw_char hmap hi.layout hi.grid hi.cell hpos, charOf_half hhalf]
  unfold halfOf
  by_cases hodd : map.grid.rowOf i % 2 = 1
  · rw [if_pos hodd]
    dsimp only
    rw [firstOf_odd hhalf hcols hodd, if_pos hi.cell]
  · rw [if_neg hodd, firstOf_even hhalf hcols (by omega)]

/-- A leak candidate colours its own half and leaves the other one. -/
theorem drawLeak_half (hhalf : v.halfBlock = true) {l : MapLayout} (hi : i < map.cellCount)
    (hcols : 0 < map.grid.cols) (hpos : v.charPos fb l map.grid i = some (x, y)) :
    halfOf map.grid i ((v.drawLeak l map fb i).atBack x.toNat y.toNat) = v.style.leak ∧
      ∀ j, j ≠ i → map.grid.SameChar i j →
        halfOf map.grid j ((v.drawLeak l map fb i).atBack x.toNat y.toNat) =
          halfOf map.grid j (fb.atBack x.toNat y.toNat) := by
  obtain ⟨-, -, hon, -, -⟩ := charPos_eq_some.mp hpos
  have hdrawn : v.drawLeak l map fb i = fb.put x y
      (if v.halfBlock = true ∧ map.grid.rowOf i % 2 ≠ 0 then
        { fb.atBack x.toNat y.toNat with bg := v.style.leak }
      else { fb.atBack x.toNat y.toNat with fg := v.style.leak }) := by
    rw [drawLeak, if_neg (by omega), hpos]
  rw [hdrawn, Framebuffer.put_atBack_self hon]
  by_cases hodd : map.grid.rowOf i % 2 = 1
  · have hlower : v.halfBlock = true ∧ map.grid.rowOf i % 2 ≠ 0 := ⟨hhalf, by omega⟩
    rw [if_pos hlower]
    unfold halfOf
    rw [if_pos hodd]
    refine ⟨rfl, fun j hj hsame => ?_⟩
    have hparity := hsame.parity hcols hj.symm
    have heven : ¬ map.grid.rowOf j % 2 = 1 := by omega
    rw [if_neg heven]
    exact (if_neg heven).symm
  · have hupper : ¬ (v.halfBlock = true ∧ map.grid.rowOf i % 2 ≠ 0) := fun h => h.2 (by omega)
    rw [if_neg hupper]
    unfold halfOf
    rw [if_neg hodd]
    refine ⟨rfl, fun j hj hsame => ?_⟩
    have hparity := hsame.parity hcols hj.symm
    have hodd' : map.grid.rowOf j % 2 = 1 := by omega
    rw [if_pos hodd']
    exact (if_pos hodd').symm

/-! ## The cells of the view -/

/-- The colour a cell is shown in. -/
def shownColor (v : MapPainter Lab) (g : Grid) (i : Nat) (c : Cell) : Nat :=
  if v.halfBlock then halfOf g i c else c.fg

/-- Every cell is the first of its character, or with half blocks the one below. -/
theorem eq_firstOf_or (v : MapPainter Lab) {g : Grid} (hcols : 0 < g.cols) (i : Nat) :
    i = v.firstOf g i ∨ (v.halfBlock = true ∧ i = v.firstOf g i + g.cols) := by
  cases hhalf : v.halfBlock with
  | false =>
      left
      unfold firstOf logicalRow displayRow
      rw [if_neg (by simp [hhalf]), if_neg (by simp [hhalf])]
      exact (Grid.rowOf_mul_add_colOf hcols i).symm
  | true =>
      by_cases hodd : g.rowOf i % 2 = 1
      · exact .inr ⟨rfl, (firstOf_odd hhalf hcols hodd).symm⟩
      · exact .inl (firstOf_even hhalf hcols (by omega)).symm

/-- Where the cells of a character are. -/
theorem displayRow_logicalRow {g : Grid} {col : Nat} (row : Nat) (hcol : col < g.cols) :
    v.displayRow g (v.logicalRow row * g.cols + col) = row ∧
      g.colOf (v.logicalRow row * g.cols + col) = col ∧
      (v.halfBlock = true → v.displayRow g (v.logicalRow row * g.cols + col + g.cols) = row) := by
  have hcols : 0 < g.cols := Nat.zero_lt_of_lt hcol
  have hrow : g.rowOf (v.logicalRow row * g.cols + col) = v.logicalRow row := by
    rw [Grid.rowOf, if_neg hcols.ne', Nat.mul_comm, Nat.mul_add_div hcols,
      Nat.div_eq_of_lt hcol, Nat.add_zero]
  refine ⟨?_, ?_, fun hhalf => ?_⟩
  · unfold displayRow
    rw [hrow]
    unfold logicalRow
    split_ifs <;> omega
  · rw [Grid.colOf, if_neg hcols.ne', Nat.mul_add_mod', Nat.mod_eq_of_lt hcol]
  · unfold displayRow
    rw [Grid.rowOf_add_cols hcols, hrow]
    unfold logicalRow
    rw [if_pos hhalf, if_pos hhalf]
    omega

/-- The cells the view paints are the cells with a place in the layout. -/
theorem mem_visible (hmap : map.cellCount = map.grid.cellCount)
    (hl : (MapLayout.solve area v.showLegend).valid = true) (hg : map.grid.valid = true) :
    i ∈ v.visible area map ↔ i < map.cellCount ∧
      (v.displayRow map.grid i : Int) < (MapLayout.solve area v.showLegend).cells.h ∧
      (map.grid.colOf i : Int) < (MapLayout.solve area v.showLegend).cells.w := by
  have hroom : mapLayout area v.showLegend = some (MapLayout.solve area v.showLegend).cells := by
    rw [MapLayout.solve_cells, if_pos hl]
  have horder : ∀ j, j ∈ (List.range (min (v.displayRows map.grid)
        (MapLayout.solve area v.showLegend).cells.h.toNat)).flatMap (fun row =>
      (List.range (min map.grid.cols (MapLayout.solve area v.showLegend).cells.w.toNat)).map
        fun col => v.logicalRow row * map.grid.cols + col) ↔
      ∃ row < min (v.displayRows map.grid) (MapLayout.solve area v.showLegend).cells.h.toNat,
        ∃ col < min map.grid.cols (MapLayout.solve area v.showLegend).cells.w.toNat,
          v.logicalRow row * map.grid.cols + col = j := by
    intro j
    simp only [List.mem_flatMap, List.mem_map, List.mem_range]
  unfold MapView.visible
  rw [hroom]
  dsimp only
  rw [if_neg (by simp [hg]), List.takeWhile_eq_self_iff.mpr, List.mem_flatMap]
  · constructor
    · rintro ⟨j, hj, hi⟩
      obtain ⟨row, hrow, col, hcol, rfl⟩ := (horder j).mp hj
      have hcol' : col < map.grid.cols := by omega
      obtain ⟨hdisplay, hcolOf, hbelow⟩ := displayRow_logicalRow (v := v) row hcol'
      by_cases hpair : v.halfBlock = true ∧
          v.logicalRow row * map.grid.cols + col + map.grid.cols < map.cellCount
      · rw [if_pos hpair] at hi
        rcases List.mem_pair.mp hi with rfl | rfl
        · exact ⟨by omega, by omega, by omega⟩
        · have hrow' := hbelow hpair.1
          rw [Grid.colOf_add_cols]
          exact ⟨hpair.2, by omega, by omega⟩
      · rw [if_neg hpair] at hi
        rw [List.mem_singleton.mp hi]
        have hin : v.logicalRow row * map.grid.cols + col < map.grid.cellCount :=
          lt_of_displayRows (by omega) (by omega)
        exact ⟨hmap ▸ hin, by omega, by omega⟩
    · rintro ⟨hi, hrow, hcol⟩
      have hrows := displayRow_lt (v := v) (hmap ▸ hi)
      have hcols := colOf_lt (hmap ▸ hi)
      refine ⟨v.firstOf map.grid i, (horder _).mpr ⟨v.displayRow map.grid i, by omega,
        map.grid.colOf i, by omega, rfl⟩, ?_⟩
      rcases eq_firstOf_or v (Nat.zero_lt_of_lt hcols) i with hfirst | ⟨hhalf, hsecond⟩
      · split_ifs
        · exact List.mem_pair.mpr (.inl hfirst)
        · exact List.mem_singleton.mpr hfirst
      · rw [if_pos ⟨hhalf, by omega⟩]
        exact List.mem_pair.mpr (.inr hsecond)
  · intro j hj
    obtain ⟨row, hrow, col, hcol, rfl⟩ := (horder j).mp hj
    rw [decide_eq_true_eq, hmap]
    exact lt_of_displayRows (by omega) (by omega)

/-- What the view paints is what the framebuffer shows, as far as it reaches. -/
theorem draw_shows (hmap : map.cellCount = map.grid.cellCount)
    (hl : (MapLayout.solve area v.showLegend).valid = true) (hg : map.grid.valid = true)
    {colour : Nat} (hi : (i, colour) ∈ v.toMapView.draw area map nowMs)
    (hon : v.charPos fb (MapLayout.solve area v.showLegend) map.grid i = some (x, y)) :
    v.shownColor map.grid i ((v.draw fb area map regions nowMs).atBack x.toNat y.toNat) =
      colour := by
  obtain ⟨j, hj, hcell⟩ := List.mem_map.mp hi
  obtain ⟨rfl, rfl⟩ := Prod.mk.inj hcell
  obtain ⟨hlt, -, -⟩ := (mem_visible hmap hl hg).mp hj
  have hat : map.at j = map.cells j := if_pos hlt
  unfold shownColor
  cases hhalf : v.halfBlock with
  | true =>
      rw [if_pos rfl, draw_half hhalf hmap ⟨hl, hg, hlt, by rw [hon]; rfl⟩ hon, hat]
  | false =>
      have hfirst := (eq_firstOf_or v (Grid.cols_pos (hmap ▸ hlt)) j).resolve_right
        fun h => absurd (hhalf.symm.trans h.1) (by decide)
      rw [if_neg Bool.false_ne_true, draw_char hmap hl hg hlt hon, ← hfirst]
      unfold charOf
      dsimp only
      rw [if_pos hhalf, hat]

/-! ## The cursor -/

section Cursor

/-- Of the cursor's cell only the character counts. -/
theorem drawCursor_sameChar (hhalf : v.halfBlock = true)
    (h : map.grid.SameChar (c.index map.grid) (d.index map.grid)) (fb : Framebuffer) :
    v.drawCursor fb area map c = v.drawCursor fb area map d := by
  unfold drawCursor
  dsimp only
  rw [charPos_sameChar hhalf h]

/-- What a frame has for the character of a visible cell. -/
theorem frame_atBack (regions : Option RegionMap) (nowMs : Nat)
    (hmap : map.cellCount = map.grid.cellCount)
    (hc : v.Visible fb area map (c.index map.grid)) {cx cy : Int}
    (hcpos : v.charPos fb (MapLayout.solve area v.showLegend) map.grid (c.index map.grid) =
      some (cx, cy))
    (hi : v.Visible fb area map i)
    (hpos : v.charPos fb (MapLayout.solve area v.showLegend) map.grid i = some (x, y)) :
    (v.frame fb area map regions nowMs c).atBack x.toNat y.toNat =
      if cx = x ∧ cy = y then
        { v.charOf map nowMs (v.firstOf map.grid i) with
          bg := v.style.cursor
          attrs := (v.charOf map nowMs (v.firstOf map.grid i)).attrs ||| kAttrBold }
      else v.charOf map nowMs (v.firstOf map.grid i) := by
  have hsame : fb.SameFront (v.draw fb area map regions nowMs) :=
    draw_sameFront hmap hc.layout hc.grid
  obtain ⟨-, -, hon, hx, hy⟩ := charPos_eq_some.mp hpos
  obtain ⟨hx0, hy0, hxw, hyh⟩ := Framebuffer.contains_iff.mp hon
  rw [frame, drawCursor_atBack hc.layout hc.grid ((charPos_congr hsame _ _ _).trans hcpos)
    (by rw [hsame.w]; omega) (by rw [hsame.h]; omega) (by omega),
    draw_char hmap hi.layout hi.grid hi.cell hpos, Int.toNat_of_nonneg hx0,
    Int.toNat_of_nonneg hy0]

/-- Under the cursor the map is drawn alike for two cells exactly if they share
their character. -/
theorem frame_eq_iff (regions : Option RegionMap) (nowMs : Nat) (hhalf : v.halfBlock = true)
    (hmap : map.cellCount = map.grid.cellCount)
    (hc : v.Visible fb area map (c.index map.grid))
    (hd : v.Visible fb area map (d.index map.grid)) :
    v.frame fb area map regions nowMs c = v.frame fb area map regions nowMs d ↔
      map.grid.SameChar (c.index map.grid) (d.index map.grid) := by
  refine ⟨fun hsame => ?_, fun h => drawCursor_sameChar hhalf h _⟩
  obtain ⟨⟨cx, cy⟩, hcpos⟩ := Option.isSome_iff_exists.mp hc.placed
  obtain ⟨⟨dx, dy⟩, hdpos⟩ := Option.isSome_iff_exists.mp hd.placed
  have hatc := frame_atBack regions nowMs hmap hc hcpos hc hcpos
  rw [if_pos ⟨rfl, rfl⟩, hsame, frame_atBack regions nowMs hmap hd hdpos hc hcpos,
    charOf_half hhalf] at hatc
  by_cases hhere : dx = cx ∧ dy = cy
  · obtain ⟨-, -, -, hcx, hcy⟩ := charPos_eq_some.mp hcpos
    obtain ⟨-, -, -, hdx, hdy⟩ := charPos_eq_some.mp hdpos
    unfold displayRow at hcy hdy
    rw [if_pos hhalf] at hcy hdy
    exact ⟨by omega, by omega⟩
  · -- without the cursor the face is not bold
    rw [if_neg hhere] at hatc
    have hface : 0 = 0 ||| kAttrBold := congrArg Cell.attrs hatc
    exact absurd hface (by decide)

/-- The other half is kept exactly where the cursor's cell is the lowest of its
character. -/
theorem keepsOther_iff (hhalf : v.halfBlock = true) (hmap : map.cellCount = map.grid.cellCount)
    (hapart : v.CursorApart map nowMs) (hc : v.Visible fb area map (c.index map.grid)) :
    v.KeepsOther fb area map regions nowMs c ↔ Lowest map (c.index map.grid) := by
  have hcols := Grid.cols_pos (hmap ▸ hc.cell)
  obtain ⟨⟨cx, cy⟩, hcpos⟩ := Option.isSome_iff_exists.mp hc.placed
  constructor
  · intro hkeeps
    by_contra hlow
    obtain ⟨hodd, hbelow⟩ := not_or.mp hlow
    -- the cell below is the other one, and its half is the background
    have hrow := Grid.rowOf_add_cols hcols (c.index map.grid)
    have hsame : map.grid.SameChar (c.index map.grid) (c.index map.grid + map.grid.cols) :=
      ⟨by omega, (Grid.colOf_add_cols _ _).symm⟩
    have hpos := (charPos_sameChar hhalf hsame fb _).symm.trans hcpos
    have hother : v.Visible fb area map (c.index map.grid + map.grid.cols) :=
      ⟨hc.layout, hc.grid, by omega, by rw [hpos]; rfl⟩
    have hhalves := hkeeps _ hother.cell (by omega) hsame cx cy hpos
    rw [draw_half hhalf hmap hother hpos, frame_atBack regions nowMs hmap hc hcpos hother hpos,
      if_pos ⟨rfl, rfl⟩, halfOf, if_pos (by omega)] at hhalves
    exact hapart.cells _ hother.cell hhalves.symm
  · intro hlow j hj hne hsame x y hpos
    have hposc := (charPos_sameChar hhalf hsame fb _).trans hpos
    have hother : v.Visible fb area map j := ⟨hc.layout, hc.grid, hj, by rw [hpos]; rfl⟩
    -- the other cell is the upper one
    have hparity := hsame.parity hcols hne.symm
    have heven : ¬ map.grid.rowOf j % 2 = 1 := by
      rcases hlow with hodd | hbelow
      · omega
      · intro hodd'
        have hj' := hsame.below hcols hne.symm (by omega)
        omega
    rw [frame_atBack regions nowMs hmap hc hposc hother hpos, if_pos ⟨rfl, rfl⟩,
      draw_char hmap hc.layout hc.grid hj hpos, halfOf, halfOf, if_neg heven, if_neg heven]

end Cursor

/-- Two cursors on different visible cells give different frames, each with the
other half as the map was drawn, exactly if each of the cells is the lowest
of its character. The frames alone differ unless the cells share a
character. -/
theorem half_block_cursor (v : MapPainter Lab) (fb : Framebuffer) (area : Rect) (map : HeatMap)
    (regions : Option RegionMap) (nowMs : Nat) (hhalf : v.halfBlock = true)
    (hmap : map.cellCount = map.grid.cellCount) (hapart : v.CursorApart map nowMs)
    (c d : MapCursor) (hc : v.Visible fb area map (c.index map.grid))
    (hd : v.Visible fb area map (d.index map.grid))
    (hne : c.index map.grid ≠ d.index map.grid) :
    ((v.frame fb area map regions nowMs c ≠ v.frame fb area map regions nowMs d ∧
        v.KeepsOther fb area map regions nowMs c ∧ v.KeepsOther fb area map regions nowMs d) ↔
      Lowest map (c.index map.grid) ∧ Lowest map (d.index map.grid)) ∧
      (v.frame fb area map regions nowMs c = v.frame fb area map regions nowMs d ↔
        map.grid.SameChar (c.index map.grid) (d.index map.grid)) := by
  have hcols := Grid.cols_pos (hmap ▸ hc.cell)
  have hframes := frame_eq_iff regions nowMs hhalf hmap hc hd
  refine ⟨?_, hframes⟩
  rw [keepsOther_iff hhalf hmap hapart hc, keepsOther_iff hhalf hmap hapart hd, ne_eq, hframes]
  refine and_iff_right_of_imp fun ⟨hlowc, hlowd⟩ hsame => ?_
  -- of two cells that share a character the upper one has a cell below
  have hparity := hsame.parity hcols hne
  have hcin := hc.cell
  have hdin := hd.cell
  by_cases hodd : map.grid.rowOf (c.index map.grid) % 2 = 1
  · have hbelow := hsame.symm.below hcols hne.symm (by omega)
    have hlow := hlowd.resolve_left (by omega)
    omega
  · have hbelow := hsame.below hcols hne (by omega)
    have hlow := hlowc.resolve_left hodd
    omega

/-- A view with half blocks on. -/
def halfPainter : MapPainter Nat :=
  { toMapView := ⟨flatRamp, true, true, true⟩
    glyphs := .glyphsFor true
    palette := kDefaultPalette
    style := .default
    density := fun _ _ => .light }

/-- Four cells in two rows: two characters. -/
def fourCells : HeatMap := (HeatMap.init.configure (Grid.configure 0 256 2 2)).1

def twoChars : Framebuffer := (Framebuffer.init.resize 2 1).1

theorem fourCells_visible {i : Nat} (hi : i < 4) :
    halfPainter.Visible twoChars ⟨0, 0, 2, 1⟩ fourCells i := by
  refine ⟨by decide, by decide, hi, ?_⟩
  have hall : ∀ i < 4, (halfPainter.charPos twoChars
      (MapLayout.solve ⟨0, 0, 2, 1⟩ halfPainter.showLegend) fourCells.grid i).isSome = true := by
    decide
  exact hall i hi

theorem halfPainter_apart : halfPainter.CursorApart fourCells 0 :=
  ⟨by decide, by decide⟩

/-- The two lower cells. -/
theorem half_block_cursor_lower :
    halfPainter.frame twoChars ⟨0, 0, 2, 1⟩ fourCells none 0 ⟨128⟩ ≠
        halfPainter.frame twoChars ⟨0, 0, 2, 1⟩ fourCells none 0 ⟨192⟩ ∧
      halfPainter.KeepsOther twoChars ⟨0, 0, 2, 1⟩ fourCells none 0 ⟨128⟩ ∧
      halfPainter.KeepsOther twoChars ⟨0, 0, 2, 1⟩ fourCells none 0 ⟨192⟩ :=
  (half_block_cursor halfPainter twoChars ⟨0, 0, 2, 1⟩ fourCells none 0 rfl rfl
    halfPainter_apart ⟨128⟩ ⟨192⟩ (fourCells_visible (by decide)) (fourCells_visible (by decide))
    (by decide)).1.mpr ⟨.inl (by decide), .inl (by decide)⟩

/-- A cell and the one below it: one frame for both. -/
theorem half_block_cursor_shared :
    ¬ ∀ (v : MapPainter Nat) (fb : Framebuffer) (area : Rect) (map : HeatMap)
      (regions : Option RegionMap) (nowMs : Nat), v.halfBlock = true →
      map.cellCount = map.grid.cellCount → v.CursorApart map nowMs → ∀ c d : MapCursor,
      v.Visible fb area map (c.index map.grid) → v.Visible fb area map (d.index map.grid) →
      c.index map.grid ≠ d.index map.grid →
      v.frame fb area map regions nowMs c ≠ v.frame fb area map regions nowMs d ∧
        v.KeepsOther fb area map regions nowMs c ∧ v.KeepsOther fb area map regions nowMs d := by
  intro hall
  obtain ⟨hdiffer, -, -⟩ := hall halfPainter twoChars ⟨0, 0, 2, 1⟩ fourCells none 0 rfl rfl
    halfPainter_apart ⟨0⟩ ⟨128⟩ (fourCells_visible (by decide)) (fourCells_visible (by decide))
    (by decide)
  exact hdiffer (drawCursor_sameChar rfl ⟨by decide, by decide⟩ _)

end MapPainter

end Heapviz
