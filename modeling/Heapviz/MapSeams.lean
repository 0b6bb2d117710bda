import Heapviz.GridGeometry
import Heapviz.MapDraw
import Heapviz.RegionPack

/-!
# Seams in the gutter

Over packed regions the coordinate jumps where a region begins, and the gutter
marks the rows this happens in. `draw` decides by the span that holds the
row's first coordinate: a region that begins there is marked, one that
begins further along the row is not (`seams_marked`).
-/

namespace Heapviz

/-! ## Labels -/

theorem formatDec_ascii (n : Nat) : ∀ b ∈ formatDec n, b < 0x80 := by
  intro b hb
  obtain ⟨d, hd, rfl⟩ := List.mem_map.mp hb
  have hlt := Numerals.digits_lt (by decide) hd
  unfold decChar
  omega

theorem kUnits_ascii : ∀ unit ∈ kUnits, ∀ b ∈ unit, b < 0x80 := by decide

theorem scaledText_ascii {gap : List Nat} (hgap : ∀ b ∈ gap, b < 0x80) (bytes : Nat) :
    ∀ b ∈ scaledText gap bytes, b < 0x80 := by
  unfold scaledText
  obtain ⟨whole, tenths, unit⟩ := scaleBytes bytes
  dsimp only
  intro b hb
  rw [List.mem_append, List.mem_append, List.mem_append] at hb
  rcases hb with ((hwhole | htenths) | hbetween) | hunit
  · exact formatDec_ascii whole b hwhole
  · split_ifs at htenths with hzero
    · rcases List.mem_cons.mp htenths with rfl | htenths
      · decide
      · exact formatDec_ascii tenths b htenths
    · cases htenths
  · exact hgap b hbetween
  · rw [List.getD_eq_getElem?_getD] at hunit
    cases hget : kUnits[unit]? with
    | none =>
        rw [hget] at hunit
        cases hunit
    | some u =>
        rw [hget] at hunit
        exact kUnits_ascii u (List.mem_of_getElem? hget) b hunit

/-- A label fills the gutter. -/
theorem decodeText_formatOffset_length (offset : Nat) :
    ((decodeText (formatOffset offset)).length : Int) = kGutterWidth := by
  have hascii : ∀ b ∈ formatOffset offset, b < 0x80 := by
    intro b hb
    rcases List.mem_append.mp hb with hpad | hbody
    · rw [List.eq_of_mem_replicate hpad]
      decide
    · exact scaledText_ascii (fun b hb => by cases hb) offset b (List.mem_of_mem_take hbody)
  rw [decodeText_ascii hascii, formatOffset, List.length_append, List.length_replicate]
  have hbody := List.length_take_le kGutterWidth.toNat (scaledText [] offset)
  unfold kGutterWidth at hbody ⊢
  omega

/-! ## The layout and the grid -/

/-- A layout with a gutter has room for cells. -/
theorem MapLayout.valid_of_gutter {area : Rect} {showLegend : Bool}
    (h : 0 ≤ (MapLayout.solve area showLegend).gutterX) :
    (MapLayout.solve area showLegend).valid = true := by
  unfold MapLayout.solve at h ⊢
  by_cases hempty : area.w ≤ 0 ∨ area.h ≤ 0
  · rw [if_pos hempty] at h
    exact absurd h (by decide)
  · rw [if_neg hempty] at h ⊢
    dsimp only at h ⊢
    by_cases hgutter : area.w ≥ kGutterWidth + 1 + kMinMapCols
    · simp only [hgutter, decide_true, if_true, decide_eq_true_eq]
      unfold kGutterWidth kMinMapCols at *
      refine ⟨by omega, ?_⟩
      split_ifs with hlegend
      · omega
      · omega
    · simp [hgutter] at h

section Packed

variable {m : RegionMap} {regions : List Region} {coord rowBytes : Nat}

theorem layout_size_pos {s : Span} {flat : Nat} (h : s ∈ layout flat (keptRegions regions)) :
    0 < s.size := by
  obtain ⟨r, hr, hstart, hlimit⟩ := mem_of_layout h
  have hkept := (List.mem_filter.mp hr).2
  rw [Region.kept, Bool.and_eq_true, decide_eq_true_eq] at hkept
  have hsize : s.size = r.size := by rw [Span.size, Region.size, hstart, hlimit]
  omega

/-- A region begins at the coordinate. -/
def RegionMap.StartsAt (m : RegionMap) (coord : Nat) : Prop := ∃ s ∈ m.spans, s.flat = coord

instance : Decidable (m.StartsAt coord) := inferInstanceAs (Decidable (∃ s ∈ m.spans, _))

namespace MapPainter

variable {Lab : Type} {v : MapPainter Lab}

/-- The mark of a row that begins in a region: the region begins there, and the
row's end does not wrap. -/
theorem rowLabel_ink (v : MapPainter Lab) (m : RegionMap) (regions : List Region)
    (hcoord : coord < (m.rebuild regions).1.total) (hword : coord < 2 ^ 64)
    (hpos : 0 < rowBytes) (hbytes : rowBytes < 2 ^ 64) :
    ∃ offset, v.rowLabel (some (m.rebuild regions).1) coord rowBytes = (formatOffset offset,
      if (m.rebuild regions).1.StartsAt coord ∧ coord + rowBytes < 2 ^ 64 then v.style.warn
      else v.style.dim) := by
  have hasc := rebuild_ascending_flat m regions
  obtain ⟨s, hs, hlow, hhigh⟩ := (rebuild_cover m regions coord).mpr hcoord
  have hspan := (spanAtFlat_eq_some hasc).mpr ⟨hs, hlow, hhigh⟩
  refine ⟨sub64 coord s.flat, ?_⟩
  have hmark : (s.flat ≥ coord ∧ s.flat < add64 coord rowBytes) ↔
      (m.rebuild regions).1.StartsAt coord ∧ coord + rowBytes < 2 ^ 64 := by
    constructor
    · rintro ⟨hge, hlt⟩
      refine ⟨⟨s, hs, by omega⟩, ?_⟩
      unfold add64 at hlt
      omega
    · rintro ⟨⟨s', hs', rfl⟩, hfits⟩
      -- the region that begins here is the one that holds the coordinate
      have hsize : 0 < s'.size := by
        rw [rebuild_spans] at hs'
        exact layout_size_pos hs'
      have hspan' := (spanAtFlat_eq_some hasc).mpr ⟨hs', Nat.le_refl _, by omega⟩
      obtain rfl := Option.some.inj (hspan'.symm.trans hspan)
      refine ⟨Nat.le_refl _, ?_⟩
      rw [add64_of_lt hfits]
      omega
  rw [rowLabel, hspan]
  dsimp only
  rw [if_congr hmark rfl rfl]

end MapPainter

end Packed

/-! ## Rows with a seam -/

namespace MapPainter

variable {Lab : Type} {v : MapPainter Lab}

/-- A region begins in a cell of the row. -/
def SeamIn (v : MapPainter Lab) (m : RegionMap) (g : Grid) (row : Nat) : Prop :=
  ∃ s ∈ m.spans, ∃ i, g.indexOf s.flat = some i ∧ v.displayRow g i = row

/-- The first coordinate of a row. -/
def firstCoord (v : MapPainter Lab) (g : Grid) (row : Nat) : Nat :=
  v.logicalRow row * g.cols * g.cellBytes

/-- If a region begins in the row, one begins at its first coordinate, and the
logical row from there on fits the address space. A view that marks in the
colour of the other labels has every row marked. -/
def SeamFirst (v : MapPainter Lab) (m : RegionMap) (g : Grid) (row : Nat) : Prop :=
  if v.style.warn = v.style.dim then v.SeamIn m g row
  else
    v.SeamIn m g row →
      m.StartsAt (v.firstCoord g row) ∧ v.firstCoord g row + g.cellBytes * g.cols < 2 ^ 64

/-- A region that begins at the first coordinate of a row begins in the row. -/
theorem seamIn_of_startsAt {m : RegionMap} {limit : Nat} {cols rows : Int}
    (hgrid : Configurable 0 limit cols rows) {row : Nat}
    (hrow : row < v.displayRows (Grid.configure 0 limit cols rows))
    (h : m.StartsAt (v.firstCoord (Grid.configure 0 limit cols rows) row)) :
    v.SeamIn m (Grid.configure 0 limit cols rows) row := by
  obtain ⟨s, hs, hflat⟩ := h
  obtain ⟨k, -, -, hbytes, -⟩ := exists_configure_shift 0 limit cols rows
  have hcols : 0 < (Grid.configure 0 limit cols rows).cols := by
    rw [configure_of_configurable hgrid]
    have := hgrid.2.1
    dsimp only
    omega
  have hcount := configure_cellCount 0 limit cols rows
  generalize hg : Grid.configure 0 limit cols rows = g at *
  have hfirst : s.flat / g.cellBytes = v.logicalRow row * g.cols := by
    rw [hflat, hbytes, firstCoord, hbytes]
    exact Nat.mul_div_cancel _ (Nat.two_pow_pos k)
  have hin : v.logicalRow row * g.cols < g.cellCount := by
    have hlogical : v.logicalRow row < g.rows := by
      unfold displayRows at hrow
      unfold logicalRow
      split_ifs at hrow ⊢ <;> omega
    rw [Grid.cellCount, Nat.mul_comm g.cols]
    exact Nat.mul_lt_mul_of_pos_right hlogical hcols
  have hindex : g.indexOf s.flat = some (v.logicalRow row * g.cols) := by
    rw [← hg, configure_indexOf hgrid, hg, Nat.sub_zero, hfirst, ← hcount]
    exact ⟨Nat.zero_le _, hin, rfl⟩
  refine ⟨s, hs, _, hindex, ?_⟩
  have hlogical : g.rowOf (v.logicalRow row * g.cols) = v.logicalRow row := by
    rw [Grid.rowOf, if_neg hcols.ne', Nat.mul_div_cancel _ hcols]
  unfold displayRow
  rw [hlogical]
  unfold logicalRow
  split_ifs <;> omega

section Marked

variable {fb : Framebuffer} {area : Rect} {m : RegionMap} {regions : List Region} {map : HeatMap}
  {row k : Nat}

/-- The colour of a row's label. -/
theorem gutter_ink (v : MapPainter Lab) (nowMs : Nat) (cols rows : Int)
    (htotal : (m.rebuild regions).1.total < 2 ^ 64) (hcols : cols < 2 ^ 31)
    (hgrid : map.grid = Grid.configure 0 (m.rebuild regions).1.total cols rows)
    (hconf : Configurable 0 (m.rebuild regions).1.total cols rows)
    (hmap : map.cellCount = map.grid.cellCount)
    (hgutter : 0 ≤ (MapLayout.solve area v.showLegend).gutterX)
    (hrow : row < v.displayRows map.grid)
    (hh : (row : Int) < (MapLayout.solve area v.showLegend).cells.h)
    (hfirst : v.firstCoord map.grid row < (m.rebuild regions).1.total)
    (hk : (k : Int) < kGutterWidth)
    (hon : fb.contains ((MapLayout.solve area v.showLegend).gutterX + k)
      ((MapLayout.solve area v.showLegend).cells.y + row) = true) :
    ((v.draw fb area map (some (m.rebuild regions).1) nowMs).atBack
        ((MapLayout.solve area v.showLegend).gutterX + k).toNat
        ((MapLayout.solve area v.showLegend).cells.y + row).toNat).fg =
      if (m.rebuild regions).1.StartsAt (v.firstCoord map.grid row) ∧
        v.firstCoord map.grid row + map.grid.cellBytes * map.grid.cols < 2 ^ 64 then v.style.warn
      else v.style.dim := by
  have hvalid : map.grid.valid = true := by rw [hgrid, configure_of_configurable hconf]
  have hcells : map.grid.cols = cols.toNat := by rw [hgrid, configure_of_configurable hconf]
  obtain ⟨e, -, he, hbytes, -⟩ := exists_configure_shift 0 (m.rebuild regions).1.total cols rows
  rw [← hgrid] at hbytes
  -- a logical row is not empty, and shorter than the address space
  have hpos : 0 < map.grid.cellBytes * map.grid.cols := by
    have := hconf.2.1
    rw [hbytes, hcells]
    exact Nat.mul_pos (Nat.two_pow_pos e) (by omega)
  have hword : map.grid.cellBytes * map.grid.cols < 2 ^ 64 := by
    have hpow : (2 : Nat) ^ e ≤ 2 ^ 30 := Nat.pow_le_pow_right (by decide) he
    rw [hbytes, hcells]
    calc 2 ^ e * cols.toNat ≤ 2 ^ 30 * 2 ^ 31 := Nat.mul_le_mul hpow (by omega)
      _ < 2 ^ 64 := by decide
  have hoffset : map.grid.offsetOfRow (v.logicalRow row) = v.firstCoord map.grid row := by
    rw [Grid.offsetOfRow, if_neg (by simp [hvalid])]
    exact Nat.mod_eq_of_lt (hfirst.trans htotal)
  obtain ⟨offset, hlabel⟩ := rowLabel_ink v m regions hfirst (hfirst.trans htotal) hpos hword
  have hlength := decodeText_formatOffset_length offset
  rw [← hoffset, ← Nat.mod_eq_of_lt hword] at hlabel
  rw [draw_label hmap (MapLayout.valid_of_gutter hgutter) hvalid hrow hh hgutter hlabel (by omega)
    hk hon, Nat.mod_eq_of_lt hword, hoffset]

end Marked

/-- A row's label is in the warn colour exactly for the rows that a region begins
in, if and only if the first seam of the row is at its first coordinate. -/
theorem seams_marked (v : MapPainter Lab) (fb : Framebuffer) (area : Rect) (m : RegionMap)
    (regions : List Region) (htotal : (m.rebuild regions).1.total < 2 ^ 64) (map : HeatMap)
    (nowMs : Nat) (cols rows : Int) (hcols : cols < 2 ^ 31)
    (hgrid : map.grid = Grid.configure 0 (m.rebuild regions).1.total cols rows)
    (hvalid : map.grid.valid = true) (hmap : map.cellCount = map.grid.cellCount)
    (hgutter : 0 ≤ (MapLayout.solve area v.showLegend).gutterX) (row : Nat)
    (hrow : row < v.displayRows map.grid)
    (hh : (row : Int) < (MapLayout.solve area v.showLegend).cells.h)
    (hfirst : v.firstCoord map.grid row < (m.rebuild regions).1.total) (k : Nat)
    (hk : (k : Int) < kGutterWidth)
    (hon : fb.contains ((MapLayout.solve area v.showLegend).gutterX + k)
      ((MapLayout.solve area v.showLegend).cells.y + row) = true) :
    (((v.draw fb area map (some (m.rebuild regions).1) nowMs).atBack
        ((MapLayout.solve area v.showLegend).gutterX + k).toNat
        ((MapLayout.solve area v.showLegend).cells.y + row).toNat).fg = v.style.warn ↔
      v.SeamIn (m.rebuild regions).1 map.grid row) ↔
      v.SeamFirst (m.rebuild regions).1 map.grid row := by
  have hconf : Configurable 0 (m.rebuild regions).1.total cols rows := by
    by_contra hdegenerate
    rw [hgrid, configure_of_degenerate hdegenerate] at hvalid
    cases hvalid
  rw [gutter_ink v nowMs cols rows htotal hcols hgrid hconf hmap hgutter hrow hh hfirst hk hon]
  have hseam : (m.rebuild regions).1.StartsAt (v.firstCoord map.grid row) →
      v.SeamIn (m.rebuild regions).1 map.grid row := by
    intro hstarts
    rw [hgrid] at hstarts hrow ⊢
    exact seamIn_of_startsAt hconf hrow hstarts
  unfold SeamFirst
  by_cases hplain : v.style.warn = v.style.dim
  · rw [if_pos hplain, hplain, ite_self]
    exact ⟨fun h => h.mp rfl, fun h => ⟨fun _ => h, fun _ => rfl⟩⟩
  · rw [if_neg hplain]
    split_ifs with hmarked
    · exact ⟨fun _ _ => hmarked, fun _ => ⟨fun _ => hseam hmarked.1, fun _ => rfl⟩⟩
    · exact ⟨fun h hin => absurd (h.mpr hin).symm hplain,
        fun h => ⟨fun hsame => absurd hsame.symm hplain, fun hin => absurd (h hin) hmarked⟩⟩

/-- A view of whole cells, without a legend. -/
def gutterPainter : MapPainter Nat :=
  { toMapView := ⟨flatRamp, false, true, false⟩
    glyphs := .glyphsFor true
    palette := kDefaultPalette
    style := .default
    density := fun _ _ => .light }

/-- Two rows of eight pages, beside a gutter. -/
def sixteenPages : HeatMap := (HeatMap.init.configure (Grid.configure 0 0x10000 8 2)).1

def gutterBuffer : Framebuffer := (Framebuffer.init.resize 16 2).1

/-- Two regions, the first of so many pages, sixteen together. -/
def twoRegions (pages : Nat) : List Region :=
  [⟨0x1000, 0x1000 * (pages + 1), .heap, false⟩,
    ⟨0x100000, 0x100000 + 0x1000 * (16 - pages), .anon, true⟩]

/-- The second region begins with the second row. -/
theorem seams_marked_first :
    ((gutterPainter.draw gutterBuffer ⟨0, 0, 16, 2⟩ sixteenPages
      (some (RegionMap.init.rebuild (twoRegions 8)).1) 0).atBack 0 1).fg =
        gutterPainter.style.warn :=
  ((seams_marked gutterPainter gutterBuffer ⟨0, 0, 16, 2⟩ .init (twoRegions 8) (by decide)
    sixteenPages 0 8 2 (by decide) (by decide) (by decide) rfl (by decide) 1 (by decide)
    (by decide) (by decide) 0 (by decide) (by decide)).mpr fun _ => by decide).mpr
      ⟨⟨0x100000, 0x108000, 0x8000, .anon, true⟩, by decide, 8, by decide, by decide⟩

/-- The second region begins with the second page of the second row. -/
theorem seam_unmarked :
    ¬ ∀ (v : MapPainter Nat) (fb : Framebuffer) (area : Rect) (m : RegionMap)
      (regions : List Region), (m.rebuild regions).1.total < 2 ^ 64 → ∀ (map : HeatMap)
      (nowMs : Nat) (cols rows : Int), cols < 2 ^ 31 →
      map.grid = Grid.configure 0 (m.rebuild regions).1.total cols rows → map.grid.valid = true →
      map.cellCount = map.grid.cellCount →
      0 ≤ (MapLayout.solve area v.showLegend).gutterX → ∀ row : Nat,
      row < v.displayRows map.grid →
      (row : Int) < (MapLayout.solve area v.showLegend).cells.h →
      v.firstCoord map.grid row < (m.rebuild regions).1.total → ∀ k : Nat,
      (k : Int) < kGutterWidth →
      fb.contains ((MapLayout.solve area v.showLegend).gutterX + k)
        ((MapLayout.solve area v.showLegend).cells.y + row) = true →
      (((v.draw fb area map (some (m.rebuild regions).1) nowMs).atBack
          ((MapLayout.solve area v.showLegend).gutterX + k).toNat
          ((MapLayout.solve area v.showLegend).cells.y + row).toNat).fg = v.style.warn ↔
        v.SeamIn (m.rebuild regions).1 map.grid row) := by
  intro hall
  have hmarked := (hall gutterPainter gutterBuffer ⟨0, 0, 16, 2⟩ .init (twoRegions 9) (by decide)
    sixteenPages 0 8 2 (by decide) (by decide) (by decide) rfl (by decide) 1 (by decide)
    (by decide) (by decide) 0 (by decide) (by decide)).mpr
      ⟨⟨0x100000, 0x107000, 0x9000, .anon, true⟩, by decide, 9, by decide, by decide⟩
  rw [gutter_ink gutterPainter 0 8 2 (by decide) (by decide) (by decide)
    ⟨by decide, by decide, by decide⟩ rfl (by decide) (by decide) (by decide) (by decide)
    (by decide) (by decide), if_neg (by decide)] at hmarked
  exact absurd hmarked (by decide)

end MapPainter

end Heapviz
