import Heapviz.MapSeams
import Heapviz.Panels

/-!
# The map keeps to its area

The drawing of the map clips to the screen only: gutter labels are texts, and a
leak or the cursor is looked for by its cell. That none of it lands beside the
map follows from the layout. The parts lie in the area, a label is as wide as the
gutter, and the legend's pen stops at the right edge.

The pen is a store of its own, a framebuffer and a column. It is drawn with in
the one row of the legend, and where it goes does not depend on what it is drawn
over (`LegendPen.Draws`).
-/

namespace Heapviz

/-! ## The parts of a map -/

section Solve

variable {area : Rect} {showLegend : Bool} {x y : Int}

theorem MapLayout.legend_has (h : (MapLayout.solve area showLegend).legend.Has x y) :
    area.Has x y := by
  unfold MapLayout.solve at h
  split_ifs at h with hempty
  · simp only [Rect.Has] at h
    omega
  · dsimp only at h
    split_ifs at h with hlegend
    · simp only [Rect.Has] at h ⊢
      simp only [decide_eq_true_eq] at hlegend
      omega
    · simp only [Rect.Has] at h
      omega

/-- The legend, if there is one, is one row. -/
theorem MapLayout.legend_row (h : 0 < (MapLayout.solve area showLegend).legend.w) :
    (MapLayout.solve area showLegend).legend.h = 1 := by
  unfold MapLayout.solve at h ⊢
  split_ifs at h ⊢ with hempty
  · exact absurd h (by decide)
  · dsimp only at h ⊢
    split_ifs at h ⊢ with hlegend
    · rfl
    · exact absurd h (by decide)

theorem MapLayout.solve_open (h : (MapLayout.solve area showLegend).valid = true) :
    0 < (MapLayout.solve area showLegend).cells.w ∧
      0 < (MapLayout.solve area showLegend).cells.h := by
  unfold MapLayout.solve at h ⊢
  split_ifs at h ⊢ with hempty
  · exact of_decide_eq_true h

theorem MapLayout.cells_has (showLegend : Bool) (h : (MapLayout.solve area showLegend).cells.Has x y) :
    area.Has x y := by
  unfold MapLayout.solve at h
  split_ifs at h with hempty
  · simp only [Rect.Has] at h
    omega
  · have hgutter : 0 ≤ kGutterWidth := by decide
    simp only [Rect.Has] at h ⊢
    split_ifs at h <;> omega

/-- A row of cells with its gutter. -/
theorem MapLayout.gutter_has (hgutter : 0 ≤ (MapLayout.solve area showLegend).gutterX)
    (hx : (MapLayout.solve area showLegend).gutterX ≤ x ∧
      x < (MapLayout.solve area showLegend).gutterX + kGutterWidth)
    (hy : (MapLayout.solve area showLegend).cells.y ≤ y ∧
      y < (MapLayout.solve area showLegend).cells.y + (MapLayout.solve area showLegend).cells.h) :
    area.Has x y := by
  unfold MapLayout.solve at hgutter hx hy
  split_ifs at hgutter hx hy with hempty
  · exact absurd hgutter (by decide)
  · have hmin : 0 ≤ kMinMapCols := by decide
    dsimp only at hgutter hx hy
    simp only [Rect.Has]
    split_ifs at hgutter hx hy <;> simp_all <;> omega

end Solve

/-! ## The pen -/

/-- What a pen over a screen of this size shows: its column, and the cells. -/
def LegendPen.view (w h : Nat) (pen : LegendPen) : Option (Fin w × Fin h) → Int × Option Cell
  | none => (pen.x, none)
  | some l => (0, some (pen.fb.cellView w h l))

/-- The pen has not left the row it is for. -/
structure LegendPen.Ok (base : Framebuffer) (r : Rect) (pen : LegendPen) : Prop where
  front : base.SameFront pen.fb
  y : pen.y = r.y
  limit : pen.limit = r.x + r.w
  left : r.x ≤ pen.x

/-- The pen's drawing keeps to the rectangle, and goes on from its column. -/
def LegendPen.Draws (base : Framebuffer) (r : Rect) (f : LegendPen → LegendPen) : Prop :=
  Footprint.Local (LegendPen.view base.w base.h) (LegendPen.Ok base r) f
    fun l => ∀ c ∈ l, r.Has c.1 c.2

/-- How many columns a text takes up depends on the size of the screen alone. -/
theorem Framebuffer.textLoop_written {ty : Int} {fg bg attrs : Nat} (s : List Nat) (col : Int)
    (fb fb' : Framebuffer) (n : Nat) (hw : fb.w = fb'.w) :
    (Framebuffer.textLoop ty fg bg attrs s col fb n).2 =
      (Framebuffer.textLoop ty fg bg attrs s col fb' n).2 := by
  fun_induction Framebuffer.textLoop ty fg bg attrs s col fb n generalizing fb' with
  | case1 col fb n => rw [Framebuffer.textLoop]
  | case2 b s col fb n hcol rest hvisible ih =>
      rw [Framebuffer.textLoop, if_pos (hw ▸ hcol), if_pos hvisible]
      exact ih _ hw
  | case3 b s col fb n hcol rest hhidden ih =>
      rw [Framebuffer.textLoop, if_pos (hw ▸ hcol), if_neg hhidden]
      exact ih _ hw
  | case4 b s col fb n hcol => rw [Framebuffer.textLoop, if_neg (hw ▸ hcol)]

theorem Framebuffer.text_written {fb fb' : Framebuffer} (hw : fb.w = fb'.w) (hh : fb.h = fb'.h)
    (x y : Int) (s : List Nat) (fg bg attrs : Nat) :
    (fb.text x y s fg bg attrs).2 = (fb'.text x y s fg bg attrs).2 := by
  unfold Framebuffer.text
  simp only [hw, hh]
  split
  · rfl
  · exact Framebuffer.textLoop_written s x fb fb' 0 hw

namespace LegendPen.Draws

variable {base : Framebuffer} {r : Rect} {f g : LegendPen → LegendPen}

theorem comp (h : Draws base r f) (h' : Draws base r g) : Draws base r fun pen => g (f pen) :=
  Footprint.Local.comp h h'

/-- A drawing at the pen's column, and where the pen goes. -/
theorem of_keeps (draw : Int → Framebuffer → Framebuffer) (next : Int → Framebuffer → Int)
    (hdraw : ∀ x, r.x ≤ x → base.Keeps (draw x) r.Has)
    (hnext : ∀ x fb, r.x ≤ x → r.x ≤ next x fb)
    (hsame : ∀ x fb fb', base.SameFront fb → base.SameFront fb' → next x fb = next x fb')
    (hf : ∀ pen, pen.Ok base r → f pen = ⟨draw pen.x pen.fb, next pen.x pen.fb, pen.y, pen.limit⟩) :
    Draws base r f := by
  refine Footprint.Local.congr (f := fun pen =>
    ⟨draw pen.x pen.fb, next pen.x pen.fb, pen.y, pen.limit⟩) ⟨fun pen hpen => ?_,
      fun pen hpen l hl => ?_, fun pen pen' hpen hpen' hagree l hl => ?_⟩ hf
  · exact ⟨(hdraw pen.x hpen.left).keeps pen.fb hpen.front, hpen.y, hpen.limit,
      hnext _ _ hpen.left⟩
  · cases l with
    | none => exact absurd (fun c hc => nomatch hc) hl
    | some c =>
        have hout : ¬ r.Has c.1 c.2 := fun hin => hl fun c' hc' => by
          obtain rfl := Option.some.inj hc'
          exact hin
        exact congrArg (fun cell => (0, some cell))
          ((hdraw pen.x hpen.left).frame pen.fb hpen.front c hout)
  · have hx : pen.x = pen'.x := congrArg Prod.fst (hagree none fun c hc => nomatch hc)
    cases l with
    | none =>
        show (next pen.x pen.fb, none) = (next pen'.x pen'.fb, none)
        rw [← hx, hsame pen.x pen.fb pen'.fb hpen.front hpen'.front]
    | some c =>
        have hcells : Footprint.Agree (Framebuffer.cellView base.w base.h)
            (fun l => r.Has l.1 l.2) pen.fb pen'.fb := fun c hc =>
          Option.some.inj (congrArg Prod.snd (hagree (some c) fun c' hc' => by
            obtain rfl := Option.some.inj hc'
            exact hc))
        have hdrawn := (hdraw pen.x hpen.left).reads _ _ hpen.front hpen'.front hcells c (hl c rfl)
        show (0, some _) = (0, some _)
        rw [← hx]
        exact congrArg (fun cell => (0, some cell)) hdrawn

theorem text (hw : 0 < r.w) (hh : r.h = 1) (s : List Nat) (fg bg : Nat) :
    Draws base r fun pen => pen.text s fg bg := by
  refine of_keeps
    (fun x fb => if x + s.length > r.x + r.w then fb else (fb.text x r.y s fg bg 0).1)
    (fun x fb =>
      if x + s.length > r.x + r.w then r.x + r.w else x + (fb.text x r.y s fg bg 0).2)
    (fun x hx => ?_) (fun x fb hx => ?_) (fun x fb fb' hfb hfb' => ?_) fun pen hpen => ?_
  · refine .ite (fun _ => .skip) fun hfits => .text _ _ _ _ _ _ fun k hk => ?_
    have hlen := decodeText_length_le s
    simp only [Rect.Has]
    omega
  · split <;> omega
  · rw [Framebuffer.text_written (hfb.w.trans hfb'.w.symm) (hfb.h.trans hfb'.h.symm)]
  · unfold LegendPen.text
    rw [hpen.limit, hpen.y]
    split <;> rfl

theorem glyph (hh : r.h = 1) (ch fg bg : Nat) : Draws base r fun pen => pen.glyph ch fg bg := by
  refine of_keeps
    (fun x fb => if x ≥ r.x + r.w then fb else fb.put x r.y ⟨ch, fg, bg, 0⟩)
    (fun x _ => if x ≥ r.x + r.w then x else x + 1)
    (fun x hx => ?_) (fun x fb hx => ?_) (fun x fb fb' _ _ => rfl) fun pen hpen => ?_
  · refine .ite (fun _ => .skip) fun hin => .put _ _ _ ?_
    simp only [Rect.Has]
    omega
  · split <;> omega
  · unfold LegendPen.glyph
    simp only [← hpen.limit, ← hpen.y]
    split <;> rfl

/-- Whether there is room depends on the pen's column. -/
theorem roomFor (cols : Int) (hf : Draws base r f) (hg : Draws base r g) :
    Draws base r fun pen => if pen.roomFor cols = false then f pen else g pen := by
  refine Footprint.Local.branch (fun pen pen' hpen hpen' hagree => ?_) hf hg
  have hx : pen.x = pen'.x := congrArg Prod.fst (hagree none fun c hc => nomatch hc)
  rw [LegendPen.roomFor, LegendPen.roomFor, hpen.limit, hpen'.limit, hx]

/-- A pen set down at the left of the rectangle. -/
theorem keeps (h : Draws base r f) :
    base.Keeps (fun fb => (f ⟨fb, r.x, r.y, r.x + r.w⟩).fb) r.Has := by
  have hok : ∀ fb, base.SameFront fb → LegendPen.Ok base r ⟨fb, r.x, r.y, r.x + r.w⟩ :=
    fun fb hfb => ⟨hfb, rfl, rfl, le_rfl⟩
  have hcell : ∀ pen c, LegendPen.view base.w base.h pen (some c) =
      (0, some (pen.fb.cellView base.w base.h c)) := fun _ _ => rfl
  refine ⟨fun fb hfb => (Footprint.Local.keeps h _ (hok fb hfb)).front, fun fb hfb c hc => ?_,
    fun fb fb' hfb hfb' hagree c hc => ?_⟩
  · have hframe := h.frame _ (hok fb hfb) (some c) fun hin => hc (hin c rfl)
    exact Option.some.inj (congrArg Prod.snd hframe)
  · have hpens : Footprint.Agree (LegendPen.view base.w base.h) (fun l => ∀ c ∈ l, r.Has c.1 c.2)
        ⟨fb, r.x, r.y, r.x + r.w⟩ ⟨fb', r.x, r.y, r.x + r.w⟩ := by
      intro l hl
      cases l with
      | none => rfl
      | some c' => rw [hcell, hcell, hagree c' (hl c' rfl)]
    have hreads := h.reads _ _ (hok fb hfb) (hok fb' hfb') hpens (some c) fun c' hc' => by
      obtain rfl := Option.some.inj hc'
      exact hc
    exact Option.some.inj (congrArg Prod.snd hreads)

end LegendPen.Draws

namespace MapPainter

variable {Lab : Type} {base : Framebuffer} (v : MapPainter Lab)

theorem drawSwatches_draws {r : Rect} (hw : 0 < r.w) (hh : r.h = 1)
    (items : List (Nat × List Nat)) : LegendPen.Draws base r (v.drawSwatches items) := by
  induction items with
  | nil => exact Footprint.Local.skip _
  | cons item items ih =>
      obtain ⟨color, label⟩ := item
      exact .roomFor _ (Footprint.Local.skip _) <|
        LegendPen.Draws.comp (g := fun pen => v.drawSwatches items
            ((pen.glyph v.glyphs.full color v.style.bg).text label v.style.dim v.style.bg))
          (.text hw hh [0x20, 0x20] v.style.dim v.style.bg)
          (.comp (g := fun pen => v.drawSwatches items (pen.text label v.style.dim v.style.bg))
            (.glyph hh v.glyphs.full color v.style.bg)
            (.comp (.text hw hh label v.style.dim v.style.bg) ih))

/-- A legend is drawn in its row. -/
theorem drawLegend_keeps {r : Rect} (hh : 0 < r.w → r.h = 1) (g : Grid) :
    base.Keeps (fun fb => v.drawLegend fb r g) r.Has := by
  refine .ite (fun _ => .skip) fun hopen => ?_
  have hw : 0 < r.w := by omega
  have hcell : LegendPen.Draws base r fun pen => pen.text
      (lit "1 cell = ".toList ++ formatByteSize g.cellBytes) v.style.ink v.style.bg :=
    .text hw (hh hw) _ _ _
  have hhead := hcell.comp (v.drawSwatches_draws hw (hh hw) v.swatches)
  refine .ite (fun _ => (LegendPen.Draws.text hw (hh hw) _ _ _).keeps) fun _ =>
    .ite (fun _ => hhead.keeps) fun _ => (hhead.comp (.text hw (hh hw) _ _ _)).keeps

/-! ## The rows -/

/-- Whether the columns are all cells' does not depend on what is drawn over. -/
theorem drawCols_snd (map : HeatMap) (nowMs : Nat) (x y : Int) (base : Nat) (cols : List Nat)
    (fb : Framebuffer) :
    (v.drawCols map nowMs x y base cols fb).2 =
      cols.all fun col => decide (base + col < map.cellCount) := by
  induction cols generalizing fb with
  | nil => rfl
  | cons col cols ih =>
      rw [drawCols, List.all_cons]
      split
      · rename_i hout
        rw [decide_eq_false (by omega), Bool.false_and]
      · rename_i hin
        rw [decide_eq_true (by omega), Bool.true_and]
        exact ih _

theorem drawCols_keeps {part : Int → Int → Prop} (map : HeatMap) (nowMs : Nat) (x y : Int)
    (first : Nat) (cols : List Nat) (h : ∀ col ∈ cols, part (x + col) y) :
    base.Keeps (fun fb => (v.drawCols map nowMs x y first cols fb).1) part := by
  induction cols with
  | nil => exact .skip
  | cons col cols ih =>
      refine .congr (f := fun fb => if first + col ≥ map.cellCount then fb else
        (v.drawCols map nowMs x y first cols
          (fb.put (x + col) y (v.charOf map nowMs (first + col)))).1) ?_ fun fb _ => ?_
      · exact .ite (fun _ => .skip) fun _ =>
          .comp (.put _ _ _ (h col List.mem_cons_self))
            (ih fun c hc => h c (List.mem_cons_of_mem _ hc))
      · rw [drawCols]
        split <;> rfl

section Area

variable {area : Rect} (map : HeatMap) (regions : Option RegionMap) (nowMs : Nat)

/-- A label is no wider than the gutter. -/
theorem rowLabel_length (coord rowBytes : Nat) :
    ((decodeText (v.rowLabel regions coord rowBytes).1).length : Int) ≤ kGutterWidth := by
  unfold rowLabel
  split
  · exact (decodeText_formatOffset_length coord).le
  · split
    · exact (decodeText_formatOffset_length _).le
    · rw [decodeText]
      decide

theorem drawGutter_keeps {row : Nat}
    (hrow : (row : Int) < (MapLayout.solve area v.showLegend).cells.h) :
    base.Keeps (v.drawGutter map regions (MapLayout.solve area v.showLegend) row) area.Has := by
  refine .when fun hgutter => .text _ _ _ _ _ _ fun k hk => ?_
  have hwidth := v.rowLabel_length regions (map.grid.offsetOfRow (v.logicalRow row))
    (map.grid.cellBytes * map.grid.cols % 2 ^ 64)
  have hlt : (k : Int) < kGutterWidth := (Nat.cast_lt.mpr hk).trans_le hwidth
  exact MapLayout.gutter_has hgutter ⟨by omega, by omega⟩ ⟨by omega, by omega⟩

theorem drawRows_keeps {n : Nat} (hn : (n : Int) ≤ (MapLayout.solve area v.showLegend).cells.w)
    (rows : List Nat)
    (hrows : ∀ row ∈ rows, (row : Int) < (MapLayout.solve area v.showLegend).cells.h) :
    base.Keeps
      (v.drawRows map regions nowMs (MapLayout.solve area v.showLegend) (List.range n) rows)
      area.Has := by
  induction rows with
  | nil => exact .skip
  | cons row rows ih =>
      have hrow := hrows row List.mem_cons_self
      have hgutter : base.Keeps
          (v.drawGutter map regions (MapLayout.solve area v.showLegend) row) area.Has :=
        v.drawGutter_keeps map regions hrow
      have hin : ∀ col ∈ List.range n, area.Has ((MapLayout.solve area v.showLegend).cells.x + col)
          ((MapLayout.solve area v.showLegend).cells.y + row) := fun col hcol => by
        have hlt := List.mem_range.mp hcol
        refine MapLayout.cells_has v.showLegend ?_
        simp only [Rect.Has]
        omega
      have hcols : base.Keeps (fun fb => (v.drawCols map nowMs
          (MapLayout.solve area v.showLegend).cells.x
          ((MapLayout.solve area v.showLegend).cells.y + row) (v.logicalRow row * map.grid.cols)
          (List.range n) fb).1) area.Has := v.drawCols_keeps map nowMs _ _ _ _ hin
      have hrest := ih fun r hr => hrows r (List.mem_cons_of_mem _ hr)
      refine (hgutter.comp (.comp hcols (.when (p := ((List.range n).all fun col =>
        decide (v.logicalRow row * map.grid.cols + col < map.cellCount)) = true)
          fun _ => hrest))).congr fun fb _ => ?_
      rw [drawRows]
      dsimp only
      rw [drawCols_snd]

theorem draw_keeps :
    base.Keeps (fun fb => v.draw fb area map regions nowMs) area.Has := by
  refine .ite (fun _ => .skip) fun hvalid => ?_
  have hlegend : base.Keeps
      (fun fb => v.drawLegend fb (MapLayout.solve area v.showLegend).legend map.grid) area.Has :=
    (v.drawLegend_keeps (fun hw => MapLayout.legend_row hw) map.grid).mono fun x y h =>
      MapLayout.legend_has h
  refine .comp (g := fun fb => if map.grid.valid = false then fb else
    v.drawRows map regions nowMs (MapLayout.solve area v.showLegend)
      (List.range (min map.grid.cols (MapLayout.solve area v.showLegend).cells.w.toNat))
      (List.range (min (v.displayRows map.grid)
        (MapLayout.solve area v.showLegend).cells.h.toNat)) fb) hlegend
    (.ite (fun _ => .skip) fun _ => ?_)
  refine v.drawRows_keeps map regions nowMs ?_ _ fun row hrow => ?_
  · have hopen := (MapLayout.solve_open (Bool.eq_true_of_not_eq_false hvalid)).1
    omega
  · have hlt := List.mem_range.mp hrow
    omega

/-- The character of a cell lies in the area, and on the screen. -/
theorem charPos_has {i : Nat} {x y : Int}
    (h : v.charPos base (MapLayout.solve area v.showLegend) map.grid i = some (x, y)) :
    area.Has x y ∧ base.contains x y = true ∧
      (MapLayout.solve area v.showLegend).cells.y ≤ y ∧
      y < (MapLayout.solve area v.showLegend).cells.y +
        (MapLayout.solve area v.showLegend).cells.h := by
  obtain ⟨hrow, hcol, hon, rfl, rfl⟩ := charPos_eq_some.mp h
  refine ⟨MapLayout.cells_has v.showLegend ?_, hon, by omega, by omega⟩
  simp only [Rect.Has]
  omega

theorem drawLeak_keeps (i : Nat) :
    base.Keeps (fun fb => v.drawLeak (MapLayout.solve area v.showLegend) map fb i) area.Has := by
  refine .ite (fun _ => .skip) fun _ => ?_
  cases hpos : v.charPos base (MapLayout.solve area v.showLegend) map.grid i with
  | none =>
      refine Framebuffer.Keeps.skip.congr fun fb hfb => ?_
      rw [charPos_congr hfb, hpos]
  | some p =>
      obtain ⟨x, y⟩ := p
      obtain ⟨harea, hon, -⟩ := v.charPos_has map hpos
      refine (Framebuffer.Keeps.modify (fun c =>
        if v.halfBlock = true ∧ map.grid.rowOf i % 2 ≠ 0 then { c with bg := v.style.leak }
        else { c with fg := v.style.leak }) harea hon).congr fun fb hfb => ?_
      rw [charPos_congr hfb, hpos]

theorem drawLeaks_keeps (diff : SnapshotDiff) :
    base.Keeps (fun fb => v.drawLeaks fb area map diff) area.Has :=
  .ite (fun _ => .skip) fun _ => .foldl _ fun i _ => v.drawLeak_keeps map i

/-- The columns of a gutter that lies in the area. -/
theorem tintGutter_keeps {y : Int} (left : Nat) (gx : Int)
    (h : ∀ k : Nat, k < left → area.Has (gx + k) y) :
    base.Keeps (v.tintGutter y left gx) area.Has := by
  induction left generalizing gx with
  | zero => exact .skip
  | succ left ih =>
      have hrest := ih (gx + 1) fun k hk => by
        have hin := h (k + 1) (Nat.add_lt_add_right hk 1)
        have hcol : gx + ((k + 1 : Nat) : Int) = gx + 1 + k := by omega
        rwa [hcol] at hin
      cases hon : base.contains gx y with
      | false =>
          refine Framebuffer.Keeps.skip.congr fun fb hfb => ?_
          rw [tintGutter, if_pos (by rwa [Framebuffer.contains, hfb.w, hfb.h])]
      | true =>
          have hfirst := h 0 (Nat.succ_pos left)
          rw [Nat.cast_zero, add_zero] at hfirst
          refine ((Framebuffer.Keeps.modify (fun c => { c with fg := v.style.cursor }) hfirst
            hon).comp hrest).congr fun fb hfb => ?_
          have hin : fb.contains gx y = true := by
            rw [Framebuffer.contains, hfb.w, hfb.h]
            exact hon
          rw [tintGutter, if_neg (by rw [hin]; exact Bool.noConfusion)]

theorem drawCursor_keeps (cur : MapCursor) :
    base.Keeps (fun fb => v.drawCursor fb area map cur) area.Has := by
  refine .ite (fun _ => .skip) fun _ => ?_
  cases hpos : v.charPos base (MapLayout.solve area v.showLegend) map.grid
      (cur.index map.grid) with
  | none =>
      refine Framebuffer.Keeps.skip.congr fun fb hfb => ?_
      rw [charPos_congr hfb, hpos]
  | some p =>
      obtain ⟨x, y⟩ := p
      obtain ⟨harea, hon, hrow⟩ := v.charPos_has map hpos
      have hcell : base.Keeps (fun fb => fb.put x y
          { fb.atBack x.toNat y.toNat with
            bg := v.style.cursor
            attrs := (fb.atBack x.toNat y.toNat).attrs ||| kAttrBold }) area.Has :=
        .modify (fun c => { c with bg := v.style.cursor, attrs := c.attrs ||| kAttrBold }) harea hon
      have hgutter : (MapLayout.solve area v.showLegend).gutterX ≥ 0 → base.Keeps
          (v.tintGutter y kGutterWidth.toNat (MapLayout.solve area v.showLegend).gutterX)
          area.Has := fun hgutter => by
        refine v.tintGutter_keeps _ _ fun k hk => MapLayout.gutter_has hgutter ⟨by omega, ?_⟩ hrow
        have hwidth : (kGutterWidth.toNat : Int) = kGutterWidth := rfl
        omega
      refine (hcell.comp (.when hgutter)).congr fun fb hfb => ?_
      rw [charPos_congr hfb, hpos]

end Area

end MapPainter

end Heapviz
