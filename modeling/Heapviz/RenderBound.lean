import Heapviz.RenderShows

/-!
# The output reservation

`Renderer::reserve` sizes the output buffer once, for `kMaxBytesPerCell` bytes
a cell, so that `render` never allocates. What a call can append is bounded
piece by piece: a cursor move by its two coordinates, which have at most seven
digits in a buffer that `resize` accepts; the attributes by the bytes of all
four; a colour by the three numbers of the most expensive mode; a glyph by four
bytes. A cell is one of each.
-/

namespace Heapviz

def kMaxBytesPerCell : Nat := 80

def kFrameOverhead : Nat := 32

namespace Renderer

/-- `reserve`: the capacity of the output buffer after the call. -/
def reserve (capacity : Nat) (w h : Int) : Nat :=
  if w ≤ 0 ∨ h ≤ 0 then capacity
  else max capacity (w.toNat * h.toNat * kMaxBytesPerCell + kFrameOverhead)

/-- `render` after `rows` rows and the first `cols` cells of the next one. -/
def partway (r : Renderer) (fb : Framebuffer) (fullRepaint : Bool) (rows cols : Nat) : Renderer :=
  (List.range cols).foldl (renderCell fb fullRepaint rows)
    ((List.range rows).foldl (renderRow fb fullRepaint)
      { r with out := [], penValid := false, curValid := false, emitted := 0, examined := 0 })

/-! ## What a call appends -/

/-- The second renderer has the output of the first and at most `n` bytes after
it, in the same mode. -/
structure Grows (n : Nat) (r r' : Renderer) : Prop where
  mode : r'.mode = r.mode
  out : ∃ bytes, r'.out = r.out ++ bytes ∧ bytes.length ≤ n

section Grows

variable {r r' r'' : Renderer} {n m : Nat}

theorem Grows.refl (r : Renderer) : Grows 0 r r := ⟨rfl, [], (List.append_nil _).symm, le_rfl⟩

theorem Grows.trans (h : Grows n r r') (h' : Grows m r' r'') : Grows (n + m) r r'' := by
  obtain ⟨a, ha, hn⟩ := h.out
  obtain ⟨b, hb, hm⟩ := h'.out
  refine ⟨h'.mode.trans h.mode, a ++ b, by rw [hb, ha, List.append_assoc], ?_⟩
  rw [List.length_append]
  exact Nat.add_le_add hn hm

theorem Grows.mono (h : Grows n r r') (hnm : n ≤ m) : Grows m r r' := by
  obtain ⟨bytes, hout, hlen⟩ := h.out
  exact ⟨h.mode, bytes, hout, hlen.trans hnm⟩

theorem Grows.length_le (h : Grows n r r') : r'.out.length ≤ r.out.length + n := by
  obtain ⟨bytes, hout, hlen⟩ := h.out
  rw [hout, List.length_append]
  exact Nat.add_le_add_left hlen _

theorem Grows.isPrefix (h : Grows n r r') : r.out <+: r'.out := by
  obtain ⟨bytes, hout, -⟩ := h.out
  exact ⟨bytes, hout.symm⟩

theorem grows_append (r : Renderer) {l : List Nat} (h : l.length ≤ n) :
    Grows n r (r.append l) := ⟨rfl, l, rfl, h⟩

/-- A loop whose turns append at most `n` bytes each. -/
theorem grows_foldl {step : Renderer → Nat → Renderer} (is : List Nat)
    (hstep : ∀ r, ∀ i ∈ is, Grows n r (step r i)) (r : Renderer) :
    Grows (is.length * n) r (is.foldl step r) := by
  induction is generalizing r with
  | nil => exact (Grows.refl r).mono (Nat.zero_le _)
  | cons i is ih =>
      have hrest := ih (fun r j hj => hstep r j (List.mem_cons_of_mem _ hj)) (step r i)
      refine ((hstep r i List.mem_cons_self).trans hrest).mono ?_
      rw [List.length_cons, Nat.succ_mul, Nat.add_comm]

end Grows

theorem length_putUintLoop_le : ∀ {fuel v n : Nat}, 0 < n → v < 10 ^ n →
    (putUintLoop fuel v).length ≤ n
  | 0, _, _, hn, _ => Nat.zero_le _
  | fuel + 1, v, 0, hn, _ => absurd hn (Nat.lt_irrefl 0)
  | fuel + 1, v, n + 1, _, hv => by
      rw [putUintLoop, List.length_cons]
      split_ifs with hmore
      · have hlt : v / 10 < 10 ^ n := by
          rw [Nat.pow_succ] at hv
          omega
        have hn : 0 < n := by
          rcases Nat.eq_zero_or_pos n with rfl | hn
          · omega
          · exact hn
        exact Nat.succ_le_succ (length_putUintLoop_le hn hlt)
      · exact Nat.succ_le_succ (Nat.zero_le n)

/-- A number takes as many bytes as it has digits. -/
theorem grows_putUint (r : Renderer) {v n : Nat} (hn : 0 < n) (hv : v < 10 ^ n) :
    Grows n r (r.putUint v) := by
  refine grows_append r ?_
  rw [uintBytes, List.length_reverse]
  exact length_putUintLoop_le hn hv

theorem grows_putUtf8 (r : Renderer) (cp : Nat) : Grows 4 r (r.putUtf8 cp) := by
  refine grows_append r ?_
  unfold utf8Encode
  dsimp only
  split_ifs <;> simp only [List.length_cons, List.length_nil] <;> omega

/-- A move to a cell of a buffer that `resize` accepts. -/
theorem grows_moveTo (r : Renderer) {x y : Nat} (hx : x < kMaxCells) (hy : y < kMaxCells) :
    Grows 18 r (r.moveTo x y) := by
  have hmax : kMaxCells = 4194304 := rfl
  have hx32 : add32 x 1 = x + 1 := add32_of_lt (by omega)
  have hy32 : add32 y 1 = y + 1 := add32_of_lt (by omega)
  unfold moveTo
  split
  · exact (Grows.refl r).mono (Nat.zero_le _)
  · rw [hx32, hy32]
    have hopen := grows_append r (l := lit ['\x1b', '[']) (n := 2) (by decide)
    have hrow := hopen.trans (grows_putUint _ (n := 7) (v := y + 1) (by decide) (by omega))
    have hsep := hrow.trans (grows_append _ (l := lit [';']) (n := 1) (by decide))
    have hcol := hsep.trans (grows_putUint _ (n := 7) (v := x + 1) (by decide) (by omega))
    have hall := hcol.trans (grows_append _ (l := lit ['H']) (n := 1) (by decide))
    exact ⟨hall.mode, hall.out⟩

/-- A colour, in the mode its code is for. -/
theorem grows_emitColor (r : Renderer) (foreground : Bool) (c : Nat) :
    Grows 19 r (r.emitColor foreground (r.mode.code c)) := by
  unfold emitColor
  cases hm : r.mode with
  | trueColor =>
      have hr := red_lt c
      have hg := green_lt c
      have hb := blue_lt c
      have hopen := grows_append r (n := 7)
        (l := if foreground then lit ['\x1b', '[', '3', '8', ';', '2', ';']
          else lit ['\x1b', '[', '4', '8', ';', '2', ';']) (by cases foreground <;> decide)
      have hred := hopen.trans (grows_putUint _ (n := 3) (v := red c) (by decide) (by omega))
      have hsep := hred.trans (grows_append _ (l := lit [';']) (n := 1) (by decide))
      have hgreen := hsep.trans (grows_putUint _ (n := 3) (v := green c) (by decide) (by omega))
      have hsep' := hgreen.trans (grows_append _ (l := lit [';']) (n := 1) (by decide))
      have hblue := hsep'.trans (grows_putUint _ (n := 3) (v := blue c) (by decide) (by omega))
      exact hblue.trans (grows_append _ (l := lit ['m']) (n := 1) (by decide))
  | cube256 =>
      have hcode := rgbToCube256_lt c
      have hopen := grows_append r (n := 7)
        (l := if foreground then lit ['\x1b', '[', '3', '8', ';', '5', ';']
          else lit ['\x1b', '[', '4', '8', ';', '5', ';']) (by cases foreground <;> decide)
      have hnumber := hopen.trans
        (grows_putUint _ (n := 3) (v := rgbToCube256 c) (by decide) (by omega))
      exact (hnumber.trans (grows_append _ (l := lit ['m']) (n := 1) (by decide))).mono
        (by decide)
  | ansi16 =>
      have hcode := rgbToAnsi16_lt c
      have hopen := grows_append r (l := lit ['\x1b', '[']) (n := 2) (by decide)
      have hnumber : Grows 3 (r.append (lit ['\x1b', '[']))
          (if rgbToAnsi16 c < 8
            then (r.append (lit ['\x1b', '['])).putUint ((if foreground then 30 else 40) +
              rgbToAnsi16 c)
            else (r.append (lit ['\x1b', '['])).putUint ((if foreground then 90 else 100) +
              (rgbToAnsi16 c - 8))) := by
        split
        · exact grows_putUint _ (by decide) (by split_ifs <;> omega)
        · exact grows_putUint _ (by decide) (by split_ifs <;> omega)
      exact ((hopen.trans hnumber).trans
        (grows_append _ (l := lit ['m']) (n := 1) (by decide))).mono (by decide)

theorem length_attrBytes_le (bold dim underline reverse : Bool) :
    (attrBytes bold dim underline reverse).length ≤ 14 := by
  cases bold <;> cases dim <;> cases underline <;> cases reverse <;> decide

theorem grows_emitAttrs (r : Renderer) (attrs : Nat) : Grows 14 r (r.emitAttrs attrs) := by
  unfold emitAttrs
  split
  · by_cases hzero : attrs = 0
    · subst hzero
      exact ⟨rfl, lit ['\x1b', '[', '0', 'm'], rfl, by decide⟩
    · have hcodes := Renderer.attrCodes_eq { r with penValid := false } attrs
      have hmode := congrArg Renderer.mode hcodes
      have hout := congrArg Renderer.out hcodes
      simp only [ne_eq, hzero, not_false_eq_true, if_true]
      exact ⟨hmode, _, hout, length_attrBytes_le ..⟩
  · exact (Grows.refl r).mono (Nat.zero_le _)

theorem grows_emitFg (r : Renderer) (c : Nat) : Grows 19 r (r.emitFg (r.mode.code c)) := by
  unfold emitFg
  split
  · have hcolor := r.grows_emitColor true c
    exact ⟨hcolor.mode, hcolor.out⟩
  · exact (Grows.refl r).mono (Nat.zero_le _)

theorem grows_emitBg (r : Renderer) (c : Nat) : Grows 19 r (r.emitBg (r.mode.code c)) := by
  unfold emitBg
  split
  · have hcolor := r.grows_emitColor false c
    exact ⟨hcolor.mode, hcolor.out⟩
  · exact (Grows.refl r).mono (Nat.zero_le _)

theorem grows_emitPen (r : Renderer) (c : Cell) : Grows 52 r (r.emitPen c) := by
  have hattrs := r.grows_emitAttrs c.attrs
  have hfg := grows_emitFg (r.emitAttrs c.attrs) c.fg
  have hbg := grows_emitBg ((r.emitAttrs c.attrs).emitFg ((r.emitAttrs c.attrs).mode.code c.fg))
    c.bg
  rw [hfg.mode] at hbg
  have hall := (hattrs.trans hfg).trans hbg
  exact ⟨hall.mode, hall.out⟩

/-! ## A frame -/

variable {fb : Framebuffer} (fullRepaint : Bool)

variable (fb) in
theorem grows_renderCell (r : Renderer) {x y : Nat} (hx : x < kMaxCells) (hy : y < kMaxCells) :
    Grows 74 r (renderCell fb fullRepaint y r x) := by
  unfold renderCell
  dsimp only
  split
  · exact ⟨rfl, [], (List.append_nil _).symm, Nat.zero_le _⟩
  · have hmove := grows_moveTo { r with examined := r.examined + 1 } hx hy
    have hpen := hmove.trans (grows_emitPen _ (fb.atBack x y))
    have hall := hpen.trans (grows_putUtf8 _ (fb.atBack x y).glyph)
    split
    · exact ⟨hall.mode, hall.out⟩
    · exact ⟨hall.mode, hall.out⟩

theorem grows_renderCells (hne : fb.isEmpty = false) (r : Renderer) {y cols : Nat}
    (hy : y < fb.h) (hcols : cols ≤ fb.w) :
    Grows (cols * 74) r ((List.range cols).foldl (renderCell fb fullRepaint y) r) := by
  obtain ⟨hw, hh⟩ := Framebuffer.sides_le hne
  have hall := grows_foldl (List.range cols)
    (fun r x hx => grows_renderCell fb fullRepaint r (y := y)
      (lt_of_lt_of_le (List.mem_range.mp hx) (hcols.trans hw)) (hy.trans_le hh)) r
  rwa [List.length_range] at hall

theorem grows_renderRows (hne : fb.isEmpty = false) (r : Renderer) {rows : Nat}
    (hrows : rows ≤ fb.h) :
    Grows (rows * (fb.w * 74)) r ((List.range rows).foldl (renderRow fb fullRepaint) r) := by
  have hall := grows_foldl (List.range rows) (fun r y hy =>
    grows_renderCells fullRepaint hne r ((List.mem_range.mp hy).trans_le hrows) le_rfl) r
  rwa [List.length_range] at hall

/-- A loop that only appends, cut short. -/
theorem foldl_range_isPrefix {step : Renderer → Nat → Renderer} {k n : Nat} (hkn : k ≤ n)
    (hstep : ∀ r, ∀ i < n, r.out <+: (step r i).out) (r : Renderer) :
    ((List.range k).foldl step r).out <+: ((List.range n).foldl step r).out := by
  induction n, hkn using Nat.le_induction with
  | base => exact List.prefix_rfl
  | succ n hkn ih =>
      rw [List.range_succ, List.foldl_append]
      exact (ih fun r i hi => hstep r i (Nat.lt_succ_of_lt hi)).trans
        (hstep _ n (Nat.lt_succ_self n))

/-- The output so far is the beginning of the output. -/
theorem partway_isPrefix (hne : fb.isEmpty = false) (r : Renderer) {rows cols : Nat}
    (hrows : rows < fb.h) (hcols : cols ≤ fb.w) :
    (r.partway fb fullRepaint rows cols).out <+: (r.partway fb fullRepaint fb.h 0).out := by
  obtain ⟨hw, hh⟩ := Framebuffer.sides_le hne
  have hcell : ∀ y < fb.h, ∀ r : Renderer, ∀ x < fb.w,
      r.out <+: (renderCell fb fullRepaint y r x).out := fun y hy r x hx =>
    (grows_renderCell fb fullRepaint r (hx.trans_le hw) (hy.trans_le hh)).isPrefix
  have hrow : ∀ r : Renderer, ∀ y < fb.h, r.out <+: (renderRow fb fullRepaint r y).out :=
    fun r y hy => foldl_range_isPrefix (Nat.zero_le fb.w) (hcell y hy) r
  have hrest : (r.partway fb fullRepaint (rows + 1) 0).out <+:
      (r.partway fb fullRepaint fb.h 0).out := foldl_range_isPrefix hrows hrow _
  refine List.IsPrefix.trans ?_ hrest
  rw [partway, partway, List.range_succ, List.foldl_append]
  exact foldl_range_isPrefix hcols (hcell rows hrows) _

/-- A frame is its rows, and the reset if there is anything to reset. -/
theorem render_out (hne : fb.isEmpty = false) (r : Renderer) :
    (∃ reset : List Nat, (r.render fb fullRepaint).1.out =
      (r.partway fb fullRepaint fb.h 0).out ++ reset ∧ reset.length ≤ 4) ∧
    (r.render fb fullRepaint).2 = (r.render fb fullRepaint).1.out.length := by
  have hrender : r.render fb fullRepaint =
      let done := r.partway fb fullRepaint fb.h 0
      let done := if done.out ≠ [] then done.append (lit ['\x1b', '[', '0', 'm']) else done
      (done, done.out.length) := by
    unfold render
    rw [hne]
    rfl
  rw [hrender]
  refine ⟨?_, rfl⟩
  dsimp only
  split
  · exact ⟨lit ['\x1b', '[', '0', 'm'], rfl, le_rfl⟩
  · exact ⟨[], (List.append_nil _).symm, Nat.zero_le _⟩

/-- A buffer without cells leaves the output alone. -/
theorem partway_of_empty (hempty : fb.isEmpty = true) (r : Renderer) {rows cols : Nat}
    (hrows : rows < fb.h) (hcols : cols ≤ fb.w) :
    (r.partway fb fullRepaint rows cols).out = [] := by
  have hside : fb.w = 0 ∨ fb.h = 0 := by simpa [Framebuffer.isEmpty] using hempty
  have hw : fb.w = 0 := by omega
  obtain rfl : cols = 0 := by omega
  have hnothing : ∀ (rs : List Nat) (r : Renderer), rs.foldl (renderRow fb fullRepaint) r = r := by
    intro rs
    induction rs with
    | nil => exact fun _ => rfl
    | cons y rs ih =>
        intro r
        rw [List.foldl_cons, ih, renderRow, hw]
        rfl
  rw [partway, hnothing]
  rfl

end Renderer

/-- **The reservation suffices.** For every buffer that `resize` accepts and
whatever the two buffers hold, in every mode, a differential or a full frame is
no longer than what `reserve` made room for; on the way the output is only ever
the beginning of what it is in the end. -/
theorem reservation_suffices (r : Renderer) (fb : Framebuffer) (fullRepaint : Bool) :
    (r.render fb fullRepaint).2 ≤ fb.w * fb.h * kMaxBytesPerCell + kFrameOverhead ∧
    (∀ capacity,
      (r.render fb fullRepaint).1.out.length ≤ Renderer.reserve capacity fb.w fb.h) ∧
    ∀ rows < fb.h, ∀ cols ≤ fb.w,
      (r.partway fb fullRepaint rows cols).out <+: (r.render fb fullRepaint).1.out := by
  cases hne : fb.isEmpty with
  | true =>
      have hrender : (r.render fb fullRepaint).1.out = [] ∧ (r.render fb fullRepaint).2 = 0 := by
        unfold Renderer.render
        simp [hne]
      obtain ⟨hout, hsize⟩ := hrender
      rw [hout, hsize]
      refine ⟨Nat.zero_le _, fun _ => Nat.zero_le _, fun rows hrows cols hcols => ?_⟩
      have hnil := Renderer.partway_of_empty fullRepaint hne r hrows hcols
      exact ⟨[], (List.append_nil _).trans hnil⟩
  | false =>
      obtain ⟨hw, hh⟩ := Framebuffer.isEmpty_eq_false.mp hne
      obtain ⟨⟨reset, hout, hreset⟩, hsize⟩ := Renderer.render_out fullRepaint hne r
      have hrows : (r.partway fb fullRepaint fb.h 0).out.length ≤ fb.w * fb.h * 74 := by
        have hgrows := (Renderer.grows_renderRows fullRepaint hne
          { r with out := [], penValid := false, curValid := false, emitted := 0, examined := 0 }
          le_rfl).length_le
        rw [List.length_nil, Nat.zero_add, Nat.mul_left_comm, ← Nat.mul_assoc] at hgrows
        exact hgrows
      have hbound : (r.render fb fullRepaint).1.out.length ≤
          fb.w * fb.h * kMaxBytesPerCell + kFrameOverhead := by
        rw [hout, List.length_append, kMaxBytesPerCell, kFrameOverhead]
        omega
      refine ⟨hsize.le.trans hbound, fun capacity => ?_, fun rows hrows cols hcols => ?_⟩
      · rw [Renderer.reserve, if_neg (by omega), Int.toNat_natCast, Int.toNat_natCast]
        exact hbound.trans (le_max_right _ _)
      · rw [hout]
        exact (Renderer.partway_isPrefix fullRepaint hne r hrows hcols).trans (List.prefix_append _ _)

end Heapviz
