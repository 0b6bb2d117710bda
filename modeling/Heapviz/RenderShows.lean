import Heapviz.Vt
import Heapviz.Renderer

/-!
# What the screen shows after a frame

The renderer leaves out whatever it believes the terminal already has: an
unchanged cell, a cursor that is where it should be, a pen that is held.
Each belief is a clause of `Held`, an invariant between the renderer and
the terminal that has read its bytes so far. One cell keeps it whichever
sequences were left out (`Held.draw`), and the two loops carry it across a
frame together with which cells are done (`Painted`).
-/

namespace Heapviz

open Vt

/-! ## Codes -/

/-- A loop that keeps the best index it has seen returns one of them. -/
theorem foldl_pick_lt {β : Type} {step : Nat × β → Nat → Nat × β} {n : Nat}
    (hstep : ∀ s i, (step s i).1 = s.1 ∨ (step s i).1 = i) :
    ∀ (is : List Nat) (s : Nat × β), (∀ i ∈ is, i < n) → s.1 < n → (is.foldl step s).1 < n := by
  intro is
  induction is with
  | nil => exact fun s _ hs => hs
  | cons i is ih =>
      intro s his hs
      refine ih (step s i) (fun j hj => his j (List.mem_cons_of_mem _ hj)) ?_
      rcases hstep s i with h | h
      · rw [h]
        exact hs
      · rw [h]
        exact his i (List.mem_cons_self ..)

theorem nearestCubeLevel_lt (v : Int) : nearestCubeLevel v < 6 := by
  refine foldl_pick_lt (fun s i => ?_) _ _ (fun i hi => (List.mem_range'_1.mp hi).2)
    (Nat.succ_pos 5)
  dsimp only
  split
  · exact .inr rfl
  · exact .inl rfl

theorem rgbToAnsi16_lt (c : Nat) : rgbToAnsi16 c < 16 := by
  refine foldl_pick_lt (fun s i => ?_) _ _ (fun i hi => List.mem_range.mp hi) (Nat.succ_pos 15)
  dsimp only
  split
  · exact .inr rfl
  · exact .inl rfl

theorem rgbToCube256_lt (c : Nat) : rgbToCube256 c < 256 := by
  have hr := nearestCubeLevel_lt (red c)
  have hg := nearestCubeLevel_lt (green c)
  have hb := nearestCubeLevel_lt (blue c)
  unfold rgbToCube256
  dsimp only
  split_ifs <;> omega

theorem red_lt (c : Nat) : red c < 256 := Nat.lt_of_le_of_lt Nat.and_le_right (by decide)

theorem green_lt (c : Nat) : green c < 256 := Nat.lt_of_le_of_lt Nat.and_le_right (by decide)

theorem blue_lt (c : Nat) : blue c < 256 := Nat.lt_of_le_of_lt Nat.and_le_right (by decide)

/-! ## Numbers and glyphs -/

theorem putUintLoop_digits : ∀ n v, v < 10 ^ n →
    ∃ ds, putUintLoop n v = ds.map (0x30 + ·) ∧ (∀ d ∈ ds, d < 10) ∧ Nat.ofDigits 10 ds = v := by
  intro n
  induction n with
  | zero =>
      intro v hv
      obtain rfl : v = 0 := by simpa using hv
      exact ⟨[], rfl, fun _ hd => (by cases hd), rfl⟩
  | succ n ih =>
      intro v hv
      have hlow : v % 10 < 10 := Nat.mod_lt _ (by decide)
      obtain ⟨ds, hds, hdigits, hvalue⟩ := ih (v / 10) (by rw [Nat.pow_succ] at hv; omega)
      by_cases hmore : v / 10 = 0
      · refine ⟨[v % 10], by simp [putUintLoop, hmore], fun d hd => ?_, ?_⟩
        · rw [List.mem_singleton.mp hd]
          exact hlow
        · rw [Nat.ofDigits_singleton]
          omega
      · refine ⟨v % 10 :: ds, by simp [putUintLoop, hmore, hds], fun d hd => ?_, ?_⟩
        · rcases List.mem_cons.mp hd with rfl | hd
          · exact hlow
          · exact hdigits d hd
        · rw [Nat.ofDigits_cons, hvalue]
          omega

theorem run_uintBytes (t : Term) (ps : List Nat) {v : Nat} (hv : v < 10 ^ 10) :
    Run.run Term.feed (t.at (.csi ps 0)) (uintBytes v) = some (t.at (.csi ps v)) := by
  obtain ⟨ds, hds, hdigits, hvalue⟩ := putUintLoop_digits 10 v hv
  rw [uintBytes, hds, run_number t ps hdigits, hvalue]

/-- The bytes of a scalar value, in arithmetic. -/
theorem utf8Encode_eq {cp : Nat} (hscalar : ¬ (cp > 0x10FFFF ∨ (cp ≥ 0xD800 ∧ cp ≤ 0xDFFF))) :
    utf8Encode cp =
      if cp < 0x80 then [cp]
      else if cp < 0x800 then [0xC0 + cp / 64, 0x80 + cp % 64]
      else if cp < 0x10000 then [0xE0 + cp / 4096, 0x80 + cp / 64 % 64, 0x80 + cp % 64]
      else [0xF0 + cp / 262144, 0x80 + cp / 4096 % 64, 0x80 + cp / 64 % 64, 0x80 + cp % 64] := by
  have hmask : ∀ n, n &&& 0x3F = n % 64 := fun n => Nat.and_two_pow_sub_one_eq_mod n 6
  have htail : ∀ n, 0x80 ||| n % 64 = 0x80 + n % 64 := fun n =>
    (Nat.two_pow_add_eq_or_of_lt (i := 6) (Nat.mod_lt _ (by decide)) 2).symm
  unfold utf8Encode
  simp only [if_neg hscalar, hmask, htail, Nat.shiftRight_eq_div_pow]
  by_cases h1 : cp < 0x80
  · rw [if_pos h1, if_pos h1]
  by_cases h2 : cp < 0x800
  · have hlead : 0xC0 ||| cp / 2 ^ 6 = 0xC0 + cp / 64 :=
      (Nat.two_pow_add_eq_or_of_lt (i := 5) (by omega) 6).symm
    rw [if_neg h1, if_neg h1, if_pos h2, if_pos h2, hlead]
  by_cases h3 : cp < 0x10000
  · have hlead : 0xE0 ||| cp / 2 ^ 12 = 0xE0 + cp / 4096 :=
      (Nat.two_pow_add_eq_or_of_lt (i := 4) (by omega) 14).symm
    rw [if_neg h1, if_neg h1, if_neg h2, if_neg h2, if_pos h3, if_pos h3, hlead]
  · have hlead : 0xF0 ||| cp / 2 ^ 18 = 0xF0 + cp / 262144 :=
      (Nat.two_pow_add_eq_or_of_lt (i := 3) (by omega) 30).symm
    rw [if_neg h1, if_neg h1, if_neg h2, if_neg h2, if_neg h3, if_neg h3, hlead]

/-- The bytes of a glyph print it. -/
theorem run_utf8Encode (t : Term) {cp : Nat} (hcp : Printable cp) :
    Run.run Term.feed (t.at .ground) (utf8Encode cp) = t.print cp := by
  obtain ⟨-, -, hsurrogate, hmax⟩ := id hcp
  rw [utf8Encode_eq (by omega)]
  by_cases h1 : cp < 0x80
  · rw [if_pos h1]
    exact run_utf8_one t h1 hcp
  by_cases h2 : cp < 0x800
  · rw [if_neg h1, if_pos h2]
    exact run_utf8_two t (by omega) h2
  by_cases h3 : cp < 0x10000
  · rw [if_neg h1, if_neg h2, if_pos h3]
    exact run_utf8_three t (by omega) h3
  · rw [if_neg h1, if_neg h2, if_neg h3]
    exact run_utf8_four t (by omega) (by omega)

/-! ## What a cell should look like -/

/-- The colour a code names. -/
def ColorMode.shade : ColorMode → Nat → Color
  | .trueColor, code => .rgb (red code) (green code) (blue code)
  | .cube256, code => .palette code
  | .ansi16, code => .palette code

/-- Two colours and the four attributes. -/
def attrPen (fg bg : Color) (attrs : Nat) : Pen :=
  ⟨fg, bg, attrs &&& kAttrBold ≠ 0, attrs &&& kAttrDim ≠ 0, attrs &&& kAttrUnderline ≠ 0,
    attrs &&& kAttrReverse ≠ 0⟩

/-- A cell as a terminal shows it in mode `m`. -/
def ColorMode.slot (m : ColorMode) (c : Cell) : Slot :=
  ⟨if c.glyph = 0 then 0x20 else c.glyph,
    attrPen (m.shade (m.code c.fg)) (m.shade (m.code c.bg)) c.attrs⟩

/-- The screen is of size `w` by `h` and shows these cells. -/
structure Shows (m : ColorMode) (t : Term) (w h : Nat) (cell : Nat → Nat → Cell) : Prop where
  cols : t.cols = w
  rows : t.rows = h
  cells : ∀ x y, x < w → y < h → t.cells x y = m.slot (cell x y)

/-! ## Pieces of output -/

section Pieces

variable {r : Renderer} {t : Term}

@[simp] theorem Renderer.append_append (r : Renderer) (a b : List Nat) :
    (r.append a).append b = r.append (a ++ b) := by
  simp [Renderer.append, List.append_assoc]

/-- `CSI row ; col H` puts the cursor at column `x` of row `y`. -/
theorem run_moveTo {x y : Nat} (hg : t.mode = .ground) (hx : x < t.cols) (hy : y < t.rows)
    (hcols : t.cols ≤ kMaxCells) (hrows : t.rows ≤ kMaxCells) :
    Run.run Term.feed t (lit ['\x1b', '['] ++ (uintBytes (add32 y 1) ++ (lit [';'] ++
      (uintBytes (add32 x 1) ++ lit ['H'])))) = some { t with cursor := some (x, y) } := by
  have hmax : kMaxCells = 4194304 := rfl
  have hx32 : add32 x 1 = x + 1 := add32_of_lt (by omega)
  have hy32 : add32 y 1 = y + 1 := add32_of_lt (by omega)
  rw [hx32, hy32]
  have hend : { t.at .ground with cursor := some (x, y) } = { t with cursor := some (x, y) } := by
    rw [Term.at_ground hg]
  rw [← hend]
  rw [← Term.at_ground hg]
  refine Run.run_append.mpr ⟨t.at (.csi [] 0), rfl, Run.run_append.mpr
    ⟨t.at (.csi [] (y + 1)), run_uintBytes t [] (by omega), Run.run_append.mpr
      ⟨t.at (.csi [y + 1] 0), rfl, Run.run_append.mpr
        ⟨t.at (.csi [y + 1] (x + 1)), run_uintBytes t _ (by omega), ?_⟩⟩⟩⟩
  exact run_position ⟨by omega, by omega⟩ ⟨by omega, by omega⟩

/-- A direct colour: `CSI 38 ; 2 ; r ; g ; b m`, or `48`. -/
theorem run_rgb (hg : t.mode = .ground) (foreground : Bool) (c : Nat) :
    Run.run Term.feed t ((if foreground then lit ['\x1b', '[', '3', '8', ';', '2', ';']
        else lit ['\x1b', '[', '4', '8', ';', '2', ';']) ++ (uintBytes (red c) ++ (lit [';'] ++
          (uintBytes (green c) ++ (lit [';'] ++ (uintBytes (blue c) ++ lit ['m'])))))) =
      some { t with pen := t.pen.setColor foreground (.rgb (red c) (green c) (blue c)) } := by
  have hr := red_lt c
  have hgr := green_lt c
  have hb := blue_lt c
  have hsgr : sgr ([if foreground then 38 else 48, 2, red c, green c] ++ [blue c]) t.pen =
      some (t.pen.setColor foreground (.rgb (red c) (green c) (blue c))) :=
    sgr_rgb t.pen foreground hr hgr hb
  have hlast := run_sgr hsgr
  rw [Term.at_ground hg] at hlast
  refine Run.run_append.mpr ⟨t.at (.csi [if foreground then 38 else 48, 2] 0), ?_,
    Run.run_append.mpr ⟨_, run_uintBytes t _ (by omega), Run.run_append.mpr
      ⟨_, run_semicolon .., Run.run_append.mpr ⟨_, run_uintBytes t _ (by omega),
        Run.run_append.mpr ⟨_, run_semicolon .., Run.run_append.mpr
          ⟨_, run_uintBytes t _ (by omega), hlast⟩⟩⟩⟩⟩⟩
  rw [← Term.at_ground hg]
  cases foreground <;> rfl

/-- A palette colour by its index: `CSI 38 ; 5 ; n m`, or `48`. -/
theorem run_palette (hg : t.mode = .ground) (foreground : Bool) {code : Nat} (hcode : code < 256) :
    Run.run Term.feed t ((if foreground then lit ['\x1b', '[', '3', '8', ';', '5', ';']
        else lit ['\x1b', '[', '4', '8', ';', '5', ';']) ++ (uintBytes code ++ lit ['m'])) =
      some { t with pen := t.pen.setColor foreground (.palette code) } := by
  have hsgr : sgr ([if foreground then 38 else 48, 5] ++ [code]) t.pen =
      some (t.pen.setColor foreground (.palette code)) := sgr_palette t.pen foreground hcode
  have hlast := run_sgr hsgr
  rw [Term.at_ground hg] at hlast
  refine Run.run_append.mpr ⟨t.at (.csi [if foreground then 38 else 48, 5] 0), ?_,
    Run.run_append.mpr ⟨_, run_uintBytes t _ (by omega), hlast⟩⟩
  rw [← Term.at_ground hg]
  cases foreground <;> rfl

/-- One of the sixteen: a single number. -/
theorem run_sixteen (hg : t.mode = .ground) (foreground : Bool) {code : Nat} (hcode : code < 16) :
    Run.run Term.feed t (lit ['\x1b', '['] ++ (uintBytes (if code < 8
        then (if foreground then 30 else 40) + code
        else (if foreground then 90 else 100) + (code - 8)) ++ lit ['m'])) =
      some { t with pen := t.pen.setColor foreground (.palette code) } := by
  have hsgr := sgr_sixteen t.pen foreground hcode
  have hlast := @run_sgr t [] _ _ hsgr
  rw [Term.at_ground hg] at hlast
  refine Run.run_append.mpr ⟨t.at (.csi [] 0), ?_,
    Run.run_append.mpr ⟨_, run_uintBytes t _ ?_, hlast⟩⟩
  · rw [← Term.at_ground hg]
    rfl
  · split_ifs <;> omega

/-- `emit_color` sets the colour its code names, whatever the mode. -/
theorem Renderer.emitColor_run (r : Renderer) (foreground : Bool) (c : Nat) :
    ∃ bytes, r.emitColor foreground (r.mode.code c) = r.append bytes ∧ ∀ t : Term,
      t.mode = .ground → Run.run Term.feed t bytes = some
        { t with pen := t.pen.setColor foreground (r.mode.shade (r.mode.code c)) } := by
  unfold Renderer.emitColor
  cases hm : r.mode with
  | trueColor =>
      refine ⟨_, ?_, fun t hg => run_rgb hg foreground c⟩
      simp [Renderer.putUint, ColorMode.code]
  | cube256 =>
      refine ⟨_, ?_, fun t hg => run_palette hg foreground (rgbToCube256_lt c)⟩
      simp [Renderer.putUint, ColorMode.code]
  | ansi16 =>
      refine ⟨_, ?_, fun t hg => run_sixteen hg foreground (rgbToAnsi16_lt c)⟩
      by_cases hlow : rgbToAnsi16 c < 8
      · simp [Renderer.putUint, ColorMode.code, hlow]
      · simp [Renderer.putUint, ColorMode.code, hlow]

/-- `emit_pen`'s two sequences for attributes: a reset, and the codes of those
that are on. -/
def attrBytes (bold dim underline reverse : Bool) : List Nat :=
  lit ['\x1b', '[', '0', 'm', '\x1b', '['] ++ lit (['1', '2', '4', '7'].zip
    [bold, dim, underline, reverse] |>.filterMap (fun p => if p.2 then some p.1 else none)
      |>.intersperse ';') ++ lit ['m']

theorem run_attrBytes (hg : t.mode = .ground) (bold dim underline reverse : Bool) :
    Run.run Term.feed t (attrBytes bold dim underline reverse) =
      some { t with pen := ⟨.default, .default, bold, dim, underline, reverse⟩ } := by
  have hat := Term.at_ground hg
  rw [← hat]
  cases bold <;> cases dim <;> cases underline <;> cases reverse <;> rfl

/-- `emit_pen`'s codes for the attributes, one after another. -/
theorem Renderer.attrCodes_eq (r : Renderer) (attrs : Nat) :
    (attrCode attrs kAttrReverse '7' (attrCode attrs kAttrUnderline '4'
      (attrCode attrs kAttrDim '2' (attrCode attrs kAttrBold '1'
        ((r.append (lit ['\x1b', '[', '0', 'm'])).append (lit ['\x1b', '[']), true))))).1.append
          (lit ['m']) =
      r.append (attrBytes (attrs &&& kAttrBold ≠ 0) (attrs &&& kAttrDim ≠ 0)
        (attrs &&& kAttrUnderline ≠ 0) (attrs &&& kAttrReverse ≠ 0)) := by
  unfold attrCode attrBytes
  by_cases hb : attrs &&& kAttrBold = 0 <;> by_cases hd : attrs &&& kAttrDim = 0 <;>
    by_cases hu : attrs &&& kAttrUnderline = 0 <;> by_cases hr : attrs &&& kAttrReverse = 0 <;>
    simp [hb, hd, hu, hr, lit]

/-- A pen that is not held, or not with these attributes, is set up anew. -/
theorem Renderer.emitAttrs_run (r : Renderer) {attrs : Nat}
    (hpen : r.penValid = false ∨ attrs ≠ r.penAttrs) :
    ∃ bytes, r.emitAttrs attrs = { r.append bytes with penValid := false, penAttrs := attrs } ∧
      ∀ t : Term, t.mode = .ground → Run.run Term.feed t bytes = some
        { t with pen := attrPen .default .default attrs } := by
  unfold Renderer.emitAttrs
  rw [if_pos hpen]
  by_cases hzero : attrs = 0
  · subst hzero
    refine ⟨lit ['\x1b', '[', '0', 'm'], rfl, fun t hg => ?_⟩
    rw [← Term.at_ground hg]
    rfl
  · have hcodes := Renderer.attrCodes_eq { r with penValid := false } attrs
    refine ⟨_, ?_, fun t hg => run_attrBytes hg ..⟩
    simp only [ne_eq, hzero, not_false_eq_true, if_true]
    exact congrArg (fun r : Renderer => { r with penAttrs := attrs }) hcodes

end Pieces

/-! ## Beliefs -/

/-- What the renderer takes for granted of a terminal that has read its bytes
so far. -/
structure Held (r : Renderer) (t : Term) : Prop where
  ground : t.mode = .ground
  cursor : r.curValid = true → t.cursor = some (r.curX, r.curY)
  pen : r.penValid = true →
    t.pen = attrPen (r.mode.shade r.penFg) (r.mode.shade r.penBg) r.penAttrs

section Beliefs

variable {r : Renderer} {t₀ t : Term}

theorem Renderer.append_run {bytes : List Nat} {t' : Term}
    (h : Run.run Term.feed t₀ r.out = some t) (hbytes : Run.run Term.feed t bytes = some t') :
    Run.run Term.feed t₀ (r.append bytes).out = some t' := Run.run_append.mpr ⟨t, h, hbytes⟩

/-- `move_to`: the cursor is at the cell, moved or already there. -/
theorem Held.moveTo (h : Held r t) (hrun : Run.run Term.feed t₀ r.out = some t) {x y : Nat}
    (hx : x < t.cols) (hy : y < t.rows) (hcols : t.cols ≤ kMaxCells) (hrows : t.rows ≤ kMaxCells) :
    Run.run Term.feed t₀ (r.moveTo x y).out = some { t with cursor := some (x, y) } ∧
      Held (r.moveTo x y) { t with cursor := some (x, y) } ∧
      (r.moveTo x y).curValid = true ∧ (r.moveTo x y).curX = x ∧ (r.moveTo x y).curY = y ∧
      (r.moveTo x y).mode = r.mode := by
  unfold Renderer.moveTo
  by_cases hthere : r.curValid = true ∧ r.curX = x ∧ r.curY = y
  · rw [if_pos hthere]
    obtain ⟨hvalid, rfl, rfl⟩ := hthere
    have hsame : { t with cursor := some (r.curX, r.curY) } = t := by rw [← h.cursor hvalid]
    rw [hsame]
    exact ⟨hrun, h, hvalid, rfl, rfl, rfl⟩
  · rw [if_neg hthere]
    refine ⟨?_, ⟨h.ground, fun _ => rfl, h.pen⟩, rfl, rfl, rfl, rfl⟩
    have hmove := Renderer.append_run hrun (run_moveTo h.ground hx hy hcols hrows)
    simp only [Renderer.putUint, Renderer.append_append, List.append_assoc]
    exact hmove

/-- A colour of the pen is emitted, or held already. -/
theorem Renderer.color_run (foreground : Bool) (c held : Nat) (hg : t.mode = .ground)
    (hrun : Run.run Term.feed t₀ r.out = some t)
    (hheld : r.penValid = true → t.pen.setColor foreground (r.mode.shade held) = t.pen) :
    ∃ bytes, (if r.penValid = false ∨ r.mode.code c ≠ held then
        r.emitColor foreground (r.mode.code c) else r) = r.append bytes ∧
      Run.run Term.feed t₀ (r.append bytes).out = some
        { t with pen := t.pen.setColor foreground (r.mode.shade (r.mode.code c)) } := by
  by_cases hemit : r.penValid = false ∨ r.mode.code c ≠ held
  · obtain ⟨bytes, heq, hbytes⟩ := r.emitColor_run foreground c
    exact ⟨bytes, by rw [if_pos hemit, heq], Renderer.append_run hrun (hbytes t hg)⟩
  · have hnil : r.append [] = r := by simp [Renderer.append]
    refine ⟨[], by rw [if_neg hemit, hnil], ?_⟩
    push Not at hemit
    rw [hnil, hemit.2, hheld (by simpa using hemit.1)]
    exact hrun

theorem Renderer.emitFg_run (c : Nat) (hg : t.mode = .ground)
    (hrun : Run.run Term.feed t₀ r.out = some t)
    (hheld : r.penValid = true → t.pen.fg = r.mode.shade r.penFg) :
    ∃ bytes, r.emitFg (r.mode.code c) = { r.append bytes with penFg := r.mode.code c } ∧
      Run.run Term.feed t₀ (r.append bytes).out = some
        { t with pen := { t.pen with fg := r.mode.shade (r.mode.code c) } } := by
  obtain ⟨bytes, heq, hbytes⟩ := Renderer.color_run true c r.penFg hg hrun
    fun hv => by simp [Pen.setColor, ← hheld hv]
  refine ⟨bytes, ?_, hbytes⟩
  rw [← heq, Renderer.emitFg]
  split_ifs with hemit
  · rfl
  · push Not at hemit
    rw [hemit.2]

theorem Renderer.emitBg_run (c : Nat) (hg : t.mode = .ground)
    (hrun : Run.run Term.feed t₀ r.out = some t)
    (hheld : r.penValid = true → t.pen.bg = r.mode.shade r.penBg) :
    ∃ bytes, r.emitBg (r.mode.code c) = { r.append bytes with penBg := r.mode.code c } ∧
      Run.run Term.feed t₀ (r.append bytes).out = some
        { t with pen := { t.pen with bg := r.mode.shade (r.mode.code c) } } := by
  obtain ⟨bytes, heq, hbytes⟩ := Renderer.color_run false c r.penBg hg hrun
    fun hv => by simp [Pen.setColor, ← hheld hv]
  refine ⟨bytes, ?_, hbytes⟩
  rw [← heq, Renderer.emitBg]
  split_ifs with hemit
  · rfl
  · push Not at hemit
    rw [hemit.2]

/-- After the attributes the pen is right up to its colours, and a colour it
still holds is on it. -/
theorem Held.emitAttrs (h : Held r t) (hrun : Run.run Term.feed t₀ r.out = some t) (attrs : Nat) :
    ∃ bytes valid fg bg, r.emitAttrs attrs =
        { r.append bytes with penValid := valid, penAttrs := attrs } ∧
      Run.run Term.feed t₀ (r.append bytes).out = some { t with pen := attrPen fg bg attrs } ∧
      (valid = true → fg = r.mode.shade r.penFg ∧ bg = r.mode.shade r.penBg) := by
  by_cases hpen : r.penValid = false ∨ attrs ≠ r.penAttrs
  · obtain ⟨bytes, heq, hbytes⟩ := r.emitAttrs_run hpen
    exact ⟨bytes, false, .default, .default, heq, Renderer.append_run hrun (hbytes t h.ground),
      fun hfalse => (by cases hfalse)⟩
  · push Not at hpen
    obtain ⟨hvalid, rfl⟩ := hpen
    have hvalid : r.penValid = true := by simpa using hvalid
    refine ⟨[], true, _, _, ?_, ?_, fun _ => ⟨rfl, rfl⟩⟩
    · rw [Renderer.emitAttrs, if_neg (by simp [hvalid]), ← hvalid]
      simp [Renderer.append]
    · rw [← h.pen hvalid]
      simpa [Renderer.append] using hrun

/-- `emit_pen`: whatever was left out, the pen is the cell's. -/
theorem Held.emitPen (h : Held r t) (hrun : Run.run Term.feed t₀ r.out = some t) (c : Cell) :
    Run.run Term.feed t₀ (r.emitPen c).out = some { t with pen := (r.mode.slot c).pen } ∧
      Held (r.emitPen c) { t with pen := (r.mode.slot c).pen } ∧
      (r.emitPen c).curValid = r.curValid ∧ (r.emitPen c).curX = r.curX ∧
      (r.emitPen c).curY = r.curY ∧ (r.emitPen c).mode = r.mode := by
  obtain ⟨bytes, valid, fg, bg, hattrs, hrun₁, hheld⟩ := h.emitAttrs hrun c.attrs
  obtain ⟨fgBytes, hfg, hrun₂⟩ := @Renderer.emitFg_run
    { r.append bytes with penValid := valid, penAttrs := c.attrs } t₀
    { t with pen := attrPen fg bg c.attrs } c.fg h.ground hrun₁ fun hv => (hheld hv).1
  obtain ⟨bgBytes, hbg, hrun₃⟩ := @Renderer.emitBg_run
    { (r.append bytes).append fgBytes with
      penValid := valid, penAttrs := c.attrs, penFg := r.mode.code c.fg } t₀
    { t with pen := attrPen (r.mode.shade (r.mode.code c.fg)) bg c.attrs } c.bg h.ground hrun₂
    fun hv => (hheld hv).2
  have hpen : r.emitPen c = { ((r.append bytes).append fgBytes).append bgBytes with
      penValid := true, penAttrs := c.attrs, penFg := r.mode.code c.fg,
      penBg := r.mode.code c.bg } := by
    unfold Renderer.emitPen
    rw [hattrs]
    refine congrArg (fun r : Renderer => { r with penValid := true }) (Eq.trans ?_ hbg)
    exact congrArg (fun r₂ : Renderer => r₂.emitBg (r.mode.code c.bg)) hfg
  rw [hpen]
  exact ⟨hrun₃, ⟨h.ground, h.cursor, fun _ => rfl⟩, rfl, rfl, rfl, rfl⟩

/-- `put_utf8` prints the glyph at the cursor, a space for none. -/
theorem Renderer.putUtf8_run (hg : t.mode = .ground) (hrun : Run.run Term.feed t₀ r.out = some t)
    {x y glyph : Nat} (hcur : t.cursor = some (x, y)) (hglyph : glyph = 0 ∨ Printable glyph) :
    Run.run Term.feed t₀ (r.putUtf8 glyph).out =
      some { t.setSlot x y ⟨if glyph = 0 then 0x20 else glyph, t.pen⟩ with
        cursor := if x + 1 < t.cols then some (x + 1, y) else none } := by
  have hprint : Printable (if glyph = 0 then 0x20 else glyph) := by
    split_ifs with hzero
    · decide
    · exact hglyph.resolve_left hzero
  refine Renderer.append_run hrun ?_
  have hbytes := run_utf8Encode t hprint
  rw [Term.at_ground hg] at hbytes
  rw [hbytes, Term.print, hcur]
  simp only [if_pos hprint, Term.setSlot, hg]

/-- The terminal after one cell: the slot is on screen, its pen in hand, and
the cursor behind it, unless that is off the row. -/
def drawn (t : Term) (x y : Nat) (s : Slot) : Term :=
  { t.setSlot x y s with
    cursor := if x + 1 < t.cols then some (x + 1, y) else none
    pen := s.pen }

/-- A cell is drawn by a move, a pen and a glyph. -/
theorem Held.draw (h : Held r t) (hrun : Run.run Term.feed t₀ r.out = some t) {x y : Nat}
    (hx : x < t.cols) (hy : y < t.rows) (hcols : t.cols ≤ kMaxCells) (hrows : t.rows ≤ kMaxCells)
    {c : Cell} (hglyph : c.glyph = 0 ∨ Printable c.glyph) :
    ∃ r', ((r.moveTo x y).emitPen c).putUtf8 c.glyph = r' ∧
      Run.run Term.feed t₀ r'.out = some (drawn t x y (r.mode.slot c)) ∧
      (r'.penValid = true →
        (r.mode.slot c).pen = attrPen (r.mode.shade r'.penFg) (r.mode.shade r'.penBg) r'.penAttrs) ∧
      r'.curX = x ∧ r'.curY = y ∧ r'.mode = r.mode := by
  obtain ⟨hrun₁, hheld₁, -, hx₁, hy₁, hmode₁⟩ := h.moveTo hrun hx hy hcols hrows
  obtain ⟨hrun₂, hheld₂, -, hx₂, hy₂, hmode₂⟩ := hheld₁.emitPen hrun₁ c
  have hrun₃ := Renderer.putUtf8_run hheld₂.ground hrun₂ rfl hglyph
  have hpen := hheld₂.pen
  rw [hmode₁] at hrun₃
  rw [hmode₂, hmode₁] at hpen
  exact ⟨_, rfl, hrun₃, hpen, hx₂.trans hx₁, hy₂.trans hy₁, hmode₂.trans hmode₁⟩

end Beliefs

/-! ## The loop -/

/-- After part of a frame: the cells it has `done` are those of the back
buffer, the others are as they were. -/
structure Painted (fb : Framebuffer) (m : ColorMode) (t₀ : Term) (done : Nat → Nat → Prop)
    (r : Renderer) (t : Term) : Prop where
  run : Run.run Term.feed t₀ r.out = some t
  held : Held r t
  mode : r.mode = m
  cols : t.cols = fb.w
  rows : t.rows = fb.h
  painted : ∀ x y, x < fb.w → done x y → t.cells x y = m.slot (fb.atBack x y)
  rest : ∀ x y, ¬ done x y → t.cells x y = t₀.cells x y

section Loop

variable {fb : Framebuffer} {m : ColorMode} {t₀ t : Term} {done done' : Nat → Nat → Prop}
  {r : Renderer} {full : Bool}

theorem Painted.congr (h : Painted fb m t₀ done r t) (himp : ∀ x y, done x y → done' x y)
    (hback : ∀ x y, x < fb.w → done' x y → done x y) : Painted fb m t₀ done' r t :=
  ⟨h.run, h.held, h.mode, h.cols, h.rows, fun x y hx hd => h.painted x y hx (hback x y hx hd),
    fun x y hd => h.rest x y fun hd' => hd (himp x y hd')⟩

/-- One turn of the inner loop. -/
theorem Painted.renderCell (h : Painted fb m t₀ done r t) {x y : Nat} (hx : x < fb.w)
    (hy : y < fb.h) (hglyph : (fb.atBack x y).glyph = 0 ∨ Printable (fb.atBack x y).glyph)
    (hnew : ¬ done x y) (hfront : full = false → t₀.cells x y = m.slot (fb.atFront x y)) :
    ∃ t', Painted fb m t₀ (fun x' y' => done x' y' ∨ (x' = x ∧ y' = y))
      (Renderer.renderCell fb full y r x) t' := by
  have hne : fb.isEmpty = false := Framebuffer.isEmpty_of_inside hx hy
  obtain ⟨hw, hh⟩ := Framebuffer.sides_le hne
  unfold Renderer.renderCell
  by_cases hskip : full = false ∧ fb.atBack x y = fb.atFront x y
  · -- the cell is left alone: it shows the front's, which is the back's
    refine ⟨t, ?_⟩
    simp only [if_pos hskip]
    refine ⟨h.run, ⟨h.held.ground, h.held.cursor, h.held.pen⟩, h.mode, h.cols, h.rows, ?_,
      fun x' y' hd => h.rest x' y' fun hd' => hd (.inl hd')⟩
    rintro x' y' hx' (hd | ⟨rfl, rfl⟩)
    · exact h.painted x' y' hx' hd
    · rw [h.rest x' y' hnew, hfront hskip.1, hskip.2]
  · have hstart : Held { r with examined := r.examined + 1 } t :=
      ⟨h.held.ground, h.held.cursor, h.held.pen⟩
    obtain ⟨r', hr', hrun, hpen, hx', hy', hmode⟩ := hstart.draw h.run (h.cols ▸ hx) (h.rows ▸ hy)
      (h.cols ▸ hw) (h.rows ▸ hh) hglyph
    simp only [if_neg hskip, hr', hx']
    have hslot : r.mode = m := h.mode
    refine ⟨drawn t x y (m.slot (fb.atBack x y)), ?_⟩
    subst hslot
    have hcells : ∀ x' y', (drawn t x y (r.mode.slot (fb.atBack x y))).cells x' y' =
        if x' = x ∧ y' = y then r.mode.slot (fb.atBack x y) else t.cells x' y' := fun _ _ => rfl
    have hdone : ∀ x' y', x' < fb.w → done x' y' ∨ (x' = x ∧ y' = y) →
        (drawn t x y (r.mode.slot (fb.atBack x y))).cells x' y' =
          r.mode.slot (fb.atBack x' y') := by
      intro x' y' hx' hd
      rw [hcells]
      split_ifs with hhere
      · obtain ⟨rfl, rfl⟩ := hhere
        rfl
      · exact h.painted x' y' hx' (hd.resolve_right hhere)
    have hrest : ∀ x' y', ¬ (done x' y' ∨ (x' = x ∧ y' = y)) →
        (drawn t x y (r.mode.slot (fb.atBack x y))).cells x' y' = t₀.cells x' y' := by
      intro x' y' hd
      rw [hcells, if_neg fun hhere => hd (.inr hhere)]
      exact h.rest x' y' fun hd' => hd (.inl hd')
    by_cases hlast : x + 1 ≥ fb.w
    · rw [if_pos hlast]
      exact ⟨hrun, ⟨h.held.ground, fun hfalse => (by cases hfalse), hmode ▸ hpen⟩, hmode, h.cols,
        h.rows, hdone, hrest⟩
    · rw [if_neg hlast]
      refine ⟨hrun, ⟨h.held.ground, fun _ => ?_, hmode ▸ hpen⟩, hmode, h.cols, h.rows, hdone, hrest⟩
      have hnext : x + 1 < t.cols := by rw [h.cols]; omega
      show (if x + 1 < t.cols then some (x + 1, y) else none) = some (x + 1, r'.curY)
      rw [if_pos hnext, hy']

/-- The cells before column `n` of row `y`, in the order of the loops. -/
def before (y n : Nat) : Nat → Nat → Prop := fun x' y' => y' < y ∨ (y' = y ∧ x' < n)

/-- The glyphs the terminal has a column for. -/
def Framebuffer.Plain (fb : Framebuffer) : Prop :=
  ∀ x, x < fb.w → ∀ y, y < fb.h → (fb.atBack x y).glyph = 0 ∨ Printable (fb.atBack x y).glyph

instance (fb : Framebuffer) : Decidable fb.Plain :=
  inferInstanceAs (Decidable (∀ x, x < fb.w → ∀ y, y < fb.h → _))

theorem Painted.renderRow (hplain : fb.Plain)
    (hfront : full = false → ∀ x y, x < fb.w → y < fb.h → t₀.cells x y = m.slot (fb.atFront x y))
    {y : Nat} (hy : y < fb.h) (h : Painted fb m t₀ (before y 0) r t) :
    ∃ t', Painted fb m t₀ (before (y + 1) 0) (Renderer.renderRow fb full r y) t' := by
  -- induction on how many columns of the row are done
  have hcols : ∀ n, n ≤ fb.w → ∃ t', Painted fb m t₀ (before y n)
      ((List.range n).foldl (Renderer.renderCell fb full y) r) t' := by
    intro n
    induction n with
    | zero => exact fun _ => ⟨t, h⟩
    | succ n ih =>
        intro hn
        obtain ⟨t', h'⟩ := ih (Nat.le_of_succ_le hn)
        obtain ⟨t'', h''⟩ := h'.renderCell hn hy (hplain n hn y hy)
          (by simp [before]) fun hfull => hfront hfull n y hn hy
        rw [List.range_succ, List.foldl_append]
        refine ⟨t'', h''.congr ?_ ?_⟩
        · intro x' y' hd
          unfold before at hd ⊢
          omega
        · intro x' y' _ hd
          unfold before at hd ⊢
          omega
  obtain ⟨t', h'⟩ := hcols fb.w (Nat.le_refl _)
  refine ⟨t', h'.congr ?_ ?_⟩
  · intro x' y' hd
    unfold before at hd ⊢
    omega
  · intro x' y' hx' hd
    unfold before at hd ⊢
    omega

theorem Painted.renderRows (hplain : fb.Plain)
    (hfront : full = false → ∀ x y, x < fb.w → y < fb.h → t₀.cells x y = m.slot (fb.atFront x y))
    (h : Painted fb m t₀ (before 0 0) r t) :
    ∀ n, n ≤ fb.h → ∃ t', Painted fb m t₀ (before n 0)
      ((List.range n).foldl (Renderer.renderRow fb full) r) t' := by
  intro n
  induction n with
  | zero => exact fun _ => ⟨t, h⟩
  | succ n ih =>
      intro hn
      obtain ⟨t', h'⟩ := ih (Nat.le_of_succ_le hn)
      obtain ⟨t'', h''⟩ := h'.renderRow hplain hfront hn
      rw [List.range_succ, List.foldl_append]
      exact ⟨t'', h''⟩

end Loop

/-! ## Frames -/

/-- A frame, full or not, read by a terminal of the buffer's size: afterwards
the terminal shows the back buffer, is ready for more, and if anything was
sent its pen is plain; the renderer's colours are as before. -/
theorem Renderer.render_run (r : Renderer) {fb : Framebuffer} {full : Bool} {t : Term}
    (hne : fb.isEmpty = false) (hplain : fb.Plain) (hg : t.mode = .ground) (hcols : t.cols = fb.w)
    (hrows : t.rows = fb.h) (hfront : full = false → Shows r.mode t fb.w fb.h fb.atFront) :
    ∃ t', Run.run Term.feed t (r.render fb full).1.out = some t' ∧ t'.mode = .ground ∧
      Shows r.mode t' fb.w fb.h fb.atBack ∧
      ((r.render fb full).1.out ≠ [] → t'.pen = .plain) ∧
      (r.render fb full).1.mode = r.mode := by
  have hstart : Painted fb r.mode t (before 0 0)
      { r with out := [], penValid := false, curValid := false, emitted := 0, examined := 0 } t :=
    ⟨rfl, ⟨hg, fun hfalse => (by cases hfalse), fun hfalse => (by cases hfalse)⟩, rfl, hcols, hrows,
      fun x y _ hd => (by simp [before] at hd), fun _ _ _ => rfl⟩
  obtain ⟨t', h⟩ := hstart.renderRows hplain (fun hfull => (hfront hfull).cells) fb.h
    (Nat.le_refl _)
  have hcells : ∀ x y, x < fb.w → y < fb.h → t'.cells x y = r.mode.slot (fb.atBack x y) :=
    fun x y hx hy => h.painted x y hx (.inl hy)
  unfold Renderer.render
  simp only [hne, Bool.false_eq_true, if_false]
  by_cases hout : ((List.range fb.h).foldl (Renderer.renderRow fb full) { r with
      out := [], penValid := false, curValid := false, emitted := 0, examined := 0 }).out = []
  · rw [if_neg (by simpa using hout)]
    exact ⟨t', h.run, h.held.ground, ⟨h.cols, h.rows, hcells⟩, fun hsent => absurd hout hsent,
      h.mode⟩
  · rw [if_pos (by simpa using hout)]
    refine ⟨{ t' with pen := .plain }, Renderer.append_run h.run ?_, h.held.ground,
      ⟨h.cols, h.rows, hcells⟩, fun _ => rfl, h.mode⟩
    rw [← Term.at_ground h.held.ground]
    rfl

/-- **A frame is shown.** In every colour mode and for every buffer that is not
empty and holds glyphs the terminal can print: if the screen shows the
front buffer, then after the bytes of a differential frame it shows the
back buffer; after the bytes of a full one it does so whatever it showed
before, with whatever pen and cursor. Whenever bytes are sent, the pen is
left plain. -/
theorem render_shows_back (r : Renderer) (fb : Framebuffer) (hne : fb.isEmpty = false)
    (hplain : fb.Plain) (t : Term) (hg : t.mode = .ground) (hcols : t.cols = fb.w)
    (hrows : t.rows = fb.h) :
    (Shows r.mode t fb.w fb.h fb.atFront →
      ∃ t', Run.run Term.feed t (r.render fb false).1.out = some t' ∧
        Shows r.mode t' fb.w fb.h fb.atBack ∧
        ((r.render fb false).1.out ≠ [] → t'.pen = .plain)) ∧
    ∃ t', Run.run Term.feed t (r.render fb true).1.out = some t' ∧
      Shows r.mode t' fb.w fb.h fb.atBack ∧
      ((r.render fb true).1.out ≠ [] → t'.pen = .plain) := by
  constructor
  · intro hfront
    obtain ⟨t', hrun, -, hshows, hpen, -⟩ := r.render_run hne hplain hg hcols hrows fun _ => hfront
    exact ⟨t', hrun, hshows, hpen⟩
  · obtain ⟨t', hrun, -, hshows, hpen, -⟩ :=
      @Renderer.render_run r fb true t hne hplain hg hcols hrows fun hfull => (by cases hfull)
    exact ⟨t', hrun, hshows, hpen⟩

/-- Three cells, the middle one drawn bold over an empty frame. -/
def boldMiddle : Framebuffer :=
  (Framebuffer.init.resize 3 1).1.put 1 0 ⟨0x2588, 0xFF0000, kDefaultBg, kAttrBold⟩

/-- A terminal that shows the front buffer. -/
def screenOf (m : ColorMode) (fb : Framebuffer) : Term :=
  ⟨fb.w, fb.h, fun x y => m.slot (fb.atFront x y), none, .plain, .ground⟩

theorem render_shows_back_bold :
    ∃ t', Run.run Term.feed (screenOf .trueColor boldMiddle)
        (Renderer.init.render boldMiddle false).1.out = some t' ∧
      Shows .trueColor t' 3 1 boldMiddle.atBack ∧ t'.pen = .plain := by
  obtain ⟨t', hrun, hshows, hpen⟩ := (render_shows_back Renderer.init boldMiddle (by decide)
    (by decide) (screenOf .trueColor boldMiddle) rfl rfl rfl).1 ⟨rfl, rfl, fun _ _ _ _ => rfl⟩
  exact ⟨t', hrun, hshows, hpen (by decide)⟩

end Heapviz
