import Mathlib.Data.List.Induction
import Heapviz.HeapApp
import Heapviz.TextCells

/-!
# Drawing clips

The drawing calls of `tui/framebuffer.cpp` beside `put` and `text`: `fill`,
which intersects its rectangle with the grid first, and `box`, which clamps its
edge loops and leaves the rest to `put`. Coordinates are `int`; they are
widened to 64 bits before anything is added and narrowed again for the call
that writes, which `toInt32` does as the conversion does it, modulo 2^32.

What a drawing does is said by `Framebuffer.Paints`: which cell of the grid
gets which content, all others and the front buffer being left alone. Drawings
compose (`Paints.trans`), and a loop paints what its turns paint
(`Paints.foldl`).
-/

namespace Heapviz

/-! ## Narrowing -/

/-- `static_cast<int>` of a 64-bit number. -/
def toInt32 (v : Int) : Int := v.bmod (2 ^ 32)

theorem toInt32_of_fits {v : Int} (hlow : -2 ^ 31 ≤ v) (hhigh : v < 2 ^ 31) : toInt32 v = v := by
  unfold toInt32
  exact Int.bmod_eq_of_le (by omega) (by omega)

/-- A number up to twice the range of `int` is narrowed to a coordinate of the
grid only if it is one. -/
theorem toInt32_eq_iff {v : Int} {x : Nat} (hlow : -2 ^ 31 ≤ v) (hhigh : v < 2 ^ 32)
    (hx : x < 2 ^ 31) : toInt32 v = x ↔ v = x := by
  unfold toInt32 Int.bmod
  dsimp only
  split_ifs <;> omega

/-! ## The calls -/

/-- `clip_rect`: what is left of the rectangle, if anything. -/
def clipRect (r : Rect) (w h : Int) : Option Rect :=
  if r.w ≤ 0 ∨ r.h ≤ 0 ∨ w ≤ 0 ∨ h ≤ 0 then none
  else
    let x0 := max r.x 0
    let y0 := max r.y 0
    let x1 := min (r.x + r.w) w
    let y1 := min (r.y + r.h) h
    if x1 ≤ x0 ∨ y1 ≤ y0 then none
    else some ⟨toInt32 x0, toInt32 y0, toInt32 (x1 - x0), toInt32 (y1 - y0)⟩

structure BoxGlyphs where
  h : Nat
  v : Nat
  tl : Nat
  tr : Nat
  bl : Nat
  br : Nat
deriving Repr, DecidableEq

inductive BoxStyle where
  | light
  | heavy
  | rounded
  | ascii
deriving Repr, DecidableEq

/-- `glyphs_for`. -/
def glyphsFor : BoxStyle → BoxGlyphs
  | .light => ⟨0x2500, 0x2502, 0x250C, 0x2510, 0x2514, 0x2518⟩
  | .heavy => ⟨0x2501, 0x2503, 0x250F, 0x2513, 0x2517, 0x251B⟩
  | .rounded => ⟨0x2500, 0x2502, 0x256D, 0x256E, 0x2570, 0x256F⟩
  | .ascii => ⟨0x2D, 0x7C, 0x2B, 0x2B, 0x2B, 0x2B⟩

/-- The values of a loop variable from `a` to `b`, both included. -/
def intsUpTo (a b : Int) : List Int := (List.range (b + 1 - a).toNat).map fun i : Nat => a + i

namespace Framebuffer

/-- One `std::fill` over `n` cells of row `y`. -/
def fillRow (x y n : Nat) (c : Cell) (fb : Framebuffer) : Framebuffer :=
  (List.range n).foldl (fun fb i => fb.setBack (x + i) y c) fb

def fill (fb : Framebuffer) (r : Rect) (c : Cell) : Framebuffer :=
  match clipRect r fb.w fb.h with
  | none => fb
  | some r =>
      (List.range r.h.toNat).foldl
        (fun fb i => fb.fillRow r.x.toNat (r.y.toNat + i) r.w.toNat c) fb

/-- The loop of `box` over the two horizontal edges. -/
def boxRows (x0 y0 x1 y1 : Int) (c : Cell) (fb : Framebuffer) : Framebuffer :=
  (intsUpTo (max (x0 + 1) 0) (min (x1 - 1) (fb.w - 1))).foldl
    (fun fb x =>
      let fb := fb.put (toInt32 x) (toInt32 y0) c
      if y1 ≠ y0 then fb.put (toInt32 x) (toInt32 y1) c else fb) fb

/-- The loop of `box` over the two vertical edges. -/
def boxColumns (x0 y0 x1 y1 : Int) (c : Cell) (fb : Framebuffer) : Framebuffer :=
  (intsUpTo (max (y0 + 1) 0) (min (y1 - 1) (fb.h - 1))).foldl
    (fun fb y =>
      let fb := fb.put (toInt32 x0) (toInt32 y) c
      if x1 ≠ x0 then fb.put (toInt32 x1) (toInt32 y) c else fb) fb

/-- The corners of `box`, as many as the rectangle has. -/
def boxCorners (x0 y0 x1 y1 : Int) (g : BoxGlyphs) (cell : Nat → Cell) (fb : Framebuffer) :
    Framebuffer :=
  let fb := fb.put (toInt32 x0) (toInt32 y0) (cell g.tl)
  let fb := if x1 ≠ x0 then fb.put (toInt32 x1) (toInt32 y0) (cell g.tr) else fb
  let fb := if y1 ≠ y0 then fb.put (toInt32 x0) (toInt32 y1) (cell g.bl) else fb
  if x1 ≠ x0 ∧ y1 ≠ y0 then fb.put (toInt32 x1) (toInt32 y1) (cell g.br) else fb

def box (fb : Framebuffer) (r : Rect) (style : BoxStyle) (fg bg attrs : Nat) : Framebuffer :=
  if r.w ≤ 0 ∨ r.h ≤ 0 ∨ fb.isEmpty = true then fb
  else
    let g := glyphsFor style
    let cell := fun ch => (⟨ch, fg, bg, attrs⟩ : Cell)
    let x1 := r.x + r.w - 1
    let y1 := r.y + r.h - 1
    let fb := fb.boxRows r.x r.y x1 y1 (cell g.h)
    let fb := fb.boxColumns r.x r.y x1 y1 (cell g.v)
    -- corners last, so that they win over the edges
    fb.boxCorners r.x r.y x1 y1 g cell

end Framebuffer

/-! ## What a drawing paints -/

/-- Cells of the grid get what `new` has for them, the others stay; so do the
front buffer and the size. -/
structure Framebuffer.Paints (fb fb' : Framebuffer) (new : Nat → Nat → Option Cell) : Prop
    extends fb.SameFront fb' where
  back : ∀ x y, x < fb.w → y < fb.h → fb'.atBack x y = (new x y).getD (fb.atBack x y)

namespace Framebuffer.Paints

variable {fb fb' fb'' : Framebuffer} {new new' : Nat → Nat → Option Cell}

theorem nothing (fb : Framebuffer) : fb.Paints fb fun _ _ => none := ⟨.refl fb, fun _ _ _ _ => rfl⟩

theorem congr (h : fb.Paints fb' new)
    (heq : ∀ x y, x < fb.w → y < fb.h → new x y = new' x y) : fb.Paints fb' new' :=
  ⟨h.toSameFront, fun x y hx hy => heq x y hx hy ▸ h.back x y hx hy⟩

/-- What is painted later is on top. -/
theorem trans (h : fb.Paints fb' new) (h' : fb'.Paints fb'' new') :
    fb.Paints fb'' fun x y => (new' x y).or (new x y) := by
  refine ⟨h.toSameFront.trans h'.toSameFront, fun x y hx hy => ?_⟩
  rw [h'.back x y (h.w ▸ hx) (h.h ▸ hy), h.back x y hx hy]
  cases new' x y <;> rfl

theorem call (fb : Framebuffer) (c : DrawCall) : fb.Paints (c.apply fb) c.cellAt :=
  ⟨c.apply_sameFront fb, fun _ _ hx hy => c.apply_atBack fb hx hy⟩

theorem put (fb : Framebuffer) (px py : Int) (c : Cell) :
    fb.Paints (fb.put px py c) fun x y => if px = x ∧ py = y then some c else none :=
  call fb (.put px py c)

theorem setBack {px py : Nat} (hpx : px < fb.w) (hpy : py < fb.h) (c : Cell) :
    fb.Paints (fb.setBack px py c) fun x y => if px = x ∧ py = y then some c else none := by
  refine ⟨fb.setBack_sameFront px py c, fun x y hx hy => ?_⟩
  rw [Framebuffer.setBack_atBack hpx hpy c hx hy]
  split <;> rfl

/-- A branch that may not be taken. -/
theorem ite {p : Prop} [Decidable p] (h : p → fb.Paints fb' new) :
    fb.Paints (if p then fb' else fb) fun x y => if p then new x y else none := by
  by_cases hp : p
  · simp only [if_pos hp]
    exact h hp
  · simp only [if_neg hp]
    exact nothing fb

/-- A loop whose turns agree on what they paint. -/
theorem foldl {ι : Type} {step : Framebuffer → ι → Framebuffer}
    {part : ι → Nat → Nat → Option Cell} (is : List ι)
    (hstep : ∀ i ∈ is, ∀ fb', fb.SameFront fb' → fb'.Paints (step fb' i) (part i))
    (hpart : ∀ x y, x < fb.w → y < fb.h → ∀ i ∈ is, ∀ c, part i x y = some c → new x y = some c)
    (hnew : ∀ x y, x < fb.w → y < fb.h → ∀ c, new x y = some c → ∃ i ∈ is, part i x y = some c) :
    fb.Paints (is.foldl step fb) new := by
  -- the union of the turns so far, the later ones on top
  have hunion : ∀ js : List ι, (∀ i ∈ js, i ∈ is) → ∀ fb', fb.SameFront fb' →
      fb'.Paints (js.foldl step fb') fun x y =>
        js.foldl (fun acc i => (part i x y).or acc) none := by
    intro js
    induction js using List.reverseRecOn with
    | nil => exact fun _ fb' _ => nothing fb'
    | append_singleton js i ih =>
        intro hjs fb' hsame
        have hrest := ih (fun j hj => hjs j (List.mem_append_left _ hj)) fb' hsame
        have hlast := hstep i (hjs i List.mem_concat_self) _ (hsame.trans hrest.toSameFront)
        simp only [List.foldl_append, List.foldl_cons, List.foldl_nil]
        exact hrest.trans hlast
  refine (hunion is (fun _ hi => hi) fb (.refl fb)).congr fun x y hx hy => ?_
  have hagree : ∀ js : List ι, (∀ i ∈ js, i ∈ is) →
      js.foldl (fun acc i => (part i x y).or acc) none =
        if ∃ i ∈ js, (part i x y).isSome then new x y else none := by
    intro js
    induction js using List.reverseRecOn with
    | nil => simp
    | append_singleton js i ih =>
        intro hjs
        rw [List.foldl_append, List.foldl_cons, List.foldl_nil,
          ih fun j hj => hjs j (List.mem_append_left _ hj)]
        cases hi : part i x y with
        | none => simp [hi]
        | some c =>
            have hc := hpart x y hx hy i (hjs i List.mem_concat_self) c hi
            simp [hi, hc]
  rw [hagree is fun _ hi => hi]
  split_ifs with hsome
  · rfl
  · cases hxy : new x y with
    | none => rfl
    | some c =>
        obtain ⟨i, hi, hpart⟩ := hnew x y hx hy c hxy
        exact absurd ⟨i, hi, by rw [hpart]; rfl⟩ hsome

/-- A loop that writes one cell over and over. -/
theorem foldl_area {ι : Type} {step : Framebuffer → ι → Framebuffer} {c : Cell}
    (turn : ι → Nat → Nat → Prop) {area : Nat → Nat → Prop}
    [∀ i x y, Decidable (turn i x y)] [∀ x y, Decidable (area x y)] (is : List ι)
    (hstep : ∀ i ∈ is, ∀ fb', fb.SameFront fb' →
      fb'.Paints (step fb' i) fun x y => if turn i x y then some c else none)
    (harea : ∀ x y, x < fb.w → y < fb.h → (area x y ↔ ∃ i ∈ is, turn i x y)) :
    fb.Paints (is.foldl step fb) fun x y => if area x y then some c else none := by
  refine foldl is hstep (fun x y hx hy i hi c' hc' => ?_) (fun x y hx hy c' hc' => ?_)
  · obtain ⟨hturn, hcell⟩ := Option.ite_none_right_eq_some.mp hc'
    rw [if_pos ((harea x y hx hy).mpr ⟨i, hi, hturn⟩), hcell]
  · obtain ⟨hin, hcell⟩ := Option.ite_none_right_eq_some.mp hc'
    obtain ⟨i, hi, hturn⟩ := (harea x y hx hy).mp hin
    exact ⟨i, hi, by rw [if_pos hturn, hcell]⟩

end Framebuffer.Paints

/-! ## Rectangles -/

/-- The point lies in the rectangle. -/
def Rect.Has (r : Rect) (x y : Int) : Prop :=
  r.x ≤ x ∧ x < r.x + r.w ∧ r.y ≤ y ∧ y < r.y + r.h

instance (r : Rect) (x y : Int) : Decidable (r.Has x y) := inferInstanceAs (Decidable (_ ∧ _))

/-- The four numbers are each an `int`. -/
structure Rect.Fits (r : Rect) : Prop where
  x : -2 ^ 31 ≤ r.x ∧ r.x < 2 ^ 31
  y : -2 ^ 31 ≤ r.y ∧ r.y < 2 ^ 31
  w : -2 ^ 31 ≤ r.w ∧ r.w < 2 ^ 31
  h : -2 ^ 31 ≤ r.h ∧ r.h < 2 ^ 31

/-- `clip_rect` is the intersection with the grid, and lies in it. -/
theorem clipRect_spec {r : Rect} (hr : r.Fits) {w h : Nat} (hw : w < 2 ^ 31) (hh : h < 2 ^ 31) :
    (clipRect r w h = none ∧ ∀ x y : Nat, x < w → y < h → ¬ r.Has x y) ∨
    ∃ x0 y0 n m : Nat, clipRect r w h = some ⟨x0, y0, n, m⟩ ∧ x0 + n ≤ w ∧ y0 + m ≤ h ∧
      ∀ x y : Nat, x < w → y < h →
        (r.Has x y ↔ x0 ≤ x ∧ x < x0 + n ∧ y0 ≤ y ∧ y < y0 + m) := by
  have hx := hr.x
  have hy := hr.y
  unfold clipRect Rect.Has
  dsimp only
  split_ifs with hempty hnone
  · exact .inl ⟨rfl, fun x y _ _ hin => by omega⟩
  · exact .inl ⟨rfl, fun x y _ _ hin => by omega⟩
  · obtain ⟨x0, hx0⟩ := Int.eq_ofNat_of_zero_le (show 0 ≤ max r.x 0 by omega)
    obtain ⟨y0, hy0⟩ := Int.eq_ofNat_of_zero_le (show 0 ≤ max r.y 0 by omega)
    obtain ⟨n, hn⟩ := Int.eq_ofNat_of_zero_le
      (show 0 ≤ min (r.x + r.w) w - max r.x 0 by omega)
    obtain ⟨m, hm⟩ := Int.eq_ofNat_of_zero_le
      (show 0 ≤ min (r.y + r.h) h - max r.y 0 by omega)
    refine .inr ⟨x0, y0, n, m, ?_, by omega, by omega, fun x y hx hy => by omega⟩
    rw [hn, hm, hx0, hy0, toInt32_of_fits (by omega) (by omega),
      toInt32_of_fits (by omega) (by omega), toInt32_of_fits (by omega) (by omega),
      toInt32_of_fits (by omega) (by omega)]

/-- The glyph of a box at a point; a corner that two edges share is the first
of the four it can be. -/
def BoxGlyphs.at (g : BoxGlyphs) (x0 y0 x1 y1 x y : Int) : Option Nat :=
  if x = x0 ∧ y = y0 then some g.tl
  else if x = x1 ∧ y = y0 then some g.tr
  else if x = x0 ∧ y = y1 then some g.bl
  else if x = x1 ∧ y = y1 then some g.br
  else if x0 < x ∧ x < x1 ∧ (y = y0 ∨ y = y1) then some g.h
  else if y0 < y ∧ y < y1 ∧ (x = x0 ∨ x = x1) then some g.v
  else none

namespace Framebuffer

variable {fb : Framebuffer}

theorem fillRow_paints {x0 y0 n : Nat} (hn : x0 + n ≤ fb.w) (hy0 : y0 < fb.h) (c : Cell) :
    fb.Paints (fb.fillRow x0 y0 n c) fun x y =>
      if x0 ≤ x ∧ x < x0 + n ∧ y = y0 then some c else none := by
  refine Paints.foldl_area (fun i x y => x0 + i = x ∧ y0 = y) _ (fun i hi fb' hsame => ?_)
    (fun x y _ _ => ?_)
  · have hi := List.mem_range.mp hi
    exact Paints.setBack (by rw [hsame.w]; omega) (by rw [hsame.h]; exact hy0) c
  · constructor
    · intro hin
      exact ⟨x - x0, List.mem_range.mpr (by omega), by omega, by omega⟩
    · rintro ⟨i, hi, hcol, hrow⟩
      have hi := List.mem_range.mp hi
      omega

/-- A buffer that is not empty has sides that are `int`s. -/
theorem sides_lt (hne : fb.isEmpty = false) : fb.w < 2 ^ 31 ∧ fb.h < 2 ^ 31 := by
  obtain ⟨hw, hh⟩ := Framebuffer.sides_le hne
  have hmax : kMaxCells < 2 ^ 31 := by decide
  exact ⟨hw.trans_lt hmax, hh.trans_lt hmax⟩

/-- `fill` writes the cells of its rectangle. -/
theorem fill_paints {r : Rect} (hr : r.Fits) (c : Cell) :
    fb.Paints (fb.fill r c) fun x y => if r.Has x y then some c else none := by
  unfold Framebuffer.fill
  cases hempty : fb.isEmpty with
  | true =>
      have hclip : clipRect r fb.w fb.h = none := by
        have hside : fb.w = 0 ∨ fb.h = 0 := by
          simpa [Framebuffer.isEmpty] using hempty
        unfold clipRect
        rw [if_pos (by omega)]
      rw [hclip]
      refine (Paints.nothing fb).congr fun x y hx hy => ?_
      rw [Framebuffer.isEmpty_of_inside hx hy] at hempty
      cases hempty
  | false =>
      obtain ⟨hw, hh⟩ := Framebuffer.sides_lt hempty
      rcases clipRect_spec hr hw hh with ⟨hclip, hout⟩ | ⟨x0, y0, n, m, hclip, hn, hm, hin⟩
      · rw [hclip]
        refine (Paints.nothing fb).congr fun x y hx hy => ?_
        rw [if_neg (hout x y hx hy)]
      · rw [hclip]
        refine Paints.foldl_area (fun i x y => x0 ≤ x ∧ x < x0 + n ∧ y = y0 + i) _
          (fun i hi fb' hsame => ?_) (fun x y hx hy => (hin x y hx hy).trans ?_)
        · have hi := List.mem_range.mp hi
          simp only [Int.toNat_natCast] at hi ⊢
          exact fillRow_paints (by rw [hsame.w]; exact hn) (by rw [hsame.h]; omega) c
        · simp only [Int.toNat_natCast]
          constructor
          · intro hin
            exact ⟨y - y0, List.mem_range.mpr (by omega), by omega, by omega, by omega⟩
          · rintro ⟨i, hi, hcol⟩
            have hi := List.mem_range.mp hi
            omega

/-! ## Boxes -/


theorem mem_intsUpTo {a b v : Int} : v ∈ intsUpTo a b ↔ a ≤ v ∧ v ≤ b := by
  unfold intsUpTo
  rw [List.mem_map]
  constructor
  · rintro ⟨i, hi, rfl⟩
    have hi := List.mem_range.mp hi
    omega
  · intro hv
    exact ⟨(v - a).toNat, List.mem_range.mpr (by omega), by omega⟩

/-- The corners of a rectangle of `int`s that is not empty. -/
structure Corners (x0 y0 x1 y1 : Int) : Prop where
  x : -2 ^ 31 ≤ x0 ∧ x0 < 2 ^ 31 ∧ x0 ≤ x1 ∧ x1 < 2 ^ 32
  y : -2 ^ 31 ≤ y0 ∧ y0 < 2 ^ 31 ∧ y0 ≤ y1 ∧ y1 < 2 ^ 32

section Box

variable {x0 y0 x1 y1 : Int}

/-- A cell at two 64-bit coordinates, narrowed for the call. -/
theorem put_paints (hw : fb.w < 2 ^ 31) (hh : fb.h < 2 ^ 31) {x y : Int}
    (hx : -2 ^ 31 ≤ x ∧ x < 2 ^ 32) (hy : -2 ^ 31 ≤ y ∧ y < 2 ^ 32) (c : Cell) :
    fb.Paints (fb.put (toInt32 x) (toInt32 y) c) fun i j =>
      if i = x ∧ j = y then some c else none := by
  refine (Paints.put fb _ _ c).congr fun i j hi hj => ?_
  simp only [toInt32_eq_iff hx.1 hx.2 (hi.trans hw), toInt32_eq_iff hy.1 hy.2 (hj.trans hh),
    eq_comm]

/-- The same cell at two places, at one of them only where they are one. -/
theorem put_both_paints (hw : fb.w < 2 ^ 31) (hh : fb.h < 2 ^ 31) {px py qx qy : Int}
    (hpx : -2 ^ 31 ≤ px ∧ px < 2 ^ 32) (hpy : -2 ^ 31 ≤ py ∧ py < 2 ^ 32)
    (hqx : -2 ^ 31 ≤ qx ∧ qx < 2 ^ 32) (hqy : -2 ^ 31 ≤ qy ∧ qy < 2 ^ 32) (c : Cell)
    {two : Prop} [Decidable two] (hone : ¬ two → qx = px ∧ qy = py) :
    fb.Paints (if two then
        (fb.put (toInt32 px) (toInt32 py) c).put (toInt32 qx) (toInt32 qy) c
      else fb.put (toInt32 px) (toInt32 py) c) fun x y =>
        if (x = px ∧ y = py) ∨ (x = qx ∧ y = qy) then some c else none := by
  have hfirst := put_paints hw hh hpx hpy c
  by_cases htwo : two
  · have hsecond := put_paints (hfirst.w ▸ hw) (hfirst.h ▸ hh) hqx hqy c
    rw [if_pos htwo]
    refine (hfirst.trans hsecond).congr fun x y _ _ => ?_
    split_ifs <;> first | rfl | omega
  · obtain ⟨rfl, rfl⟩ := hone htwo
    rw [if_neg htwo]
    refine hfirst.congr fun x y _ _ => ?_
    split_ifs <;> first | rfl | omega

theorem boxRows_paints (hr : Corners x0 y0 x1 y1) (hw : fb.w < 2 ^ 31) (hh : fb.h < 2 ^ 31)
    (c : Cell) :
    fb.Paints (fb.boxRows x0 y0 x1 y1 c) fun x y =>
      if x0 < x ∧ x < x1 ∧ (y = y0 ∨ y = y1) then some c else none := by
  have hx := hr.x
  have hy := hr.y
  unfold Framebuffer.boxRows
  refine Paints.foldl_area
    (fun px x y => ((x : Int) = px ∧ (y : Int) = y0) ∨ ((x : Int) = px ∧ (y : Int) = y1)) _
    (fun px hpx fb' hsame => ?_) (fun x y hx hy => ?_)
  · have hpx := mem_intsUpTo.mp hpx
    exact put_both_paints (hsame.w ▸ hw) (hsame.h ▸ hh) (by omega) (by omega) (by omega) (by omega)
      c fun hflat => ⟨rfl, not_not.mp hflat⟩
  · constructor
    · intro hin
      exact ⟨x, mem_intsUpTo.mpr (by omega), by omega⟩
    · rintro ⟨px, hpx, hcell⟩
      have hpx := mem_intsUpTo.mp hpx
      omega

theorem boxColumns_paints (hr : Corners x0 y0 x1 y1) (hw : fb.w < 2 ^ 31) (hh : fb.h < 2 ^ 31)
    (c : Cell) :
    fb.Paints (fb.boxColumns x0 y0 x1 y1 c) fun x y =>
      if y0 < y ∧ y < y1 ∧ (x = x0 ∨ x = x1) then some c else none := by
  have hx := hr.x
  have hy := hr.y
  unfold Framebuffer.boxColumns
  refine Paints.foldl_area
    (fun py x y => ((x : Int) = x0 ∧ (y : Int) = py) ∨ ((x : Int) = x1 ∧ (y : Int) = py)) _
    (fun py hpy fb' hsame => ?_) (fun x y hx hy => ?_)
  · have hpy := mem_intsUpTo.mp hpy
    exact put_both_paints (hsame.w ▸ hw) (hsame.h ▸ hh) (by omega) (by omega) (by omega) (by omega)
      c fun hthin => ⟨not_not.mp hthin, rfl⟩
  · constructor
    · intro hin
      exact ⟨y, mem_intsUpTo.mpr (by omega), by omega⟩
    · rintro ⟨py, hpy, hcell⟩
      have hpy := mem_intsUpTo.mp hpy
      omega

/-- A put that is made under a condition. -/
theorem put_if_paints (hw : fb.w < 2 ^ 31) (hh : fb.h < 2 ^ 31) {x y : Int}
    (hx : -2 ^ 31 ≤ x ∧ x < 2 ^ 32) (hy : -2 ^ 31 ≤ y ∧ y < 2 ^ 32) (c : Cell)
    (p : Prop) [Decidable p] :
    fb.Paints (if p then fb.put (toInt32 x) (toInt32 y) c else fb) fun i j =>
      if p then if i = x ∧ j = y then some c else none else none :=
  Paints.ite fun _ => put_paints hw hh hx hy c

theorem boxCorners_paints (hr : Corners x0 y0 x1 y1) (hw : fb.w < 2 ^ 31) (hh : fb.h < 2 ^ 31)
    (g : BoxGlyphs) (cell : Nat → Cell) :
    fb.Paints (fb.boxCorners x0 y0 x1 y1 g cell) fun x y =>
      (if x = x0 ∧ y = y0 then some g.tl
      else if x = x1 ∧ y = y0 then some g.tr
      else if x = x0 ∧ y = y1 then some g.bl
      else if x = x1 ∧ y = y1 then some g.br
      else none).map cell := by
  have hx := hr.x
  have hy := hr.y
  have htl := put_paints hw hh (x := x0) (y := y0) (by omega) (by omega) (cell g.tl)
  have htr := put_if_paints (htl.w ▸ hw) (htl.h ▸ hh) (x := x1) (y := y0) (by omega) (by omega)
    (cell g.tr) (x1 ≠ x0)
  have htop := htl.trans htr
  have hbl := put_if_paints (htop.w ▸ hw) (htop.h ▸ hh) (x := x0) (y := y1) (by omega) (by omega)
    (cell g.bl) (y1 ≠ y0)
  have hthree := htop.trans hbl
  have hbr := put_if_paints (hthree.w ▸ hw) (hthree.h ▸ hh) (x := x1) (y := y1) (by omega)
    (by omega) (cell g.br) (x1 ≠ x0 ∧ y1 ≠ y0)
  refine (hthree.trans hbr).congr fun x y _ _ => ?_
  by_cases hwide : x1 ≠ x0 <;> by_cases htall : y1 ≠ y0 <;>
    simp only [hwide, htall, ne_eq, not_false_eq_true, and_self, and_true, and_false, if_true,
      if_false] <;>
    split_ifs <;> first | rfl | omega

/-- `box` writes the perimeter, every cell with the glyph of its place. -/
theorem box_paints {r : Rect} (hr : r.Fits) (style : BoxStyle) (fg bg attrs : Nat) :
    fb.Paints (fb.box r style fg bg attrs) fun x y =>
      if r.w ≤ 0 ∨ r.h ≤ 0 then none
      else ((glyphsFor style).at r.x r.y (r.x + r.w - 1) (r.y + r.h - 1) x y).map
        fun ch => ⟨ch, fg, bg, attrs⟩ := by
  unfold Framebuffer.box
  by_cases hflat : r.w ≤ 0 ∨ r.h ≤ 0
  · have hskip : r.w ≤ 0 ∨ r.h ≤ 0 ∨ fb.isEmpty = true := by tauto
    rw [if_pos hskip]
    refine (Paints.nothing fb).congr fun x y _ _ => ?_
    rw [if_pos hflat]
  cases hempty : fb.isEmpty with
  | true =>
      rw [if_pos (.inr (.inr rfl))]
      refine (Paints.nothing fb).congr fun x y hx hy => ?_
      rw [Framebuffer.isEmpty_of_inside hx hy] at hempty
      cases hempty
  | false =>
      obtain ⟨hw, hh⟩ := Framebuffer.sides_lt hempty
      have hx := hr.x
      have hy := hr.y
      have hrw := hr.w
      have hrh := hr.h
      have hcorners : Corners r.x r.y (r.x + r.w - 1) (r.y + r.h - 1) :=
        ⟨by omega, by omega⟩
      have hrows := boxRows_paints hcorners hw hh (⟨(glyphsFor style).h, fg, bg, attrs⟩ : Cell)
      have hedges := hrows.trans (boxColumns_paints hcorners (hrows.w ▸ hw) (hrows.h ▸ hh)
        (⟨(glyphsFor style).v, fg, bg, attrs⟩ : Cell))
      have hall := hedges.trans (boxCorners_paints hcorners (hedges.w ▸ hw) (hedges.h ▸ hh)
        (glyphsFor style) fun ch => ⟨ch, fg, bg, attrs⟩)
      rw [if_neg (by simpa [not_or] using hflat)]
      refine hall.congr fun x y _ _ => ?_
      rw [if_neg hflat]
      unfold BoxGlyphs.at
      split_ifs <;> first | rfl | omega

end Box

end Framebuffer

/-- A glyph stands wherever the perimeter of the rectangle goes. -/
theorem BoxGlyphs.at_isSome {r : Rect} (hw : 0 < r.w) (hh : 0 < r.h) (g : BoxGlyphs) (x y : Int) :
    (g.at r.x r.y (r.x + r.w - 1) (r.y + r.h - 1) x y).isSome = true ↔
      r.Has x y ∧ (x = r.x ∨ x = r.x + r.w - 1 ∨ y = r.y ∨ y = r.y + r.h - 1) := by
  unfold BoxGlyphs.at Rect.Has
  split_ifs <;> simp <;> omega

/-! ## Text -/

/-- Counting from the next column on. -/
theorem countP_range_succ (p : Int → Prop) [DecidablePred p] (col : Int) (m : Nat) :
    (List.range (m + 1)).countP (fun k : Nat => p (col + k)) =
      (if p col then 1 else 0) + (List.range m).countP fun k : Nat => p (col + 1 + k) := by
  have hfirst : col + (0 : Nat) = col := Int.add_zero col
  have hshift : ∀ k : Nat, col + (k + 1 : Nat) = col + 1 + k := fun k => by omega
  rw [List.range_succ_eq_map, List.countP_cons, List.countP_map, Nat.add_comm]
  simp only [Function.comp_def, Nat.succ_eq_add_one, hfirst, hshift, decide_eq_true_eq]

/-- `text` counts the code points it has placed. -/
theorem Framebuffer.textLoop_count {ty : Int} {fg bg attrs : Nat} (s : List Nat) (col : Int)
    (fb : Framebuffer) (n : Nat) :
    (Framebuffer.textLoop ty fg bg attrs s col fb n).2 =
      n + (List.range (decodeText s).length).countP
        fun k : Nat => 0 ≤ col + k ∧ col + k < fb.w := by
  fun_induction Framebuffer.textLoop ty fg bg attrs s col fb n with
  | case1 col fb n => simp [decodeText]
  | case2 b s col fb n hcol rest hvisible ih =>
      rw [ih, decodeText, List.length_cons,
        countP_range_succ (fun v => 0 ≤ v ∧ v < fb.w), if_pos ⟨hvisible, hcol⟩]
      exact Nat.add_assoc n 1 _
  | case3 b s col fb n hcol rest hhidden ih =>
      rw [ih, decodeText, List.length_cons,
        countP_range_succ (fun v => 0 ≤ v ∧ v < fb.w), if_neg (fun h => hhidden h.1), Nat.zero_add]
  | case4 b s col fb n hcol =>
      have hnone : ∀ k ∈ List.range (decodeText (b :: s)).length,
          ¬ decide (0 ≤ col + k ∧ col + k < fb.w) = true := by
        intro k _ hk
        have hk := of_decide_eq_true hk
        omega
      rw [List.countP_eq_zero.mpr hnone]
      rfl

theorem Framebuffer.text_count (fb : Framebuffer) (x y : Int) (s : List Nat) (fg bg attrs : Nat) :
    (fb.text x y s fg bg attrs).2 =
      (List.range (decodeText s).length).countP fun k : Nat => fb.contains (x + k) y := by
  unfold Framebuffer.text Framebuffer.contains
  split_ifs with hout
  · refine (List.countP_eq_zero.mpr fun k _ hk => ?_).symm
    simp only [Bool.and_eq_true, decide_eq_true_eq] at hk
    omega
  · rw [Framebuffer.textLoop_count, Nat.zero_add]
    refine List.countP_congr fun k _ => ?_
    simp only [Bool.and_eq_true, decide_eq_true_eq]
    omega

/-! ## The calls clip -/

theorem rect_fits (x y w h : Int32) : Rect.Fits ⟨x.toInt, y.toInt, w.toInt, h.toInt⟩ :=
  ⟨⟨x.le_toInt, x.toInt_lt⟩, ⟨y.le_toInt, y.toInt_lt⟩, ⟨w.le_toInt, w.toInt_lt⟩,
    ⟨h.le_toInt, h.toInt_lt⟩⟩

/-- **Drawing clips exactly.** Whatever the size of the grid and the four `int`s:
`fill` writes the cells of the rectangle that are in the grid; `box` those of its
perimeter, each with the glyph of its place in the whole box; `text` puts the
`k`-th code point in column `x + k` if that is in the grid, and returns how many
it put. Nothing else changes, and the front buffer never does. -/
theorem drawing_clips (fb : Framebuffer) (x y w h : Int32) :
    let r : Rect := ⟨x.toInt, y.toInt, w.toInt, h.toInt⟩
    (∀ c, fb.Paints (fb.fill r c) fun px py => if r.Has px py then some c else none) ∧
    (∀ style fg bg attrs, fb.Paints (fb.box r style fg bg attrs) fun px py =>
      if r.w ≤ 0 ∨ r.h ≤ 0 then none
      else ((glyphsFor style).at r.x r.y (r.x + r.w - 1) (r.y + r.h - 1) px py).map
        fun ch => ⟨ch, fg, bg, attrs⟩) ∧
    (∀ (g : BoxGlyphs) (px py : Int), 0 < r.w → 0 < r.h →
      ((g.at r.x r.y (r.x + r.w - 1) (r.y + r.h - 1) px py).isSome = true ↔
        r.Has px py ∧ (px = r.x ∨ px = r.x + r.w - 1 ∨ py = r.y ∨ py = r.y + r.h - 1))) ∧
    ∀ (s : List Nat) (fg bg attrs : Nat),
      (fb.Paints (fb.text r.x r.y s fg bg attrs).1 fun px py =>
        if r.y = py ∧ r.x ≤ px then
          (decodeText s)[(px - r.x : Int).toNat]?.map fun cp => ⟨cp, fg, bg, attrs⟩
        else none) ∧
      (fb.text r.x r.y s fg bg attrs).2 =
        (List.range (decodeText s).length).countP fun k : Nat => fb.contains (r.x + k) r.y := by
  intro r
  have hr : r.Fits := rect_fits x y w h
  refine ⟨fun c => Framebuffer.fill_paints hr c,
    fun style fg bg attrs => Framebuffer.box_paints hr style fg bg attrs,
    fun g px py hw hh => BoxGlyphs.at_isSome hw hh g px py, fun s fg bg attrs => ⟨?_, ?_⟩⟩
  · exact Framebuffer.Paints.call fb (.text r.x r.y s fg bg attrs)
  · exact fb.text_count r.x r.y s fg bg attrs

end Heapviz
