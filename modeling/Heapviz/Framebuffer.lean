import Mathlib.Algebra.Order.Ring.Nat

/-!
# The double-buffered cell grid

The cells of `tui/framebuffer.h` and the two buffers they live in: drawing
goes to the back buffer, the front one is what the screen was last made to
show, and `swap` makes the drawn frame the new front.

Both buffers hold `w * h` cells, which is never more than `kMaxCells`; the
structure carries both, since `resize` is the only way to a buffer that is
not empty.
-/

namespace Heapviz

/-! ## Cells -/

def kAttrBold : Nat := 1 <<< 0
def kAttrDim : Nat := 1 <<< 1
def kAttrUnderline : Nat := 1 <<< 2
def kAttrReverse : Nat := 1 <<< 3

/-- One terminal cell; the colours are `0x00RRGGBB`. -/
structure Cell where
  glyph : Nat
  fg : Nat
  bg : Nat
  attrs : Nat
deriving Repr, DecidableEq

def kDefaultFg : Nat := 0x00C0C0C0
def kDefaultBg : Nat := 0x00000000

def emptyCell : Cell := ⟨0x20, kDefaultFg, kDefaultBg, 0⟩

/-! ## The buffers -/

def kMaxCells : Nat := 4 <<< 20

structure Framebuffer where
  w : Nat
  h : Nat
  front : Vector Cell (w * h)
  back : Vector Cell (w * h)
  bounded : w * h ≤ kMaxCells

namespace Framebuffer

/-- A buffer that was never sized. -/
def init : Framebuffer := ⟨0, 0, #v[], #v[], Nat.zero_le _⟩

/-- `resize`: both buffers cleared, or nothing done. -/
def resize (fb : Framebuffer) (w h : Int) : Framebuffer × Bool :=
  if w ≤ 0 ∨ h ≤ 0 then (fb, false)
  else if hcells : w.toNat * h.toNat ≤ kMaxCells then
    (⟨w.toNat, h.toNat, .replicate _ emptyCell, .replicate _ emptyCell, hcells⟩, true)
  else (fb, false)

def isEmpty (fb : Framebuffer) : Bool := fb.w ≤ 0 || fb.h ≤ 0

def index (fb : Framebuffer) (x y : Nat) : Nat := y * fb.w + x

def atFront (fb : Framebuffer) (x y : Nat) : Cell := fb.front[fb.index x y]?.getD emptyCell

def atBack (fb : Framebuffer) (x y : Nat) : Cell := fb.back[fb.index x y]?.getD emptyCell

def contains (fb : Framebuffer) (x y : Int) : Bool :=
  x ≥ 0 && y ≥ 0 && x < fb.w && y < fb.h

def put (fb : Framebuffer) (x y : Int) (c : Cell) : Framebuffer :=
  if fb.contains x y = false then fb
  else { fb with back := fb.back.setIfInBounds (fb.index x.toNat y.toNat) c }

def swap (fb : Framebuffer) (fill : Cell) : Framebuffer :=
  { fb with front := fb.back, back := .replicate _ fill }

end Framebuffer

variable {fb : Framebuffer} {x y : Nat}

theorem Framebuffer.isEmpty_eq_false : fb.isEmpty = false ↔ 0 < fb.w ∧ 0 < fb.h := by
  simp [Framebuffer.isEmpty, Nat.pos_iff_ne_zero]

/-- A buffer with a cell is not empty. -/
theorem Framebuffer.isEmpty_of_inside (hx : x < fb.w) (hy : y < fb.h) : fb.isEmpty = false :=
  Framebuffer.isEmpty_eq_false.mpr ⟨Nat.zero_lt_of_lt hx, Nat.zero_lt_of_lt hy⟩

/-- Neither side of a buffer that is not empty is longer than the cap. -/
theorem Framebuffer.sides_le (hne : fb.isEmpty = false) : fb.w ≤ kMaxCells ∧ fb.h ≤ kMaxCells := by
  obtain ⟨hw, hh⟩ := Framebuffer.isEmpty_eq_false.mp hne
  exact ⟨(Nat.le_mul_of_pos_right _ hh).trans fb.bounded,
    (Nat.le_mul_of_pos_left _ hw).trans fb.bounded⟩

theorem Framebuffer.index_lt (hx : x < fb.w) (hy : y < fb.h) : fb.index x y < fb.w * fb.h := by
  unfold Framebuffer.index
  calc y * fb.w + x < y * fb.w + fb.w := Nat.add_lt_add_left hx _
    _ = (y + 1) * fb.w := (Nat.succ_mul y fb.w).symm
    _ ≤ fb.h * fb.w := Nat.mul_le_mul_right _ hy
    _ = fb.w * fb.h := Nat.mul_comm ..

theorem Framebuffer.index_inj {x' y' : Nat} (hx : x < fb.w) (hx' : x' < fb.w)
    (h : fb.index x y = fb.index x' y') : x = x' ∧ y = y' := by
  unfold Framebuffer.index at h
  have hmod := congrArg (· % fb.w) h
  simp only [Nat.mul_add_mod', Nat.mod_eq_of_lt, hx, hx'] at hmod
  subst hmod
  exact ⟨rfl, Nat.eq_of_mul_eq_mul_right (Nat.lt_of_le_of_lt (Nat.zero_le x) hx)
    (Nat.add_right_cancel h)⟩

theorem Framebuffer.contains_iff {x y : Int} :
    fb.contains x y = true ↔ 0 ≤ x ∧ 0 ≤ y ∧ x < fb.w ∧ y < fb.h := by
  simp only [Framebuffer.contains, Bool.and_eq_true, decide_eq_true_eq, and_assoc, ge_iff_le]

/-- `put` writes its cell, if that is in the grid, and no other. -/
theorem Framebuffer.put_atBack (fb : Framebuffer) (px py : Int) (c : Cell) (hx : x < fb.w)
    (hy : y < fb.h) :
    (fb.put px py c).atBack x y = if px = x ∧ py = y then c else fb.atBack x y := by
  unfold Framebuffer.put
  cases hin : fb.contains px py with
  | false =>
      have hne : ¬ (px = x ∧ py = y) := by
        rintro ⟨rfl, rfl⟩
        rw [Framebuffer.contains_iff.mpr (by omega)] at hin
        cases hin
      rw [if_pos rfl, if_neg hne]
  | true =>
      obtain ⟨hpx, hpy, hpw, hph⟩ := Framebuffer.contains_iff.mp hin
      obtain ⟨px, rfl⟩ := Int.eq_ofNat_of_zero_le hpx
      obtain ⟨py, rfl⟩ := Int.eq_ofNat_of_zero_le hpy
      have hpw : px < fb.w := by omega
      have hlt := Framebuffer.index_lt hx hy
      simp only [Bool.true_eq_false, if_false, Int.toNat_natCast, Int.natCast_inj,
        Framebuffer.atBack]
      show (fb.back.setIfInBounds (fb.index px py) c)[fb.index x y]?.getD emptyCell = _
      rw [Vector.getElem?_setIfInBounds]
      by_cases hpos : px = x ∧ py = y
      · obtain ⟨rfl, rfl⟩ := hpos
        rw [if_pos rfl, if_pos hlt, if_pos ⟨rfl, rfl⟩]
        rfl
      · rw [if_neg fun heq => hpos (Framebuffer.index_inj hpw hx heq), if_neg hpos]

theorem Framebuffer.put_atFront (fb : Framebuffer) (px py : Int) (c : Cell) :
    (fb.put px py c).atFront = fb.atFront := by
  unfold Framebuffer.put
  split <;> rfl

/-- After `swap` the drawn frame is the front. -/
theorem Framebuffer.swap_atFront (fb : Framebuffer) (fill : Cell) :
    (fb.swap fill).atFront = fb.atBack := rfl

end Heapviz
