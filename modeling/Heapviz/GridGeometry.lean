import Mathlib.Order.Bounds.Basic
import Mathlib.Order.Interval.Set.Defs
import Heapviz.Checked
import Heapviz.Cursor

/-!
# What the cells of a grid are

`Grid::configure` divides the span by the number of cells, rounds the
quotient up and then up again to a power of two, and clamps the result. The
three answers a grid gives, `cell_bytes`, `index_of` and
`covers_whole_span`, are each written so as not to form the product of the
cell size and the number of cells, which does not fit in 64 bits.

- `configure_cellBytes`: the cell size is the least power of two, from 64
  on, that lets the cells reach over the span, or the clamp.
- `configure_indexOf` and `cell_eq_Ico`: a cell is an interval of addresses.
- `configure_coversWholeSpan`: the coverage test is about `index_of`.
- `configureChecked_eq` and its siblings: the same functions with every
  operation checked against its word give the same answers.
-/

namespace Heapviz

open Checked

/-! ## The cell size -/

/-- The cell sizes that would let the grid's cells reach over the span. -/
def reachingSizes (span cells : Nat) : Set Nat :=
  {p | (∃ k, p = 2 ^ k) ∧ kMinCellBytes ≤ p ∧ span ≤ p * cells}

/-- The least of them, before the clamp. -/
def leastCellBytes (span cells : Nat) : Nat := ceilPow2 (max kMinCellBytes (ceilQuot span cells))

theorem leastCellBytes_isLeast (span : Nat) {cells : Nat} (hcells : 0 < cells) :
    IsLeast (reachingSizes span cells) (leastCellBytes span cells) := by
  have hle := le_ceilPow2 (max kMinCellBytes (ceilQuot span cells))
  refine ⟨⟨exists_ceilPow2 _, (le_max_left _ _).trans hle, ?_⟩, ?_⟩
  · exact (ceilQuot_le_iff hcells).mp ((le_max_right _ _).trans hle)
  · rintro p ⟨⟨k, rfl⟩, hmin, hreach⟩
    exact ceilPow2_le (max_le hmin ((ceilQuot_le_iff hcells).mpr hreach))

/-- `clamped_pow2` is the round-up of the clamped argument, cut at the clamp. -/
theorem clampedPow2_eq (v : Nat) :
    clampedPow2 v = if kMaxCellBytes < ceilPow2 (max kMinCellBytes v) then kMaxCellBytes
      else ceilPow2 (max kMinCellBytes v) := by
  unfold clampedPow2
  by_cases hmin : v ≤ kMinCellBytes
  · rw [if_pos hmin, Nat.max_eq_left hmin]
    rfl
  · rw [if_neg hmin, Nat.max_eq_right (by omega)]
    by_cases hmax : v ≥ kMaxCellBytes
    · rw [if_pos hmax]
      have hle := le_ceilPow2 v
      split <;> omega
    · have hceil : ceilPow2 v ≤ kMaxCellBytes := by
        apply ceilPow2_le
        exact (Nat.not_le.mp hmax).le
      have hone : ¬ v ≤ 1 := by
        unfold kMinCellBytes at hmin
        omega
      rw [if_neg hmax, if_neg (Nat.not_lt.mpr hceil), ceilPow2, if_neg hone]

theorem exists_clampedPow2 (v : Nat) : ∃ k, 6 ≤ k ∧ k ≤ 30 ∧ clampedPow2 v = 2 ^ k := by
  rw [clampedPow2_eq]
  split
  · exact ⟨30, by decide, by decide, rfl⟩
  · rename_i hmax
    obtain ⟨k, hk⟩ := exists_ceilPow2 (max kMinCellBytes v)
    have hlow : 2 ^ 6 ≤ 2 ^ k := by
      rw [← hk]
      exact (le_max_left kMinCellBytes v).trans (le_ceilPow2 _)
    have hhigh : 2 ^ k ≤ 2 ^ 30 := by
      rw [← hk]
      exact Nat.not_lt.mp hmax
    exact ⟨k, (Nat.pow_le_pow_iff_right (by decide)).mp hlow,
      (Nat.pow_le_pow_iff_right (by decide)).mp hhigh, hk⟩

/-! ## A configured grid -/

section Configured

variable {base limit : Nat} {cols rows : Int}

/-- An ordered span and a viewport with cells in it. -/
def Configurable (base limit : Nat) (cols rows : Int) : Prop := base < limit ∧ 0 < cols ∧ 0 < rows

theorem configure_of_configurable (h : Configurable base limit cols rows) :
    Grid.configure base limit cols rows =
      ⟨base, limit, clampedPow2 (ceilQuot (limit - base) (cols.toNat * rows.toNat)),
        Nat.log2 (clampedPow2 (ceilQuot (limit - base) (cols.toNat * rows.toNat))),
        cols.toNat, rows.toNat, true⟩ := by
  obtain ⟨hspan, hcols, hrows⟩ := h
  exact if_neg (by omega)

theorem configure_of_degenerate (h : ¬ Configurable base limit cols rows) :
    Grid.configure base limit cols rows =
      ⟨base, limit, kMinCellBytes, Nat.log2 kMinCellBytes, cols.toNat, rows.toNat, false⟩ := by
  unfold Configurable at h
  exact if_pos (by omega)

theorem Configurable.cells_pos (h : Configurable base limit cols rows) :
    0 < cols.toNat * rows.toNat := by
  obtain ⟨-, hcols, hrows⟩ := h
  exact Nat.mul_pos (by omega) (by omega)

/-- The shift is the exponent of the cell size, and less than 64. -/
theorem exists_configure_shift (base limit : Nat) (cols rows : Int) :
    ∃ k, 6 ≤ k ∧ k ≤ 30 ∧ (Grid.configure base limit cols rows).cellBytes = 2 ^ k ∧
      (Grid.configure base limit cols rows).log2CellBytes = k := by
  by_cases h : Configurable base limit cols rows
  · rw [configure_of_configurable h]
    obtain ⟨k, hlow, hhigh, hk⟩ :=
      exists_clampedPow2 (ceilQuot (limit - base) (cols.toNat * rows.toNat))
    refine ⟨k, hlow, hhigh, hk, ?_⟩
    dsimp only
    rw [hk, Nat.log2_two_pow]
  · rw [configure_of_degenerate h]
    exact ⟨6, by decide, by decide, rfl, Nat.log2_two_pow (n := 6)⟩

theorem configure_cellBytes (h : Configurable base limit cols rows) :
    (Grid.configure base limit cols rows).cellBytes =
      if kMaxCellBytes < leastCellBytes (limit - base) (cols.toNat * rows.toNat) then kMaxCellBytes
      else leastCellBytes (limit - base) (cols.toNat * rows.toNat) := by
  rw [configure_of_configurable h]
  exact clampedPow2_eq _

theorem configure_cellCount (base limit : Nat) (cols rows : Int) :
    (Grid.configure base limit cols rows).cellCount = cols.toNat * rows.toNat := by
  unfold Grid.configure
  split <;> rfl

theorem configure_indexOf (h : Configurable base limit cols rows) {a i : Nat} :
    (Grid.configure base limit cols rows).indexOf a = some i ↔ base ≤ a ∧
      (a - base) / (Grid.configure base limit cols rows).cellBytes < cols.toNat * rows.toNat ∧
      i = (a - base) / (Grid.configure base limit cols rows).cellBytes := by
  obtain ⟨k, -, -, hbytes, hshift⟩ := exists_configure_shift base limit cols rows
  have hvalid : (Grid.configure base limit cols rows).valid = true := by
    rw [configure_of_configurable h]
  have hbase : (Grid.configure base limit cols rows).base = base := by
    rw [configure_of_configurable h]
  rw [indexOf_eq_some, hbase, configure_cellCount, hbytes, hshift, Nat.shiftRight_eq_div_pow]
  constructor
  · rintro ⟨-, hle, rfl, hlt⟩
    exact ⟨hle, hlt, rfl⟩
  · rintro ⟨hle, hlt, rfl⟩
    exact ⟨hvalid, hle, rfl, hlt⟩

/-- A cell is the interval of addresses its number says, as far as there are
addresses. -/
theorem cell_eq_Ico (h : Configurable base limit cols rows) {i : Nat}
    (hi : i < cols.toNat * rows.toNat) :
    {a | a < 2 ^ 64 ∧ (Grid.configure base limit cols rows).indexOf a = some i} =
      Set.Ico (base + i * (Grid.configure base limit cols rows).cellBytes)
        (min (base + (i + 1) * (Grid.configure base limit cols rows).cellBytes) (2 ^ 64)) := by
  obtain ⟨k, -, -, hbytes, -⟩ := exists_configure_shift base limit cols rows
  ext a
  rw [Set.mem_ofPred_eq, configure_indexOf h, hbytes, Set.mem_Ico, Nat.lt_min]
  have hpos := Nat.two_pow_pos k
  have hquot : (a - base) / 2 ^ k = i ↔ i * 2 ^ k ≤ a - base ∧ a - base < (i + 1) * 2 ^ k := by
    rw [Nat.div_eq_iff hpos, Nat.add_mul, Nat.one_mul]
    omega
  rw [eq_comm (b := (a - base) / 2 ^ k)]
  constructor
  · rintro ⟨hword, hle, -, heq⟩
    obtain ⟨hlow, hhigh⟩ := hquot.mp heq
    omega
  · rintro ⟨hlow, hhigh, hword⟩
    have hle : base ≤ a := (Nat.le_add_right _ _).trans hlow
    have heq := hquot.mpr ⟨by omega, by omega⟩
    exact ⟨hword, hle, by rwa [heq], heq⟩

/-- The coverage test asks whether every byte of the span has a cell. -/
theorem configure_coversWholeSpan (h : Configurable base limit cols rows)
    (hlimit : limit < 2 ^ 64) :
    (Grid.configure base limit cols rows).coversWholeSpan = true ↔
      ∀ a, base ≤ a → a < limit →
        ∃ i, (Grid.configure base limit cols rows).indexOf a = some i := by
  obtain ⟨k, -, -, hbytes, -⟩ := exists_configure_shift base limit cols rows
  have hpos := Nat.two_pow_pos k
  have hcovers : (Grid.configure base limit cols rows).coversWholeSpan = true ↔
      limit - base ≤ cols.toNat * rows.toNat * 2 ^ k := by
    have hspan : (Grid.configure base limit cols rows).span = limit - base := by
      rw [configure_of_configurable h]
      exact sub64_of_le h.1.le hlimit
    have hvalid : (Grid.configure base limit cols rows).valid = true := by
      rw [configure_of_configurable h]
    rw [← ceilQuot_le_iff hpos, Grid.coversWholeSpan, hvalid, hspan, hbytes, configure_cellCount,
      Bool.true_and, decide_eq_true_eq]
    rfl
  have hcell : ∀ a, base ≤ a → ((∃ i, (Grid.configure base limit cols rows).indexOf a = some i) ↔
      a - base < cols.toNat * rows.toNat * 2 ^ k) := by
    intro a ha
    rw [← Nat.div_lt_iff_lt_mul hpos, ← hbytes]
    constructor
    · rintro ⟨i, hi⟩
      exact ((configure_indexOf h).mp hi).2.1
    · intro hlt
      exact ⟨_, (configure_indexOf h).mpr ⟨ha, hlt, rfl⟩⟩
  rw [hcovers]
  constructor
  · intro hreach a hbase hlim
    exact (hcell a hbase).mpr (by omega)
  · intro hall
    have hspan := h.1
    have hlast := (hcell (limit - 1) (by omega)).mp (hall (limit - 1) (by omega) (by omega))
    omega

theorem indexOf_of_invalid {g : Grid} (h : g.valid = false) (a : Nat) : g.indexOf a = none :=
  if_pos (Or.inl h)

end Configured

/-! ## Every operation in its word -/

/-- `clamped_pow2`, with `std::bit_ceil` as undefined as it is. -/
def clampedPow2Checked (v : Nat) : Option Nat :=
  if v ≤ kMinCellBytes then some kMinCellBytes
  else if v ≥ kMaxCellBytes then some kMaxCellBytes
  else bitCeil 64 v

/-- The ceiling division of `Grid::configure`. -/
def perCellChecked (span cells : Nat) : Option Nat := do
  let perCell ← div span cells
  let rest ← mod span cells
  if rest ≠ 0 then add 64 perCell 1 else some perCell

/-- `Grid::configure`, operation by operation. -/
def Grid.configureChecked (base limit : Nat) (cols rows : Int) : Option Grid :=
  let cols' := if cols > 0 then cols.toNat else 0
  let rows' := if rows > 0 then rows.toNat else 0
  if limit ≤ base ∨ cols' = 0 ∨ rows' = 0 then
    some ⟨base, limit, kMinCellBytes, countrZero 64 kMinCellBytes, cols', rows', false⟩
  else do
    let span ← sub limit base
    let cells ← mul 64 cols' rows'
    let perCell ← perCellChecked span cells
    let cellBytes ← clampedPow2Checked perCell
    some ⟨base, limit, cellBytes, countrZero 64 cellBytes, cols', rows', true⟩

/-- `Grid::cell_count`. -/
def Grid.cellCountChecked (g : Grid) : Option Nat :=
  if g.cols ≤ 0 ∨ g.rows ≤ 0 then some 0 else mul 64 g.cols g.rows

/-- `Grid::index_of`. -/
def Grid.indexOfChecked (g : Grid) (addr : Nat) : Option (Option Nat) :=
  if g.valid = false ∨ addr < g.base then some none
  else do
    let offset ← sub addr g.base
    let index ← shiftRight 64 offset g.log2CellBytes
    let cells ← g.cellCountChecked
    some (if index ≥ cells then none else some index)

/-- `Grid::covers_whole_span`. -/
def Grid.coversWholeSpanChecked (g : Grid) : Option Bool :=
  if g.valid = false then some false
  else do
    let cells ← g.cellCountChecked
    let span ← sub g.limit g.base
    let whole ← div span g.cellBytes
    let rest ← mod span g.cellBytes
    let needed ← add 64 whole (if rest ≠ 0 then 1 else 0)
    some (decide (cells ≥ needed))

section Words

variable {base limit : Nat} {cols rows : Int}

theorem toNat_eq_ite (n : Int) : (if n > 0 then n.toNat else 0) = n.toNat := by
  split
  · rfl
  · omega

theorem clampedPow2Checked_eq (v : Nat) : clampedPow2Checked v = some (clampedPow2 v) := by
  unfold clampedPow2Checked clampedPow2
  split
  · rfl
  · split
    · rfl
    · rename_i hmin hmax
      have hone : ¬ v ≤ 1 := by
        unfold kMinCellBytes at hmin
        omega
      have hceil : ceilPow2 v ≤ 2 ^ 30 := ceilPow2_le (Nat.not_le.mp hmax).le
      rw [bitCeil_of_lt (lt_of_le_of_lt hceil (by decide)), ceilPow2, if_neg hone]

/-- The number of cells of a viewport of `int`s fits, with room to spare. -/
theorem cells_lt (hcols : cols < 2 ^ 31) (hrows : rows < 2 ^ 31) :
    cols.toNat * rows.toNat < 2 ^ 64 :=
  calc cols.toNat * rows.toNat ≤ 2 ^ 31 * 2 ^ 31 := Nat.mul_le_mul (by omega) (by omega)
    _ < 2 ^ 64 := by decide

theorem perCellChecked_eq {span cells : Nat} (hspan : span < 2 ^ 64) (hcells : 0 < cells) :
    perCellChecked span cells = some (ceilQuot span cells) := by
  simp only [perCellChecked, ceilQuot, div_of_pos hcells, mod_of_pos hcells, Option.bind_eq_bind,
    Option.bind_some]
  split
  · rename_i hrest
    -- something is left over, so there are two cells or more
    have hdiv : span / cells < span := by
      apply Nat.div_lt_self
      · rcases Nat.eq_zero_or_pos span with rfl | hpos
        · exact absurd (Nat.zero_mod cells) hrest
        · exact hpos
      · rcases Nat.lt_or_ge 1 cells with hlt | hle
        · exact hlt
        · exact absurd (by rw [show cells = 1 by omega, Nat.mod_one]) hrest
    exact add_of_lt (by omega)
  · rfl

theorem configureChecked_eq (hlimit : limit < 2 ^ 64) (hcols : cols < 2 ^ 31)
    (hrows : rows < 2 ^ 31) :
    Grid.configureChecked base limit cols rows = some (Grid.configure base limit cols rows) := by
  unfold Grid.configureChecked
  simp only [toNat_eq_ite]
  by_cases h : Configurable base limit cols rows
  · have hper := perCellChecked_eq (show limit - base < 2 ^ 64 by omega) h.cells_pos
    obtain ⟨k, -, hk, hbytes⟩ :=
      exists_clampedPow2 (ceilQuot (limit - base) (cols.toNat * rows.toNat))
    rw [configure_of_configurable h]
    obtain ⟨hspan, hc, hr⟩ := h
    rw [if_neg (by omega), sub_of_le hspan.le, mul_of_lt (cells_lt hcols hrows)]
    simp only [Option.bind_eq_bind, Option.bind_some, hper, clampedPow2Checked_eq, hbytes,
      countrZero_two_pow (show k < 64 by omega), Nat.log2_two_pow]
  · rw [configure_of_degenerate h]
    unfold Configurable at h
    rw [if_pos (by omega)]
    rfl

theorem cellCountChecked_eq (hcols : cols < 2 ^ 31) (hrows : rows < 2 ^ 31) :
    (Grid.configure base limit cols rows).cellCountChecked = some (cols.toNat * rows.toNat) := by
  have hc : (Grid.configure base limit cols rows).cols = cols.toNat := by
    unfold Grid.configure
    split <;> rfl
  have hr : (Grid.configure base limit cols rows).rows = rows.toNat := by
    unfold Grid.configure
    split <;> rfl
  rw [Grid.cellCountChecked, hc, hr]
  split
  · rename_i hzero
    rcases hzero with hzero | hzero
    · rw [Nat.le_zero.mp hzero, Nat.zero_mul]
    · rw [Nat.le_zero.mp hzero, Nat.mul_zero]
  · exact mul_of_lt (cells_lt hcols hrows)

theorem indexOfChecked_eq (hcols : cols < 2 ^ 31) (hrows : rows < 2 ^ 31) (addr : Nat) :
    (Grid.configure base limit cols rows).indexOfChecked addr =
      some ((Grid.configure base limit cols rows).indexOf addr) := by
  obtain ⟨k, -, hk, -, hshift⟩ := exists_configure_shift base limit cols rows
  unfold Grid.indexOfChecked Grid.indexOf
  rw [configure_cellCount, cellCountChecked_eq hcols hrows]
  split
  · rfl
  · rename_i hin
    rw [not_or, Nat.not_lt] at hin
    rw [hshift, sub_of_le hin.2]
    simp only [Option.bind_eq_bind, Option.bind_some, shiftRight_of_lt (show k < 64 by omega)]

theorem coversWholeSpanChecked_eq (hlimit : limit < 2 ^ 64) (hcols : cols < 2 ^ 31)
    (hrows : rows < 2 ^ 31) :
    (Grid.configure base limit cols rows).coversWholeSpanChecked =
      some (Grid.configure base limit cols rows).coversWholeSpan := by
  obtain ⟨k, hk, -, hbytes, -⟩ := exists_configure_shift base limit cols rows
  have hpos := Nat.two_pow_pos k
  unfold Grid.coversWholeSpanChecked Grid.coversWholeSpan
  rw [cellCountChecked_eq hcols hrows, configure_cellCount, hbytes]
  by_cases h : Configurable base limit cols rows
  · rw [configure_of_configurable h]
    have hspan : sub64 limit base = limit - base := sub64_of_le h.1.le hlimit
    have hneeded : (limit - base) / 2 ^ k + (if (limit - base) % 2 ^ k ≠ 0 then 1 else 0) <
        2 ^ 64 := by
      have hdiv : (limit - base) / 2 ^ k ≤ (limit - base) / 2 ^ 6 :=
        Nat.div_le_div_left (Nat.pow_le_pow_right (by decide) hk) (by decide)
      split <;> omega
    simp only [Grid.span, hspan, Bool.true_and, reduceCtorEq, if_false, sub_of_le h.1.le,
      div_of_pos hpos, mod_of_pos hpos, Option.bind_eq_bind, Option.bind_some,
      add_of_lt hneeded]
  · rw [configure_of_degenerate h]
    rfl

end Words

/-! ## The geometry -/

/-- What a configured grid is: the cell size, the cells and the coverage test
in terms of the span and the viewport it was configured with. -/
structure Grid.Geometry (g : Grid) (base limit cells : Nat) : Prop where
  valid : g.valid = true
  cellBytes : ∃ least, IsLeast (reachingSizes (limit - base) cells) least ∧
    g.cellBytes = if 2 ^ 30 < least then 2 ^ 30 else least
  indexOf : ∀ a i, g.indexOf a = some i ↔
    base ≤ a ∧ (a - base) / g.cellBytes < cells ∧ i = (a - base) / g.cellBytes
  monotone : ∀ a b i j, a ≤ b → g.indexOf a = some i → g.indexOf b = some j → i ≤ j
  cell : ∀ i < cells, {a | a < 2 ^ 64 ∧ g.indexOf a = some i} =
    Set.Ico (base + i * g.cellBytes) (min (base + (i + 1) * g.cellBytes) (2 ^ 64))
  covers : g.coversWholeSpan = true ↔ ∀ a, base ≤ a → a < limit → ∃ i, g.indexOf a = some i

/-- A grid with nothing to show answers every question with no. -/
structure Grid.Degenerate (g : Grid) : Prop where
  invalid : g.valid = false
  indexOf : ∀ a, g.indexOf a = none
  covers : g.coversWholeSpan = false

/-- Configuring the grid and asking it anything leaves no operation outside its
word. -/
structure Grid.InWords (base limit : Nat) (cols rows : Int) : Prop where
  configure : Grid.configureChecked base limit cols rows =
    some (Grid.configure base limit cols rows)
  indexOf : ∀ a < 2 ^ 64, (Grid.configure base limit cols rows).indexOfChecked a =
    some ((Grid.configure base limit cols rows).indexOf a)
  covers : (Grid.configure base limit cols rows).coversWholeSpanChecked =
    some (Grid.configure base limit cols rows).coversWholeSpan

theorem geometry_of_configurable {base limit : Nat} {cols rows : Int}
    (h : Configurable base limit cols rows) (hlimit : limit < 2 ^ 64) :
    (Grid.configure base limit cols rows).Geometry base limit (cols.toNat * rows.toNat) where
  valid := by rw [configure_of_configurable h]
  cellBytes := ⟨_, leastCellBytes_isLeast _ h.cells_pos, configure_cellBytes h⟩
  indexOf := fun _ _ => configure_indexOf h
  monotone := by
    intro a b i j hab hi hj
    rw [((configure_indexOf h).mp hi).2.2, ((configure_indexOf h).mp hj).2.2]
    exact Nat.div_le_div_right (Nat.sub_le_sub_right hab base)
  cell := fun _ hi => cell_eq_Ico h hi
  covers := configure_coversWholeSpan h hlimit

/-- **The geometry of the grid**, for every span of addresses and every
viewport. -/
theorem grid_geometry {base limit : Nat} (hlimit : limit < 2 ^ 64) {cols rows : Int}
    (hcols : cols < 2 ^ 31) (hrows : rows < 2 ^ 31) :
    (base < limit ∧ 0 < cols ∧ 0 < rows →
        (Grid.configure base limit cols rows).Geometry base limit (cols.toNat * rows.toNat)) ∧
      (limit ≤ base ∨ cols ≤ 0 ∨ rows ≤ 0 → (Grid.configure base limit cols rows).Degenerate) ∧
      Grid.InWords base limit cols rows := by
  refine ⟨fun h => geometry_of_configurable h hlimit, ?_, ?_⟩
  · intro h
    have hinvalid : (Grid.configure base limit cols rows).valid = false := by
      rw [configure_of_degenerate (by unfold Configurable; omega)]
    refine ⟨hinvalid, indexOf_of_invalid hinvalid, ?_⟩
    rw [Grid.coversWholeSpan, hinvalid, Bool.false_and]
  · exact ⟨configureChecked_eq hlimit hcols hrows, fun a _ => indexOfChecked_eq hcols hrows a,
      coversWholeSpanChecked_eq hlimit hcols hrows⟩

/-- A terminal of 200 by 50 over the whole lower half of the address space. -/
theorem grid_geometry_terminal :
    (Grid.configure 4096 (2 ^ 47) 200 50).Geometry 4096 (2 ^ 47) (200 * 50) :=
  (grid_geometry (by decide) (by decide) (by decide)).1 (by decide)

end Heapviz
