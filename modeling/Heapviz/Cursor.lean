import Heapviz.HeatMap

/-!
# The cursor and the grid it moves over

`MapCursor` (`tui/cursor.cpp`) holds a coordinate and moves it from cell to
cell of the map's grid. Where the heap ends it does not know: every move asks
`last_heap_cell` of `map.grid()`, and so does the legend through
`covers_whole_span`. Both read the grid's `end`.

`HeatMap::configure` is how the map comes by its grid, and its shortcut
compares the fields that decide where an address lands: validity, base, cell
size, columns, rows. The end is not among them. A heap that grows or shrinks
inside one power-of-two cell size is handed over and not taken.

- `target_le`: no move leaves the cells that hold heap, whatever the map
  shows in them; `move_index` says where each one lands.
- `Grid.Built.end_reached` and `Grid.Built.heapCell_reached`: over the grid the
  map holds, `End` lands on the last heap cell and every heap cell can be
  reached.
- `configure_adopts_iff`: after any history of `configure` calls, the next one
  makes the map answer as the new grid does exactly when the shortcut is not
  taken or the ends are equal.
-/

namespace Heapviz

/-! ## Moves -/

def kCursorJump : Nat := 10

inductive CursorMove where
  | left
  | right
  | up
  | down
  | leftFar
  | rightFar
  | upFar
  | downFar
  | start
  | last
  | nextLive
  | prevLive
deriving Repr, DecidableEq

/-- `coord_of_cell`. -/
def coordOfCell (g : Grid) (i : Nat) : Nat := add64 g.base (i <<< g.log2CellBytes)

/-- `last_heap_cell`. -/
def lastHeapCell (g : Grid) : Nat :=
  if g.valid = false ∨ g.cellCount = 0 then 0
  else
    let last := (g.span - 1) >>> g.log2CellBytes
    if last ≥ g.cellCount then g.cellCount - 1 else last

structure MapCursor where
  coord : Nat
deriving Repr, DecidableEq

/-- `MapCursor::index`. -/
def MapCursor.index (c : MapCursor) (g : Grid) : Nat :=
  if g.valid = false then 0
  else
    match g.indexOf c.coord with
    | none => if c.coord ≤ g.base then 0 else lastHeapCell g
    | some i => if i < lastHeapCell g then i else lastHeapCell g

/-- The cell a vertical move of `step` rows goes to; `cols` is not zero. -/
def rowsUp (from_ cols step : Nat) : Nat := from_ - cols * min step (from_ / cols)

def rowsDown (from_ last cols step : Nat) : Nat := from_ + cols * min step ((last - from_) / cols)

/-- The `switch` of `MapCursor::move`: the cell each move goes to. `last` is the
source's `End`. -/
def MapCursor.target (c : MapCursor) (map : HeatMap) (m : CursorMove) : Nat :=
  let g := map.grid
  let last := lastHeapCell g
  let from_ := c.index g
  let n := map.cellCount
  match m with
  | .left => if from_ > 0 then from_ - 1 else from_
  | .right => if from_ < last then from_ + 1 else from_
  | .leftFar => if from_ > kCursorJump then from_ - kCursorJump else 0
  | .rightFar => if last - from_ > kCursorJump then from_ + kCursorJump else last
  | .up => rowsUp from_ g.cols 1
  | .upFar => rowsUp from_ g.cols kCursorJump
  | .down => rowsDown from_ last g.cols 1
  | .downFar => rowsDown from_ last g.cols kCursorJump
  | .start => 0
  | .last => last
  | .nextLive =>
      let stop := if last < n then last else n - 1
      ((List.range' (from_ + 1) (stop - from_)).find? fun i =>
        n ≠ 0 && cellOccupied (map.at i)).getD from_
  | .prevLive =>
      ((List.range from_).reverse.find? fun i =>
        n ≠ 0 && (decide (i < n) && cellOccupied (map.at i))).getD from_

/-- `MapCursor::move`, with the flag that asks for a redraw. -/
def MapCursor.move (c : MapCursor) (map : HeatMap) (m : CursorMove) : MapCursor × Bool :=
  if map.grid.valid = false ∨ map.grid.cols = 0 then (c, false)
  else if c.target map m = c.index map.grid then (c, false)
  else (⟨coordOfCell map.grid (c.target map m)⟩, true)

/-- `MapCursor::refit`, with the flag that says the coordinate was pulled back. -/
def MapCursor.refit (c : MapCursor) (g : Grid) : MapCursor × Bool :=
  if g.valid = false then (c, false)
  else if (g.indexOf c.coord).any fun i => decide (i ≤ lastHeapCell g) then (c, false)
  else (⟨coordOfCell g (c.index g)⟩, true)

/-- The cursor after a row of keys. -/
def MapCursor.moves (c : MapCursor) (map : HeatMap) (ms : List CursorMove) : MapCursor :=
  ms.foldl (fun c m => (c.move map m).1) c

/-! ## Grids that exist

A grid is default-constructed or comes out of `configure`; `set_bounds` and
`set_viewport` are `configure` underneath. -/

inductive Grid.Built : Grid → Prop
  | init : Grid.Built Grid.init
  | configure {base limit : Nat} (cols rows : Int) (hbase : base < 2 ^ 64)
      (hlimit : limit < 2 ^ 64) : Grid.Built (Grid.configure base limit cols rows)

namespace Grid.Built

variable {g : Grid}

theorem words (h : g.Built) : g.base < 2 ^ 64 ∧ g.limit < 2 ^ 64 := by
  cases h with
  | init => exact ⟨by decide, by decide⟩
  | configure cols rows hbase hlimit =>
      unfold Grid.configure
      split
      · exact ⟨hbase, hlimit⟩
      · exact ⟨hbase, hlimit⟩

/-- The shift is never out of step with the cell size. -/
theorem log2_eq (h : g.Built) : g.log2CellBytes = Nat.log2 g.cellBytes := by
  cases h with
  | init => rfl
  | configure cols rows hbase hlimit =>
      unfold Grid.configure
      split
      · dsimp only
      · dsimp only

theorem spans (h : g.Built) (hvalid : g.valid = true) :
    g.base < g.limit ∧ 0 < g.cols ∧ 0 < g.rows := by
  cases h with
  | init => cases hvalid
  | configure cols rows hbase hlimit =>
      unfold Grid.configure at hvalid ⊢
      split at hvalid
      · cases hvalid
      · rename_i hok
        rw [if_neg hok]
        dsimp only
        omega

theorem cellCount_pos (h : g.Built) (hvalid : g.valid = true) : 0 < g.cellCount :=
  Nat.mul_pos (h.spans hvalid).2.1 (h.spans hvalid).2.2

theorem span_eq (h : g.Built) (hvalid : g.valid = true) : g.span = g.limit - g.base :=
  sub64_of_le (h.spans hvalid).1.le h.words.2

end Grid.Built

/-- The cells that hold memory of the target. -/
def Grid.HeapCell (g : Grid) (i : Nat) : Prop :=
  ∃ addr, g.base ≤ addr ∧ addr < g.limit ∧ g.indexOf addr = some i

theorem lastHeapCell_of_invalid {g : Grid} (h : g.valid = false) : lastHeapCell g = 0 :=
  if_pos (Or.inl h)

theorem lastHeapCell_lt {g : Grid} (h : 0 < g.cellCount) : lastHeapCell g < g.cellCount := by
  unfold lastHeapCell
  split
  · exact h
  · dsimp only
    split <;> omega

theorem lastHeapCell_le_span {g : Grid} : lastHeapCell g ≤ (g.span - 1) >>> g.log2CellBytes := by
  unfold lastHeapCell
  split
  · exact Nat.zero_le _
  · dsimp only
    split <;> omega

/-- A cell index of the grid is in range, and is the shifted offset. -/
theorem indexOf_eq_some {g : Grid} {addr i : Nat} :
    g.indexOf addr = some i ↔ g.valid = true ∧ g.base ≤ addr ∧
      (addr - g.base) >>> g.log2CellBytes = i ∧ i < g.cellCount := by
  unfold Grid.indexOf
  split
  · rename_i hout
    constructor
    · intro h
      cases h
    · rintro ⟨hvalid, hbase, -⟩
      rcases hout with hinv | hlt
      · rw [hvalid] at hinv
        cases hinv
      · omega
  · rename_i hin
    rw [not_or, Bool.not_eq_false, Nat.not_lt] at hin
    simp only [ge_iff_le, ite_eq_iff, reduceCtorEq, and_false, false_or, Option.some.injEq]
    constructor
    · rintro ⟨hlt, rfl⟩
      exact ⟨hin.1, hin.2, rfl, Nat.not_le.mp hlt⟩
    · rintro ⟨-, -, rfl, hlt⟩
      exact ⟨Nat.not_le.mpr hlt, rfl⟩

/-- No heap cell is past the last one. -/
theorem Grid.Built.heapCell_le {g : Grid} (hg : g.Built) {i : Nat} (h : g.HeapCell i) :
    i ≤ lastHeapCell g := by
  obtain ⟨addr, hbase, hlimit, hidx⟩ := h
  obtain ⟨hvalid, -, hshift, hlt⟩ := indexOf_eq_some.mp hidx
  have hi : i ≤ (g.span - 1) >>> g.log2CellBytes := by
    rw [← hshift, Nat.shiftRight_eq_div_pow, Nat.shiftRight_eq_div_pow, hg.span_eq hvalid]
    exact Nat.div_le_div_right (by omega)
  unfold lastHeapCell
  rw [if_neg (by simp [hvalid, (hg.cellCount_pos hvalid).ne'])]
  dsimp only
  split <;> omega

/-! ## Where a move lands -/

/-- The first byte of a heap cell is an address of the heap, in that cell. -/
theorem Grid.Built.indexOf_coordOfCell {g : Grid} (hg : g.Built) (hvalid : g.valid = true) {i : Nat}
    (hi : i ≤ lastHeapCell g) :
    g.base ≤ coordOfCell g i ∧ coordOfCell g i < g.limit ∧
      g.indexOf (coordOfCell g i) = some i := by
  have hlt : i < g.cellCount := lt_of_le_of_lt hi (lastHeapCell_lt (hg.cellCount_pos hvalid))
  have hspan := hg.span_eq hvalid
  have hends := hg.spans hvalid
  have hshift : i <<< g.log2CellBytes ≤ g.span - 1 := by
    have hle := hi.trans lastHeapCell_le_span
    rw [Nat.shiftRight_eq_div_pow] at hle
    rw [Nat.shiftLeft_eq]
    exact (Nat.le_div_iff_mul_le (Nat.two_pow_pos _)).mp hle
  have hcoord : coordOfCell g i = g.base + i <<< g.log2CellBytes := by
    have hwords := hg.words
    exact add64_of_lt (by omega)
  refine ⟨by rw [hcoord]; exact Nat.le_add_right _ _, by omega, ?_⟩
  rw [indexOf_eq_some, hcoord, Nat.add_sub_cancel_left, Nat.shiftLeft_shiftRight]
  exact ⟨hvalid, Nat.le_add_right _ _, rfl, hlt⟩

/-- The cursor put on the first byte of a heap cell is on that cell. -/
theorem Grid.Built.index_coordOfCell {g : Grid} (hg : g.Built) (hvalid : g.valid = true) {i : Nat}
    (hi : i ≤ lastHeapCell g) : (⟨coordOfCell g i⟩ : MapCursor).index g = i := by
  unfold MapCursor.index
  rw [if_neg (by simp [hvalid]), (hg.indexOf_coordOfCell hvalid hi).2.2]
  dsimp only
  split <;> omega

theorem MapCursor.index_le (c : MapCursor) (g : Grid) : c.index g ≤ lastHeapCell g := by
  unfold MapCursor.index
  split
  · exact Nat.zero_le _
  · split
    · split <;> omega
    · split <;> omega

theorem rowsDown_le {f last cols step : Nat} (h : f ≤ last) : rowsDown f last cols step ≤ last := by
  have hrows : cols * min step ((last - f) / cols) ≤ last - f :=
    (Nat.mul_le_mul_left _ (Nat.min_le_right _ _)).trans (Nat.mul_div_le _ _)
  unfold rowsDown
  omega

/-- Every move clamps to the last cell that covers real memory. -/
theorem MapCursor.target_le (c : MapCursor) (map : HeatMap) (m : CursorMove) :
    c.target map m ≤ lastHeapCell map.grid := by
  have hfrom := c.index_le map.grid
  cases m with
  | left =>
      simp only [MapCursor.target]
      split <;> omega
  | right =>
      simp only [MapCursor.target]
      split <;> omega
  | leftFar =>
      simp only [MapCursor.target]
      split <;> omega
  | rightFar =>
      simp only [MapCursor.target]
      split <;> omega
  | up => exact (Nat.sub_le _ _).trans hfrom
  | upFar => exact (Nat.sub_le _ _).trans hfrom
  | down => exact rowsDown_le hfrom
  | downFar => exact rowsDown_le hfrom
  | start => exact Nat.zero_le _
  | last => exact le_rfl
  | nextLive =>
      show Option.getD (List.find? _ _) _ ≤ _
      cases hfind : List.find? _ _ with
      | none => exact hfrom
      | some i =>
          have hmem := List.mem_range'_1.mp (List.mem_of_find?_eq_some hfind)
          simp only [Option.getD_some]
          split at hmem <;> omega
  | prevLive =>
      show Option.getD (List.find? _ _) _ ≤ _
      cases hfind : List.find? _ _ with
      | none => exact hfrom
      | some i =>
          have hmem := List.mem_range.mp (List.mem_reverse.mp (List.mem_of_find?_eq_some hfind))
          simp only [Option.getD_some]
          omega

/-- A move puts the cursor on the cell its arm of the `switch` names. -/
theorem MapCursor.move_index (c : MapCursor) {map : HeatMap} (hg : map.grid.Built)
    (hvalid : map.grid.valid = true) (m : CursorMove) :
    (c.move map m).1.index map.grid = c.target map m := by
  have hcols := (hg.spans hvalid).2.1
  unfold MapCursor.move
  rw [if_neg (by simp [hvalid, hcols.ne'])]
  split
  · rename_i hstay
    exact hstay.symm
  · exact hg.index_coordOfCell hvalid (c.target_le map m)

theorem MapCursor.index_of_invalid (c : MapCursor) {g : Grid} (h : g.valid = false) :
    c.index g = 0 :=
  if_pos h

/-- `End` goes to the last heap cell of the map's grid. -/
theorem Grid.Built.end_reached {map : HeatMap} (hg : map.grid.Built) (c : MapCursor) :
    (c.move map .last).1.index map.grid = lastHeapCell map.grid := by
  cases hvalid : map.grid.valid with
  | false => rw [MapCursor.index_of_invalid _ hvalid, lastHeapCell_of_invalid hvalid]
  | true => exact c.move_index hg hvalid .last

/-- Held-down `l` passes over every cell on its way. -/
theorem Grid.Built.rights_index {map : HeatMap} (hg : map.grid.Built)
    (hvalid : map.grid.valid = true) (k : Nat) (c : MapCursor)
    (hk : c.index map.grid + k ≤ lastHeapCell map.grid) :
    (c.moves map (List.replicate k .right)).index map.grid = c.index map.grid + k := by
  induction k generalizing c with
  | zero => rfl
  | succ k ih =>
      have hstep : (c.move map .right).1.index map.grid = c.index map.grid + 1 := by
        rw [c.move_index hg hvalid]
        exact if_pos (by omega)
      have hrest := ih (c.move map .right).1 (by omega)
      rw [hstep] at hrest
      show ((c.move map .right).1.moves map (List.replicate k .right)).index map.grid = _
      omega

/-- Every heap cell of the map's grid can be reached from everywhere. -/
theorem Grid.Built.heapCell_reached {map : HeatMap} (hg : map.grid.Built) (c : MapCursor) {i : Nat}
    (hi : map.grid.HeapCell i) : ∃ ms, (c.moves map ms).index map.grid = i := by
  have hvalid : map.grid.valid = true := by
    obtain ⟨addr, -, -, hidx⟩ := hi
    exact (indexOf_eq_some.mp hidx).1
  have hstart : (c.move map .start).1.index map.grid = 0 := c.move_index hg hvalid .start
  refine ⟨.start :: List.replicate i .right, ?_⟩
  have hrun := hg.rights_index hvalid i (c.move map .start).1
    (by rw [hstart]; have := hg.heapCell_le hi; omega)
  rw [hstart, Nat.zero_add] at hrun
  exact hrun

/-- Refitting moves the coordinate, never the cell it stands for. -/
theorem MapCursor.refit_index (c : MapCursor) {g : Grid} (hg : g.Built) :
    (c.refit g).1.index g = c.index g := by
  unfold MapCursor.refit
  split
  · rfl
  · rename_i hvalid
    rw [Bool.not_eq_false] at hvalid
    split
    · rfl
    · exact hg.index_coordOfCell hvalid (c.index_le g)

/-! ## Handing the map a grid -/

/-- One grid answers every question the readers of `map.grid()` ask as another
does. -/
structure Grid.AnswersAs (a g : Grid) : Prop where
  indexOf : ∀ addr, a.indexOf addr = g.indexOf addr
  span : a.span = g.span
  cellBytes : a.cellBytes = g.cellBytes
  cols : a.cols = g.cols
  rows : a.rows = g.rows
  coversWholeSpan : a.coversWholeSpan = g.coversWholeSpan
  lastHeapCell : Heapviz.lastHeapCell a = Heapviz.lastHeapCell g

/-- The map stands on the grid it was handed: its answers are that grid's, `End`
goes to the end of that grid's heap and all of its heap cells can be reached. -/
structure HeatMap.Adopted (map : HeatMap) (g : Grid) : Prop where
  answers : map.grid.AnswersAs g
  endReached : ∀ c : MapCursor, (c.move map .last).1.index map.grid = lastHeapCell g
  heapReached : ∀ (c : MapCursor) (i : Nat), g.HeapCell i →
    ∃ ms, (c.moves map ms).index map.grid = i

/-- A history of bound and viewport changes, each passed through `configure`. -/
def HeatMap.configures (map : HeatMap) (gs : List Grid) : HeatMap :=
  gs.foldl (fun map g => (map.configure g).1) map

section Adoption

variable {map : HeatMap} {g : Grid}

theorem configure_grid (map : HeatMap) (g : Grid) :
    (map.configure g).1.grid = if map.sameGeometry g then map.grid else g := by
  unfold HeatMap.configure
  split <;> rfl

/-- The map only ever holds grids it was handed. -/
theorem configures_built {gs : List Grid} (h : map.grid.Built) (hgs : ∀ g ∈ gs, g.Built) :
    (map.configures gs).grid.Built := by
  induction gs generalizing map with
  | nil => exact h
  | cons g gs ih =>
      have hg : (map.configure g).1.grid.Built := by
        rw [configure_grid]
        split
        · exact h
        · exact hgs g List.mem_cons_self
      exact ih hg fun g' hg' => hgs g' (List.mem_cons_of_mem _ hg')

theorem HeatMap.adopted_self (map : HeatMap) (hg : map.grid.Built) : map.Adopted map.grid where
  answers := ⟨fun _ => rfl, rfl, rfl, rfl, rfl, rfl, rfl⟩
  endReached := hg.end_reached
  heapReached := fun c _ hi => hg.heapCell_reached c hi

/-- With the compared fields equal, the end is all two grids can differ in. -/
theorem grid_eq_of_sameGeometry (hmap : map.grid.Built) (hg : g.Built)
    (hsame : map.sameGeometry g = true) (hlimit : map.grid.limit = g.limit) : map.grid = g := by
  have hlog := hmap.log2_eq
  have hlog' := hg.log2_eq
  simp only [HeatMap.sameGeometry, Bool.and_eq_true, beq_iff_eq] at hsame
  obtain ⟨⟨⟨⟨⟨hvalid, hbase⟩, hbytes⟩, hcols⟩, hrows⟩, -⟩ := hsame
  rw [hbytes, ← hlog'] at hlog
  cases hgrid : map.grid
  cases g
  simp_all

/-- The end shows in the span, so a stale end is a wrong answer. -/
theorem limit_eq_of_span (hmap : map.grid.Built) (hg : g.Built)
    (hsame : map.sameGeometry g = true) (hspan : map.grid.span = g.span) :
    map.grid.limit = g.limit := by
  simp only [HeatMap.sameGeometry, Bool.and_eq_true, beq_iff_eq] at hsame
  have hbase := hsame.1.1.1.1.2
  have hwords := hmap.words
  have hwords' := hg.words
  unfold Grid.span sub64 at hspan
  omega

/-- **When `configure` adopts the grid it is given.** Whatever was configured
before, the map stands on the new grid exactly when the shortcut is not taken
or the two heaps end at the same address. -/
theorem configure_adopts_iff (gs : List Grid) (hgs : ∀ g ∈ gs, g.Built) (g : Grid) (hg : g.Built) :
    ((HeatMap.init.configures gs).configure g).1.Adopted g ↔
      ((HeatMap.init.configures gs).sameGeometry g = false ∨
        (HeatMap.init.configures gs).grid.limit = g.limit) := by
  have hmap : (HeatMap.init.configures gs).grid.Built := configures_built .init hgs
  generalize HeatMap.init.configures gs = map at hmap ⊢
  have hgrid := configure_grid map g
  constructor
  · intro hadopt
    by_contra hstale
    rw [not_or, Bool.not_eq_false] at hstale
    rw [if_pos hstale.1] at hgrid
    have hspan := hadopt.answers.span
    rw [hgrid] at hspan
    exact hstale.2 (limit_eq_of_span hmap hg hstale.1 hspan)
  · intro hcond
    have heq : (map.configure g).1.grid = g := by
      rw [hgrid]
      split
      · rename_i hsame
        rcases hcond with hdiff | hlimit
        · rw [hsame] at hdiff
          cases hdiff
        · exact grid_eq_of_sameGeometry hmap hg hsame hlimit
      · rfl
    have hself := HeatMap.adopted_self (map.configure g).1 (by rw [heq]; exact hg)
    rwa [heq] at hself

/-- A map on a 2 KiB heap, resized from eight columns to four. -/
theorem configure_adopts_narrower :
    ((HeatMap.init.configures [Grid.configure 0 2048 8 8]).configure
      (Grid.configure 0 2048 4 8)).1.Adopted (Grid.configure 0 2048 4 8) := by
  refine (configure_adopts_iff [Grid.configure 0 2048 8 8] ?_ _ ?_).mpr (Or.inl ?_)
  · intro g hg
    rw [List.mem_singleton.mp hg]
    exact .configure 8 8 (by decide) (by decide)
  · exact .configure 4 8 (by decide) (by decide)
  · decide

/-- The heap grows from 2 KiB to 4 KiB on a map of 64 cells of 64 bytes. The
map keeps the old end, `End` stops at cell 31, and the heap goes on to 63. -/
theorem configure_keeps_old_end :
    ¬ ((HeatMap.init.configures [Grid.configure 0 2048 8 8]).configure
        (Grid.configure 0 4096 8 8)).1.Adopted (Grid.configure 0 4096 8 8) := by
  intro hadopt
  have hend := hadopt.endReached ⟨0⟩
  revert hend
  decide

end Adoption

end Heapviz
