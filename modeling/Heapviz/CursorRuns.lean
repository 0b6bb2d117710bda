import Mathlib.Order.Bounds.Basic
import Heapviz.Cursor

/-!
# Runs of the cursor

A cursor is a coordinate, and everything that changes it is a move over the
map, a refit to a new grid or a jump (`MapCursor::set_coord`). The grid and
the contents of the map may be other ones at every step.

The eight arrow moves are one thing with three parameters: a heading, the
cells a stride is long and how many strides. `target_lands` says where they
land in these terms: on the nominal cell, or, where that is off the heap, on
the last cell of the heap that whole strides reach. That they keep the
column and undo one another follows from the stride alone.
-/

namespace Heapviz

/-! ## The steps of a run -/

/-- `MapCursor::set_coord`, with the flag that says the coordinate changed. -/
def MapCursor.setCoord (c : MapCursor) (g : Grid) (coord : Nat) : MapCursor × Bool :=
  if g.valid = false then (c, false)
  else
    let snapped := coordOfCell g (MapCursor.index ⟨coord⟩ g)
    (⟨snapped⟩, snapped ≠ c.coord)

inductive CursorAct where
  | move (map : HeatMap) (m : CursorMove)
  | refit (g : Grid)
  | setCoord (g : Grid) (coord : Nat)

/-- The grid a step looks at. -/
def CursorAct.grid : CursorAct → Grid
  | .move map _ => map.grid
  | .refit g | .setCoord g _ => g

def MapCursor.act (c : MapCursor) : CursorAct → MapCursor × Bool
  | .move map m => c.move map m
  | .refit g => c.refit g
  | .setCoord g coord => c.setCoord g coord

def MapCursor.run (c : MapCursor) (acts : List CursorAct) : MapCursor :=
  acts.foldl (fun c a => (c.act a).1) c

/-! ## Strides -/

inductive Heading where
  | back
  | forth
deriving Repr, DecidableEq

/-- The way a move goes, the cells in a stride of it and how many strides; none
for the moves that go to a place. -/
def CursorMove.stride (cols : Nat) : CursorMove → Option (Heading × Nat × Nat)
  | .left => some (.back, 1, 1)
  | .right => some (.forth, 1, 1)
  | .leftFar => some (.back, 1, kCursorJump)
  | .rightFar => some (.forth, 1, kCursorJump)
  | .up => some (.back, cols, 1)
  | .down => some (.forth, cols, 1)
  | .upFar => some (.back, cols, kCursorJump)
  | .downFar => some (.forth, cols, kCursorJump)
  | .start | .last | .nextLive | .prevLive => none

/-- The move with the same stride the other way. -/
def CursorMove.opposite : CursorMove → Option CursorMove
  | .left => some .right
  | .right => some .left
  | .leftFar => some .rightFar
  | .rightFar => some .leftFar
  | .up => some .down
  | .down => some .up
  | .upFar => some .downFar
  | .downFar => some .upFar
  | .start | .last | .nextLive | .prevLive => none

def CursorMove.vertical : CursorMove → Bool
  | .up | .down | .upFar | .downFar => true
  | _ => false

/-- The nominal cell is on the heap, whose last cell is `last`. -/
def Heading.Fits (unit count last from_ : Nat) : Heading → Prop
  | .back => unit * count ≤ from_
  | .forth => from_ + unit * count ≤ last

instance (unit count last from_ : Nat) (h : Heading) : Decidable (h.Fits unit count last from_) :=
  match h with
  | .back => inferInstanceAs (Decidable (_ ≤ _))
  | .forth => inferInstanceAs (Decidable (_ ≤ _))

/-- The nominal cell. -/
def Heading.nominal (unit count from_ : Nat) : Heading → Nat
  | .back => from_ - unit * count
  | .forth => from_ + unit * count

/-- `dest` is the last cell of the heap, the way the move goes, that whole strides
from `from_` reach. -/
def Heading.Farthest (unit last from_ dest : Nat) : Heading → Prop
  | .back => IsLeast {j | j ≤ from_ ∧ j % unit = from_ % unit} dest
  | .forth => IsGreatest {j | from_ ≤ j ∧ j ≤ last ∧ j % unit = from_ % unit} dest

/-- Where a move of `count` strides lands. -/
def Heading.Lands (h : Heading) (unit count last from_ dest : Nat) : Prop :=
  (h.Fits unit count last from_ → dest = h.nominal unit count from_) ∧
    (¬ h.Fits unit count last from_ → h.Farthest unit last from_ dest)

theorem rowsUp_lands {unit count last from_ : Nat} (hunit : 0 < unit) :
    Heading.back.Lands unit count last from_ (rowsUp from_ unit count) := by
  unfold rowsUp
  constructor
  · intro hfit
    have hle : count ≤ from_ / unit := (Nat.le_div_iff_mul_le hunit).mpr (by rwa [Nat.mul_comm])
    rw [Nat.min_eq_left hle]
    rfl
  · intro hfit
    have hle : from_ / unit ≤ count := by
      by_contra hlt
      apply hfit
      have := (Nat.le_div_iff_mul_le hunit).mp (Nat.not_le.mp hlt).le
      show unit * count ≤ from_
      rwa [Nat.mul_comm]
    rw [Nat.min_eq_right hle]
    have hmod : from_ - unit * (from_ / unit) = from_ % unit := by
      have := Nat.div_add_mod from_ unit
      omega
    rw [hmod]
    refine ⟨⟨Nat.mod_le _ _, Nat.mod_mod _ _⟩, ?_⟩
    rintro j ⟨-, hj⟩
    rw [← hj]
    exact Nat.mod_le _ _

theorem rowsDown_lands {unit count last from_ : Nat} (hunit : 0 < unit) (hfrom : from_ ≤ last) :
    Heading.forth.Lands unit count last from_ (rowsDown from_ last unit count) := by
  unfold rowsDown
  constructor
  · intro hfit
    have hle : count ≤ (last - from_) / unit := by
      rw [Nat.le_div_iff_mul_le hunit, Nat.mul_comm]
      exact Nat.le_sub_of_add_le' hfit
    rw [Nat.min_eq_left hle]
    rfl
  · intro hfit
    have hle : (last - from_) / unit ≤ count := by
      by_contra hlt
      apply hfit
      have := (Nat.le_div_iff_mul_le hunit).mp (Nat.not_le.mp hlt).le
      show from_ + unit * count ≤ last
      rw [Nat.mul_comm]
      omega
    rw [Nat.min_eq_right hle]
    have hrow := Nat.mul_div_le (last - from_) unit
    refine ⟨⟨by omega, by omega, Nat.add_mul_mod_self_left _ _ _⟩, ?_⟩
    rintro j ⟨hge, hlast, hj⟩
    -- `j` is some number of strides on, and no more than there is room for
    have hdvd : unit ∣ j - from_ := Nat.dvd_of_mod_eq_zero (Nat.sub_mod_eq_zero_of_mod_eq hj)
    obtain ⟨k, hk⟩ := hdvd
    have hkle : k ≤ (last - from_) / unit := by
      rw [Nat.le_div_iff_mul_le hunit, Nat.mul_comm]
      omega
    have := Nat.mul_le_mul_left unit hkle
    omega

/-- Where the strides fit, back and forth again is where one was. -/
theorem Heading.Lands.undo {h h' : Heading} {unit count last from_ dest back : Nat} (hne : h ≠ h')
    (hfrom : from_ ≤ last) (hfit : h.Fits unit count last from_)
    (hthere : h.Lands unit count last from_ dest) (hback : h'.Lands unit count last dest back) :
    back = from_ := by
  have hdest := hthere.1 hfit
  cases h with
  | back =>
      cases h' with
      | back => exact absurd rfl hne
      | forth =>
          simp only [Heading.nominal, Heading.Fits] at hdest hfit
          rw [hback.1 (show dest + unit * count ≤ last by omega)]
          show dest + unit * count = from_
          omega
  | forth =>
      cases h' with
      | forth => exact absurd rfl hne
      | back =>
          simp only [Heading.nominal, Heading.Fits] at hdest hfit
          rw [hback.1 (show unit * count ≤ dest by omega)]
          show dest - unit * count = from_
          omega

/-- Whole strides keep the column they are as long as. -/
theorem Heading.Lands.mod_eq {h : Heading} {unit count last from_ dest : Nat}
    (hlands : h.Lands unit count last from_ dest) : dest % unit = from_ % unit := by
  by_cases hfit : h.Fits unit count last from_
  · rw [hlands.1 hfit]
    cases h with
    | back => exact Nat.sub_mul_mod hfit
    | forth => exact Nat.add_mul_mod_self_left _ _ _
  · have hfar := hlands.2 hfit
    cases h with
    | back => exact hfar.1.2
    | forth => exact hfar.1.2.2

/-! ## Where every move lands -/

section Moves

variable (c : MapCursor) (map : HeatMap)

theorem rowsUp_one (from_ count : Nat) : rowsUp from_ 1 count = from_ - count := by
  unfold rowsUp
  rw [Nat.div_one, Nat.one_mul]
  omega

theorem rowsDown_one {from_ last : Nat} (h : from_ ≤ last) (count : Nat) :
    rowsDown from_ last 1 count = min (from_ + count) last := by
  unfold rowsDown
  rw [Nat.div_one, Nat.one_mul]
  omega

/-- A horizontal arm of the `switch` is a vertical one over rows of one cell. -/
theorem MapCursor.target_lands {m : CursorMove} {h : Heading} {unit count : Nat}
    (hcols : 0 < map.grid.cols) (hstride : m.stride map.grid.cols = some (h, unit, count)) :
    h.Lands unit count (lastHeapCell map.grid) (c.index map.grid) (c.target map m) := by
  have hle := c.index_le map.grid
  have hback : ∀ n, Heading.back.Lands 1 n (lastHeapCell map.grid) (c.index map.grid)
      (c.index map.grid - n) := by
    intro n
    rw [← rowsUp_one]
    exact rowsUp_lands Nat.one_pos
  have hforth : ∀ n, Heading.forth.Lands 1 n (lastHeapCell map.grid) (c.index map.grid)
      (min (c.index map.grid + n) (lastHeapCell map.grid)) := by
    intro n
    rw [← rowsDown_one hle]
    exact rowsDown_lands Nat.one_pos hle
  cases m with
  | left =>
      cases hstride
      have harm : c.target map .left = c.index map.grid - 1 := by
        simp only [MapCursor.target]
        split <;> omega
      rw [harm]
      exact hback 1
  | right =>
      cases hstride
      have harm : c.target map .right = min (c.index map.grid + 1) (lastHeapCell map.grid) := by
        simp only [MapCursor.target]
        split <;> omega
      rw [harm]
      exact hforth 1
  | leftFar =>
      cases hstride
      have harm : c.target map .leftFar = c.index map.grid - kCursorJump := by
        simp only [MapCursor.target]
        split <;> omega
      rw [harm]
      exact hback kCursorJump
  | rightFar =>
      cases hstride
      have harm : c.target map .rightFar =
          min (c.index map.grid + kCursorJump) (lastHeapCell map.grid) := by
        simp only [MapCursor.target]
        split <;> omega
      rw [harm]
      exact hforth kCursorJump
  | up | upFar =>
      cases hstride
      exact rowsUp_lands hcols
  | down | downFar =>
      cases hstride
      exact rowsDown_lands hcols hle
  | start | last | nextLive | prevLive => cases hstride

/-- The cells that show an allocation. -/
def HeatMap.Occupied (map : HeatMap) (i : Nat) : Prop :=
  i < map.cellCount ∧ cellOccupied (map.at i) = true

/-- The occupied cells of the heap after the cursor, and those before it. -/
def MapCursor.liveAfter : Set Nat :=
  {i | c.index map.grid < i ∧ i ≤ lastHeapCell map.grid ∧ map.Occupied i}

def MapCursor.liveBefore : Set Nat := {i | i < c.index map.grid ∧ map.Occupied i}

theorem find?_reverse_range {p : Nat → Bool} : ∀ {n : Nat},
    (∀ i, (List.range n).reverse.find? p = some i → IsGreatest {j | j < n ∧ p j = true} i) ∧
      ((List.range n).reverse.find? p = none → ∀ j < n, p j = false)
  | 0 => by simp
  | n + 1 => by
      obtain ⟨hsome, hnone⟩ := find?_reverse_range (p := p) (n := n)
      rw [List.range_succ, List.reverse_append, List.reverse_singleton, List.singleton_append,
        List.find?_cons]
      cases hp : p n with
      | true =>
          refine ⟨?_, by simp⟩
          rintro i hi
          obtain rfl := Option.some.inj hi
          exact ⟨⟨Nat.lt_succ_self n, hp⟩, fun j hj => Nat.le_of_lt_succ hj.1⟩
      | false =>
          refine ⟨?_, ?_⟩
          · intro i hi
            obtain ⟨⟨hlt, hpi⟩, hmax⟩ := hsome i hi
            refine ⟨⟨by omega, hpi⟩, ?_⟩
            rintro j ⟨hj, hpj⟩
            refine hmax ⟨?_, hpj⟩
            rcases Nat.lt_succ_iff_lt_or_eq.mp hj with hjn | rfl
            · exact hjn
            · rw [hp] at hpj
              cases hpj
          · intro hi j hj
            rcases Nat.lt_succ_iff_lt_or_eq.mp hj with hjn | rfl
            · exact hnone hi j hjn
            · exact hp

theorem MapCursor.target_nextLive :
    IsLeast (c.liveAfter map) (c.target map .nextLive) ∨
      (c.liveAfter map = ∅ ∧ c.target map .nextLive = c.index map.grid) := by
  -- the loop's bound is the last cell that is both of the heap and of the map
  have hstop : ∀ i, c.index map.grid < i → (i ∈ c.liveAfter map ↔
      i ∈ List.range' (c.index map.grid + 1) ((if lastHeapCell map.grid < map.cellCount then
        lastHeapCell map.grid else map.cellCount - 1) - c.index map.grid) ∧
      (map.cellCount ≠ 0 && cellOccupied (map.at i)) = true) := by
    intro i hi
    simp only [MapCursor.liveAfter, HeatMap.Occupied, Set.mem_ofPred_eq, List.mem_range'_1,
      Bool.and_eq_true, decide_eq_true_eq]
    constructor
    · rintro ⟨-, hlast, hn, hocc⟩
      refine ⟨?_, by omega, hocc⟩
      split <;> omega
    · rintro ⟨⟨hlow, hhigh⟩, hn, hocc⟩
      split at hhigh
      · exact ⟨hi, by omega, by omega, hocc⟩
      · exact ⟨hi, by omega, by omega, hocc⟩
  simp only [MapCursor.target]
  cases hfind : List.find? _ _ with
  | none =>
      refine Or.inr ⟨?_, rfl⟩
      apply Set.eq_empty_of_forall_notMem
      intro i hi
      obtain ⟨hmem, hp⟩ := (hstop i hi.1).mp hi
      exact absurd hp (List.find?_eq_none.mp hfind i hmem)
  | some i =>
      obtain ⟨hp, hmem, hfirst⟩ := List.find?_range'_eq_some.mp hfind
      have hlow := (List.mem_range'_1.mp hmem).1
      refine Or.inl ⟨(hstop i hlow).mpr ⟨hmem, hp⟩, ?_⟩
      intro j hj
      rw [Option.getD_some]
      by_contra hlt
      have hnot := hfirst j hj.1 (Nat.not_le.mp hlt)
      rw [((hstop j hj.1).mp hj).2] at hnot
      cases hnot

theorem MapCursor.target_prevLive :
    IsGreatest (c.liveBefore map) (c.target map .prevLive) ∨
      (c.liveBefore map = ∅ ∧ c.target map .prevLive = c.index map.grid) := by
  have hlive : ∀ i, i ∈ c.liveBefore map ↔ i < c.index map.grid ∧
      (map.cellCount ≠ 0 && (decide (i < map.cellCount) && cellOccupied (map.at i))) = true := by
    intro i
    simp only [MapCursor.liveBefore, HeatMap.Occupied, Set.mem_ofPred_eq, Bool.and_eq_true,
      decide_eq_true_eq]
    constructor
    · rintro ⟨hi, hn, hocc⟩
      exact ⟨hi, by omega, hn, hocc⟩
    · rintro ⟨hi, -, hn, hocc⟩
      exact ⟨hi, hn, hocc⟩
  simp only [MapCursor.target]
  cases hfind : List.find? _ _ with
  | none =>
      refine Or.inr ⟨?_, rfl⟩
      apply Set.eq_empty_of_forall_notMem
      intro i hi
      obtain ⟨hlt, hp⟩ := (hlive i).mp hi
      rw [find?_reverse_range.2 hfind i hlt] at hp
      cases hp
  | some i =>
      obtain ⟨hmem, hmax⟩ := find?_reverse_range.1 i hfind
      exact Or.inl ⟨(hlive i).mpr hmem, fun j hj => hmax ((hlive j).mp hj)⟩

end Moves

/-! ## What every step keeps -/

/-- One move, from any coordinate. -/
structure MapCursor.MoveMeets (c : MapCursor) (map : HeatMap) (m : CursorMove) : Prop where
  onHeap : (c.move map m).1.index map.grid ≤ lastHeapCell map.grid
  flag : (c.move map m).2 = true ↔ (c.move map m).1.index map.grid ≠ c.index map.grid
  unmoved : (c.move map m).2 = false → (c.move map m).1 = c
  column : m.vertical = true → (c.move map m).1.index map.grid % map.grid.cols =
    c.index map.grid % map.grid.cols
  lands : ∀ h unit count, m.stride map.grid.cols = some (h, unit, count) →
    h.Lands unit count (lastHeapCell map.grid) (c.index map.grid) ((c.move map m).1.index map.grid)
  undone : ∀ h unit count back, m.stride map.grid.cols = some (h, unit, count) →
    h.Fits unit count (lastHeapCell map.grid) (c.index map.grid) → m.opposite = some back →
    ((c.move map m).1.move map back).1.index map.grid = c.index map.grid
  start : m = .start → (c.move map m).1.index map.grid = 0
  last : m = .last → (c.move map m).1.index map.grid = lastHeapCell map.grid
  nextLive : m = .nextLive →
    IsLeast (c.liveAfter map) ((c.move map m).1.index map.grid) ∨
      (c.liveAfter map = ∅ ∧ c.move map m = (c, false))
  prevLive : m = .prevLive →
    IsGreatest (c.liveBefore map) ((c.move map m).1.index map.grid) ∨
      (c.liveBefore map = ∅ ∧ c.move map m = (c, false))

/-- The coordinate lands on a cell that holds memory of the target. -/
def MapCursor.OnHeap (c : MapCursor) (g : Grid) : Prop :=
  ∃ i, g.indexOf c.coord = some i ∧ g.HeapCell i

/-- One refit: the coordinate changes only off the heap, and the cell never. -/
structure MapCursor.RefitMeets (c : MapCursor) (g : Grid) : Prop where
  onHeap : (c.refit g).1.index g ≤ lastHeapCell g
  keeps : (c.refit g).1.coord ≠ c.coord → ¬ c.OnHeap g
  index : (c.refit g).1.index g = c.index g

/-- One jump: the cursor is where the coordinate is, and on a cell's first byte. -/
structure MapCursor.SetCoordMeets (c : MapCursor) (g : Grid) (coord : Nat) : Prop where
  onHeap : (c.setCoord g coord).1.index g ≤ lastHeapCell g
  index : (c.setCoord g coord).1.index g = MapCursor.index ⟨coord⟩ g

def MapCursor.Meets (c : MapCursor) : CursorAct → Prop
  | .move map m => c.MoveMeets map m
  | .refit g => c.RefitMeets g
  | .setCoord g coord => c.SetCoordMeets g coord

section Steps

variable {g : Grid}

theorem opposite_stride {m back : CursorMove} {cols unit count : Nat} {h : Heading}
    (hstride : m.stride cols = some (h, unit, count)) (hback : m.opposite = some back) :
    ∃ h', h ≠ h' ∧ back.stride cols = some (h', unit, count) := by
  cases m <;> cases hback <;> cases hstride <;> exact ⟨_, by decide, rfl⟩

theorem vertical_stride {m : CursorMove} (cols : Nat) (hm : m.vertical = true) :
    ∃ h count, m.stride cols = some (h, cols, count) := by
  cases m <;> first | exact ⟨_, _, rfl⟩ | cases hm

theorem MapCursor.move_eq (c : MapCursor) {map : HeatMap} (hvalid : map.grid.valid = true)
    (hcols : 0 < map.grid.cols) (m : CursorMove) :
    c.move map m = if c.target map m = c.index map.grid then (c, false)
      else (⟨coordOfCell map.grid (c.target map m)⟩, true) := by
  unfold MapCursor.move
  rw [if_neg (by simp [hvalid, hcols.ne'])]

theorem MapCursor.moveMeets (c : MapCursor) {map : HeatMap} (hg : map.grid.Built)
    (hvalid : map.grid.valid = true) (m : CursorMove) : c.MoveMeets map m := by
  have hcols := (hg.spans hvalid).2.1
  have hmove := c.move_eq hvalid hcols m
  have hindex := c.move_index hg hvalid m
  have hlands : ∀ h unit count, m.stride map.grid.cols = some (h, unit, count) →
      h.Lands unit count (lastHeapCell map.grid) (c.index map.grid)
        ((c.move map m).1.index map.grid) := by
    intro h unit count hstride
    rw [hindex]
    exact c.target_lands map hcols hstride
  have hstays : c.target map m = c.index map.grid → c.move map m = (c, false) := by
    intro hstay
    rw [hmove, if_pos hstay]
  refine ⟨MapCursor.index_le _ _, ?_, ?_, ?_, hlands, ?_, ?_, ?_, ?_, ?_⟩
  · rw [hindex, hmove]
    split <;> simp [*]
  · rw [hmove]
    split
    · intro _
      rfl
    · intro h
      cases h
  · intro hm
    obtain ⟨h, count, hstride⟩ := vertical_stride map.grid.cols hm
    exact (hlands h _ count hstride).mod_eq
  · intro h unit count back hstride hfit hback
    obtain ⟨h', hne, hstride'⟩ := opposite_stride hstride hback
    have hreturn := (c.move map m).1.target_lands map hcols hstride'
    rw [← (c.move map m).1.move_index hg hvalid] at hreturn
    exact Heading.Lands.undo hne (c.index_le _) hfit (hlands h unit count hstride) hreturn
  · rintro rfl
    exact hindex
  · rintro rfl
    exact hindex
  · rintro rfl
    rw [hindex]
    exact (c.target_nextLive map).imp_right fun h => ⟨h.1, hstays h.2⟩
  · rintro rfl
    rw [hindex]
    exact (c.target_prevLive map).imp_right fun h => ⟨h.1, hstays h.2⟩

theorem MapCursor.refit_of_onHeap {c : MapCursor} (hg : g.Built) (h : c.OnHeap g) :
    c.refit g = (c, false) := by
  obtain ⟨i, hidx, hheap⟩ := h
  have hvalid := (indexOf_eq_some.mp hidx).1
  unfold MapCursor.refit
  rw [if_neg (by simp [hvalid]), if_pos]
  rw [hidx]
  exact decide_eq_true (hg.heapCell_le hheap)

theorem MapCursor.refitMeets (c : MapCursor) (hg : g.Built) : c.RefitMeets g where
  onHeap := MapCursor.index_le _ _
  keeps := by
    intro hchanged honHeap
    rw [MapCursor.refit_of_onHeap hg honHeap] at hchanged
    exact hchanged rfl
  index := c.refit_index hg

theorem MapCursor.setCoordMeets (c : MapCursor) (hg : g.Built) (hvalid : g.valid = true)
    (coord : Nat) : c.SetCoordMeets g coord where
  onHeap := MapCursor.index_le _ _
  index := by
    unfold MapCursor.setCoord
    rw [if_neg (by simp [hvalid])]
    exact hg.index_coordOfCell hvalid (MapCursor.index_le _ _)

theorem MapCursor.act_meets (c : MapCursor) {a : CursorAct} (hg : a.grid.Built)
    (hvalid : a.grid.valid = true) : c.Meets a := by
  cases a with
  | move map m => exact c.moveMeets hg hvalid m
  | refit g => exact c.refitMeets hg
  | setCoord g coord => exact c.setCoordMeets hg hvalid coord

end Steps

/-! ## Runs -/

/-- A run of refits over grids that all have the coordinate on their heap. -/
theorem MapCursor.run_refits {c : MapCursor} : ∀ {gs : List Grid},
    (∀ g ∈ gs, g.Built ∧ c.OnHeap g) → c.run (gs.map .refit) = c
  | [], _ => rfl
  | g :: gs, h => by
      have hfirst := h g List.mem_cons_self
      have hrest : c.run (gs.map .refit) = c :=
        MapCursor.run_refits fun g' hg' => h g' (List.mem_cons_of_mem g hg')
      show (c.refit g).1.run (gs.map .refit) = c
      rw [MapCursor.refit_of_onHeap hfirst.1 hfirst.2]
      exact hrest

/-- **Runs of the cursor.** From any coordinate, through any moves, refits and
jumps over any valid grids and map contents, every step does what is said of
its kind, the cell stays within the heap of whatever grid is asked about, and
resizes that keep the coordinate on the heap keep the coordinate. -/
theorem cursor_runs (c : MapCursor) (acts : List CursorAct)
    (hacts : ∀ a ∈ acts, a.grid.Built ∧ a.grid.valid = true) :
    (∀ before a after, acts = before ++ a :: after → (c.run before).Meets a) ∧
      (∀ g, (c.run acts).index g ≤ lastHeapCell g) ∧
      ∀ gs : List Grid, (∀ g ∈ gs, g.Built ∧ (c.run acts).OnHeap g) →
        ((c.run acts).run (gs.map .refit)).coord = (c.run acts).coord := by
  refine ⟨?_, fun g => MapCursor.index_le _ g, fun gs hgs => by rw [MapCursor.run_refits hgs]⟩
  rintro before a after rfl
  obtain ⟨hg, hvalid⟩ := hacts a (by simp)
  exact (c.run before).act_meets hg hvalid

/-- Down and along an eight-column map of a 4 KiB heap, a resize to four
columns, and a jump. -/
def narrowingRun : List CursorAct :=
  [.move (HeatMap.init.configure (Grid.configure 0 4096 8 8)).1 .down,
    .move (HeatMap.init.configure (Grid.configure 0 4096 8 8)).1 .right,
    .refit (Grid.configure 0 4096 4 8), .setCoord (Grid.configure 0 4096 4 8) 1000]

theorem cursor_runs_narrowing :
    MapCursor.run ⟨0⟩ (narrowingRun.take 3) = ⟨576⟩ ∧ MapCursor.run ⟨0⟩ narrowingRun = ⟨896⟩ ∧
      ∀ before a after, narrowingRun = before ++ a :: after →
        (MapCursor.run ⟨0⟩ before).Meets a := by
  refine ⟨by decide, by decide, (cursor_runs ⟨0⟩ narrowingRun ?_).1⟩
  have hmap : (HeatMap.init.configure (Grid.configure 0 4096 8 8)).1.grid =
      Grid.configure 0 4096 8 8 := by
    rw [configure_grid]
    exact if_neg (by decide)
  simp only [narrowingRun, List.forall_mem_cons, CursorAct.grid, hmap]
  exact ⟨⟨.configure 8 8 (by decide) (by decide), by decide⟩,
    ⟨.configure 8 8 (by decide) (by decide), by decide⟩,
    ⟨.configure 4 8 (by decide) (by decide), by decide⟩,
    ⟨.configure 4 8 (by decide) (by decide), by decide⟩, by simp⟩

end Heapviz
