import Heapviz.ChunkCap
import Heapviz.HeatSum
import Heapviz.Tally

/-!
# What accumulated since a mark

`SnapshotDiff` (`tui/snapshot.cpp`): a mark in time, a mode that shows the live
chunks that are not older, and a pass over the chunk table that counts them in
all, off the map and in each cell, with a list of the cells that have any.

A pass is a tally (`Tally`) of the cell numbers of these chunks
(`foldl_leakSlot`). Everything that resets the figures resets all of them
together, so outside the mode there are none (`SnapshotDiff.Off`), and a pass
starts from none.

The list holds cell numbers of 32 bits, which a cell beyond the first 2^32
does not fit in.
-/

namespace Heapviz

open ChunkTable

/-! ## The mark -/

def kLeakIntervalMs : Nat := 250

structure LeakReport where
  chunks : Nat
  bytes : Nat
  offmap : Nat
deriving Repr, DecidableEq

def LeakReport.init : LeakReport := ⟨0, 0, 0⟩

/-- `cells_` is a function of the cell number, with its size beside it;
`taken_at_` is the label without its terminator. -/
structure SnapshotDiff where
  report : LeakReport
  cells : Nat → Nat
  cellSpan : Nat
  hot : List Nat
  cellsHash : Nat
  takenMs : Nat
  lastMs : Nat
  intervalMs : Nat
  taken : Bool
  diff : Bool
  ran : Bool
  takenAt : List Char

def twoDigits (n : Nat) : List Char := [Nat.digitChar (n / 10), Nat.digitChar (n % 10)]

/-- The label of a wall clock time, empty where the clock does not answer. -/
def clockLabel : Option (Nat × Nat × Nat) → List Char
  | none => []
  | some (hour, minute, second) =>
      twoDigits hour ++ ':' :: twoDigits minute ++ ':' :: twoDigits second

namespace SnapshotDiff

def init : SnapshotDiff :=
  ⟨LeakReport.init, fun _ => 0, 0, [], 0, 0, 0, kLeakIntervalMs, false, false, false, []⟩

/-- `reset_cells`. -/
def resetCells (d : SnapshotDiff) (n : Nat) : SnapshotDiff :=
  { d with cells := fun _ => 0, cellSpan := n, hot := [], cellsHash := 0 }

def take (d : SnapshotDiff) (nowMs : Nat) (clock : Option (Nat × Nat × Nat)) : SnapshotDiff :=
  let d := { d with
    takenMs := nowMs
    taken := true
    takenAt := clockLabel clock
    report := LeakReport.init }
  { d.resetCells d.cellSpan with ran := false }

def clear (d : SnapshotDiff) : SnapshotDiff :=
  let d := { d with
    taken := false
    diff := false
    takenMs := 0
    takenAt := []
    report := LeakReport.init }
  { d.resetCells d.cellSpan with ran := false }

/-- `toggle`, with the mode it returns. -/
def toggle (d : SnapshotDiff) : SnapshotDiff × Bool :=
  if d.taken = false then (d, false)
  else
    let d := { d with diff := !d.diff }
    let d :=
      if d.diff then { d with ran := false }
      else { d with report := LeakReport.init }.resetCells d.cellSpan
    (d, d.diff)

def setInterval (d : SnapshotDiff) (ms : Nat) : SnapshotDiff := { d with intervalMs := ms }

/-- Whether `analyze` runs a pass. -/
def runs (d : SnapshotDiff) (nowMs : Nat) (force : Bool) : Bool :=
  d.diff && d.taken && (!d.ran || force || sub32 nowMs d.lastMs ≥ d.intervalMs)

end SnapshotDiff

/-! ## The pass -/

/-- What the walk over the slots gathers. -/
structure LeakPass where
  report : LeakReport
  cells : Nat → Nat
  hot : List Nat

def LeakPass.init : LeakPass := ⟨LeakReport.init, fun _ => 0, []⟩

/-- The walk at one slot. -/
def LeakPass.slot (map : HeatMap) (regions : Option RegionMap) (mark : Nat) (p : LeakPass)
    (c : Chunk) : LeakPass :=
  if c.state ≠ .live ∨ c.key = 0 then p
  else if c.allocMs < mark then p
  else
    let report := { p.report with
      chunks := add64 p.report.chunks 1
      bytes := add64 p.report.bytes c.usable }
    match map.indexFor regions c.key with
    | none => { p with report := { report with offmap := add64 report.offmap 1 } }
    | some idx =>
        if idx ≥ map.cellCount then
          { p with report := { report with offmap := add64 report.offmap 1 } }
        else
          { report := report
            cells := Function.update p.cells idx (add32 (p.cells idx) 1)
            hot := if p.cells idx = 0 then p.hot ++ [idx % 2 ^ 32] else p.hot }

/-- FNV-1a over the overlay. -/
def overlayHash (span : Nat) (cells : Nat → Nat) : Nat :=
  (List.range span).foldl (fun h i => ((h ^^^ cells i) * 1099511628211) % 2 ^ 64)
    1469598103934665603

/-- `analyze`, with the flag that says whether the overlay changed. -/
def SnapshotDiff.analyze (d : SnapshotDiff) (t : ChunkTable) (map : HeatMap)
    (regions : Option RegionMap) (nowMs : Nat) (force : Bool) : SnapshotDiff × Bool :=
  if d.runs nowMs force = false then (d, false)
  else
    let pass := ((List.range t.capacity).map t.slots).foldl
      (LeakPass.slot map regions d.takenMs) LeakPass.init
    let hash := overlayHash map.cellCount pass.cells
    ({ d.resetCells map.cellCount with
        lastMs := nowMs
        ran := true
        report := pass.report
        cells := pass.cells
        hot := pass.hot
        cellsHash := hash },
      decide (hash ≠ d.cellsHash ∨ pass.report.chunks ≠ d.report.chunks ∨
        pass.report.bytes ≠ d.report.bytes ∨ pass.report.offmap ≠ d.report.offmap))

/-! ## What a pass counts -/

/-- The live records that are not older than the mark. -/
def ChunkTable.since (t : ChunkTable) (mark : Nat) : Multiset Chunk :=
  t.live.filter fun c => mark ≤ c.allocMs

/-- The test of the walk. -/
def Chunk.candidate (mark : Nat) (c : Chunk) : Bool :=
  c.state = .live && c.key ≠ 0 && mark ≤ c.allocMs

section Pass

variable {map : HeatMap} {regions : Option RegionMap} {mark : Nat}

/-- What the walk has gathered after these candidates. -/
def passOf (map : HeatMap) (regions : Option RegionMap) (cs : List Chunk) : LeakPass :=
  let tally := Tally.of (cs.filterMap fun c => map.cellFor regions c.key)
  { report :=
      { chunks := cs.length
        bytes := (cs.map Chunk.usable).sum
        offmap := cs.countP fun c => (map.cellFor regions c.key).isNone }
    cells := tally.counts
    hot := tally.hot }

theorem leakSlot_skip {c : Chunk} (h : c.candidate mark = false) (p : LeakPass) :
    p.slot map regions mark c = p := by
  unfold LeakPass.slot
  split_ifs with hskip hold
  · rfl
  · rfl
  · rw [not_or, not_not] at hskip
    simp [Chunk.candidate, hskip.1, hskip.2, not_lt.mp hold] at h

theorem leakSlot_off {c : Chunk} (h : c.candidate mark = true)
    (hoff : map.cellFor regions c.key = none) (p : LeakPass) :
    p.slot map regions mark c = { p with
      report := ⟨add64 p.report.chunks 1, add64 p.report.bytes c.usable,
        add64 p.report.offmap 1⟩ } := by
  obtain ⟨⟨hlive, hkey⟩, hmark⟩ : (c.state = .live ∧ c.key ≠ 0) ∧ mark ≤ c.allocMs := by
    simpa [Chunk.candidate] using h
  unfold LeakPass.slot
  rw [if_neg (not_or.mpr ⟨not_not.mpr hlive, hkey⟩), if_neg (not_lt.mpr hmark)]
  unfold HeatMap.cellFor at hoff
  cases hidx : map.indexFor regions c.key with
  | none => rfl
  | some idx =>
      have hbeyond : idx ≥ map.cellCount := by
        by_contra hlt
        simp [hidx, Option.filter, not_le.mp hlt] at hoff
      exact if_pos hbeyond

theorem leakSlot_on {c : Chunk} (h : c.candidate mark = true) {idx : Nat}
    (hon : map.cellFor regions c.key = some idx) (p : LeakPass) :
    p.slot map regions mark c =
      { report := { p.report with
          chunks := add64 p.report.chunks 1
          bytes := add64 p.report.bytes c.usable }
        cells := Function.update p.cells idx (add32 (p.cells idx) 1)
        hot := if p.cells idx = 0 then p.hot ++ [idx % 2 ^ 32] else p.hot } := by
  obtain ⟨⟨hlive, hkey⟩, hmark⟩ : (c.state = .live ∧ c.key ≠ 0) ∧ mark ≤ c.allocMs := by
    simpa [Chunk.candidate] using h
  obtain ⟨hidx, hlt⟩ := Option.filter_eq_some_iff.mp hon
  unfold LeakPass.slot
  rw [if_neg (not_or.mpr ⟨not_not.mpr hlive, hkey⟩), if_neg (not_lt.mpr hmark), hidx]
  exact if_neg (not_le.mpr (of_decide_eq_true hlt))

/-- One candidate more, while the figures are in range. -/
theorem leakSlot_passOf (hcells : map.cellCount ≤ 2 ^ 32) {cs : List Chunk} {c : Chunk}
    (hcount : cs.length + 1 < 2 ^ 32) (hbytes : (cs.map Chunk.usable).sum + c.usable < 2 ^ 64)
    (h : c.candidate mark = true) :
    (passOf map regions cs).slot map regions mark c = passOf map regions (cs ++ [c]) := by
  have hoffmap : cs.countP (fun c => (map.cellFor regions c.key).isNone) ≤ cs.length :=
    List.countP_le_length
  have hchunks : add64 cs.length 1 = cs.length + 1 := Nat.mod_eq_of_lt (by omega)
  have hsum : add64 (cs.map Chunk.usable).sum c.usable = (cs.map Chunk.usable).sum + c.usable :=
    Nat.mod_eq_of_lt hbytes
  cases hcell : map.cellFor regions c.key with
  | none =>
      have hmore : add64 (cs.countP fun c => (map.cellFor regions c.key).isNone) 1 =
          (cs.countP fun c => (map.cellFor regions c.key).isNone) + 1 :=
        Nat.mod_eq_of_lt (by omega)
      rw [leakSlot_off h hcell]
      simp [passOf, hcell, hchunks, hsum, hmore]
  | some idx =>
      have hlt : idx < 2 ^ 32 := by
        have hin := of_decide_eq_true (Option.filter_eq_some_iff.mp hcell).2
        omega
      have hfew : (cs.filterMap fun c => map.cellFor regions c.key).count idx ≤ cs.length :=
        List.count_le_length.trans (List.length_filterMap_le _ _)
      have hmore : add32 ((cs.filterMap fun c => map.cellFor regions c.key).count idx) 1 =
          (cs.filterMap fun c => map.cellFor regions c.key).count idx + 1 :=
        Nat.mod_eq_of_lt (by omega)
      rw [leakSlot_on h hcell, Nat.mod_eq_of_lt hlt]
      simp [passOf, hcell, hchunks, hsum, Tally.of_concat, Tally.bump, Tally.counts_of, hmore]

/-- The walk is the tally of its candidates. -/
theorem foldl_leakSlot (hcells : map.cellCount ≤ 2 ^ 32) (cs : List Chunk)
    (hcount : (cs.filter (Chunk.candidate mark)).length < 2 ^ 32)
    (hbytes : ((cs.filter (Chunk.candidate mark)).map Chunk.usable).sum < 2 ^ 64) :
    cs.foldl (LeakPass.slot map regions mark) LeakPass.init =
      passOf map regions (cs.filter (Chunk.candidate mark)) := by
  induction cs using List.reverseRecOn with
  | nil => rfl
  | append_singleton cs c ih =>
      rw [List.filter_append] at hcount hbytes ⊢
      rw [List.length_append] at hcount
      rw [List.map_append, List.sum_append] at hbytes
      rw [List.foldl_append, List.foldl_cons, List.foldl_nil, ih (by omega) (by omega)]
      cases hcandidate : Chunk.candidate mark c with
      | false =>
          rw [leakSlot_skip hcandidate, List.filter_cons_of_neg (by rw [hcandidate]; decide),
            List.filter_nil, List.append_nil]
      | true =>
          rw [List.filter_cons_of_pos hcandidate, List.filter_nil] at hcount hbytes ⊢
          exact leakSlot_passOf hcells hcount (by simpa using hbytes) hcandidate

end Pass

/-- What a pass shows of the candidates since the mark. -/
structure LeakShown (t : ChunkTable) (map : HeatMap) (regions : Option RegionMap) (mark : Nat)
    (d : SnapshotDiff) : Prop where
  chunks : d.report.chunks = (t.since mark).card
  bytes : d.report.bytes = total Chunk.usable (t.since mark)
  split : d.report.chunks = d.report.offmap + ∑ i ∈ Finset.range d.cellSpan, d.cells i
  cell : ∀ i, d.cells i = (inCell (map.cellFor regions) (t.since mark) i).card
  span : d.cellSpan = map.cellCount
  hot_nodup : d.hot.Nodup
  hot : ∀ i, i ∈ d.hot ↔ i < d.cellSpan ∧ d.cells i ≠ 0

/-- The candidates of the walk, with the slots forgotten. -/
theorem TableInv.coe_candidates {t : ChunkTable} (hI : TableInv t) (mark : Nat) :
    ((((List.range t.capacity).map t.slots).filter (Chunk.candidate mark) : List Chunk) :
      Multiset Chunk) = t.since mark := by
  have hcandidates : (((List.range t.capacity).map t.slots).filter (Chunk.candidate mark) :
      Multiset Chunk) = t.live.filter fun c => c.key ≠ 0 ∧ mark ≤ c.allocMs := by
    rw [live_eq, liveOf, Multiset.filter_filter, Multiset.filter_coe]
    congr 1
    refine List.filter_congr fun c _ => ?_
    rw [Bool.eq_iff_iff]
    simp [Chunk.candidate, and_comm, and_left_comm]
  rw [hcandidates]
  refine Multiset.filter_congr fun c hc => and_iff_right ?_
  exact hI.key_ne c (mem_live.mp hc).1

/-- The cell numbers of the candidates that have one. -/
theorem shown_passOf {t : ChunkTable} {map : HeatMap} {regions : Option RegionMap} {mark : Nat}
    {cs : List Chunk} (hcs : (cs : Multiset Chunk) = t.since mark) {d : SnapshotDiff}
    (hreport : d.report = (passOf map regions cs).report)
    (hcells : d.cells = (passOf map regions cs).cells)
    (hhot : d.hot = (passOf map regions cs).hot) (hspan : d.cellSpan = map.cellCount) :
    LeakShown t map regions mark d := by
  have hlt : ∀ i ∈ cs.filterMap fun c => map.cellFor regions c.key, i < map.cellCount := by
    intro i hi
    obtain ⟨c, -, hc⟩ := List.mem_filterMap.mp hi
    exact of_decide_eq_true (Option.filter_eq_some_iff.mp hc).2
  refine ⟨?_, ?_, ?_, fun i => ?_, hspan, ?_, fun i => ?_⟩
  · rw [hreport, ← hcs]
    rfl
  · rw [hreport, ← hcs, total, Multiset.map_coe, Multiset.sum_coe]
    rfl
  · have hsum := Tally.sum_counts (cs.filterMap fun c => map.cellFor regions c.key)
      (Finset.range map.cellCount) fun i hi => Finset.mem_range.mpr (hlt i hi)
    have hparts := List.length_eq_countP_add_countP
      (fun c : Chunk => (map.cellFor regions c.key).isNone) (l := cs)
    rw [List.length_filterMap_eq_countP] at hsum
    rw [hreport, hcells, hspan]
    show cs.length = cs.countP _ + ∑ i ∈ Finset.range map.cellCount, (Tally.of _).counts i
    rw [hsum, hparts]
    refine congrArg _ (List.countP_congr fun c _ => ?_)
    cases map.cellFor regions c.key <;> simp
  · rw [hcells, ← hcs]
    show (Tally.of _).counts i = _
    rw [Tally.counts_of, List.count_filterMap, inCell, Multiset.filter_coe, Multiset.coe_card,
      ← List.countP_eq_length_filter]
    exact List.countP_congr fun c _ => by simp
  · rw [hhot]
    exact Tally.nodup_hot _
  · rw [hhot, hcells, hspan]
    show i ∈ (Tally.of _).hot ↔ i < map.cellCount ∧ (Tally.of _).counts i ≠ 0
    rw [Tally.mem_hot, Tally.counts_of, ne_eq, List.count_eq_zero, not_not]
    exact ⟨fun hi => ⟨hlt i hi, hi⟩, And.right⟩

/-! ## Runs -/

inductive DiffOp where
  | take (nowMs : Nat) (clock : Option (Nat × Nat × Nat))
  | clear
  | toggle
  | setInterval (ms : Nat)
  | analyze (t : ChunkTable) (map : HeatMap) (regions : Option RegionMap) (nowMs : Nat)
      (force : Bool)

def SnapshotDiff.step (d : SnapshotDiff) : DiffOp → SnapshotDiff
  | .take nowMs clock => d.take nowMs clock
  | .clear => d.clear
  | .toggle => d.toggle.1
  | .setInterval ms => d.setInterval ms
  | .analyze t map regions nowMs force => (d.analyze t map regions nowMs force).1

/-- What a sequence of calls on a new one leaves. -/
def SnapshotDiff.afterCalls (ops : List DiffOp) : SnapshotDiff :=
  ops.foldl SnapshotDiff.step .init

/-- A pass is over a chunk table of fewer than 2^32 records, their sizes of 32
bits. -/
def DiffOp.Fits : DiffOp → Prop
  | .analyze t _ _ _ _ =>
      TableInv t ∧ t.records.card < 2 ^ 32 ∧ ∀ c ∈ t.records, c.usable < 2 ^ 32
  | _ => True

/-- The map of a pass has no more cells than 32 bits number. -/
def DiffOp.Numbered : DiffOp → Prop
  | .analyze _ map _ _ _ => map.cellCount ≤ 2 ^ 32
  | _ => True

/-- There are no figures. -/
structure SnapshotDiff.Zero (d : SnapshotDiff) : Prop where
  cells : ∀ i, d.cells i = 0
  hot : d.hot = []
  report : d.report = LeakReport.init

/-- Diff mode is with a mark only, and without it there are no figures. -/
structure SnapshotDiff.Steady (d : SnapshotDiff) : Prop where
  marked : d.diff = true → d.taken = true
  off : d.diff = false → d.Zero

/-- What holds after a run, and of the pass it ends with, if it does. -/
structure LeakRun (ops : List DiffOp) : Prop where
  steady : (SnapshotDiff.afterCalls ops).Steady
  pass : ∀ before t map regions nowMs force,
    ops = before ++ [.analyze t map regions nowMs force] →
    (SnapshotDiff.afterCalls before).runs nowMs force = true →
    LeakShown t map regions (SnapshotDiff.afterCalls before).takenMs (SnapshotDiff.afterCalls ops)

theorem SnapshotDiff.Steady.toggle {d : SnapshotDiff} (h : d.Steady) : d.toggle.1.Steady := by
  unfold SnapshotDiff.toggle
  split
  · exact h
  · rename_i htaken
    rw [Bool.not_eq_false] at htaken
    cases hdiff : d.diff with
    | true => exact ⟨nofun, fun _ => ⟨fun _ => rfl, rfl, rfl⟩⟩
    | false => exact ⟨fun _ => htaken, nofun⟩

theorem SnapshotDiff.Steady.analyze {d : SnapshotDiff} (h : d.Steady) (t : ChunkTable)
    (map : HeatMap) (regions : Option RegionMap) (nowMs : Nat) (force : Bool) :
    (d.analyze t map regions nowMs force).1.Steady := by
  unfold SnapshotDiff.analyze
  split
  · exact h
  · rename_i hruns
    have hdiff : d.diff = true := by
      simp only [SnapshotDiff.runs, Bool.not_eq_false, Bool.and_eq_true] at hruns
      exact hruns.1.1
    exact ⟨fun _ => h.marked hdiff, fun hoff => absurd (hdiff.symm.trans hoff) (by decide)⟩

theorem SnapshotDiff.Steady.step {d : SnapshotDiff} (h : d.Steady) (op : DiffOp) :
    (d.step op).Steady := by
  cases op with
  | take nowMs clock => exact ⟨fun _ => rfl, fun _ => ⟨fun _ => rfl, rfl, rfl⟩⟩
  | clear => exact ⟨nofun, fun _ => ⟨fun _ => rfl, rfl, rfl⟩⟩
  | toggle => exact h.toggle
  | setInterval ms =>
      exact ⟨h.marked, fun hoff => ⟨(h.off hoff).cells, (h.off hoff).hot, (h.off hoff).report⟩⟩
  | analyze t map regions nowMs force => exact h.analyze t map regions nowMs force

theorem steady_afterCalls (ops : List DiffOp) : (SnapshotDiff.afterCalls ops).Steady := by
  induction ops using List.reverseRecOn with
  | nil => exact ⟨nofun, fun _ => ⟨fun _ => rfl, rfl, rfl⟩⟩
  | append_singleton ops op ih =>
      rw [SnapshotDiff.afterCalls, List.foldl_append]
      exact ih.step op

/-- The figures of the candidates stay in range. -/
theorem candidates_fit {t : ChunkTable} (hcard : t.records.card < 2 ^ 32)
    (husable : ∀ c ∈ t.records, c.usable < 2 ^ 32) {mark : Nat} {cs : List Chunk}
    (hcs : (cs : Multiset Chunk) = t.since mark) :
    cs.length < 2 ^ 32 ∧ (cs.map Chunk.usable).sum < 2 ^ 64 := by
  have hle : t.since mark ≤ t.records :=
    (Multiset.filter_le _ _).trans (Multiset.filter_le _ _)
  have hlength : cs.length < 2 ^ 32 := by
    have hcardle := Multiset.card_le_card hle
    rw [← hcs, Multiset.coe_card] at hcardle
    omega
  have hsum : (cs.map Chunk.usable).sum ≤ (cs.map Chunk.usable).length • (2 ^ 32 - 1) := by
    refine List.sum_le_card_nsmul _ _ fun u hu => ?_
    obtain ⟨c, hc, rfl⟩ := List.mem_map.mp hu
    have hmem : c ∈ t.records := Multiset.mem_of_le hle (hcs ▸ Multiset.mem_coe.mpr hc)
    exact Nat.le_sub_one_of_lt (husable c hmem)
  refine ⟨hlength, lt_of_le_of_lt hsum ?_⟩
  rw [List.length_map, Nat.nsmul_eq_mul]
  calc cs.length * (2 ^ 32 - 1) ≤ (2 ^ 32 - 1) * (2 ^ 32 - 1) :=
        Nat.mul_le_mul_right _ (Nat.le_sub_one_of_lt hlength)
    _ < 2 ^ 64 := by decide

/-- A pass shows the candidates since the mark. -/
theorem SnapshotDiff.analyze_shown {d : SnapshotDiff} {t : ChunkTable} {map : HeatMap}
    {regions : Option RegionMap} {nowMs : Nat} {force : Bool}
    (hfits : (DiffOp.analyze t map regions nowMs force).Fits)
    (hnumbered : (DiffOp.analyze t map regions nowMs force).Numbered)
    (hruns : d.runs nowMs force = true) :
    LeakShown t map regions d.takenMs (d.analyze t map regions nowMs force).1 := by
  obtain ⟨hI, hcard, husable⟩ := hfits
  have hcs := hI.coe_candidates d.takenMs
  obtain ⟨hcount, hbytes⟩ := candidates_fit hcard husable hcs
  have hwalk : ((List.range t.capacity).map t.slots).foldl
      (LeakPass.slot map regions d.takenMs) LeakPass.init = passOf map regions _ :=
    foldl_leakSlot hnumbered _ hcount hbytes
  unfold SnapshotDiff.analyze
  rw [if_neg (by rw [hruns]; decide), hwalk]
  exact shown_passOf hcs rfl rfl rfl rfl

/-- After any calls, over chunk tables of fewer than 2^32 records and maps of at
most 2^32 cells, in any order and at any times: the mode is with a mark only, its
figures are gone with it, and a pass shows just the candidates since the mark. -/
theorem leakDiff_runs (ops : List DiffOp) (hfits : ∀ op ∈ ops, op.Fits)
    (hnumbered : ∀ op ∈ ops, op.Numbered) : LeakRun ops := by
  refine ⟨steady_afterCalls ops, ?_⟩
  rintro before t map regions nowMs force rfl hruns
  have hlast : SnapshotDiff.afterCalls (before ++ [.analyze t map regions nowMs force]) =
      ((SnapshotDiff.afterCalls before).analyze t map regions nowMs force).1 := by
    rw [SnapshotDiff.afterCalls, List.foldl_append]
    rfl
  rw [hlast]
  exact SnapshotDiff.analyze_shown (hfits _ List.mem_concat_self) (hnumbered _ List.mem_concat_self)
    hruns

theorem ChunkTable.Reached.fits {t : ChunkTable} (ht : t.Reached) (hcapacity : t.capacity ≤ 2 ^ 32)
    (husable : ∀ i < t.capacity, (t.slots i).usable < 2 ^ 32) (map : HeatMap)
    (regions : Option RegionMap) (nowMs : Nat) (force : Bool) :
    (DiffOp.analyze t map regions nowMs force).Fits := by
  refine ⟨ht.inv.toTableInv, ht.inv.toTableInv.card_lt.trans_le hcapacity, fun c hc => ?_⟩
  obtain ⟨-, i, hi, rfl⟩ := RobinHood.mem_contents.mp hc
  exact husable i hi

/-- One chunk, allocated at the time 7. -/
def chunkAt (key : Nat) : ChunkTable :=
  (ChunkTable.new 16).capRun [.call (.insertLive key 20 24 7 1)]

/-- A map of the cells of 64 bytes from zero on, without regions. -/
def mapTo (limit : Nat) (side : Int) : HeatMap :=
  (HeatMap.init.configure (Grid.configure 0 limit side side)).1

/-- A mark at 5, the mode on, and a pass at 10. -/
def passOver (key limit : Nat) (side : Int) : List DiffOp :=
  [.take 5 none, .toggle, .analyze (chunkAt key) (mapTo limit side) none 10 false]

theorem passOver_fits {key limit : Nat} {side : Int} (hcapacity : (chunkAt key).capacity ≤ 2 ^ 32)
    (husable : ∀ i < (chunkAt key).capacity, ((chunkAt key).slots i).usable < 2 ^ 32) :
    ∀ op ∈ passOver key limit side, op.Fits :=
  List.forall_mem_cons.mpr ⟨trivial, List.forall_mem_cons.mpr ⟨trivial,
    List.forall_mem_singleton.mpr (ChunkTable.Reached.fits ⟨16, _, rfl⟩ hcapacity husable ..)⟩⟩

theorem leakDiff_runs_small : LeakRun (passOver 0x40 0x400 4) := by
  refine leakDiff_runs (passOver 0x40 0x400 4)
    (passOver_fits (by decide) (by decide)) ?_
  have hcells : (mapTo 0x400 4).cellCount ≤ 2 ^ 32 := by decide
  exact List.forall_mem_cons.mpr ⟨trivial, List.forall_mem_cons.mpr ⟨trivial,
    List.forall_mem_singleton.mpr hcells⟩⟩

/-- A cell beyond the first 2^32: its chunk is counted there, and the list has
cell zero. -/
theorem leakDiff_runs_wide : ¬ ∀ ops : List DiffOp, (∀ op ∈ ops, op.Fits) → LeakRun ops := by
  intro hall
  have hrun := hall (passOver (2 ^ 38) (2 ^ 38 + 4096) 65537)
    (passOver_fits (by decide) (by decide))
  have hshown := hrun.pass [.take 5 none, .toggle] _ _ none 10 false rfl (by decide)
  have hhot : 0 ∈ (SnapshotDiff.afterCalls (passOver (2 ^ 38) (2 ^ 38 + 4096) 65537)).hot := by
    decide
  exact ((hshown.hot 0).mp hhot).2 (by decide)

end Heapviz
