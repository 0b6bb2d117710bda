import Heapviz.Run
import Heapviz.HeatSum
import Heapviz.HeapApp

/-!
# Does the map agree with the table?

`apply` folds every event into two structures by different routes, and
the map's comment promises that the incremental route gives what a
rebuild from the table would. It does while the stream is regular. Three
irregular events break it, all for one reason - the map has no record of
which chunks it counted:

- an allocation at an address still recorded live is counted a second
  time, where the table overwrites;
- a free of an address never seen, or freed already, takes some other
  chunk out of the cell's count, if there is one;
- in a cell whose 32-bit count has wrapped to zero nothing is taken out.

`MapSound` is the condition on one event that none of these happens, and
`map_agrees_iff` says it is exact: map and table agree after every event
of a stream if and only if every event of it is sound.
-/

namespace Heapviz

open ChunkTable

/-- The map's counters are what `rebuild` would compute from the table. -/
def HeapApp.MapAgrees (a : HeapApp) : Prop :=
  (∀ i < a.map.cellCount,
    (a.map.cells i).nLive = ((a.map.rebuild a.translation a.table).cells i).nLive ∧
    (a.map.cells i).liveBytes = ((a.map.rebuild a.translation a.table).cells i).liveBytes) ∧
  a.map.totalLive = (a.map.rebuild a.translation a.table).totalLive ∧
  a.map.totalLiveBytes = (a.map.rebuild a.translation a.table).totalLiveBytes

def HvEvent.isFree (e : HvEvent) : Bool := e.op &&& hvOpMask == HvOp.free.code

/-- The event does to the cell of its address what it does to the table: an
allocation finds the address not live, a free of a live chunk finds its
cell counting, and any other free finds its cell counting nothing. -/
def HeapApp.MapSound (a : HeapApp) (e : HvEvent) : Prop :=
  ∀ i, a.map.cellFor a.translation e.ptr = some i →
    if e.isFree then ((a.table.liveAt e.ptr).isSome ↔ (a.map.cells i).nLive ≠ 0)
    else a.table.liveAt e.ptr = none

instance (a : HeapApp) (e : HvEvent) : Decidable (a.MapSound e) :=
  match h : a.map.cellFor a.translation e.ptr with
  | none => .isTrue fun i hi => by rw [h] at hi; cases hi
  | some i =>
      decidable_of_iff
        (if e.isFree then ((a.table.liveAt e.ptr).isSome ↔ (a.map.cells i).nLive ≠ 0)
          else a.table.liveAt e.ptr = none)
        ⟨fun hs j hj => by rw [← Option.some.inj (h.symm.trans hj)]; exact hs, fun hs => hs i h⟩

/-! ## One event -/

/-- What stays in order whatever the stream: the table's invariant, and one
cell for each cell of the grid. -/
structure HeapApp.WellFormed (a : HeapApp) : Prop where
  table : TableInv a.table
  unbounded : a.table.maxEntries = 0
  cells : a.map.cellCount = a.map.grid.cellCount

/-- The map's counters are those of the table's live records. -/
def HeapApp.MapCounts (a : HeapApp) : Prop :=
  Counts (a.map.cellFor a.translation) a.map a.table.live

theorem HeapApp.WellFormed.rebuild_counts {a : HeapApp} (hw : a.WellFormed) :
    Counts (a.map.cellFor a.translation) (a.map.rebuild a.translation a.table) a.table.live := by
  rw [cellFor_eq_indexFor hw.cells]
  exact (rebuild_sums a.map a.translation a.table).1

theorem HeapApp.MapCounts.agrees {a : HeapApp} (h : a.MapCounts) (hw : a.WellFormed) :
    a.MapAgrees := by
  have hr := hw.rebuild_counts
  refine ⟨fun i _ => ⟨?_, ?_⟩, ?_, ?_⟩
  · rw [h.nLive, hr.nLive]
  · rw [h.liveBytes, hr.liveBytes]
  · rw [h.totalLive, hr.totalLive]
  · rw [h.totalLiveBytes, hr.totalLiveBytes]

/-- Agreement in one cell, as a count of the live records there. -/
theorem HeapApp.MapAgrees.nLive {a : HeapApp} (h : a.MapAgrees) (hw : a.WellFormed) {i : Nat}
    (hi : i < a.map.cellCount) :
    (a.map.cells i).nLive =
      (inCell (a.map.cellFor a.translation) a.table.live i).card % 2 ^ 32 := by
  rw [(h.1 i hi).1, hw.rebuild_counts.nLive]

theorem cellFor_lt {m : HeatMap} {regions : Option RegionMap} {ptr i : Nat}
    (h : m.cellFor regions ptr = some i) : i < m.cellCount :=
  of_decide_eq_true (Option.filter_eq_some_iff.mp h).2

/-- Translation of addresses is not the events' business. -/
theorem HeapApp.applyEvent_translation (a : HeapApp) (e : HvEvent) :
    (a.applyEvent e).translation = a.translation := by
  unfold HeapApp.applyEvent
  dsimp only
  split
  · split <;> rfl
  · rfl

theorem HeapApp.applyEvent_alloc {a : HeapApp} {e : HvEvent} (h : e.isFree = false) :
    (a.applyEvent e).map = a.map.onAlloc a.translation e.ptr (HeapApp.clampU32 e.size) e.usable
        (a.eventMs e.timestamp) ∧
      (a.applyEvent e).table = (a.table.insertLive e.ptr (HeapApp.clampU32 e.size) e.usable
        (a.eventMs e.timestamp) (hvEventGetTid e)).1 := by
  have hop : ¬ e.op &&& hvOpMask = HvOp.free.code := by simpa [HvEvent.isFree] using h
  simp only [HeapApp.applyEvent, if_neg hop]
  exact ⟨rfl, rfl⟩

theorem HeapApp.applyEvent_unknown {a : HeapApp} {e : HvEvent} (h : e.isFree = true)
    (hlookup : a.table.lookup e.ptr = none) :
    (a.applyEvent e).map =
        a.map.onFree a.translation e.ptr e.usable e.usable (a.eventMs e.timestamp) ∧
      (a.applyEvent e).table = a.table := by
  have hop : e.op &&& hvOpMask = HvOp.free.code := by simpa [HvEvent.isFree] using h
  simp only [HeapApp.applyEvent, if_pos hop, hlookup]
  exact ⟨rfl, rfl⟩

/-- The map a free of a recorded chunk finds: its exact overhead taken back. -/
def HeapApp.unrefined (a : HeapApp) (c : Chunk) : HeatMap :=
  if c.flags &&& kChunkFlagRefined ≠ 0 then
    (a.map.refineOverhead a.translation c.key c.overheadExact (overheadOf c.size c.usable)).1
  else a.map

theorem HeapApp.applyEvent_known {a : HeapApp} {e : HvEvent} {c : Chunk} (h : e.isFree = true)
    (hlookup : a.table.lookup e.ptr = some c) (hkey : c.key = e.ptr) :
    (a.applyEvent e).map =
        (a.unrefined c).onFree a.translation e.ptr c.size c.usable (a.eventMs e.timestamp) ∧
      (a.applyEvent e).table = (a.table.markFreed e.ptr (a.eventMs e.timestamp)).1 := by
  have hop : e.op &&& hvOpMask = HvOp.free.code := by simpa [HvEvent.isFree] using h
  simp only [HeapApp.applyEvent, if_pos hop, hlookup, HeapApp.unrefined, hkey]
  exact ⟨rfl, rfl⟩

theorem HeapApp.unrefined_frame (a : HeapApp) (c : Chunk) :
    (a.unrefined c).grid = a.map.grid ∧ (a.unrefined c).cellCount = a.map.cellCount ∧
      (a.unrefined c).totalLive = a.map.totalLive ∧
      (a.unrefined c).totalLiveBytes = a.map.totalLiveBytes := by
  unfold HeapApp.unrefined
  split
  · exact refineOverhead_frame _ _
  · exact ⟨rfl, rfl, rfl, rfl⟩

theorem HeapApp.unrefined_cell (a : HeapApp) (c : Chunk) (i : Nat) :
    ((a.unrefined c).cells i).nLive = (a.map.cells i).nLive ∧
      ((a.unrefined c).cells i).liveBytes = (a.map.cells i).liveBytes := by
  unfold HeapApp.unrefined
  split
  · exact refineOverhead_cell _ _ i
  · exact ⟨rfl, rfl⟩

theorem HeapApp.applyEvent_frame (a : HeapApp) (e : HvEvent) :
    (a.applyEvent e).map.grid = a.map.grid ∧
      (a.applyEvent e).map.cellCount = a.map.cellCount := by
  cases hfree : e.isFree with
  | false =>
      rw [(HeapApp.applyEvent_alloc hfree).1]
      exact onAlloc_frame
  | true =>
      have hop : e.op &&& hvOpMask = HvOp.free.code := by simpa [HvEvent.isFree] using hfree
      simp only [HeapApp.applyEvent, if_pos hop]
      split
      · dsimp only [HeapApp.applyKnownFree]
        split
        · rw [onFree_frame.1, onFree_frame.2, (refineOverhead_frame _ _).1,
            (refineOverhead_frame _ _).2.1]
          exact ⟨rfl, rfl⟩
        · exact onFree_frame
      · exact onFree_frame

/-- Events keep the state well-formed and the cells where they are. -/
theorem HeapApp.WellFormed.applyEvent {a : HeapApp} (hw : a.WellFormed) (e : HvEvent) :
    (a.applyEvent e).WellFormed := by
  obtain ⟨hgrid, hcount⟩ := a.applyEvent_frame e
  have hcells : (a.applyEvent e).map.cellCount = (a.applyEvent e).map.grid.cellCount := by
    rw [hgrid, hcount]
    exact hw.cells
  cases hfree : e.isFree with
  | false =>
      obtain ⟨-, htable⟩ := HeapApp.applyEvent_alloc (a := a) hfree
      by_cases hptr : e.ptr = 0
      · have hsame : (a.applyEvent e).table = a.table := by
          rw [htable, ChunkTable.insertLive, if_pos hptr]
        exact ⟨hsame ▸ hw.table, hsame ▸ hw.unbounded, hcells⟩
      · obtain ⟨hinv, -, hpol, -⟩ := hw.table.insertLive hw.unbounded hptr
          (HeapApp.clampU32 e.size) e.usable (a.eventMs e.timestamp) (hvEventGetTid e)
        refine ⟨?_, ?_, hcells⟩
        · rw [htable]; exact hinv
        · rw [htable]; exact hpol.maxEntries.trans hw.unbounded
  | true =>
      cases hlookup : a.table.lookup e.ptr with
      | none =>
          obtain ⟨-, htable⟩ := HeapApp.applyEvent_unknown hfree hlookup
          exact ⟨htable ▸ hw.table, htable ▸ hw.unbounded, hcells⟩
      | some c =>
          obtain ⟨hmem, hkey⟩ := hw.table.lookup_eq_some.mp hlookup
          obtain ⟨-, htable⟩ := HeapApp.applyEvent_known hfree hlookup hkey
          rcases hw.table.markFreed e.ptr (a.eventMs e.timestamp) with
            ⟨hno, -⟩ | ⟨-, -, hinv, hmax⟩
          · exact absurd hkey (hno c hmem)
          · refine ⟨?_, ?_, hcells⟩
            · rw [htable]; exact hinv
            · rw [htable]; exact hmax.trans hw.unbounded

theorem HeapApp.applyEvent_cellFor (a : HeapApp) (e : HvEvent) :
    (a.applyEvent e).map.cellFor (a.applyEvent e).translation =
      a.map.cellFor a.translation := by
  obtain ⟨hgrid, hcount⟩ := a.applyEvent_frame e
  rw [a.applyEvent_translation e]
  exact cellFor_congr hgrid hcount

theorem HeapApp.unrefined_cellFor (a : HeapApp) (c : Chunk) :
    (a.unrefined c).cellFor a.translation = a.map.cellFor a.translation := by
  obtain ⟨hgrid, hcount, -, -⟩ := a.unrefined_frame c
  exact cellFor_congr hgrid hcount

theorem HeapApp.unrefined_counts {a : HeapApp} {L : Multiset Chunk} (c : Chunk)
    (h : Counts (a.map.cellFor a.translation) a.map L) :
    Counts ((a.unrefined c).cellFor a.translation) (a.unrefined c) L := by
  obtain ⟨-, -, ht, htb⟩ := a.unrefined_frame c
  rw [a.unrefined_cellFor c]
  exact h.congr (fun i => (a.unrefined_cell c i).1) (fun i => (a.unrefined_cell c i).2) ht htb

/-- A sound event keeps map and table together. -/
theorem HeapApp.MapCounts.applyEvent {a : HeapApp} (h : a.MapCounts) (hw : a.WellFormed)
    {e : HvEvent} (hptr : e.ptr ≠ 0) (hs : a.MapSound e) : (a.applyEvent e).MapCounts := by
  unfold HeapApp.MapCounts
  rw [a.applyEvent_cellFor e]
  unfold HeapApp.MapSound at hs
  cases hfree : e.isFree with
  | false =>
      simp only [hfree, Bool.false_eq_true, if_false] at hs
      obtain ⟨hmap, htable⟩ := HeapApp.applyEvent_alloc (a := a) hfree
      obtain ⟨c, -, hkey, -, -, husable, hover, hnew⟩ := hw.table.live_insertLive hw.unbounded
        hptr (HeapApp.clampU32 e.size) e.usable (a.eventMs e.timestamp) (hvEventGetTid e)
      have hadd : Counts (a.map.cellFor a.translation)
          (a.map.onAlloc a.translation e.ptr (HeapApp.clampU32 e.size) e.usable
            (a.eventMs e.timestamp)) (c ::ₘ a.table.live) := onAlloc_counts h hkey husable
      rw [hmap, htable]
      cases hat : a.table.liveAt e.ptr with
      | none =>
          rw [hnew hat]
          exact hadd
      | some d =>
          -- the old record goes uncounted because the map never showed it
          have hnone : a.map.cellFor a.translation e.ptr = none := by
            by_contra hne
            obtain ⟨i, hi⟩ := Option.ne_none_iff_exists'.mp hne
            rw [hs i hi] at hat
            cases hat
          have hdkey : d.key = e.ptr :=
            (hw.table.lookup_eq_some.mp (liveAt_eq_some.mp hat).1).2
          rw [← hover d hat] at hadd
          exact (counts_cons_none (by rw [hdkey]; exact hnone)).mp hadd
  | true =>
      simp only [hfree, if_true] at hs
      cases hlookup : a.table.lookup e.ptr with
      | none =>
          obtain ⟨hmap, htable⟩ := HeapApp.applyEvent_unknown hfree hlookup
          have hat : a.table.liveAt e.ptr = none :=
            liveAt_eq_none.mpr fun c hc => by rw [hlookup] at hc; cases hc
          rw [hmap, htable]
          refine onFree_idle h ?_
          intro i hi
          simpa [hat] using hs i hi
      | some c =>
          have hkey := (hw.table.lookup_eq_some.mp hlookup).2
          obtain ⟨hmap, htable⟩ := HeapApp.applyEvent_known hfree hlookup hkey
          obtain ⟨hgone, hstay⟩ := hw.table.live_markFreed e.ptr (a.eventMs e.timestamp)
          rw [hmap, htable, ← a.unrefined_cellFor c]
          cases hat : a.table.liveAt e.ptr with
          | some d =>
              obtain rfl : c = d :=
                Option.some.inj (hlookup.symm.trans (liveAt_eq_some.mp hat).1)
              have hcounts := a.unrefined_counts c (L := a.table.live) h
              rw [← hgone c hat] at hcounts
              refine onFree_counts hcounts hkey rfl ?_
              intro i hi
              rw [a.unrefined_cellFor c] at hi
              rw [(a.unrefined_cell c i).1]
              exact (hs i hi).mp (by rw [hat]; rfl)
          | none =>
              rw [hstay hat]
              refine onFree_idle (a.unrefined_counts c h) ?_
              intro i hi
              rw [a.unrefined_cellFor c] at hi
              rw [(a.unrefined_cell c i).1]
              simpa [hat] using hs i hi

/-- An event that is not sound tears them apart, visibly. -/
theorem HeapApp.MapCounts.broken {a : HeapApp} (h : a.MapCounts) (hw : a.WellFormed)
    {e : HvEvent} (hptr : e.ptr ≠ 0) (hs : ¬ a.MapSound e) : ¬ (a.applyEvent e).MapAgrees := by
  intro hagree
  unfold HeapApp.MapSound at hs
  push Not at hs
  obtain ⟨i, hi, hbad⟩ := hs
  have hlt : i < (a.applyEvent e).map.cellCount := by
    rw [(a.applyEvent_frame e).2]
    exact cellFor_lt hi
  have hafter := hagree.nLive (hw.applyEvent e) hlt
  have hbefore := h.nLive i
  rw [a.applyEvent_cellFor e] at hafter
  cases hfree : e.isFree with
  | false =>
      simp only [hfree, Bool.false_eq_true, if_false] at hbad
      obtain ⟨d, hat⟩ := Option.ne_none_iff_exists'.mp hbad
      obtain ⟨hmap, htable⟩ := HeapApp.applyEvent_alloc (a := a) hfree
      obtain ⟨c, -, hkey, -, -, -, hover, -⟩ := hw.table.live_insertLive hw.unbounded
        hptr (HeapApp.clampU32 e.size) e.usable (a.eventMs e.timestamp) (hvEventGetTid e)
      have hdkey : d.key = e.ptr := (hw.table.lookup_eq_some.mp (liveAt_eq_some.mp hat).1).2
      -- the table exchanged one record of the cell for another, the map counted one more
      have hcard := congrArg (fun M => (inCell (a.map.cellFor a.translation) M i).card)
        (hover d hat)
      simp only [inCell_cons_self (hdkey.symm ▸ hi), inCell_cons_self (hkey.symm ▸ hi),
        Multiset.card_cons, Nat.add_right_cancel_iff] at hcard
      rw [hmap, htable, onAlloc_nLive hi, hcard, hbefore, add32] at hafter
      omega
  | true =>
      simp only [hfree, if_true] at hbad
      cases hlookup : a.table.lookup e.ptr with
      | none =>
          have hat : a.table.liveAt e.ptr = none :=
            liveAt_eq_none.mpr fun c hc => by rw [hlookup] at hc; cases hc
          obtain ⟨hmap, htable⟩ := HeapApp.applyEvent_unknown hfree hlookup
          rw [hmap, htable, onFree_nLive hi, ← hbefore] at hafter
          simp [hat] at hbad
          omega
      | some c =>
          have hkey := (hw.table.lookup_eq_some.mp hlookup).2
          obtain ⟨hmap, htable⟩ := HeapApp.applyEvent_known hfree hlookup hkey
          obtain ⟨hgone, hstay⟩ := hw.table.live_markFreed e.ptr (a.eventMs e.timestamp)
          have hi' : (a.unrefined c).cellFor a.translation e.ptr = some i := by
            rw [a.unrefined_cellFor c]; exact hi
          rw [hmap, htable, onFree_nLive hi', (a.unrefined_cell c i).1] at hafter
          cases hat : a.table.liveAt e.ptr with
          | some d =>
              -- the count has wrapped to zero and the chunk cannot be taken out of it
              have hdkey : d.key = e.ptr :=
                (hw.table.lookup_eq_some.mp (liveAt_eq_some.mp hat).1).2
              have hcard := congrArg (fun M => (inCell (a.map.cellFor a.translation) M i).card)
                (hgone d hat)
              simp only [inCell_cons_self (hdkey.symm ▸ hi), Multiset.card_cons] at hcard
              simp [hat] at hbad
              omega
          | none =>
              rw [hstay hat, ← hbefore] at hafter
              simp [hat] at hbad
              omega

/-! ## Every stream -/

/-- A fresh session whose map shows the given grid, through the given regions
or raw addresses. -/
def HeapApp.onGrid (attached unicode : Bool) (originNs : Nat) (g : Grid)
    (regions : Option RegionMap) : HeapApp :=
  { HeapApp.new attached unicode originNs with
    map := (HeatMap.init.configure g).1
    mapRegions := regions.isSome
    regions := regions.getD RegionMap.init }

theorem HeapApp.new_table (attached unicode : Bool) (originNs : Nat) :
    Grown (ChunkTable.new 1024) (HeapApp.new attached unicode originNs).table :=
  ((TableInv.new 1024).reserve (2 ^ 16)).1

theorem HeapApp.new_live (attached unicode : Bool) (originNs : Nat) :
    (HeapApp.new attached unicode originNs).table.live = 0 := by
  have hempty : (ChunkTable.new 1024).records = 0 := records_of_empty fun _ _ => rfl
  rw [ChunkTable.live, (HeapApp.new_table attached unicode originNs).records, hempty]
  rfl

theorem HeatMap.configure_cells {m : HeatMap} (h : m.cellCount = m.grid.cellCount) (g : Grid) :
    (m.configure g).1.cellCount = (m.configure g).1.grid.cellCount := by
  unfold HeatMap.configure
  split
  · exact h
  · rfl

/-- A map that has just been given its first grid holds nothing. -/
theorem HeatMap.configure_init (g : Grid) :
    (HeatMap.init.configure g).1.cells = (fun _ => kEmptyAggregate) ∧
      (HeatMap.init.configure g).1.totalLive = 0 ∧
      (HeatMap.init.configure g).1.totalLiveBytes = 0 := by
  unfold HeatMap.configure
  split
  · exact ⟨rfl, rfl, rfl⟩
  · exact ⟨rfl, rfl, rfl⟩

theorem HeapApp.onGrid_wellFormed (attached unicode : Bool) (originNs : Nat) (g : Grid)
    (regions : Option RegionMap) :
    (HeapApp.onGrid attached unicode originNs g regions).WellFormed where
  table := (HeapApp.new_table attached unicode originNs).inv
  unbounded := (HeapApp.new_table attached unicode originNs).policy.maxEntries
  cells := HeatMap.configure_cells rfl g

theorem HeapApp.onGrid_counts (attached unicode : Bool) (originNs : Nat) (g : Grid)
    (regions : Option RegionMap) :
    (HeapApp.onGrid attached unicode originNs g regions).MapCounts := by
  obtain ⟨hcells, hlive0, hbytes0⟩ := HeatMap.configure_init g
  have hlive : (HeapApp.onGrid attached unicode originNs g regions).table.live = 0 :=
    HeapApp.new_live attached unicode originNs
  unfold HeapApp.MapCounts
  rw [hlive]
  refine ⟨?_, ?_, hlive0, hbytes0⟩
  · intro i
    exact congrArg (fun cells => (cells i).nLive) hcells
  · intro i
    exact congrArg (fun cells => (cells i).liveBytes) hcells

/-- Folding one event, as a step. -/
def HeapApp.eventStep (a : HeapApp) (e : HvEvent) : Option HeapApp := some (a.applyEvent e)

theorem HeapApp.MapCounts.agrees_iff {a : HeapApp} (h : a.MapCounts) (hw : a.WellFormed)
    {events : List HvEvent} (hptr : ∀ e ∈ events, e.ptr ≠ 0) :
    (∀ es rest, events = es ++ rest → (a.apply es).MapAgrees) ↔
      Run.Guarded HeapApp.eventStep HeapApp.MapSound a events := by
  induction events generalizing a with
  | nil =>
      refine ⟨fun _ => trivial, fun _ es rest heq => ?_⟩
      obtain ⟨rfl, -⟩ := List.append_eq_nil_iff.mp heq.symm
      exact h.agrees hw
  | cons e events ih =>
      have hne : e.ptr ≠ 0 := hptr e (List.mem_cons_self ..)
      have hptr' : ∀ e ∈ events, e.ptr ≠ 0 := fun e he => hptr e (List.mem_cons_of_mem _ he)
      constructor
      · intro hall
        have hsound : a.MapSound e := by
          by_contra hbad
          exact h.broken hw hne hbad (hall [e] events rfl)
        refine ⟨hsound, fun s' hs' => ?_⟩
        obtain rfl := Option.some.inj hs'
        exact (ih (h.applyEvent hw hne hsound) (hw.applyEvent e) hptr').mp
          fun es rest heq => hall (e :: es) rest (by rw [heq, List.cons_append])
      · rintro ⟨hsound, hrest⟩ es rest heq
        cases es with
        | nil => exact h.agrees hw
        | cons e' es =>
            obtain ⟨rfl, rfl⟩ := List.cons.inj heq
            exact (ih (h.applyEvent hw hne hsound) (hw.applyEvent e) hptr').mpr
              (hrest _ rfl) es rest rfl

/-- **When the map agrees with the table.** Over any grid and any regions, for
every stream of events with non-null pointers: the counters equal a
rebuild's after every event if and only if every event is sound where it
arrives. -/
theorem map_agrees_iff (attached unicode : Bool) (originNs : Nat) (g : Grid)
    (regions : Option RegionMap) (events : List HvEvent) (hptr : ∀ e ∈ events, e.ptr ≠ 0) :
    (∀ es rest, events = es ++ rest →
        ((HeapApp.onGrid attached unicode originNs g regions).apply es).MapAgrees) ↔
      Run.Guarded HeapApp.eventStep HeapApp.MapSound
        (HeapApp.onGrid attached unicode originNs g regions) events :=
  (HeapApp.onGrid_counts attached unicode originNs g regions).agrees_iff
    (HeapApp.onGrid_wellFormed attached unicode originNs g regions) hptr

/-- One 4 KiB cell, addresses as they are. -/
def oneCell : HeapApp := HeapApp.onGrid true true 0 (Grid.configure 0 4096 1 1) none

/-- An event on `ptr` of 24 usable bytes. -/
def eventAt (ptr : Nat) (op : HvOp) : HvEvent := ⟨0, ptr, 24, 24, 1, 0, 0, op.code⟩

theorem map_agrees_iff_recycled :
    (oneCell.apply [eventAt 256 .malloc, eventAt 256 .free, eventAt 256 .calloc]).MapAgrees :=
  (map_agrees_iff true true 0 (Grid.configure 0 4096 1 1) none
    [eventAt 256 .malloc, eventAt 256 .free, eventAt 256 .calloc] (by decide)).mpr
    (by decide +kernel) _ [] (List.append_nil _).symm

/-- An allocation over an address still recorded live is counted twice; the
free of an address never seen takes a chunk out that is still there. -/
theorem map_disagrees_irregular :
    ¬ (oneCell.apply [eventAt 256 .malloc, eventAt 256 .malloc]).MapAgrees ∧
      ¬ (oneCell.apply [eventAt 256 .malloc, eventAt 512 .free]).MapAgrees := by
  have hcounts : oneCell.MapCounts := HeapApp.onGrid_counts ..
  have hw : oneCell.WellFormed := HeapApp.onGrid_wellFormed ..
  have hcounts' := hcounts.applyEvent hw (e := eventAt 256 .malloc) (by decide)
    (by decide +kernel)
  have hw' := hw.applyEvent (eventAt 256 .malloc)
  simp only [HeapApp.apply, List.foldl_cons, List.foldl_nil]
  constructor
  · exact hcounts'.broken hw' (e := eventAt 256 .malloc) (by decide) (by decide +kernel)
  · exact hcounts'.broken hw' (e := eventAt 512 .free) (by decide) (by decide +kernel)

end Heapviz
