import Heapviz.ChunkCap
import Heapviz.Cursor
import Heapviz.HeatColor
import Heapviz.Ranking

/-!
# The chunk inspector

`tui/inspector.cpp`: what the panel lists for the cell under the cursor. The
chunk table is keyed by address, so a rescan walks all of it and keeps the
records of the one cell, at most `kInspectorCandidates` of them.

The comments and the test ask that the list be a function of the records, not of
the slots they happen to be in. The walk replaces the smallest candidate only by
a larger one, so it keeps the largest (`Ranking.Selected`), and the sort at the
end breaks ties by address. But ties are broken only among what was kept. Where
two records of one size stand on either side of the cut, the slot order decides
which of them is listed.
-/

namespace Heapviz

open RobinHood ChunkTable Ranking

/-! ## The panel's model -/

def kInspectorCandidates : Nat := 64

def kInspectRefreshMs : Nat := 250

/-- `SIZE_MAX`, the cell of a panel that has not looked yet. -/
def kNoCell : Nat := 2 ^ 64 - 1

inductive ChunkStatus where
  | unallocated
  | active
  | mmapped
  | freed
deriving Repr, DecidableEq

structure ChunkDetail where
  addr : Nat
  size : Nat
  usable : Nat
  overhead : Nat
  allocMs : Nat
  freeMs : Nat
  tid : Nat
  status : ChunkStatus
  exact : Bool
deriving Repr, DecidableEq

/-- `kNothing`. -/
def kNothing : ChunkDetail := ⟨0, 0, 0, 0, 0, 0, 0, .unallocated, false⟩

def Chunk.detail (c : Chunk) : ChunkDetail :=
  let exact := decide (c.flags &&& kChunkFlagRefined ≠ 0)
  { addr := c.key
    size := c.size
    usable := c.usable
    overhead := if exact then c.overheadExact else overheadOf c.size c.usable
    allocMs := c.allocMs
    freeMs := c.freeMs
    tid := c.tid
    status :=
      if c.state = .freed then .freed
      else if c.flags &&& kChunkFlagMmapped ≠ 0 then .mmapped
      else .active
    exact := exact }

structure ChunkInspector where
  found : List ChunkDetail
  total : Nat
  pos : Nat
  cell : Nat
  lastMs : Nat
  selected : Nat
  scans : Nat
deriving Repr, DecidableEq

def ChunkInspector.init : ChunkInspector := ⟨[], 0, 0, kNoCell, 0, 0, 0⟩

/-- Not after: larger first, and the lower address among equals. -/
def rankLe (a b : Nat × Nat) : Bool := if a.1 ≠ b.1 then a.1 > b.1 else a.2 ≤ b.2

def ChunkDetail.rank (d : ChunkDetail) : Nat × Nat := (d.size, d.addr)

/-- The comparison the list is sorted by. -/
def detailLe (a b : ChunkDetail) : Bool := rankLe a.rank b.rank

namespace ChunkInspector

def current (ins : ChunkInspector) : ChunkDetail := ins.found.getD ins.pos kNothing

/-- The walk of `rescan` at one slot. -/
def slot (map : HeatMap) (regions : Option RegionMap) (cell : Nat) (ins : ChunkInspector)
    (c : Chunk) : ChunkInspector :=
  if c.state = .empty ∨ c.key = 0 then ins
  else if map.indexFor regions c.key ≠ some cell then ins
  else
    { ins with
      total := ins.total + 1
      found := consider ChunkDetail.size kInspectorCandidates ins.found c.detail }

/-- The list in order, and the selection held where it is still there. -/
def settle (ins : ChunkInspector) (cell : Nat) : ChunkInspector :=
  let found := ins.found.mergeSort detailLe
  let pos :=
    if ins.selected ≠ 0 then (found.findIdx? fun d => d.addr = ins.selected).getD 0 else 0
  { ins with
    found := found
    pos := pos
    selected := ((found[pos]?).map ChunkDetail.addr).getD 0
    cell := cell }

def rescan (ins : ChunkInspector) (t : ChunkTable) (map : HeatMap) (regions : Option RegionMap)
    (cell : Nat) : ChunkInspector :=
  (((List.range t.capacity).map t.slots).foldl (slot map regions cell)
    { ins with found := [], total := 0, scans := ins.scans + 1 }).settle cell

/-- `was_addr`, `now_addr`. -/
def shownAddr (ins : ChunkInspector) : Nat := ((ins.found[ins.pos]?).map ChunkDetail.addr).getD 0

/-- Whether the cell can hold a chunk, by what the map knows of it. -/
def possible (map : HeatMap) (timings : HeatTimings) (cell nowMs : Nat) : Bool :=
  cell < map.cellCount &&
    (cellOccupied (map.at cell) || cellAnimating (map.at cell) timings nowMs)

/-- `refresh`, with the flag that says the panel would look different. -/
def refresh (ins : ChunkInspector) (t : ChunkTable) (map : HeatMap) (regions : Option RegionMap)
    (timings : HeatTimings) (cur : MapCursor) (nowMs : Nat) (dirty : Bool) :
    ChunkInspector × Bool :=
  if map.grid.valid = false then
    ({ ins with found := [], total := 0, pos := 0, cell := kNoCell }, !ins.found.isEmpty)
  else
    let cell := cur.index map.grid
    let moved := decide (cell ≠ ins.cell)
    let due := decide (sub32 nowMs ins.lastMs ≥ kInspectRefreshMs)
    if !moved && !dirty && !due then (ins, false)
    else
      let ins := { ins with lastMs := nowMs }
      if possible map timings cell nowMs = false then
        ({ ins with found := [], total := 0, pos := 0, selected := 0, cell := cell },
          ins.shownAddr ≠ 0 || ins.total ≠ 0 || moved)
      else
        let new := ins.rescan t map regions cell
        (new, if ins.shownAddr ≠ new.shownAddr || ins.total ≠ new.total || moved then true
          else !new.found.isEmpty && new.current.status ≠ .freed)

/-- `Tab`. -/
def cycle (ins : ChunkInspector) : ChunkInspector × Bool :=
  if ins.found.length < 2 then (ins, false)
  else
    let pos := (ins.pos + 1) % ins.found.length
    ({ ins with pos := pos, selected := ((ins.found[pos]?).map ChunkDetail.addr).getD 0 }, true)

end ChunkInspector

/-! ## The records of a cell -/

/-- Whether a rescan counts the record. -/
def inspects (map : HeatMap) (regions : Option RegionMap) (cell : Nat) (c : Chunk) : Bool :=
  c.state ≠ .empty ∧ c.key ≠ 0 ∧ map.indexFor regions c.key = some cell

/-- The records a rescan of the cell counts. -/
def ChunkTable.inspected (t : ChunkTable) (map : HeatMap) (regions : Option RegionMap)
    (cell : Nat) : Multiset Chunk :=
  t.records.filter fun c => inspects map regions cell c = true

/-- Records by descending size, and by ascending address among equals. -/
noncomputable def bySize (M : Multiset Chunk) : List Chunk :=
  M.toList.mergeSort fun c d => detailLe c.detail d.detail

/-- What the panel should list. -/
noncomputable def firstCandidates (M : Multiset Chunk) : List ChunkDetail :=
  ((bySize M).take kInspectorCandidates).map Chunk.detail

section Order

theorem rankLe_iff {a b : Nat × Nat} :
    rankLe a b = true ↔ b.1 < a.1 ∨ (a.1 = b.1 ∧ a.2 ≤ b.2) := by
  unfold rankLe
  split_ifs with hne
  · rw [decide_eq_true_eq]
    omega
  · rw [decide_eq_true_eq]
    omega

theorem rankLe_sortable : Sortable rankLe := by
  refine ⟨?_, ?_⟩
  · intro a b c hab hbc
    rw [rankLe_iff] at *
    omega
  · intro a b
    rw [Bool.or_eq_true, rankLe_iff, rankLe_iff]
    omega

theorem detailLe_sortable : Sortable detailLe := rankLe_sortable.comap ChunkDetail.rank

theorem detailLe_size {a b : ChunkDetail} (h : detailLe a b = true) : b.size ≤ a.size := by
  rcases rankLe_iff.mp h with hlarger | ⟨hsame, -⟩
  · exact hlarger.le
  · exact hsame.ge

theorem detailLe_antisymm {a b : ChunkDetail} (hab : detailLe a b = true)
    (hba : detailLe b a = true) : a.addr = b.addr := by
  have hab' := rankLe_iff.mp hab
  have hba' := rankLe_iff.mp hba
  dsimp only [ChunkDetail.rank] at hab' hba'
  omega

theorem bySize_pairwise (M : Multiset Chunk) :
    (bySize M).Pairwise fun c d => detailLe c.detail d.detail = true :=
  (detailLe_sortable.comap Chunk.detail).pairwise M.toList

theorem coe_bySize (M : Multiset Chunk) : (bySize M : Multiset Chunk) = M := by
  unfold bySize
  rw [Multiset.coe_eq_coe.mpr (List.mergeSort_perm _ _), Multiset.coe_toList]

theorem bySize_desc (M : Multiset Chunk) :
    (bySize M).Pairwise fun c d => d.size ≤ c.size :=
  (bySize_pairwise M).imp detailLe_size

end Order

/-! ## What a rescan keeps -/

section Rescan

variable {t : ChunkTable} {map : HeatMap} {regions : Option RegionMap} {cell : Nat}

theorem inspect_slot_eq (ins : ChunkInspector) (c : Chunk) :
    ins.slot map regions cell c =
      if inspects map regions cell c then
        { ins with
          total := ins.total + 1
          found := consider ChunkDetail.size kInspectorCandidates ins.found c.detail }
      else ins := by
  unfold ChunkInspector.slot inspects
  by_cases hskip : c.state = .empty ∨ c.key = 0
  · rw [if_pos hskip, if_neg]
    rw [decide_eq_true_eq]
    rintro ⟨hstate, hkey, -⟩
    rcases hskip with hempty | hzero
    · exact hstate hempty
    · exact hkey hzero
  · rw [if_neg hskip]
    rw [not_or] at hskip
    by_cases hcell : map.indexFor regions c.key = some cell
    · rw [if_neg (not_not.mpr hcell), if_pos (decide_eq_true ⟨hskip.1, hskip.2, hcell⟩)]
    · rw [if_pos hcell, if_neg]
      rw [decide_eq_true_eq]
      exact fun h => hcell h.2.2

theorem foldl_inspect (cs : List Chunk) (ins : ChunkInspector) :
    cs.foldl (ChunkInspector.slot map regions cell) ins =
      { ins with
        total := ins.total + (cs.filter (inspects map regions cell)).length
        found := ((cs.filter (inspects map regions cell)).map Chunk.detail).foldl
          (consider ChunkDetail.size kInspectorCandidates) ins.found } := by
  induction cs generalizing ins with
  | nil => rfl
  | cons c cs ih =>
      rw [List.foldl_cons, ih, inspect_slot_eq]
      cases hc : inspects map regions cell c with
      | false =>
          rw [if_neg Bool.false_ne_true, List.filter_cons_of_neg (by simp [hc])]
      | true =>
          rw [if_pos rfl, List.filter_cons_of_pos hc, List.length_cons, List.map_cons,
            List.foldl_cons]
          dsimp only
          rw [Nat.add_assoc, Nat.add_comm 1]

/-- The records of the cell in slot order. -/
def inspectedSlots (t : ChunkTable) (map : HeatMap) (regions : Option RegionMap) (cell : Nat) :
    List Chunk :=
  ((List.range t.capacity).map t.slots).filter (inspects map regions cell)

theorem coe_inspectedSlots (t : ChunkTable) (map : HeatMap) (regions : Option RegionMap)
    (cell : Nat) :
    (inspectedSlots t map regions cell : Multiset Chunk) = t.inspected map regions cell := by
  have hfull : ∀ c, inspects map regions cell c = true ↔
      inspects map regions cell c = true ∧ c.full = true := by
    intro c
    rw [iff_self_and]
    intro h
    exact full_iff.mpr (of_decide_eq_true h).1
  unfold ChunkTable.inspected ChunkTable.records contents inspectedSlots
  rw [Multiset.filter_filter]
  have hslots : (Multiset.range t.capacity).map t.slots =
      (((List.range t.capacity).map t.slots : List Chunk) : Multiset Chunk) := rfl
  rw [hslots, Multiset.filter_coe]
  simp only [← hfull, Bool.decide_eq_true]

/-- What is kept before it is sorted. -/
def kept (cs : List Chunk) : List ChunkDetail :=
  (cs.map Chunk.detail).foldl (consider ChunkDetail.size kInspectorCandidates) []

/-- A rescan as a function of the cell's records in slot order. -/
theorem rescan_eq (ins : ChunkInspector) :
    ins.rescan t map regions cell =
      ({ ins with
        found := kept (inspectedSlots t map regions cell)
        total := (t.inspected map regions cell).card
        scans := ins.scans + 1 } : ChunkInspector).settle cell := by
  unfold ChunkInspector.rescan
  rw [foldl_inspect, ← coe_inspectedSlots, Multiset.coe_card]
  dsimp only
  rw [Nat.zero_add]
  rfl

theorem rescan_total (ins : ChunkInspector) :
    (ins.rescan t map regions cell).total = (t.inspected map regions cell).card := by
  rw [rescan_eq]
  rfl

theorem rescan_found (ins : ChunkInspector) :
    (ins.rescan t map regions cell).found =
      (kept (inspectedSlots t map regions cell)).mergeSort detailLe := by
  rw [rescan_eq]
  rfl

/-- A cell without records. -/
theorem rescan_empty (h : t.inspected map regions cell = 0) (ins : ChunkInspector) :
    (ins.rescan t map regions cell).total = 0 ∧ (ins.rescan t map regions cell).found = [] := by
  have hslots : inspectedSlots t map regions cell = [] := by
    rw [← Multiset.coe_eq_zero, coe_inspectedSlots]
    exact h
  have hkept : kept [] = [] := rfl
  rw [rescan_total, rescan_found, h, hslots, hkept, List.mergeSort_nil]
  exact ⟨rfl, rfl⟩

/-- The sorted list settles everything else. -/
theorem rescan_congr {t' : ChunkTable} (hrec : t'.records = t.records) (ins : ChunkInspector)
    (hfound : (ins.rescan t' map regions cell).found = (ins.rescan t map regions cell).found) :
    ins.rescan t' map regions cell = ins.rescan t map regions cell := by
  rw [rescan_found, rescan_found] at hfound
  have hcard : t'.inspected map regions cell = t.inspected map regions cell := by
    unfold ChunkTable.inspected
    rw [hrec]
  rw [rescan_eq, rescan_eq, hcard]
  unfold ChunkInspector.settle
  dsimp only
  rw [hfound]

end Rescan

/-! ## When the slots do not matter -/

section Layouts

variable {M : Multiset Chunk}

theorem detail_inj (hkeys : (M.map Chunk.key).Nodup) {c d : Chunk} (hc : c ∈ M) (hd : d ∈ M)
    (h : c.detail.addr = d.detail.addr) : c = d :=
  Multiset.inj_on_of_nodup_map hkeys c hc d hd h

/-- What is kept of an untied cell, whatever the order. -/
theorem coe_kept {cs : List Chunk} (hcs : (cs : Multiset Chunk) = M)
    (huntied : Untied Chunk.size kInspectorCandidates M) :
    (kept cs : Multiset ChunkDetail) =
      ((bySize M).take kInspectorCandidates : Multiset Chunk).map Chunk.detail := by
  have hselected := @foldl_consider_selected _ ChunkDetail.size kInspectorCandidates
    (cs.map Chunk.detail)
  rw [← Multiset.map_coe, hcs] at hselected
  rcases huntied with hfew | ⟨v, hv⟩
  · rw [show (kept cs : Multiset ChunkDetail) = _ from hselected.eq_all (by simpa using hfew)]
    rw [List.take_of_length_le, coe_bySize]
    rw [← Multiset.coe_card, coe_bySize]
    exact hfew
  · have hv' : ((M.map Chunk.detail).filter fun d => v ≤ d.size).card = kInspectorCandidates := by
      rw [Multiset.filter_map, Multiset.card_map]
      exact hv
    have hcut : ((bySize M).filter fun c => v ≤ c.size).length = kInspectorCandidates := by
      rw [← Multiset.coe_card, ← Multiset.filter_coe, coe_bySize]
      exact hv
    rw [show (kept cs : Multiset ChunkDetail) = _ from hselected.eq_filter hv']
    rw [take_eq_filter (bySize_desc M) hcut, ← Multiset.filter_coe, coe_bySize,
      Multiset.filter_map]
    rfl

/-- Sorted, that is the list the panel should show. -/
theorem sort_kept {cs : List Chunk} (hkeys : (M.map Chunk.key).Nodup)
    (hcs : (cs : Multiset Chunk) = M) (huntied : Untied Chunk.size kInspectorCandidates M) :
    (kept cs).mergeSort detailLe = firstCandidates M := by
  have hcoe := coe_kept hcs huntied
  rw [Multiset.map_coe] at hcoe
  refine detailLe_sortable.mergeSort_eq (Multiset.coe_eq_coe.mp hcoe) ?_ ?_
  · exact List.pairwise_map.mpr ((bySize_pairwise M).sublist (List.take_sublist _ _))
  · have hmem : ∀ d ∈ kept cs, ∃ c ∈ M, c.detail = d := by
      intro d hd
      rw [← Multiset.mem_coe, hcoe] at hd
      obtain ⟨c, hc, rfl⟩ := List.mem_map.mp hd
      refine ⟨c, ?_, rfl⟩
      rw [← coe_bySize M]
      exact List.mem_of_mem_take hc
    intro a ha b hb hab hba
    obtain ⟨c, hc, rfl⟩ := hmem a ha
    obtain ⟨d, hd, rfl⟩ := hmem b hb
    rw [detail_inj hkeys hc hd (detailLe_antisymm hab hba)]

/-- A table with the given records in its slots, in this order. -/
def ofSlots (cs : List Chunk) : ChunkTable :=
  { ChunkTable.new 0 with slots := fun i => cs.getD i kEmptySlot, capacity := cs.length }

theorem map_slots_ofSlots (cs : List Chunk) :
    (List.range (ofSlots cs).capacity).map (ofSlots cs).slots = cs := by
  refine List.ext_getElem (by simp [ofSlots]) ?_
  intro i hi hi'
  simp [ofSlots, hi']

theorem records_ofSlots {cs : List Chunk} (hfull : ∀ c ∈ cs, c.full = true) :
    (ofSlots cs).records = cs := by
  have hslots : (Multiset.range (ofSlots cs).capacity).map (ofSlots cs).slots =
      (((List.range (ofSlots cs).capacity).map (ofSlots cs).slots : List Chunk) :
        Multiset Chunk) := rfl
  unfold ChunkTable.records contents
  rw [hslots, map_slots_ofSlots]
  exact Multiset.filter_eq_self.mpr hfull

/-- Any order of the cell's records is the slot order of some table: what other
cells hold goes last. -/
theorem exists_slot_order {R : Multiset Chunk} (hfull : ∀ c ∈ R, c.full = true) {map : HeatMap}
    {regions : Option RegionMap} {cell : Nat} {cs : List Chunk}
    (hcs : (cs : Multiset Chunk) = R.filter fun c => inspects map regions cell c = true) :
    ∃ t : ChunkTable, t.records = R ∧ inspectedSlots t map regions cell = cs := by
  obtain ⟨others, hothers⟩ : ∃ others : List Chunk, (others : Multiset Chunk) =
      R.filter fun c => ¬ inspects map regions cell c = true := Quot.exists_rep _
  have hrecords : ((cs ++ others : List Chunk) : Multiset Chunk) = R := by
    rw [← Multiset.coe_add, hcs, hothers]
    exact Multiset.filter_add_not _ _
  refine ⟨ofSlots (cs ++ others), ?_, ?_⟩
  · rw [records_ofSlots, hrecords]
    intro c hc
    rw [← Multiset.mem_coe, hrecords] at hc
    exact hfull c hc
  · unfold inspectedSlots
    rw [map_slots_ofSlots, List.filter_append, List.filter_eq_self.mpr, List.filter_eq_nil_iff.mpr,
      List.append_nil]
    · intro c hc
      rw [← Multiset.mem_coe, hothers] at hc
      exact (Multiset.mem_filter.mp hc).2
    · intro c hc
      rw [← Multiset.mem_coe, hcs] at hc
      exact (Multiset.mem_filter.mp hc).2

section Tie

variable {A B : List Chunk} {a b : Chunk}

/-- When the one after the cut comes first, it is kept. -/
theorem kept_tie (hdesc : (A ++ a :: b :: B).Pairwise fun c d => d.size ≤ c.size)
    (hlen : A.length + 1 = kInspectorCandidates) (htie : a.size = b.size) :
    kept ((b :: A) ++ (a :: B)) = (b :: A).map Chunk.detail := by
  have hdetails : ((A ++ a :: b :: B).map Chunk.detail).Pairwise fun c d => d.size ≤ c.size :=
    List.pairwise_map.mpr hdesc
  rw [List.map_append, List.map_cons, List.map_cons] at hdetails
  unfold kept
  rw [List.map_append]
  exact foldl_consider_tie hdetails (by rw [List.length_map]; exact hlen) htie

/-- The one after the cut is no first candidate. -/
theorem notMem_firstCandidates (hkeys : (M.map Chunk.key).Nodup)
    (hcut : bySize M = A ++ a :: b :: B) (hlen : A.length + 1 = kInspectorCandidates) :
    b.detail ∉ firstCandidates M := by
  intro hb
  have hwhole : bySize M = (A ++ [a]) ++ (b :: B) := by
    rw [hcut, List.append_assoc, List.singleton_append]
  have hmem : ∀ c ∈ (A ++ [a]) ++ (b :: B), c ∈ M := by
    intro c hc
    rw [← coe_bySize M, hwhole]
    exact hc
  have hnodup : ((A ++ [a]) ++ (b :: B)).Nodup := by
    rw [← hwhole, ← Multiset.coe_nodup, coe_bySize]
    exact Multiset.Nodup.of_map _ hkeys
  unfold firstCandidates at hb
  rw [hwhole, List.take_left' (by rw [List.length_append]; exact hlen)] at hb
  obtain ⟨c, hc, hdetail⟩ := List.mem_map.mp hb
  have hcb := detail_inj hkeys (hmem c (List.mem_append_left _ hc))
    (hmem b (List.mem_append_right _ List.mem_cons_self)) (congrArg ChunkDetail.addr hdetail)
  exact (List.disjoint_of_nodup_append hnodup) hc (hcb ▸ List.mem_cons_self)

end Tie

/-- With a tie at the cut some order of the records lists the wrong one. -/
theorem exists_layout_of_tie {t₀ : ChunkTable} (hI : TableInv t₀) {map : HeatMap}
    {regions : Option RegionMap} {cell : Nat}
    (htied : ¬ Untied Chunk.size kInspectorCandidates (t₀.inspected map regions cell))
    (ins : ChunkInspector) :
    ∃ t : ChunkTable, t.records = t₀.records ∧
      (ins.rescan t map regions cell).found ≠
        firstCandidates (t₀.inspected map regions cell) := by
  have hdesc := bySize_desc (t₀.inspected map regions cell)
  rw [← coe_bySize (t₀.inspected map regions cell)] at htied
  obtain ⟨A, a, b, B, hcut, hlen, htie⟩ := exists_tie hdesc (by decide) htied
  have hperm : ((b :: A) ++ (a :: B)).Perm (bySize (t₀.inspected map regions cell)) := by
    have hmiddle := @List.perm_middle Chunk b (A ++ [a]) B
    rw [List.append_assoc, List.append_assoc, List.singleton_append,
      List.singleton_append] at hmiddle
    rw [hcut]
    exact hmiddle.symm
  have hcoe : (((b :: A) ++ (a :: B) : List Chunk) : Multiset Chunk) =
      t₀.inspected map regions cell := (Multiset.coe_eq_coe.mpr hperm).trans (coe_bySize _)
  obtain ⟨t, hrec, hslots⟩ := exists_slot_order (fun c hc => (mem_contents.mp hc).1) hcoe
  refine ⟨t, hrec, ?_⟩
  rw [hcut] at hdesc
  rw [rescan_found, hslots, kept_tie hdesc hlen htie]
  intro hfirst
  have hkeys : ((t₀.inspected map regions cell).map Chunk.key).Nodup :=
    Multiset.nodup_of_le (Multiset.map_le_map (Multiset.filter_le _ _)) hI.nodup
  refine notMem_firstCandidates hkeys hcut hlen ?_
  rw [← hfirst, List.mem_mergeSort]
  exact List.mem_cons_self

end Layouts

/-- **The list depends only on the records** - every two tables with the records
of `t₀` show the same total, list and current chunk, and the list is that of the
first candidates by size and address - exactly when the cell holds no more than
`kInspectorCandidates` records or some size separates that many from the rest. -/
theorem rescan_layout_iff (t₀ : ChunkTable) (ht : t₀.Reached) (map : HeatMap)
    (regions : Option RegionMap) (cell : Nat) (ins : ChunkInspector) :
    (∀ t t' : ChunkTable, t.records = t₀.records → t'.records = t₀.records →
      (ins.rescan t' map regions cell).total = (ins.rescan t map regions cell).total ∧
        (ins.rescan t' map regions cell).found = (ins.rescan t map regions cell).found ∧
        (ins.rescan t' map regions cell).current = (ins.rescan t map regions cell).current ∧
        (ins.rescan t map regions cell).found =
          firstCandidates (t₀.inspected map regions cell)) ↔
      Untied Chunk.size kInspectorCandidates (t₀.inspected map regions cell) := by
  have hI := ht.inv.toTableInv
  constructor
  · intro hall
    by_contra htied
    obtain ⟨t, hrec, hwrong⟩ := exists_layout_of_tie hI htied ins
    exact hwrong (hall t t hrec hrec).2.2.2
  · intro huntied
    have hkeys : ((t₀.inspected map regions cell).map Chunk.key).Nodup :=
      Multiset.nodup_of_le (Multiset.map_le_map (Multiset.filter_le _ _)) hI.nodup
    have hfirst : ∀ t : ChunkTable, t.records = t₀.records →
        (ins.rescan t map regions cell).found =
          firstCandidates (t₀.inspected map regions cell) := by
      intro t hrec
      rw [rescan_found]
      refine sort_kept hkeys ?_ huntied
      rw [coe_inspectedSlots]
      unfold ChunkTable.inspected
      rw [hrec]
    intro t t' hrec hrec'
    have hsame := rescan_congr (hrec'.trans hrec.symm) ins
      ((hfirst t' hrec').trans (hfirst t hrec).symm)
    rw [hsame]
    exact ⟨rfl, rfl, rfl, hfirst t hrec⟩

def singleCell : HeatMap := (HeatMap.init.configure (Grid.configure 0x1000 0x2000 1 1)).1

/-- Chunks of one size inserted in the given order. -/
def sameSize (keys : List Nat) : ChunkTable :=
  (ChunkTable.new 128).capRun (keys.map fun key => .call (.insertLive key 16 16 1 7))

/-- Three chunks of a size in one cell fit the list. -/
theorem rescan_layout_three :
    (ChunkInspector.init.rescan (sameSize [0x1000, 0x1010, 0x1020]) singleCell none 0).found =
      firstCandidates ((sameSize [0x1000, 0x1010, 0x1020]).inspected singleCell none 0) := by
  exact ((rescan_layout_iff (sameSize [0x1000, 0x1010, 0x1020]) ⟨128, _, rfl⟩ singleCell none 0
    ChunkInspector.init).mpr (Or.inl (by decide)) _ _ rfl rfl).2.2.2

def crowdedKeys : List Nat := (List.range 67).map fun i => 0x1000 + 16 * i

/-- 67 chunks of one size in one cell: inserted in ascending and in descending
order they are the same records, and one list names a chunk the other does not. -/
theorem rescan_sees_layout :
    (sameSize crowdedKeys).records = (sameSize crowdedKeys.reverse).records ∧
      (ChunkInspector.init.rescan (sameSize crowdedKeys) singleCell none 0).found ≠
        (ChunkInspector.init.rescan (sameSize crowdedKeys.reverse) singleCell none 0).found := by
  refine ⟨by decide +kernel, ?_⟩
  have hlisted : ⟨0x1170, 16, 16, 0, 1, 0, 7, .active, false⟩ ∈
      kept (inspectedSlots (sameSize crowdedKeys) singleCell none 0) := by decide +kernel
  have hmissing : ⟨0x1170, 16, 16, 0, 1, 0, 7, .active, false⟩ ∉
      kept (inspectedSlots (sameSize crowdedKeys.reverse) singleCell none 0) := by decide +kernel
  rw [rescan_found, rescan_found]
  intro heq
  have hmem := (List.mergeSort_perm _ detailLe).mem_iff.mpr hlisted
  rw [heq, List.mem_mergeSort] at hmem
  exact hmissing hmem

end Heapviz
