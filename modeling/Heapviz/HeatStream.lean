import Heapviz.HeapOverhead
import Heapviz.HeatStamps

/-!
# Folding events or rebuilding

A stream of `on_alloc` and `on_free` calls mirrored into the table by
`insert_live` and `mark_freed`. On a well-formed stream - no allocation
over a live address, every free of a live chunk with the figures it was
recorded with, time never running back - the map folded event by event is
the one `rebuild` computes from the table.

`MirrorInv` relates the map to the records and to the stream. The sums
and the allocation stamps are those of the records. The free stamps are
those of the stream: a recycled address has lost the record of its free,
which is the one thing a rebuild cannot know, and it is lost in that
address's cell only.
-/

namespace Heapviz

open ChunkTable

/-! ## The stream -/

inductive MapOp where
  | alloc (ptr size usable nowMs tid : Nat)
  | free (ptr size usable nowMs : Nat)
deriving Repr, DecidableEq

namespace MapOp

def ptr : MapOp → Nat
  | .alloc ptr .. => ptr
  | .free ptr .. => ptr

def nowMs : MapOp → Nat
  | .alloc _ _ _ nowMs _ => nowMs
  | .free _ _ _ nowMs => nowMs

def isFree : MapOp → Bool
  | .alloc .. => false
  | .free .. => true

end MapOp

/-- A map and the table its calls are mirrored into. -/
structure Mirror where
  map : HeatMap
  table : ChunkTable

namespace Mirror

def init (g : Grid) (initialCapacity : Nat) : Mirror :=
  ⟨(HeatMap.init.configure g).1, ChunkTable.new initialCapacity⟩

def step (regions : Option RegionMap) (s : Mirror) : MapOp → Option Mirror
  | .alloc ptr size usable nowMs tid =>
      some ⟨s.map.onAlloc regions ptr size usable nowMs,
        (s.table.insertLive ptr size usable nowMs tid).1⟩
  | .free ptr size usable nowMs =>
      some ⟨s.map.onFree regions ptr size usable nowMs, (s.table.markFreed ptr nowMs).1⟩

/-- An allocation names an address that is not live, a free a live chunk with
its recorded figures. -/
def Regular (s : Mirror) : MapOp → Prop
  | .alloc ptr .. => ptr ≠ 0 ∧ s.table.liveAt ptr = none
  | .free ptr size usable _ =>
      (s.table.liveAt ptr).map (fun c => (c.size, c.usable)) = some (size, usable)

instance (s : Mirror) : ∀ op, Decidable (s.Regular op)
  | .alloc .. => inferInstanceAs (Decidable (_ ∧ _))
  | .free .. => inferInstanceAs (Decidable (_ = _))

/-- The two 32-bit sums of every cell are in range. -/
def InRange (regions : Option RegionMap) (s : Mirror) : Prop :=
  ∀ i, (inCell (s.map.cellFor regions) s.table.live i).card < 2 ^ 32 ∧
    total Chunk.approx (inCell (s.map.cellFor regions) s.table.live i) < 2 ^ 32

end Mirror

/-- A well-formed stream from `s`. -/
structure WellFormedStream (regions : Option RegionMap) (s : Mirror) (ops : List MapOp) :
    Prop where
  regular : Run.Guarded (Mirror.step regions) (fun s op => s.Regular op ∧ s.InRange regions) s ops
  ordered : ops.Pairwise fun x y => x.nowMs ≤ y.nowMs
  stamped : ∀ op ∈ ops, op.nowMs < kNoTime

/-- No address of cell `i` is allocated again after it was freed. -/
def NeverRecycled (bucket : Nat → Option Nat) (ops : List MapOp) (i : Nat) : Prop :=
  ops.Pairwise fun x y =>
    bucket x.ptr = some i → x.isFree = true → y.isFree = false → y.ptr ≠ x.ptr

/-- When the frees of a cell were. -/
def freesIn (bucket : Nat → Option Nat) (ops : List MapOp) (i : Nat) : Multiset Nat :=
  (ops.filter fun op => op.isFree ∧ bucket op.ptr = some i).map MapOp.nowMs

section Frees

variable {bucket : Nat → Option Nat} {ops : List MapOp} {op : MapOp} {i : Nat}

theorem freesIn_concat_self (hfree : op.isFree = true) (h : bucket op.ptr = some i) :
    freesIn bucket (ops ++ [op]) i = op.nowMs ::ₘ freesIn bucket ops i := by
  rw [freesIn, List.filter_append, List.filter_cons_of_pos (by simp [hfree, h]), List.map_append,
    ← Multiset.coe_add, add_comm]
  rfl

theorem freesIn_concat_other (h : ¬ (op.isFree = true ∧ bucket op.ptr = some i)) :
    freesIn bucket (ops ++ [op]) i = freesIn bucket ops i := by
  rw [freesIn, List.filter_append, List.filter_cons_of_neg (by simpa using h), List.filter_nil,
    List.append_nil, freesIn]

theorem mem_freesIn {z : Nat} (hz : z ∈ freesIn bucket ops i) : ∃ op ∈ ops, op.nowMs = z := by
  obtain ⟨op, hop, rfl⟩ := List.mem_map.mp (Multiset.mem_coe.mp hz)
  exact ⟨op, (List.mem_filter.mp hop).1, rfl⟩

theorem NeverRecycled.init (h : NeverRecycled bucket (ops ++ [op]) i) :
    NeverRecycled bucket ops i := (List.pairwise_append.mp h).1

end Frees

/-! ## What one call moves -/

section Calls

variable {m : HeatMap} {regions : Option RegionMap} {ptr size usable ms : Nat}

theorem onAlloc_stamps (j : Nat) :
    ((m.onAlloc regions ptr size usable ms).cells j).lastFreeMs = (m.cells j).lastFreeMs ∧
      ((m.onAlloc regions ptr size usable ms).cells j).lastAllocMs =
        if m.cellFor regions ptr = some j then bump (m.cells j).lastAllocMs ms
        else (m.cells j).lastAllocMs := by
  unfold HeatMap.onAlloc
  cases hi : m.cellFor regions ptr with
  | none => exact ⟨rfl, by rw [if_neg (by simp)]⟩
  | some i =>
      by_cases hj : j = i
      · subst hj
        rw [setCell_self, if_pos rfl]
        exact ⟨rfl, rfl⟩
      · rw [setCell_of_ne m _ hj, if_neg (by simp [Ne.symm hj])]
        exact ⟨rfl, rfl⟩

theorem onFree_stamps (j : Nat) :
    ((m.onFree regions ptr size usable ms).cells j).lastAllocMs = (m.cells j).lastAllocMs ∧
      ((m.onFree regions ptr size usable ms).cells j).lastFreeMs =
        if m.cellFor regions ptr = some j then bump (m.cells j).lastFreeMs ms
        else (m.cells j).lastFreeMs := by
  unfold HeatMap.onFree
  cases hi : m.cellFor regions ptr with
  | none => exact ⟨rfl, by rw [if_neg (by simp)]⟩
  | some i =>
      by_cases hj : j = i
      · subst hj
        rw [if_pos rfl]
        dsimp only
        split_ifs
        · rw [setCell_self]; exact ⟨rfl, rfl⟩
        · rw [setCell_self]; exact ⟨rfl, rfl⟩
      · rw [if_neg (by simp [Ne.symm hj])]
        dsimp only
        split_ifs
        · rw [setCell_of_ne m _ hj]; exact ⟨rfl, rfl⟩
        · rw [setCell_of_ne m _ hj]; exact ⟨rfl, rfl⟩

end Calls

/-- A rewritten record, with the others beside it. -/
theorem Rewritten.split {t t' : ChunkTable} {key : Nat} {f : Chunk → Chunk}
    (h : Rewritten t key f t') :
    ∃ d R, d.key = key ∧ t.records = d ::ₘ R ∧ t'.records = f d ::ₘ R := by
  obtain ⟨d, hd, hkey, hrec⟩ := h
  obtain ⟨R, hR⟩ := Multiset.exists_cons_of_mem hd
  refine ⟨d, R, hkey, hR, ?_⟩
  rw [hR, Multiset.cons_swap] at hrec
  exact (Multiset.cons_inj_right d).mp hrec

/-! ## The invariant -/

/-- The map after the stream `ops`, where `bucket` gives the cell of an
address. -/
structure MirrorInv (regions : Option RegionMap) (bucket : Nat → Option Nat) (ops : List MapOp)
    (s : Mirror) : Prop where
  table : TableInv s.table
  unbounded : s.table.maxEntries = 0
  cells : s.map.cellCount = s.map.grid.cellCount
  places : s.map.cellFor regions = bucket
  counts : Counts bucket s.map s.table.live
  overheads : Overheads bucket Chunk.approx s.map s.table.live
  alloc : ∀ i, Latest (allocStamps bucket s.table.records i) (s.map.cells i).lastAllocMs
  free : ∀ i, Latest (freesIn bucket ops i) (s.map.cells i).lastFreeMs
  clocked : ∀ clock, (∀ op ∈ ops, op.nowMs ≤ clock) → StampedBy clock s.table.records
  logged : ∀ c ∈ s.table.records, c.state = .freed →
    ∃ op ∈ ops, op.isFree = true ∧ op.ptr = c.key
  kept : ∀ i, ∀ z ∈ freeStamps bucket s.table.records i, z ∈ freesIn bucket ops i
  unrecycled : ∀ i, NeverRecycled bucket ops i →
    freeStamps bucket s.table.records i = freesIn bucket ops i

section Steps

variable {regions : Option RegionMap} {bucket : Nat → Option Nat} {ops : List MapOp}
  {s : Mirror} {ptr size usable ms tid : Nat}

/-- What `insert_live` does to the records at an address that is not live: a
freed record under the address goes, the new one comes. -/
theorem MirrorInv.inserted (h : MirrorInv regions bucket ops s) (hptr : ptr ≠ 0)
    (hat : s.table.liveAt ptr = none) (size usable ms tid : Nat) :
    ∃ c R, c.key = ptr ∧ c.state = .live ∧ c.allocMs = ms ∧
      (s.table.insertLive ptr size usable ms tid).1.records = c ::ₘ R ∧
      (s.table.records = R ∨
        ∃ d, d.key = ptr ∧ d.state = .freed ∧ s.table.records = d ::ₘ R) := by
  obtain ⟨-, -, -, hrew | ⟨-, hadd⟩⟩ := h.table.insertLive h.unbounded hptr size usable ms tid
  · obtain ⟨d, R, hkey, hR, hR'⟩ := hrew.split
    have hd : d ∈ s.table.records := hR ▸ Multiset.mem_cons_self d R
    have hlookup : s.table.lookup ptr = some d := h.table.lookup_eq_some.mpr ⟨hd, hkey⟩
    have hfreed : d.state = .freed := by
      cases hst : d.state with
      | empty => exact absurd hst (state_ne_empty hd)
      | live => exact absurd hst (liveAt_eq_none.mp hat d hlookup)
      | freed => rfl
    exact ⟨d.reuse size usable ms tid, R, hkey, rfl, rfl, hR', .inr ⟨d, hkey, hfreed, hR⟩⟩
  · exact ⟨_, s.table.records, rfl, rfl, rfl, hadd, .inl rfl⟩

theorem MirrorInv.alloc_step (h : MirrorInv regions bucket ops s) (hptr : ptr ≠ 0)
    (hat : s.table.liveAt ptr = none) (hclock : ∀ op ∈ ops, op.nowMs ≤ ms) :
    MirrorInv regions bucket (ops ++ [.alloc ptr size usable ms tid])
      ⟨s.map.onAlloc regions ptr size usable ms,
        (s.table.insertLive ptr size usable ms tid).1⟩ := by
  obtain ⟨hinv, -, hpol, -⟩ := h.table.insertLive h.unbounded hptr size usable ms tid
  obtain ⟨c, -, hckey, -, hcsize, hcusable, -, hlive⟩ :=
    h.table.live_insertLive h.unbounded hptr size usable ms tid
  obtain ⟨e, R, hekey, hest, hems, hrec', hrec⟩ := h.inserted hptr hat size usable ms tid
  have hframe : (s.map.onAlloc regions ptr size usable ms).grid = s.map.grid ∧
      (s.map.onAlloc regions ptr size usable ms).cellCount = s.map.cellCount := onAlloc_frame
  have hest' : e.state ≠ .freed := by rw [hest]; decide
  have hstamped : StampedBy ms s.table.records := h.clocked ms hclock
  have hsub : ∀ d ∈ R, d ∈ s.table.records := by
    rcases hrec with hrec | ⟨d, -, -, hrec⟩
    · rw [hrec]; exact fun _ hd => hd
    · rw [hrec]; exact fun _ hd => Multiset.mem_cons_of_mem hd
  have hRstamped : StampedBy ms R := fun d hd => hstamped d (hsub d hd)
  -- outside the address's cell the records have not moved
  have hother : ∀ i, bucket ptr ≠ some i →
      allocStamps bucket (e ::ₘ R) i = allocStamps bucket s.table.records i := by
    intro i hi
    rw [allocStamps_cons_ne (by rwa [hekey])]
    rcases hrec with hrec | ⟨d, hdkey, -, hrec⟩
    · rw [hrec]
    · rw [hrec, allocStamps_cons_ne (by rwa [hdkey])]
  refine ⟨hinv, hpol.maxEntries.trans h.unbounded, ?_, ?_, ?_, ?_, ?_, ?_, ?_, ?_, ?_, ?_⟩
  · exact hframe.2.trans (h.cells.trans (congrArg Grid.cellCount hframe.1).symm)
  · exact (cellFor_congr hframe.1 hframe.2).trans h.places
  · have hcounts := h.counts
    rw [← h.places] at hcounts
    have hadd : Counts _ (s.map.onAlloc regions ptr size usable ms) (c ::ₘ s.table.live) :=
      onAlloc_counts hcounts hckey hcusable
    rwa [h.places, ← hlive hat] at hadd
  · subst hckey
    have hover := h.overheads
    rw [← h.places] at hover
    have hadd : Overheads _ Chunk.approx (s.map.onAlloc regions c.key size usable ms)
        (c ::ₘ s.table.live) :=
      onAlloc_overheads hover (by rw [Chunk.approx, hcsize, hcusable])
    rwa [h.places, ← hlive hat] at hadd
  · intro i
    simp only [(onAlloc_stamps i).2, h.places, hrec']
    split_ifs with hi
    · rw [allocStamps_cons_self (hekey.symm ▸ hi), hems]
      exact (h.alloc i).replace hRstamped.allocStamps hstamped.allocStamps
    · rw [hother i hi]
      exact h.alloc i
  · intro i
    simp only [(onAlloc_stamps i).1]
    rw [freesIn_concat_other (by simp [MapOp.isFree])]
    exact h.free i
  · intro clock hle
    simp only [hrec']
    intro d hd
    rcases Multiset.mem_cons.mp hd with rfl | hd
    · rw [hems]
      exact ⟨hle _ (List.mem_append_right _ (List.mem_singleton_self _)),
        fun hst => absurd hst hest'⟩
    · exact h.clocked clock (fun op hop => hle op (List.mem_append_left _ hop)) d (hsub d hd)
  · intro d hd hst
    simp only [hrec'] at hd
    rcases Multiset.mem_cons.mp hd with rfl | hd
    · exact absurd hst hest'
    · obtain ⟨op, hop, hfree, hopptr⟩ := h.logged d (hsub d hd) hst
      exact ⟨op, List.mem_append_left _ hop, hfree, hopptr⟩
  · intro i z hz
    simp only [hrec'] at hz
    obtain ⟨d, hd, hdi, hst, rfl⟩ := mem_freeStamps.mp hz
    rw [freesIn_concat_other (by simp [MapOp.isFree])]
    rcases Multiset.mem_cons.mp hd with rfl | hd
    · exact absurd hst hest'
    · exact h.kept i _ (mem_freeStamps.mpr ⟨d, hsub d hd, hdi, hst, rfl⟩)
  · intro i hnever
    simp only [hrec']
    rw [freesIn_concat_other (by simp [MapOp.isFree]), ← h.unrecycled i hnever.init,
      freeStamps_cons_other hest']
    rcases hrec with hrec | ⟨d, hdkey, hdst, hrec⟩
    · rw [hrec]
    · rw [hrec]
      by_cases hi : bucket ptr = some i
      · -- the freed record that went was one of this cell
        obtain ⟨op, hop, hfree, hopptr⟩ :=
          h.logged d (hrec ▸ Multiset.mem_cons_self d R) hdst
        rw [hdkey] at hopptr
        exact absurd hopptr.symm ((List.pairwise_append.mp hnever).2.2 op hop _
          (List.mem_singleton_self _) (hopptr ▸ hi) hfree rfl)
      · rw [freeStamps_cons_ne (by rwa [hdkey])]

theorem MirrorInv.free_step (h : MirrorInv regions bucket ops s) {c : Chunk}
    (hat : s.table.liveAt ptr = some c) (hsize : c.size = size) (husable : c.usable = usable)
    (hrange : s.InRange regions) (hclock : ∀ op ∈ ops, op.nowMs ≤ ms) :
    MirrorInv regions bucket (ops ++ [.free ptr size usable ms])
      ⟨s.map.onFree regions ptr size usable ms, (s.table.markFreed ptr ms).1⟩ := by
  obtain ⟨hlookup, hst⟩ := liveAt_eq_some.mp hat
  obtain ⟨hmem, hkey⟩ := h.table.lookup_eq_some.mp hlookup
  have hgone := (h.table.live_markFreed ptr ms).1 c hat
  have hframe : (s.map.onFree regions ptr size usable ms).grid = s.map.grid ∧
      (s.map.onFree regions ptr size usable ms).cellCount = s.map.cellCount := onFree_frame
  rcases h.table.markFreed ptr ms with ⟨hno, -⟩ | ⟨hrew, -, hinv, hmax⟩
  · exact absurd hkey (hno c hmem)
  obtain ⟨d, R, hdkey, hrec, hrec'⟩ := hrew.split
  obtain rfl : d = c := Option.some.inj ((h.table.lookup_eq_some.mpr
    ⟨hrec ▸ Multiset.mem_cons_self d R, hdkey⟩).symm.trans hlookup)
  have hst' : d.state ≠ .freed := by rw [hst]; decide
  have hle : ∀ i, ∀ z ∈ freesIn bucket ops i, z ≤ ms := fun i z hz => by
    obtain ⟨op, hop, rfl⟩ := mem_freesIn hz
    exact hclock op hop
  have hstamped : StampedBy ms s.table.records := h.clocked ms hclock
  -- the cell counts the chunk, and has not wrapped
  have hpos : ∀ i, s.map.cellFor regions ptr = some i → (s.map.cells i).nLive ≠ 0 := by
    intro i hi
    have hcard := (hrange i).1
    rw [h.places] at hcard hi
    have hin : d ∈ inCell bucket s.table.live i :=
      Multiset.mem_filter.mpr ⟨mem_live.mpr ⟨hmem, hst⟩, hkey.symm ▸ hi⟩
    rw [h.counts.nLive i, Nat.mod_eq_of_lt hcard]
    exact (Multiset.card_pos_iff_exists_mem.mpr ⟨d, hin⟩).ne'
  refine ⟨hinv, hmax.trans h.unbounded, ?_, ?_, ?_, ?_, ?_, ?_, ?_, ?_, ?_, ?_⟩
  · exact hframe.2.trans (h.cells.trans (congrArg Grid.cellCount hframe.1).symm)
  · exact (cellFor_congr hframe.1 hframe.2).trans h.places
  · have hcounts := h.counts
    rw [← hgone, ← h.places] at hcounts
    have hdrop : Counts _ (s.map.onFree regions ptr size usable ms) _ :=
      onFree_counts hcounts hkey husable hpos
    rwa [h.places] at hdrop
  · subst hkey
    have hover := h.overheads
    rw [← hgone, ← h.places] at hover
    have hdrop : Overheads _ Chunk.approx (s.map.onFree regions d.key size usable ms) _ :=
      onFree_overheads hover (fun i => by rw [hgone]; exact (hrange i).2)
        (by rw [Chunk.approx, hsize, husable]) hpos
    rwa [h.places] at hdrop
  · intro i
    have halloc := h.alloc i
    simp only [(onFree_stamps i).1, hrec']
    rw [hrec] at halloc
    by_cases hi : bucket d.key = some i
    · rw [allocStamps_cons_self hi] at halloc
      rw [allocStamps_cons_self (by exact hi)]
      exact halloc
    · rw [allocStamps_cons_ne hi] at halloc
      rw [allocStamps_cons_ne (by exact hi)]
      exact halloc
  · intro i
    simp only [(onFree_stamps i).2, h.places]
    split_ifs with hi
    · rw [freesIn_concat_self rfl hi]
      exact (h.free i).replace (hle i) (hle i)
    · rw [freesIn_concat_other (fun hh => hi hh.2)]
      exact h.free i
  · intro clock hle
    have hbefore := h.clocked clock fun op hop => hle op (List.mem_append_left _ hop)
    simp only [hrec']
    intro e he
    rcases Multiset.mem_cons.mp he with rfl | he
    · exact ⟨(hbefore d hmem).1,
        fun _ => hle _ (List.mem_append_right _ (List.mem_singleton_self _))⟩
    · exact hbefore e (hrec ▸ Multiset.mem_cons_of_mem he)
  · intro e he hest
    simp only [hrec'] at he
    rcases Multiset.mem_cons.mp he with rfl | he
    · exact ⟨_, List.mem_append_right _ (List.mem_singleton_self _), rfl, hkey.symm⟩
    · obtain ⟨op, hop, hfree, hopptr⟩ := h.logged e (hrec ▸ Multiset.mem_cons_of_mem he) hest
      exact ⟨op, List.mem_append_left _ hop, hfree, hopptr⟩
  · intro i z hz
    simp only [hrec'] at hz
    have hkept := h.kept i
    rw [hrec, freeStamps_cons_other hst'] at hkept
    by_cases hi : bucket ptr = some i
    · rw [freesIn_concat_self rfl hi]
      rw [freeStamps_cons_freed rfl (by exact hkey.symm ▸ hi)] at hz
      rcases Multiset.mem_cons.mp hz with rfl | hz
      · exact Multiset.mem_cons_self ..
      · exact Multiset.mem_cons_of_mem (hkept z hz)
    · rw [freesIn_concat_other (fun hh => hi hh.2)]
      rw [freeStamps_cons_ne (by exact hkey.symm ▸ hi)] at hz
      exact hkept z hz
  · intro i hnever
    have hsame := h.unrecycled i hnever.init
    rw [hrec, freeStamps_cons_other hst'] at hsame
    simp only [hrec']
    by_cases hi : bucket ptr = some i
    · rw [freesIn_concat_self rfl hi, freeStamps_cons_freed rfl (by exact hkey.symm ▸ hi), hsame]
      rfl
    · rw [freesIn_concat_other (fun hh => hi hh.2), freeStamps_cons_ne (by exact hkey.symm ▸ hi),
        hsame]

end Steps

/-! ## Every stream -/

theorem MirrorInv.init (regions : Option RegionMap) (g : Grid) (initialCapacity : Nat) :
    MirrorInv regions ((Mirror.init g initialCapacity).map.cellFor regions) []
      (Mirror.init g initialCapacity) := by
  obtain ⟨hcells, hlive0, hbytes0⟩ := HeatMap.configure_init g
  have hcell : ∀ i, (Mirror.init g initialCapacity).map.cells i = kEmptyAggregate :=
    fun i => congrFun hcells i
  have hrec : (Mirror.init g initialCapacity).table.records = 0 := records_of_empty fun _ _ => rfl
  have hlive : (Mirror.init g initialCapacity).table.live = 0 := by
    rw [ChunkTable.live, hrec]
    rfl
  refine ⟨TableInv.new initialCapacity, rfl, HeatMap.configure_cells rfl g, rfl, ?_, ?_,
    ?_, ?_, ?_, ?_, ?_, ?_⟩
  · rw [hlive]
    exact ⟨fun i => by rw [hcell]; rfl, fun i => by rw [hcell]; rfl, hlive0, hbytes0⟩
  · rw [hlive]
    exact fun i => by rw [hcell]; rfl
  · intro i
    rw [hrec, hcell]
    exact latest_zero
  · intro i
    rw [hcell]
    exact latest_zero
  · intro clock _ c hc
    rw [hrec] at hc
    exact absurd hc (Multiset.notMem_zero c)
  · intro c hc
    rw [hrec] at hc
    exact absurd hc (Multiset.notMem_zero c)
  · intro i z hz
    rw [hrec] at hz
    exact absurd hz (Multiset.notMem_zero z)
  · intro i _
    rw [hrec]
    rfl

theorem WellFormedStream.inv {regions : Option RegionMap} {bucket : Nat → Option Nat} {s₀ : Mirror}
    (h₀ : MirrorInv regions bucket [] s₀) {ops : List MapOp} {s : Mirror}
    (h : WellFormedStream regions s₀ ops) (hrun : Run.run (Mirror.step regions) s₀ ops = some s) :
    MirrorInv regions bucket ops s := by
  induction ops using List.reverseRecOn generalizing s with
  | nil => obtain rfl := Option.some.inj hrun; exact h₀
  | append_singleton ops op ih =>
      obtain ⟨m, hm, hstep⟩ := Run.run_concat.mp hrun
      obtain ⟨hguard, hlast⟩ := h.regular.append hm
      obtain ⟨hord, -, hbefore⟩ := List.pairwise_append.mp h.ordered
      have hinv := ih ⟨hguard, hord, fun op hop => h.stamped op (List.mem_append_left _ hop)⟩ hm
      have hclock : ∀ x ∈ ops, x.nowMs ≤ op.nowMs :=
        fun x hx => hbefore x hx op (List.mem_singleton_self _)
      obtain ⟨hregular, hrange⟩ := hlast.1
      cases op with
      | alloc ptr size usable ms tid =>
          obtain rfl := Option.some.inj hstep
          exact hinv.alloc_step hregular.1 hregular.2 hclock
      | free ptr size usable ms =>
          obtain rfl := Option.some.inj hstep
          obtain ⟨c, hat, hfig⟩ := Option.map_eq_some_iff.mp hregular
          obtain ⟨hsize, husable⟩ := Prod.mk.inj hfig
          exact hinv.free_step hat hsize husable hrange hclock

/-- **Folding the stream is rebuilding.** Over any grid and any fixed regions,
after every well-formed stream, and for every table that holds the same
records in whatever slots: the sums, the allocation stamps and the totals
are those a rebuild computes; the free stamps are never earlier, and the
same in every cell none of whose freed addresses was recycled. -/
theorem incremental_eq_rebuild (g : Grid) (regions : Option RegionMap) (initialCapacity : Nat)
    (ops : List MapOp) (s : Mirror)
    (hrun : Run.run (Mirror.step regions) (Mirror.init g initialCapacity) ops = some s)
    (hops : WellFormedStream regions (Mirror.init g initialCapacity) ops)
    (t : ChunkTable) (ht : t.records = s.table.records) :
    (∀ i < s.map.cellCount,
      (s.map.cells i).nLive = ((s.map.rebuild regions t).cells i).nLive ∧
      (s.map.cells i).liveBytes = ((s.map.rebuild regions t).cells i).liveBytes ∧
      (s.map.cells i).overheadBytes = ((s.map.rebuild regions t).cells i).overheadBytes ∧
      (s.map.cells i).lastAllocMs = ((s.map.rebuild regions t).cells i).lastAllocMs ∧
      NotEarlier (s.map.cells i).lastFreeMs ((s.map.rebuild regions t).cells i).lastFreeMs ∧
      (NeverRecycled (s.map.cellFor regions) ops i →
        (s.map.cells i).lastFreeMs = ((s.map.rebuild regions t).cells i).lastFreeMs)) ∧
    s.map.totalLive = (s.map.rebuild regions t).totalLive ∧
    s.map.totalLiveBytes = (s.map.rebuild regions t).totalLiveBytes := by
  have hinv := hops.inv (MirrorInv.init regions g initialCapacity) hrun
  rw [hinv.places]
  have hindex := (cellFor_eq_indexFor hinv.cells regions).symm.trans hinv.places
  obtain ⟨hcounts, hover⟩ := rebuild_sums s.map regions t
  have hclock : StampedBy (kNoTime - 1) t.records := by
    rw [ht]
    exact hinv.clocked _ fun op hop => Nat.le_sub_one_of_lt (hops.stamped op hop)
  have hstamps := rebuild_stamps (by decide) s.map regions hclock
  rw [ChunkTable.live, ht, ← ChunkTable.live, hindex] at hcounts hover
  rw [ht, hindex] at hstamps
  refine ⟨fun i _ => ⟨?_, ?_, ?_, ?_, ?_, ?_⟩, ?_, ?_⟩
  · rw [hinv.counts.nLive, hcounts.nLive]
  · rw [hinv.counts.liveBytes, hcounts.liveBytes]
  · rw [hinv.overheads i, hover i]
  · exact (hinv.alloc i).unique (hstamps.alloc i)
  · refine (hinv.free i).notEarlier (hstamps.free i) (hinv.kept i) ?_
    intro z hz
    obtain ⟨op, hop, rfl⟩ := mem_freesIn hz
    exact hops.stamped op hop
  · intro hnever
    have hfree := hstamps.free i
    rw [hinv.unrecycled i hnever] at hfree
    exact (hinv.free i).unique hfree
  · rw [hinv.counts.totalLive, hcounts.totalLive]
  · rw [hinv.counts.totalLiveBytes, hcounts.totalLiveBytes]

/-- Sums over all live records bound those of a cell. -/
theorem Mirror.inRange_of_live {regions : Option RegionMap} {s : Mirror}
    (hcard : s.table.live.card < 2 ^ 32) (hsum : total Chunk.approx s.table.live < 2 ^ 32) :
    s.InRange regions := by
  intro i
  have hle : inCell (s.map.cellFor regions) s.table.live i ≤ s.table.live :=
    Multiset.filter_le _ _
  refine ⟨(Multiset.card_le_card hle).trans_lt hcard, lt_of_le_of_lt ?_ hsum⟩
  obtain ⟨M, hM⟩ := Multiset.le_iff_exists_add.mp (Multiset.map_le_map (f := Chunk.approx) hle)
  rw [total, total, hM, Multiset.sum_add]
  exact Nat.le_add_right _ _

/-- An address allocated, freed and allocated again. -/
def recycledStream : List MapOp :=
  [.alloc 256 24 24 5 1, .free 256 24 24 7, .alloc 256 40 40 9 1]

/-- One 4 KiB cell, and the smallest table. -/
def oneCellMirror : Mirror := Mirror.init (Grid.configure 0 4096 1 1) 16

theorem incremental_eq_rebuild_recycled :
    ∃ s, Run.run (Mirror.step none) oneCellMirror recycledStream = some s ∧
      (s.map.cells 0).lastFreeMs = 7 ∧
      NotEarlier (s.map.cells 0).lastFreeMs ((s.map.rebuild none s.table).cells 0).lastFreeMs ∧
      (s.map.cells 0).lastAllocMs = ((s.map.rebuild none s.table).cells 0).lastAllocMs := by
  refine ⟨_, rfl, by decide, ?_⟩
  have hops : WellFormedStream none oneCellMirror recycledStream := by
    refine ⟨⟨⟨by decide, Mirror.inRange_of_live (by decide) (by decide)⟩,
      fun s₁ h₁ => ⟨⟨?_, ?_⟩, fun s₂ h₂ => ⟨⟨?_, ?_⟩, fun _ _ => trivial⟩⟩⟩, by decide, by decide⟩
    · obtain rfl := Option.some.inj h₁
      decide
    · obtain rfl := Option.some.inj h₁
      exact Mirror.inRange_of_live (by decide) (by decide)
    · obtain rfl := Option.some.inj h₁
      obtain rfl := Option.some.inj h₂
      decide
    · obtain rfl := Option.some.inj h₁
      obtain rfl := Option.some.inj h₂
      exact Mirror.inRange_of_live (by decide) (by decide)
  have hcell := (incremental_eq_rebuild (Grid.configure 0 4096 1 1) none 16 recycledStream _ rfl
    hops _ rfl).1 0 (by decide)
  exact ⟨hcell.2.2.2.2.1, hcell.2.2.2.1⟩

end Heapviz
