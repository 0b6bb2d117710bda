import Mathlib.Algebra.BigOperators.Group.Multiset.Basic
import Heapviz.ChunkInv
import Heapviz.HeatMap

/-!
# What the cells add up to

A cell is a sum over the live chunks the map puts in it. `Counts` says so
for the counters a cell and the map keep - how many chunks, how many
bytes - and `Overheads` for the overhead, whatever each chunk is taken to
cost. Both speak of the multiset of live records, so neither slot order
nor the way the numbers came about matters: `rebuild_counts` shows
`rebuild` establishes them, and the lemmas before it how one record
coming or going moves a map that satisfies them.
-/

namespace Heapviz

open ChunkTable

/-! ## The live records -/

def liveOf (M : Multiset Chunk) : Multiset Chunk := M.filter fun c => c.state = .live

/-- The live records of a table. -/
def ChunkTable.live (t : ChunkTable) : Multiset Chunk := liveOf t.records

theorem liveOf_cons_live {c : Chunk} (M : Multiset Chunk) (h : c.state = .live) :
    liveOf (c ::ₘ M) = c ::ₘ liveOf M :=
  Multiset.filter_cons_of_pos (p := fun c : Chunk => c.state = .live) M h

theorem liveOf_cons_dead {c : Chunk} (M : Multiset Chunk) (h : c.state ≠ .live) :
    liveOf (c ::ₘ M) = liveOf M :=
  Multiset.filter_cons_of_neg (p := fun c : Chunk => c.state = .live) M h

theorem ChunkTable.mem_live {t : ChunkTable} {c : Chunk} :
    c ∈ t.live ↔ c ∈ t.records ∧ c.state = .live := by
  simp [live, liveOf]

/-- The record the table has for an address, if that is live. -/
def ChunkTable.liveAt (t : ChunkTable) (key : Nat) : Option Chunk :=
  (t.lookup key).filter fun c => c.state = .live

theorem ChunkTable.liveAt_eq_some {t : ChunkTable} {key : Nat} {c : Chunk} :
    t.liveAt key = some c ↔ t.lookup key = some c ∧ c.state = .live := by
  simp [liveAt, Option.filter_eq_some_iff]

theorem ChunkTable.liveAt_eq_none {t : ChunkTable} {key : Nat} :
    t.liveAt key = none ↔ ∀ c, t.lookup key = some c → c.state ≠ .live := by
  simp [liveAt, Option.filter_eq_none_iff]

/-- What `insert_live` leaves under the key. -/
def ChunkTable.Inserted (t : ChunkTable) (key size usable allocMs tid : Nat) (c : Chunk) : Prop :=
  (t.lookup key = none ∧ c = Chunk.fresh key size usable allocMs tid) ∨
    ∃ d, t.lookup key = some d ∧ c = d.reuse size usable allocMs tid

/-- `insert_live` on the live records: one comes, and if the address was
live already, the old one goes. -/
theorem TableInv.live_insertLive {t : ChunkTable} (hI : TableInv t) (hmax : t.maxEntries = 0)
    {key : Nat} (hkey : key ≠ 0) (size usable allocMs tid : Nat) :
    ∃ c, t.Inserted key size usable allocMs tid c ∧ c.key = key ∧ c.state = .live ∧
      c.size = size ∧ c.usable = usable ∧
      (∀ d, t.liveAt key = some d →
        d ::ₘ (t.insertLive key size usable allocMs tid).1.live = c ::ₘ t.live) ∧
      (t.liveAt key = none →
        (t.insertLive key size usable allocMs tid).1.live = c ::ₘ t.live) := by
  obtain ⟨-, -, -, hrew | ⟨hno, hadd⟩⟩ := hI.insertLive hmax hkey size usable allocMs tid
  · obtain ⟨d, hd, rfl, hrec⟩ := hrew
    have hlookup : t.lookup d.key = some d := hI.lookup_eq_some.mpr ⟨hd, rfl⟩
    refine ⟨d.reuse size usable allocMs tid, .inr ⟨d, hlookup, rfl⟩, rfl, rfl, rfl, rfl,
      ?_, ?_⟩
    · intro d' hd'
      obtain ⟨hsame, hlive⟩ := liveAt_eq_some.mp hd'
      obtain rfl := Option.some.inj (hlookup.symm.trans hsame)
      have := congrArg liveOf hrec
      rwa [liveOf_cons_live _ hlive, liveOf_cons_live _ rfl] at this
    · intro hnone
      have := congrArg liveOf hrec
      rwa [liveOf_cons_dead _ (liveAt_eq_none.mp hnone d hlookup), liveOf_cons_live _ rfl] at this
  · have hlookup : t.lookup key = none := hI.lookup_eq_none.mpr hno
    refine ⟨_, .inl ⟨hlookup, rfl⟩, rfl, rfl, rfl, rfl, ?_, ?_⟩
    · intro d hd
      rw [(liveAt_eq_some.mp hd).1] at hlookup
      cases hlookup
    · intro _
      have := congrArg liveOf hadd
      rwa [liveOf_cons_live _ rfl] at this

/-- `mark_freed` on the live records: the chunk goes if it was live. -/
theorem TableInv.live_markFreed {t : ChunkTable} (hI : TableInv t) (key freeMs : Nat) :
    (∀ d, t.liveAt key = some d → d ::ₘ (t.markFreed key freeMs).1.live = t.live) ∧
      (t.liveAt key = none → (t.markFreed key freeMs).1.live = t.live) := by
  rcases hI.markFreed key freeMs with ⟨hno, heq⟩ | ⟨hrew, -, -, -⟩
  · have hlookup := hI.lookup_eq_none.mpr hno
    refine ⟨fun d hd => ?_, fun _ => by rw [heq]⟩
    rw [(liveAt_eq_some.mp hd).1] at hlookup
    cases hlookup
  · obtain ⟨c, hc, rfl, hrec⟩ := hrew
    have hlookup : t.lookup c.key = some c := hI.lookup_eq_some.mpr ⟨hc, rfl⟩
    have hlive := congrArg liveOf hrec
    rw [liveOf_cons_dead t.records (c := { c with state := .freed, freeMs := freeMs })
      (by simp)] at hlive
    refine ⟨?_, ?_⟩
    · intro d hd
      obtain ⟨hsame, hst⟩ := liveAt_eq_some.mp hd
      obtain rfl := Option.some.inj (hlookup.symm.trans hsame)
      rwa [liveOf_cons_live _ hst] at hlive
    · intro hnone
      rwa [liveOf_cons_dead _ (liveAt_eq_none.mp hnone c hlookup)] at hlive

section Cells

variable {bucket : Nat → Option Nat} {m m' : HeatMap} {L : Multiset Chunk} {c : Chunk} {i : Nat}

/-- The chunks a cell stands for, where `bucket` gives the cell of a key. -/
def inCell (bucket : Nat → Option Nat) (L : Multiset Chunk) (i : Nat) : Multiset Chunk :=
  L.filter fun c => bucket c.key = some i

/-- The chunks the map shows at all. -/
def onMap (bucket : Nat → Option Nat) (L : Multiset Chunk) : Multiset Chunk :=
  L.filter fun c => (bucket c.key).isSome = true

theorem inCell_cons_self (h : bucket c.key = some i) :
    inCell bucket (c ::ₘ L) i = c ::ₘ inCell bucket L i :=
  Multiset.filter_cons_of_pos L h

theorem inCell_cons_ne (h : bucket c.key ≠ some i) :
    inCell bucket (c ::ₘ L) i = inCell bucket L i :=
  Multiset.filter_cons_of_neg L h

theorem onMap_cons_some (h : bucket c.key = some i) :
    onMap bucket (c ::ₘ L) = c ::ₘ onMap bucket L :=
  Multiset.filter_cons_of_pos L (by rw [h]; rfl)

theorem onMap_cons_none (h : bucket c.key = none) :
    onMap bucket (c ::ₘ L) = onMap bucket L :=
  Multiset.filter_cons_of_neg L (by rw [h]; simp)

/-- The sum of one figure over some chunks. -/
def total (f : Chunk → Nat) (L : Multiset Chunk) : Nat := (L.map f).sum

theorem total_cons (f : Chunk → Nat) : total f (c ::ₘ L) = f c + total f L := by
  simp [total]

/-! ## Counters -/

/-- The counters of the map are those of the live chunks `L`. -/
structure Counts (bucket : Nat → Option Nat) (m : HeatMap) (L : Multiset Chunk) : Prop where
  nLive : ∀ i, (m.cells i).nLive = (inCell bucket L i).card % 2 ^ 32
  liveBytes : ∀ i, (m.cells i).liveBytes = total Chunk.usable (inCell bucket L i)
  totalLive : m.totalLive = (onMap bucket L).card
  totalLiveBytes : m.totalLiveBytes = total Chunk.usable (onMap bucket L)

/-- A chunk the map does not show makes no difference. -/
theorem counts_cons_none (hc : bucket c.key = none) :
    Counts bucket m (c ::ₘ L) ↔ Counts bucket m L := by
  have hcell : ∀ i, inCell bucket (c ::ₘ L) i = inCell bucket L i := fun i =>
    inCell_cons_ne (by rw [hc]; simp)
  constructor
  · rintro ⟨h1, h2, h3, h4⟩
    simp only [hcell, onMap_cons_none hc] at h1 h2 h3 h4
    exact ⟨h1, h2, h3, h4⟩
  · rintro ⟨h1, h2, h3, h4⟩
    refine ⟨?_, ?_, ?_, ?_⟩
    · simpa only [hcell] using h1
    · simpa only [hcell] using h2
    · simpa only [onMap_cons_none hc] using h3
    · simpa only [onMap_cons_none hc] using h4

/-- A chunk of cell `i` comes and the counters of that cell move. -/
theorem Counts.add (h : Counts bucket m L) (hc : bucket c.key = some i)
    (hother : ∀ j, j ≠ i → m'.cells j = m.cells j)
    (hn : (m'.cells i).nLive = add32 (m.cells i).nLive 1)
    (hb : (m'.cells i).liveBytes = (m.cells i).liveBytes + c.usable)
    (ht : m'.totalLive = m.totalLive + 1)
    (htb : m'.totalLiveBytes = m.totalLiveBytes + c.usable) :
    Counts bucket m' (c ::ₘ L) := by
  refine ⟨?_, ?_, ?_, ?_⟩
  · intro j
    by_cases hj : j = i
    · subst hj
      rw [hn, inCell_cons_self hc, Multiset.card_cons, h.nLive, add32]
      omega
    · rw [hother j hj, inCell_cons_ne (by rw [hc]; simp [Ne.symm hj]), h.nLive]
  · intro j
    by_cases hj : j = i
    · subst hj
      rw [hb, inCell_cons_self hc, total_cons, h.liveBytes, Nat.add_comm]
    · rw [hother j hj, inCell_cons_ne (by rw [hc]; simp [Ne.symm hj]), h.liveBytes]
  · rw [ht, onMap_cons_some hc, Multiset.card_cons, h.totalLive]
  · rw [htb, onMap_cons_some hc, total_cons, h.totalLiveBytes, Nat.add_comm]

/-- A chunk of cell `i` goes. -/
theorem Counts.remove (h : Counts bucket m (c ::ₘ L)) (hc : bucket c.key = some i)
    (hpos : (m.cells i).nLive ≠ 0) (hother : ∀ j, j ≠ i → m'.cells j = m.cells j)
    (hn : (m'.cells i).nLive = (m.cells i).nLive - 1)
    (hb : (m'.cells i).liveBytes = (m.cells i).liveBytes - c.usable)
    (ht : m'.totalLive = m.totalLive - 1)
    (htb : m'.totalLiveBytes = m.totalLiveBytes - c.usable) : Counts bucket m' L := by
  refine ⟨?_, ?_, ?_, ?_⟩
  · intro j
    by_cases hj : j = i
    · subst hj
      have hcount := h.nLive j
      rw [inCell_cons_self hc, Multiset.card_cons] at hcount
      rw [hn]
      omega
    · have hcount := h.nLive j
      rw [inCell_cons_ne (by rw [hc]; simp [Ne.symm hj])] at hcount
      rw [hother j hj, hcount]
  · intro j
    by_cases hj : j = i
    · subst hj
      rw [hb, h.liveBytes, inCell_cons_self hc, total_cons, Nat.add_sub_cancel_left]
    · have hbytes := h.liveBytes j
      rw [inCell_cons_ne (by rw [hc]; simp [Ne.symm hj])] at hbytes
      rw [hother j hj, hbytes]
  · rw [ht, h.totalLive, onMap_cons_some hc, Multiset.card_cons, Nat.add_sub_cancel]
  · rw [htb, h.totalLiveBytes, onMap_cons_some hc, total_cons, Nat.add_sub_cancel_left]

/-- Stamps and overhead do not count. -/
theorem Counts.congr (h : Counts bucket m L)
    (hn : ∀ j, (m'.cells j).nLive = (m.cells j).nLive)
    (hb : ∀ j, (m'.cells j).liveBytes = (m.cells j).liveBytes)
    (ht : m'.totalLive = m.totalLive) (htb : m'.totalLiveBytes = m.totalLiveBytes) :
    Counts bucket m' L :=
  ⟨fun j => (hn j).trans (h.nLive j), fun j => (hb j).trans (h.liveBytes j),
    ht.trans h.totalLive, htb.trans h.totalLiveBytes⟩

/-! ## Overhead -/

/-- The overhead of each cell is that of its live chunks, `cost` of each. -/
def Overheads (bucket : Nat → Option Nat) (cost : Chunk → Nat) (m : HeatMap)
    (L : Multiset Chunk) : Prop :=
  ∀ i, (m.cells i).overheadBytes = total cost (inCell bucket L i) % 2 ^ 32

theorem overheads_cons_none {cost : Chunk → Nat} (hc : bucket c.key = none) :
    Overheads bucket cost m (c ::ₘ L) ↔ Overheads bucket cost m L := by
  have hcell : ∀ i, inCell bucket (c ::ₘ L) i = inCell bucket L i := fun i =>
    inCell_cons_ne (by rw [hc]; simp)
  simp only [Overheads, hcell]

theorem Overheads.add {cost : Chunk → Nat} (h : Overheads bucket cost m L)
    (hc : bucket c.key = some i) (hother : ∀ j, j ≠ i → m'.cells j = m.cells j)
    (ho : (m'.cells i).overheadBytes = add32 (m.cells i).overheadBytes (cost c)) :
    Overheads bucket cost m' (c ::ₘ L) := by
  intro j
  by_cases hj : j = i
  · subst hj
    rw [ho, inCell_cons_self hc, total_cons, h j, add32]
    omega
  · rw [hother j hj, inCell_cons_ne (by rw [hc]; simp [Ne.symm hj]), h j]

/-- The overhead the interceptor's figures give. -/
def Chunk.approx (c : Chunk) : Nat := overheadOf c.size c.usable

end Cells

/-! ## Rebuilding -/

/-- The grid decides where records go, and a rebuild does not move it. -/
theorem rebuildSlot_grid (regions : Option RegionMap) (m : HeatMap) (c : Chunk) :
    (m.rebuildSlot regions c).grid = m.grid := by
  unfold HeatMap.rebuildSlot
  split
  · rfl
  · split
    · rfl
    · split <;> rfl

theorem indexFor_congr {m m' : HeatMap} (h : m'.grid = m.grid) (regions : Option RegionMap) :
    m'.indexFor regions = m.indexFor regions := by
  funext ptr
  simp only [HeatMap.indexFor, h]

theorem setCell_self (m : HeatMap) (i : Nat) (c : CellAggregate) :
    (m.setCell i c).cells i = c := Function.update_self ..

theorem setCell_of_ne (m : HeatMap) {i j : Nat} (c : CellAggregate) (h : j ≠ i) :
    (m.setCell i c).cells j = m.cells j := Function.update_of_ne h _ _

/-- What a rewritten cell keeps, every cell keeps. -/
theorem setCell_keeps {m : HeatMap} {i : Nat} {c : CellAggregate} {α : Type}
    (f : CellAggregate → α) (h : f c = f (m.cells i)) (j : Nat) :
    f ((m.setCell i c).cells j) = f (m.cells j) := by
  by_cases hj : j = i
  · rw [hj, setCell_self, h]
  · rw [setCell_of_ne m c hj]

section Rebuild

variable {regions : Option RegionMap} {m : HeatMap} {L : Multiset Chunk}

/-- One slot of the rebuild adds its record if that is live. -/
theorem rebuildSlot_live {c : Chunk} (hlive : c.state = .live)
    (h : Counts (m.indexFor regions) m L ∧ Overheads (m.indexFor regions) Chunk.approx m L) :
    Counts (m.indexFor regions) (m.rebuildSlot regions c) (c ::ₘ L) ∧
      Overheads (m.indexFor regions) Chunk.approx (m.rebuildSlot regions c) (c ::ₘ L) := by
  have hne : c.state ≠ .empty := by rw [hlive]; decide
  unfold HeatMap.rebuildSlot
  rw [if_neg hne]
  cases hi : m.indexFor regions c.key with
  | none => exact ⟨(counts_cons_none hi).mpr h.1, (overheads_cons_none hi).mpr h.2⟩
  | some i =>
      simp only [if_pos hlive]
      refine ⟨h.1.add hi ?_ ?_ ?_ rfl rfl, h.2.add hi ?_ ?_⟩
      · intro j hj
        exact setCell_of_ne m _ hj
      · exact congrArg CellAggregate.nLive (setCell_self m i _)
      · exact congrArg CellAggregate.liveBytes (setCell_self m i _)
      · intro j hj
        exact setCell_of_ne m _ hj
      · exact congrArg CellAggregate.overheadBytes (setCell_self m i _)

theorem rebuildSlot_counters {c : Chunk} (hlive : c.state ≠ .live) (i : Nat) :
    ((m.rebuildSlot regions c).cells i).nLive = (m.cells i).nLive ∧
      ((m.rebuildSlot regions c).cells i).liveBytes = (m.cells i).liveBytes ∧
      ((m.rebuildSlot regions c).cells i).overheadBytes = (m.cells i).overheadBytes ∧
      (m.rebuildSlot regions c).totalLive = m.totalLive ∧
      (m.rebuildSlot regions c).totalLiveBytes = m.totalLiveBytes := by
  unfold HeatMap.rebuildSlot
  split_ifs
  · exact ⟨rfl, rfl, rfl, rfl, rfl⟩
  · cases m.indexFor regions c.key with
    | none => exact ⟨rfl, rfl, rfl, rfl, rfl⟩
    | some k =>
        refine ⟨setCell_keeps CellAggregate.nLive ?_ i, setCell_keeps CellAggregate.liveBytes ?_ i,
          setCell_keeps CellAggregate.overheadBytes ?_ i, rfl, rfl⟩
        all_goals rfl

theorem rebuildSlot_dead {c : Chunk} (hlive : c.state ≠ .live)
    (h : Counts (m.indexFor regions) m L ∧ Overheads (m.indexFor regions) Chunk.approx m L) :
    Counts (m.indexFor regions) (m.rebuildSlot regions c) L ∧
      Overheads (m.indexFor regions) Chunk.approx (m.rebuildSlot regions c) L := by
  have hsame := @rebuildSlot_counters regions m c hlive
  refine ⟨h.1.congr (fun j => (hsame j).1) (fun j => (hsame j).2.1) (hsame 0).2.2.2.1
    (hsame 0).2.2.2.2, fun j => ?_⟩
  rw [(hsame j).2.2.1]
  exact h.2 j

theorem rebuild_fold (slots : List Chunk) (m : HeatMap) (L : Multiset Chunk)
    (h : Counts (m.indexFor regions) m L ∧ Overheads (m.indexFor regions) Chunk.approx m L) :
    Counts (m.indexFor regions) (slots.foldl (HeatMap.rebuildSlot regions) m)
        (liveOf slots + L) ∧
      Overheads (m.indexFor regions) Chunk.approx
        (slots.foldl (HeatMap.rebuildSlot regions) m)
        (liveOf slots + L) := by
  induction slots generalizing m L with
  | nil => simpa [liveOf] using h
  | cons c slots ih =>
      have hbucket := indexFor_congr (rebuildSlot_grid regions m c) regions
      rw [← Multiset.cons_coe, List.foldl_cons]
      by_cases hlive : c.state = .live
      · rw [liveOf_cons_live _ hlive, Multiset.cons_add, ← Multiset.add_cons]
        have := ih (m.rebuildSlot regions c) (c ::ₘ L)
          (by rw [hbucket]; exact rebuildSlot_live hlive h)
        rwa [hbucket] at this
      · rw [liveOf_cons_dead _ hlive]
        have := ih (m.rebuildSlot regions c) L
          (by rw [hbucket]; exact rebuildSlot_dead hlive h)
        rwa [hbucket] at this

end Rebuild

/-- The live records are the live slots. -/
theorem ChunkTable.live_eq (t : ChunkTable) :
    t.live = liveOf ((List.range t.capacity).map t.slots : List Chunk) := by
  have hslots : ((List.range t.capacity).map t.slots : Multiset Chunk) =
      (Multiset.range t.capacity).map t.slots := rfl
  rw [hslots, live, records, RobinHood.contents, liveOf, liveOf, Multiset.filter_filter]
  refine Multiset.filter_congr fun c _ => and_iff_left_of_imp ?_
  intro hlive
  exact full_iff.mpr (by rw [hlive]; decide)

/-- An empty map counts nothing. -/
theorem cleared_sums (m : HeatMap) (regions : Option RegionMap) :
    Counts (m.indexFor regions) m.cleared 0 ∧
      Overheads (m.indexFor regions) Chunk.approx m.cleared 0 :=
  ⟨⟨fun _ => rfl, fun _ => rfl, rfl, rfl⟩, fun _ => rfl⟩

/-- **What `rebuild` computes**: every counter is that of the live records,
and the overhead the approximate one. -/
theorem rebuild_sums (m : HeatMap) (regions : Option RegionMap) (t : ChunkTable) :
    Counts (m.indexFor regions) (m.rebuild regions t) t.live ∧
      Overheads (m.indexFor regions) Chunk.approx (m.rebuild regions t) t.live := by
  unfold HeatMap.rebuild
  split_ifs with hvalid
  · -- an invalid grid puts nothing anywhere
    have hnone : ∀ ptr, m.indexFor regions ptr = none := fun ptr => by
      unfold HeatMap.indexFor
      cases coordinateOf regions ptr with
      | none => rfl
      | some coord => simp [Grid.indexOf, hvalid]
    have hcell : ∀ i, inCell (m.indexFor regions) t.live i = 0 := fun i =>
      Multiset.filter_eq_nil.mpr fun c _ => by rw [hnone]; simp
    have hmap : onMap (m.indexFor regions) t.live = 0 :=
      Multiset.filter_eq_nil.mpr fun c _ => by rw [hnone]; simp
    refine ⟨⟨?_, ?_, ?_, ?_⟩, ?_⟩
    · intro i
      rw [hcell]; rfl
    · intro i
      rw [hcell]; rfl
    · rw [hmap]; rfl
    · rw [hmap]; rfl
    · intro i
      rw [hcell]; rfl
  · have := @rebuild_fold regions ((List.range t.capacity).map t.slots) m.cleared 0
      (cleared_sums m regions)
    rw [t.live_eq, ← add_zero (liveOf _)]
    exact this

/-! ## Events -/

theorem cellFor_eq_indexFor {m : HeatMap} (h : m.cellCount = m.grid.cellCount)
    (regions : Option RegionMap) : m.cellFor regions = m.indexFor regions := by
  funext ptr
  unfold HeatMap.cellFor
  cases hi : m.indexFor regions ptr with
  | none => rfl
  | some i =>
      obtain ⟨coord, -, hidx⟩ := Option.bind_eq_some_iff.mp hi
      simp only [Grid.indexOf, Option.ite_none_left_eq_some, Option.some.injEq] at hidx
      obtain ⟨-, hlt, rfl⟩ := hidx
      rw [Option.filter_some_pos]
      rw [h]
      exact decide_eq_true (not_le.mp hlt)

section Events

variable {m : HeatMap} {regions : Option RegionMap} {L : Multiset Chunk} {c : Chunk}
  {ptr size usable ms : Nat}

/-- An allocation adds its chunk. -/
theorem onAlloc_counts (h : Counts (m.cellFor regions) m L) (hkey : c.key = ptr)
    (husable : c.usable = usable) :
    Counts (m.cellFor regions) (m.onAlloc regions ptr size usable ms) (c ::ₘ L) := by
  subst hkey husable
  unfold HeatMap.onAlloc
  cases hi : m.cellFor regions c.key with
  | none => exact (counts_cons_none hi).mpr h
  | some i =>
      refine h.add hi ?_ ?_ ?_ rfl rfl
      · intro j hj
        exact setCell_of_ne m _ hj
      · exact congrArg CellAggregate.nLive (setCell_self m i _)
      · exact congrArg CellAggregate.liveBytes (setCell_self m i _)

/-- A free takes its chunk out, in a cell that counts something. -/
theorem onFree_counts (h : Counts (m.cellFor regions) m (c ::ₘ L)) (hkey : c.key = ptr)
    (husable : c.usable = usable)
    (hpos : ∀ i, m.cellFor regions ptr = some i → (m.cells i).nLive ≠ 0) :
    Counts (m.cellFor regions) (m.onFree regions ptr size usable ms) L := by
  subst hkey husable
  unfold HeatMap.onFree
  cases hi : m.cellFor regions c.key with
  | none => exact (counts_cons_none hi).mp h
  | some i =>
      simp only [if_pos (Nat.pos_of_ne_zero (hpos i hi))]
      refine h.remove hi (hpos i hi) ?_ ?_ ?_ rfl rfl
      · intro j hj
        exact setCell_of_ne m _ hj
      · exact congrArg CellAggregate.nLive (setCell_self m i _)
      · exact congrArg CellAggregate.liveBytes (setCell_self m i _)

/-- A free in a cell that counts nothing only leaves its stamp. -/
theorem onFree_idle (h : Counts (m.cellFor regions) m L)
    (hzero : ∀ i, m.cellFor regions ptr = some i → (m.cells i).nLive = 0) :
    Counts (m.cellFor regions) (m.onFree regions ptr size usable ms) L := by
  unfold HeatMap.onFree
  cases hi : m.cellFor regions ptr with
  | none => exact h
  | some i =>
      have hno : ¬ (m.cells i).nLive > 0 := by rw [hzero i hi]; exact lt_irrefl 0
      simp only [if_neg hno]
      refine h.congr (fun j => setCell_keeps CellAggregate.nLive ?_ j)
        (fun j => setCell_keeps CellAggregate.liveBytes ?_ j) rfl rfl
      all_goals rfl

theorem onAlloc_nLive {i : Nat} (hi : m.cellFor regions ptr = some i) :
    ((m.onAlloc regions ptr size usable ms).cells i).nLive = add32 (m.cells i).nLive 1 := by
  simp only [HeatMap.onAlloc, hi]
  exact congrArg CellAggregate.nLive (setCell_self m i _)

theorem onFree_nLive {i : Nat} (hi : m.cellFor regions ptr = some i) :
    ((m.onFree regions ptr size usable ms).cells i).nLive = (m.cells i).nLive - 1 := by
  simp only [HeatMap.onFree, hi]
  split_ifs with hpos
  · exact congrArg CellAggregate.nLive (setCell_self m i _)
  · refine (congrArg CellAggregate.nLive (setCell_self m i _)).trans ?_
    rw [Nat.eq_zero_of_not_pos hpos]

/-- Correcting overhead changes no counter. -/
theorem refineOverhead_cell (old exact i : Nat) :
    (((m.refineOverhead regions ptr old exact).1).cells i).nLive = (m.cells i).nLive ∧
      (((m.refineOverhead regions ptr old exact).1).cells i).liveBytes =
        (m.cells i).liveBytes := by
  unfold HeatMap.refineOverhead
  cases m.cellFor regions ptr with
  | none => exact ⟨rfl, rfl⟩
  | some k =>
      refine ⟨setCell_keeps CellAggregate.nLive ?_ i, setCell_keeps CellAggregate.liveBytes ?_ i⟩
      all_goals rfl

theorem refineOverhead_frame (old exact : Nat) :
    ((m.refineOverhead regions ptr old exact).1).grid = m.grid ∧
      ((m.refineOverhead regions ptr old exact).1).cellCount = m.cellCount ∧
      ((m.refineOverhead regions ptr old exact).1).totalLive = m.totalLive ∧
      ((m.refineOverhead regions ptr old exact).1).totalLiveBytes = m.totalLiveBytes := by
  unfold HeatMap.refineOverhead
  split <;> exact ⟨rfl, rfl, rfl, rfl⟩

theorem onAlloc_frame :
    (m.onAlloc regions ptr size usable ms).grid = m.grid ∧
      (m.onAlloc regions ptr size usable ms).cellCount = m.cellCount := by
  unfold HeatMap.onAlloc
  split <;> exact ⟨rfl, rfl⟩

theorem onFree_frame :
    (m.onFree regions ptr size usable ms).grid = m.grid ∧
      (m.onFree regions ptr size usable ms).cellCount = m.cellCount := by
  unfold HeatMap.onFree
  split
  · exact ⟨rfl, rfl⟩
  · dsimp only
    split <;> exact ⟨rfl, rfl⟩

theorem cellFor_congr {m' : HeatMap} (hg : m'.grid = m.grid) (hc : m'.cellCount = m.cellCount) :
    m'.cellFor regions = m.cellFor regions := by
  funext ptr
  simp only [HeatMap.cellFor, HeatMap.indexFor, hg, hc]

end Events

end Heapviz
