import Heapviz.HeatSum

/-!
# What the stamps of a cell are

`last_alloc_ms` and `last_free_ms` are the latest of some stamps, with
`kNoTime` for none. `Latest` says of which. `rebuild` finds the stamps in
the records that are left: every record's allocation, and the free of
those that are freed (`rebuild_stamps`).
-/

namespace Heapviz

open ChunkTable

/-! ## The latest of some stamps -/

section Latest

variable {S T : Multiset Nat} {x y v : Nat}

/-- `x` is the latest of the stamps `S`; `kNoTime` says there are none. -/
def Latest (S : Multiset Nat) (x : Nat) : Prop :=
  (S = 0 ∧ x = kNoTime) ∨ (x ∈ S ∧ ∀ z ∈ S, z ≤ x)

theorem latest_zero : Latest 0 kNoTime := .inl ⟨rfl, rfl⟩

theorem Latest.unique (hx : Latest S x) (hy : Latest S y) : x = y := by
  rcases hx with ⟨rfl, rfl⟩ | ⟨hx, hxle⟩
  · rcases hy with ⟨-, rfl⟩ | ⟨hy, -⟩
    · rfl
    · exact absurd hy (Multiset.notMem_zero y)
  · rcases hy with ⟨rfl, -⟩ | ⟨hy, hyle⟩
    · exact absurd hx (Multiset.notMem_zero x)
    · exact le_antisymm (hyle x hx) (hxle y hy)

/-- One more stamp. The sentinel is no stamp, so it gives way to any. -/
theorem Latest.bump (h : Latest S x) (hS : ∀ z ∈ S, z < kNoTime) :
    Latest (v ::ₘ S) (bump x v) := by
  right
  unfold Heapviz.bump
  rcases h with ⟨rfl, rfl⟩ | ⟨hx, hle⟩
  · rw [if_pos (.inl rfl)]
    simp
  · have hne : x ≠ kNoTime := (hS x hx).ne
    split_ifs with hv
    · have hlt : x < v := hv.resolve_left hne
      refine ⟨Multiset.mem_cons_self v S, fun z hz => ?_⟩
      rcases Multiset.mem_cons.mp hz with rfl | hz
      · exact le_refl _
      · exact (hle z hz).trans hlt.le
    · refine ⟨Multiset.mem_cons_of_mem hx, fun z hz => ?_⟩
      rcases Multiset.mem_cons.mp hz with rfl | hz
      · exact not_lt.mp fun hlt => hv (.inr hlt)
      · exact hle z hz

/-- A stamp no earlier than the others is the latest, whatever it replaced. -/
theorem Latest.replace (h : Latest S x) (hT : ∀ z ∈ T, z ≤ v) (hS : ∀ z ∈ S, z ≤ v) :
    Latest (v ::ₘ T) (Heapviz.bump x v) := by
  have hbump : Heapviz.bump x v = v := by
    unfold Heapviz.bump
    rcases h with ⟨-, rfl⟩ | ⟨hx, -⟩
    · rw [if_pos (.inl rfl)]
    · have := hS x hx
      split_ifs with hv
      · rfl
      · exact le_antisymm this (not_lt.mp fun hlt => hv (.inr hlt))
  rw [hbump]
  refine .inr ⟨Multiset.mem_cons_self v T, fun z hz => ?_⟩
  rcases Multiset.mem_cons.mp hz with rfl | hz
  · exact le_refl _
  · exact hT z hz

/-- `x` is no earlier than `y`, `kNoTime` being before every stamp. -/
def NotEarlier (x y : Nat) : Prop := y = kNoTime ∨ (x ≠ kNoTime ∧ y ≤ x)

theorem Latest.notEarlier (hx : Latest S x) (hy : Latest T y) (hsub : ∀ z ∈ T, z ∈ S)
    (hS : ∀ z ∈ S, z < kNoTime) : NotEarlier x y := by
  rcases hy with ⟨-, rfl⟩ | ⟨hy, -⟩
  · exact .inl rfl
  · rcases hx with ⟨rfl, -⟩ | ⟨hx, hle⟩
    · exact absurd (hsub y hy) (Multiset.notMem_zero y)
    · exact .inr ⟨(hS x hx).ne, hle y (hsub y hy)⟩

end Latest

/-! ## The stamps the records hold -/

section Records

variable {bucket : Nat → Option Nat} {R : Multiset Chunk} {c : Chunk} {i : Nat}

def freedOf (M : Multiset Chunk) : Multiset Chunk := M.filter fun c => c.state = .freed

theorem freedOf_cons_freed (h : c.state = .freed) : freedOf (c ::ₘ R) = c ::ₘ freedOf R :=
  Multiset.filter_cons_of_pos (p := fun c : Chunk => c.state = .freed) R h

theorem freedOf_cons_other (h : c.state ≠ .freed) : freedOf (c ::ₘ R) = freedOf R :=
  Multiset.filter_cons_of_neg (p := fun c : Chunk => c.state = .freed) R h

theorem ChunkTable.state_ne_empty {t : ChunkTable} (h : c ∈ t.records) : c.state ≠ .empty :=
  full_iff.mp (RobinHood.mem_contents.mp h).1

/-- When the records of a cell were allocated. -/
def allocStamps (bucket : Nat → Option Nat) (R : Multiset Chunk) (i : Nat) : Multiset Nat :=
  (inCell bucket R i).map Chunk.allocMs

/-- When the freed records of a cell were freed. -/
def freeStamps (bucket : Nat → Option Nat) (R : Multiset Chunk) (i : Nat) : Multiset Nat :=
  (inCell bucket (freedOf R) i).map Chunk.freeMs

theorem allocStamps_cons_self (h : bucket c.key = some i) :
    allocStamps bucket (c ::ₘ R) i = c.allocMs ::ₘ allocStamps bucket R i := by
  rw [allocStamps, inCell_cons_self h, Multiset.map_cons, allocStamps]

theorem allocStamps_cons_ne (h : bucket c.key ≠ some i) :
    allocStamps bucket (c ::ₘ R) i = allocStamps bucket R i := by
  rw [allocStamps, inCell_cons_ne h, allocStamps]

theorem freeStamps_cons_freed (hst : c.state = .freed) (h : bucket c.key = some i) :
    freeStamps bucket (c ::ₘ R) i = c.freeMs ::ₘ freeStamps bucket R i := by
  rw [freeStamps, freedOf_cons_freed hst, inCell_cons_self h, Multiset.map_cons, freeStamps]

theorem freeStamps_cons_other (hst : c.state ≠ .freed) :
    freeStamps bucket (c ::ₘ R) i = freeStamps bucket R i := by
  rw [freeStamps, freedOf_cons_other hst, freeStamps]

theorem freeStamps_cons_ne (h : bucket c.key ≠ some i) :
    freeStamps bucket (c ::ₘ R) i = freeStamps bucket R i := by
  by_cases hst : c.state = .freed
  · rw [freeStamps, freedOf_cons_freed hst, inCell_cons_ne h, freeStamps]
  · exact freeStamps_cons_other hst

theorem mem_allocStamps {z : Nat} :
    z ∈ allocStamps bucket R i ↔ ∃ c ∈ R, bucket c.key = some i ∧ c.allocMs = z := by
  simp [allocStamps, inCell, and_assoc]

theorem mem_freeStamps {z : Nat} :
    z ∈ freeStamps bucket R i ↔
      ∃ c ∈ R, bucket c.key = some i ∧ c.state = .freed ∧ c.freeMs = z := by
  simp [freeStamps, inCell, freedOf, and_assoc]

/-- Every stamp in the records is at `clock` or before. -/
def StampedBy (clock : Nat) (R : Multiset Chunk) : Prop :=
  ∀ c ∈ R, c.allocMs ≤ clock ∧ (c.state = .freed → c.freeMs ≤ clock)

theorem StampedBy.allocStamps {clock : Nat} (h : StampedBy clock R) :
    ∀ z ∈ allocStamps bucket R i, z ≤ clock := by
  intro z hz
  obtain ⟨c, hc, -, rfl⟩ := mem_allocStamps.mp hz
  exact (h c hc).1

theorem StampedBy.freeStamps {clock : Nat} (h : StampedBy clock R) :
    ∀ z ∈ freeStamps bucket R i, z ≤ clock := by
  intro z hz
  obtain ⟨c, hc, -, hst, rfl⟩ := mem_freeStamps.mp hz
  exact (h c hc).2 hst

/-- The stamps of the map are the latest the records hold. -/
structure Stamps (bucket : Nat → Option Nat) (m : HeatMap) (R : Multiset Chunk) : Prop where
  alloc : ∀ i, Latest (allocStamps bucket R i) (m.cells i).lastAllocMs
  free : ∀ i, Latest (freeStamps bucket R i) (m.cells i).lastFreeMs

end Records

/-! ## Rebuilding -/

section Rebuild

variable {regions : Option RegionMap} {m : HeatMap} {R : Multiset Chunk} {clock : Nat}

/-- What one slot leaves in a cell: its record's stamps are bumped where the
record is shown. -/
theorem rebuildSlot_cell {c : Chunk} (hfull : c.state ≠ .empty) (j : Nat) :
    ((m.rebuildSlot regions c).cells j).lastAllocMs =
        (if m.indexFor regions c.key = some j then bump (m.cells j).lastAllocMs c.allocMs
        else (m.cells j).lastAllocMs) ∧
      ((m.rebuildSlot regions c).cells j).lastFreeMs =
        if c.state = .freed ∧ m.indexFor regions c.key = some j then
          bump (m.cells j).lastFreeMs c.freeMs
        else (m.cells j).lastFreeMs := by
  unfold HeatMap.rebuildSlot
  rw [if_neg hfull]
  cases hi : m.indexFor regions c.key with
  | none => exact ⟨by rw [if_neg (by simp)], by rw [if_neg (by simp)]⟩
  | some i =>
      cases hst : c.state with
      | empty => exact absurd hst hfull
      | live =>
          by_cases hj : j = i
          · subst hj
            simp [setCell_self, CellAggregate.addLive]
          · simp [setCell_of_ne m _ hj, Ne.symm hj]
      | freed =>
          by_cases hj : j = i
          · subst hj
            simp [setCell_self]
          · simp [setCell_of_ne m _ hj, Ne.symm hj]

/-- One slot of the rebuild adds its record's stamps. -/
theorem rebuildSlot_stamps (hlt : clock < kNoTime) {c : Chunk} (hfull : c.state ≠ .empty)
    (hR : StampedBy clock R) (h : Stamps (m.indexFor regions) m R) :
    Stamps (m.indexFor regions) (m.rebuildSlot regions c) (c ::ₘ R) := by
  refine ⟨?_, ?_⟩
  · intro j
    rw [(rebuildSlot_cell hfull j).1]
    split_ifs with hj
    · rw [allocStamps_cons_self hj]
      exact (h.alloc j).bump fun z hz => (hR.allocStamps z hz).trans_lt hlt
    · rw [allocStamps_cons_ne hj]
      exact h.alloc j
  · intro j
    rw [(rebuildSlot_cell hfull j).2]
    by_cases hst : c.state = .freed
    · simp only [hst, true_and]
      split_ifs with hj
      · rw [freeStamps_cons_freed hst hj]
        exact (h.free j).bump fun z hz => (hR.freeStamps z hz).trans_lt hlt
      · rw [freeStamps_cons_ne hj]
        exact h.free j
    · rw [if_neg fun hboth => hst hboth.1, freeStamps_cons_other hst]
      exact h.free j

theorem rebuild_fold_stamps (hlt : clock < kNoTime) (slots : List Chunk) (m : HeatMap)
    (R : Multiset Chunk)
    (hslots : StampedBy clock ((slots : Multiset Chunk).filter fun c => c.full))
    (hR : StampedBy clock R) (h : Stamps (m.indexFor regions) m R) :
    Stamps (m.indexFor regions) (slots.foldl (HeatMap.rebuildSlot regions) m)
      ((slots : Multiset Chunk).filter (fun c => c.full) + R) := by
  induction slots generalizing m R with
  | nil => simpa using h
  | cons c slots ih =>
      have hbucket := indexFor_congr (rebuildSlot_grid regions m c) regions
      rw [← Multiset.cons_coe] at hslots ⊢
      rw [List.foldl_cons]
      by_cases hfull : c.full = true
      · rw [Multiset.filter_cons_of_pos (p := fun c : Chunk => c.full = true) _ hfull] at hslots ⊢
        rw [Multiset.cons_add, ← Multiset.add_cons]
        have hc := hslots c (Multiset.mem_cons_self ..)
        have hrest : StampedBy clock (c ::ₘ R) := by
          intro d hd
          rcases Multiset.mem_cons.mp hd with rfl | hd
          · exact hc
          · exact hR d hd
        have := ih (m.rebuildSlot regions c) (c ::ₘ R)
          (fun d hd => hslots d (Multiset.mem_cons_of_mem hd)) hrest
          (by rw [hbucket]; exact rebuildSlot_stamps hlt (full_iff.mp hfull) hR h)
        rwa [hbucket] at this
      · rw [Multiset.filter_cons_of_neg (p := fun c : Chunk => c.full = true) _ hfull] at hslots ⊢
        have hempty : c.state = .empty := full_eq_false.mp (by simpa using hfull)
        have hsame : m.rebuildSlot regions c = m := by rw [HeatMap.rebuildSlot, if_pos hempty]
        rw [hsame]
        exact ih m R hslots hR h

/-- **The stamps `rebuild` computes** are the latest of those the records
hold, in whatever slots they lie. -/
theorem rebuild_stamps (hlt : clock < kNoTime) (m : HeatMap) (regions : Option RegionMap)
    {t : ChunkTable} (ht : StampedBy clock t.records) :
    Stamps (m.indexFor regions) (m.rebuild regions t) t.records := by
  unfold HeatMap.rebuild
  split_ifs with hvalid
  · have hnone : ∀ ptr i, m.indexFor regions ptr ≠ some i := fun ptr i => by
      unfold HeatMap.indexFor
      cases coordinateOf regions ptr with
      | none => simp
      | some coord => simp [Grid.indexOf, hvalid]
    have hcell : ∀ M i, inCell (m.indexFor regions) M i = 0 := fun M i =>
      Multiset.filter_eq_nil.mpr fun c _ => hnone c.key i
    refine ⟨?_, ?_⟩
    · intro i
      rw [allocStamps, hcell]; exact latest_zero
    · intro i
      rw [freeStamps, hcell]; exact latest_zero
  · have hrec : t.records = (((List.range t.capacity).map t.slots : List Chunk) :
        Multiset Chunk).filter fun c => c.full := rfl
    rw [hrec] at ht ⊢
    have := @rebuild_fold_stamps regions clock hlt ((List.range t.capacity).map t.slots) m.cleared
      0 ht (fun c hc => absurd hc (Multiset.notMem_zero c))
      ⟨fun _ => latest_zero, fun _ => latest_zero⟩
    rwa [add_zero] at this

end Rebuild

end Heapviz
