import Heapviz.ChunkCap

/-!
# The shape of the slot array

The representation invariant of the table in the code's own terms: what
`probe_distance` says of a slot and of the one before it, the longest probe
reported, the load, and what empty slots look like. `ChunkInv` proves it
as a `Layout`, over the theory of Robin Hood tables; `layout_iff` says the
two are one.

`Shaped t n` counts the records `n` apart from `size()`, which the loops
do not write: `place` runs before the count goes up, `erase` brings it down
behind the shift, and `grow_to` places one record after another into a
table whose count is already that of all of them. Each loop is taken from
any array of that shape, reached by calls or not.

- `Shaped.place`, `Shaped.eraseLoop`, `Shaped.growTo`: the three loops.
- `chunk_table_shape`: and so every sequence of calls.
-/

namespace Heapviz

open RobinHood

namespace ChunkTable

/-! ## In the code's terms -/

/-- The slot before, around the end of the array. -/
def previous (t : ChunkTable) (slot : Nat) : Nat := (slot + t.capacity - 1) % t.capacity

/-- How many slots hold a record. -/
def occupied (t : ChunkTable) : Nat :=
  (List.range t.capacity).countP fun i => (t.slots i).state ≠ .empty

/-- The Robin Hood order, the longest probe, and empty slots all zero. -/
structure Shape (t : ChunkTable) : Prop where
  ordered : ∀ i < t.capacity, (t.slots i).state ≠ .empty → 0 < t.probeDistance i →
    (t.slots (t.previous i)).state ≠ .empty ∧
      t.probeDistance i - 1 ≤ t.probeDistance (t.previous i)
  probed : ∀ i < t.capacity, (t.slots i).state ≠ .empty →
    t.probeDistance i ≤ t.stats.maxProbe
  zeroed : ∀ i < t.capacity, (t.slots i).state = .empty → t.slots i = kEmptySlot

/-- The shape with `n` records, under the load bound. -/
structure Shaped (t : ChunkTable) (n : Nat) : Prop extends Shape t where
  sized : t.Sized
  count : t.occupied = n
  load : n * kLoadDenominator ≤ t.capacity * kLoadNumerator

/-! ## The shape is the layout -/

theorem previous_lt {t : ChunkTable} {i : Nat} (hi : i < t.capacity) :
    t.previous i < t.capacity := Nat.mod_lt _ (by omega)

theorem next_previous {t : ChunkTable} {i : Nat} (hi : i < t.capacity) :
    next t.capacity (t.previous i) = i := by
  unfold previous next
  rw [Nat.mod_add_mod, show i + t.capacity - 1 + 1 = i + t.capacity by omega,
    Nat.add_mod_right, Nat.mod_eq_of_lt hi]

theorem previous_next {t : ChunkTable} {i : Nat} (hi : i < t.capacity) :
    t.previous (next t.capacity i) = i :=
  next_inj (previous_lt (next_lt hi)) hi (next_previous (next_lt hi))

theorem card_records (t : ChunkTable) : t.records.card = t.occupied := by
  unfold records contents occupied
  rw [← Multiset.countP_eq_card_filter, Multiset.countP_map, Multiset.range,
    ← Multiset.countP_eq_card_filter, Multiset.coe_countP]
  refine List.countP_congr fun i _ => ?_
  simp [full_iff]

theorem layout_iff {t : ChunkTable} : Layout t ↔ t.Sized ∧ t.Shape := by
  constructor
  · intro hL
    refine ⟨hL.sized, ?_, ?_, fun i hi h => hL.zeroed i hi (full_eq_false.mpr h)⟩
    · intro i hi hstate hpos
      have hfull := full_iff.mpr hstate
      rw [hL.sized.probeDistance] at hpos ⊢
      rw [hL.sized.probeDistance]
      have hprev := hL.ordered _ (previous_lt hi)
      rw [next_previous hi] at hprev
      obtain ⟨hf, hd⟩ := hprev hfull hpos
      exact ⟨full_iff.mp hf, Nat.sub_le_iff_le_add.mpr hd⟩
    · intro i hi hstate
      rw [hL.sized.probeDistance]
      exact hL.probed i hi (full_iff.mpr hstate)
  · rintro ⟨hs, hS⟩
    refine ⟨hs, ?_, ?_, fun i hi h => hS.zeroed i hi (full_eq_false.mp h)⟩
    · intro i hi hfull hpos
      rw [← hs.probeDistance] at hpos
      obtain ⟨hstate, hd⟩ := hS.ordered _ (next_lt hi) (full_iff.mp hfull) hpos
      rw [previous_next hi] at hstate hd
      rw [hs.probeDistance, hs.probeDistance] at hd
      exact ⟨full_iff.mpr hstate, Nat.sub_le_iff_le_add.mp hd⟩
    · intro i hi hfull
      rw [← hs.probeDistance]
      exact hS.probed i hi (full_iff.mp hfull)

theorem Shaped.layout {t : ChunkTable} {n : Nat} (h : t.Shaped n) : Layout t :=
  layout_iff.mpr ⟨h.sized, h.toShape⟩

theorem Shaped.of_layout {t : ChunkTable} {n : Nat} (hL : Layout t) (hcount : t.records.card = n)
    (hload : n * kLoadDenominator ≤ t.capacity * kLoadNumerator) : t.Shaped n :=
  ⟨(layout_iff.mp hL).2, hL.sized, t.card_records ▸ hcount, hload⟩

/-- The load bound keeps the table from filling up. -/
theorem Shaped.lt {t : ChunkTable} {n : Nat} (h : t.Shaped n) : n < t.capacity := by
  have hload := h.load
  have hcap := h.sized.one_lt
  unfold kLoadDenominator kLoadNumerator at hload
  omega

theorem Shaped.card_lt {t : ChunkTable} {n : Nat} (h : t.Shaped n) :
    t.records.card < t.capacity := by
  rw [card_records, h.count]
  exact h.lt

theorem Shaped.exists_empty {t : ChunkTable} {n : Nat} (h : t.Shaped n) :
    ∃ i < t.capacity, (t.slots i).state = .empty := by
  obtain ⟨e, he, hempty⟩ := hole_of_card_lt h.card_lt
  exact ⟨e, he, full_eq_false.mp hempty⟩

/-! ## The loops -/

/-- `place` ends, with the shape restored and one record more; under the load bound
if there was room for one more. -/
theorem Shaped.place {t : ChunkTable} {n : Nat} (h : t.Shaped n) {c : Chunk}
    (hc : c.state ≠ .empty) :
    ∃ t', placeLoop t.capacity t c (t.idealSlot c.key) 0 = some t' ∧ t'.Shape ∧
      t'.occupied = n + 1 ∧
      ((n + 1) * kLoadDenominator ≤ t.capacity * kLoadNumerator → t'.Shaped (n + 1)) := by
  obtain ⟨t', hrun, hplaced⟩ := h.layout.placeLoop h.card_lt (full_iff.mpr hc)
  have hcount : t'.records.card = n + 1 := by
    rw [hplaced.records, Multiset.card_cons, card_records, h.count]
  refine ⟨t', hrun, (layout_iff.mp hplaced.layout).2, t'.card_records ▸ hcount, fun hroom => ?_⟩
  exact .of_layout hplaced.layout hcount (hplaced.same.capacity ▸ hroom)

/-- The backward shift of `erase` ends, with the shape restored and one record less. -/
theorem Shaped.eraseLoop {t : ChunkTable} {n : Nat} (h : t.Shaped n) {i : Nat}
    (hi : i < t.capacity) (hstate : (t.slots i).state ≠ .empty) :
    ∃ t', ChunkTable.eraseLoop t.capacity t i = some t' ∧ t'.Shaped (n - 1) := by
  obtain ⟨e, he, hempty⟩ := (hole_of_card_lt h.card_lt).ahead (next_lt hi)
  obtain ⟨t', hrun, hshift⟩ := eraseLoop_spec h.layout hi (full_iff.mpr hstate) hempty he
  have hcount : t'.records.card = n - 1 := by
    rw [← h.count, ← card_records, ← hshift.records, Multiset.card_cons, Nat.add_sub_cancel]
  refine ⟨t', hrun, .of_layout hshift.layout hcount ?_⟩
  rw [hshift.same.capacity]
  exact (Nat.mul_le_mul_right _ (Nat.sub_le _ _)).trans h.load

/-- `grow_to` restores the shape from nothing, record by record, and keeps the load. -/
theorem Shaped.growTo {t : ChunkTable} {n : Nat} (h : t.Shaped n) (newCapacity : Nat) :
    (t.growTo newCapacity).1.Shaped n := by
  unfold ChunkTable.growTo
  split_ifs with hle
  · exact h
  · have hlt := not_le.mp hle
    obtain ⟨hsame, hL, hrec⟩ :=
      rehashed_layout h.card_lt (roundCapacity_eq newCapacity) hlt le_rfl
    refine .of_layout ⟨hL.sized, hL.ordered, hL.probed, hL.zeroed⟩ ?_ ?_
    · rw [← h.count, ← card_records]
      exact congrArg Multiset.card hrec
    · exact h.load.trans (Nat.mul_le_mul_right _ (hlt.le.trans hsame.capacity.ge))

end ChunkTable

theorem TableInv.shaped {t : ChunkTable} (hI : TableInv t) : t.Shaped t.size :=
  .of_layout hI.toLayout hI.size_eq.symm hI.load

/-- After every sequence of calls, evictions included, the slot array has its shape with
`size()` records under the load bound, so a slot is empty; and the loops of `place`, of
`erase` and of `grow_to` each restore it. -/
theorem chunk_table_shape :
    (∀ initialCapacity ops, ((ChunkTable.new initialCapacity).capRun ops).Shaped
        ((ChunkTable.new initialCapacity).capRun ops).size ∧
      ∃ i < ((ChunkTable.new initialCapacity).capRun ops).capacity,
        (((ChunkTable.new initialCapacity).capRun ops).slots i).state = .empty) ∧
      (∀ (t : ChunkTable) n (c : Chunk), t.Shaped n → c.state ≠ .empty →
        ∃ t', t.placeLoop t.capacity c (t.idealSlot c.key) 0 = some t' ∧ t'.Shape ∧
          t'.occupied = n + 1 ∧
          ((n + 1) * kLoadDenominator ≤ t.capacity * kLoadNumerator → t'.Shaped (n + 1))) ∧
      (∀ (t : ChunkTable) n i, t.Shaped n → i < t.capacity → (t.slots i).state ≠ .empty →
        ∃ t', ChunkTable.eraseLoop t.capacity t i = some t' ∧ t'.Shaped (n - 1)) ∧
      ∀ (t : ChunkTable) n newCapacity, t.Shaped n → (t.growTo newCapacity).1.Shaped n := by
  refine ⟨fun initialCapacity ops => ?_, fun t n c h hc => h.place hc,
    fun t n i h hi hstate => h.eraseLoop hi hstate, fun t n newCapacity h => h.growTo newCapacity⟩
  have hrun : ((ChunkTable.new initialCapacity).capRun ops).Shaped
      ((ChunkTable.new initialCapacity).capRun ops).size :=
    ((CapInv.new initialCapacity).run ops).toTableInv.shaped
  exact ⟨hrun, hrun.exists_empty⟩

end Heapviz
