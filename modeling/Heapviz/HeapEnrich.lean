import Mathlib.Data.List.Rotate
import Heapviz.HeapRun

/-!
# One lap of the table

An enrichment pass walks the slots from where the last one stopped and
asks for the headers of live records not marked yet, 512 at most and one
lap at most. What it picks is therefore among the live unmarked records,
each once (`picked_le`): no header is folded in twice, and none for a
record that already carries a correction.
-/

namespace Heapviz

open ChunkTable

/-- Whether a record carries the mark of an exact overhead. -/
def Chunk.marked (c : Chunk) : Bool := c.flags &&& kChunkFlagRefined ≠ 0

/-- The live records without the mark. -/
def ChunkTable.unmarked (t : ChunkTable) : Multiset Chunk := t.live.filter fun c => c.marked = false

section Lap

variable {t : ChunkTable} {cursor : Nat}

/-- The first `n` slots from the cursor on. -/
def lapFrom (t : ChunkTable) (cursor n : Nat) : List Chunk :=
  (List.range n).map fun i => t.slots ((cursor + i) % t.capacity)

theorem lapFrom_succ (hcur : cursor < t.capacity) (n : Nat) :
    lapFrom t cursor (n + 1) = t.slots cursor :: lapFrom t ((cursor + 1) % t.capacity) n := by
  rw [lapFrom, List.range_succ_eq_map, List.map_cons, List.map_map, Nat.add_zero,
    Nat.mod_eq_of_lt hcur, lapFrom]
  congr 1
  refine List.map_congr_left fun i _ => congrArg t.slots ?_
  rw [Nat.mod_add_mod, Nat.add_assoc, Nat.add_comm 1 i]

/-- What the walk picks: the wanted records of the slots it may visit, as far
as there is room. -/
theorem gather_picked (fuel : Nat) (hcur : cursor < t.capacity) (picked : List Chunk) :
    (HeapApp.gather t fuel cursor picked).1 = picked ++
        ((lapFrom t cursor fuel).filter HeapApp.wantsHeader).take
          (kEnrichPerPass - picked.length) ∧
      (HeapApp.gather t fuel cursor picked).2 < t.capacity := by
  induction fuel generalizing cursor picked with
  | zero => exact ⟨by simp [HeapApp.gather, lapFrom], hcur⟩
  | succ fuel ih =>
      have hnext : (cursor + 1) % t.capacity < t.capacity := Nat.mod_lt _ (by omega)
      by_cases hfull : picked.length ≥ kEnrichPerPass
      · rw [HeapApp.gather, if_pos hfull, Nat.sub_eq_zero_of_le hfull, List.take_zero,
          List.append_nil]
        exact ⟨rfl, hcur⟩
      · rw [HeapApp.gather, if_neg hfull, lapFrom_succ hcur]
        dsimp only
        cases hwants : HeapApp.wantsHeader (t.slots cursor) with
        | true =>
            obtain ⟨hpicked, hlt⟩ := ih hnext (picked ++ [t.slots cursor])
            obtain ⟨room, hroom⟩ : ∃ room, kEnrichPerPass - picked.length = room + 1 :=
              ⟨kEnrichPerPass - picked.length - 1, by omega⟩
            have hroom' : kEnrichPerPass - (picked ++ [t.slots cursor]).length = room := by
              rw [List.length_append, List.length_singleton]
              omega
            rw [if_pos rfl, List.filter_cons_of_pos hwants, hroom, List.take_succ_cons]
            refine ⟨?_, hlt⟩
            rw [hpicked, hroom', List.append_assoc, List.singleton_append]
        | false =>
            obtain ⟨hpicked, hlt⟩ := ih hnext picked
            rw [if_neg (by simp), List.filter_cons_of_neg (by simp [hwants])]
            exact ⟨hpicked, hlt⟩

/-- A whole lap visits every slot once. -/
theorem lapFrom_perm (t : ChunkTable) (cursor : Nat) :
    (lapFrom t cursor t.capacity).Perm ((List.range t.capacity).map t.slots) := by
  have hrot : lapFrom t cursor t.capacity =
      ((List.range t.capacity).map t.slots).rotate cursor := by
    refine List.ext_getElem (by simp [lapFrom]) ?_
    intro i h1 h2
    simp [lapFrom, List.getElem_rotate, Nat.add_comm]
  rw [hrot]
  exact List.rotate_perm ..

theorem wantsHeader_live {c : Chunk} (h : HeapApp.wantsHeader c = true) :
    c.marked = false ∧ c.state = .live := by
  simp only [HeapApp.wantsHeader, Bool.and_eq_true, decide_eq_true_eq, beq_iff_eq] at h
  exact ⟨by simp [Chunk.marked, h.1.1.2], h.1.1.1⟩

/-- The wanted slots of a lap are the wanted live records. -/
theorem lapFrom_wanted (t : ChunkTable) (cursor : Nat) :
    (((lapFrom t cursor t.capacity).filter HeapApp.wantsHeader : List Chunk) : Multiset Chunk) =
      t.live.filter fun c => HeapApp.wantsHeader c = true := by
  calc (((lapFrom t cursor t.capacity).filter HeapApp.wantsHeader : List Chunk) : Multiset Chunk)
      = (((List.range t.capacity).map t.slots).filter HeapApp.wantsHeader : List Chunk) :=
        Multiset.coe_eq_coe.mpr ((lapFrom_perm t cursor).filter _)
    _ = (((List.range t.capacity).map t.slots : List Chunk) : Multiset Chunk).filter
          fun c => HeapApp.wantsHeader c = true := by simp [Multiset.filter_coe]
    _ = (((List.range t.capacity).map t.slots : List Chunk) : Multiset Chunk).filter
          fun c => HeapApp.wantsHeader c = true ∧ c.state = .live :=
        Multiset.filter_congr fun _ _ =>
          (and_iff_left_of_imp fun h => (wantsHeader_live h).2).symm
    _ = t.live.filter fun c => HeapApp.wantsHeader c = true := by
        rw [t.live_eq, liveOf, Multiset.filter_filter]

/-- The picked records are live and unmarked, and none is picked twice. -/
theorem gather_le (hcur : cursor < t.capacity) :
    ((HeapApp.gather t t.capacity cursor []).1 : Multiset Chunk) ≤ t.unmarked := by
  rw [(gather_picked t.capacity hcur []).1, List.nil_append]
  calc ((((lapFrom t cursor t.capacity).filter HeapApp.wantsHeader).take _ : List Chunk) :
        Multiset Chunk)
      ≤ ((lapFrom t cursor t.capacity).filter HeapApp.wantsHeader : List Chunk) :=
        (List.take_sublist ..).subperm
    _ = t.live.filter fun c => HeapApp.wantsHeader c = true := lapFrom_wanted t cursor
    _ ≤ t.unmarked := Multiset.monotone_filter_right _ fun _ h => (wantsHeader_live h).1

/-- A lone wanted record is picked. -/
theorem gather_single (hcur : cursor < t.capacity) {c : Chunk} (hlive : t.live = {c})
    (hwants : HeapApp.wantsHeader c = true) :
    (HeapApp.gather t t.capacity cursor []).1 = [c] := by
  have hwanted := lapFrom_wanted t cursor
  rw [hlive, Multiset.filter_singleton, if_pos hwants, Multiset.coe_eq_singleton] at hwanted
  rw [(gather_picked t.capacity hcur []).1, hwanted]
  rfl

end Lap

/-- A reader that answers short leaves the last records out. -/
theorem map_fst_zip_sublist (picked : List Chunk) (out : List HeapApp.ChunkInfo) :
    ((picked.zip out).map Prod.fst).Sublist picked := by
  induction picked generalizing out with
  | nil => exact List.Sublist.slnil
  | cons c picked ih =>
      cases out with
      | nil => exact List.nil_sublist _
      | cons info out => exact (ih out).cons_cons c

/-- What a pass is about to fold in: headers of live unmarked records, each
once. -/
theorem HeapApp.enrichBegin_le {a : HeapApp} (hcur : a.enrichCursor < a.table.capacity)
    (reply : HeapApp.ReaderReply) :
    (((a.enrichBegin reply).2.map Prod.fst : List Chunk) : Multiset Chunk) ≤ a.table.unmarked ∧
      (a.enrichBegin reply).1.enrichCursor < a.table.capacity := by
  have hnil : ((([] : List (Chunk × HeapApp.ChunkInfo)).map Prod.fst : List Chunk) :
      Multiset Chunk) ≤ a.table.unmarked := Multiset.zero_le _
  have hlt := (gather_picked a.table.capacity hcur []).2
  unfold HeapApp.enrichBegin
  split
  · exact ⟨hnil, hcur⟩
  · split
    · exact ⟨hnil, hcur⟩
    · dsimp only
      split
      · exact ⟨hnil, hlt⟩
      · split
        · exact ⟨hnil, hlt⟩
        · refine ⟨le_trans ?_ (gather_le hcur), hlt⟩
          exact (map_fst_zip_sublist ..).subperm

/-! ## The cursor stays inside -/

theorem TableInv.capacity_insertLive {t : ChunkTable} (hI : TableInv t) (hmax : t.maxEntries = 0)
    (key size usable allocMs tid : Nat) :
    t.capacity ≤ (t.insertLive key size usable allocMs tid).1.capacity := by
  unfold ChunkTable.insertLive
  split
  · exact le_rfl
  · cases t.find key with
    | some i => exact le_rfl
    | none =>
        have hroom : t.roomForOne = (t, true) := by simp [ChunkTable.roomForOne, hmax]
        have hgrow : t.capacity ≤ t.growForOne.1.capacity ∧ TableInv t.growForOne.1 := by
          unfold ChunkTable.growForOne
          split
          · obtain ⟨hg, -, hcap⟩ := hI.growTo (t.capacity * 2)
            exact ⟨by omega, hg.inv⟩
          · exact ⟨le_rfl, hI⟩
        simp only [hroom]
        split
        · next hg => rw [hg] at hgrow; exact hgrow.1
        · next hg =>
            rw [hg] at hgrow
            have hplaced := hgrow.2.toLayout.place hgrow.2.card_lt
              (c := Chunk.fresh key size usable allocMs tid) rfl
            exact hgrow.1.trans hplaced.same.capacity.ge

theorem capacity_markFreed (t : ChunkTable) (key freeMs : Nat) :
    (t.markFreed key freeMs).1.capacity = t.capacity := by
  unfold ChunkTable.markFreed
  split
  · rfl
  · exact (pushFreed_eq _ key).2.1

theorem capacity_markRefined (t : ChunkTable) (key exactOverhead headerFlags : Nat) :
    (t.markRefined key exactOverhead headerFlags).1.capacity = t.capacity := by
  unfold ChunkTable.markRefined
  split
  · rfl
  · split <;> rfl

/-- Events leave the cursor where it is, in a table that can only grow. -/
theorem HeapApp.WellFormed.applyEvent_cursor {a : HeapApp} (hw : a.WellFormed) (e : HvEvent)
    (hcur : a.enrichCursor < a.table.capacity) :
    (a.applyEvent e).enrichCursor < (a.applyEvent e).table.capacity := by
  unfold HeapApp.applyEvent
  dsimp only
  split
  · split
    · exact hcur.trans_eq (capacity_markFreed ..).symm
    · exact hcur
  · exact hcur.trans_le (hw.table.capacity_insertLive hw.unbounded ..)

theorem HeapApp.foldHeader_cursor {a : HeapApp} (c : Chunk) (info : HeapApp.ChunkInfo)
    (hcur : a.enrichCursor < a.table.capacity) :
    (a.foldHeader c info).enrichCursor < (a.foldHeader c info).table.capacity := by
  unfold HeapApp.foldHeader
  split_ifs
  · exact hcur
  · exact hcur
  · exact hcur.trans_eq (capacity_markRefined ..).symm

end Heapviz
