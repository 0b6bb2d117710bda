import Mathlib.Data.List.Sort
import Heapviz.RingList
import Heapviz.ChunkInv

/-!
# The queue of freed keys

Eviction takes its order from `freed_fifo_`, a ring of keys. A key in it is a
hint: the record it was pushed for may be gone, live again, or freed once more
since. `hints` is the ring read as a list, and everything here is said about
that list and about the records:

- `popEvictable_spec`: the first hint whose record is freed goes, with the
  hints before it; when there is none, the queue is empty afterwards and the
  table is what it was;
- `refill_spec`: the queue holds the oldest freed records, in order, as many
  as fit;
- `makeRoom_spec`: together they evict a freed record whenever there is one.

`Queued` is the shape of the ring that all operations keep: it is there when
there is a cap, and its indices are in range.
-/

namespace Heapviz

open RobinHood

namespace ChunkTable

/-- The keys waiting in the freed queue, oldest hint first. -/
def hints (t : ChunkTable) : List Nat := RingList.queued t.freedFifo 0 t.freedHead t.freedTail

/-- The shape of the ring. -/
structure Queued (t : ChunkTable) : Prop where
  length : t.freedFifo.length = if t.maxEntries = 0 then 0 else t.maxEntries + 1
  head : t.freedHead ≤ t.freedFifo.length - 1
  tail : t.freedTail ≤ t.freedFifo.length - 1

/-- The table holds a freed record under the key. -/
def FreedKey (t : ChunkTable) (key : Nat) : Prop :=
  ∃ c ∈ t.records, c.key = key ∧ c.state = .freed

/-- One freed record has been given up, and nothing else. -/
structure Evicted (t : ChunkTable) (c : Chunk) (t' : ChunkTable) : Prop where
  freed : c.state = .freed
  records : c ::ₘ t'.records = t.records
  inv : TableInv t'
  queued : t'.Queued
  maxEntries : t'.maxEntries = t.maxEntries

/-- Two tables with the same records and the same cap; the queue may differ. -/
structure SameRecords (t t' : ChunkTable) : Prop where
  slots : t'.slots = t.slots
  capacity : t'.capacity = t.capacity
  size : t'.size = t.size
  stats : t'.stats = t.stats
  maxEntries : t'.maxEntries = t.maxEntries

namespace SameRecords

variable {t t' t'' : ChunkTable}

theorem refl (t : ChunkTable) : SameRecords t t := ⟨rfl, rfl, rfl, rfl, rfl⟩

theorem trans (h : SameRecords t t') (h' : SameRecords t' t'') : SameRecords t t'' :=
  ⟨h'.slots.trans h.slots, h'.capacity.trans h.capacity, h'.size.trans h.size,
    h'.stats.trans h.stats, h'.maxEntries.trans h.maxEntries⟩

theorem records (h : SameRecords t t') : t'.records = t.records :=
  records_congr h.slots h.capacity

theorem inv (h : SameRecords t t') (hI : TableInv t) : TableInv t' :=
  hI.congr h.slots h.capacity h.size (congrArg ChunkTableStats.maxProbe h.stats)

theorem freedKey (h : SameRecords t t') {key : Nat} : t'.FreedKey key ↔ t.FreedKey key := by
  unfold FreedKey
  rw [h.records]

theorem freedInOrder (h : SameRecords t t') : t'.freedInOrder = t.freedInOrder := by
  unfold ChunkTable.freedInOrder
  rw [h.slots, h.capacity]

end SameRecords

section Shape

variable {t : ChunkTable}

theorem Queued.fifo_ne (hQ : t.Queued) (hmax : t.maxEntries ≠ 0) : t.freedFifo ≠ [] := by
  intro h
  have hlen := hQ.length
  rw [h, if_neg hmax] at hlen
  cases hlen

theorem Queued.length_eq (hQ : t.Queued) (hmax : t.maxEntries ≠ 0) :
    t.freedFifo.length = t.maxEntries + 1 := by
  rw [hQ.length, if_neg hmax]

theorem Queued.congr {t' : ChunkTable} (hQ : t.Queued) (h : SamePolicy t t') : t'.Queued := by
  refine ⟨?_, ?_, ?_⟩
  · rw [h.freedFifo, h.maxEntries]
    exact hQ.length
  · rw [h.freedHead, h.freedFifo]
    exact hQ.head
  · rw [h.freedTail, h.freedFifo]
    exact hQ.tail

theorem hints_congr {t' : ChunkTable} (h : SamePolicy t t') : t'.hints = t.hints := by
  unfold hints
  rw [h.freedFifo, h.freedHead, h.freedTail]

/-- Without a cap nothing is remembered. -/
theorem Queued.hints_nil (hQ : t.Queued) (hmax : t.maxEntries = 0) : t.hints = [] := by
  have hlen := hQ.length
  rw [if_pos hmax] at hlen
  have hhead := hQ.head
  have htail := hQ.tail
  have heq : t.freedHead = t.freedTail := by omega
  unfold hints
  rw [heq]
  exact RingList.queued_self

/-! ## Pushing a hint -/

/-- The queue with a hint more, the oldest one lost when the ring is full. -/
def pushed (cap : Nat) (q : List Nat) (key : Nat) : List Nat :=
  if q.length < cap then q ++ [key] else q.tail ++ [key]

theorem pushFreed_same (t : ChunkTable) (key : Nat) : SameRecords t (t.pushFreed key) := by
  obtain ⟨hslots, hcap, hsize, hstats, hmax⟩ := pushFreed_eq t key
  exact ⟨hslots, hcap, hsize, hstats, hmax⟩

theorem Queued.pushFreed (hQ : t.Queued) (key : Nat) : (t.pushFreed key).Queued := by
  have hsame := pushFreed_same t key
  unfold ChunkTable.pushFreed at hsame ⊢
  split at hsame
  · rename_i hnil
    rw [if_pos hnil]
    exact hQ
  · rename_i hne
    rw [if_neg hne]
    have hpos : 0 < t.freedFifo.length := List.length_pos_iff.mpr hne
    have hmod (i : Nat) : (i + 1) % t.freedFifo.length ≤ t.freedFifo.length - 1 :=
      Nat.le_sub_one_of_lt (Nat.mod_lt _ hpos)
    refine ⟨?_, ?_, ?_⟩
    · rw [List.length_set]
      exact hQ.length
    · dsimp only
      rw [List.length_set]
      split
      · exact hmod _
      · exact hQ.head
    · dsimp only
      rw [List.length_set]
      exact hmod _

theorem Queued.hints_pushFreed (hQ : t.Queued) (hmax : t.maxEntries ≠ 0) (key : Nat) :
    (t.pushFreed key).hints = pushed t.maxEntries t.hints key := by
  have hlen := hQ.length_eq hmax
  have hhead : t.freedHead < t.freedFifo.length := by have := hQ.head; omega
  have htail : t.freedTail < t.freedFifo.length := by have := hQ.tail; omega
  have hcount : t.hints.length = RingList.count t.freedFifo.length t.freedHead t.freedTail :=
    RingList.length_queued
  have hfull := RingList.full_iff hhead htail
  unfold pushed
  unfold ChunkTable.pushFreed
  rw [if_neg (hQ.fifo_ne hmax)]
  unfold hints at hcount ⊢
  dsimp only
  by_cases hroom : (t.freedTail + 1) % t.freedFifo.length = t.freedHead
  · rw [if_pos hroom, if_neg (by omega)]
    exact RingList.queued_push_full (by omega) hhead htail hroom
  · have hlt : RingList.count t.freedFifo.length t.freedHead t.freedTail < t.freedFifo.length :=
      RingList.count_lt htail
    rw [if_neg hroom, if_pos (by omega)]
    exact RingList.queued_push hhead htail hroom

/-! ## Popping -/

/-- The queue with its first hint taken. -/
def advanced (t : ChunkTable) : ChunkTable :=
  { t with freedHead := (t.freedHead + 1) % t.freedFifo.length }

/-- The queue with every hint taken. -/
def drained (t : ChunkTable) : ChunkTable := { t with freedHead := t.freedTail }

theorem advanced_same (t : ChunkTable) : SameRecords t t.advanced := ⟨rfl, rfl, rfl, rfl, rfl⟩

theorem drained_same (t : ChunkTable) : SameRecords t t.drained := ⟨rfl, rfl, rfl, rfl, rfl⟩

theorem Queued.advanced (hQ : t.Queued) (hmax : t.maxEntries ≠ 0) : t.advanced.Queued where
  length := hQ.length
  head := by
    have hlen := hQ.length_eq hmax
    exact Nat.le_sub_one_of_lt (Nat.mod_lt _ (by omega))
  tail := hQ.tail

theorem Queued.drained (hQ : t.Queued) : t.drained.Queued where
  length := hQ.length
  head := hQ.tail
  tail := hQ.tail

theorem drained_hints (t : ChunkTable) : t.drained.hints = [] := RingList.queued_self

theorem Queued.hints_cons (hQ : t.Queued) (hmax : t.maxEntries ≠ 0)
    (hne : t.freedHead ≠ t.freedTail) :
    t.hints = t.freedFifo.getD t.freedHead 0 :: t.advanced.hints := by
  have hlen := hQ.length_eq hmax
  have hhead := hQ.head
  have htail := hQ.tail
  exact RingList.queued_pop (by omega) (by omega) hne

/-- What popping can do: give up the first freed record that is hinted, or
run through the queue and find none. -/
def PopOutcome (t : ChunkTable) (r : ChunkTable × Bool) : Prop :=
  (∃ c stale rest, r.2 = true ∧ Evicted t c r.1 ∧ t.hints = stale ++ c.key :: rest ∧
      (∀ key ∈ stale, ¬ t.FreedKey key) ∧ r.1.hints = rest) ∨
    (r = (t.drained, false) ∧ ∀ key ∈ t.hints, ¬ t.FreedKey key)

theorem freedKey_iff_find (hI : TableInv t) {key i : Nat} (hfind : t.find key = some i) :
    t.FreedKey key ↔ (t.slots i).state = .freed := by
  have hlookup : t.lookup key = some (t.slots i) := by
    unfold ChunkTable.lookup
    rw [hfind, Option.map_some]
  constructor
  · rintro ⟨c, hc, hkey, hstate⟩
    rw [hI.lookup_eq_some.mpr ⟨hc, hkey⟩] at hlookup
    cases hlookup
    exact hstate
  · intro hstate
    obtain ⟨hmem, hkey⟩ := hI.lookup_eq_some.mp hlookup
    exact ⟨_, hmem, hkey, hstate⟩

theorem not_freedKey_of_find (hI : TableInv t) {key : Nat} (hfind : t.find key = none) :
    ¬ t.FreedKey key := by
  rintro ⟨c, hc, hkey, -⟩
  have hnone : t.lookup key = none := by
    unfold ChunkTable.lookup
    rw [hfind, Option.map_none]
  exact hI.lookup_eq_none.mp hnone c hc hkey

/-- A stale hint is skipped. -/
theorem PopOutcome.skip (hQ : t.Queued) (hmax : t.maxEntries ≠ 0)
    (hne : t.freedHead ≠ t.freedTail) (hstale : ¬ t.FreedKey (t.freedFifo.getD t.freedHead 0))
    {r : ChunkTable × Bool} (h : PopOutcome t.advanced r) : PopOutcome t r := by
  have hcons := hQ.hints_cons hmax hne
  rcases h with ⟨c, stale, rest, htrue, hevict, hhints, hskip, hrest⟩ | ⟨rfl, hskip⟩
  · refine Or.inl ⟨c, t.freedFifo.getD t.freedHead 0 :: stale, rest, htrue,
      ⟨hevict.1, hevict.2, hevict.3, hevict.4, hevict.5⟩, ?_, ?_, hrest⟩
    · rw [hcons, hhints, List.cons_append]
    · intro key hkey
      rcases List.mem_cons.mp hkey with rfl | hkey
      · exact hstale
      · exact hskip key hkey
  · refine Or.inr ⟨rfl, ?_⟩
    rw [hcons]
    intro key hkey
    rcases List.mem_cons.mp hkey with rfl | hkey
    · exact hstale
    · exact hskip key hkey

/-- The record of a live hint is erased. -/
theorem PopOutcome.evict (hI : TableInv t) (hQ : t.Queued) (hmax : t.maxEntries ≠ 0)
    (hne : t.freedHead ≠ t.freedTail) (hfreed : t.FreedKey (t.freedFifo.getD t.freedHead 0)) :
    PopOutcome t
      ({ (t.advanced.erase (t.freedFifo.getD t.freedHead 0)).1 with
        stats := { (t.advanced.erase (t.freedFifo.getD t.freedHead 0)).1.stats with
          evictions :=
            (t.advanced.erase (t.freedFifo.getD t.freedHead 0)).1.stats.evictions + 1 } },
        true) := by
  have hI' : TableInv t.advanced := (advanced_same t).inv hI
  have hcons := hQ.hints_cons hmax hne
  obtain ⟨d, hd, hkey, hstate⟩ := hfreed
  generalize t.freedFifo.getD t.freedHead 0 = key at hkey hcons ⊢
  rcases hI'.erase key with ⟨hno, -⟩ | ⟨c, hc, hrec, -, hinv, hpol⟩
  · exact absurd hkey (hno d hd)
  · have hmem : c ∈ t.records := hrec ▸ Multiset.mem_cons_self c _
    have hcd : c = d := by
      have hfound := hI.lookup_eq_some.mpr ⟨hd, hkey⟩
      rw [hI.lookup_eq_some.mpr ⟨hmem, hc⟩] at hfound
      exact Option.some.inj hfound
    refine Or.inl ⟨c, [], t.advanced.hints, rfl, ⟨hcd ▸ hstate, hrec, hinv.congr rfl rfl rfl rfl,
      (hQ.advanced hmax).congr ⟨hpol.1, hpol.2, hpol.3, hpol.4⟩, hpol.maxEntries⟩, ?_, ?_, ?_⟩
    · rw [hcons, hc, List.nil_append]
    · exact fun key hkey => absurd hkey List.not_mem_nil
    · exact hints_congr ⟨hpol.1, hpol.2, hpol.3, hpol.4⟩

theorem popEvictableLoop_spec (fuel : Nat) (hI : TableInv t) (hQ : t.Queued)
    (hmax : t.maxEntries ≠ 0) (hfuel : t.hints.length < fuel) :
    ∃ r, popEvictableLoop fuel t = some r ∧ PopOutcome t r := by
  induction fuel generalizing t with
  | zero => exact absurd hfuel (Nat.not_lt_zero _)
  | succ fuel ih =>
      unfold popEvictableLoop
      by_cases hend : t.freedHead = t.freedTail
      · rw [if_pos hend]
        have hdrained : t.drained = t :=
          congrArg (fun head => { t with freedHead := head }) hend.symm
        refine ⟨_, rfl, Or.inr ⟨by rw [hdrained], ?_⟩⟩
        unfold hints
        rw [hend, RingList.queued_self]
        exact fun key hkey => absurd hkey List.not_mem_nil
      · rw [if_neg hend]
        have hcons := hQ.hints_cons hmax hend
        have hI' : TableInv t.advanced := (advanced_same t).inv hI
        have hrest := ih hI' (hQ.advanced hmax) hmax (by rw [hcons] at hfuel; simpa using hfuel)
        dsimp only
        cases hfind : t.advanced.find (t.freedFifo.getD t.freedHead 0) with
        | none =>
            obtain ⟨r, hrun, hout⟩ := hrest
            refine ⟨r, ?_, hout.skip hQ hmax hend (not_freedKey_of_find hI' hfind)⟩
            unfold ChunkTable.advanced at hfind hrun
            rw [hfind]
            exact hrun
        | some i =>
            have hiff := freedKey_iff_find hI' hfind
            by_cases hstate : (t.advanced.slots i).state = .freed
            · refine ⟨_, ?_, .evict hI hQ hmax hend (hiff.mpr hstate)⟩
              unfold ChunkTable.advanced at hfind hstate
              rw [hfind]
              dsimp only
              rw [if_neg (not_not.mpr hstate)]
              rfl
            · obtain ⟨r, hrun, hout⟩ := hrest
              refine ⟨r, ?_, hout.skip hQ hmax hend fun h => hstate (hiff.mp h)⟩
              unfold ChunkTable.advanced at hfind hstate hrun
              rw [hfind]
              dsimp only
              rw [if_pos hstate]
              exact hrun

theorem popEvictable_spec (hI : TableInv t) (hQ : t.Queued) (hmax : t.maxEntries ≠ 0) :
    PopOutcome t t.popEvictable := by
  have hlen := hQ.length_eq hmax
  have hcount : t.hints.length = RingList.count t.freedFifo.length t.freedHead t.freedTail :=
    RingList.length_queued
  have hlt : RingList.count t.freedFifo.length t.freedHead t.freedTail < t.freedFifo.length :=
    RingList.count_lt (by have := hQ.tail; omega)
  obtain ⟨r, hrun, hout⟩ := popEvictableLoop_spec (t.freedFifo.length + 1) hI hQ hmax (by omega)
  unfold ChunkTable.popEvictable
  rw [hrun, Option.getD_some]
  exact hout

/-! ## Refilling -/

/-- The order of `std::pair<free_ms, key>`. -/
def olderOrEqual (a b : Nat × Nat) : Bool := a.1 < b.1 || (a.1 == b.1 && a.2 ≤ b.2)

theorem freedInOrder_sorted (t : ChunkTable) :
    t.freedInOrder.Pairwise fun a b => olderOrEqual a b = true := by
  refine List.pairwise_mergeSort ?_ ?_ _
  · intro a b c hab hbc
    simp only [olderOrEqual, Bool.or_eq_true, Bool.and_eq_true, decide_eq_true_eq,
      beq_iff_eq] at *
    omega
  · intro a b
    simp only [olderOrEqual, Bool.or_eq_true, Bool.and_eq_true, decide_eq_true_eq, beq_iff_eq]
    omega

theorem mem_freedInOrder {e : Nat × Nat} :
    e ∈ t.freedInOrder ↔ ∃ c ∈ t.records, c.state = .freed ∧ c.freeMs = e.1 ∧ c.key = e.2 := by
  unfold ChunkTable.freedInOrder
  rw [List.mem_mergeSort, List.mem_map]
  constructor
  · rintro ⟨c, hc, rfl⟩
    obtain ⟨hslot, hstate⟩ := List.mem_filter.mp hc
    obtain ⟨i, hi, rfl⟩ := List.mem_map.mp hslot
    have hfreed : (t.slots i).state = .freed := of_decide_eq_true hstate
    refine ⟨t.slots i, ?_, hfreed, rfl, rfl⟩
    refine mem_contents_of_full (List.mem_range.mp hi) (full_iff.mpr ?_)
    rw [hfreed]
    exact ChunkState.noConfusion
  · rintro ⟨c, hc, hstate, hms, hkey⟩
    obtain ⟨-, i, hi, rfl⟩ := mem_contents.mp hc
    refine ⟨t.slots i, List.mem_filter.mpr ⟨List.mem_map.mpr ⟨i, List.mem_range.mpr hi, rfl⟩, ?_⟩,
      Prod.ext hms hkey⟩
    exact decide_eq_true hstate

theorem foldl_pushFreed (l : List (Nat × Nat)) (hQ : t.Queued) (hmax : t.maxEntries ≠ 0)
    (hroom : t.hints.length + l.length ≤ t.maxEntries) :
    SameRecords t (l.foldl (fun u e => u.pushFreed e.2) t) ∧
      (l.foldl (fun u e => u.pushFreed e.2) t).Queued ∧
      (l.foldl (fun u e => u.pushFreed e.2) t).hints = t.hints ++ l.map Prod.snd := by
  induction l generalizing t with
  | nil => exact ⟨SameRecords.refl t, hQ, (List.append_nil _).symm⟩
  | cons e l ih =>
      have hpush := hQ.hints_pushFreed hmax e.2
      have hsame := pushFreed_same t e.2
      rw [List.length_cons] at hroom
      unfold pushed at hpush
      rw [if_pos (by omega)] at hpush
      obtain ⟨hsame', hQ', hhints⟩ := ih (hQ.pushFreed e.2) (by rw [hsame.maxEntries]; exact hmax)
        (by rw [hpush, hsame.maxEntries, List.length_append, List.length_singleton]; omega)
      refine ⟨hsame.trans hsame', hQ', ?_⟩
      rw [List.foldl_cons, hhints, hpush, List.append_assoc, List.map_cons, List.singleton_append]

/-- A refilled queue holds the oldest freed records, as many as fit. -/
theorem refill_spec (hmax : t.maxEntries ≠ 0) (hlen : t.freedFifo.length = t.maxEntries + 1) :
    SameRecords t t.refillFreedQueue ∧ t.refillFreedQueue.Queued ∧
      t.refillFreedQueue.hints = (t.freedInOrder.take t.maxEntries).map Prod.snd := by
  have hne : t.freedFifo ≠ [] := List.ne_nil_of_length_pos (by omega)
  have hQ : ({ t with freedHead := 0, freedTail := 0 } : ChunkTable).Queued :=
    ⟨by rw [if_neg hmax]; exact hlen, Nat.zero_le _, Nat.zero_le _⟩
  have hempty : ({ t with freedHead := 0, freedTail := 0 } : ChunkTable).hints = [] :=
    RingList.queued_self
  have htake : (t.freedInOrder.take t.maxEntries).length ≤ t.maxEntries :=
    List.length_take_le _ _
  obtain ⟨hsame, hQ', hhints⟩ := foldl_pushFreed (t.freedInOrder.take t.maxEntries) hQ hmax
    (by rw [hempty, List.length_nil, Nat.zero_add]; exact htake)
  have hrefill : t.refillFreedQueue = (t.freedInOrder.take t.maxEntries).foldl
      (fun u e => u.pushFreed e.2) { t with freedHead := 0, freedTail := 0 } := by
    unfold ChunkTable.refillFreedQueue
    rw [if_neg hne, hlen, Nat.add_sub_cancel]
  rw [hrefill]
  refine ⟨⟨hsame.slots, hsame.capacity, hsame.size, hsame.stats, hsame.maxEntries⟩, hQ', ?_⟩
  rw [hhints, hempty, List.nil_append]

/-! ## Making room -/

/-- The record is one no freed record was freed before. -/
def OldestFreed (t : ChunkTable) (c : Chunk) : Prop :=
  ∀ d ∈ t.records, d.state = .freed → c.freeMs ≤ d.freeMs

theorem freedKey_of_freedInOrder {e : Nat × Nat} (h : e ∈ t.freedInOrder) : t.FreedKey e.2 := by
  obtain ⟨c, hc, hstate, -, hkey⟩ := mem_freedInOrder.mp h
  exact ⟨c, hc, hkey, hstate⟩

/-- The record the order begins with is an oldest one. -/
theorem oldestFreed_of_head (hI : TableInv t) {e : Nat × Nat} {es : List (Nat × Nat)} {c : Chunk}
    (horder : t.freedInOrder = e :: es) (hc : c ∈ t.records) (hkey : c.key = e.2) :
    t.OldestFreed c := by
  have hsorted := freedInOrder_sorted t
  rw [horder, List.pairwise_cons] at hsorted
  have hms : c.freeMs = e.1 := by
    have hhead : e ∈ t.freedInOrder := horder ▸ List.mem_cons_self
    obtain ⟨d, hd, -, hms, hkey'⟩ := mem_freedInOrder.mp hhead
    have hfound := hI.lookup_eq_some.mpr ⟨hd, hkey'⟩
    rw [hI.lookup_eq_some.mpr ⟨hc, hkey⟩] at hfound
    cases hfound
    exact hms
  intro d hd hstate
  have hmem : (d.freeMs, d.key) ∈ t.freedInOrder := mem_freedInOrder.mpr ⟨d, hd, hstate, rfl, rfl⟩
  rw [horder] at hmem
  rcases List.mem_cons.mp hmem with heq | hrest
  · rw [hms, ← heq]
  · have hle := hsorted.1 _ hrest
    simp only [olderOrEqual, Bool.or_eq_true, Bool.and_eq_true, decide_eq_true_eq,
      beq_iff_eq] at hle
    omega

/-- What `make_room` evicts: the first hinted record that is freed, or, with no
such hint, the oldest one of all. -/
def Chosen (t : ChunkTable) (c : Chunk) (t' : ChunkTable) : Prop :=
  (∃ stale rest, t.hints = stale ++ c.key :: rest ∧ (∀ key ∈ stale, ¬ t.FreedKey key) ∧
      t'.hints = rest) ∨
    ((∀ key ∈ t.hints, ¬ t.FreedKey key) ∧ t.OldestFreed c ∧
      (t.freedInOrder.take t.maxEntries).map Prod.snd = c.key :: t'.hints)

/-- `make_room` evicts a freed record whenever there is one. -/
theorem makeRoom_spec (hI : TableInv t) (hQ : t.Queued) (hmax : t.maxEntries ≠ 0) :
    (∃ c, t.makeRoom.2 = true ∧ Evicted t c t.makeRoom.1 ∧ t.Chosen c t.makeRoom.1) ∨
      (t.makeRoom.2 = false ∧ SameRecords t t.makeRoom.1 ∧ t.makeRoom.1.Queued ∧
        t.makeRoom.1.hints = [] ∧ ∀ c ∈ t.records, c.state ≠ .freed) := by
  have hpop := popEvictable_spec hI hQ hmax
  unfold ChunkTable.makeRoom
  generalize t.popEvictable = r at hpop ⊢
  rcases hpop with ⟨c, stale, rest, htrue, hevict, hhints, hskip, hrest⟩ | ⟨rfl, hskip⟩
  · obtain ⟨t', b⟩ := r
    cases htrue
    exact Or.inl ⟨c, rfl, hevict, Or.inl ⟨stale, rest, hhints, hskip, hrest⟩⟩
  · dsimp only
    have hdrained := drained_same t
    have hlen : t.drained.freedFifo.length = t.drained.maxEntries + 1 := hQ.length_eq hmax
    obtain ⟨hsame, hQ', hhints⟩ := @refill_spec t.drained hmax hlen
    have hsame' := hdrained.trans hsame
    rw [hdrained.freedInOrder, hdrained.maxEntries] at hhints
    have hpop' := popEvictable_spec (hsame'.inv hI) hQ' (by rw [hsame'.maxEntries]; exact hmax)
    rcases hpop' with ⟨c, stale, rest, htrue, hevict, hhints', hskip', hrest⟩ | ⟨heq, hskip'⟩
    · -- every hint of a refilled queue is of a freed record, so the first one is taken
      have hfirst : stale = [] := by
        cases stale with
        | nil => rfl
        | cons key stale =>
            refine absurd ?_ (hskip' key List.mem_cons_self)
            have hmem : key ∈ (t.freedInOrder.take t.maxEntries).map Prod.snd := by
              rw [← hhints, hhints']
              exact List.mem_cons_self
            obtain ⟨e, he, rfl⟩ := List.mem_map.mp hmem
            exact hsame'.freedKey.mpr (freedKey_of_freedInOrder (List.mem_of_mem_take he))
      rw [hfirst, List.nil_append, hhints] at hhints'
      have hrecords := hevict.records
      rw [hsame'.records] at hrecords
      have hmem : c ∈ t.records := hrecords ▸ Multiset.mem_cons_self c _
      refine Or.inl ⟨c, htrue, ⟨hevict.freed, hrecords, hevict.inv, hevict.queued,
        hevict.maxEntries.trans hsame'.maxEntries⟩, Or.inr ⟨hskip, ?_, ?_⟩⟩
      · cases horder : t.freedInOrder with
        | nil =>
            rw [horder, List.take_nil] at hhints'
            cases hhints'
        | cons e es =>
            rw [horder, ← Nat.succ_pred hmax, List.take_succ_cons, List.map_cons] at hhints'
            exact oldestFreed_of_head hI horder hmem (List.cons.inj hhints').1.symm
      · rw [hhints', hrest]
    · have hnone : t.freedInOrder = [] := by
        cases horder : t.freedInOrder with
        | nil => rfl
        | cons e es =>
            refine absurd ?_ (hskip' e.2 ?_)
            · exact hsame'.freedKey.mpr (freedKey_of_freedInOrder (horder ▸ List.mem_cons_self))
            · rw [hhints, horder, ← Nat.succ_pred hmax, List.take_succ_cons]
              exact List.mem_cons_self
      refine Or.inr ?_
      rw [heq]
      refine ⟨rfl, hsame'.trans (drained_same _), hQ'.drained, drained_hints _, ?_⟩
      intro c hc hstate
      have hmem : (c.freeMs, c.key) ∈ t.freedInOrder :=
        mem_freedInOrder.mpr ⟨c, hc, hstate, rfl, rfl⟩
      rw [hnone] at hmem
      cases hmem

end Shape

end ChunkTable

end Heapviz
