import Heapviz.HeapAgree

/-!
# The session's totals

`live_chunks()` and `live_bytes()` are kept beside the table, not read off
it: `apply` moves them first, from the record it finds under the event's
address, and only then lets the table overwrite that record. What keeps
the two together is that the record it finds is the one that leaves the
live set. So long as that holds, each guarded decrement takes out a
figure that is part of the sum, and the guard never has to save it.
-/

namespace Heapviz

open ChunkTable

/-- The two totals are the count and the sum of the live records. -/
structure HeapApp.Totals (a : HeapApp) : Prop where
  chunks : a.live = a.table.live.card
  bytes : a.liveBytes = total Chunk.usable a.table.live

/-- The guards on the totals are not needed for this event: whatever live
record its address has is still counted in both. -/
def HeapApp.Unsaturated (a : HeapApp) (e : HvEvent) : Prop :=
  ∀ c, a.table.liveAt e.ptr = some c → a.live ≠ 0 ∧ c.usable ≤ a.liveBytes

theorem HeapApp.Totals.unsaturated {a : HeapApp} (h : a.Totals) (hw : a.WellFormed)
    (e : HvEvent) : a.Unsaturated e := by
  intro c hc
  obtain ⟨hlookup, hlive⟩ := liveAt_eq_some.mp hc
  have hmem : c ∈ a.table.live :=
    mem_live.mpr ⟨(hw.table.lookup_eq_some.mp hlookup).1, hlive⟩
  obtain ⟨rest, hrest⟩ := Multiset.exists_cons_of_mem hmem
  rw [h.chunks, h.bytes, hrest, Multiset.card_cons, total_cons]
  exact ⟨Nat.succ_ne_zero _, Nat.le_add_right _ _⟩

/-! ## One event -/

theorem HeapApp.applyEvent_alloc_totals {a : HeapApp} {e : HvEvent} (h : e.isFree = false) :
    (a.applyEvent e).live = (if (a.table.liveAt e.ptr).isNone then a.live + 1 else a.live) ∧
      (a.applyEvent e).liveBytes =
        a.liveBytes - ((a.table.liveAt e.ptr).map Chunk.usable).getD 0 + e.usable := by
  have hop : ¬ e.op &&& hvOpMask = HvOp.free.code := by simpa [HvEvent.isFree] using h
  simp only [HeapApp.applyEvent, if_neg hop]
  exact ⟨rfl, rfl⟩

theorem HeapApp.applyEvent_unknown_totals {a : HeapApp} {e : HvEvent} (h : e.isFree = true)
    (hlookup : a.table.lookup e.ptr = none) :
    (a.applyEvent e).live = a.live ∧ (a.applyEvent e).liveBytes = a.liveBytes := by
  have hop : e.op &&& hvOpMask = HvOp.free.code := by simpa [HvEvent.isFree] using h
  simp only [HeapApp.applyEvent, if_pos hop, hlookup]
  exact ⟨rfl, rfl⟩

theorem HeapApp.applyEvent_known_totals {a : HeapApp} {e : HvEvent} {c : Chunk}
    (h : e.isFree = true) (hlookup : a.table.lookup e.ptr = some c) :
    (a.applyEvent e).live = (if c.state = .live then a.live - 1 else a.live) ∧
      (a.applyEvent e).liveBytes =
        (if c.state = .live then a.liveBytes - c.usable else a.liveBytes) := by
  have hop : e.op &&& hvOpMask = HvOp.free.code := by simpa [HvEvent.isFree] using h
  simp only [HeapApp.applyEvent, if_pos hop, hlookup]
  exact ⟨rfl, rfl⟩

/-- Every event keeps the totals. -/
theorem HeapApp.Totals.applyEvent {a : HeapApp} (h : a.Totals) (hw : a.WellFormed) {e : HvEvent}
    (hptr : e.ptr ≠ 0) : (a.applyEvent e).Totals := by
  cases hfree : e.isFree with
  | false =>
      obtain ⟨hlive, hbytes⟩ := HeapApp.applyEvent_alloc_totals (a := a) hfree
      obtain ⟨-, htable⟩ := HeapApp.applyEvent_alloc (a := a) hfree
      obtain ⟨c, -, -, -, -, husable, hover, hnew⟩ := hw.table.live_insertLive hw.unbounded
        hptr (HeapApp.clampU32 e.size) e.usable (a.eventMs e.timestamp) (hvEventGetTid e)
      rw [← htable] at hover hnew
      cases hat : a.table.liveAt e.ptr with
      | none =>
          rw [hat] at hlive hbytes
          refine ⟨?_, ?_⟩
          · rw [hlive, hnew hat, Multiset.card_cons, h.chunks]
            rfl
          · rw [hbytes, hnew hat, total_cons, husable, h.bytes]
            exact Nat.add_comm _ _
      | some d =>
          -- the old record leaves the live set as the new one comes
          rw [hat] at hlive hbytes
          have hcard := congrArg Multiset.card (hover d hat)
          have hsum := congrArg (total Chunk.usable) (hover d hat)
          rw [Multiset.card_cons, Multiset.card_cons] at hcard
          rw [total_cons, total_cons, husable, ← h.bytes] at hsum
          have hle := (h.unsaturated hw e d hat).2
          refine ⟨?_, ?_⟩
          · rw [hlive]
            simp only [Option.isNone_some, Bool.false_eq_true, if_false]
            rw [h.chunks]
            omega
          · rw [hbytes]
            simp only [Option.map_some, Option.getD_some]
            omega
  | true =>
      cases hlookup : a.table.lookup e.ptr with
      | none =>
          obtain ⟨hlive, hbytes⟩ := HeapApp.applyEvent_unknown_totals hfree hlookup
          obtain ⟨-, htable⟩ := HeapApp.applyEvent_unknown hfree hlookup
          exact ⟨by rw [hlive, htable, h.chunks], by rw [hbytes, htable, h.bytes]⟩
      | some c =>
          have hkey := (hw.table.lookup_eq_some.mp hlookup).2
          obtain ⟨hlive, hbytes⟩ := HeapApp.applyEvent_known_totals hfree hlookup
          obtain ⟨-, htable⟩ := HeapApp.applyEvent_known hfree hlookup hkey
          obtain ⟨hgone, hstay⟩ := hw.table.live_markFreed e.ptr (a.eventMs e.timestamp)
          rw [← htable] at hgone hstay
          by_cases hst : c.state = .live
          · have hat : a.table.liveAt e.ptr = some c := liveAt_eq_some.mpr ⟨hlookup, hst⟩
            have hcard := congrArg Multiset.card (hgone c hat)
            have hsum := congrArg (total Chunk.usable) (hgone c hat)
            rw [Multiset.card_cons, ← h.chunks] at hcard
            rw [total_cons, ← h.bytes] at hsum
            rw [if_pos hst] at hlive hbytes
            exact ⟨by rw [hlive]; omega, by rw [hbytes]; omega⟩
          · have hat : a.table.liveAt e.ptr = none := liveAt_eq_none.mpr fun d hd => by
              rwa [← Option.some.inj (hlookup.symm.trans hd)]
            rw [if_neg hst] at hlive hbytes
            exact ⟨by rw [hlive, hstay hat, h.chunks], by rw [hbytes, hstay hat, h.bytes]⟩

/-! ## Every stream -/

theorem HeapApp.new_wellFormed (attached unicode : Bool) (originNs : Nat) :
    (HeapApp.new attached unicode originNs).WellFormed where
  table := (HeapApp.new_table attached unicode originNs).inv
  unbounded := (HeapApp.new_table attached unicode originNs).policy.maxEntries
  cells := rfl

theorem HeapApp.new_totals (attached unicode : Bool) (originNs : Nat) :
    (HeapApp.new attached unicode originNs).Totals := by
  refine ⟨?_, ?_⟩
  · rw [HeapApp.new_live]
    rfl
  · rw [HeapApp.new_live]
    rfl

theorem HeapApp.Totals.apply {a : HeapApp} (h : a.Totals) (hw : a.WellFormed)
    {events : List HvEvent} (hptr : ∀ e ∈ events, e.ptr ≠ 0) :
    (∀ es rest, events = es ++ rest → (a.apply es).Totals) ∧
      Run.Guarded HeapApp.eventStep HeapApp.Unsaturated a events := by
  induction events generalizing a with
  | nil =>
      refine ⟨fun es rest heq => ?_, trivial⟩
      obtain ⟨rfl, -⟩ := List.append_eq_nil_iff.mp heq.symm
      exact h
  | cons e events ih =>
      have hne : e.ptr ≠ 0 := hptr e (List.mem_cons_self ..)
      obtain ⟨htotals, hguard⟩ := ih (h.applyEvent hw hne) (hw.applyEvent e)
        fun e he => hptr e (List.mem_cons_of_mem _ he)
      refine ⟨?_, h.unsaturated hw e, ?_⟩
      · intro es rest heq
        cases es with
        | nil => exact h
        | cons e' es =>
            obtain ⟨rfl, rfl⟩ := List.cons.inj heq
            exact htotals es rest rfl
      · intro s' hs'
        obtain rfl := Option.some.inj hs'
        exact hguard

/-- **The totals are those of the table.** Whatever the stream - frees of
addresses never seen, repeated frees, allocations over live addresses,
recycled ones - after every event the totals are the number and the usable
sum of the live records, and no guard on them has saturated. -/
theorem live_totals (attached unicode : Bool) (originNs : Nat) (events : List HvEvent)
    (hptr : ∀ e ∈ events, e.ptr ≠ 0) :
    (∀ es rest, events = es ++ rest →
        ((HeapApp.new attached unicode originNs).apply es).Totals) ∧
      Run.Guarded HeapApp.eventStep HeapApp.Unsaturated
        (HeapApp.new attached unicode originNs) events :=
  (HeapApp.new_totals attached unicode originNs).apply
    (HeapApp.new_wellFormed attached unicode originNs) hptr

/-- An allocation over a live address, a free, the same free again, and one of
an address never seen. -/
theorem live_totals_irregular :
    ((HeapApp.new true true 0).apply [eventAt 256 .malloc, eventAt 256 .calloc,
      eventAt 512 .malloc, eventAt 256 .free, eventAt 256 .free, eventAt 768 .free]).Totals :=
  (live_totals true true 0 [eventAt 256 .malloc, eventAt 256 .calloc, eventAt 512 .malloc,
    eventAt 256 .free, eventAt 256 .free, eventAt 768 .free] (by decide)).1 _ []
    (List.append_nil _).symm

end Heapviz
