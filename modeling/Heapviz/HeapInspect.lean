import Heapviz.HeapFade
import Heapviz.HeapRepack
import Heapviz.HeatStream
import Heapviz.Inspector

/-!
# The inspector's cheap answer

`refresh` asks the map before it walks the table: a cell that counts nothing
and in which nothing fades "cannot hold a chunk". The map is a summary of the
events, the table a record of them, and the answer is right as long as the two
are about the same addresses of the cell.

- live chunks: the cell counts them (`MapCounts`), while the events are sound
  and the cells where they were;
- freed chunks: the cell's last free is no earlier than theirs (`LastFrees`).

So a record is found behind the cheap answer only if it is freed, nothing in
its cell is live, and every fade there is over. Nothing in the session keeps
that from happening: the table holds freed records until their addresses are
used again, not "exactly as long as" they fade.

The session here is the application with the panel beside it; a refresh may
come at any time, with the cursor anywhere.
-/

namespace Heapviz

open RobinHood ChunkTable

/-! ## Last frees -/

/-- In every cell the last free is that of an event, and no earlier than the
free of any address there whose last event that was. -/
structure LastFrees (stamp : Nat → Nat) (bucket : Nat → Option Nat) (log : List HvEvent)
    (m : HeatMap) : Prop where
  logged : ∀ i, (m.cells i).lastFreeMs ≠ kNoTime →
    ∃ e ∈ log, stamp e.timestamp = (m.cells i).lastFreeMs
  covers : ∀ ptr e i, FreedLast log ptr e → bucket ptr = some i →
    (m.cells i).lastFreeMs ≠ kNoTime ∧ stamp e.timestamp ≤ (m.cells i).lastFreeMs

section Bump

variable {x v : Nat}

theorem bump_eq (x v : Nat) : bump x v = v ∨ (bump x v = x ∧ x ≠ kNoTime) := by
  unfold bump
  split_ifs with h
  · exact .inl rfl
  · exact .inr ⟨rfl, fun hx => h (.inl hx)⟩

theorem le_bump (x v : Nat) : v ≤ bump x v := by
  unfold bump
  split_ifs with h
  · exact le_refl v
  · exact not_lt.mp fun hlt => h (.inr hlt)

theorem le_bump_left (hx : x ≠ kNoTime) : x ≤ bump x v := by
  unfold bump
  split_ifs with h
  · exact (h.resolve_left hx).le
  · exact le_refl x

theorem bump_ne_noTime (hv : v < kNoTime) : bump x v ≠ kNoTime := by
  rcases bump_eq x v with h | ⟨h, hx⟩
  · rw [h]; exact hv.ne
  · rw [h]; exact hx

end Bump

section Cells

variable {stamp : Nat → Nat} {bucket bucket' : Nat → Option Nat} {log : List HvEvent}
  {m m' : HeatMap}

theorem FreedLast.mem {ptr : Nat} {e : HvEvent} (h : FreedLast log ptr e) : e ∈ log :=
  (List.mem_filter.mp (List.mem_of_getLast? h.2.1)).1

/-- After one more event, an address was freed last by it or, being another
one, by what it was before. -/
theorem freedLast_concat {e x : HvEvent} {ptr : Nat} (h : FreedLast (log ++ [e]) ptr x) :
    (ptr = e.ptr ∧ x = e ∧ e.isFree = true) ∨ FreedLast log ptr x := by
  obtain ⟨halloc, hlast, hfree⟩ := h
  by_cases hptr : ptr = e.ptr
  · subst hptr
    rw [lastEvent_concat_self, Option.some.injEq] at hlast
    subst hlast
    exact .inl ⟨rfl, rfl, hfree⟩
  · rw [allocated_concat_of_ne hptr] at halloc
    rw [lastEvent_concat_of_ne hptr] at hlast
    exact .inr ⟨halloc, hlast, hfree⟩

/-- An event, where the map bumps the cell of a free. -/
theorem LastFrees.event (h : LastFrees stamp bucket log m) {e : HvEvent}
    (hlt : stamp e.timestamp < kNoTime)
    (hcell : ∀ i, (m'.cells i).lastFreeMs =
      if e.isFree = true ∧ bucket e.ptr = some i then
        bump (m.cells i).lastFreeMs (stamp e.timestamp)
      else (m.cells i).lastFreeMs) :
    LastFrees stamp bucket (log ++ [e]) m' := by
  refine ⟨?_, ?_⟩
  · intro i hne
    have hold : (m.cells i).lastFreeMs ≠ kNoTime →
        ∃ x ∈ log ++ [e], stamp x.timestamp = (m.cells i).lastFreeMs := by
      intro hne'
      obtain ⟨x, hx, heq⟩ := h.logged i hne'
      exact ⟨x, List.mem_append_left _ hx, heq⟩
    rw [hcell i] at hne ⊢
    split_ifs at hne ⊢
    · rcases bump_eq (m.cells i).lastFreeMs (stamp e.timestamp) with hb | ⟨hb, hne'⟩
      · exact ⟨e, List.mem_append_right _ (List.mem_singleton_self e), hb.symm⟩
      · rw [hb]
        exact hold hne'
    · exact hold hne
  · intro ptr x i hx hi
    rw [hcell i]
    rcases freedLast_concat hx with ⟨rfl, rfl, hfree⟩ | hx
    · rw [if_pos ⟨hfree, hi⟩]
      exact ⟨bump_ne_noTime hlt, le_bump _ _⟩
    · obtain ⟨hne, hle⟩ := h.covers ptr x i hx hi
      split_ifs
      · exact ⟨bump_ne_noTime hlt, hle.trans (le_bump_left hne)⟩
      · exact ⟨hne, hle⟩

/-- Only the cells' last frees and the cells of allocated addresses are read. -/
theorem LastFrees.congr (h : LastFrees stamp bucket log m)
    (hcell : ∀ i, (m'.cells i).lastFreeMs = (m.cells i).lastFreeMs)
    (hb : ∀ ptr, Allocated log ptr → bucket' ptr = bucket ptr) :
    LastFrees stamp bucket' log m' := by
  refine ⟨?_, ?_⟩
  · intro i
    rw [hcell i]
    exact h.logged i
  · intro ptr e i he hi
    rw [hcell i]
    rw [hb ptr he.1] at hi
    exact h.covers ptr e i he hi

theorem refineOverhead_lastFree {regions : Option RegionMap} {ptr : Nat} (old exact i : Nat) :
    ((m.refineOverhead regions ptr old exact).1.cells i).lastFreeMs =
      (m.cells i).lastFreeMs := by
  unfold HeatMap.refineOverhead
  cases m.cellFor regions ptr with
  | none => rfl
  | some k =>
      refine setCell_keeps CellAggregate.lastFreeMs ?_ i
      rfl

end Cells

/-! ## The session and its log -/

/-- The table records the log, and its times are times. -/
structure HeapApp.Logged (log : List HvEvent) (a : HeapApp) : Prop where
  wellFormed : a.WellFormed
  records : ∃ m, a.table.Models m ∧ FollowsLog a.eventMs log m ∧
    ∀ ptr x, m ptr = some x → x.allocMs < kNoTime
  stamped : ∀ e ∈ log, a.eventMs e.timestamp < kNoTime

/-- The map sums up the log: it counts the live chunks, and its last frees are
those of the log. Before the regions are set nothing is on it. -/
structure HeapApp.Watched (log : List HvEvent) (a : HeapApp) : Prop
    extends HeapApp.Logged log a where
  counts : a.MapCounts
  hidden : a.mapRegions = false → a.map.grid.valid = false
  frees : LastFrees a.eventMs (a.map.cellFor a.translation) log a.map

section Logged

variable {a b : HeapApp} {log : List HvEvent}

/-- The record the table has for an address, as the log has it. -/
theorem HeapApp.Logged.lookup_isSome (h : a.Logged log) (ptr : Nat) :
    (a.table.lookup ptr).isSome = true ↔ Allocated log ptr := by
  obtain ⟨m, hm, hlog, -⟩ := h.records
  rw [← hlog.known, ← hm.lookup, Option.isSome_map]

theorem HeapApp.Logged.allocated (h : a.Logged log) {c : Chunk} (hc : c ∈ a.table.records) :
    Allocated log c.key := by
  rw [← h.lookup_isSome, h.wellFormed.table.lookup_eq_some.mpr ⟨hc, rfl⟩]
  rfl

theorem HeapApp.Logged.freed_iff (h : a.Logged log) (ptr ms : Nat) :
    (∃ c ∈ a.table.records, c.key = ptr ∧ c.state = .freed ∧ c.freeMs = ms) ↔
      ∃ e, FreedLast log ptr e ∧ a.eventMs e.timestamp = ms := by
  obtain ⟨m, hm, hlog, -⟩ := h.records
  rw [← hlog.freed]
  constructor
  · rintro ⟨c, hc, rfl, hstate, hms⟩
    refine ⟨c.entry, ?_, hstate, hms⟩
    rw [← hm.lookup, hm.inv.lookup_eq_some.mpr ⟨hc, rfl⟩]
    rfl
  · rintro ⟨x, hx, hstate, hms⟩
    rw [← hm.lookup] at hx
    obtain ⟨c, hc, rfl⟩ := Option.map_eq_some_iff.mp hx
    obtain ⟨hmem, hkey⟩ := hm.inv.lookup_eq_some.mp hc
    exact ⟨c, hmem, hkey, hstate, hms⟩

/-- An address whose last event is an allocation is live. -/
theorem HeapApp.Logged.live (h : a.Logged log) {ptr : Nat} {e : HvEvent}
    (halloc : Allocated log ptr) (hlast : lastEvent log ptr = some e) (he : e.isFree = false) :
    ∃ c ∈ a.table.live, c.key = ptr := by
  obtain ⟨c, hc⟩ := Option.isSome_iff_exists.mp ((h.lookup_isSome ptr).mpr halloc)
  obtain ⟨hmem, hkey⟩ := h.wellFormed.table.lookup_eq_some.mp hc
  refine ⟨c, mem_live.mpr ⟨hmem, ?_⟩, hkey⟩
  cases hstate : c.state with
  | empty => exact absurd hstate (state_ne_empty hmem)
  | live => rfl
  | freed =>
      obtain ⟨x, hx, -⟩ := (h.freed_iff ptr c.freeMs).mp ⟨c, hmem, hkey, hstate, rfl⟩
      obtain rfl := Option.some.inj (hlast.symm.trans hx.2.1)
      exact absurd (he.symm.trans hx.2.2) Bool.false_ne_true

/-- No record holds a time that is none. -/
theorem HeapApp.Logged.stampedBy (h : a.Logged log) : StampedBy (kNoTime - 1) a.table.records := by
  intro c hc
  refine ⟨?_, ?_⟩
  · obtain ⟨m, hm, -, hborn⟩ := h.records
    refine Nat.le_sub_one_of_lt (hborn c.key c.entry ?_)
    rw [← hm.lookup, hm.inv.lookup_eq_some.mpr ⟨hc, rfl⟩]
    rfl
  · intro hstate
    obtain ⟨e, he, hms⟩ := (h.freed_iff c.key c.freeMs).mp ⟨c, hc, rfl, hstate, rfl⟩
    rw [← hms]
    exact Nat.le_sub_one_of_lt (h.stamped e he.mem)

theorem HeapApp.Logged.of_records (h : a.Logged log) (hw : b.WellFormed)
    (hb : a.SameRecords b) : b.Logged log := by
  obtain ⟨m, hm, hlog, hborn⟩ := h.records
  have hms := HeapApp.eventMs_congr hb.originNs
  refine ⟨hw, ⟨m, hb.models m hm, hms ▸ hlog, hborn⟩, ?_⟩
  rw [hms]
  exact h.stamped

/-- Only the table, the map's cells and the origin of time are read. -/
theorem HeapApp.Logged.congr (h : a.Logged log) (htable : b.table = a.table)
    (hmap : b.map = a.map) (horigin : b.originNs = a.originNs) : b.Logged log := by
  have hms := HeapApp.eventMs_congr horigin
  refine ⟨⟨?_, ?_, ?_⟩, ?_, ?_⟩
  · rw [htable]; exact h.wellFormed.table
  · rw [htable]; exact h.wellFormed.unbounded
  · rw [hmap]; exact h.wellFormed.cells
  · rw [htable, hms]; exact h.records
  · rw [hms]; exact h.stamped

theorem HeapApp.Logged.applyEvent (h : a.Logged log) {e : HvEvent}
    (hlt : a.eventMs e.timestamp < kNoTime) : (a.applyEvent e).Logged (log ++ [e]) := by
  obtain ⟨m, hm, hlog, hborn⟩ := h.records
  have hms := HeapApp.eventMs_congr (a.applyEvent_originNs e)
  refine ⟨h.wellFormed.applyEvent e,
    ⟨m.event a.eventMs e, HeapApp.applyEvent_models hm e, hms ▸ hlog.event e, ?_⟩, ?_⟩
  · intro ptr x hx
    by_cases hptr : ptr = e.ptr
    · subst hptr
      unfold ChunkMap.event at hx
      split_ifs at hx
      · simp only [ChunkMap.step, Function.update_self] at hx
        obtain ⟨y, hy, rfl⟩ := Option.map_eq_some_iff.mp hx
        exact hborn e.ptr y hy
      · simp only [ChunkMap.step] at hx
        split_ifs at hx
        · exact hborn e.ptr x hx
        · dsimp only at hx
          rw [Function.update_self] at hx
          obtain rfl := Option.some.inj hx
          exact hlt
    · rw [ChunkMap.event_of_ne hptr] at hx
      exact hborn ptr x hx
  · rw [hms]
    intro x hx
    rcases List.mem_append.mp hx with hx | hx
    · exact h.stamped x hx
    · obtain rfl := List.mem_singleton.mp hx
      exact hlt

/-- Stamps that are the latest of the records' are the latest of the log's. -/
theorem HeapApp.Logged.lastFrees (h : a.Logged log) {bucket : Nat → Option Nat} {m : HeatMap}
    (hm : Stamps bucket m a.table.records) : LastFrees a.eventMs bucket log m := by
  refine ⟨?_, ?_⟩
  · intro i hne
    rcases hm.free i with ⟨-, hnone⟩ | ⟨hmem, -⟩
    · exact absurd hnone hne
    · obtain ⟨c, hc, -, hstate, hms⟩ := mem_freeStamps.mp hmem
      obtain ⟨e, he, hstamp⟩ := (h.freed_iff c.key c.freeMs).mp ⟨c, hc, rfl, hstate, rfl⟩
      exact ⟨e, he.mem, hstamp.trans hms⟩
  · intro ptr e i he hi
    obtain ⟨c, hc, rfl, hstate, hms⟩ := (h.freed_iff ptr _).mpr ⟨e, he, rfl⟩
    have hmem : a.eventMs e.timestamp ∈ freeStamps bucket a.table.records i :=
      mem_freeStamps.mpr ⟨c, hc, hi, hstate, hms⟩
    rcases hm.free i with ⟨hempty, -⟩ | ⟨hlast, hle⟩
    · rw [hempty] at hmem
      exact absurd hmem (Multiset.notMem_zero _)
    · refine ⟨?_, hle _ hmem⟩
      have hbound := h.stampedBy.freeStamps _ hlast
      have hpos : 0 < kNoTime := by decide
      omega

end Logged

/-! ## The parts of a frame -/

section Frame

variable {a b : HeapApp} {log : List HvEvent}

/-- What an event leaves in a cell as its last free. -/
theorem HeapApp.WellFormed.applyEvent_lastFree (hw : a.WellFormed) (e : HvEvent) (i : Nat) :
    ((a.applyEvent e).map.cells i).lastFreeMs =
      if e.isFree = true ∧ a.map.cellFor a.translation e.ptr = some i then
        bump (a.map.cells i).lastFreeMs (a.eventMs e.timestamp)
      else (a.map.cells i).lastFreeMs := by
  cases hfree : e.isFree with
  | false =>
      rw [(HeapApp.applyEvent_alloc hfree).1, if_neg (by simp)]
      exact (onAlloc_stamps i).1
  | true =>
      simp only [true_and]
      cases hlookup : a.table.lookup e.ptr with
      | none =>
          rw [(HeapApp.applyEvent_unknown hfree hlookup).1]
          exact (onFree_stamps i).2
      | some c =>
          have hkey := (hw.table.lookup_eq_some.mp hlookup).2
          have hcell : ((a.unrefined c).cells i).lastFreeMs = (a.map.cells i).lastFreeMs := by
            unfold HeapApp.unrefined
            split
            · exact refineOverhead_lastFree _ _ i
            · rfl
          rw [(HeapApp.applyEvent_known hfree hlookup hkey).1, (onFree_stamps i).2,
            a.unrefined_cellFor c, hcell]

/-- An event the map follows: it names an address, does the same to the cell
as to the table, and comes before the clock runs out. -/
def HeapApp.Follows (a : HeapApp) (e : HvEvent) : Prop :=
  e.ptr ≠ 0 ∧ a.MapSound e ∧ a.eventMs e.timestamp < kNoTime

theorem HeapApp.Watched.applyEvent (h : a.Watched log) {e : HvEvent} (he : a.Follows e) :
    (a.applyEvent e).Watched (log ++ [e]) := by
  obtain ⟨hptr, hsound, hlt⟩ := he
  refine ⟨h.toLogged.applyEvent hlt, h.counts.applyEvent h.wellFormed hptr hsound, ?_, ?_⟩
  · intro hmap
    rw [(a.applyEvent_frame e).1]
    refine h.hidden ?_
    rw [← hmap]
    unfold HeapApp.applyEvent
    dsimp only
    split
    · split <;> rfl
    · rfl
  · rw [a.applyEvent_cellFor e, HeapApp.eventMs_congr (a.applyEvent_originNs e)]
    exact h.frees.event hlt (h.wellFormed.applyEvent_lastFree e)

theorem HeapApp.Watched.apply (h : a.Watched log) {es : List HvEvent}
    (hg : Run.Guarded HeapApp.eventStep HeapApp.Follows a es) :
    (a.apply es).Watched (log ++ es) := by
  induction es generalizing a log with
  | nil =>
      rw [List.append_nil]
      exact h
  | cons e es ih =>
      have := ih (h.applyEvent hg.1) (hg.2 _ rfl)
      rwa [List.append_assoc] at this

theorem HeapApp.MapCounts.foldHeader (h : a.MapCounts) (hw : a.WellFormed) (c : Chunk)
    (info : HeapApp.ChunkInfo) : (a.foldHeader c info).MapCounts := by
  unfold HeapApp.foldHeader
  split_ifs
  · exact h
  · exact h
  · obtain ⟨hgrid, hcount, ht, htb⟩ := @refineOverhead_frame a.map a.translation c.key
      (overheadOf c.size c.usable) info.overhead
    have hcounts := h.congr (fun i => (refineOverhead_cell _ _ i).1)
      (fun i => (refineOverhead_cell _ _ i).2) ht htb
    rw [← cellFor_congr hgrid hcount] at hcounts
    exact hcounts.of_figures (hw.table.figures_markRefined ..)

theorem HeapApp.Watched.foldHeader (h : a.Watched log) (c : Chunk) (info : HeapApp.ChunkInfo) :
    (a.foldHeader c info).Watched log := by
  have hlogged := h.toLogged.of_records (h.wellFormed.foldHeader c info)
    (a.foldHeader_records c info)
  have hcounts := h.counts.foldHeader h.wellFormed c info
  unfold HeapApp.foldHeader at hlogged hcounts ⊢
  split_ifs at hlogged hcounts ⊢
  · exact h
  · exact h
  · obtain ⟨hgrid, hcount, -, -⟩ := @refineOverhead_frame a.map a.translation c.key
      (overheadOf c.size c.usable) info.overhead
    refine ⟨hlogged, hcounts, ?_, ?_⟩
    · intro hmap
      exact (congrArg Grid.valid hgrid).trans (h.hidden hmap)
    · refine h.frees.congr (fun i => refineOverhead_lastFree _ _ i) ?_
      intro ptr _
      exact congrFun (cellFor_congr hgrid hcount) ptr

/-- The same map, with every allocated address where it was. -/
theorem HeapApp.Watched.of_map (h : a.Watched log) (hb : b.Logged log) (hmap : b.map = a.map)
    (hlive : b.table.live = a.table.live) (hms : b.eventMs = a.eventMs)
    (hhidden : b.mapRegions = false → a.mapRegions = false)
    (hcells : ∀ ptr, Allocated log ptr →
      a.map.cellFor b.translation ptr = a.map.cellFor a.translation ptr) : b.Watched log := by
  refine ⟨hb, ?_, ?_, ?_⟩
  · unfold HeapApp.MapCounts
    rw [hmap, hlive]
    refine h.counts.congr_bucket ?_
    intro c hc
    exact hcells c.key (h.allocated (mem_live.mp hc).1)
  · intro hnone
    rw [hmap]
    exact h.hidden (hhidden hnone)
  · rw [hmap, hms]
    exact h.frees.congr (fun _ => rfl) hcells

theorem HeapApp.Watched.congr (h : a.Watched log) (htable : b.table = a.table)
    (hmap : b.map = a.map) (hset : b.mapRegions = a.mapRegions) (hregions : b.regions = a.regions)
    (horigin : b.originNs = a.originNs) : b.Watched log := by
  refine h.of_map (h.toLogged.congr htable hmap horigin) hmap (congrArg ChunkTable.live htable)
    (HeapApp.eventMs_congr horigin) (fun hnone => hset.symm.trans hnone) ?_
  intro ptr _
  rw [HeapApp.translation, hset, hregions]
  rfl

theorem HeapApp.Watched.enrich (h : a.Watched log) (reply : HeapApp.ReaderReply) :
    (a.enrich reply).Watched log :=
  HeapApp.enrich_induction reply (fun _ _ _ => h.congr rfl rfl rfl rfl rfl)
    fun _ c info hb => hb.foldHeader c info

/-- Setting the regions shows nothing that was not shown. -/
theorem HeapApp.Watched.cellFor_regions (h : a.Watched log) (ptr : Nat) :
    a.map.cellFor (some a.regions) ptr = a.map.cellFor a.translation ptr := by
  cases hmap : a.mapRegions with
  | true => rw [HeapApp.translation, if_pos hmap]
  | false =>
      have hnone : ∀ regions, a.map.cellFor regions ptr = none := by
        intro regions
        unfold HeatMap.cellFor HeatMap.indexFor
        cases coordinateOf regions ptr with
        | none => rfl
        | some coord => simp [Grid.indexOf, h.hidden hmap]
      rw [hnone, hnone]

/-- A rebuilt map sums up the log, whatever it was before. -/
theorem HeapApp.Logged.refit_moved (h : a.Logged log) (hvalid : a.fitted.valid = true)
    (hmoved : a.map.sameGeometry a.fitted = false) : a.refit.Watched log := by
  have hlogged := h.of_records h.wellFormed.refit a.refit_records
  have hcounts := (HeapApp.refit_moved_counts h.wellFormed hvalid hmoved).1
  rw [HeapApp.refit_moved hvalid hmoved] at hlogged hcounts ⊢
  refine ⟨hlogged, hcounts, fun hmap => absurd hmap.symm Bool.false_ne_true, ?_⟩
  have hw := h.wellFormed.configured
  have hstamps := rebuild_stamps (by decide) a.configured.map a.configured.translation h.stampedBy
  obtain ⟨hgrid, hcount⟩ :=
    rebuild_frame a.configured.map a.configured.translation a.configured.table
  rw [← cellFor_eq_indexFor hw.cells, ← cellFor_congr hgrid hcount] at hstamps
  exact h.lastFrees hstamps

theorem HeapApp.Watched.refit (h : a.Watched log) : a.refit.Watched log := by
  have hlogged := h.toLogged.of_records h.wellFormed.refit a.refit_records
  cases hvalid : a.fitted.valid with
  | false =>
      rw [HeapApp.refit_invalid hvalid] at hlogged ⊢
      exact h.of_map hlogged rfl rfl rfl (fun hmap => absurd hmap.symm Bool.false_ne_true)
        fun ptr _ => h.cellFor_regions ptr
  | true =>
      cases hsame : a.map.sameGeometry a.fitted with
      | false => exact h.toLogged.refit_moved hvalid hsame
      | true =>
          have hmap : a.configured.map = a.map := by
            simp only [HeapApp.configured, HeatMap.configure, hsame, if_true]
          rw [HeapApp.refit_same hvalid hsame] at hlogged ⊢
          exact h.of_map hlogged hmap rfl rfl (fun hmap => absurd hmap.symm Bool.false_ne_true)
            fun ptr _ => h.cellFor_regions ptr

theorem HeapApp.Watched.resized (h : a.Watched log) (w ht : Int) :
    (a.resized w ht).Watched log := by
  have hset : ({ a with
      width := w, height := ht, layout := solveLayout w ht, geometryDirty := true } :
      HeapApp).Watched log := h.congr rfl rfl rfl rfl rfl
  unfold HeapApp.resized
  dsimp only
  split_ifs
  · exact hset
  · exact hset.refit

/-! ## An update -/

/-- The refit of this state rebuilds the map. -/
def HeapApp.Rebuilds (a : HeapApp) : Prop :=
  (a.geometryDirty = true ∧ a.bounds.isEmpty = false ∧ a.width > 0) ∧
    a.fitted.valid = true ∧ a.map.sameGeometry a.fitted = false

/-- The scan of an update, as far as table, map and log are concerned: only the
regions can be others. -/
theorem HeapApp.scanned_session (a : HeapApp) (env : HeapApp.UpdateEnv) :
    (a.scanned env).1.mapRegions = a.mapRegions ∧ (a.scanned env).1.originNs = a.originNs := by
  have htick : (a.tick env).mapRegions = a.mapRegions ∧ (a.tick env).originNs = a.originNs := by
    unfold HeapApp.tick
    dsimp only
    split_ifs <;> exact ⟨rfl, rfl⟩
  unfold HeapApp.scanned HeapApp.rescan
  split_ifs
  · exact htick
  · exact htick

theorem HeapApp.Logged.scanned (h : a.Logged log) (env : HeapApp.UpdateEnv) :
    (a.scanned env).1.Logged log := by
  obtain ⟨hmap, htable, -⟩ := a.scanned_frame env
  exact h.congr htable hmap (a.scanned_session env).2

/-- An update keeps the summary if it rebuilds it, or if no address that was
allocated is shown in another cell than before. -/
theorem HeapApp.Watched.update (h : a.Watched log) (hpaused : a.paused = false)
    {env : HeapApp.UpdateEnv}
    (hcells : (a.scanned env).1.Rebuilds ∨ ∀ ptr, Allocated log ptr →
      a.map.cellFor (some (a.scanned env).1.regions) ptr = a.map.cellFor a.translation ptr) :
    (a.update env).Watched log := by
  have hlogged := h.toLogged.scanned env
  have hfit : (a.scanned env).1.refitDirty.Watched log := by
    unfold HeapApp.refitDirty
    rcases hcells with ⟨hdirty, hvalid, hmoved⟩ | hkeep
    · rw [if_pos hdirty]
      exact hlogged.refit_moved hvalid hmoved
    · obtain ⟨hmap, htable, -⟩ := a.scanned_frame env
      obtain ⟨hregions, horigin⟩ := a.scanned_session env
      have hscan : (a.scanned env).1.Watched log := by
        refine h.of_map hlogged hmap (congrArg ChunkTable.live htable)
          (HeapApp.eventMs_congr horigin) (fun hnone => hregions.symm.trans hnone) ?_
        intro ptr hptr
        cases hset : a.mapRegions with
        | true =>
            rw [HeapApp.translation, hregions, hset, if_pos rfl]
            exact hkeep ptr hptr
        | false => rw [HeapApp.translation, HeapApp.translation, hregions, hset]; rfl
      split_ifs
      · exact hscan.refit
      · exact hscan
  rw [HeapApp.update_eq hpaused]
  exact hfit.enrich env.reply

end Frame

/-! ## The panel beside the session -/

/-- The refresh is not put off. -/
def ChunkInspector.looks (ins : ChunkInspector) (map : HeatMap) (cur : MapCursor) (nowMs : Nat)
    (dirty : Bool) : Prop :=
  map.grid.valid = true ∧
    (cur.index map.grid ≠ ins.cell ∨ dirty = true ∨ sub32 nowMs ins.lastMs ≥ kInspectRefreshMs)

/-- The branch of `refresh` that answers without a scan. -/
def ChunkInspector.takesShortcut (ins : ChunkInspector) (map : HeatMap) (timings : HeatTimings)
    (cur : MapCursor) (nowMs : Nat) (dirty : Bool) : Prop :=
  ins.looks map cur nowMs dirty ∧
    ChunkInspector.possible map timings (cur.index map.grid) nowMs = false

section Refresh

variable {ins : ChunkInspector} {t : ChunkTable} {map : HeatMap} {regions : Option RegionMap}
  {timings : HeatTimings} {cur : MapCursor} {nowMs : Nat} {dirty : Bool}

/-- What a refresh that is not put off lists: nothing, or what a scan finds. -/
theorem ChunkInspector.refresh_looks (h : ins.looks map cur nowMs dirty) :
    ((ins.refresh t map regions timings cur nowMs dirty).1.total =
        if ChunkInspector.possible map timings (cur.index map.grid) nowMs = false then 0
        else (ins.rescan t map regions (cur.index map.grid)).total) ∧
      ((ins.refresh t map regions timings cur nowMs dirty).1.found =
        if ChunkInspector.possible map timings (cur.index map.grid) nowMs = false then []
        else (ins.rescan t map regions (cur.index map.grid)).found) := by
  obtain ⟨hvalid, hlook⟩ := h
  have hgo : (!decide (cur.index map.grid ≠ ins.cell) && !dirty &&
      !decide (sub32 nowMs ins.lastMs ≥ kInspectRefreshMs)) = false := by
    rcases hlook with hmoved | hdirty | hdue
    · simp [hmoved]
    · simp [hdirty]
    · simp [hdue]
  unfold ChunkInspector.refresh
  rw [if_neg (by simp [hvalid])]
  dsimp only
  rw [hgo, if_neg Bool.false_ne_true]
  by_cases hnone : ChunkInspector.possible map timings (cur.index map.grid) nowMs = false
  · rw [if_pos hnone, if_pos hnone, if_pos hnone]
    exact ⟨rfl, rfl⟩
  · rw [if_neg hnone, if_neg hnone, if_neg hnone]
    dsimp only
    rw [rescan_total, rescan_total, rescan_found, rescan_found]
    exact ⟨rfl, rfl⟩

end Refresh

inductive PanelAct where
  | app (x : HeapApp.AppAct)
  | refresh (cur : MapCursor) (dirty : Bool)
deriving Repr, DecidableEq

/-- The session, the events it has applied so far, and the panel. -/
structure PanelSys where
  app : HeapApp
  log : List HvEvent
  panel : ChunkInspector

namespace PanelSys

def init (attached unicode : Bool) (originNs : Nat) : PanelSys :=
  ⟨HeapApp.new attached unicode originNs, [], ChunkInspector.init⟩

/-- The panel after a refresh. -/
def refreshed (s : PanelSys) (cur : MapCursor) (dirty : Bool) : ChunkInspector :=
  (s.panel.refresh s.app.table s.app.map s.app.translation kDefaultTimings cur s.app.nowMs
    dirty).1

def step (s : PanelSys) : PanelAct → Option PanelSys
  | .app x => some { s with app := s.app.act x, log := s.log ++ s.app.appliedBy x }
  | .refresh cur dirty => some { s with panel := s.refreshed cur dirty }

/-- What a scan of the cursor's cell would leave in the panel. -/
def scan (s : PanelSys) (cur : MapCursor) : ChunkInspector :=
  s.panel.rescan s.app.table s.app.map s.app.translation (cur.index s.app.map.grid)

/-- A refresh that answers without a scan would have found nothing, so that
every refresh that is not put off lists what a scan finds. -/
def Agrees (s : PanelSys) : PanelAct → Prop
  | .refresh cur dirty =>
      (s.panel.takesShortcut s.app.map kDefaultTimings cur s.app.nowMs dirty →
        (s.scan cur).total = 0 ∧ (s.scan cur).found = []) ∧
      (s.panel.looks s.app.map cur s.app.nowMs dirty →
        (s.refreshed cur dirty).total = (s.scan cur).total ∧
          (s.refreshed cur dirty).found = (s.scan cur).found)
  | .app _ => True

/-- The cell of an address. -/
def cellOf (s : PanelSys) (ptr : Nat) : Option Nat := s.app.map.cellFor s.app.translation ptr

/-- The address was allocated, and its last event was an allocation or a free
that still fades. -/
def Shows (s : PanelSys) (ptr : Nat) : Prop :=
  Allocated s.log ptr ∧ ∃ e, lastEvent s.log ptr = some e ∧
    (e.isFree = true → s.app.nowMs < s.app.eventMs e.timestamp + fadeWindowMs)

/-- What the cheap answer goes by. Of a drain: every event it applies is one the
map follows. Of an update: it rebuilds the map, or no allocated address moves
to another cell. Of a refresh: no event is ahead of the clock, the cell's
count has not wrapped, and if there are allocated addresses in the cell, one
of them is live or still fading. -/
def Answerable (s : PanelSys) : PanelAct → Prop
  | .app (.drain queued) =>
      Run.Guarded HeapApp.eventStep HeapApp.Follows s.app (s.app.appliedBy (.drain queued))
  | .app (.update env) => s.app.paused = false →
      (s.app.scanned env).1.Rebuilds ∨ ∀ ptr, Allocated s.log ptr →
        s.app.map.cellFor (some (s.app.scanned env).1.regions) ptr = s.cellOf ptr
  | .app (.resized _ _) | .app .space => True
  | .refresh cur _ =>
      (∀ e ∈ s.log, s.app.eventMs e.timestamp ≤ s.app.nowMs) ∧
        (inCell s.cellOf s.app.table.live (cur.index s.app.map.grid)).card < 2 ^ 32 ∧
        ∀ ptr, Allocated s.log ptr → s.cellOf ptr = some (cur.index s.app.map.grid) →
          ∃ ptr', s.cellOf ptr' = some (cur.index s.app.map.grid) ∧ s.Shows ptr'

end PanelSys

structure PanelInv (s : PanelSys) : Prop where
  fade : FadeInv ⟨s.app, s.log⟩
  watched : s.app.Watched s.log

section Panel

variable {s s' : PanelSys}

theorem HeapApp.Watched.of_model {a b : HeapApp} {log : List HvEvent} (h : a.Watched log)
    (hb : b.model = a.model) : b.Watched log := by
  have htable : b.model.table = a.model.table := congrArg HeapApp.table hb
  have hmap : b.model.map = a.model.map := congrArg HeapApp.map hb
  have hset : b.model.mapRegions = a.model.mapRegions := congrArg HeapApp.mapRegions hb
  have hregions : b.model.regions = a.model.regions := congrArg HeapApp.regions hb
  have horigin : b.model.originNs = a.model.originNs := congrArg HeapApp.originNs hb
  exact h.congr htable hmap hset hregions horigin

theorem PanelInv.init (attached unicode : Bool) (originNs : Nat) :
    PanelInv (PanelSys.init attached unicode originNs) where
  fade := FadeInv.init attached unicode originNs
  watched := by
    have hsession := HeapApp.SessionInv.new attached unicode originNs
    refine ⟨⟨hsession.wellFormed, ⟨fun _ => none,
      (ChunkTable.Models.new 1024).same (HeapApp.new_table attached unicode originNs),
      FollowsLog.nil, fun _ _ hx => nomatch hx⟩, fun _ he => nomatch he⟩, ?_, fun _ => rfl, ?_⟩
    · unfold HeapApp.MapCounts
      rw [show (PanelSys.init attached unicode originNs).app.table.live = 0 from
        HeapApp.new_live attached unicode originNs]
      exact ⟨fun _ => rfl, fun _ => rfl, rfl, rfl⟩
    · exact ⟨fun _ hne => absurd rfl hne, fun _ _ _ he => nomatch he.mem⟩

/-- One step of the session, or of the panel beside it. -/
theorem PanelInv.step (h : PanelInv s) {x : PanelAct} (hx : s.Answerable x)
    (hstep : s.step x = some s') : PanelInv s' := by
  cases x with
  | refresh cur dirty =>
      obtain rfl := Option.some.inj hstep
      exact ⟨h.fade, h.watched⟩
  | app x =>
      obtain rfl := Option.some.inj hstep
      refine ⟨h.fade.step rfl, ?_⟩
      cases x with
      | drain queued =>
          obtain ⟨hmodel, -⟩ := HeapApp.drain_applied h.fade.backlog queued
          exact (h.watched.apply hx).of_model hmodel
      | resized w ht =>
          simp only [HeapApp.act, HeapApp.appliedBy, List.append_nil]
          exact h.watched.resized w ht
      | update env =>
          simp only [HeapApp.act, HeapApp.appliedBy, List.append_nil]
          cases hp : s.app.paused with
          | true =>
              rw [HeapApp.update, if_pos hp]
              exact h.watched
          | false => exact h.watched.update hp (hx hp)
      | space =>
          simp only [HeapApp.act, HeapApp.appliedBy, List.append_nil, HeapApp.keySpace]
          split_ifs
          · exact h.watched.of_model rfl
          · exact h.watched

/-- A live address of the cell is one the cell counts. -/
theorem PanelInv.occupied (h : PanelInv s) {cell ptr : Nat} {e : HvEvent}
    (hcard : (inCell s.cellOf s.app.table.live cell).card < 2 ^ 32)
    (halloc : Allocated s.log ptr) (hptr : s.cellOf ptr = some cell)
    (hlast : lastEvent s.log ptr = some e) (he : e.isFree = false) :
    cellOccupied (s.app.map.cells cell) = true := by
  obtain ⟨c, hc, rfl⟩ := h.watched.toLogged.live halloc hlast he
  have hmem : c ∈ inCell s.cellOf s.app.table.live cell := Multiset.mem_filter.mpr ⟨hc, hptr⟩
  have hcount : (s.app.map.cells cell).nLive = (inCell s.cellOf s.app.table.live cell).card := by
    rw [h.watched.counts.nLive cell]
    exact Nat.mod_eq_of_lt hcard
  have hpos := Multiset.card_pos_iff_exists_mem.mpr ⟨c, hmem⟩
  have hne : (s.app.map.cells cell).nLive ≠ 0 := by omega
  simp [cellOccupied, hne]

/-- An address of the cell that still fades keeps the cell animated. -/
theorem PanelInv.animating (h : PanelInv s) {cell ptr : Nat} {e : HvEvent}
    (hclock : ∀ x ∈ s.log, s.app.eventMs x.timestamp ≤ s.app.nowMs)
    (hptr : s.cellOf ptr = some cell) (he : FreedLast s.log ptr e)
    (hfade : s.app.nowMs < s.app.eventMs e.timestamp + fadeWindowMs) :
    cellAnimating (s.app.map.cells cell) kDefaultTimings s.app.nowMs = true := by
  obtain ⟨hne, hle⟩ := h.watched.frees.covers ptr e cell he hptr
  obtain ⟨x, hx, hlast⟩ := h.watched.frees.logged cell hne
  have hpast := hclock x hx
  have hspan : kDefaultTimings.freeSpan = fadeWindowMs := by decide
  have hwindow : fadeWindowMs < 2 ^ 32 := by decide
  have hage : sub32 s.app.nowMs (s.app.map.cells cell).lastFreeMs < fadeWindowMs := by
    unfold sub32
    omega
  unfold cellAnimating
  rw [Bool.or_eq_true, decide_eq_true_eq, decide_eq_true_eq]
  right
  rw [ageOf, if_neg hne, hspan]
  exact hage

/-- Behind the cheap answer there is nothing. -/
theorem PanelInv.inspected_empty (h : PanelInv s) {cur : MapCursor} {dirty : Bool}
    (hx : s.Answerable (.refresh cur dirty))
    (hnone : ChunkInspector.possible s.app.map kDefaultTimings (cur.index s.app.map.grid)
      s.app.nowMs = false) :
    s.app.table.inspected s.app.map s.app.translation (cur.index s.app.map.grid) = 0 := by
  obtain ⟨hclock, hcard, hshown⟩ := hx
  refine Multiset.eq_zero_of_forall_notMem ?_
  intro c hc
  obtain ⟨hmem, hc⟩ := Multiset.mem_filter.mp hc
  obtain ⟨-, -, hindex⟩ := of_decide_eq_true hc
  rw [← cellFor_eq_indexFor h.watched.wellFormed.cells] at hindex
  have hlt := cellFor_lt hindex
  obtain ⟨ptr, hptr, halloc, e, hlast, hfade⟩ := hshown c.key (h.watched.allocated hmem) hindex
  rw [ChunkInspector.possible, HeatMap.at, if_pos hlt, decide_eq_true hlt, Bool.true_and,
    Bool.or_eq_false_iff] at hnone
  cases he : e.isFree with
  | false =>
      have hoccupied := h.occupied hcard halloc hptr hlast he
      exact absurd (hnone.1.symm.trans hoccupied) Bool.false_ne_true
  | true =>
      have hanimating := h.animating hclock hptr ⟨halloc, hlast, he⟩ (hfade he)
      exact absurd (hnone.2.symm.trans hanimating) Bool.false_ne_true

theorem PanelInv.agrees (h : PanelInv s) {x : PanelAct} (hx : s.Answerable x) : s.Agrees x := by
  cases x with
  | app x => trivial
  | refresh cur dirty =>
      have hempty := fun hnone => rescan_empty (h.inspected_empty hx hnone) s.panel
      refine ⟨fun hshort => hempty hshort.2, ?_⟩
      intro hlooks
      obtain ⟨htotal, hfound⟩ := @ChunkInspector.refresh_looks _ s.app.table _ s.app.translation
        kDefaultTimings _ _ _ hlooks
      unfold PanelSys.refreshed PanelSys.scan
      rw [htotal, hfound]
      split_ifs with hnone
      · exact ⟨(hempty hnone).1.symm, (hempty hnone).2.symm⟩
      · exact ⟨rfl, rfl⟩

/-- A record of the cell is what the cheap answer must not hide. -/
theorem PanelSys.not_agrees {cur : MapCursor} {dirty : Bool}
    (hshort : s.panel.takesShortcut s.app.map kDefaultTimings cur s.app.nowMs dirty) {c : Chunk}
    (hc : c ∈ s.app.table.records) (hkey : c.key ≠ 0)
    (hcell : s.app.map.indexFor s.app.translation c.key = some (cur.index s.app.map.grid)) :
    ¬ s.Agrees (.refresh cur dirty) := by
  intro h
  have htotal := (h.1 hshort).1
  rw [PanelSys.scan, rescan_total] at htotal
  have hin : c ∈ s.app.table.inspected s.app.map s.app.translation
      (cur.index s.app.map.grid) :=
    Multiset.mem_filter.mpr ⟨hc, decide_eq_true ⟨state_ne_empty hc, hkey, hcell⟩⟩
  rw [Multiset.card_eq_zero.mp htotal] at hin
  exact Multiset.notMem_zero c hin

/-- **The cheap answer is the scan's.** In every session - any events, any
schedule of drains, resizes, pauses, updates and refreshes, the cursor
anywhere - each of whose steps is answerable: whenever a refresh answers
without a scan, the scan would have found nothing, and whatever a refresh
lists is what the scan would list. -/
theorem shortcut_agrees (attached unicode : Bool) (originNs : Nat) (acts : List PanelAct)
    (hg : Run.Guarded PanelSys.step PanelSys.Answerable (PanelSys.init attached unicode originNs)
      acts) :
    Run.Guarded PanelSys.step PanelSys.Agrees (PanelSys.init attached unicode originNs) acts :=
  hg.imp (fun _ _ _ hs hx hstep => hs.step hx hstep) (fun _ _ hs hx => hs.agrees hx)
    (PanelInv.init attached unicode originNs)

end Panel

/-! ## A chunk behind the cheap answer

One page, and one chunk on it, freed as soon as it was allocated. Three seconds
later its cell is empty and dark, and the table still has the record. -/

/-- Without records a rebuild clears the map. -/
theorem rebuild_of_empty {t : ChunkTable} (ht : t.records = 0) (m : HeatMap)
    (regions : Option RegionMap) : m.rebuild regions t = m.cleared := by
  have hslots : ∀ c ∈ (List.range t.capacity).map t.slots, c.state = .empty := by
    intro c hc
    obtain ⟨i, hi, rfl⟩ := List.mem_map.mp hc
    by_contra hfull
    have hmem : t.slots i ∈ t.records :=
      mem_contents_of_full (List.mem_range.mp hi) (full_iff.mpr hfull)
    rw [ht] at hmem
    exact Multiset.notMem_zero _ hmem
  have hfold : ∀ cs : List Chunk, (∀ c ∈ cs, c.state = .empty) →
      cs.foldl (HeatMap.rebuildSlot regions) m.cleared = m.cleared := by
    intro cs hcs
    induction cs with
    | nil => rfl
    | cons c cs ih =>
        have hskip : m.cleared.rebuildSlot regions c = m.cleared := by
          rw [HeatMap.rebuildSlot, if_pos (hcs c (List.mem_cons_self ..))]
        rw [List.foldl_cons, hskip]
        exact ih fun d hd => hcs d (List.mem_cons_of_mem c hd)
  unfold HeatMap.rebuild
  split_ifs
  · rfl
  · exact hfold _ hslots

/-- The first page as it is shown, with nothing on it. -/
def blankPage : HeapApp :=
  { firstScan with
    mapRegions := true
    grid := firstScan.fitted
    map := (firstScan.map.configure firstScan.fitted).1.cleared
    table := firstScan.table.clearRefined
    refined := 0
    exactOverhead := 0
    geometryDirty := false }

theorem onePage_blank : onePage = blankPage := by
  have hempty : firstScan.configured.table.records = 0 :=
    (HeapApp.new_table true true 0).records.trans (records_of_empty fun _ _ => rfl)
  rw [onePage_eq, HeapApp.refit_moved (by decide) (by decide), HeapApp.rebuildMap,
    rebuild_of_empty hempty]
  rfl

/-- One chunk of the page, allocated and freed. -/
def spentEvents : List HvEvent := [eventAt 0x1100 .malloc, eventAt 0x1100 .free]

def spentPage : PanelSys := ⟨(blankPage.drain spentEvents).1, spentEvents, ChunkInspector.init⟩

def pageActs : List PanelAct := [.app (.resized 80 24), .app (.update (scanOf [(0x1000, 0x2000)]))]

theorem pageActs_run :
    Run.run PanelSys.step (PanelSys.init true true 0) pageActs =
      some ⟨blankPage, [], ChunkInspector.init⟩ := by
  rw [← onePage_blank]
  rfl

theorem spentPage_run :
    Run.run PanelSys.step (PanelSys.init true true 0) (pageActs ++ [.app (.drain spentEvents)]) =
      some spentPage := by
  refine Run.run_concat.mpr ⟨_, pageActs_run, ?_⟩
  have hlog : blankPage.appliedBy (.drain spentEvents) = spentEvents := by decide
  simp only [PanelSys.step, hlog, List.nil_append]
  rfl

/-- All of the session up to there is answerable. -/
theorem spentPage_guarded :
    Run.Guarded PanelSys.step PanelSys.Answerable (PanelSys.init true true 0)
      (pageActs ++ [.app (.drain spentEvents)]) := by
  have hpage : Run.Guarded PanelSys.step PanelSys.Answerable (PanelSys.init true true 0)
      pageActs := by
    refine ⟨trivial, fun s hs => ⟨fun _ => .inr ?_, fun _ _ => trivial⟩⟩
    obtain rfl := Option.some.inj hs
    rintro ptr ⟨-, e, he, -⟩
    exact absurd he (List.not_mem_nil)
  refine hpage.extend pageActs_run ⟨?_, fun _ _ => trivial⟩
  have hlog : blankPage.appliedBy (.drain spentEvents) = spentEvents := by decide
  simp only [PanelSys.Answerable, hlog]
  refine ⟨⟨by decide, by decide +kernel, by decide +kernel⟩, fun s hs => ⟨?_, fun _ _ => trivial⟩⟩
  obtain rfl := Option.some.inj hs
  exact ⟨by decide, by decide +kernel, by decide +kernel⟩

theorem spentPage_inv : PanelInv spentPage :=
  Run.guarded_invariant (fun _ _ _ hs hx hstep => hs.step hx hstep) (PanelInv.init true true 0)
    spentPage_guarded spentPage_run

/-- The chunk is the only address there is. -/
theorem allocated_spent {ptr : Nat} (h : Allocated spentEvents ptr) : ptr = 0x1100 := by
  obtain ⟨-, e, he, rfl, -⟩ := h
  rcases List.mem_pair.mp he with rfl | rfl <;> rfl

/-- In another cell of the page the cheap answer is right. -/
theorem shortcut_agrees_elsewhere :
    spentPage.panel.takesShortcut spentPage.app.map kDefaultTimings ⟨0x800⟩ spentPage.app.nowMs
        true ∧
      (spentPage.scan ⟨0x800⟩).total = 0 ∧ (spentPage.scan ⟨0x800⟩).found = [] := by
  have hshort : spentPage.panel.takesShortcut spentPage.app.map kDefaultTimings ⟨0x800⟩
      spentPage.app.nowMs true :=
    ⟨⟨by decide +kernel, .inr (.inl rfl)⟩, by decide +kernel⟩
  have hcell : MapCursor.index ⟨0x800⟩ spentPage.app.map.grid = 32 := by decide +kernel
  have hanswer : spentPage.Answerable (.refresh ⟨0x800⟩ true) := by
    refine ⟨by decide +kernel, ?_, ?_⟩
    · have hle : inCell spentPage.cellOf spentPage.app.table.live
          (MapCursor.index ⟨0x800⟩ spentPage.app.map.grid) ≤ spentPage.app.table.records :=
        (Multiset.filter_le _ _).trans (Multiset.filter_le _ _)
      refine (Multiset.card_le_card hle).trans_lt ?_
      rw [← spentPage_inv.watched.wellFormed.table.size_eq]
      decide +kernel
    · intro ptr hptr hat
      rw [allocated_spent hptr, hcell] at hat
      exact absurd hat (by decide +kernel)
  have hg : Run.Guarded PanelSys.step PanelSys.Answerable (PanelSys.init true true 0)
      (pageActs ++ [.app (.drain spentEvents)] ++ [.refresh ⟨0x800⟩ true]) :=
    spentPage_guarded.extend spentPage_run ⟨hanswer, fun _ _ => trivial⟩
  obtain ⟨-, hlast⟩ := (shortcut_agrees true true 0 _ hg).append spentPage_run
  exact ⟨hshort, hlast.1.1 hshort⟩

/-- Three seconds in, with the same page, and headers that may not be read. -/
def threeSeconds : HeapApp.UpdateEnv :=
  ⟨3 * 10 ^ 9, false, .lines [some ⟨0x1000, 0x2000, .anon, false⟩], ⟨.denied, []⟩⟩

theorem HeapApp.enrich_denied (a : HeapApp) {reply : HeapApp.ReaderReply}
    (hreply : reply.status = .denied) :
    ∃ (last cursor : Nat) (denied : Bool), a.enrich reply =
      { a with enrichLastMs := last, enrichCursor := cursor, readerDenied := denied } := by
  have hnone : (a.enrichBegin reply).2 = [] := by
    unfold HeapApp.enrichBegin
    split
    · rfl
    · split
      · rfl
      · dsimp only
        split
        · rfl
        · rw [if_pos (Or.inl hreply)]
  obtain ⟨last, cursor, denied, heq⟩ := a.enrichBegin_eq reply
  refine ⟨last, cursor, denied, ?_⟩
  have hfold : a.enrich reply =
      (a.enrichBegin reply).2.foldl (fun a p => a.foldHeader p.1 p.2)
        (a.enrichBegin reply).1 := rfl
  rw [hfold, hnone, heq, List.foldl_nil]

/-- An update without a refit, and without headers, is its scan. -/
theorem HeapApp.update_denied {a : HeapApp} {env : HeapApp.UpdateEnv} (hpaused : a.paused = false)
    (hclean : (a.scanned env).1.geometryDirty = false) (hreply : env.reply.status = .denied) :
    (a.update env).table = a.table ∧ (a.update env).map = a.map ∧
      (a.update env).translation = (a.scanned env).1.translation ∧
      (a.update env).nowMs = (a.scanned env).1.nowMs := by
  have hstay : (a.scanned env).1.refitDirty = (a.scanned env).1 := by
    unfold HeapApp.refitDirty
    rw [if_neg (by rw [hclean]; exact fun h => Bool.false_ne_true h.1)]
  obtain ⟨hmap, htable, -⟩ := a.scanned_frame env
  obtain ⟨last, cursor, denied, henrich⟩ := HeapApp.enrich_denied (a.scanned env).1 hreply
  rw [HeapApp.update_eq hpaused, hstay, henrich]
  exact ⟨htable, hmap, rfl, rfl⟩

theorem spentPage_record : ∃ c ∈ spentPage.app.table.records, c.key = 0x1100 := by
  have hsome : Allocated spentPage.log 0x1100 :=
    ⟨by decide, eventAt 0x1100 .malloc, List.mem_cons_self .., rfl, by decide⟩
  obtain ⟨c, hc⟩ :=
    Option.isSome_iff_exists.mp ((spentPage_inv.watched.lookup_isSome 0x1100).mpr hsome)
  exact ⟨c, spentPage_inv.watched.wellFormed.table.lookup_eq_some.mp hc⟩

/-- The cell is empty and dark, but a scan of it finds the chunk. -/
theorem shortcut_hides_freed :
    ¬ Run.Guarded PanelSys.step PanelSys.Agrees (PanelSys.init true true 0)
      (pageActs ++ [.app (.drain spentEvents)] ++
        [.app (.update threeSeconds), .refresh ⟨0x100⟩ true]) := by
  intro hg
  obtain ⟨-, -, hlast⟩ := hg.append spentPage_run
  have hagree := (hlast _ rfl).1
  simp only [HeapApp.act] at hagree
  obtain ⟨htable, hmap, hregions, hnow⟩ := @HeapApp.update_denied spentPage.app threeSeconds
    (by decide +kernel) (by decide +kernel) rfl
  obtain ⟨c, hc, hkey⟩ := spentPage_record
  rw [← htable] at hc
  refine absurd hagree (PanelSys.not_agrees ?_ hc ?_ ?_)
  · dsimp only
    rw [hmap, hnow]
    exact ⟨⟨by decide +kernel, .inr (.inl rfl)⟩, by decide +kernel⟩
  · rw [hkey]; decide
  · dsimp only
    rw [hmap, hregions, hkey]
    decide +kernel

end Heapviz
