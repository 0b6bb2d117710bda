import Heapviz.HeapRun

/-!
# Do the cells follow the packing?

A scan can move the packed layout: a region grew, came or went, and every
chunk behind it now has another flat offset. `update` answers by marking
the geometry dirty, "only a full rebuild fixes that". Whether one happens
is decided by `HeatMap::configure`, which compares grids. The grid knows
how long the packed space is, and that only through the cell size, a
power of two; it does not know what is packed where. So:

- when the fitted grid differs from the map's, the map is rebuilt and the
  cells follow (`refit_moved`);
- when it does not, nothing is rebuilt. The map stays right only if it was
  right and no live chunk changed its cell.

`cells_follow_packing` says that over whole sessions; the run after it
shows a chunk of a newly scanned region that stays missing.
-/

namespace Heapviz

open ChunkTable

section Repack

variable {a : HeapApp} {env : HeapApp.UpdateEnv}

/-- The state an update has after its scan, and whether the layout moved. -/
def HeapApp.scanned (a : HeapApp) (env : HeapApp.UpdateEnv) : HeapApp × Bool :=
  (a.tick env).rescan env

/-- What a new map on the same grid and regions makes of the table. -/
def HeapApp.freshMap (a : HeapApp) : HeatMap :=
  (HeatMap.init.configure a.map.grid).1.rebuild (some a.regions) a.table

/-- The map shows what a new one would. -/
def HeapApp.CellsFollow (a : HeapApp) : Prop :=
  a.map.cellCount = a.freshMap.cellCount ∧
    (∀ i < a.map.cellCount, (a.map.cells i).nLive = (a.freshMap.cells i).nLive ∧
      (a.map.cells i).liveBytes = (a.freshMap.cells i).liveBytes) ∧
    a.map.totalLive = a.freshMap.totalLive ∧
    a.map.totalLiveBytes = a.freshMap.totalLiveBytes

/-- An update whose scan moves the layout either gets a new grid, or finds a
map that agrees with the table and moves no live chunk to another cell. -/
def HeapApp.Rebuckets (a : HeapApp) : HeapApp.AppAct → Prop
  | .update env =>
      a.paused = false → (a.scanned env).2 = true → (a.scanned env).1.fitted.valid = true →
        a.map.sameGeometry (a.scanned env).1.fitted = false ∨
          (a.MapAgrees ∧ ∀ c ∈ a.table.live,
            a.map.cellFor (some (a.scanned env).1.regions) c.key =
              a.map.cellFor a.translation c.key)
  | _ => True

/-! ## The grid an update fits -/

theorem configure_valid {base limit : Nat} {cols rows : Int} (hspan : base < limit)
    (hcols : 0 < cols) (hrows : 0 < rows) : (Grid.configure base limit cols rows).valid = true := by
  unfold Grid.configure
  rw [if_neg (by omega)]

theorem configure_bounds (base limit : Nat) (cols rows : Int) :
    (Grid.configure base limit cols rows).base = base ∧
      (Grid.configure base limit cols rows).limit = limit := by
  unfold Grid.configure
  split_ifs <;> exact ⟨rfl, rfl⟩

theorem mapLayout_pos {area cells : Rect} {legend : Bool} (h : mapLayout area legend = some cells) :
    0 < cells.w ∧ 0 < cells.h := by
  unfold mapLayout at h
  split at h
  · cases h
  · simp only [Option.ite_none_right_eq_some, Option.some.injEq] at h
    obtain ⟨hpos, rfl⟩ := h
    exact hpos

/-- Something to show and room to show it in make a valid grid. -/
theorem HeapApp.fitted_valid (hbounds : a.bounds.isEmpty = false)
    (hlayout : mapLayout a.layout.map a.layout.legend ≠ none) : a.fitted.valid = true := by
  obtain ⟨cells, hcells⟩ := Option.ne_none_iff_exists'.mp hlayout
  obtain ⟨hw, hh⟩ := mapLayout_pos hcells
  obtain ⟨hbase, hlimit⟩ := configure_bounds a.bounds.base a.bounds.limit a.grid.cols a.grid.rows
  simp only [HeapApp.fitted, fitGrid, hcells, Grid.setViewport, Grid.setBounds, hbase, hlimit]
  refine configure_valid ?_ hw ?_
  · simpa [AddrRange.isEmpty] using hbounds
  · split <;> omega

/-- A layout with room for the map belongs to a window with a width. -/
theorem solveLayout_width {w h : Int}
    (hlayout : mapLayout (solveLayout w h).map (solveLayout w h).legend ≠ none) : 0 < w := by
  by_contra hw
  refine hlayout ?_
  rw [solveLayout, if_pos (.inl (not_lt.mp hw))]
  rfl

theorem HeapApp.scanned_frame (a : HeapApp) (env : HeapApp.UpdateEnv) :
    (a.scanned env).1.map = a.map ∧ (a.scanned env).1.table = a.table ∧
      ((a.scanned env).2 = true → (a.scanned env).1.geometryDirty = true) := by
  have htick : (a.tick env).map = a.map ∧ (a.tick env).table = a.table := by
    unfold HeapApp.tick
    dsimp only
    split_ifs <;> exact ⟨rfl, rfl⟩
  unfold HeapApp.scanned HeapApp.rescan
  split_ifs
  · refine ⟨htick.1, htick.2, fun hmoved => ?_⟩
    exact Bool.or_eq_true_iff.mpr (.inr hmoved)
  · exact ⟨htick.1, htick.2, fun hmoved => by cases hmoved⟩

/-! ## One update -/

/-- A new map counts the table's chunks where the old grid has them. -/
theorem HeapApp.freshMap_counts (hw : a.WellFormed) (hvalid : a.map.grid.valid = true) :
    Counts (a.map.indexFor (some a.regions)) a.freshMap a.table.live ∧
      a.freshMap.cellCount = a.map.cellCount := by
  have hdiff : HeatMap.init.sameGeometry a.map.grid = false := by
    simp [HeatMap.sameGeometry, HeatMap.init, Grid.init, hvalid]
  have hgrid : (HeatMap.init.configure a.map.grid).1.grid = a.map.grid := by
    simp [HeatMap.configure, hdiff]
  have hcount : (HeatMap.init.configure a.map.grid).1.cellCount = a.map.grid.cellCount := by
    simp [HeatMap.configure, hdiff]
  constructor
  · rw [← indexFor_congr hgrid]
    exact (rebuild_sums _ _ _).1
  · rw [hw.cells, ← hcount]
    exact (rebuild_frame _ _ _).2

/-- A map that agrees with the table, over a valid grid and through the
current regions, is what a new one would be. -/
theorem HeapApp.MapAgrees.follow (h : a.MapAgrees) (hw : a.WellFormed)
    (htr : a.translation = some a.regions) (hvalid : a.map.grid.valid = true) :
    a.CellsFollow := by
  obtain ⟨hfresh, hcount⟩ := HeapApp.freshMap_counts hw hvalid
  have hrebuild := hw.rebuild_counts
  rw [cellFor_eq_indexFor hw.cells, htr] at hrebuild
  obtain ⟨hcells, htotal, hbytes⟩ := hrebuild.unique hfresh
  rw [← htr] at hcells htotal hbytes
  refine ⟨hcount.symm, fun i hi => ⟨?_, ?_⟩, ?_, ?_⟩
  · rw [(h.1 i hi).1, (hcells i).1]
  · rw [(h.1 i hi).2, (hcells i).2]
  · rw [h.2.1, htotal]
  · rw [h.2.2, hbytes]

/-- Chunks that keep their cells are counted as before. -/
theorem Counts.congr_bucket {bucket bucket' : Nat → Option Nat} {m : HeatMap}
    {L : Multiset Chunk} (h : Counts bucket m L)
    (hb : ∀ c ∈ L, bucket' c.key = bucket c.key) : Counts bucket' m L := by
  have hcell : ∀ i, inCell bucket' L i = inCell bucket L i := fun i =>
    Multiset.filter_congr fun c hc => by rw [hb c hc]
  have hmap : onMap bucket' L = onMap bucket L :=
    Multiset.filter_congr fun c hc => by rw [hb c hc]
  refine ⟨?_, ?_, ?_, ?_⟩
  · intro i
    rw [hcell]; exact h.nLive i
  · intro i
    rw [hcell]; exact h.liveBytes i
  · rw [hmap]; exact h.totalLive
  · rw [hmap]; exact h.totalLiveBytes

/-- A refit that finds a new grid counts the table anew on it. -/
theorem HeapApp.refit_moved_counts (hw : a.WellFormed) (hvalid : a.fitted.valid = true)
    (hmoved : a.map.sameGeometry a.fitted = false) :
    a.refit.MapCounts ∧ a.refit.map.grid = a.fitted ∧
      figures a.refit.table.live = figures a.table.live := by
  have hgrid : a.configured.map.grid = a.fitted := by
    simp [HeapApp.configured, HeatMap.configure, hmoved]
  rw [HeapApp.refit_moved hvalid hmoved]
  exact ⟨hw.configured.rebuildMap_counts, (rebuild_frame _ _ _).1.trans hgrid,
    figures_clearRefined a.table⟩

/-- One that finds the old grid leaves the map as it was: right if it was
right for the old regions and no live chunk has moved. -/
theorem HeapApp.refit_same_agrees {b : HeapApp} (h : a.MapAgrees) (hw : a.WellFormed)
    (hwb : b.WellFormed) (hmap : b.map = a.map) (htable : b.table = a.table)
    (hvalid : b.fitted.valid = true) (hsame : b.map.sameGeometry b.fitted = true)
    (hkeep : ∀ c ∈ a.table.live,
      a.map.cellFor (some b.regions) c.key = a.map.cellFor a.translation c.key) :
    b.refit.MapAgrees ∧ b.refit.map.grid.valid = true := by
  have hwr := hwb.refit
  have hmap' : b.configured.map = a.map := by
    simp only [HeapApp.configured, HeatMap.configure, hsame, if_true]
    exact hmap
  rw [HeapApp.refit_same hvalid hsame] at hwr ⊢
  constructor
  · refine h.congr hw hwr (congrArg HeatMap.cellCount hmap') ?_
      (congrArg HeatMap.totalLive hmap') (congrArg HeatMap.totalLiveBytes hmap') ?_
    · intro i
      exact ⟨congrArg (fun m => (m.cells i).nLive) hmap',
        congrArg (fun m => (m.cells i).liveBytes) hmap'⟩
    · intro m hm
      rw [← htable] at hm hkeep
      refine hm.congr_bucket ?_
      intro c hc
      exact (congrArg (fun m => m.cellFor (some b.regions) c.key) hmap').trans (hkeep c hc)
  · have hgrid : b.map.grid.valid = b.fitted.valid := by
      simp only [HeatMap.sameGeometry, Bool.and_eq_true, beq_iff_eq] at hsame
      exact hsame.1.1.1.1.1
    refine (congrArg (fun m => m.grid.valid) (hmap'.trans hmap.symm)).trans ?_
    exact hgrid.trans hvalid

/-- An unpaused update is scan, refit and enrichment. -/
theorem HeapApp.update_eq (hpaused : a.paused = false) (env : HeapApp.UpdateEnv) :
    a.update env = (a.scanned env).1.refitDirty.enrich env.reply := by
  simp only [HeapApp.update, hpaused, Bool.false_eq_true, if_false, HeapApp.scanned]

/-- Neither refit nor enrichment moves what the scan left as bounds and layout. -/
theorem HeapApp.update_frame (hpaused : a.paused = false) (env : HeapApp.UpdateEnv) :
    (a.update env).bounds = (a.scanned env).1.bounds ∧
      (a.update env).layout = (a.scanned env).1.layout := by
  have hview := (a.scanned env).1.refitDirty.enrich_view env.reply
  have hkeep : (a.scanned env).1.refitDirty.bounds = (a.scanned env).1.bounds ∧
      (a.scanned env).1.refitDirty.layout = (a.scanned env).1.layout := by
    unfold HeapApp.refitDirty
    split_ifs
    · obtain ⟨-, -, -, hbounds, -, -, hlayout⟩ := (a.scanned env).1.refit_frame
      exact ⟨hbounds, hlayout⟩
    · exact ⟨rfl, rfl⟩
  rw [HeapApp.update_eq hpaused]
  exact ⟨hview.bounds.trans hkeep.1, hview.layout.trans hkeep.2⟩

/-- Behind a moved layout, with something to show and room for it, the refit is
not left out. -/
theorem HeapApp.update_eq_refit (h : a.SessionInv) (hpaused : a.paused = false)
    (hmoved : (a.scanned env).2 = true) (hbounds : (a.scanned env).1.bounds.isEmpty = false)
    (hlayout : mapLayout (a.scanned env).1.layout.map (a.scanned env).1.layout.legend ≠ none) :
    a.update env = (a.scanned env).1.refit.enrich env.reply ∧
      (a.scanned env).1.fitted.valid = true := by
  have hb : (a.scanned env).1.SessionInv := h.rescan env
  have hdirty := (a.scanned_frame env).2.2 hmoved
  have hvalid := HeapApp.fitted_valid hbounds hlayout
  have hwidth : (a.scanned env).1.width > 0 := by
    rw [hb.layout] at hlayout
    exact solveLayout_width hlayout
  refine ⟨?_, hvalid⟩
  rw [HeapApp.update_eq hpaused, HeapApp.refitDirty, if_pos ⟨hdirty, hbounds, hwidth⟩]

/-- The update proper: behind a moved layout the map shows what a new one
would. -/
theorem HeapApp.update_follows (h : a.SessionInv) (hcond : a.Rebuckets (.update env))
    (hpaused : a.paused = false) (hmoved : (a.scanned env).2 = true)
    (hbounds : (a.update env).bounds.isEmpty = false)
    (hlayout : mapLayout (a.update env).layout.map (a.update env).layout.legend ≠ none) :
    (a.update env).CellsFollow := by
  obtain ⟨hsameBounds, hsameLayout⟩ := HeapApp.update_frame hpaused env
  rw [hsameBounds] at hbounds
  rw [hsameLayout] at hlayout
  obtain ⟨hupdate, hvalid⟩ := HeapApp.update_eq_refit h hpaused hmoved hbounds hlayout
  have hb : (a.scanned env).1.SessionInv := h.rescan env
  obtain ⟨hmap, htable, -⟩ := a.scanned_frame env
  have hfit : (a.scanned env).1.refit.MapAgrees ∧
      (a.scanned env).1.refit.map.grid.valid = true := by
    cases hsame : (a.scanned env).1.map.sameGeometry (a.scanned env).1.fitted with
    | false =>
        obtain ⟨hcounts, hgrid, -⟩ := HeapApp.refit_moved_counts hb.wellFormed hvalid hsame
        exact ⟨hcounts.agrees hb.wellFormed.refit, hgrid ▸ hvalid⟩
    | true =>
        rcases hcond hpaused hmoved hvalid with hgrid | ⟨hagree, hcells⟩
        · rw [← hmap, hsame] at hgrid
          cases hgrid
        · exact HeapApp.refit_same_agrees hagree h.wellFormed hb.wellFormed hmap htable hvalid
            hsame hcells
  have hwr := hb.wellFormed.refit
  have hview := (a.scanned env).1.refit.enrich_view env.reply
  obtain ⟨-, htr, hregions, -⟩ := (a.scanned env).1.refit_frame
  rw [hupdate]
  refine (hfit.1.enrich hwr env.reply).follow (hwr.enrich env.reply) ?_ ?_
  · rw [hview.translation, htr, hview.regions, hregions]
  · rw [HeapApp.enrich_grid]
    exact hfit.2

/-! ## Whole sessions -/

/-- **The cells follow the packing.** In every session, whatever is drained,
scanned, resized and paused, as long as updates that move the layout get
a new grid or have nothing to move: after each update that moved the
layout and has something to show, every cell and both totals are those
of a new map. -/
theorem cells_follow_packing (attached unicode : Bool) (originNs : Nat)
    (acts : List HeapApp.AppAct)
    (hg : Run.Guarded HeapApp.actStep HeapApp.Rebuckets
      (HeapApp.new attached unicode originNs) acts) :
    ∀ as env bs a, acts = as ++ .update env :: bs →
      Run.run HeapApp.actStep (HeapApp.new attached unicode originNs) as = some a →
      a.paused = false → (a.scanned env).2 = true → (a.update env).bounds.isEmpty = false →
      mapLayout (a.update env).layout.map (a.update env).layout.legend ≠ none →
      (a.update env).CellsFollow := by
  intro as env bs a heq hrun hpaused hmoved hbounds hlayout
  have hinv : a.SessionInv :=
    Run.run_invariant (fun s x s' hs hs' => Option.some.inj hs' ▸ hs.act x)
      (HeapApp.SessionInv.new attached unicode originNs) hrun
  exact HeapApp.update_follows hinv (Run.guarded_iff.mp hg as _ bs a heq hrun) hpaused hmoved
    hbounds hlayout

end Repack

/-- The maps file, read a tenth of a second after the session began, says
that these anonymous regions are there. -/
def scanOf (ranges : List (Nat × Nat)) : HeapApp.UpdateEnv :=
  ⟨100000000, false, .lines (ranges.map fun r => some ⟨r.1, r.2, .anon, false⟩), ⟨.ok, []⟩⟩

/-- A window, and a chunk allocated before the first scan: the scan brings
it in. -/
theorem cells_follow_packing_first_scan :
    (((HeapApp.new true true 0).resized 80 24 |>.drain
      [eventAt 0x1100 .malloc]).1.update (scanOf [(0x1000, 0x2000)])).CellsFollow := by
  have hg : Run.Guarded HeapApp.actStep HeapApp.Rebuckets (HeapApp.new true true 0)
      [.resized 80 24, .drain [eventAt 0x1100 .malloc], .update (scanOf [(0x1000, 0x2000)])] := by
    refine ⟨trivial, fun s1 h1 => ⟨trivial, fun s2 h2 =>
      ⟨fun _ _ _ => .inl ?_, fun _ _ => trivial⟩⟩⟩
    obtain rfl := Option.some.inj h1
    obtain rfl := Option.some.inj h2
    decide
  exact cells_follow_packing true true 0 _ hg
    [.resized 80 24, .drain [eventAt 0x1100 .malloc]] (scanOf [(0x1000, 0x2000)]) [] _ rfl rfl
    (by decide) (by decide) (by decide) (by decide)

/-! ## A chunk that stays missing

One page is scanned and shown, then a chunk is allocated on another page.
The scan that finds the second page doubles the packed space, which is
still far below what the grid's smallest cells can show: same grid. -/

/-- A window whose update is about to show the first page. -/
def firstScan : HeapApp :=
  (((HeapApp.new true true 0).resized 80 24).scanned (scanOf [(0x1000, 0x2000)])).1

def onePage : HeapApp :=
  ((HeapApp.new true true 0).resized 80 24).update (scanOf [(0x1000, 0x2000)])

/-- The chunk on the second page has been allocated. -/
def twoPages : HeapApp := (onePage.drain [eventAt 0x10000 .malloc]).1

/-- On the old grid, a map that counts nothing goes on counting nothing. -/
theorem HeapApp.refit_same_missing {a : HeapApp} (hw : a.WellFormed)
    (hvalid : a.fitted.valid = true) (hsame : a.map.sameGeometry a.fitted = true)
    (hzero : a.map.totalLive = 0) {c : Chunk} (hc : c ∈ a.table.live)
    (hshown : (a.map.indexFor (some a.regions) c.key).isSome = true) : ¬ a.refit.CellsFollow := by
  intro hfollow
  have hwr := hw.refit
  have hmap : a.refit.map = a.map := by
    rw [HeapApp.refit_same hvalid hsame]
    simp only [HeapApp.configured, HeatMap.configure, hsame, if_true]
  have htable : a.refit.table = a.table := by
    rw [HeapApp.refit_same hvalid hsame]
    rfl
  have hgrid : a.map.grid.valid = a.fitted.valid := by
    simp only [HeatMap.sameGeometry, Bool.and_eq_true, beq_iff_eq] at hsame
    exact hsame.1.1.1.1.1
  obtain ⟨hfresh, -⟩ := HeapApp.freshMap_counts hwr (by rw [hmap, hgrid, hvalid])
  have htotal := hfollow.2.2.1.trans hfresh.totalLive
  rw [hmap, hzero, htable, a.refit_frame.2.2.1] at htotal
  have hmem : c ∈ onMap (a.map.indexFor (some a.regions)) a.table.live :=
    Multiset.mem_filter.mpr ⟨hc, hshown⟩
  rw [Multiset.card_eq_zero.mp htotal.symm] at hmem
  exact Multiset.notMem_zero c hmem

theorem HeapApp.enrich_early {a : HeapApp} (reply : HeapApp.ReaderReply)
    (h : sub32 a.nowMs a.enrichLastMs < kEnrichIntervalMs) : a.enrich reply = a := by
  simp only [HeapApp.enrich, HeapApp.enrichBegin, if_pos h, ite_self, List.foldl_nil]

theorem onePage_eq : onePage = firstScan.refit := by
  obtain ⟨hupdate, -⟩ := @HeapApp.update_eq_refit _ (scanOf [(0x1000, 0x2000)])
    ((HeapApp.SessionInv.new true true 0).resized 80 24)
    (by decide) (by decide) (by decide) (by decide)
  exact hupdate.trans (HeapApp.enrich_early _ (by decide))

theorem onePage_wellFormed : onePage.WellFormed :=
  (((HeapApp.SessionInv.new true true 0).act (.resized 80 24)).act
    (.update (scanOf [(0x1000, 0x2000)]))).wellFormed

/-- The first page is shown, and it is empty. -/
theorem onePage_shows :
    onePage.MapCounts ∧ onePage.map.grid = firstScan.fitted ∧ onePage.table.live = 0 := by
  have hinv : firstScan.SessionInv := ((HeapApp.SessionInv.new true true 0).resized 80 24).rescan _
  obtain ⟨hcounts, hgrid, hfig⟩ := HeapApp.refit_moved_counts hinv.wellFormed
    (by decide) (by decide)
  rw [onePage_eq]
  refine ⟨hcounts, hgrid, ?_⟩
  have hlive : firstScan.table.live = 0 := HeapApp.new_live true true 0
  rw [hlive] at hfig
  exact Multiset.map_eq_zero.mp hfig

/-- A drain with nothing staged applies what it takes from the ring. -/
theorem HeapApp.drain_unstaged {a : HeapApp} (hattached : a.attached = true)
    (hpaused : a.paused = false) (hstaged : a.staged = []) (queued : List HvEvent) :
    (a.drain queued).1.map = (a.apply (queued.take kMaxEventsPerFrame)).map := by
  have hreplay : a.replay = (a, 0) := by simp [HeapApp.replay, hstaged]
  have hplan : a.drainPlan = (a, .take 0 kMaxEventsPerFrame) := by
    simp [HeapApp.drainPlan, hattached, hpaused, hreplay, hstaged, kMaxEventsPerFrame]
  simp only [HeapApp.drain, hplan, HeapApp.DrainPlan.request, HeapApp.drainFinish]

theorem twoPages_inv : twoPages.SessionInv :=
  (((HeapApp.SessionInv.new true true 0).resized 80 24).act
    (.update (scanOf [(0x1000, 0x2000)]))).drain _

/-- The chunk is on no page the map shows. -/
theorem twoPages_map : twoPages.map = onePage.map := by
  have hnone : coordinateOf onePage.translation (eventAt 0x10000 .malloc).ptr = none := by
    decide
  refine (HeapApp.drain_unstaged (by decide) (by decide) (by decide)
    _).trans ?_
  refine (HeapApp.applyEvent_alloc (a := onePage) (e := eventAt 0x10000 .malloc) rfl).1.trans ?_
  simp only [HeatMap.onAlloc, HeatMap.cellFor, HeatMap.indexFor, hnone, Option.bind_none,
    Option.filter_none]

theorem twoPages_live : ∃ c ∈ twoPages.table.live, c.key = 0x10000 := by
  have hat : (twoPages.table.liveAt 0x10000).map Chunk.key = some 0x10000 := by decide +kernel
  obtain ⟨c, hc, hkey⟩ := Option.map_eq_some_iff.mp hat
  obtain ⟨hlookup, hlive⟩ := liveAt_eq_some.mp hc
  exact ⟨c, mem_live.mpr ⟨(twoPages_inv.wellFormed.table.lookup_eq_some.mp hlookup).1, hlive⟩, hkey⟩

/-- Both pages. -/
def secondScan : HeapApp.UpdateEnv := scanOf [(0x1000, 0x2000), (0x10000, 0x11000)]

theorem twoPages_run :
    Run.run HeapApp.actStep (HeapApp.new true true 0)
      [.resized 80 24, .update (scanOf [(0x1000, 0x2000)]),
        .drain [eventAt 0x10000 .malloc]] = some twoPages := by
  simp only [Run.run, HeapApp.actStep, HeapApp.act]
  rfl

/-- The map still has the first page's grid, and counts nothing. -/
theorem secondScan_map :
    (twoPages.scanned secondScan).1.map.grid = firstScan.fitted ∧
      (twoPages.scanned secondScan).1.map.totalLive = 0 ∧
      (twoPages.scanned secondScan).1.map.sameGeometry (twoPages.scanned secondScan).1.fitted =
        true := by
  obtain ⟨hcounts, hgrid, hempty⟩ := onePage_shows
  rw [(twoPages.scanned_frame secondScan).1, twoPages_map]
  refine ⟨hgrid, ?_, ?_⟩
  · rw [hcounts.totalLive, hempty]
    rfl
  · simp only [HeatMap.sameGeometry, onePage_wellFormed.cells, hgrid]
    decide

/-- The scan that brings the second page in moves the layout, and the chunk on
it is not counted. -/
theorem chunk_missing_after_repack :
    Run.run HeapApp.actStep (HeapApp.new true true 0)
        [.resized 80 24, .update (scanOf [(0x1000, 0x2000)]),
          .drain [eventAt 0x10000 .malloc]] = some twoPages ∧
      twoPages.paused = false ∧ (twoPages.scanned secondScan).2 = true ∧
      (twoPages.update secondScan).bounds.isEmpty = false ∧
      mapLayout (twoPages.update secondScan).layout.map
        (twoPages.update secondScan).layout.legend ≠ none ∧
      ¬ (twoPages.update secondScan).CellsFollow := by
  have hpaused : twoPages.paused = false := by decide
  have hmoved : (twoPages.scanned secondScan).2 = true := by decide
  obtain ⟨hbounds, hlayout⟩ := HeapApp.update_frame hpaused secondScan
  rw [hbounds, hlayout]
  have hsome : (twoPages.scanned secondScan).1.bounds.isEmpty = false := by decide
  have hroom : mapLayout (twoPages.scanned secondScan).1.layout.map
      (twoPages.scanned secondScan).1.layout.legend ≠ none := by decide
  refine ⟨twoPages_run, hpaused, hmoved, hsome, hroom, fun hfollow => ?_⟩
  obtain ⟨hgrid, hzero, hsame⟩ := secondScan_map
  obtain ⟨hupdate, hvalid⟩ :=
    HeapApp.update_eq_refit twoPages_inv hpaused hmoved hsome hroom
  have hearly : (twoPages.scanned secondScan).1.refit.enrich secondScan.reply =
      (twoPages.scanned secondScan).1.refit :=
    HeapApp.enrich_early _ (by rw [HeapApp.refit_same hvalid hsame]; decide)
  rw [hupdate, hearly] at hfollow
  obtain ⟨c, hc, hkey⟩ := twoPages_live
  rw [← (twoPages.scanned_frame secondScan).2.1] at hc
  have hinv : (twoPages.scanned secondScan).1.SessionInv := twoPages_inv.rescan secondScan
  refine HeapApp.refit_same_missing hinv.wellFormed hvalid hsame hzero hc ?_ hfollow
  simp only [HeatMap.indexFor, hgrid, hkey]
  decide

end Heapviz
