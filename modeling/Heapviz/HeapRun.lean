import Heapviz.HeapAgree

/-!
# Runs of the session

Everything a session does between two frames - draining, resizing,
updating, pausing - as steps, and what all of them keep: the state is
well-formed, and the layout is the one solved for the current size.

Enrichment is the one part of a frame that writes table and map outside
the event path. It touches marks and overhead only, so it disappears
under `figures`, what the counters read of a chunk.
-/

namespace Heapviz

open ChunkTable

/-! ## What the counters read of a chunk -/

/-- Address and usable size of every chunk. -/
def figures (L : Multiset Chunk) : Multiset (Nat × Nat) := L.map fun c => (c.key, c.usable)

theorem card_inCell_figures (bucket : Nat → Option Nat) (L : Multiset Chunk) (i : Nat) :
    (inCell bucket L i).card = ((figures L).filter fun p => bucket p.1 = some i).card := by
  rw [figures, Multiset.filter_map, Multiset.card_map]
  rfl

theorem total_inCell_figures (bucket : Nat → Option Nat) (L : Multiset Chunk) (i : Nat) :
    total Chunk.usable (inCell bucket L i) =
      (((figures L).filter fun p => bucket p.1 = some i).map Prod.snd).sum := by
  rw [figures, Multiset.filter_map, Multiset.map_map]
  rfl

theorem card_onMap_figures (bucket : Nat → Option Nat) (L : Multiset Chunk) :
    (onMap bucket L).card = ((figures L).filter fun p => (bucket p.1).isSome = true).card := by
  rw [figures, Multiset.filter_map, Multiset.card_map]
  rfl

theorem total_onMap_figures (bucket : Nat → Option Nat) (L : Multiset Chunk) :
    total Chunk.usable (onMap bucket L) =
      (((figures L).filter fun p => (bucket p.1).isSome = true).map Prod.snd).sum := by
  rw [figures, Multiset.filter_map, Multiset.map_map]
  rfl

theorem Counts.of_figures {bucket : Nat → Option Nat} {m : HeatMap} {L L' : Multiset Chunk}
    (h : Counts bucket m L) (heq : figures L' = figures L) : Counts bucket m L' := by
  refine ⟨?_, ?_, ?_, ?_⟩
  · intro i
    rw [h.nLive, card_inCell_figures, card_inCell_figures, heq]
  · intro i
    rw [h.liveBytes, total_inCell_figures, total_inCell_figures, heq]
  · rw [h.totalLive, card_onMap_figures, card_onMap_figures, heq]
  · rw [h.totalLiveBytes, total_onMap_figures, total_onMap_figures, heq]

theorem live_clearRefined (t : ChunkTable) :
    t.clearRefined.live = t.live.map Chunk.unrefine := by
  unfold ChunkTable.live liveOf
  rw [records_clearRefined, Multiset.filter_map]
  rfl

theorem figures_clearRefined (t : ChunkTable) : figures t.clearRefined.live = figures t.live := by
  rw [live_clearRefined, figures, figures, Multiset.map_map]
  rfl

theorem TableInv.figures_markRefined {t : ChunkTable} (hI : TableInv t)
    (key exactOverhead headerFlags : Nat) :
    figures (t.markRefined key exactOverhead headerFlags).1.live = figures t.live := by
  rcases hI.markRefined key exactOverhead headerFlags with ⟨-, heq⟩ | ⟨-, hrew, -, -, -⟩
  · rw [heq]
  · obtain ⟨c, -, -, hrec⟩ := hrew
    have hlive : liveOf (c ::ₘ (t.markRefined key exactOverhead headerFlags).1.records) =
        liveOf (c.refine exactOverhead headerFlags ::ₘ t.records) := congrArg liveOf hrec
    by_cases hst : c.state = .live
    · rw [liveOf_cons_live _ hst,
        liveOf_cons_live (c := c.refine exactOverhead headerFlags) _ hst] at hlive
      have hfig := congrArg figures hlive
      simp only [figures, Multiset.map_cons] at hfig
      exact (Multiset.cons_inj_right _).mp hfig
    · rw [liveOf_cons_dead _ hst,
        liveOf_cons_dead (c := c.refine exactOverhead headerFlags) _ hst] at hlive
      exact congrArg figures hlive

/-! ## Parts of a frame -/

section Frame

variable {a : HeapApp}

theorem HeapApp.WellFormed.apply (hw : a.WellFormed) (events : List HvEvent) :
    (a.apply events).WellFormed := by
  induction events generalizing a with
  | nil => exact hw
  | cons e events ih => exact ih (hw.applyEvent e)

theorem HeapApp.WellFormed.foldHeader (hw : a.WellFormed) (c : Chunk) (info : HeapApp.ChunkInfo) :
    (a.foldHeader c info).WellFormed := by
  unfold HeapApp.foldHeader
  split_ifs with hvalid hmark
  · exact hw
  · exact hw
  · rcases hw.table.markRefined c.key info.overhead info.header with
      ⟨-, heq⟩ | ⟨-, -, -, hinv, hpol⟩
    · rw [heq] at hmark
      exact absurd rfl hmark
    · obtain ⟨hgrid, hcount, -, -⟩ := @refineOverhead_frame a.map a.translation c.key
        (overheadOf c.size c.usable) info.overhead
      exact ⟨hinv, hpol.maxEntries.trans hw.unbounded,
        hcount.trans (hw.cells.trans (congrArg Grid.cellCount hgrid.symm))⟩

/-- Two maps that count the same chunks the same way show the same counters. -/
theorem Counts.unique {bucket : Nat → Option Nat} {m m' : HeatMap} {L : Multiset Chunk}
    (h : Counts bucket m L) (h' : Counts bucket m' L) :
    (∀ i, (m.cells i).nLive = (m'.cells i).nLive ∧
      (m.cells i).liveBytes = (m'.cells i).liveBytes) ∧
      m.totalLive = m'.totalLive ∧ m.totalLiveBytes = m'.totalLiveBytes :=
  ⟨fun i => ⟨(h.nLive i).trans (h'.nLive i).symm, (h.liveBytes i).trans (h'.liveBytes i).symm⟩,
    h.totalLive.trans h'.totalLive.symm, h.totalLiveBytes.trans h'.totalLiveBytes.symm⟩

/-- A state with the same counters agrees as well when whatever counts the
first table's chunks counts the second's. -/
theorem HeapApp.MapAgrees.congr {b : HeapApp} (h : a.MapAgrees) (hw : a.WellFormed)
    (hwb : b.WellFormed) (hcount : b.map.cellCount = a.map.cellCount)
    (hcell : ∀ i, (b.map.cells i).nLive = (a.map.cells i).nLive ∧
      (b.map.cells i).liveBytes = (a.map.cells i).liveBytes)
    (ht : b.map.totalLive = a.map.totalLive) (htb : b.map.totalLiveBytes = a.map.totalLiveBytes)
    (hsums : ∀ m, Counts (a.map.cellFor a.translation) m a.table.live →
      Counts (b.map.cellFor b.translation) m b.table.live) : b.MapAgrees := by
  obtain ⟨hcells, htotal, hbytes⟩ := (hsums _ hw.rebuild_counts).unique hwb.rebuild_counts
  refine ⟨fun i hi => ⟨?_, ?_⟩, ?_, ?_⟩
  · rw [(hcell i).1, (h.1 i (hcount ▸ hi)).1, (hcells i).1]
  · rw [(hcell i).2, (h.1 i (hcount ▸ hi)).2, (hcells i).2]
  · rw [ht, h.2.1, htotal]
  · rw [htb, h.2.2, hbytes]

theorem HeapApp.MapAgrees.foldHeader (h : a.MapAgrees) (hw : a.WellFormed) (c : Chunk)
    (info : HeapApp.ChunkInfo) : (a.foldHeader c info).MapAgrees := by
  have hwb := hw.foldHeader c info
  unfold HeapApp.foldHeader at hwb ⊢
  split_ifs at hwb ⊢
  · exact h
  · exact h
  · obtain ⟨hgrid, hcount, ht, htb⟩ := @refineOverhead_frame a.map a.translation c.key
      (overheadOf c.size c.usable) info.overhead
    refine h.congr hw hwb hcount (fun i => refineOverhead_cell _ _ i) ht htb ?_
    intro m hm
    rw [← cellFor_congr hgrid hcount] at hm
    exact hm.of_figures (hw.table.figures_markRefined ..)

/-- `b` shows the same memory the same way: nothing that decides where a chunk
is drawn has moved. -/
structure HeapApp.SameView (a b : HeapApp) : Prop where
  grid : b.grid = a.grid
  translation : b.translation = a.translation
  regions : b.regions = a.regions
  bounds : b.bounds = a.bounds
  width : b.width = a.width
  height : b.height = a.height
  layout : b.layout = a.layout

theorem HeapApp.SameView.trans {b c : HeapApp} (h : a.SameView b) (h' : b.SameView c) :
    a.SameView c :=
  ⟨h'.grid.trans h.grid, h'.translation.trans h.translation, h'.regions.trans h.regions,
    h'.bounds.trans h.bounds, h'.width.trans h.width, h'.height.trans h.height,
    h'.layout.trans h.layout⟩

theorem HeapApp.foldHeader_view (a : HeapApp) (c : Chunk) (info : HeapApp.ChunkInfo) :
    a.SameView (a.foldHeader c info) := by
  unfold HeapApp.foldHeader
  split_ifs <;> exact ⟨rfl, rfl, rfl, rfl, rfl, rfl, rfl⟩

theorem HeapApp.foldHeader_grid (a : HeapApp) (c : Chunk) (info : HeapApp.ChunkInfo) :
    (a.foldHeader c info).map.grid = a.map.grid := by
  unfold HeapApp.foldHeader
  split_ifs
  · rfl
  · rfl
  · exact (refineOverhead_frame ..).1

/-- Before it folds, an enrichment pass moves its own cursor, timer and
permission. -/
theorem HeapApp.enrichBegin_eq (a : HeapApp) (reply : HeapApp.ReaderReply) :
    ∃ (last cursor : Nat) (denied : Bool), (a.enrichBegin reply).1 =
      { a with enrichLastMs := last, enrichCursor := cursor, readerDenied := denied } := by
  unfold HeapApp.enrichBegin
  split
  · exact ⟨_, _, _, rfl⟩
  · split
    · exact ⟨_, _, _, rfl⟩
    · dsimp only
      split
      · exact ⟨_, _, _, rfl⟩
      · split
        · exact ⟨_, _, _, rfl⟩
        · exact ⟨_, _, _, rfl⟩

theorem HeapApp.foldHeaders_induction {P : HeapApp → Prop}
    (hfold : ∀ b c info, P b → P (b.foldHeader c info))
    (ps : List (Chunk × HeapApp.ChunkInfo)) (h : P a) :
    P (ps.foldl (fun a p => a.foldHeader p.1 p.2) a) := by
  induction ps generalizing a with
  | nil => exact h
  | cons p ps ih => exact ih (hfold a p.1 p.2 h)

/-- What every folded header keeps, and no cursor or timer disturbs, an
enrichment pass keeps. -/
theorem HeapApp.enrich_induction {P : HeapApp → Prop} (reply : HeapApp.ReaderReply)
    (hset : ∀ last cursor denied,
      P { a with enrichLastMs := last, enrichCursor := cursor, readerDenied := denied })
    (hfold : ∀ b c info, P b → P (b.foldHeader c info)) : P (a.enrich reply) := by
  obtain ⟨last, cursor, denied, heq⟩ := a.enrichBegin_eq reply
  have hbegin : P (a.enrichBegin reply).1 := by
    rw [heq]
    exact hset last cursor denied
  exact HeapApp.foldHeaders_induction hfold _ hbegin

theorem HeapApp.WellFormed.enrich (hw : a.WellFormed) (reply : HeapApp.ReaderReply) :
    (a.enrich reply).WellFormed :=
  HeapApp.enrich_induction reply (fun _ _ _ => ⟨hw.table, hw.unbounded, hw.cells⟩)
    fun _ c info hb => hb.foldHeader c info

theorem HeapApp.enrich_view (a : HeapApp) (reply : HeapApp.ReaderReply) :
    a.SameView (a.enrich reply) :=
  HeapApp.enrich_induction reply (fun _ _ _ => ⟨rfl, rfl, rfl, rfl, rfl, rfl, rfl⟩)
    fun b c info hb => hb.trans (b.foldHeader_view c info)

theorem HeapApp.enrich_grid (a : HeapApp) (reply : HeapApp.ReaderReply) :
    (a.enrich reply).map.grid = a.map.grid :=
  HeapApp.enrich_induction (P := fun b => b.map.grid = a.map.grid) reply (fun _ _ _ => rfl)
    fun b c info hb => (b.foldHeader_grid c info).trans hb

/-- Agreement survives an enrichment pass. -/
theorem HeapApp.MapAgrees.enrich (h : a.MapAgrees) (hw : a.WellFormed)
    (reply : HeapApp.ReaderReply) : (a.enrich reply).MapAgrees := by
  have hboth : (a.enrich reply).WellFormed ∧ (a.enrich reply).MapAgrees :=
    HeapApp.enrich_induction (P := fun b => b.WellFormed ∧ b.MapAgrees) reply
      (fun _ _ _ => ⟨⟨hw.table, hw.unbounded, hw.cells⟩, h⟩)
      fun b c info hb => ⟨hb.1.foldHeader c info, hb.2.foldHeader hb.1 c info⟩
  exact hboth.2

/-! ## Geometry -/

theorem rebuild_frame (m : HeatMap) (regions : Option RegionMap) (t : ChunkTable) :
    (m.rebuild regions t).grid = m.grid ∧ (m.rebuild regions t).cellCount = m.cellCount := by
  have hslot : ∀ (m : HeatMap) (c : Chunk),
      (m.rebuildSlot regions c).cellCount = m.cellCount := fun m c => by
    unfold HeatMap.rebuildSlot
    split
    · rfl
    · split
      · rfl
      · split <;> rfl
  have hfold : ∀ (slots : List Chunk) (m : HeatMap),
      (slots.foldl (HeatMap.rebuildSlot regions) m).grid = m.grid ∧
        (slots.foldl (HeatMap.rebuildSlot regions) m).cellCount = m.cellCount := by
    intro slots
    induction slots with
    | nil => exact fun m => ⟨rfl, rfl⟩
    | cons c slots ih =>
        exact fun m => ⟨(ih _).1.trans (rebuildSlot_grid regions m c), (ih _).2.trans (hslot m c)⟩
  unfold HeatMap.rebuild
  split
  · exact ⟨rfl, rfl⟩
  · exact hfold _ m.cleared

theorem HeapApp.WellFormed.rebuildMap (hw : a.WellFormed) : a.rebuildMap.WellFormed := by
  obtain ⟨hgrid, hcount⟩ := rebuild_frame a.map a.translation a.table
  exact ⟨hw.table.clearRefined, hw.unbounded,
    hcount.trans (hw.cells.trans (congrArg Grid.cellCount hgrid.symm))⟩

/-- A rebuilt map counts what the table holds. -/
theorem HeapApp.WellFormed.rebuildMap_counts (hw : a.WellFormed) : a.rebuildMap.MapCounts := by
  obtain ⟨hgrid, hcount⟩ := rebuild_frame a.map a.translation a.table
  have hcounts := hw.rebuild_counts
  rw [← cellFor_congr hgrid hcount] at hcounts
  exact hcounts.of_figures (figures_clearRefined a.table)

/-- The state `refit` hands to the map: the grid fitted, the regions set. -/
def HeapApp.configured (a : HeapApp) : HeapApp :=
  { a with mapRegions := true, grid := a.fitted, map := (a.map.configure a.fitted).1 }

theorem HeapApp.WellFormed.configured (hw : a.WellFormed) : a.configured.WellFormed :=
  ⟨hw.table, hw.unbounded, HeatMap.configure_cells hw.cells a.fitted⟩

theorem HeapApp.refit_invalid (h : a.fitted.valid = false) :
    a.refit = { a with mapRegions := true, grid := a.fitted } := by
  simp only [HeapApp.refit, h, if_true]

theorem HeapApp.refit_same (h : a.fitted.valid = true)
    (hsame : a.map.sameGeometry a.fitted = true) :
    a.refit = { a.configured with geometryDirty := false } := by
  simp [HeapApp.refit, HeapApp.configured, HeatMap.configure, h, hsame]

theorem HeapApp.refit_moved (h : a.fitted.valid = true)
    (hmoved : a.map.sameGeometry a.fitted = false) :
    a.refit = { a.configured.rebuildMap with geometryDirty := false } := by
  simp [HeapApp.refit, HeapApp.configured, HeatMap.configure, h, hmoved]

theorem HeapApp.WellFormed.refit (hw : a.WellFormed) : a.refit.WellFormed := by
  cases hvalid : a.fitted.valid with
  | false =>
      rw [HeapApp.refit_invalid hvalid]
      exact ⟨hw.table, hw.unbounded, hw.cells⟩
  | true =>
      cases hsame : a.map.sameGeometry a.fitted with
      | true =>
          rw [HeapApp.refit_same hvalid hsame]
          exact ⟨hw.table, hw.unbounded, hw.configured.cells⟩
      | false =>
          rw [HeapApp.refit_moved hvalid hsame]
          have hr := hw.configured.rebuildMap
          exact ⟨hr.table, hr.unbounded, hr.cells⟩

/-- What `refit` leaves alone, and the grid it leaves. -/
theorem HeapApp.refit_frame (a : HeapApp) :
    a.refit.grid = a.fitted ∧ a.refit.translation = some a.regions ∧
      a.refit.regions = a.regions ∧ a.refit.bounds = a.bounds ∧ a.refit.width = a.width ∧
      a.refit.height = a.height ∧ a.refit.layout = a.layout := by
  cases hvalid : a.fitted.valid with
  | false =>
      rw [HeapApp.refit_invalid hvalid]
      exact ⟨rfl, rfl, rfl, rfl, rfl, rfl, rfl⟩
  | true =>
      cases hsame : a.map.sameGeometry a.fitted with
      | true =>
          rw [HeapApp.refit_same hvalid hsame]
          exact ⟨rfl, rfl, rfl, rfl, rfl, rfl, rfl⟩
      | false =>
          rw [HeapApp.refit_moved hvalid hsame]
          exact ⟨rfl, rfl, rfl, rfl, rfl, rfl, rfl⟩

/-! ## Draining -/

theorem HeapApp.applyEvent_view (a : HeapApp) (e : HvEvent) : a.SameView (a.applyEvent e) := by
  unfold HeapApp.applyEvent
  dsimp only
  split
  · split <;> exact ⟨rfl, rfl, rfl, rfl, rfl, rfl, rfl⟩
  · exact ⟨rfl, rfl, rfl, rfl, rfl, rfl, rfl⟩

theorem HeapApp.apply_induction {P : HeapApp → Prop} (hstep : ∀ b e, P b → P (b.applyEvent e))
    (events : List HvEvent) (h : P a) : P (a.apply events) := by
  induction events generalizing a with
  | nil => exact h
  | cons e events ih => exact ih (hstep a e h)

/-- What every event keeps, and neither the staging area nor the counter
disturbs, a call of `drain` keeps up to its read of the ring. -/
theorem HeapApp.drainPlan_induction {P : HeapApp → Prop}
    (hset : ∀ b staged head n, P b →
      P { b with staged := staged, stagedHead := head, events := n })
    (hstep : ∀ b e, P b → P (b.applyEvent e)) (h : P a) : P a.drainPlan.1 := by
  have hreplay : P a.replay.1 := by
    unfold HeapApp.replay
    dsimp only
    split_ifs
    · exact h
    · exact hset _ _ _ _ (HeapApp.apply_induction hstep _ h)
    · exact hset _ _ _ _ (HeapApp.apply_induction hstep _ h)
  unfold HeapApp.drainPlan
  dsimp only
  split_ifs
  · exact h
  · exact h
  · exact hreplay
  · exact hset _ _ _ _ hreplay

theorem HeapApp.drainFinish_induction {P : HeapApp → Prop}
    (hset : ∀ b staged head n, P b →
      P { b with staged := staged, stagedHead := head, events := n })
    (hstep : ∀ b e, P b → P (b.applyEvent e)) (batch : List HvEvent) (plan : HeapApp.DrainPlan)
    (h : P a) : P (a.drainFinish batch plan).1 := by
  cases plan with
  | done applied => exact h
  | stage => exact hset _ _ _ _ h
  | take applied room => exact hset _ _ _ _ (HeapApp.apply_induction hstep batch h)

theorem HeapApp.drain_induction {P : HeapApp → Prop}
    (hset : ∀ b staged head n, P b →
      P { b with staged := staged, stagedHead := head, events := n })
    (hstep : ∀ b e, P b → P (b.applyEvent e)) (queued : List HvEvent) (h : P a) :
    P (a.drain queued).1 :=
  HeapApp.drainFinish_induction hset hstep _ _ (HeapApp.drainPlan_induction hset hstep h)

/-! ## Whole runs -/

/-- What holds of a session at all times. -/
structure HeapApp.SessionInv (a : HeapApp) : Prop where
  wellFormed : a.WellFormed
  layout : a.layout = solveLayout a.width a.height

theorem HeapApp.SessionInv.of_view {b : HeapApp} (h : a.SessionInv) (hb : b.WellFormed)
    (hview : a.SameView b) : b.SessionInv :=
  ⟨hb, by rw [hview.layout, hview.width, hview.height]; exact h.layout⟩

theorem HeapApp.SessionInv.new (attached unicode : Bool) (originNs : Nat) :
    (HeapApp.new attached unicode originNs).SessionInv where
  wellFormed :=
    ⟨(HeapApp.new_table attached unicode originNs).inv,
      (HeapApp.new_table attached unicode originNs).policy.maxEntries, rfl⟩
  layout := rfl

theorem HeapApp.SessionInv.refit (h : a.SessionInv) : a.refit.SessionInv := by
  obtain ⟨-, -, -, -, hwidth, hheight, hlayout⟩ := a.refit_frame
  exact ⟨h.wellFormed.refit, by rw [hlayout, hwidth, hheight]; exact h.layout⟩

theorem HeapApp.SessionInv.resized (h : a.SessionInv) (w ht : Int) :
    (a.resized w ht).SessionInv := by
  have hset : ({ a with
      width := w, height := ht, layout := solveLayout w ht, geometryDirty := true } :
      HeapApp).SessionInv := ⟨⟨h.wellFormed.table, h.wellFormed.unbounded, h.wellFormed.cells⟩, rfl⟩
  unfold HeapApp.resized
  dsimp only
  split_ifs
  · exact hset
  · exact hset.refit

theorem HeapApp.SessionInv.rescan (h : a.SessionInv) (env : HeapApp.UpdateEnv) :
    ((a.tick env).rescan env).1.SessionInv := by
  have htick : (a.tick env).SessionInv := by
    unfold HeapApp.tick
    dsimp only
    split_ifs
    · exact ⟨⟨h.wellFormed.table, h.wellFormed.unbounded, h.wellFormed.cells⟩, h.layout⟩
    · exact ⟨⟨h.wellFormed.table, h.wellFormed.unbounded, h.wellFormed.cells⟩, h.layout⟩
  unfold HeapApp.rescan
  split_ifs
  · exact ⟨⟨htick.wellFormed.table, htick.wellFormed.unbounded, htick.wellFormed.cells⟩,
      htick.layout⟩
  · exact htick

theorem HeapApp.SessionInv.enrich (h : a.SessionInv) (reply : HeapApp.ReaderReply) :
    (a.enrich reply).SessionInv :=
  h.of_view (h.wellFormed.enrich reply) (a.enrich_view reply)

theorem HeapApp.SessionInv.refitDirty (h : a.SessionInv) : a.refitDirty.SessionInv := by
  unfold HeapApp.refitDirty
  split_ifs
  · exact h.refit
  · exact h

theorem HeapApp.SessionInv.drain (h : a.SessionInv) (queued : List HvEvent) :
    (a.drain queued).1.SessionInv := by
  refine HeapApp.drain_induction ?_ ?_ queued h
  · intro b _ _ _ hb
    exact ⟨⟨hb.wellFormed.table, hb.wellFormed.unbounded, hb.wellFormed.cells⟩, hb.layout⟩
  · intro b e hb
    exact hb.of_view (hb.wellFormed.applyEvent e) (b.applyEvent_view e)

/-- Nothing that happens to a session breaks its invariant. -/
theorem HeapApp.SessionInv.act (h : a.SessionInv) (x : HeapApp.AppAct) : (a.act x).SessionInv := by
  cases x with
  | drain queued => exact h.drain queued
  | resized w ht => exact h.resized w ht
  | update env =>
      simp only [HeapApp.act, HeapApp.update]
      split_ifs
      · exact h
      · exact (h.rescan env).refitDirty.enrich env.reply
  | space =>
      simp only [HeapApp.act, HeapApp.keySpace]
      split_ifs
      · exact ⟨⟨h.wellFormed.table, h.wellFormed.unbounded, h.wellFormed.cells⟩, h.layout⟩
      · exact h

end Frame

end Heapviz
