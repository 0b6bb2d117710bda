import Heapviz.Grid
import Heapviz.Intervals

/-!
# Packing is a bijection

`RegionMap::rebuild` lays the allocatable, non-empty regions of a scan end to
end, writing over the spans of the scan before. What comes out does not depend
on what was there: `layout` is the packing as a function of the kept regions,
and `repackLoop_eq` says that the loop computes it and compares it with the old
spans on the way.

Spans of a layout ascend twice, by address and by packed offset, so both
binary searches are the `Intervals.search` of an ascending list
(`spanAtAddr_eq_some`, `spanAtFlat_eq_some`). `to_flat` and `to_addr` are then
the same relation between an address and an offset, read in two directions.

`packing_bijective` collects this for every sequence of scans.
-/

namespace Heapviz

open Intervals

/-! ## The layout of a scan -/

/-- The regions `rebuild` does not skip. -/
def Region.kept (r : Region) : Bool := r.allocatable && decide (r.size ≠ 0)

def keptRegions (regions : List Region) : List Region := regions.filter Region.kept

/-- The `(start, end)` of the kept regions, which is what a layout depends on. -/
def keptBounds (regions : List Region) : List (Nat × Nat) :=
  (keptRegions regions).map fun r => (r.start, r.limit)

/-- The spans of kept regions laid out from `flat` on. -/
def layout : Nat → List Region → List Span
  | _, [] => []
  | flat, r :: rs => ⟨r.start, r.limit, flat, r.kind, r.threadArena⟩ :: layout (flat + r.size) rs

def packedSize (rs : List Region) : Nat := (rs.map Region.size).sum

/-- A scan as `/proc` gives one: ranges that do not end before they begin, the
kept ones ascending and disjoint, with offsets that fit a word. -/
structure Packable (regions : List Region) : Prop where
  ordered : ∀ r ∈ regions, r.start ≤ r.limit ∧ r.limit < 2 ^ 64
  ascending : Ascending Region.start Region.limit (keptRegions regions)
  fits : packedSize (keptRegions regions) < 2 ^ 64

/-- What `rebuild` compares of a span. -/
def Span.place (s : Span) : Nat × Nat × Nat := (s.start, s.limit, s.flat)

theorem kept_eq_false {r : Region} :
    r.kept = false ↔ r.allocatable = false ∨ r.size = 0 := by
  unfold Region.kept
  rw [Bool.and_eq_false_iff, decide_eq_false_iff_not, not_not]

/-- The loop of `rebuild` computes the layout, and tells whether it is the one
that was there. -/
theorem repackLoop_eq (regions : List Region) (old : List Span) (flat : Nat) :
    repackLoop regions old flat =
      (layout flat (keptRegions regions), flat + packedSize (keptRegions regions),
        decide (old.map Span.place ≠ (layout flat (keptRegions regions)).map Span.place)) := by
  induction regions generalizing old flat with
  | nil => cases old <;> simp [repackLoop, keptRegions, layout, packedSize]
  | cons r rs ih =>
      unfold repackLoop
      split
      · rename_i hskip
        have hkept : keptRegions (r :: rs) = keptRegions rs := by
          unfold keptRegions
          rw [List.filter_cons_of_neg (by simp [kept_eq_false.mpr hskip])]
        rw [hkept]
        exact ih old flat
      · rename_i hkeep
        have hkept : keptRegions (r :: rs) = r :: keptRegions rs := by
          unfold keptRegions
          rw [← kept_eq_false, Bool.not_eq_false] at hkeep
          rw [List.filter_cons_of_pos hkeep]
        have hsize : flat + r.size + packedSize (keptRegions rs) =
            flat + packedSize (r :: keptRegions rs) := by
          simp [packedSize, Nat.add_assoc]
        rw [hkept]
        cases old with
        | nil =>
            simp only [Span.size, ih]
            rw [← hsize]
            simp [layout, Region.size]
        | cons o old =>
            simp only [Span.size, ih]
            rw [← hsize]
            simp only [layout, Region.size, List.map_cons, Span.place]
            congr 2
            simp only [ne_eq, List.cons.injEq, Prod.mk.injEq, not_and_or, Bool.decide_or,
              Bool.or_assoc, decide_not]

/-! ## What a layout is like -/

theorem layout_of_mem {r : Region} {rs : List Region} (flat : Nat) (h : r ∈ rs) :
    ∃ s ∈ layout flat rs, s.start = r.start ∧ s.limit = r.limit := by
  induction rs generalizing flat with
  | nil => cases h
  | cons r' rs ih =>
      rcases List.mem_cons.mp h with rfl | h
      · exact ⟨_, List.mem_cons_self, rfl, rfl⟩
      · obtain ⟨s, hs, hplace⟩ := ih (flat + r'.size) h
        exact ⟨s, List.mem_cons_of_mem _ hs, hplace⟩

theorem mem_of_layout {s : Span} {rs : List Region} {flat : Nat} (h : s ∈ layout flat rs) :
    ∃ r ∈ rs, s.start = r.start ∧ s.limit = r.limit := by
  induction rs generalizing flat with
  | nil => cases h
  | cons r rs ih =>
      rcases List.mem_cons.mp h with rfl | h
      · exact ⟨r, List.mem_cons_self, rfl, rfl⟩
      · obtain ⟨r', hr', hplace⟩ := ih h
        exact ⟨r', List.mem_cons_of_mem _ hr', hplace⟩

/-- Every span begins at or after the offset its layout starts from. -/
theorem le_flat_of_layout {s : Span} {rs : List Region} {flat : Nat} (h : s ∈ layout flat rs) :
    flat ≤ s.flat := by
  induction rs generalizing flat with
  | nil => cases h
  | cons r rs ih =>
      rcases List.mem_cons.mp h with rfl | h
      · exact Nat.le_refl _
      · exact (Nat.le_add_right _ _).trans (ih h)

theorem layout_ascending {rs : List Region} (h : Ascending Region.start Region.limit rs)
    (flat : Nat) : Ascending Span.start Span.limit (layout flat rs) := by
  refine ⟨?_, ?_⟩
  · intro s hs
    obtain ⟨r, hr, hstart, hlimit⟩ := mem_of_layout hs
    rw [hstart, hlimit]
    exact h.ordered r hr
  · induction rs generalizing flat with
    | nil => exact List.Pairwise.nil
    | cons r rs ih =>
        refine List.pairwise_cons.mpr ⟨?_, ih h.tail _⟩
        intro s hs
        obtain ⟨r', hr', hstart, -⟩ := mem_of_layout hs
        rw [hstart]
        exact (List.pairwise_cons.mp h.before).1 r' hr'

theorem layout_ascending_flat (rs : List Region) (flat : Nat) :
    Ascending Span.flat (fun s => s.flat + s.size) (layout flat rs) := by
  refine ⟨fun s _ => Nat.le_add_right _ _, ?_⟩
  induction rs generalizing flat with
  | nil => exact List.Pairwise.nil
  | cons r rs ih => exact List.pairwise_cons.mpr ⟨fun s hs => le_flat_of_layout hs, ih _⟩

/-- The packed offsets leave no hole. -/
theorem layout_cover {rs : List Region} {flat x : Nat} :
    (∃ s ∈ layout flat rs, Holds Span.flat (fun s => s.flat + s.size) x s) ↔
      flat ≤ x ∧ x < flat + packedSize rs := by
  induction rs generalizing flat with
  | nil => simp [layout, packedSize]
  | cons r rs ih =>
      have hsize : packedSize (r :: rs) = r.size + packedSize rs := by simp [packedSize]
      simp only [layout, List.mem_cons, exists_eq_or_imp]
      rw [ih, hsize]
      simp only [Holds, Span.size, Region.size]
      omega

/-- A layout is told by the bounds of its regions. -/
theorem layout_place_inj {rs rs' : List Region} {flat : Nat} :
    (layout flat rs).map Span.place = (layout flat rs').map Span.place ↔
      (rs.map fun r => (r.start, r.limit)) = rs'.map fun r => (r.start, r.limit) := by
  induction rs generalizing rs' flat with
  | nil => cases rs' <;> simp [layout]
  | cons r rs ih =>
      cases rs' with
      | nil => simp [layout]
      | cons r' rs' =>
          simp only [layout, List.map_cons, List.cons.injEq, Span.place, Prod.mk.injEq, and_true]
          constructor
          · rintro ⟨⟨hstart, hlimit⟩, hrest⟩
            have hsize : r.size = r'.size := by unfold Region.size; rw [hstart, hlimit]
            rw [hsize] at hrest
            exact ⟨⟨hstart, hlimit⟩, ih.mp hrest⟩
          · rintro ⟨⟨hstart, hlimit⟩, hrest⟩
            have hsize : r.size = r'.size := by unfold Region.size; rw [hstart, hlimit]
            rw [hsize]
            exact ⟨⟨hstart, hlimit⟩, ih.mpr hrest⟩

/-! ## The two translations -/

theorem spanLoop_eq_search (m : RegionMap) (addr fuel i j : Nat) :
    m.spanLoop addr fuel i j = search Span.start Span.limit m.spans addr fuel i j := by
  induction fuel generalizing i j with
  | zero => rfl
  | succ fuel ih =>
      unfold RegionMap.spanLoop search
      simp only [ih]
      cases m.spans[i + (j - i) / 2]? <;> rfl

theorem flatLoop_eq_search (m : RegionMap) (flat fuel i j : Nat) :
    m.flatLoop flat fuel i j =
      search Span.flat (fun s => s.flat + s.size) m.spans flat fuel i j := by
  induction fuel generalizing i j with
  | zero => rfl
  | succ fuel ih =>
      unfold RegionMap.flatLoop search
      simp only [ih]
      cases m.spans[i + (j - i) / 2]? <;> rfl

section Translate

variable {m : RegionMap}

/-- `span_at_addr` finds the span an address is in. -/
theorem spanAtAddr_eq_some (hm : Ascending Span.start Span.limit m.spans) {addr : Nat} {s : Span} :
    m.spanAtAddr addr = some s ↔ s ∈ m.spans ∧ s.start ≤ addr ∧ addr < s.limit := by
  unfold RegionMap.spanAtAddr
  rw [spanLoop_eq_search, search_eq_some hm]
  rfl

/-- `span_at_flat` finds the span an offset is in. -/
theorem spanAtFlat_eq_some (hm : Ascending Span.flat (fun s => s.flat + s.size) m.spans)
    {flat : Nat} {s : Span} :
    m.spanAtFlat flat = some s ↔ s ∈ m.spans ∧ s.flat ≤ flat ∧ flat < s.flat + s.size := by
  unfold RegionMap.spanAtFlat
  rw [flatLoop_eq_search, search_eq_some hm]
  rfl

theorem toFlat_eq_some (hm : Ascending Span.start Span.limit m.spans) {addr flat : Nat} :
    m.toFlat addr = some flat ↔
      ∃ s ∈ m.spans, s.start ≤ addr ∧ addr < s.limit ∧ s.flat + (addr - s.start) = flat := by
  unfold RegionMap.toFlat
  rw [Option.map_eq_some_iff]
  simp only [spanAtAddr_eq_some hm, and_assoc]

theorem toAddr_eq_some (hm : Ascending Span.flat (fun s => s.flat + s.size) m.spans)
    {flat addr : Nat} :
    m.toAddr flat = some addr ↔
      ∃ s ∈ m.spans, s.flat ≤ flat ∧ flat < s.flat + s.size ∧
        s.start + (flat - s.flat) = addr := by
  unfold RegionMap.toAddr
  rw [Option.map_eq_some_iff]
  simp only [spanAtFlat_eq_some hm, and_assoc]

end Translate

/-! ## Rebuilds -/

/-- A map after a sequence of scans. -/
def RegionMap.rebuilds (m : RegionMap) (scans : List (List Region)) : RegionMap :=
  scans.foldl (fun m regions => (m.rebuild regions).1) m

/-- How many scans of a sequence keep other bounds than the scan before them. -/
def layoutChanges : List (Nat × Nat) → List (List Region) → Nat
  | _, [] => 0
  | bounds, regions :: scans =>
      (if keptBounds regions ≠ bounds then 1 else 0) + layoutChanges (keptBounds regions) scans

/-- The map translates between the kept regions of a scan and the offsets below
its total: `to_flat` is a strictly increasing bijection of the one onto the
other, and `to_addr` is its inverse. -/
structure RegionMap.Packs (m : RegionMap) (regions : List Region) : Prop where
  toFlat_defined : ∀ addr, (m.toFlat addr).isSome ↔
    ∃ r ∈ regions, r.allocatable ∧ r.size ≠ 0 ∧ r.start ≤ addr ∧ addr < r.limit
  toFlat_lt : ∀ addr flat, m.toFlat addr = some flat → flat < m.total
  toFlat_onto : ∀ flat < m.total, ∃ addr, m.toFlat addr = some flat
  toFlat_increasing : ∀ addr addr' flat flat', m.toFlat addr = some flat →
    m.toFlat addr' = some flat' → addr < addr' → flat < flat'
  toAddr_defined : ∀ flat, (m.toAddr flat).isSome ↔ flat < m.total
  toAddr_inverse : ∀ addr flat, m.toAddr flat = some addr ↔ m.toFlat addr = some flat

section Rebuild

variable {m : RegionMap} {regions : List Region}

theorem rebuild_spans (m : RegionMap) (regions : List Region) :
    (m.rebuild regions).1.spans = layout 0 (keptRegions regions) := by
  simp only [RegionMap.rebuild, repackLoop_eq]

theorem rebuild_total (m : RegionMap) (regions : List Region) :
    (m.rebuild regions).1.total = packedSize (keptRegions regions) := by
  simp only [RegionMap.rebuild, repackLoop_eq, Nat.zero_add]

theorem rebuild_repacks (m : RegionMap) (regions : List Region) :
    (m.rebuild regions).1.repacks = m.repacks + if (m.rebuild regions).2 then 1 else 0 := by
  unfold RegionMap.rebuild
  dsimp only
  split <;> rfl

/-- Over the layout of one scan, `rebuild` reports a change exactly when the
next one keeps other bounds. -/
theorem rebuild_changed {last : List Region} (hm : m.spans = layout 0 (keptRegions last)) :
    (m.rebuild regions).2 = true ↔ keptBounds regions ≠ keptBounds last := by
  simp only [RegionMap.rebuild, repackLoop_eq, hm, decide_eq_true_eq, ne_eq, layout_place_inj]
  exact not_congr eq_comm

theorem rebuilds_spans (m : RegionMap) {scans : List (List Region)} {last : List Region}
    (hm : m.spans = layout 0 (keptRegions last)) :
    (m.rebuilds scans).spans = layout 0 (keptRegions (scans.getLast?.getD last)) := by
  induction scans generalizing m last with
  | nil => exact hm
  | cons regions scans ih =>
      have hrest := ih (m.rebuild regions).1 (rebuild_spans m regions)
      rw [List.getLast?_cons]
      exact hrest

theorem rebuilds_repacks (m : RegionMap) (scans : List (List Region)) {last : List Region}
    (hm : m.spans = layout 0 (keptRegions last)) :
    (m.rebuilds scans).repacks = m.repacks + layoutChanges (keptBounds last) scans := by
  induction scans generalizing m last with
  | nil => rfl
  | cons regions scans ih =>
      have hrest := ih (m.rebuild regions).1 (rebuild_spans m regions)
      rw [rebuild_repacks] at hrest
      simp only [rebuild_changed hm] at hrest
      unfold layoutChanges
      rw [← Nat.add_assoc]
      exact hrest

theorem rebuild_ascending (m : RegionMap) (hregions : Packable regions) :
    Ascending Span.start Span.limit (m.rebuild regions).1.spans := by
  rw [rebuild_spans]
  exact layout_ascending hregions.ascending 0

theorem rebuild_ascending_flat (m : RegionMap) (regions : List Region) :
    Ascending Span.flat (fun s => s.flat + s.size) (m.rebuild regions).1.spans := by
  rw [rebuild_spans]
  exact layout_ascending_flat _ 0

theorem rebuild_cover (m : RegionMap) (regions : List Region) (x : Nat) :
    (∃ s ∈ (m.rebuild regions).1.spans, s.flat ≤ x ∧ x < s.flat + s.size) ↔
      x < (m.rebuild regions).1.total := by
  rw [rebuild_spans, rebuild_total]
  refine layout_cover.trans ?_
  omega

/-- The two translations are one relation. -/
theorem toAddr_iff_toFlat (haddr : Ascending Span.start Span.limit m.spans)
    (hflat : Ascending Span.flat (fun s => s.flat + s.size) m.spans) (addr flat : Nat) :
    m.toAddr flat = some addr ↔ m.toFlat addr = some flat := by
  rw [toAddr_eq_some hflat, toFlat_eq_some haddr]
  unfold Span.size
  constructor
  · rintro ⟨s, hs, hlo, hhi, rfl⟩
    exact ⟨s, hs, by omega, by omega, by omega⟩
  · rintro ⟨s, hs, hlo, hhi, rfl⟩
    exact ⟨s, hs, by omega, by omega, by omega⟩

/-- Spans in address order are in packed order, so the translation increases. -/
theorem toFlat_lt_toFlat (haddr : Ascending Span.start Span.limit m.spans)
    (hflat : Ascending Span.flat (fun s => s.flat + s.size) m.spans) {addr addr' flat flat' : Nat}
    (h : m.toFlat addr = some flat) (h' : m.toFlat addr' = some flat') (hlt : addr < addr') :
    flat < flat' := by
  obtain ⟨s, hs, hlo, hhi, rfl⟩ := (toFlat_eq_some haddr).mp h
  obtain ⟨s', hs', hlo', hhi', rfl⟩ := (toFlat_eq_some haddr).mp h'
  rcases pairwise_compare (haddr.before.and hflat.before) hs hs' with rfl | hbefore | hafter
  · omega
  · unfold Span.size at hbefore
    omega
  · omega

/-- An address has an offset exactly when a kept region holds it. -/
theorem rebuild_toFlat_isSome (m : RegionMap) (hregions : Packable regions) (addr : Nat) :
    ((m.rebuild regions).1.toFlat addr).isSome ↔
      ∃ r ∈ regions, r.allocatable ∧ r.size ≠ 0 ∧ r.start ≤ addr ∧ addr < r.limit := by
  have haddr := rebuild_ascending m hregions
  have hspans := rebuild_spans m regions
  rw [Option.isSome_iff_exists]
  constructor
  · rintro ⟨flat, h⟩
    obtain ⟨s, hs, hlo, hhi, -⟩ := (toFlat_eq_some haddr).mp h
    rw [hspans] at hs
    obtain ⟨r, hr, hstart, hlimit⟩ := mem_of_layout hs
    obtain ⟨hmem, hkept⟩ := List.mem_filter.mp hr
    unfold Region.kept at hkept
    rw [Bool.and_eq_true, decide_eq_true_eq] at hkept
    exact ⟨r, hmem, hkept.1, hkept.2, by omega, by omega⟩
  · rintro ⟨r, hr, halloc, hsize, hlo, hhi⟩
    have hkept : r ∈ keptRegions regions := by
      refine List.mem_filter.mpr ⟨hr, ?_⟩
      unfold Region.kept
      rw [Bool.and_eq_true, decide_eq_true_eq]
      exact ⟨halloc, hsize⟩
    obtain ⟨s, hs, hstart, hlimit⟩ := layout_of_mem 0 hkept
    rw [← hspans] at hs
    exact ⟨_, (toFlat_eq_some haddr).mpr ⟨s, hs, by omega, by omega, rfl⟩⟩

/-- A scan that can be packed is packed. -/
theorem rebuild_packs (m : RegionMap) (hregions : Packable regions) :
    (m.rebuild regions).1.Packs regions := by
  have haddr := rebuild_ascending m hregions
  have hflat := rebuild_ascending_flat m regions
  have hcover := rebuild_cover m regions
  have hinverse := toAddr_iff_toFlat haddr hflat
  refine ⟨rebuild_toFlat_isSome m hregions, ?_, ?_, ?_, ?_, hinverse⟩
  · intro addr flat h
    obtain ⟨s, hs, hlo, hhi, -⟩ := (toAddr_eq_some hflat).mp ((hinverse addr flat).mpr h)
    exact (hcover flat).mp ⟨s, hs, hlo, hhi⟩
  · intro flat hlt
    obtain ⟨s, hs, hlo, hhi⟩ := (hcover flat).mpr hlt
    exact ⟨_, (hinverse _ flat).mp ((toAddr_eq_some hflat).mpr ⟨s, hs, hlo, hhi, rfl⟩)⟩
  · intro addr addr' flat flat' h h' hlt
    exact toFlat_lt_toFlat haddr hflat h h' hlt
  · intro flat
    rw [← hcover flat, Option.isSome_iff_exists]
    constructor
    · rintro ⟨addr, h⟩
      obtain ⟨s, hs, hlo, hhi, -⟩ := (toAddr_eq_some hflat).mp h
      exact ⟨s, hs, hlo, hhi⟩
    · rintro ⟨s, hs, hlo, hhi⟩
      exact ⟨_, (toAddr_eq_some hflat).mpr ⟨s, hs, hlo, hhi, rfl⟩⟩

end Rebuild

/-- **Packing, over every sequence of scans.** After the last of them the map
packs its kept regions; spans and total are those of a new map given that scan
alone; the call reported a change exactly when the bounds it keeps are not the
ones kept before; and `repacks` has counted such calls. -/
theorem packing_bijective (scans : List (List Region)) (regions : List Region)
    (hregions : Packable regions) :
    ((RegionMap.init.rebuilds scans).rebuild regions).1.Packs regions ∧
      (((RegionMap.init.rebuilds scans).rebuild regions).1.spans =
          (RegionMap.init.rebuild regions).1.spans ∧
        ((RegionMap.init.rebuilds scans).rebuild regions).1.total =
          (RegionMap.init.rebuild regions).1.total) ∧
      (((RegionMap.init.rebuilds scans).rebuild regions).2 = true ↔
        keptBounds regions ≠ keptBounds (scans.getLast?.getD [])) ∧
      ((RegionMap.init.rebuilds scans).rebuild regions).1.repacks =
        layoutChanges [] (scans ++ [regions]) := by
  have hinit : RegionMap.init.spans = layout 0 (keptRegions []) := rfl
  refine ⟨rebuild_packs _ hregions, ⟨?_, ?_⟩, ?_, ?_⟩
  · rw [rebuild_spans, rebuild_spans]
  · rw [rebuild_total, rebuild_total]
  · exact rebuild_changed (rebuilds_spans _ hinit)
  · have hcount := rebuilds_repacks RegionMap.init (scans ++ [regions]) hinit
    unfold RegionMap.rebuilds at hcount
    rw [List.foldl_append] at hcount
    rw [RegionMap.init, Nat.zero_add] at hcount
    exact hcount

def brkHeap : Region := ⟨0x1000, 0x3000, .heap, false⟩

def arena : Region := ⟨0x9000, 0xA000, .anon, true⟩

/-- The heap alone, then a stack, an empty mapping and an arena besides. -/
theorem packing_bijective_arena :
    ((RegionMap.init.rebuilds [[brkHeap]]).rebuild
      [brkHeap, ⟨0x4000, 0x5000, .stack, false⟩, ⟨0x6000, 0x6000, .anon, false⟩, arena]).1.Packs
      [brkHeap, ⟨0x4000, 0x5000, .stack, false⟩, ⟨0x6000, 0x6000, .anon, false⟩, arena] := by
  exact (packing_bijective _ _ ⟨by decide, ⟨by decide, by decide⟩, by decide⟩).1

/-- The repack counter is state as well: a map that lost its one region has
counted two changes, a new map given the empty scan none. -/
theorem rebuild_keeps_repacks :
    RegionMap.init.rebuilds [[brkHeap], []] ≠ (RegionMap.init.rebuild []).1 := by
  decide

end Heapviz
