import Heapviz.Fragmentation
import Heapviz.IntervalHoles

/-!
# The largest hole

The second figure of a pass is the longest hole, and the one part that pays for
order: the footprints are sorted by start and each is compared with the next,
one cursor moving through the regions beside them.

Footprints are modelled and may overlap; the comment above the sums says so. The
walk compares neighbours only. Where a footprint lies inside an earlier one, the
distance from its end to the next start is taken for a hole although the earlier
one covers it.

`le_largestGapLoop_iff` is the walk: the cursor is always at the region of the
current footprint, so what comes out is the greatest distance of neighbours in
one region. The rest is `Intervals.isGreatest_freeRun_iff`.
-/

namespace Heapviz

open RobinHood ChunkTable Intervals

/-! ## The walk -/

theorem mem_dropWhile {α : Type} {p : α → Bool} {l : List α} {a : α} (ha : a ∈ l)
    (hp : p a = false) : a ∈ l.dropWhile p := by
  induction l with
  | nil => cases ha
  | cons b l ih =>
      rw [List.dropWhile_cons]
      split
      · rename_i hb
        rcases List.mem_cons.mp ha with rfl | ha
        · rw [hp] at hb
          cases hb
        · exact ih ha
      · exact ha

/-- The cursor stops at the span that holds the footprint's start. -/
theorem dropWhile_eq_cons {spans : List Span} (hspans : Ascending Span.start Span.limit spans)
    {x : Nat} {s : Span} (hs : s ∈ spans) (hx : Holds Span.start Span.limit x s) :
    ∃ rest, (spans.dropWhile fun s => s.limit ≤ x) = s :: rest := by
  unfold Holds at hx
  induction spans with
  | nil => cases hs
  | cons s' spans ih =>
      rw [List.dropWhile_cons]
      rcases List.mem_cons.mp hs with rfl | hs
      · rw [if_neg (by simp [hx.2])]
        exact ⟨spans, rfl⟩
      · have hbefore := (List.pairwise_cons.mp hspans.before).1 s hs
        rw [if_pos (by simp; omega)]
        exact ih hspans.tail hs

/-- Whether one span holds the starts of both. -/
def SameSpan (spans : List Span) (a b : Extent) : Prop :=
  ∃ s ∈ spans, Holds Span.start Span.limit a.start s ∧ b.start < s.limit

section Cursor

variable {spans rest : List Span} {s : Span} {a : Extent}

/-- A cursor that stands for `a` has passed no span that ends above it. -/
theorem mem_cursor (hcursor : (spans.dropWhile fun s => s.limit ≤ a.start) = s :: rest) {s' : Span}
    (hs' : s' ∈ spans) (hlt : a.start < s'.limit) : s' ∈ s :: rest := by
  rw [← hcursor]
  exact mem_dropWhile hs' (by simp [hlt])

/-- So for what starts above `a`, the spans it has passed are not asked for. -/
theorem sameSpan_cursor (hcursor : (spans.dropWhile fun s => s.limit ≤ a.start) = s :: rest)
    {x y : Extent} (hlt : a.start < x.start) :
    SameSpan (s :: rest) x y ↔ SameSpan spans x y := by
  have hsuffix : s :: rest <:+ spans := hcursor ▸ List.dropWhile_suffix _
  constructor
  · rintro ⟨s', hs', h⟩
    exact ⟨s', hsuffix.subset hs', h⟩
  · rintro ⟨s', hs', hx, hy⟩
    exact ⟨s', mem_cursor hcursor hs' (hlt.trans hx.2), hx, hy⟩

theorem sameSpan_of_holds (hspans : Ascending Span.start Span.limit spans) (hs : s ∈ spans)
    (hsa : Holds Span.start Span.limit a.start s) {b : Extent} :
    SameSpan spans a b ↔ b.start < s.limit := by
  constructor
  · rintro ⟨s', hs', ha', hb'⟩
    rw [hspans.eq_of_holds hs' hs ha' hsa] at hb'
    exact hb'
  · intro hb
    exact ⟨s, hs, hsa, hb⟩

end Cursor

theorem le_largestGapLoop_iff {spans : List Span} {es : List Extent} {best w : Nat}
    (hspans : Ascending Span.start Span.limit spans)
    (hsorted : es.Pairwise fun a b => a.start < b.start)
    (hheld : ∀ e ∈ es, ∃ s ∈ spans, Holds Span.start Span.limit e.start s) :
    w ≤ largestGapLoop spans es best ↔
      w ≤ best ∨ ∃ a b, NextTo Extent.start {e | e ∈ es} a b ∧ SameSpan spans a b ∧
        w ≤ b.start - a.limit := by
  induction es generalizing spans best with
  | nil =>
      unfold largestGapLoop
      refine ⟨Or.inl, ?_⟩
      rintro (h | ⟨a, b, ⟨ha, -⟩, -⟩)
      · exact h
      · cases ha
  | cons a es ih =>
      cases es with
      | nil =>
          unfold largestGapLoop
          refine ⟨Or.inl, ?_⟩
          rintro (h | ⟨x, y, ⟨hx, hy, hxy, -⟩, -⟩)
          · exact h
          · obtain rfl := List.mem_singleton.mp hx
            obtain rfl := List.mem_singleton.mp hy
            omega
      | cons b es =>
          obtain ⟨hhead, htail⟩ := List.pairwise_cons.mp hsorted
          obtain ⟨s, hs, hsa⟩ := hheld a List.mem_cons_self
          obtain ⟨rest, hcursor⟩ := dropWhile_eq_cons hspans hs hsa
          have hsuffix : s :: rest <:+ spans := hcursor ▸ List.dropWhile_suffix _
          have hheld' : ∀ e ∈ b :: es, ∃ s' ∈ s :: rest,
              Holds Span.start Span.limit e.start s' := by
            intro e he
            obtain ⟨s', hs', h⟩ := hheld e (List.mem_cons_of_mem _ he)
            exact ⟨s', mem_cursor hcursor hs' ((hhead e he).trans h.2), h⟩
          have hrest := @ih (s :: rest)
            (if b.start ≥ s.limit then best
             else if b.start > a.limit ∧ b.start - a.limit > best then b.start - a.limit
             else best)
            (hspans.sublist hsuffix.sublist) htail hheld'
          have hbest : w ≤ (if b.start ≥ s.limit then best
                else if b.start > a.limit ∧ b.start - a.limit > best then b.start - a.limit
                else best) ↔
              w ≤ best ∨ b.start < s.limit ∧ w ≤ b.start - a.limit := by
            split_ifs <;> omega
          have hfirst : SameSpan spans a b ↔ b.start < s.limit := sameSpan_of_holds hspans hs hsa
          have hspan : ∀ x y, x ∈ b :: es → (SameSpan (s :: rest) x y ↔ SameSpan spans x y) :=
            fun x _ hx => sameSpan_cursor hcursor (hhead x hx)
          unfold largestGapLoop
          rw [hcursor]
          dsimp only
          rw [hrest, hbest, or_assoc]
          refine or_congr_right ?_
          constructor
          · rintro (⟨hb, hw⟩ | ⟨x, y, hnext, hsame, hw⟩)
            · exact ⟨a, b, (nextTo_cons_cons hsorted).mpr (Or.inl ⟨rfl, rfl⟩), hfirst.mpr hb, hw⟩
            · exact ⟨x, y, (nextTo_cons_cons hsorted).mpr (Or.inr hnext),
                (hspan x y hnext.1).mp hsame, hw⟩
          · rintro ⟨x, y, hnext, hsame, hw⟩
            rcases (nextTo_cons_cons hsorted).mp hnext with ⟨rfl, rfl⟩ | hnext
            · exact Or.inl ⟨hfirst.mp hsame, hw⟩
            · exact Or.inr ⟨x, y, hnext, (hspan x y hnext.1).mpr hsame, hw⟩

/-! ## Regions one by one -/

/-- The footprints of a region's live chunks. -/
def ChunkTable.footprints (t : ChunkTable) (s : Span) : Set Extent := {e | e ∈ t.footprintsIn s}

section Regions

variable {t : ChunkTable} {regions : RegionMap} {s : Span} {e : Extent} {w : Nat}

theorem footprints_finite (t : ChunkTable) (s : Span) : (t.footprints s).Finite :=
  (t.footprintsIn s).finite_toSet

theorem footprints_holds (he : e ∈ t.footprints s) :
    Holds Span.start Span.limit e.start s ∧ e.start < e.limit := by
  have hmap : e ∈ (t.liveIn s).map s.takes := he
  obtain ⟨c, hc, rfl⟩ := Multiset.mem_map.mp hmap
  obtain ⟨-, hlo, hhi⟩ := Multiset.mem_filter.mp hc
  unfold Span.takes Holds kChunkMinOverheadBytes
  dsimp only
  omega

/-- What a pass collects, region by region. -/
theorem mem_extents (hI : TableInv t) (hr : regions.Mapped) (hfit : t.Unwrapped) :
    e ∈ (placements t regions).map Prod.snd ↔ ∃ s ∈ regions.spans, e ∈ t.footprints s := by
  constructor
  · intro he
    obtain ⟨⟨s, e'⟩, hq, rfl⟩ := List.mem_map.mp he
    obtain ⟨c, -, hplaced⟩ := mem_placements.mp hq
    have hs := ((placedIn_eq_some hr).mp hplaced).2.2.1
    refine ⟨s, hs, ?_⟩
    have hin : e' ∈ inSpan (placements t regions) s :=
      List.mem_map.mpr ⟨(s, e'), List.mem_filter.mpr ⟨hq, decide_eq_true rfl⟩, rfl⟩
    rw [← Multiset.mem_coe, coe_inSpan hI hr hfit hs] at hin
    exact hin
  · rintro ⟨s, hs, he⟩
    have hin : e ∈ (inSpan (placements t regions) s : Multiset Extent) := by
      rw [coe_inSpan hI hr hfit hs]
      exact he
    obtain ⟨q, hq, rfl⟩ := List.mem_map.mp hin
    exact List.mem_map.mpr ⟨q, (List.mem_filter.mp hq).1, rfl⟩

/-- Neighbours among all footprints that one span holds are neighbours in a
region. -/
theorem sameSpan_iff (hI : TableInv t) (hr : regions.Mapped) (hfit : t.Unwrapped) :
    (∃ a b, NextTo Extent.start {e | e ∈ (placements t regions).map Prod.snd} a b ∧
        SameSpan regions.spans a b ∧ w ≤ b.start - a.limit) ↔
      ∃ s ∈ regions.spans, ∃ a b, NextTo Extent.start (t.footprints s) a b ∧
        w ≤ b.start - a.limit := by
  have hmem := fun e => @mem_extents t regions e hI hr hfit
  constructor
  · rintro ⟨a, b, ⟨ha, hb, hab, hnone⟩, ⟨s, hs, hsa, hsb⟩, hw⟩
    obtain ⟨sa, hsa', ha'⟩ := (hmem a).mp ha
    obtain ⟨sb, hsb', hb'⟩ := (hmem b).mp hb
    obtain rfl := hr.ascending.eq_of_holds hs hsa' hsa (footprints_holds ha').1
    obtain rfl := hr.ascending.eq_of_holds hs hsb' ⟨hsa.1.trans hab.le, hsb⟩
      (footprints_holds hb').1
    exact ⟨s, hs, a, b, ⟨ha', hb', hab, fun e he => hnone e ((hmem e).mpr ⟨s, hs, he⟩)⟩, hw⟩
  · rintro ⟨s, hs, a, b, ⟨ha, hb, hab, hnone⟩, hw⟩
    have hsa := (footprints_holds ha).1
    have hsb := (footprints_holds hb).1
    refine ⟨a, b, ⟨(hmem a).mpr ⟨s, hs, ha⟩, (hmem b).mpr ⟨s, hs, hb⟩, hab, ?_⟩,
      ⟨s, hs, hsa, hsb.2⟩, hw⟩
    intro e he
    obtain ⟨s', hs', he'⟩ := (hmem e).mp he
    by_contra hbetween
    rw [not_or] at hbetween
    unfold Holds at hsa hsb
    -- a start between the two lies in their region
    obtain rfl := hr.ascending.eq_of_holds hs hs'
      (show Holds Span.start Span.limit e.start s from ⟨by omega, by omega⟩)
      (footprints_holds he').1
    have := hnone e he'
    omega

theorem collects_of_known {maxSorted : Nat}
    (hknown : (fragReport t regions maxSorted).largestGapKnown = true) :
    collects t regions maxSorted = true ∧
      (fragWalk t regions (collects t regions maxSorted)).extents ≠ [] := by
  have hlast : (fragReport t regions maxSorted).largestGapKnown =
      (collects t regions maxSorted &&
        !(fragWalk t regions (collects t regions maxSorted)).extents.isEmpty) := rfl
  rw [hknown, eq_comm, Bool.and_eq_true, Bool.not_eq_true', List.isEmpty_eq_false_iff] at hlast
  exact hlast

/-- The figure of a pass is the greatest distance of neighbours in a region. -/
theorem le_largestGap_iff (hI : TableInv t) (hr : regions.Mapped) (hfit : t.Unwrapped)
    {maxSorted : Nat} (hknown : (fragReport t regions maxSorted).largestGapKnown = true)
    (hw : 0 < w) :
    w ≤ (fragReport t regions maxSorted).largestGap ↔
      ∃ s ∈ regions.spans, ∃ a b, NextTo Extent.start (t.footprints s) a b ∧
        w ≤ b.start - a.limit := by
  obtain ⟨hcollect, hextents⟩ := collects_of_known hknown
  have hgap : (fragReport t regions maxSorted).largestGap =
      if collects t regions maxSorted ∧
          (fragWalk t regions (collects t regions maxSorted)).extents ≠ [] then
        largestGapLoop regions.spans
          (sortExtents (fragWalk t regions (collects t regions maxSorted)).extents) 0
      else 0 := rfl
  rw [if_pos ⟨hcollect, hextents⟩, fragWalk_eq hr hfit, hcollect] at hgap
  dsimp only at hgap
  rw [if_pos rfl] at hgap
  have hperm := sortExtents_perm ((placements t regions).map Prod.snd)
  have hset : {e | e ∈ sortExtents ((placements t regions).map Prod.snd)} =
      {e | e ∈ (placements t regions).map Prod.snd} := Set.ext fun e => hperm.mem_iff
  have hsorted := sortExtents_strict (starts_nodup hI regions)
  rw [hgap, le_largestGapLoop_iff hr.ascending hsorted, hset, sameSpan_iff hI hr hfit]
  · exact or_iff_right (by omega)
  · intro e he
    obtain ⟨s, hs, he'⟩ := (mem_extents hI hr hfit).mp (hperm.mem_iff.mp he)
    exact ⟨s, hs, (footprints_holds he').1⟩

end Regions

/-! ## When the figure is a hole -/

/-- Where a footprint ends inside an earlier one, the next start is no further
from it than some footprint's is that ends inside none. -/
def ChunkTable.NestedClose (t : ChunkTable) (regions : RegionMap) : Prop :=
  ∀ s ∈ regions.spans, ∀ a b, NextTo Extent.start (t.footprints s) a b →
    Bridged Extent.start Extent.limit (t.footprints s) a → a.limit < b.start →
      ∃ s' ∈ regions.spans, ∃ a' b', NextTo Extent.start (t.footprints s') a' b' ∧
        ¬ Bridged Extent.start Extent.limit (t.footprints s') a' ∧
          b.start - a.limit ≤ b'.start - a'.limit

/-- **The largest hole**: for a table of any footprints, overlapping or not, the
figure of a pass that has one is the length of the longest run of bytes between
a region's first live chunk and its last that no live chunk covers, exactly when
no footprint nested in another stands further from its neighbour than all others
do. -/
theorem largestGap_isGreatest_iff (t : ChunkTable) (regions : RegionMap) (f : FragAnalyzer)
    (nowMs : Nat) (ht : t.Reached) (hregions : regions.Built) (hfit : t.Unwrapped)
    (hdue : f.due nowMs = true)
    (hknown : (f.analyze t regions nowMs).1.report.largestGapKnown = true) :
    IsGreatest {w | ∃ s ∈ regions.spans, ∃ x,
        FreeRun Extent.start Extent.limit (t.footprints s) x w}
        (f.analyze t regions nowMs).1.report.largestGap ↔
      t.NestedClose regions := by
  have hr := hregions.mapped
  have hI := ht.inv.toTableInv
  rw [analyze_report hdue] at hknown ⊢
  have hspans : {s | s ∈ regions.spans}.Nonempty := by
    have hcollect := (collects_of_known hknown).1
    unfold collects at hcollect
    exact List.exists_mem_of_length_pos (Nat.pos_of_ne_zero (of_decide_eq_true hcollect).1)
  exact isGreatest_freeRun_iff hspans (fun s _ => footprints_finite t s)
    (fun s _ e he => (footprints_holds he).2)
    (fun w hw => le_largestGap_iff hI hr hfit hknown hw)

/-- The heap with two chunks in it, where no footprint is nested. -/
theorem largestGap_isGreatest_two :
    IsGreatest {w | ∃ s ∈ (RegionMap.init.rebuild [brkHeap]).1.spans, ∃ x,
        FreeRun Extent.start Extent.limit (twoChunks.footprints s) x w}
      (FragAnalyzer.init.analyze twoChunks (RegionMap.init.rebuild [brkHeap]).1
        0).1.report.largestGap := by
  refine (largestGap_isGreatest_iff twoChunks (RegionMap.init.rebuild [brkHeap]).1
    FragAnalyzer.init 0 ⟨16, _, rfl⟩
    ⟨RegionMap.init, [brkHeap], ⟨by decide, ⟨by decide, by decide⟩, by decide⟩, rfl⟩
    (by unfold ChunkTable.Unwrapped; decide) rfl (by decide)).mpr ?_
  have hflat : ∀ s ∈ (RegionMap.init.rebuild [brkHeap]).1.spans,
      ∀ a ∈ twoChunks.footprintsIn s, ∀ e ∈ twoChunks.footprintsIn s,
        e.start ≤ a.start → ¬ a.limit < e.limit := by decide
  rintro s hs a b ⟨ha, -⟩ ⟨e, he, hea, hlong⟩
  exact absurd hlong (hflat s hs a ha e he hea)

/-- A chunk of 512 usable bytes, and two that the stream reports inside it. -/
def nestedChunks : ChunkTable :=
  (ChunkTable.new 16).capRun
    [.call (.insertLive 0x1010 512 512 1 7), .call (.insertLive 0x1020 8 8 2 7),
      .call (.insertLive 0x1100 24 24 3 7)]

/-- All three lie in the first, which leaves no hole; `0xd0` bytes are reported,
from the end of the second to the start of the third. -/
theorem largestGap_inside_chunk :
    (FragAnalyzer.init.analyze nestedChunks (RegionMap.init.rebuild [brkHeap]).1
        0).1.report.largestGapKnown = true ∧
      0xd0 ≤ (FragAnalyzer.init.analyze nestedChunks (RegionMap.init.rebuild [brkHeap]).1
        0).1.report.largestGap ∧
      ¬ IsGreatest {w | ∃ s ∈ (RegionMap.init.rebuild [brkHeap]).1.spans, ∃ x,
          FreeRun Extent.start Extent.limit (nestedChunks.footprints s) x w}
        (FragAnalyzer.init.analyze nestedChunks (RegionMap.init.rebuild [brkHeap]).1
          0).1.report.largestGap := by
  have hknown : (FragAnalyzer.init.analyze nestedChunks (RegionMap.init.rebuild [brkHeap]).1
      0).1.report.largestGapKnown = true := by decide
  have hbounds : ∀ s ∈ (RegionMap.init.rebuild [brkHeap]).1.spans,
      (⟨0x1010, 0x1218⟩ : Extent) ∈ nestedChunks.footprintsIn s ∧
        ∀ e ∈ nestedChunks.footprintsIn s, 0x1010 ≤ e.start ∧ e.limit ≤ 0x1218 := by
    decide
  have hpair : ∃ s ∈ (RegionMap.init.rebuild [brkHeap]).1.spans,
      (⟨0x1020, 0x1030⟩ : Extent) ∈ nestedChunks.footprintsIn s ∧
        (⟨0x1100, 0x1120⟩ : Extent) ∈ nestedChunks.footprintsIn s ∧
          ∀ e ∈ nestedChunks.footprintsIn s, e.start ≤ 0x1020 ∨ 0x1100 ≤ e.start := by
    decide
  have hgap : 0xd0 ≤ (FragAnalyzer.init.analyze nestedChunks
      (RegionMap.init.rebuild [brkHeap]).1 0).1.report.largestGap := by
    obtain ⟨s, hs, ha, hb, hnone⟩ := hpair
    refine (le_largestGap_iff ((CapInv.new 16).run _).toTableInv
      (rebuild_mapped _ ⟨by decide, ⟨by decide, by decide⟩, by decide⟩)
      (by unfold ChunkTable.Unwrapped; decide) hknown (by decide)).mpr ?_
    exact ⟨s, hs, _, _, ⟨ha, hb, by decide, hnone⟩, by decide⟩
  refine ⟨hknown, hgap, ?_⟩
  rintro ⟨⟨s, hs, x, hrun⟩, -⟩
  obtain ⟨hfirst, hinside⟩ := hbounds s hs
  obtain ⟨⟨l, hl, hlx⟩, ⟨r, hr, hxr⟩, hfree⟩ := hrun x (Nat.le_refl x) (by omega)
  have hlow := hinside l hl
  have hhigh := hinside r hr
  exact hfree _ hfirst ⟨by dsimp only; omega, by dsimp only; omega⟩

end Heapviz
