import Mathlib.Algebra.Order.BigOperators.Group.List
import Heapviz.ChunkCap
import Heapviz.HeatSum
import Heapviz.Ranking
import Heapviz.RegionPack

/-!
# Fragmentation without sorting

`FragAnalyzer::analyze` (`tui/fragmentation.cpp`) walks the table once, in slot
order, and keeps for each region the lowest start, the highest end and the sum
of the footprints of its live chunks. Its header claims the identity

> sum of gaps = (last end - first start) - sum of footprints

which is what lets it report the bytes stranded between live chunks without
ever ordering them.

What a pass looks at is the list of placements: for each live chunk inside a
region, the region and the footprint. `FragPass` is a function of that list
(`foldl_slot`), and of its order only through the list of extents. The
accumulator of a region may therefore be computed over the footprints in any
order (`foldl_add_perm`), and in ascending order the identity is an induction
(`foldl_add_ascending`).

Sums of bytes are natural numbers. The end of a footprint and the hundredfold
of the gap are formed in 64 bits and wrap.
-/

namespace Heapviz

open RobinHood ChunkTable Intervals Ranking

/-! ## The analyzer -/

def kFragIntervalMs : Nat := 250

def kFragMaxSorted : Nat := 2 ^ 18

/-- `kChunkMinOverheadBytes`. -/
def kChunkMinOverheadBytes : Nat := 8

structure Extent where
  start : Nat
  limit : Nat
deriving Repr, DecidableEq

/-- One region's running totals. -/
structure RegionAcc where
  lo : Nat
  hi : Nat
  used : Nat
  chunks : Nat
deriving Repr, DecidableEq

def RegionAcc.init : RegionAcc := ⟨0, 0, 0, 0⟩

def RegionAcc.add (a : RegionAcc) (e : Extent) : RegionAcc where
  lo := if a.chunks = 0 ∨ e.start < a.lo then e.start else a.lo
  hi := if a.chunks = 0 ∨ e.limit > a.hi then e.limit else a.hi
  used := a.used + (e.limit - e.start)
  chunks := a.chunks + 1

structure FragReport where
  spanBytes : Nat
  usedBytes : Nat
  gapBytes : Nat
  largestGap : Nat
  chunks : Nat
  outside : Nat
  regions : Nat
  largestGapKnown : Bool
  percent : Int
deriving Repr, DecidableEq

def FragReport.init : FragReport := ⟨0, 0, 0, 0, 0, 0, 0, false, -1⟩

structure FragAnalyzer where
  intervalMs : Nat
  maxSorted : Nat
  lastMs : Nat
  ran : Bool
  report : FragReport
deriving Repr, DecidableEq

def FragAnalyzer.init : FragAnalyzer := ⟨kFragIntervalMs, kFragMaxSorted, 0, false, FragReport.init⟩

def FragAnalyzer.due (f : FragAnalyzer) (nowMs : Nat) : Bool :=
  !f.ran || sub32 nowMs f.lastMs ≥ f.intervalMs

/-- The bytes a chunk takes in its region: the word below the next pointer is
its own, and nothing reaches past the recorded end of the region. -/
def footprint (s : Span) (c : Chunk) : Extent :=
  let limit := add64 (c.key + c.usable) kChunkMinOverheadBytes
  ⟨c.key, if limit > s.limit then s.limit else limit⟩

/-- What the walk over the slots gathers. -/
@[ext]
structure FragPass where
  acc : Nat → RegionAcc
  chunks : Nat
  outside : Nat
  extents : List Extent

def FragPass.init : FragPass := ⟨fun _ => RegionAcc.init, 0, 0, []⟩

/-- The walk at one slot; `regions.spans.idxOf s` is `s - spans.data()`. -/
def FragPass.slot (regions : RegionMap) (collect : Bool) (p : FragPass) (c : Chunk) : FragPass :=
  if c.state ≠ .live ∨ c.key = 0 then p
  else
    match regions.spanAtAddr c.key with
    | none => { p with outside := p.outside + 1 }
    | some s =>
        let e := footprint s c
        if e.limit ≤ e.start then p
        else
          let ri := regions.spans.idxOf s
          { p with
            acc := Function.update p.acc ri ((p.acc ri).add e)
            chunks := p.chunks + 1
            extents := if collect then p.extents ++ [e] else p.extents }

/-- The loop that sums the regions up. -/
def FragReport.addRegion (r : FragReport) (a : RegionAcc) : FragReport :=
  if a.chunks = 0 then r
  else
    { r with
      regions := r.regions + 1
      spanBytes := r.spanBytes + (a.hi - a.lo)
      usedBytes := r.usedBytes + a.used }

/-- The walk over neighbours in start order. What is left of `spans` begins at
the cursor `ri`. -/
def largestGapLoop : List Span → List Extent → Nat → Nat
  | spans, a :: b :: es, best =>
      match spans.dropWhile fun s => s.limit ≤ a.start with
      | [] => best
      | s :: rest =>
          largestGapLoop (s :: rest) (b :: es)
            (if b.start ≥ s.limit then best
             else if b.start > a.limit ∧ b.start - a.limit > best then b.start - a.limit
             else best)
  | _, _, best => best

def sortExtents (es : List Extent) : List Extent := es.mergeSort fun a b => a.start ≤ b.start

/-- The walk over the table, in slot order. -/
def fragWalk (t : ChunkTable) (regions : RegionMap) (collect : Bool) : FragPass :=
  ((List.range t.capacity).map t.slots).foldl (FragPass.slot regions collect) FragPass.init

/-- What is concluded from the walk. -/
def FragPass.report (regions : RegionMap) (collect : Bool) (p : FragPass) : FragReport :=
  let r := ((List.range regions.spans.length).map p.acc).foldl FragReport.addRegion
    { FragReport.init with chunks := p.chunks, outside := p.outside }
  let gap := if r.spanBytes > r.usedBytes then r.spanBytes - r.usedBytes else 0
  { r with
    gapBytes := gap
    percent := if r.spanBytes ≠ 0 then ((gap * 100 % 2 ^ 64 / r.spanBytes : Nat) : Int) else -1
    largestGap :=
      if collect ∧ p.extents ≠ [] then largestGapLoop regions.spans (sortExtents p.extents) 0
      else 0
    largestGapKnown := collect && !p.extents.isEmpty }

/-- Whether a pass keeps the footprints to put them in order. -/
def collects (t : ChunkTable) (regions : RegionMap) (maxSorted : Nat) : Bool :=
  decide (regions.spans.length ≠ 0 ∧ t.size ≤ maxSorted)

/-- One pass over the table, whatever the last report was. -/
def fragReport (t : ChunkTable) (regions : RegionMap) (maxSorted : Nat) : FragReport :=
  let collect := collects t regions maxSorted
  (fragWalk t regions collect).report regions collect

/-- `FragAnalyzer::analyze`, with the flag that says the panel's figures changed. -/
def FragAnalyzer.analyze (f : FragAnalyzer) (t : ChunkTable) (regions : RegionMap) (nowMs : Nat) :
    FragAnalyzer × Bool :=
  if f.due nowMs = false then (f, false)
  else
    let r := fragReport t regions f.maxSorted
    ({ f with lastMs := nowMs, ran := true, report := r },
      r.percent ≠ f.report.percent || r.largestGap ≠ f.report.largestGap ||
        r.largestGapKnown ≠ f.report.largestGapKnown)

/-! ## What a pass looks at -/

/-- The region a live chunk is in, with its footprint there. -/
def placedIn (regions : RegionMap) (c : Chunk) : Option (Span × Extent) :=
  if c.state ≠ .live ∨ c.key = 0 then none
  else (regions.spanAtAddr c.key).map fun s => (s, footprint s c)

/-- The live chunks in a list of slots that no region holds. -/
def isOutside (regions : RegionMap) (c : Chunk) : Bool :=
  c.state = .live ∧ c.key ≠ 0 ∧ regions.spanAtAddr c.key = none

/-- Spans as `rebuild` leaves them: in order, and none empty. -/
structure RegionMap.Mapped (regions : RegionMap) : Prop where
  ascending : Ascending Span.start Span.limit regions.spans
  nonempty : ∀ s ∈ regions.spans, s.start < s.limit

theorem rebuild_mapped (m : RegionMap) {scan : List Region} (hscan : Packable scan) :
    (m.rebuild scan).1.Mapped := by
  refine ⟨rebuild_ascending m hscan, ?_⟩
  intro s hs
  rw [rebuild_spans] at hs
  obtain ⟨r, hr, hstart, hlimit⟩ := mem_of_layout hs
  have hkept := (List.mem_filter.mp hr).2
  unfold Region.kept at hkept
  rw [Bool.and_eq_true, decide_eq_true_eq] at hkept
  have hsize := hkept.2
  unfold Region.size at hsize
  omega

/-- A region map after some scan. -/
def RegionMap.Built (regions : RegionMap) : Prop :=
  ∃ m scan, Packable scan ∧ regions = (RegionMap.rebuild m scan).1

theorem RegionMap.Built.mapped {regions : RegionMap} (h : regions.Built) : regions.Mapped := by
  obtain ⟨m, scan, hscan, rfl⟩ := h
  exact rebuild_mapped m hscan

theorem RegionMap.Mapped.nodup {regions : RegionMap} (hr : regions.Mapped) :
    regions.spans.Nodup := by
  refine hr.ascending.before.imp_of_mem ?_
  rintro s s' hs - hbefore rfl
  have := hr.nonempty s hs
  omega

theorem sum_size_layout (rs : List Region) (flat : Nat) :
    ((layout flat rs).map Span.size).sum = packedSize rs := by
  induction rs generalizing flat with
  | nil => rfl
  | cons r rs ih =>
      unfold layout
      rw [List.map_cons, List.sum_cons, ih]
      simp [packedSize, Span.size, Region.size]

theorem RegionMap.Built.sum_size {regions : RegionMap} (h : regions.Built) :
    (regions.spans.map Span.size).sum = regions.total := by
  obtain ⟨m, scan, -, rfl⟩ := h
  rw [rebuild_spans, rebuild_total]
  exact sum_size_layout _ 0

/-- The end of no live chunk's footprint wraps. -/
def ChunkTable.Unwrapped (t : ChunkTable) : Prop :=
  ∀ c ∈ t.live, c.key + c.usable + kChunkMinOverheadBytes < 2 ^ 64

section Placed

variable {regions : RegionMap} {c : Chunk} {s : Span} {e : Extent}

theorem placedIn_eq_some (hr : regions.Mapped) :
    placedIn regions c = some (s, e) ↔ c.state = .live ∧ c.key ≠ 0 ∧ s ∈ regions.spans ∧
      s.start ≤ c.key ∧ c.key < s.limit ∧ e = footprint s c := by
  unfold placedIn
  split
  · rename_i hskip
    constructor
    · intro h
      cases h
    · rintro ⟨hlive, hkey, -⟩
      rcases hskip with hdead | hzero
      · exact absurd hlive hdead
      · exact absurd hzero hkey
  · rename_i hkeep
    rw [not_or, not_not] at hkeep
    rw [Option.map_eq_some_iff]
    constructor
    · rintro ⟨s', hs', heq⟩
      obtain ⟨rfl, rfl⟩ := Prod.mk.inj heq
      obtain ⟨hmem, hlo, hhi⟩ := (spanAtAddr_eq_some hr.ascending).mp hs'
      exact ⟨hkeep.1, hkeep.2, hmem, hlo, hhi, rfl⟩
    · rintro ⟨-, -, hmem, hlo, hhi, rfl⟩
      exact ⟨s, (spanAtAddr_eq_some hr.ascending).mpr ⟨hmem, hlo, hhi⟩, rfl⟩

theorem footprint_limit (hfit : c.key + c.usable + kChunkMinOverheadBytes < 2 ^ 64) :
    (footprint s c).limit = min (c.key + c.usable + kChunkMinOverheadBytes) s.limit := by
  unfold footprint
  dsimp only
  rw [add64_of_lt hfit]
  split <;> omega

/-- A footprint starts at the chunk, holds a byte and stays in its region. -/
theorem placedIn_extent (hr : regions.Mapped)
    (hfit : c.key + c.usable + kChunkMinOverheadBytes < 2 ^ 64)
    (h : placedIn regions c = some (s, e)) :
    s ∈ regions.spans ∧ s.start ≤ e.start ∧ e.start < e.limit ∧ e.limit ≤ s.limit := by
  obtain ⟨-, -, hmem, hlo, hhi, rfl⟩ := (placedIn_eq_some hr).mp h
  have hlimit := @footprint_limit c s hfit
  have hstart : (footprint s c).start = c.key := rfl
  unfold kChunkMinOverheadBytes at hlimit
  exact ⟨hmem, by omega, by omega, by omega⟩

/-- The walk at a slot, by where its chunk is. -/
theorem slot_eq (collect : Bool) (p : FragPass)
    (hfit : ∀ s e, placedIn regions c = some (s, e) → e.start < e.limit) :
    p.slot regions collect c =
      match placedIn regions c with
      | some (s, e) =>
          { p with
            acc := Function.update p.acc (regions.spans.idxOf s)
              ((p.acc (regions.spans.idxOf s)).add e)
            chunks := p.chunks + 1
            extents := if collect then p.extents ++ [e] else p.extents }
      | none => { p with outside := p.outside + if isOutside regions c then 1 else 0 } := by
  unfold FragPass.slot
  unfold placedIn at hfit ⊢
  unfold isOutside
  split
  · rename_i hskip
    rcases hskip with hdead | hzero
    · simp [hdead]
    · simp [hzero]
  · rename_i hkeep
    rw [if_neg hkeep] at hfit
    rw [not_or, not_not] at hkeep
    cases hspan : regions.spanAtAddr c.key with
    | none => simp [hkeep.1, hkeep.2]
    | some s =>
        rw [hspan] at hfit
        have hlt := hfit s _ rfl
        simp only [Option.map_some]
        rw [if_neg (by omega)]

end Placed

/-! ## The walk as a function of the placements -/

/-- The footprints in one region, in the order of the list. -/
def extentsOf (regions : RegionMap) (ps : List (Span × Extent)) (i : Nat) : List Extent :=
  (ps.filter fun q => regions.spans.idxOf q.1 = i).map Prod.snd

theorem foldl_slot {regions : RegionMap} (collect : Bool) (cs : List Chunk) (p : FragPass)
    (hfit : ∀ c ∈ cs, ∀ s e, placedIn regions c = some (s, e) → e.start < e.limit) :
    (cs.foldl (FragPass.slot regions collect) p).acc =
        (fun i => (extentsOf regions (cs.filterMap (placedIn regions)) i).foldl RegionAcc.add
          (p.acc i)) ∧
      (cs.foldl (FragPass.slot regions collect) p).chunks =
        p.chunks + (cs.filterMap (placedIn regions)).length ∧
      (cs.foldl (FragPass.slot regions collect) p).outside =
        p.outside + cs.countP (isOutside regions) ∧
      (cs.foldl (FragPass.slot regions collect) p).extents =
        p.extents ++ if collect then (cs.filterMap (placedIn regions)).map Prod.snd else [] := by
  induction cs generalizing p with
  | nil => simp [extentsOf]
  | cons c cs ih =>
      have hslot := slot_eq collect p (hfit c List.mem_cons_self)
      obtain ⟨hacc, hchunks, houtside, hextents⟩ := ih (p.slot regions collect c)
        fun d hd => hfit d (List.mem_cons_of_mem _ hd)
      rw [List.foldl_cons]
      cases hplaced : placedIn regions c with
      | none =>
          rw [hplaced] at hslot
          dsimp only at hslot
          rw [List.filterMap_cons_none hplaced, List.countP_cons]
          rw [hslot] at hacc hchunks houtside hextents ⊢
          dsimp only at hacc hchunks houtside hextents
          refine ⟨hacc, hchunks, ?_, hextents⟩
          rw [houtside]
          omega
      | some q =>
          obtain ⟨s, e⟩ := q
          have hin : isOutside regions c = false := by
            unfold placedIn at hplaced
            split at hplaced
            · cases hplaced
            · unfold isOutside
              cases hspan : regions.spanAtAddr c.key with
              | none =>
                  rw [hspan] at hplaced
                  cases hplaced
              | some s' => simp
          rw [hplaced] at hslot
          dsimp only at hslot
          rw [List.filterMap_cons_some hplaced, List.countP_cons_of_neg (by simp [hin])]
          rw [hslot] at hacc hchunks houtside hextents ⊢
          dsimp only at hacc hchunks houtside hextents
          refine ⟨?_, ?_, houtside, ?_⟩
          · rw [hacc]
            funext i
            unfold extentsOf
            by_cases hi : regions.spans.idxOf s = i
            · subst hi
              rw [List.filter_cons_of_pos (by simp)]
              simp [Function.update_self]
            · rw [List.filter_cons_of_neg (by simp [hi])]
              rw [Function.update_of_ne (Ne.symm hi)]
          · rw [hchunks, List.length_cons]
            omega
          · rw [hextents]
            cases collect with
            | false => rfl
            | true => simp

/-! ## One region's totals -/

section Totals

variable {es es' : List Extent} {a : RegionAcc}

theorem RegionAcc.add_right_comm (a : RegionAcc) (e e' : Extent) :
    (a.add e).add e' = (a.add e').add e := by
  unfold RegionAcc.add
  simp only [RegionAcc.mk.injEq, Nat.add_eq_zero_iff, one_ne_zero, and_false, false_or]
  refine ⟨?_, ?_, by omega, trivial⟩
  · split_ifs <;> omega
  · split_ifs <;> omega

theorem foldl_add_perm (h : es.Perm es') (a : RegionAcc) :
    es.foldl RegionAcc.add a = es'.foldl RegionAcc.add a :=
  h.foldl_eq' (fun e _ e' _ a => a.add_right_comm e e') a

/-- Past the highest end so far, in ascending order: the lowest start stays,
and the highest end moves up by what is covered and what is left free. -/
theorem foldl_add_ascending (h : Ascending Extent.start Extent.limit es) (hchunks : a.chunks ≠ 0)
    (hlo : a.lo ≤ a.hi) (hpast : ∀ e ∈ es, a.hi ≤ e.start) :
    (es.foldl RegionAcc.add a).lo = a.lo ∧
      (es.foldl RegionAcc.add a).hi + a.used =
        a.hi + gapsFrom Extent.start Extent.limit a.hi es + (es.foldl RegionAcc.add a).used := by
  induction es generalizing a with
  | nil => exact ⟨rfl, rfl⟩
  | cons e es ih =>
      have hstart := hpast e List.mem_cons_self
      have hlimit := h.ordered e List.mem_cons_self
      have hkeeps : (a.add e).lo = a.lo := by
        unfold RegionAcc.add
        dsimp only
        rw [if_neg (by omega)]
      have hmoves : (a.add e).hi = e.limit := by
        unfold RegionAcc.add
        dsimp only
        split <;> omega
      obtain ⟨hlo', hhi'⟩ := @ih (a.add e) h.tail (Nat.succ_ne_zero a.chunks) (by omega)
        fun e' he' => by
          rw [hmoves]
          exact (List.pairwise_cons.mp h.before).1 e' he'
      rw [List.foldl_cons]
      refine ⟨hlo'.trans hkeeps, ?_⟩
      have hused : (a.add e).used = a.used + (e.limit - e.start) := rfl
      rw [hmoves, hused] at hhi'
      unfold gapsFrom
      omega

/-- **The identity**, for the footprints of a region in address order. -/
theorem acc_ascending (h : Ascending Extent.start Extent.limit es) :
    (es.foldl RegionAcc.add RegionAcc.init).hi - (es.foldl RegionAcc.add RegionAcc.init).lo =
      (es.foldl RegionAcc.add RegionAcc.init).used + gaps Extent.start Extent.limit es := by
  cases es with
  | nil => rfl
  | cons e es =>
      have hfirst : RegionAcc.init.add e = ⟨e.start, e.limit, 0 + (e.limit - e.start), 1⟩ := rfl
      have hlimit := h.ordered e List.mem_cons_self
      obtain ⟨hlo, hhi⟩ := @foldl_add_ascending es (RegionAcc.init.add e) h.tail
        (Nat.succ_ne_zero 0) hlimit (List.pairwise_cons.mp h.before).1
      rw [List.foldl_cons]
      rw [hfirst] at hlo hhi ⊢
      dsimp only [gaps] at hlo hhi ⊢
      omega

end Totals

/-! ## Address order -/

section AddressOrder

variable {es es' : List Extent}

theorem sortExtents_perm (es : List Extent) : (sortExtents es).Perm es := List.mergeSort_perm _ _

theorem startLe_sortable : Sortable fun a b : Extent => decide (a.start ≤ b.start) := by
  refine ⟨?_, ?_⟩
  · intro a b c hab hbc
    rw [decide_eq_true_eq] at hab hbc ⊢
    exact hab.trans hbc
  · intro a b
    rw [Bool.or_eq_true, decide_eq_true_eq, decide_eq_true_eq]
    exact Nat.le_total _ _

theorem sortExtents_pairwise (es : List Extent) :
    (sortExtents es).Pairwise fun a b => a.start ≤ b.start :=
  (startLe_sortable.pairwise es).imp fun hab => of_decide_eq_true hab

theorem sortExtents_strict (hstarts : (es.map Extent.start).Nodup) :
    (sortExtents es).Pairwise fun a b => a.start < b.start := by
  have hne : (sortExtents es).Pairwise fun a b => a.start ≠ b.start :=
    List.pairwise_map.mp (((sortExtents_perm es).map Extent.start).nodup_iff.mpr hstarts)
  exact (hne.and (sortExtents_pairwise es)).imp fun h => lt_of_le_of_ne h.2 h.1

/-- With distinct starts there is one address order. -/
theorem sortExtents_congr (h : es.Perm es') (hstarts : (es.map Extent.start).Nodup) :
    sortExtents es = sortExtents es' := by
  refine startLe_sortable.mergeSort_congr h ?_
  intro a ha b hb hab hba
  rw [decide_eq_true_eq] at hab hba
  exact List.inj_on_of_nodup_map hstarts ha hb (Nat.le_antisymm hab hba)

def Extent.Apart (e e' : Extent) : Prop := e.limit ≤ e'.start ∨ e'.limit ≤ e.start

theorem sortExtents_ascending (hlt : ∀ e ∈ es, e.start < e.limit)
    (hapart : es.Pairwise Extent.Apart) :
    Ascending Extent.start Extent.limit (sortExtents es) := by
  have hmem : ∀ e ∈ sortExtents es, e.start < e.limit := fun e he =>
    hlt e ((sortExtents_perm es).mem_iff.mp he)
  have hsorted : (sortExtents es).Pairwise Extent.Apart :=
    ((sortExtents_perm es).pairwise_iff fun {_ _} h => Or.symm h).mpr hapart
  refine ⟨fun e he => (hmem e he).le, ?_⟩
  refine (hsorted.and (sortExtents_pairwise es)).imp_of_mem ?_
  rintro e e' he he' ⟨h | h, hle⟩
  · exact h
  · have := hmem e' he'
    omega

end AddressOrder

/-! ## The sum over the regions -/

/-- The footprints in one region, in the order of the list. -/
def inSpan (ps : List (Span × Extent)) (s : Span) : List Extent :=
  (ps.filter fun q => q.1 = s).map Prod.snd

def RegionAcc.spread (a : RegionAcc) : Nat := a.hi - a.lo

theorem foldl_addRegion (accs : List RegionAcc) (r : FragReport)
    (hempty : ∀ a ∈ accs, a.chunks = 0 → a = RegionAcc.init) :
    accs.foldl FragReport.addRegion r =
      { r with
        regions := r.regions + accs.countP fun a => a.chunks ≠ 0
        spanBytes := r.spanBytes + (accs.map RegionAcc.spread).sum
        usedBytes := r.usedBytes + (accs.map RegionAcc.used).sum } := by
  induction accs generalizing r with
  | nil => rfl
  | cons a accs ih =>
      rw [List.foldl_cons, ih _ fun b hb => hempty b (List.mem_cons_of_mem _ hb)]
      unfold FragReport.addRegion
      split
      · rename_i hnone
        rw [hempty a List.mem_cons_self hnone]
        simp [RegionAcc.init, RegionAcc.spread]
      · rename_i hsome
        simp [hsome, RegionAcc.spread, Nat.add_assoc, Nat.add_comm 1]

theorem chunks_foldl_add (es : List Extent) (a : RegionAcc) :
    (es.foldl RegionAcc.add a).chunks = a.chunks + es.length := by
  induction es generalizing a with
  | nil => rfl
  | cons e es ih =>
      rw [List.foldl_cons, ih, List.length_cons]
      unfold RegionAcc.add
      dsimp only
      omega

/-- The totals of a region that holds no chunk are those it started with. -/
theorem acc_of_chunks_eq_zero {es : List Extent}
    (h : (es.foldl RegionAcc.add RegionAcc.init).chunks = 0) :
    es.foldl RegionAcc.add RegionAcc.init = RegionAcc.init := by
  rw [chunks_foldl_add] at h
  obtain rfl := List.length_eq_zero_iff.mp (Nat.eq_zero_of_add_eq_zero_left h)
  rfl

/-- Footprints inside some bounds leave the totals inside them. -/
theorem foldl_add_within {es : List Extent} {a : RegionAcc} {x y : Nat}
    (ha : a.chunks = 0 ∨ x ≤ a.lo ∧ a.hi ≤ y) (h : ∀ e ∈ es, x ≤ e.start ∧ e.limit ≤ y) :
    (es.foldl RegionAcc.add a).chunks = 0 ∨
      x ≤ (es.foldl RegionAcc.add a).lo ∧ (es.foldl RegionAcc.add a).hi ≤ y := by
  induction es generalizing a with
  | nil => exact ha
  | cons e es ih =>
      have he := h e List.mem_cons_self
      refine ih (Or.inr ?_) fun e' he' => h e' (List.mem_cons_of_mem _ he')
      unfold RegionAcc.add
      dsimp only
      split_ifs <;> omega

theorem acc_spread_le {es : List Extent} {x y : Nat}
    (h : ∀ e ∈ es, x ≤ e.start ∧ e.limit ≤ y) :
    (es.foldl RegionAcc.add RegionAcc.init).spread ≤ y - x := by
  rcases @foldl_add_within es RegionAcc.init x y (Or.inl rfl) h with hnone | hwithin
  · rw [acc_of_chunks_eq_zero hnone]
    exact Nat.zero_le _
  · unfold RegionAcc.spread
    omega

/-- The loop over the region indices is a loop over the spans. -/
theorem map_range_extentsOf {regions : RegionMap} (hnodup : regions.spans.Nodup)
    (ps : List (Span × Extent)) {β : Type} (f : List Extent → β) :
    ((List.range regions.spans.length).map fun i => f (extentsOf regions ps i)) =
      regions.spans.map fun s => f (inSpan ps s) := by
  refine List.ext_getElem (by simp) ?_
  intro i hi hi'
  rw [List.getElem_map, List.getElem_map, List.getElem_range]
  congr 1
  unfold extentsOf inSpan
  congr 1
  refine List.filter_congr ?_
  intro q hq
  rw [List.length_map, List.length_range] at hi
  rw [decide_eq_decide]
  constructor
  · rintro rfl
    rw [List.getElem_idxOf]
  · intro h
    rw [h]
    exact hnodup.idxOf_getElem i hi

/-! ## The table under the walk -/

/-- The live chunks inside a region. -/
def ChunkTable.liveIn (t : ChunkTable) (s : Span) : Multiset Chunk :=
  t.live.filter fun c => s.start ≤ c.key ∧ c.key < s.limit

/-- The bytes a chunk takes in a region, in natural numbers. -/
def Span.takes (s : Span) (c : Chunk) : Extent :=
  ⟨c.key, min (c.key + c.usable + kChunkMinOverheadBytes) s.limit⟩

/-- The footprints of the live chunks inside a region. -/
def ChunkTable.footprintsIn (t : ChunkTable) (s : Span) : Multiset Extent :=
  (t.liveIn s).map s.takes

/-- Footprints by ascending start. -/
noncomputable def inAddressOrder (M : Multiset Extent) : List Extent := sortExtents M.toList

/-- The placements a pass finds, in slot order. -/
def placements (t : ChunkTable) (regions : RegionMap) : List (Span × Extent) :=
  ((List.range t.capacity).map t.slots).filterMap (placedIn regions)

section Table

variable {t t' : ChunkTable} {regions : RegionMap}

theorem placedIn_full {c : Chunk} {q : Span × Extent} (h : placedIn regions c = some q) :
    c.full = true := by
  unfold placedIn at h
  split at h
  · cases h
  · rename_i hkeep
    rw [not_or, not_not] at hkeep
    rw [full_iff, hkeep.1]
    simp

/-- The placements are those of the records. -/
theorem coe_placements (t : ChunkTable) (regions : RegionMap) :
    (placements t regions : Multiset (Span × Extent)) =
      t.records.filterMap (placedIn regions) := by
  have hskip : (fun c : Chunk => if c.full = true then placedIn regions c else none) =
      placedIn regions := by
    funext c
    cases hplaced : placedIn regions c with
    | none => simp
    | some q => rw [if_pos (placedIn_full hplaced)]
  unfold placements ChunkTable.records contents
  rw [Multiset.filterMap_filter, hskip]
  rfl

theorem mem_placements {q : Span × Extent} :
    q ∈ placements t regions ↔ ∃ c ∈ t.records, placedIn regions c = some q := by
  rw [← Multiset.mem_coe, coe_placements, Multiset.mem_filterMap]

theorem placements_perm (h : t'.records = t.records) (regions : RegionMap) :
    (placements t regions).Perm (placements t' regions) := by
  rw [← Multiset.coe_eq_coe, coe_placements, coe_placements, h]

theorem filterMap_congr_of_mem {α β : Type} {f g : α → Option β} {M : Multiset α}
    (h : ∀ a ∈ M, f a = g a) : M.filterMap f = M.filterMap g := by
  induction M using Quot.inductionOn with
  | h l => exact congrArg Multiset.ofList (List.filterMap_congr h)

theorem placedIn_start {c : Chunk} {q : Span × Extent} (h : placedIn regions c = some q) :
    q.2.start = c.key := by
  unfold placedIn at h
  split at h
  · cases h
  · obtain ⟨s, -, rfl⟩ := Option.map_eq_some_iff.mp h
    rfl

/-- In a mapped region, the footprints a pass puts there are those of the live
chunks inside it. -/
theorem coe_inSpan (hI : TableInv t) (hr : regions.Mapped) (hfit : t.Unwrapped) {s : Span}
    (hs : s ∈ regions.spans) :
    (inSpan (placements t regions) s : Multiset Extent) = t.footprintsIn s := by
  unfold inSpan ChunkTable.footprintsIn ChunkTable.liveIn ChunkTable.live liveOf
  rw [← Multiset.map_coe, ← Multiset.filter_coe, coe_placements, Multiset.filter_filterMap,
    Multiset.map_filterMap, Multiset.filter_filter, Multiset.map_filter_eq_filterMap]
  refine filterMap_congr_of_mem ?_
  intro c hc
  refine Option.ext fun e => ?_
  rw [Option.map_eq_some_iff]
  constructor
  · rintro ⟨⟨s', e'⟩, hq, rfl⟩
    obtain ⟨hplaced, hs'⟩ := Option.filter_eq_some_iff.mp hq
    obtain rfl := of_decide_eq_true hs'
    obtain ⟨hlive, -, -, hlo, hhi, rfl⟩ := (placedIn_eq_some hr).mp hplaced
    rw [if_pos ⟨⟨hlo, hhi⟩, hlive⟩]
    have hlimit := @footprint_limit c s' (hfit c (mem_live.mpr ⟨hc, hlive⟩))
    exact congrArg some (congrArg (Extent.mk c.key) hlimit.symm)
  · intro h
    obtain ⟨⟨⟨hlo, hhi⟩, hlive⟩, heq⟩ := Option.ite_none_right_eq_some.mp h
    have hlimit := @footprint_limit c s (hfit c (mem_live.mpr ⟨hc, hlive⟩))
    refine ⟨(s, footprint s c), Option.filter_eq_some_iff.mpr ⟨?_, decide_eq_true rfl⟩, ?_⟩
    · exact (placedIn_eq_some hr).mpr ⟨hlive, hI.key_ne c hc, hs, hlo, hhi, rfl⟩
    · rw [← Option.some.inj heq]
      exact congrArg (Extent.mk c.key) hlimit

/-- Two live chunks never start at one address. -/
theorem starts_nodup (hI : TableInv t) (regions : RegionMap) :
    (((placements t regions).map Prod.snd).map Extent.start).Nodup := by
  have hkeys : ((((placements t regions).map Prod.snd).map Extent.start : List Nat) :
      Multiset Nat) = (t.records.filter fun c => (placedIn regions c).isSome = true).map
        Chunk.key := by
    rw [← Multiset.map_coe, ← Multiset.map_coe, coe_placements, Multiset.map_filterMap,
      Multiset.map_filterMap, Multiset.map_filter_eq_filterMap]
    refine filterMap_congr_of_mem ?_
    intro c hc
    cases hplaced : placedIn regions c with
    | none => rfl
    | some q => simp [placedIn_start hplaced]
  rw [← Multiset.coe_nodup, hkeys]
  exact Multiset.nodup_of_le (Multiset.map_le_map (Multiset.filter_le _ _)) hI.nodup

/-- Every live record is placed or outside. -/
theorem outside_add_placed (M : Multiset Chunk) (hkey : ∀ c ∈ M, c.key ≠ 0) :
    M.countP (fun c => isOutside regions c = true) + (M.filterMap (placedIn regions)).card =
      (liveOf M).card := by
  induction M using Multiset.induction with
  | empty => rfl
  | cons c M ih =>
      have hrest := ih fun d hd => hkey d (Multiset.mem_cons_of_mem hd)
      have hc := hkey c (Multiset.mem_cons_self c M)
      rw [Multiset.countP_cons]
      by_cases hlive : c.state = .live
      · rw [liveOf_cons_live M hlive, Multiset.card_cons]
        cases hspan : regions.spanAtAddr c.key with
        | none =>
            have hplaced : placedIn regions c = none := by simp [placedIn, hspan]
            rw [Multiset.filterMap_cons_none _ _ hplaced, if_pos (by simp [isOutside, *])]
            omega
        | some s =>
            have hplaced : placedIn regions c = some (s, footprint s c) := by
              simp [placedIn, hlive, hc, hspan]
            rw [Multiset.filterMap_cons_some _ _ _ hplaced, if_neg (by simp [isOutside, *]),
              Multiset.card_cons]
            omega
      · have hplaced : placedIn regions c = none := by simp [placedIn, hlive]
        rw [liveOf_cons_dead M hlive, Multiset.filterMap_cons_none _ _ hplaced,
          if_neg (by simp [isOutside, *])]
        omega

/-- No placed footprint is empty. -/
theorem placements_extent (hr : regions.Mapped) (hfit : t.Unwrapped) {q : Span × Extent}
    (hq : q ∈ placements t regions) :
    q.1.start ≤ q.2.start ∧ q.2.start < q.2.limit ∧ q.2.limit ≤ q.1.limit := by
  obtain ⟨c, hc, hplaced⟩ := mem_placements.mp hq
  have hlive : c ∈ t.live := mem_live.mpr ⟨hc, ((placedIn_eq_some hr).mp hplaced).1⟩
  exact (placedIn_extent hr (hfit c hlive) hplaced).2

/-- The walk, as a function of the records. -/
theorem fragWalk_eq (hr : regions.Mapped) (hfit : t.Unwrapped) (collect : Bool) :
    fragWalk t regions collect =
      ⟨fun i => (extentsOf regions (placements t regions) i).foldl RegionAcc.add RegionAcc.init,
        (placements t regions).length, t.records.countP fun c => isOutside regions c = true,
        if collect then (placements t regions).map Prod.snd else []⟩ := by
  have hslots : ∀ c ∈ (List.range t.capacity).map t.slots, ∀ s e,
      placedIn regions c = some (s, e) → e.start < e.limit := by
    intro c hc s e hplaced
    have hq : (s, e) ∈ placements t regions := List.mem_filterMap.mpr ⟨c, hc, hplaced⟩
    exact (placements_extent hr hfit hq).2.1
  have hcount : ((List.range t.capacity).map t.slots).countP (isOutside regions) =
      t.records.countP fun c => isOutside regions c = true := by
    unfold ChunkTable.records contents
    rw [Multiset.countP_filter]
    refine List.countP_congr ?_
    intro c hc
    rw [decide_eq_true_eq, iff_self_and]
    intro hout
    have hlive := (of_decide_eq_true hout).1
    rw [full_iff, hlive]
    simp
  obtain ⟨hacc, hchunks, houtside, hextents⟩ := foldl_slot collect _ FragPass.init hslots
  refine FragPass.ext hacc (hchunks.trans (Nat.zero_add _)) ?_ hextents
  exact houtside.trans ((Nat.zero_add _).trans hcount)

theorem FragPass.report_congr {p p' : FragPass} (hacc : p'.acc = p.acc)
    (hchunks : p'.chunks = p.chunks) (houtside : p'.outside = p.outside)
    (hperm : p.extents.Perm p'.extents) (hstarts : (p.extents.map Extent.start).Nodup)
    (collect : Bool) : p'.report regions collect = p.report regions collect := by
  have hsorted := sortExtents_congr hperm hstarts
  have hempty : p'.extents = [] ↔ p.extents = [] := by
    rw [← List.length_eq_zero_iff, ← List.length_eq_zero_iff, hperm.length_eq]
  have hisEmpty : p'.extents.isEmpty = p.extents.isEmpty := by
    rw [Bool.eq_iff_iff, List.isEmpty_iff, List.isEmpty_iff, hempty]
  unfold FragPass.report
  simp only [hacc, hchunks, houtside, ← hsorted, ne_eq, hempty, hisEmpty]

/-- A pass does not see the slot layout. -/
theorem fragReport_congr (hI : TableInv t) (hI' : TableInv t') (hr : regions.Mapped)
    (hfit : t.Unwrapped) (hrec : t'.records = t.records) (maxSorted : Nat) :
    fragReport t' regions maxSorted = fragReport t regions maxSorted := by
  have hfit' : t'.Unwrapped := by
    unfold ChunkTable.Unwrapped ChunkTable.live at hfit ⊢
    rw [hrec]
    exact hfit
  have hcollect : collects t' regions maxSorted = collects t regions maxSorted := by
    unfold collects
    rw [hI.size_eq, hI'.size_eq, hrec]
  have hperm := placements_perm hrec regions
  have hstarts := starts_nodup hI regions
  unfold fragReport
  rw [hcollect]
  dsimp only
  rw [fragWalk_eq hr hfit, fragWalk_eq hr hfit', hrec]
  apply FragPass.report_congr
  · funext i
    exact (foldl_add_perm ((hperm.filter _).map _) _).symm
  · exact hperm.length_eq.symm
  · rfl
  · dsimp only
    split
    · exact hperm.map _
    · exact List.Perm.nil
  · dsimp only
    split
    · exact hstarts
    · exact List.nodup_nil

theorem inSpan_starts_nodup (hI : TableInv t) (regions : RegionMap) (s : Span) :
    ((inSpan (placements t regions) s).map Extent.start).Nodup := by
  refine (starts_nodup hI regions).sublist ?_
  unfold inSpan
  exact (List.filter_sublist.map _).map _

theorem sortExtents_inSpan (hI : TableInv t) (hr : regions.Mapped) (hfit : t.Unwrapped) {s : Span}
    (hs : s ∈ regions.spans) :
    sortExtents (inSpan (placements t regions) s) = inAddressOrder (t.footprintsIn s) := by
  refine sortExtents_congr ?_ (inSpan_starts_nodup hI regions s)
  rw [← Multiset.coe_eq_coe, Multiset.coe_toList]
  exact coe_inSpan hI hr hfit hs

/-- No two live footprints in a region share a byte. -/
def ChunkTable.Disjoint (t : ChunkTable) (s : Span) : Prop :=
  ∀ c ∈ t.liveIn s, ∀ d ∈ t.liveIn s, c ≠ d → (s.takes c).Apart (s.takes d)

/-- The totals of a region, under the sorted definition. -/
theorem inSpan_spread (hI : TableInv t) (hr : regions.Mapped) (hfit : t.Unwrapped) {s : Span}
    (hs : s ∈ regions.spans) (hdisjoint : t.Disjoint s) :
    ((inSpan (placements t regions) s).foldl RegionAcc.add RegionAcc.init).spread =
      ((inSpan (placements t regions) s).foldl RegionAcc.add RegionAcc.init).used +
        gaps Extent.start Extent.limit (inAddressOrder (t.footprintsIn s)) := by
  have hcoe := coe_inSpan hI hr hfit hs
  have hlt : ∀ e ∈ inSpan (placements t regions) s, e.start < e.limit := by
    intro e he
    obtain ⟨q, hq, rfl⟩ := List.mem_map.mp he
    exact (placements_extent hr hfit (List.mem_filter.mp hq).1).2.1
  have hapart : (inSpan (placements t regions) s).Pairwise Extent.Apart := by
    refine (inSpan_starts_nodup hI regions s).of_map.pairwise_of_forall_ne ?_
    intro e he e' he' hne
    rw [← Multiset.mem_coe, hcoe] at he he'
    obtain ⟨c, hc, rfl⟩ := Multiset.mem_map.mp he
    obtain ⟨d, hd, rfl⟩ := Multiset.mem_map.mp he'
    exact hdisjoint c hc d hd fun hcd => hne (congrArg _ hcd)
  rw [← sortExtents_inSpan hI hr hfit hs,
    ← foldl_add_perm (sortExtents_perm (inSpan (placements t regions) s))]
  exact acc_ascending (sortExtents_ascending hlt hapart)

/-- The totals of the regions, in the order of the spans. -/
def regionAccs (t : ChunkTable) (regions : RegionMap) : List RegionAcc :=
  regions.spans.map fun s => (inSpan (placements t regions) s).foldl RegionAcc.add RegionAcc.init

/-- What a pass reports, without the largest hole. -/
theorem fragReport_sums (hr : regions.Mapped) (hfit : t.Unwrapped) (maxSorted : Nat) :
    (fragReport t regions maxSorted).spanBytes =
        ((regionAccs t regions).map RegionAcc.spread).sum ∧
      (fragReport t regions maxSorted).usedBytes =
        ((regionAccs t regions).map RegionAcc.used).sum ∧
      (fragReport t regions maxSorted).chunks = (placements t regions).length ∧
      (fragReport t regions maxSorted).outside =
        t.records.countP fun c => isOutside regions c = true := by
  have haccs : ((List.range regions.spans.length).map
      (fragWalk t regions (collects t regions maxSorted)).acc) = regionAccs t regions := by
    rw [fragWalk_eq hr hfit]
    exact map_range_extentsOf hr.nodup _ _
  have hempty : ∀ a ∈ regionAccs t regions, a.chunks = 0 → a = RegionAcc.init := by
    intro a ha hnone
    obtain ⟨s, -, rfl⟩ := List.mem_map.mp ha
    exact acc_of_chunks_eq_zero hnone
  unfold fragReport FragPass.report
  dsimp only
  rw [haccs, foldl_addRegion _ _ hempty, fragWalk_eq hr hfit]
  simp [FragReport.init]

/-- The lengths measured do not exceed the regions. -/
theorem spanBytes_le (hr : regions.Mapped) (hfit : t.Unwrapped) (maxSorted : Nat) :
    (fragReport t regions maxSorted).spanBytes ≤ (regions.spans.map Span.size).sum := by
  rw [(fragReport_sums hr hfit maxSorted).1]
  unfold regionAccs
  rw [List.map_map]
  refine List.sum_le_sum fun s hs => acc_spread_le ?_
  intro e he
  obtain ⟨q, hq, rfl⟩ := List.mem_map.mp he
  obtain ⟨hmem, hspan⟩ := List.mem_filter.mp hq
  obtain rfl := of_decide_eq_true hspan
  have := placements_extent hr hfit hmem
  omega

/-- The bytes between the live footprints, region by region. -/
noncomputable def ChunkTable.holes (t : ChunkTable) (regions : RegionMap) : Nat :=
  (regions.spans.map fun s =>
    gaps Extent.start Extent.limit (inAddressOrder (t.footprintsIn s))).sum

/-- Span, used bytes and holes: the header's identity. -/
theorem spanBytes_eq (hI : TableInv t) (hr : regions.Mapped) (hfit : t.Unwrapped)
    (hdisjoint : ∀ s ∈ regions.spans, t.Disjoint s) (maxSorted : Nat) :
    (fragReport t regions maxSorted).spanBytes =
      (fragReport t regions maxSorted).usedBytes + t.holes regions := by
  obtain ⟨hspan, hused, -⟩ := fragReport_sums hr hfit maxSorted
  rw [hspan, hused]
  unfold regionAccs ChunkTable.holes
  rw [List.map_map, List.map_map, ← List.sum_map_add]
  congr 1
  refine List.map_congr_left ?_
  intro s hs
  exact inSpan_spread hI hr hfit hs (hdisjoint s hs)

end Table

theorem analyze_report {f : FragAnalyzer} {nowMs : Nat} (hdue : f.due nowMs = true)
    (t : ChunkTable) (regions : RegionMap) :
    (f.analyze t regions nowMs).1.report = fragReport t regions f.maxSorted := by
  unfold FragAnalyzer.analyze
  rw [if_neg (by simp [hdue])]

/-- **Fragmentation without sorting.** Where no two live footprints of a region
share a byte, what a pass reports is the sum of the holes between footprints
next to each other in one region; the percentage is their share of the span and
negative exactly without one; every live record is counted; and another table
with these records gives the same report. -/
theorem gapBytes_eq_holes (t : ChunkTable) (regions : RegionMap) (f : FragAnalyzer) (nowMs : Nat)
    (ht : t.Reached) (hregions : regions.Built) (hdue : f.due nowMs = true)
    (htotal : regions.total < 2 ^ 57) (haddr : ∀ c ∈ t.records, c.key < 2 ^ 63 ∧ c.usable < 2 ^ 32)
    (hdisjoint : ∀ s ∈ regions.spans, t.Disjoint s) :
    (f.analyze t regions nowMs).1.report.gapBytes = t.holes regions ∧
      ((f.analyze t regions nowMs).1.report.spanBytes ≠ 0 →
        (f.analyze t regions nowMs).1.report.percent =
            ((100 * (f.analyze t regions nowMs).1.report.gapBytes /
              (f.analyze t regions nowMs).1.report.spanBytes : Nat) : Int) ∧
          0 ≤ (f.analyze t regions nowMs).1.report.percent ∧
          (f.analyze t regions nowMs).1.report.percent ≤ 100) ∧
      ((f.analyze t regions nowMs).1.report.spanBytes = 0 →
        (f.analyze t regions nowMs).1.report.percent = -1) ∧
      (f.analyze t regions nowMs).1.report.outside + (f.analyze t regions nowMs).1.report.chunks =
        t.live.card ∧
      ∀ t' : ChunkTable, t'.Reached → t'.records = t.records →
        (f.analyze t' regions nowMs).1.report = (f.analyze t regions nowMs).1.report := by
  have hr := hregions.mapped
  have hI := ht.inv.toTableInv
  have hfit : t.Unwrapped := by
    intro c hc
    have := haddr c (mem_live.mp hc).1
    unfold kChunkMinOverheadBytes
    omega
  obtain ⟨-, -, hchunks, houtside⟩ := fragReport_sums hr hfit f.maxSorted
  have hsum := spanBytes_eq hI hr hfit hdisjoint f.maxSorted
  have hle := spanBytes_le hr hfit f.maxSorted
  rw [hregions.sum_size] at hle
  have hgap : (fragReport t regions f.maxSorted).gapBytes =
      if (fragReport t regions f.maxSorted).spanBytes > (fragReport t regions f.maxSorted).usedBytes
      then (fragReport t regions f.maxSorted).spanBytes -
        (fragReport t regions f.maxSorted).usedBytes
      else 0 := rfl
  have hpercent : (fragReport t regions f.maxSorted).percent =
      if (fragReport t regions f.maxSorted).spanBytes ≠ 0 then
        (((fragReport t regions f.maxSorted).gapBytes * 100 % 2 ^ 64 /
          (fragReport t regions f.maxSorted).spanBytes : Nat) : Int)
      else -1 := rfl
  rw [analyze_report hdue]
  have hholes : (fragReport t regions f.maxSorted).gapBytes = t.holes regions := by
    rw [hgap]
    split <;> omega
  refine ⟨hholes, ?_, ?_, ?_, ?_⟩
  · intro hspan
    rw [if_pos hspan, Nat.mod_eq_of_lt (by omega), Nat.mul_comm] at hpercent
    have hmost : 100 * (fragReport t regions f.maxSorted).gapBytes /
        (fragReport t regions f.maxSorted).spanBytes ≤ 100 := by
      refine Nat.div_le_of_le_mul ?_
      rw [Nat.mul_comm]
      exact Nat.mul_le_mul_right _ (by omega)
    rw [hpercent]
    exact ⟨rfl, Int.natCast_nonneg _, Int.ofNat_le.mpr hmost⟩
  · intro hspan
    rw [hpercent, if_neg (not_not.mpr hspan)]
  · rw [houtside, hchunks, ← Multiset.coe_card, coe_placements]
    exact outside_add_placed _ hI.key_ne
  · intro t' ht' hrec
    rw [analyze_report hdue]
    exact fragReport_congr hI ht'.inv.toTableInv hr hfit hrec f.maxSorted

/-- Two chunks of 24 usable bytes with one such chunk's room between them. -/
def twoChunks : ChunkTable :=
  (ChunkTable.new 16).capRun
    [.call (.insertLive 0x1010 20 24 1 7), .call (.insertLive 0x1050 20 24 2 7)]

/-- The heap with two chunks in it. -/
theorem gapBytes_eq_holes_two :
    (FragAnalyzer.init.analyze twoChunks (RegionMap.init.rebuild [brkHeap]).1 0).1.report.gapBytes =
      twoChunks.holes (RegionMap.init.rebuild [brkHeap]).1 := by
  exact (gapBytes_eq_holes twoChunks (RegionMap.init.rebuild [brkHeap]).1 FragAnalyzer.init 0
    ⟨16, _, rfl⟩ ⟨RegionMap.init, [brkHeap], ⟨by decide, ⟨by decide, by decide⟩, by decide⟩, rfl⟩
    rfl (by decide) (by decide)
    (by unfold ChunkTable.Disjoint Extent.Apart; decide)).1

/-- Without a span the panel is told that there is no figure, not that it is
zero. -/
theorem percent_without_span :
    (FragAnalyzer.init.analyze (ChunkTable.new 16) RegionMap.init 0).1.report.spanBytes = 0 ∧
      (FragAnalyzer.init.analyze (ChunkTable.new 16) RegionMap.init 0).1.report.percent = -1 := by
  decide

end Heapviz
