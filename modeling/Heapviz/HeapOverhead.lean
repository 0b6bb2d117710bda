import Heapviz.HeapEnrich

/-!
# What exact overhead adds up to

A cell holds one number for the overhead of all its chunks. An allocation
adds `usable - size`; when a header has been read, that figure is taken
out and the exact one put in; when the chunk is freed, the exact figure
must be exchanged back before the approximate one is subtracted. Which of
the two a chunk stands for is remembered in a mark on its record.

The record outlives the allocation. `insert_live` over a freed record
keeps the mark, so a recycled chunk can be marked without its header ever
having been read, and its free then takes out a figure that was never put
in. `Reversible` is the condition that no free does that - and that the
exchange on the way out does not leave the 32 bits the cell has, and that
the cell still counts something; every step that meets it keeps each cell
at what its chunks cost (`RefineInv`).

`RefineSys` splits an enrichment pass at its folds, since each of them
moves a cell, and keeps as history which header each chunk was last
refined with.
-/

namespace Heapviz

open ChunkTable

/-! ## Costs -/

section Costs

variable {bucket : Nat → Option Nat} {cost cost' : Chunk → Nat} {m : HeatMap}
  {regions : Option RegionMap} {L : Multiset Chunk} {c d : Chunk}

theorem total_inCell_congr (h : ∀ c ∈ L, cost' c = cost c) (i : Nat) :
    total cost' (inCell bucket L i) = total cost (inCell bucket L i) :=
  congrArg Multiset.sum (Multiset.map_congr rfl fun c hc => h c (Multiset.mem_filter.mp hc).1)

theorem Overheads.congr (h : Overheads bucket cost m L) (hcost : ∀ c ∈ L, cost' c = cost c) :
    Overheads bucket cost' m L := fun i => by rw [total_inCell_congr hcost i, h i]

/-- The sums all fit the 32 bits a cell has. -/
def Fits (bucket : Nat → Option Nat) (cost : Chunk → Nat) (L : Multiset Chunk) : Prop :=
  ∀ i, total cost (inCell bucket L i) < 2 ^ 32

theorem Overheads.eq_total (h : Overheads bucket cost m L) (hfit : Fits bucket cost L) (i : Nat) :
    (m.cells i).overheadBytes = total cost (inCell bucket L i) := by
  rw [h i, Nat.mod_eq_of_lt (hfit i)]

/-- What a cell holds, split at one of its chunks. -/
theorem Overheads.eq_add (h : Overheads bucket cost m (c ::ₘ L))
    (hfit : Fits bucket cost (c ::ₘ L)) {i : Nat} (hi : bucket c.key = some i) :
    (m.cells i).overheadBytes = cost c + total cost (inCell bucket L i) := by
  rw [h.eq_total hfit, inCell_cons_self hi, total_cons]

theorem onAlloc_overheads (h : Overheads (m.cellFor regions) cost m L) {size usable ms : Nat}
    (hcost : cost c = overheadOf size usable) :
    Overheads (m.cellFor regions) cost (m.onAlloc regions c.key size usable ms) (c ::ₘ L) := by
  unfold HeatMap.onAlloc
  cases hi : m.cellFor regions c.key with
  | none => exact (overheads_cons_none hi).mpr h
  | some i =>
      refine h.add hi (fun j hj => setCell_of_ne m _ hj) ?_
      rw [hcost]
      exact congrArg CellAggregate.overheadBytes (setCell_self m i _)

theorem onFree_overheads (h : Overheads (m.cellFor regions) cost m (c ::ₘ L))
    (hfit : Fits (m.cellFor regions) cost (c ::ₘ L)) {size usable ms : Nat}
    (hcost : cost c = overheadOf size usable)
    (hpos : ∀ i, m.cellFor regions c.key = some i → (m.cells i).nLive ≠ 0) :
    Overheads (m.cellFor regions) cost (m.onFree regions c.key size usable ms) L := by
  unfold HeatMap.onFree
  cases hi : m.cellFor regions c.key with
  | none => exact (overheads_cons_none hi).mp h
  | some i =>
      simp only [if_pos (Nat.pos_of_ne_zero (hpos i hi))]
      intro j
      have hj := h j
      by_cases hji : j = i
      · subst hji
        have hsum := h.eq_add hfit hi
        have hlt := hfit j
        rw [inCell_cons_self hi, total_cons] at hlt
        refine (congrArg CellAggregate.overheadBytes (setCell_self m j _)).trans ?_
        simp only [CellAggregate.dropLive]
        rw [← hcost, hsum, Nat.add_sub_cancel_left, Nat.mod_eq_of_lt (by omega)]
      · rw [inCell_cons_ne (by rw [hi]; simp [Ne.symm hji])] at hj
        rw [← hj]
        exact congrArg CellAggregate.overheadBytes (setCell_of_ne m _ hji)

/-- Exchanging one chunk's figure for another. -/
theorem refineOverhead_overheads (h : Overheads (m.cellFor regions) cost m (c ::ₘ L))
    (hfit : Fits (m.cellFor regions) cost (c ::ₘ L)) (hkey : d.key = c.key)
    (hsame : ∀ e ∈ L, cost' e = cost e) :
    Overheads (m.cellFor regions) cost'
      (m.refineOverhead regions c.key (cost c) (cost' d)).1 (d ::ₘ L) := by
  unfold HeatMap.refineOverhead
  cases hi : m.cellFor regions c.key with
  | none =>
      exact (overheads_cons_none (hkey.symm ▸ hi)).mpr
        (((overheads_cons_none hi).mp h).congr hsame)
  | some i =>
      intro j
      by_cases hji : j = i
      · subst hji
        refine (congrArg CellAggregate.overheadBytes (setCell_self m j _)).trans ?_
        rw [h.eq_add hfit hi, Nat.add_sub_cancel_left, add32,
          inCell_cons_self (hkey.symm ▸ hi), total_cons, total_inCell_congr hsame, Nat.add_comm]
      · have hj := h j
        rw [inCell_cons_ne (by rw [hi]; simp [Ne.symm hji])] at hj
        rw [inCell_cons_ne (by rw [hkey, hi]; simp [Ne.symm hji]), total_inCell_congr hsame, ← hj]
        exact congrArg CellAggregate.overheadBytes (setCell_of_ne m _ hji)

end Costs

/-! ## Keys of live records -/

theorem TableInv.live_key_ne {t : ChunkTable} (hI : TableInv t) {c : Chunk} {L : Multiset Chunk}
    (h : t.live = c ::ₘ L) : ∀ d ∈ L, d.key ≠ c.key := by
  have hle : t.live.map Chunk.key ≤ t.records.map Chunk.key :=
    Multiset.map_le_map (Multiset.filter_le ..)
  have hnd := Multiset.nodup_of_le hle hI.nodup
  rw [h, Multiset.map_cons, Multiset.nodup_cons] at hnd
  exact fun d hd heq => hnd.1 (heq ▸ Multiset.mem_map_of_mem Chunk.key hd)

theorem TableInv.liveAt_of_mem {t : ChunkTable} (hI : TableInv t) {c : Chunk} (hc : c ∈ t.live) :
    t.liveAt c.key = some c := by
  obtain ⟨hmem, hlive⟩ := mem_live.mp hc
  exact liveAt_eq_some.mpr ⟨hI.lookup_eq_some.mpr ⟨hmem, rfl⟩, hlive⟩

/-- `mark_refined` on the live records, when it goes through. -/
theorem TableInv.live_markRefined {t : ChunkTable} (hI : TableInv t) {c : Chunk} (hc : c ∈ t.live)
    {exactOverhead headerFlags : Nat}
    (hmark : (t.markRefined c.key exactOverhead headerFlags).2 = true) :
    ∃ L, t.live = c ::ₘ L ∧ (t.markRefined c.key exactOverhead headerFlags).1.live =
      c.refine exactOverhead headerFlags ::ₘ L := by
  obtain ⟨L, hL⟩ := Multiset.exists_cons_of_mem hc
  refine ⟨L, hL, ?_⟩
  obtain ⟨hmem, hlive⟩ := mem_live.mp hc
  rcases hI.markRefined c.key exactOverhead headerFlags with ⟨-, heq⟩ | ⟨-, hrew, -, -, -⟩
  · rw [heq] at hmark
    cases hmark
  · obtain ⟨d, hd, hkey, hrec⟩ := hrew
    obtain rfl : d = c :=
      Option.some.inj ((hI.lookup_eq_some.mpr ⟨hd, hkey⟩).symm.trans
        (hI.lookup_eq_some.mpr ⟨hmem, rfl⟩))
    have hof := congrArg liveOf hrec
    rw [liveOf_cons_live _ hlive,
      liveOf_cons_live (c := d.refine exactOverhead headerFlags) _ hlive] at hof
    have hof' : d ::ₘ (t.markRefined d.key exactOverhead headerFlags).1.live =
        d ::ₘ d.refine exactOverhead headerFlags ::ₘ L :=
      hof.trans ((congrArg _ hL).trans (Multiset.cons_swap ..))
    exact (Multiset.cons_inj_right d).mp hof'

/-! ## Events, passes and rebuilds -/

/-- A session and the headers its pass has still to fold in. `exact` is
history: the header each address was refined with, since its current
allocation and the last rebuild. -/
structure RefineSys where
  app : HeapApp
  todo : List (Chunk × HeapApp.ChunkInfo)
  exact : Nat → Option Nat

def RefineSys.init (app : HeapApp) : RefineSys := ⟨app, [], fun _ => none⟩

inductive RefineAct where
  | event (e : HvEvent)
  | enrich (nowMs : Nat) (reply : HeapApp.ReaderReply)
  | fold
  | rebuild
deriving Repr, DecidableEq

/-- The session's clock at the time of a pass. -/
def HeapApp.atMs (a : HeapApp) (nowMs : Nat) : HeapApp := { a with nowMs := nowMs }

/-- Whether folding the header in corrects the cell. -/
def HeapApp.folds (a : HeapApp) (c : Chunk) (info : HeapApp.ChunkInfo) : Bool :=
  info.valid && (a.table.markRefined c.key info.overhead info.header).2

/-- One step. A pass is `HeapApp.enrich`, fold by fold; between its folds nothing
else happens. -/
def RefineSys.step (s : RefineSys) : RefineAct → Option RefineSys
  | .event e =>
      if s.todo.isEmpty then
        some ⟨s.app.applyEvent e, [], Function.update s.exact e.ptr none⟩
      else none
  | .enrich nowMs reply =>
      if s.todo.isEmpty then
        let (app, headers) := (s.app.atMs nowMs).enrichBegin reply
        some ⟨app, headers, s.exact⟩
      else none
  | .fold =>
      match s.todo with
      | [] => none
      | (c, info) :: todo =>
          some ⟨s.app.foldHeader c info, todo,
            if s.app.folds c info then Function.update s.exact c.key (some info.overhead)
            else s.exact⟩
  | .rebuild => if s.todo.isEmpty then some ⟨s.app.rebuildMap, [], fun _ => none⟩ else none

/-- What a chunk costs: the header it was refined with, else what the
interceptor's figures say. -/
def RefineSys.cost (s : RefineSys) (c : Chunk) : Nat := (s.exact c.key).getD c.approx

/-- What the overhead of a cell should be. -/
def RefineSys.overhead (s : RefineSys) (i : Nat) : Nat :=
  total s.cost (inCell (s.app.map.cellFor s.app.translation) s.app.table.live i)

/-- The cells are wide enough for what they should hold. -/
def RefineSys.Fits (s : RefineSys) : Prop := ∀ i, s.overhead i < 2 ^ 32

/-- A regular stream: a free names a live chunk, an allocation an address that
is not live. -/
def RefineSys.Regular (s : RefineSys) : RefineAct → Prop
  | .event e =>
      e.ptr ≠ 0 ∧
        if e.isFree then (s.app.table.liveAt e.ptr).isSome else s.app.table.liveAt e.ptr = none
  | _ => True

/-- A free can be taken back out of its cell: the cell counts something, and
if the record is marked, the mark is of this allocation and exchanging
the figures stays within 32 bits. -/
def RefineSys.Reversible (s : RefineSys) : RefineAct → Prop
  | .event e =>
      e.isFree = true → ∀ c i, s.app.table.liveAt e.ptr = some c →
        s.app.map.cellFor s.app.translation e.ptr = some i →
        (s.app.map.cells i).nLive ≠ 0 ∧
          (c.marked = true → (s.exact e.ptr).isSome ∧
            (s.app.map.cells i).overheadBytes - c.overheadExact + c.approx < 2 ^ 32)
  | _ => True

instance RefineSys.Regular.decidable (s : RefineSys) : ∀ act, Decidable (s.Regular act)
  | .event _ => inferInstanceAs (Decidable (_ ∧ _))
  | .enrich _ _ | .fold | .rebuild => .isTrue trivial

instance RefineSys.Reversible.decidable (s : RefineSys) : ∀ act, Decidable (s.Reversible act)
  | .event e =>
      match hat : s.app.table.liveAt e.ptr, hi : s.app.map.cellFor s.app.translation e.ptr with
      | some c, some i =>
          decidable_of_iff (e.isFree = true → (s.app.map.cells i).nLive ≠ 0 ∧
              (c.marked = true → (s.exact e.ptr).isSome ∧
                (s.app.map.cells i).overheadBytes - c.overheadExact + c.approx < 2 ^ 32))
            ⟨fun h hfree d j hd hj => by
                obtain rfl := Option.some.inj (hat.symm.trans hd)
                obtain rfl := Option.some.inj (hi.symm.trans hj)
                exact h hfree,
              fun h hfree => h hfree c i hat hi⟩
      | none, _ => .isTrue fun _ c i hc _ => absurd (hat.symm.trans hc) (by simp)
      | _, none => .isTrue fun _ c i _ hj => absurd (hi.symm.trans hj) (by simp)
  | .enrich _ _ | .fold | .rebuild => .isTrue trivial

/-! ## The invariant -/

structure RefineInv (s : RefineSys) : Prop where
  wellFormed : s.app.WellFormed
  sums : Overheads (s.app.map.cellFor s.app.translation) s.cost s.app.map s.app.table.live
  sync : ∀ c ∈ s.app.table.live, ∀ x, s.exact c.key = some x →
    c.marked = true ∧ c.overheadExact = x
  todo : ((s.todo.map Prod.fst : List Chunk) : Multiset Chunk) ≤ s.app.table.unmarked
  cursor : s.app.enrichCursor < s.app.table.capacity

section Steps

variable {s s' : RefineSys}

theorem RefineSys.cost_of_ne {exact : Nat → Option Nat} {app app' : HeapApp}
    {todo todo' : List (Chunk × HeapApp.ChunkInfo)} {key : Nat} {v : Option Nat} {c : Chunk}
    (h : c.key ≠ key) :
    RefineSys.cost ⟨app', todo', Function.update exact key v⟩ c =
      RefineSys.cost ⟨app, todo, exact⟩ c := by
  simp only [RefineSys.cost, Function.update_of_ne h]

theorem RefineInv.alloc (h : RefineInv s) {e : HvEvent} (hptr : e.ptr ≠ 0)
    (hfree : e.isFree = false) (hnew : s.app.table.liveAt e.ptr = none) :
    RefineInv ⟨s.app.applyEvent e, [], Function.update s.exact e.ptr none⟩ := by
  obtain ⟨hmap, htable⟩ := HeapApp.applyEvent_alloc (a := s.app) hfree
  obtain ⟨c, -, hkey, -, hsize, husable, -, hadd⟩ := h.wellFormed.table.live_insertLive
    h.wellFormed.unbounded hptr (HeapApp.clampU32 e.size) e.usable
    (s.app.eventMs e.timestamp) (hvEventGetTid e)
  have hne : ∀ d ∈ s.app.table.live, d.key ≠ e.ptr := fun d hd heq => by
    have := h.wellFormed.table.liveAt_of_mem hd
    rw [heq, hnew] at this
    cases this
  have hlive : (s.app.applyEvent e).table.live = c ::ₘ s.app.table.live := by
    rw [htable]
    exact hadd hnew
  refine ⟨h.wellFormed.applyEvent e, ?_, ?_, Multiset.zero_le _, ?_⟩
  · rw [s.app.applyEvent_cellFor e, hlive, hmap, ← hkey]
    refine onAlloc_overheads (h.sums.congr ?_) ?_
    · intro d hd
      exact RefineSys.cost_of_ne (by rw [hkey]; exact hne d hd)
    · simp only [RefineSys.cost, Function.update_self, Option.getD_none, Chunk.approx, hsize,
        husable]
  · intro d hd x hx
    rw [hlive] at hd
    rcases Multiset.mem_cons.mp hd with rfl | hd
    · simp [hkey] at hx
    · dsimp only at hx
      rw [Function.update_of_ne (hne d hd)] at hx
      exact h.sync d hd x hx
  · exact h.wellFormed.applyEvent_cursor e h.cursor

/-- Taking the exact figure back: afterwards the cell holds the approximate
one for `c`, and still fits. -/
theorem RefineInv.unrefined (h : RefineInv s) {c : Chunk} {L : Multiset Chunk}
    (hlive : s.app.table.live = c ::ₘ L) (hfits : s.Fits)
    (hrev : ∀ i, s.app.map.cellFor s.app.translation c.key = some i → c.marked = true →
      (s.exact c.key).isSome ∧
        (s.app.map.cells i).overheadBytes - c.overheadExact + c.approx < 2 ^ 32)
    {cost' : Chunk → Nat} (hc : cost' c = c.approx) (hL : ∀ d ∈ L, cost' d = s.cost d) :
    Overheads (s.app.map.cellFor s.app.translation) cost' (s.app.unrefined c) (c ::ₘ L) ∧
      Fits (s.app.map.cellFor s.app.translation) cost' (c ::ₘ L) := by
  have hsums := h.sums
  have hfit : Fits (s.app.map.cellFor s.app.translation) s.cost s.app.table.live := hfits
  have hsync := h.sync c (hlive ▸ Multiset.mem_cons_self ..)
  rw [hlive] at hsums hfit
  cases hi : s.app.map.cellFor s.app.translation c.key with
  | none =>
      have hmap : s.app.unrefined c = s.app.map := by
        unfold HeapApp.unrefined
        split
        · simp only [HeatMap.refineOverhead, hi]
        · rfl
      rw [hmap]
      refine ⟨(overheads_cons_none hi).mpr (((overheads_cons_none hi).mp hsums).congr hL),
        fun j => ?_⟩
      have hj := hfit j
      rw [inCell_cons_ne (by rw [hi]; simp)] at hj ⊢
      rwa [total_inCell_congr hL]
  | some i =>
      cases hm : c.marked with
      | false =>
          have hmap : s.app.unrefined c = s.app.map := by
            unfold HeapApp.unrefined
            rw [if_neg (by simpa [Chunk.marked] using hm)]
          have hcost : s.cost c = c.approx := by
            unfold RefineSys.cost
            cases hx : s.exact c.key with
            | none => rfl
            | some x =>
                rw [(hsync x hx).1] at hm
                cases hm
          have hall : ∀ d ∈ c ::ₘ L, cost' d = s.cost d := fun d hd => by
            rcases Multiset.mem_cons.mp hd with rfl | hd
            · rw [hc, hcost]
            · exact hL d hd
          rw [hmap]
          refine ⟨hsums.congr hall, fun j => ?_⟩
          rw [total_inCell_congr hall]
          exact hfit j
      | true =>
          obtain ⟨hsome, hlt⟩ := hrev i hi hm
          obtain ⟨x, hx⟩ := Option.isSome_iff_exists.mp hsome
          have hcost : s.cost c = c.overheadExact := by
            rw [RefineSys.cost, hx, Option.getD_some, (hsync x hx).2]
          have hmap : s.app.unrefined c =
              (s.app.map.refineOverhead s.app.translation c.key (s.cost c) (cost' c)).1 := by
            unfold HeapApp.unrefined
            rw [if_pos (by simpa [Chunk.marked] using hm), hcost, hc, Chunk.approx]
          refine ⟨hmap ▸ refineOverhead_overheads hsums hfit rfl hL, fun j => ?_⟩
          by_cases hj : j = i
          · subst hj
            rw [hsums.eq_add hfit hi, hcost, Nat.add_sub_cancel_left] at hlt
            rw [inCell_cons_self hi, total_cons, total_inCell_congr hL, hc, Nat.add_comm]
            exact hlt
          · have hjfit := hfit j
            rw [inCell_cons_ne (by rw [hi]; simp [Ne.symm hj])] at hjfit ⊢
            rwa [total_inCell_congr hL]

theorem RefineInv.free (h : RefineInv s) (hfits : s.Fits) {e : HvEvent}
    (hfree : e.isFree = true) {c : Chunk} (hat : s.app.table.liveAt e.ptr = some c)
    (hrev : s.Reversible (.event e)) :
    RefineInv ⟨s.app.applyEvent e, [], Function.update s.exact e.ptr none⟩ := by
  obtain ⟨hlookup, -⟩ := liveAt_eq_some.mp hat
  have hkey := (h.wellFormed.table.lookup_eq_some.mp hlookup).2
  obtain ⟨hmap, htable⟩ := HeapApp.applyEvent_known hfree hlookup hkey
  have hgone := (h.wellFormed.table.live_markFreed e.ptr (s.app.eventMs e.timestamp)).1 c hat
  rw [← htable] at hgone
  have hne := h.wellFormed.table.live_key_ne hgone.symm
  rw [← hkey] at hmap hat
  refine ⟨h.wellFormed.applyEvent e, ?_, ?_, Multiset.zero_le _, ?_⟩
  · have hcost : RefineSys.cost ⟨s.app.applyEvent e, [], Function.update s.exact e.ptr none⟩ c =
        c.approx := by simp [RefineSys.cost, hkey]
    obtain ⟨hback, hfit⟩ := h.unrefined hgone.symm hfits
      (fun i hi hm => by rw [hkey]; exact (hrev hfree c i (hkey ▸ hat) (hkey ▸ hi)).2 hm) hcost
      fun d hd => RefineSys.cost_of_ne (hkey ▸ hne d hd)
    rw [← s.app.unrefined_cellFor c] at hback hfit
    rw [s.app.applyEvent_cellFor e, hmap, ← s.app.unrefined_cellFor c]
    refine onFree_overheads hback hfit hcost ?_
    intro i hi
    rw [(s.app.unrefined_cell c i).1]
    rw [s.app.unrefined_cellFor c] at hi
    exact (hrev hfree c i (hkey ▸ hat) (hkey ▸ hi)).1
  · intro d hd x hx
    dsimp only at hx
    rw [Function.update_of_ne (hkey ▸ hne d hd)] at hx
    exact h.sync d (hgone ▸ Multiset.mem_cons_of_mem hd) x hx
  · exact h.wellFormed.applyEvent_cursor e h.cursor

theorem Chunk.marked_refine (c : Chunk) (exactOverhead headerFlags : Nat) :
    (c.refine exactOverhead headerFlags).marked = true := by
  have hbit : (c.flags ||| kChunkFlagRefined ||| (headerFlags &&& kHeaderFlagMask)) &&&
      kChunkFlagRefined = kChunkFlagRefined := by
    refine Nat.eq_of_testBit_eq ?_
    intro i
    cases h : kChunkFlagRefined.testBit i <;> simp [h]
  simp only [Chunk.marked, Chunk.refine, hbit]
  decide

theorem RefineInv.fold (h : RefineInv s) (hfits : s.Fits) {c : Chunk} {info : HeapApp.ChunkInfo}
    {todo : List (Chunk × HeapApp.ChunkInfo)} (htodo : s.todo = (c, info) :: todo) :
    RefineInv ⟨s.app.foldHeader c info, todo,
      if s.app.folds c info then Function.update s.exact c.key (some info.overhead)
      else s.exact⟩ := by
  have hle := h.todo
  rw [htodo, List.map_cons, ← Multiset.cons_coe] at hle
  have hmem : c ∈ s.app.table.unmarked := Multiset.mem_of_le hle (Multiset.mem_cons_self ..)
  obtain ⟨hc, hunmarked⟩ := Multiset.mem_filter.mp hmem
  cases hfold : s.app.folds c info with
  | false =>
      have hsame : s.app.foldHeader c info = s.app := by
        unfold HeapApp.foldHeader
        split_ifs with hvalid hmark
        · rfl
        · rfl
        · simp [HeapApp.folds, hvalid, hmark] at hfold
      rw [hsame]
      exact ⟨h.wellFormed, h.sums, h.sync, (Multiset.le_cons_self ..).trans hle, h.cursor⟩
  | true =>
      have hsums := h.sums
      have hfit : Fits (s.app.map.cellFor s.app.translation) s.cost s.app.table.live := hfits
      simp only [HeapApp.folds, Bool.and_eq_true] at hfold
      obtain ⟨L, hL, hL'⟩ := h.wellFormed.table.live_markRefined hc hfold.2
      have hne := h.wellFormed.table.live_key_ne hL
      have happ : (s.app.foldHeader c info).table =
            (s.app.table.markRefined c.key info.overhead info.header).1 ∧
          (s.app.foldHeader c info).map = (s.app.map.refineOverhead s.app.translation c.key
            c.approx info.overhead).1 := by
        simp only [HeapApp.foldHeader, hfold.1, hfold.2, Bool.true_eq_false, if_false,
          Chunk.approx, and_self]
      have hcost : s.cost c = c.approx := by
        unfold RefineSys.cost
        cases hx : s.exact c.key with
        | none => rfl
        | some x =>
            rw [(h.sync c hc x hx).1] at hunmarked
            cases hunmarked
      rw [hL] at hsums hfit
      refine ⟨h.wellFormed.foldHeader c info, ?_, ?_, ?_, HeapApp.foldHeader_cursor c info h.cursor⟩
      · have hexchange := @refineOverhead_overheads s.cost
          (RefineSys.cost ⟨s.app.foldHeader c info, todo,
            Function.update s.exact c.key (some info.overhead)⟩) s.app.map s.app.translation L c
          (c.refine info.overhead info.header) hsums hfit rfl
          fun d hd => RefineSys.cost_of_ne (hne d hd)
        have hcost' : RefineSys.cost ⟨s.app.foldHeader c info, todo,
            Function.update s.exact c.key (some info.overhead)⟩
              (c.refine info.overhead info.header) = info.overhead := by
          simp [RefineSys.cost, Chunk.refine]
        rw [hcost, hcost'] at hexchange
        obtain ⟨hgrid, hcount, -, -⟩ :=
          @refineOverhead_frame s.app.map s.app.translation c.key c.approx info.overhead
        have hview := (s.app.foldHeader_view c info).translation
        simp only [if_true]
        rw [hview, happ.1, happ.2, hL', cellFor_congr hgrid hcount]
        exact hexchange
      · intro d hd x hx
        simp only [if_true] at hx
        rw [happ.1, hL'] at hd
        rcases Multiset.mem_cons.mp hd with rfl | hd
        · rw [show (c.refine info.overhead info.header).key = c.key from rfl,
            Function.update_self, Option.some.injEq] at hx
          exact ⟨c.marked_refine .., hx⟩
        · rw [Function.update_of_ne (hne d hd)] at hx
          exact h.sync d (hL ▸ Multiset.mem_cons_of_mem hd) x hx
      · dsimp only
        rw [unmarked, happ.1, hL', Multiset.filter_cons_of_neg _ (by simp [Chunk.marked_refine])]
        have hsplit : s.app.table.unmarked = c ::ₘ L.filter fun c => c.marked = false := by
          rw [unmarked, hL]
          exact Multiset.filter_cons_of_pos L hunmarked
        rw [hsplit] at hle
        exact (Multiset.cons_le_cons_iff c).mp hle

theorem RefineInv.rebuild (h : RefineInv s) :
    RefineInv ⟨s.app.rebuildMap, [], fun _ => none⟩ := by
  have hw := h.wellFormed.rebuildMap
  refine ⟨hw, fun i => ?_, fun c _ x hx => (by cases hx), Multiset.zero_le _, h.cursor⟩
  obtain ⟨hgrid, hcount⟩ := rebuild_frame s.app.map s.app.translation s.app.table
  have hsums := (rebuild_sums s.app.map s.app.translation s.app.table).2
  rw [← cellFor_eq_indexFor h.wellFormed.cells] at hsums
  have hbucket : s.app.rebuildMap.map.cellFor s.app.rebuildMap.translation =
      s.app.map.cellFor s.app.translation := cellFor_congr hgrid hcount
  have hlive : s.app.rebuildMap.table.live = s.app.table.live.map Chunk.unrefine :=
    live_clearRefined s.app.table
  -- neither where a chunk is nor what it costs depends on what the rebuild forgot
  have htotal : total Chunk.approx
      (inCell (s.app.map.cellFor s.app.translation) (s.app.table.live.map Chunk.unrefine) i) =
        total Chunk.approx
          (inCell (s.app.map.cellFor s.app.translation) s.app.table.live i) := by
    rw [inCell, Multiset.filter_map, total, Multiset.map_map]
    rfl
  dsimp only
  rw [hbucket, hlive]
  exact (hsums i).trans (congrArg (· % 2 ^ 32) htotal.symm)

theorem RefineInv.enrich (h : RefineInv s) (nowMs : Nat) (reply : HeapApp.ReaderReply) :
    RefineInv ⟨((s.app.atMs nowMs).enrichBegin reply).1,
      ((s.app.atMs nowMs).enrichBegin reply).2, s.exact⟩ := by
  obtain ⟨hle, hcur⟩ := HeapApp.enrichBegin_le (a := s.app.atMs nowMs) h.cursor reply
  obtain ⟨last, cursor, denied, heq⟩ :=
    HeapApp.enrichBegin_eq (s.app.atMs nowMs) reply
  rw [heq] at hcur ⊢
  exact ⟨⟨h.wellFormed.table, h.wellFormed.unbounded, h.wellFormed.cells⟩, h.sums, h.sync, hle,
    hcur⟩

/-- One step, taken in a state that fits, on a regular stream that stays
reversible. -/
theorem RefineInv.step (h : RefineInv s) (hfits : s.Fits) {act : RefineAct}
    (hreg : s.Regular act) (hrev : s.Reversible act) (hstep : s.step act = some s') :
    RefineInv s' := by
  cases act with
  | event e =>
      simp only [RefineSys.step, Option.ite_none_right_eq_some, Option.some.injEq] at hstep
      obtain ⟨-, rfl⟩ := hstep
      obtain ⟨hptr, hlive⟩ := hreg
      cases hfree : e.isFree with
      | false => exact h.alloc hptr hfree (by simpa [hfree] using hlive)
      | true =>
          obtain ⟨c, hat⟩ := Option.isSome_iff_exists.mp (by simpa [hfree] using hlive)
          exact h.free hfits hfree hat hrev
  | enrich nowMs reply =>
      simp only [RefineSys.step, Option.ite_none_right_eq_some, Option.some.injEq] at hstep
      obtain ⟨-, rfl⟩ := hstep
      exact h.enrich nowMs reply
  | fold =>
      simp only [RefineSys.step] at hstep
      split at hstep
      · cases hstep
      · next c info todo htodo =>
          obtain rfl := Option.some.inj hstep
          exact h.fold hfits htodo
  | rebuild =>
      simp only [RefineSys.step, Option.ite_none_right_eq_some, Option.some.injEq] at hstep
      obtain ⟨-, rfl⟩ := hstep
      exact h.rebuild

end Steps

/-! ## The start -/

theorem RefineInv.init (attached unicode : Bool) (originNs : Nat) (g : Grid)
    (regions : Option RegionMap) :
    RefineInv (RefineSys.init (HeapApp.onGrid attached unicode originNs g regions)) := by
  have hlive : (HeapApp.onGrid attached unicode originNs g regions).table.live = 0 :=
    HeapApp.new_live attached unicode originNs
  have hw := HeapApp.onGrid_wellFormed attached unicode originNs g regions
  obtain ⟨hcells, -⟩ := HeatMap.configure_init g
  refine ⟨hw, ?_, ?_, Multiset.zero_le _, ?_⟩
  · intro i
    simp only [RefineSys.init, hlive]
    exact congrArg (fun cells => (cells i).overheadBytes) hcells
  · intro c hc
    simp [RefineSys.init, hlive] at hc
  · have := hw.table.sized.one_lt
    exact Nat.lt_trans Nat.zero_lt_one this

end Heapviz
