import Mathlib.Algebra.Order.BigOperators.Group.Multiset
import Mathlib.Algebra.Order.Ring.Nat
import Mathlib.Algebra.Group.Action.Defs
import Heapviz.HeapOverhead

/-!
# Exact overhead over whole runs

As long as every free is reversible, each cell holds exactly what its live
chunks cost (`overhead_exact`). What goes wrong otherwise takes four
events after one pass: the refined chunk is freed, its address comes back
with the mark still on its record, and the next free of it takes 16 bytes
out of the cell that nobody put in.

Concrete runs need to know that no sum outgrows a cell; a short run cannot
make one that does (`RefineSys.fits_of_short`). The pass itself is not
evaluated on them: it reads the whole table, and all an event or a fold can
see of it afterwards is what it refined (`HeapApp.settled`).
-/

namespace Heapviz

open ChunkTable

/-! ## Short runs fit -/

/-- At most `n` records, each at most `u` of approximate overhead, and no
header above 16 bits. -/
structure RefineSys.Bounded (u n : Nat) (s : RefineSys) : Prop where
  card : s.app.table.records.card ≤ n
  approx : ∀ c ∈ s.app.table.records, c.approx ≤ u
  exact : ∀ key x, s.exact key = some x → x ≤ 2 ^ 16 - 1

section Short

variable {u n : Nat} {s s' : RefineSys}

theorem RefineSys.Bounded.fits (h : s.Bounded u n) (hlt : n * (u + 2 ^ 16) < 2 ^ 32) : s.Fits := by
  intro i
  have hcost : ∀ c ∈ inCell (s.app.map.cellFor s.app.translation) s.app.table.live i,
      s.cost c ≤ u + 2 ^ 16 := fun c hc => by
    have hrec := (mem_live.mp (Multiset.mem_filter.mp hc).1).1
    have happrox := h.approx c hrec
    unfold RefineSys.cost
    cases hx : s.exact c.key with
    | none => simp only [Option.getD_none]; omega
    | some x =>
        have := h.exact c.key x hx
        simp only [Option.getD_some]
        omega
  have hcard : (inCell (s.app.map.cellFor s.app.translation) s.app.table.live i).card ≤ n :=
    ((Multiset.card_le_card (Multiset.filter_le ..)).trans
      (Multiset.card_le_card (Multiset.filter_le ..))).trans h.card
  have hsum := Multiset.sum_le_card_nsmul
    ((inCell (s.app.map.cellFor s.app.translation) s.app.table.live i).map s.cost) (u + 2 ^ 16)
    (by simpa using hcost)
  rw [Multiset.card_map, smul_eq_mul] at hsum
  calc s.overhead i
      ≤ (inCell (s.app.map.cellFor s.app.translation) s.app.table.live i).card *
          (u + 2 ^ 16) := hsum
    _ ≤ n * (u + 2 ^ 16) := Nat.mul_le_mul_right _ hcard
    _ < 2 ^ 32 := hlt

/-- A record rewritten without changing its figures. -/
theorem Rewritten.bounded {t t' : ChunkTable} {key : Nat} {f : Chunk → Chunk}
    (h : Rewritten t key f t') (hf : ∀ c, c.approx ≤ u → (f c).approx ≤ u)
    (hcard : t.records.card ≤ n) (happrox : ∀ c ∈ t.records, c.approx ≤ u) :
    t'.records.card ≤ n ∧ ∀ c ∈ t'.records, c.approx ≤ u := by
  obtain ⟨d, hd, -, hrec⟩ := h
  constructor
  · have := congrArg Multiset.card hrec
    simp only [Multiset.card_cons, Nat.add_right_cancel_iff] at this
    rw [this]
    exact hcard
  · intro c hc
    have hmem : c ∈ f d ::ₘ t.records := hrec ▸ Multiset.mem_cons_of_mem hc
    rcases Multiset.mem_cons.mp hmem with rfl | hmem
    · exact hf d (happrox d hd)
    · exact happrox c hmem

theorem RefineSys.Bounded.event (h : s.Bounded u n) (hw : s.app.WellFormed) {e : HvEvent}
    (he : e.usable ≤ u) :
    RefineSys.Bounded u (n + 1)
      ⟨s.app.applyEvent e, [], Function.update s.exact e.ptr none⟩ := by
  have hexact : ∀ key x, Function.update s.exact e.ptr none key = some x → x ≤ 2 ^ 16 - 1 := by
    intro key x hx
    by_cases hk : key = e.ptr
    · subst hk; simp at hx
    · rw [Function.update_of_ne hk] at hx; exact h.exact key x hx
  have hkeep : (s.app.applyEvent e).table.records.card ≤ n + 1 ∧
      ∀ c ∈ (s.app.applyEvent e).table.records, c.approx ≤ u := by
    have hcard : s.app.table.records.card ≤ n + 1 := h.card.trans (Nat.le_succ n)
    have hfigure : ∀ c : Chunk, c.usable ≤ u → c.approx ≤ u := fun c hc => by
      unfold Chunk.approx overheadOf
      split <;> omega
    cases hfree : e.isFree with
    | false =>
        rw [(HeapApp.applyEvent_alloc (a := s.app) hfree).2]
        by_cases hptr : e.ptr = 0
        · rw [ChunkTable.insertLive, if_pos hptr]
          exact ⟨hcard, h.approx⟩
        · obtain ⟨-, -, -, hrew | ⟨-, hadd⟩⟩ := hw.table.insertLive hw.unbounded hptr
            (HeapApp.clampU32 e.size) e.usable (s.app.eventMs e.timestamp) (hvEventGetTid e)
          · exact hrew.bounded (fun c _ => hfigure _ he) hcard h.approx
          · rw [hadd]
            refine ⟨by rw [Multiset.card_cons]; exact Nat.succ_le_succ h.card, fun c hc => ?_⟩
            rcases Multiset.mem_cons.mp hc with rfl | hc
            · exact hfigure _ he
            · exact h.approx c hc
    | true =>
        cases hlookup : s.app.table.lookup e.ptr with
        | none =>
            rw [(HeapApp.applyEvent_unknown hfree hlookup).2]
            exact ⟨hcard, h.approx⟩
        | some c =>
            have hkey := (hw.table.lookup_eq_some.mp hlookup).2
            rw [(HeapApp.applyEvent_known hfree hlookup hkey).2]
            rcases hw.table.markFreed e.ptr (s.app.eventMs e.timestamp) with
              ⟨-, heq⟩ | ⟨hrew, -⟩
            · rw [heq]
              exact ⟨hcard, h.approx⟩
            · exact hrew.bounded (fun c hc => hc) hcard h.approx
  exact ⟨hkeep.1, hkeep.2, hexact⟩

theorem RefineSys.Bounded.fold (h : s.Bounded u n) (hw : s.app.WellFormed) (c : Chunk)
    (info : HeapApp.ChunkInfo) (todo : List (Chunk × HeapApp.ChunkInfo)) :
    RefineSys.Bounded u n ⟨s.app.foldHeader c info, todo,
      if s.app.folds c info then Function.update s.exact c.key (some info.overhead)
      else s.exact⟩ := by
  rcases hw.table.markRefined c.key info.overhead info.header with
    ⟨-, heq⟩ | ⟨hle, hrew, htrue, -⟩
  · have hfold : s.app.folds c info = false := by simp [HeapApp.folds, heq]
    have hsame : s.app.foldHeader c info = s.app := by simp [HeapApp.foldHeader, heq]
    rw [hfold, hsame]
    exact ⟨h.card, h.approx, h.exact⟩
  · cases hvalid : info.valid with
    | false =>
        have hfold : s.app.folds c info = false := by simp [HeapApp.folds, hvalid]
        have hsame : s.app.foldHeader c info = s.app := by simp [HeapApp.foldHeader, hvalid]
        rw [hfold, hsame]
        exact ⟨h.card, h.approx, h.exact⟩
    | true =>
        have hfold : s.app.folds c info = true := by simp [HeapApp.folds, hvalid, htrue]
        have htable : (s.app.foldHeader c info).table =
            (s.app.table.markRefined c.key info.overhead info.header).1 := by
          simp only [HeapApp.foldHeader, hvalid, htrue, Bool.true_eq_false, if_false]
        obtain ⟨hcard, happrox⟩ := hrew.bounded (fun c hc => hc) h.card h.approx
        rw [hfold]
        refine ⟨htable ▸ hcard, htable ▸ happrox, fun key x hx => ?_⟩
        simp only [if_true] at hx
        by_cases hk : key = c.key
        · subst hk
          rw [Function.update_self, Option.some.injEq] at hx
          exact hx ▸ hle
        · rw [Function.update_of_ne hk] at hx
          exact h.exact key x hx

/-- No event of the act reports more usable bytes than `u`. -/
def RefineAct.Within (u : Nat) : RefineAct → Prop
  | .event e => e.usable ≤ u
  | _ => True

theorem RefineSys.Bounded.step (h : s.Bounded u n) (hw : s.app.WellFormed) {act : RefineAct}
    (hact : act.Within u) (hstep : s.step act = some s') :
    s'.Bounded u (n + 1) ∧ s'.app.WellFormed := by
  cases act with
  | event e =>
      simp only [RefineSys.step, Option.ite_none_right_eq_some, Option.some.injEq] at hstep
      obtain ⟨-, rfl⟩ := hstep
      exact ⟨h.event hw hact, hw.applyEvent e⟩
  | enrich nowMs reply =>
      simp only [RefineSys.step, Option.ite_none_right_eq_some, Option.some.injEq] at hstep
      obtain ⟨-, rfl⟩ := hstep
      obtain ⟨last, cursor, denied, heq⟩ :=
        HeapApp.enrichBegin_eq (s.app.atMs nowMs) reply
      rw [heq]
      exact ⟨⟨h.card.trans (Nat.le_succ n), h.approx, h.exact⟩, hw.table, hw.unbounded, hw.cells⟩
  | fold =>
      simp only [RefineSys.step] at hstep
      split at hstep
      · cases hstep
      · next c info todo htodo =>
          obtain rfl := Option.some.inj hstep
          obtain ⟨hcard, happrox, hexact⟩ := h.fold hw c info todo
          exact ⟨⟨hcard.trans (Nat.le_succ n), happrox, hexact⟩, hw.foldHeader c info⟩
  | rebuild =>
      simp only [RefineSys.step, Option.ite_none_right_eq_some, Option.some.injEq] at hstep
      obtain ⟨-, rfl⟩ := hstep
      have hrec : s.app.rebuildMap.table.records = s.app.table.records.map Chunk.unrefine :=
        records_clearRefined s.app.table
      refine ⟨⟨?_, fun c hc => ?_, fun _ _ hx => by cases hx⟩, hw.rebuildMap⟩
      · rw [hrec, Multiset.card_map]
        exact h.card.trans (Nat.le_succ n)
      · rw [hrec] at hc
        obtain ⟨d, hd, rfl⟩ := Multiset.mem_map.mp hc
        exact h.approx d hd

/-- As long as a run is short enough for its figures, every cell is wide
enough. -/
theorem RefineSys.fits_of_short (attached unicode : Bool) (originNs : Nat) (g : Grid)
    (regions : Option RegionMap) {acts : List RefineAct} (hacts : ∀ act ∈ acts, act.Within u)
    (hlt : acts.length * (u + 2 ^ 16) < 2 ^ 32)
    (hrun : Run.run RefineSys.step
      (RefineSys.init (HeapApp.onGrid attached unicode originNs g regions)) acts = some s) :
    s.Fits := by
  have hrec : (HeapApp.onGrid attached unicode originNs g regions).table.records = 0 :=
    (HeapApp.new_table attached unicode originNs).records.trans (records_of_empty fun _ _ => rfl)
  have hstart : (RefineSys.init (HeapApp.onGrid attached unicode originNs g regions)).Bounded u 0 :=
    ⟨by simp [RefineSys.init, hrec], fun c hc => by simp [RefineSys.init, hrec] at hc,
      fun _ _ hx => by cases hx⟩
  have hbound : ∀ (as : List RefineAct) (n : Nat) (s₀ : RefineSys), (∀ act ∈ as, act.Within u) →
      s₀.Bounded u n → s₀.app.WellFormed → Run.run RefineSys.step s₀ as = some s →
      s.Bounded u (n + as.length) := by
    intro as
    induction as with
    | nil =>
        intro n s₀ _ hb _ hr
        obtain rfl := Option.some.inj hr
        exact hb
    | cons act as ih =>
        intro n s₀ hall hb hw hr
        obtain ⟨m, hm, hr'⟩ := Run.run_cons.mp hr
        obtain ⟨hb', hw'⟩ := hb.step hw (hall act (List.mem_cons_self ..)) hm
        have := ih (n + 1) m (fun a ha => hall a (List.mem_cons_of_mem _ ha)) hb' hw' hr'
        rwa [Nat.add_assoc, Nat.add_comm 1] at this
  refine (hbound acts 0 _ hacts hstart
    (HeapApp.onGrid_wellFormed attached unicode originNs g regions) hrun).fits ?_
  rw [Nat.zero_add]
  exact hlt

end Short

/-! ## A chunk is refined -/

/-- The pass's own bookkeeping put aside; no event and no fold reads it. -/
def HeapApp.settled (a : HeapApp) : HeapApp :=
  { a with nowMs := 0, enrichLastMs := 0, enrichCursor := 0, readerDenied := false }

theorem HeapApp.settled_wellFormed {a : HeapApp} : a.settled.WellFormed ↔ a.WellFormed :=
  ⟨fun h => ⟨h.table, h.unbounded, h.cells⟩, fun h => ⟨h.table, h.unbounded, h.cells⟩⟩

theorem HeapApp.settled_applyEvent (a : HeapApp) (e : HvEvent) :
    (a.applyEvent e).settled = a.settled.applyEvent e := by
  unfold HeapApp.applyEvent
  dsimp only [HeapApp.settled]
  split
  · split <;> rfl
  · rfl

theorem HeapApp.settled_apply (a : HeapApp) (es : List HvEvent) :
    (a.apply es).settled = a.settled.apply es := by
  induction es generalizing a with
  | nil => rfl
  | cons e es ih => exact (ih (a.applyEvent e)).trans (by rw [a.settled_applyEvent e]; rfl)

theorem HeapApp.settled_foldHeader (a : HeapApp) (c : Chunk) (info : HeapApp.ChunkInfo) :
    (a.foldHeader c info).settled = a.settled.foldHeader c info := by
  unfold HeapApp.foldHeader
  dsimp only [HeapApp.settled]
  by_cases hvalid : info.valid = false
  · rw [if_pos hvalid, if_pos hvalid]
  · by_cases hmark : (a.table.markRefined c.key info.overhead info.header).2 = false
    · rw [if_neg hvalid, if_pos hmark, if_neg hvalid]
      exact (if_pos hmark).symm
    · rw [if_neg hvalid, if_neg hmark, if_neg hvalid]
      exact (if_neg hmark).symm

theorem HeapApp.settled_enrichBegin (a : HeapApp) (reply : HeapApp.ReaderReply) :
    (a.enrichBegin reply).1.settled = a.settled := by
  obtain ⟨last, cursor, denied, heq⟩ := a.enrichBegin_eq reply
  rw [heq]
  rfl

/-- A due pass over a table whose one chunk wants its header. -/
theorem HeapApp.enrichBegin_single {a : HeapApp} {c : Chunk} (info : HeapApp.ChunkInfo)
    (hon : ¬ (a.readerDenied = true ∨ a.state ≠ .live))
    (hdue : ¬ sub32 a.nowMs a.enrichLastMs < kEnrichIntervalMs)
    (hcur : a.enrichCursor < a.table.capacity) (hlive : a.table.live = {c})
    (hwants : HeapApp.wantsHeader c = true) :
    (a.enrichBegin ⟨.ok, [info]⟩).2 = [(c, info)] := by
  have hpick := gather_single hcur hlive hwants
  unfold HeapApp.enrichBegin
  rw [if_neg hon, if_neg hdue]
  dsimp only
  rw [hpick]
  rfl

theorem RefineSys.run_events (a : HeapApp) (exact : Nat → Option Nat) (es : List HvEvent) :
    Run.run RefineSys.step ⟨a, [], exact⟩ (es.map .event) =
      some ⟨a.apply es, [], es.foldl (fun x e => Function.update x e.ptr none) exact⟩ := by
  induction es generalizing a exact with
  | nil => rfl
  | cons e es ih => exact ih (a.applyEvent e) _

/-- A condition that does not read the pass's bookkeeping can be checked
without it. -/
theorem RefineSys.guarded_settled {G : RefineSys → RefineAct → Prop}
    (hG : ∀ (a : HeapApp) (x : Nat → Option Nat) e, G ⟨a.settled, [], x⟩ (.event e) →
      G ⟨a, [], x⟩ (.event e)) {a : HeapApp} {exact : Nat → Option Nat} {es : List HvEvent}
    (hg : Run.Guarded RefineSys.step G ⟨a.settled, [], exact⟩ (es.map .event)) :
    Run.Guarded RefineSys.step G ⟨a, [], exact⟩ (es.map .event) := by
  induction es generalizing a exact with
  | nil => trivial
  | cons e es ih =>
      refine ⟨hG a exact e hg.1, fun s' hs' => ?_⟩
      obtain rfl := Option.some.inj hs'
      refine ih ?_
      rw [a.settled_applyEvent e]
      exact hg.2 _ rfl

/-- One allocation and the pass that reads its header. -/
theorem RefineSys.run_refine {a : HeapApp} {e : HvEvent} {nowMs : Nat}
    {c : Chunk} {info : HeapApp.ChunkInfo}
    (hon : ¬ ((a.applyEvent e).readerDenied = true ∨ (a.applyEvent e).state ≠ .live))
    (hdue : ¬ sub32 nowMs (a.applyEvent e).enrichLastMs < kEnrichIntervalMs)
    (hcur : (a.applyEvent e).enrichCursor < (a.applyEvent e).table.capacity)
    (hlive : (a.applyEvent e).table.live = {c}) (hwants : HeapApp.wantsHeader c = true)
    (hfolds : (a.applyEvent e).settled.folds c info = true) :
    ∃ b : HeapApp, b.settled = (a.applyEvent e).settled.foldHeader c info ∧
      Run.run RefineSys.step (RefineSys.init a)
          [.event e, .enrich nowMs ⟨.ok, [info]⟩, .fold] =
        some ⟨b, [], Function.update (Function.update (fun _ => none) e.ptr none) c.key
          (some info.overhead)⟩ := by
  have hbegin : (((a.applyEvent e).atMs nowMs).enrichBegin ⟨.ok, [info]⟩).2 = [(c, info)] :=
    HeapApp.enrichBegin_single info hon hdue hcur hlive hwants
  have hsettled := HeapApp.settled_enrichBegin ((a.applyEvent e).atMs nowMs) ⟨.ok, [info]⟩
  have htable : (((a.applyEvent e).atMs nowMs).enrichBegin ⟨.ok, [info]⟩).1.table =
      (a.applyEvent e).settled.table := by
    have := congrArg HeapApp.table hsettled
    exact this
  refine ⟨(((a.applyEvent e).atMs nowMs).enrichBegin ⟨.ok, [info]⟩).1.foldHeader c info, ?_, ?_⟩
  · rw [HeapApp.settled_foldHeader, hsettled]
    rfl
  · have hfolds' :
        (((a.applyEvent e).atMs nowMs).enrichBegin ⟨.ok, [info]⟩).1.folds c info = true := by
      unfold HeapApp.folds at hfolds ⊢
      rw [htable]
      exact hfolds
    simp only [RefineSys.init, Run.run, RefineSys.step, List.isEmpty_nil, if_true, hbegin, hfolds']

/-- One page of heap, packed. -/
def heapPage : RegionMap := (RegionMap.init.rebuild [⟨4096, 8192, .heap, false⟩]).1

/-- A session with one cell, over that page. -/
def oneHeap : HeapApp := HeapApp.onGrid true true 0 (Grid.configure 0 4096 1 1) (some heapPage)

/-- An event of 20 bytes requested and 24 usable. -/
def paddedAt (ptr : Nat) (op : HvOp) : HvEvent := ⟨0, ptr, 20, 24, 1, 0, 0, op.code⟩

/-- The record of the first chunk. -/
def paddedChunk : Chunk := Chunk.fresh 4352 20 24 0 1

/-- A header that says 16 bytes. -/
def header16 : HeapApp.ChunkInfo := ⟨16, false, false, true⟩

/-- One chunk allocated, and a pass that reads its header. -/
def refineActs : List RefineAct :=
  [.event (paddedAt 4352 .malloc), .enrich 250 ⟨.ok, [header16]⟩, .fold]

/-- The session after `refineActs`, as far as events and cells go. -/
def refinedApp : HeapApp :=
  (oneHeap.applyEvent (paddedAt 4352 .malloc)).settled.foldHeader paddedChunk header16

/-- What they refined. -/
def refinedExact : Nat → Option Nat :=
  Function.update (Function.update (fun _ => none) 4352 none) 4352 (some 16)

theorem padded_live : (oneHeap.applyEvent (paddedAt 4352 .malloc)).table.live = {paddedChunk} := by
  have hw : oneHeap.WellFormed := HeapApp.onGrid_wellFormed ..
  have hempty : oneHeap.table.live = 0 := HeapApp.new_live true true 0
  obtain ⟨-, htable⟩ := HeapApp.applyEvent_alloc (a := oneHeap) (e := paddedAt 4352 .malloc) rfl
  obtain ⟨c, hins, -, -, -, -, -, hadd⟩ := hw.table.live_insertLive hw.unbounded
    (show (4352 : Nat) ≠ 0 by decide) 20 24 0 1
  have hlookup : oneHeap.table.lookup 4352 = none := by decide +kernel
  have hat : oneHeap.table.liveAt 4352 = none := by rw [liveAt, hlookup]; rfl
  rcases hins with ⟨-, rfl⟩ | ⟨d, hd, -⟩
  · refine (congrArg ChunkTable.live htable).trans ((hadd hat).trans ?_)
    rw [hempty]
    rfl
  · rw [hlookup] at hd
    cases hd

theorem refineActs_run : ∃ a : HeapApp, a.settled = refinedApp ∧
    Run.run RefineSys.step (RefineSys.init oneHeap) refineActs =
      some ⟨a, [], refinedExact⟩ :=
  RefineSys.run_refine (by decide +kernel) (by decide +kernel) (by decide +kernel) padded_live
    (by decide) (by decide +kernel)

/-- The three acts are regular and, there being no free, reversible. -/
theorem refineActs_guarded {G : RefineSys → RefineAct → Prop}
    (hfirst : G (RefineSys.init oneHeap) (.event (paddedAt 4352 .malloc)))
    (henrich : ∀ s nowMs reply, G s (.enrich nowMs reply)) (hfold : ∀ s, G s .fold) :
    Run.Guarded RefineSys.step G (RefineSys.init oneHeap) refineActs :=
  ⟨hfirst, fun _ _ => ⟨henrich .., fun _ _ => ⟨hfold _, fun _ _ => trivial⟩⟩⟩

/-- A run that goes on after `refineActs` with events only. -/
theorem refined_then {es : List HvEvent} (hwithin : ∀ e ∈ es, e.usable ≤ 24)
    (hlen : (refineActs ++ es.map RefineAct.event).length * (24 + 2 ^ 16) < 2 ^ 32)
    (hreg : Run.Guarded RefineSys.step RefineSys.Regular ⟨refinedApp, [], refinedExact⟩
      (es.map RefineAct.event)) :
    ∃ s, Run.run RefineSys.step (RefineSys.init oneHeap)
        (refineActs ++ es.map RefineAct.event) = some s ∧
      s.app.settled = refinedApp.apply es ∧
      s.exact = es.foldl (fun x (e : HvEvent) => Function.update x e.ptr none) refinedExact ∧
      Run.Guarded RefineSys.step RefineSys.Regular (RefineSys.init oneHeap)
        (refineActs ++ es.map RefineAct.event) ∧
      (Run.Guarded RefineSys.step RefineSys.Reversible ⟨refinedApp, [], refinedExact⟩
          (es.map RefineAct.event) →
        Run.Guarded RefineSys.step RefineSys.Reversible (RefineSys.init oneHeap)
          (refineActs ++ es.map RefineAct.event)) ∧
      ∀ bs m, bs <+: refineActs ++ es.map RefineAct.event →
        Run.run RefineSys.step (RefineSys.init oneHeap) bs = some m → m.Fits := by
  obtain ⟨a, ha, hrun⟩ := refineActs_run
  refine ⟨_, Run.run_append.mpr ⟨_, hrun, RefineSys.run_events a refinedExact es⟩, ?_, rfl, ?_, ?_,
    ?_⟩
  · rw [HeapApp.settled_apply, ha]
  · refine (refineActs_guarded (by decide +kernel) (fun _ _ _ => trivial) fun _ => trivial).extend
      hrun (RefineSys.guarded_settled (fun _ _ _ h => h) ?_)
    rw [ha]
    exact hreg
  · intro hrev
    refine (refineActs_guarded (by decide +kernel) (fun _ _ _ => trivial) fun _ => trivial).extend
      hrun (RefineSys.guarded_settled (fun _ _ _ h => h) ?_)
    rw [ha]
    exact hrev
  · intro bs m hbs hm
    have hle := Nat.mul_le_mul_right (24 + 2 ^ 16) hbs.length_le
    refine @RefineSys.fits_of_short 24 m true true 0 (Grid.configure 0 4096 1 1) (some heapPage) bs
      (fun act hact => ?_) (Nat.lt_of_le_of_lt hle hlen) hm
    rcases List.mem_append.mp (hbs.subset hact) with hact | hact
    · simp only [refineActs, List.mem_cons, List.not_mem_nil, or_false] at hact
      rcases hact with rfl | rfl | rfl
      · exact Nat.le_refl 24
      · trivial
      · trivial
    · obtain ⟨e, he, rfl⟩ := List.mem_map.mp hact
      exact hwithin e he

/-- A chunk's cost is part of its cell's. -/
theorem RefineSys.cost_le_overhead {s : RefineSys} (hw : s.app.WellFormed) {c : Chunk} {i : Nat}
    (hat : s.app.table.liveAt c.key = some c)
    (hi : s.app.map.cellFor s.app.translation c.key = some i) : s.cost c ≤ s.overhead i := by
  obtain ⟨hlookup, hlive⟩ := liveAt_eq_some.mp hat
  have hmem : c ∈ inCell (s.app.map.cellFor s.app.translation) s.app.table.live i :=
    Multiset.mem_filter.mpr ⟨mem_live.mpr ⟨(hw.table.lookup_eq_some.mp hlookup).1, hlive⟩, hi⟩
  exact Multiset.single_le_sum (fun _ _ => Nat.zero_le _) _ (Multiset.mem_map_of_mem s.cost hmem)

theorem refinedApp_wellFormed : refinedApp.WellFormed := by
  have hone : oneHeap.WellFormed := HeapApp.onGrid_wellFormed ..
  have hw := HeapApp.settled_wellFormed.mpr (hone.applyEvent (paddedAt 4352 .malloc))
  exact hw.foldHeader paddedChunk header16

/-! ## Every run -/

/-- **Overhead is exact.** Over any grid and any regions, in every run of
regular events, enrichment passes with arbitrary headers and rebuilds
whose sums fit a cell all along: as long as every free is reversible, each
cell holds what its live chunks cost - the header a chunk was refined with
since its allocation and the last rebuild, or else the approximation. -/
theorem overhead_exact (attached unicode : Bool) (originNs : Nat) (g : Grid)
    (regions : Option RegionMap) {acts : List RefineAct} {s : RefineSys}
    (hrun : Run.run RefineSys.step
      (RefineSys.init (HeapApp.onGrid attached unicode originNs g regions)) acts = some s)
    (hreg : Run.Guarded RefineSys.step RefineSys.Regular
      (RefineSys.init (HeapApp.onGrid attached unicode originNs g regions)) acts)
    (hrev : Run.Guarded RefineSys.step RefineSys.Reversible
      (RefineSys.init (HeapApp.onGrid attached unicode originNs g regions)) acts)
    (hfits : ∀ bs m, bs <+: acts → Run.run RefineSys.step
      (RefineSys.init (HeapApp.onGrid attached unicode originNs g regions)) bs = some m → m.Fits) :
    ∀ i, (s.app.map.cells i).overheadBytes = s.overhead i := by
  have hg : Run.Guarded RefineSys.step
      (fun s act => s.Fits ∧ s.Regular act ∧ s.Reversible act)
      (RefineSys.init (HeapApp.onGrid attached unicode originNs g regions)) acts := by
    refine Run.guarded_iff.mpr fun bs act cs m heq hm => ⟨?_, ?_, ?_⟩
    · exact hfits bs m (heq ▸ List.prefix_append ..) hm
    · exact Run.guarded_iff.mp hreg bs act cs m heq hm
    · exact Run.guarded_iff.mp hrev bs act cs m heq hm
  have h : RefineInv s :=
    Run.guarded_invariant (fun _ _ _ hs hcond hstep => hs.step hcond.1 hcond.2.1 hcond.2.2 hstep)
      (RefineInv.init attached unicode originNs g regions) hg hrun
  exact h.sums.eq_total (hfits acts s (List.prefix_refl acts) hrun)

/-- A second chunk next to the refined one, which is then freed. -/
def outlived : List HvEvent := [paddedAt 4608 .malloc, paddedAt 4352 .free]

theorem overhead_exact_outlived :
    ∃ s, Run.run RefineSys.step (RefineSys.init oneHeap)
        (refineActs ++ outlived.map RefineAct.event) = some s ∧
      ∀ i, (s.app.map.cells i).overheadBytes = s.overhead i := by
  obtain ⟨s, hrun, -, -, hreg, hrev, hfits⟩ :=
    @refined_then outlived (by decide) (by decide) (by decide +kernel)
  exact ⟨s, hrun, overhead_exact true true 0 (Grid.configure 0 4096 1 1) (some heapPage) hrun hreg
    (hrev (by decide +kernel)) hfits⟩

/-- The refined chunk is freed, its address recycled. -/
def recycled : List HvEvent :=
  [paddedAt 4352 .free, paddedAt 4352 .malloc, paddedAt 4608 .malloc, paddedAt 4352 .free]

theorem overhead_wrong_after_recycle :
    ∃ s, Run.run RefineSys.step (RefineSys.init oneHeap)
        (refineActs ++ recycled.map RefineAct.event) = some s ∧
      Run.Guarded RefineSys.step RefineSys.Regular (RefineSys.init oneHeap)
        (refineActs ++ recycled.map RefineAct.event) ∧
      (∀ bs m, bs <+: refineActs ++ recycled.map RefineAct.event →
        Run.run RefineSys.step (RefineSys.init oneHeap) bs = some m → m.Fits) ∧
      ¬ ∀ i, (s.app.map.cells i).overheadBytes = s.overhead i := by
  obtain ⟨s, hrun, happ, hexact, hreg, -, hfits⟩ :=
    @refined_then recycled (by decide) (by decide) (by decide +kernel)
  refine ⟨s, hrun, hreg, hfits, fun hall => ?_⟩
  have hcells : ((refinedApp.apply recycled).map.cells 0).overheadBytes = 0 := by decide +kernel
  have hw : (refinedApp.apply recycled).WellFormed := refinedApp_wellFormed.apply recycled
  have hat : (refinedApp.apply recycled).table.liveAt 4608 =
      some (Chunk.fresh 4608 20 24 0 1) := by decide +kernel
  have hi : (refinedApp.apply recycled).map.cellFor (refinedApp.apply recycled).translation 4608 =
      some 0 := by decide +kernel
  rw [← happ] at hcells hw hat hi
  obtain ⟨a, todo, exact⟩ := s
  subst hexact
  have hcost := @RefineSys.cost_le_overhead ⟨a, todo, _⟩ (HeapApp.settled_wellFormed.mp hw)
    (Chunk.fresh 4608 20 24 0 1) 0 hat hi
  rw [← hall 0] at hcost
  -- the chunk at 4608 costs 4, the cell that holds it has nothing
  have hzero : 4 ≤ 0 := hcost.trans (Nat.le_of_eq hcells)
  omega

end Heapviz
