import Heapviz.Fragmentation
import Heapviz.HeapFade
import Heapviz.Metrics
import Heapviz.Run

/-!
# What the metrics panel tells

The session with its metrics panel: `apply` counts every allocation, `update`
runs the fragmentation tick and takes the frame's sample, the key `r` starts a
new window, and the loop draws a frame when something reported a change.

Beside the panel two histories are kept since the last reset: the sizes
allocated, and the samples, the baseline first. The panel's figures are functions
of them (`metrics_tell`). And at no time is a change of the panel left unreported:
while the loop has no reason to draw, the panel would be drawn as it was last
(`panel_current`).
-/

namespace Heapviz

/-! ## The session with its panel -/

/-- What the session's ring says of itself. -/
structure RingFigures where
  queued : Nat
  capacity : Nat
  dropped : Nat
deriving Repr, DecidableEq

/-- What one applied event is to the panel. -/
def Metrics.event (m : Metrics) (e : HvEvent) : Metrics :=
  if e.op &&& hvOpMask = HvOp.free.code then m else m.onAlloc e.usable

structure MeteredApp where
  app : HeapApp
  frag : FragAnalyzer
  metrics : Metrics
  droppedAtAttach : Nat

namespace MeteredApp

/-- The constructor. -/
def new (attached unicode : Bool) (originNs : Nat) (style : MetricsStyle) (dropped : Nat) :
    MeteredApp where
  app := HeapApp.new attached unicode originNs
  frag := FragAnalyzer.init
  metrics := Metrics.init style
  droppedAtAttach := if attached then dropped else 0

/-- `drain`, with the events it applies told to the panel. -/
def drain (m : MeteredApp) (queued : List HvEvent) : MeteredApp × Nat :=
  ({ m with
      app := (m.app.drain queued).1
      metrics := (m.app.appliedBy (.drain queued)).foldl Metrics.event m.metrics },
    (m.app.drain queued).2)

/-- The sample `update` takes. -/
def sampleOf (m : MeteredApp) (ring : RingFigures) : MetricsSample where
  liveChunks := m.app.live
  liveBytes := m.app.liveBytes
  ringQueued := ring.queued
  ringCapacity := ring.capacity
  dropped := sub64 ring.dropped m.droppedAtAttach
  nowMs := m.app.nowMs

/-- The fragmentation tick; its flag is whether the panel was told new figures. -/
def analyze (m : MeteredApp) : MeteredApp × Bool :=
  let (frag, moved) := m.frag.analyze m.app.table m.app.regions m.app.nowMs
  ({ m with
      frag := frag
      metrics :=
        if moved = true then
          (m.metrics.setFragmentation frag.report.percent).setLargestGap frag.report.largestGap
            frag.report.largestGapKnown
        else m.metrics },
    moved)

/-- `update` in event mode, with what the panel makes it return. -/
def update (m : MeteredApp) (env : HeapApp.UpdateEnv) (ring : RingFigures) : MeteredApp × Bool :=
  if m.app.paused then (m, false)
  else
    let (m, told) := { m with app := m.app.update env }.analyze
    let (metrics, moved) := m.metrics.sample (m.sampleOf ring)
    ({ m with metrics := metrics }, told || moved)

/-- `reset_stats`, unless detached; with what the key returns. -/
def reset (m : MeteredApp) (ring : RingFigures) : MeteredApp × Bool :=
  if m.app.state = .detached then (m, false)
  else
    let m := { m with
      app := { m.app with events := 0, freesUnknown := 0 }
      droppedAtAttach := ring.dropped }
    ({ m with metrics := m.metrics.reset { m.sampleOf ring with dropped := 0 } }, true)

end MeteredApp

/-! ## The loop around it -/

/-- The session in its loop: whether the next frame is to be drawn, and the panel
as the last drawn frame had it. The sizes allocated and the samples since the last
reset are history. -/
structure MeterSys where
  metered : MeteredApp
  dirty : Bool
  drawn : Metrics
  allocs : List Nat
  samples : List MetricsSample

inductive MeterAct where
  | drain (queued : List HvEvent)
  /-- `others` is whether anything else has changed. -/
  | update (env : HeapApp.UpdateEnv) (ring : RingFigures) (others : Bool)
  | reset (ring : RingFigures)
  | space
  | resized (w h : Int)
  /-- The draw of a frame, or its skipping. -/
  | frame

namespace MeterSys

def start (m : MeteredApp) : MeterSys := ⟨m, true, m.metrics, [], [m.metrics.live]⟩

/-- The usable sizes of the allocations among the events. -/
def sizesOf (es : List HvEvent) : List Nat :=
  (es.filter fun e => e.op &&& hvOpMask != HvOp.free.code).map HvEvent.usable

def act (s : MeterSys) : MeterAct → MeterSys
  | .drain queued =>
      let (m, n) := s.metered.drain queued
      { s with
        metered := m
        dirty := s.dirty || n != 0
        allocs := s.allocs ++ sizesOf (s.metered.app.appliedBy (.drain queued)) }
  | .update env ring others =>
      let (m, changed) := s.metered.update env ring
      { s with
        metered := m
        dirty := s.dirty || changed || others
        samples := if s.metered.app.paused then s.samples else s.samples ++ [m.metrics.live] }
  | .reset ring =>
      let (m, done) := s.metered.reset ring
      { s with
        metered := m
        dirty := s.dirty || done
        allocs := if done then [] else s.allocs
        samples := if done then [m.metrics.live] else s.samples }
  | .space =>
      { s with
        metered := { s.metered with app := s.metered.app.keySpace }
        dirty := s.dirty || s.metered.app.state == .live || s.metered.app.paused }
  | .resized w h =>
      { s with metered := { s.metered with app := s.metered.app.resized w h }, dirty := true }
  | .frame => if s.dirty then { s with dirty := false, drawn := s.metered.metrics } else s

def step (s : MeterSys) (a : MeterAct) : Option MeterSys := some (s.act a)

end MeterSys

/-! ## The running total -/

section Total

variable {m : Metrics} {us : List Nat}

theorem MeterSys.sizesOf_cons (e : HvEvent) (es : List HvEvent) :
    sizesOf (e :: es) =
      if e.op &&& hvOpMask = HvOp.free.code then sizesOf es else e.usable :: sizesOf es := by
  unfold sizesOf
  by_cases hfree : e.op &&& hvOpMask = HvOp.free.code
  · rw [if_pos hfree, List.filter_cons_of_neg (by simp [hfree])]
  · rw [if_neg hfree, List.filter_cons_of_pos (by simp [hfree]), List.map_cons]

/-- An allocation changes the total and the count only. -/
theorem Metrics.onAlloc_eq (m : Metrics) (usable : Nat) :
    m.onAlloc usable =
      { m with
        totalBytes := (m.onAlloc usable).totalBytes
        totalAllocs := (m.onAlloc usable).totalAllocs } := rfl

/-- Events change the total and the count only. -/
theorem Metrics.foldl_event_eq (es : List HvEvent) (m : Metrics) :
    es.foldl Metrics.event m =
      { m with
        totalBytes := (es.foldl Metrics.event m).totalBytes
        totalAllocs := (es.foldl Metrics.event m).totalAllocs } := by
  induction es generalizing m with
  | nil => rfl
  | cons e es ih =>
      rw [List.foldl_cons, ih]
      unfold Metrics.event
      split
      · rfl
      · rw [m.onAlloc_eq]

theorem Metrics.onAlloc_total (htotal : m.totalBytes = min kUint64Max us.sum) {u : Nat}
    (hu : u ≤ kUint64Max) : (m.onAlloc u).totalBytes = min kUint64Max (us.sum + u) := by
  rw [Metrics.onAlloc, htotal]
  dsimp only
  split_ifs <;> omega

theorem Metrics.foldl_event_total (es : List HvEvent)
    (htotal : m.totalBytes = min kUint64Max us.sum)
    (hfit : ∀ u ∈ MeterSys.sizesOf es, u ≤ kUint64Max) :
    (es.foldl Metrics.event m).totalBytes =
      min kUint64Max (us ++ MeterSys.sizesOf es).sum := by
  induction es generalizing m us with
  | nil => simpa [MeterSys.sizesOf] using htotal
  | cons e es ih =>
      rw [MeterSys.sizesOf_cons] at hfit ⊢
      rw [List.foldl_cons, Metrics.event]
      by_cases hfree : e.op &&& hvOpMask = HvOp.free.code
      · simp only [if_pos hfree] at hfit ⊢
        exact ih htotal hfit
      · simp only [if_neg hfree] at hfit ⊢
        have hnext := m.onAlloc_total htotal (hfit e.usable List.mem_cons_self)
        have hsum : (us ++ [e.usable]).sum = us.sum + e.usable := by simp
        have hrest := @ih (m.onAlloc e.usable) (us ++ [e.usable]) (hsum ▸ hnext) fun u hu =>
          hfit u (List.mem_cons_of_mem _ hu)
        rwa [List.append_assoc] at hrest

theorem Metrics.foldl_event_count (es : List HvEvent)
    (hcount : m.totalAllocs = min kUint64Max us.length) :
    (es.foldl Metrics.event m).totalAllocs =
      min kUint64Max (us ++ MeterSys.sizesOf es).length := by
  induction es generalizing m us with
  | nil => simpa [MeterSys.sizesOf] using hcount
  | cons e es ih =>
      rw [MeterSys.sizesOf_cons, List.foldl_cons, Metrics.event]
      by_cases hfree : e.op &&& hvOpMask = HvOp.free.code
      · simp only [if_pos hfree]
        exact ih hcount
      · simp only [if_neg hfree]
        have hnext : (m.onAlloc e.usable).totalAllocs =
            min kUint64Max (us ++ [e.usable]).length := by
          rw [Metrics.onAlloc, hcount, List.length_append, List.length_singleton]
          dsimp only
          split_ifs <;> omega
        have hrest := ih hnext
        rwa [List.append_assoc] at hrest

end Total

/-! ## The peak -/

/-- The figure is the highest of the samples, and the time that of the first to reach
it. -/
def FirstMax (samples : List MetricsSample) (bytes ms : Nat) : Prop :=
  ∃ before s after, samples = before ++ s :: after ∧ s.liveBytes = bytes ∧ s.nowMs = ms ∧
    (∀ t ∈ before, t.liveBytes < bytes) ∧ ∀ t ∈ after, t.liveBytes ≤ bytes

theorem FirstMax.single (s : MetricsSample) : FirstMax [s] s.liveBytes s.nowMs :=
  ⟨[], s, [], rfl, rfl, rfl, fun _ h => absurd h List.not_mem_nil,
    fun _ h => absurd h List.not_mem_nil⟩

theorem FirstMax.concat {samples : List MetricsSample} {bytes ms : Nat}
    (h : FirstMax samples bytes ms) (s : MetricsSample) :
    FirstMax (samples ++ [s]) (if s.liveBytes > bytes then s.liveBytes else bytes)
      (if s.liveBytes > bytes then s.nowMs else ms) := by
  obtain ⟨before, top, after, rfl, hbytes, hms, hbefore, hafter⟩ := h
  by_cases hhigher : s.liveBytes > bytes
  · rw [if_pos hhigher, if_pos hhigher]
    refine ⟨before ++ top :: after, s, [], rfl, rfl, rfl, fun t ht => ?_,
      fun _ h => absurd h List.not_mem_nil⟩
    rcases List.mem_append.mp ht with ht | ht
    · exact (hbefore t ht).trans hhigher
    · rcases List.mem_cons.mp ht with rfl | ht
      · exact hbytes ▸ hhigher
      · exact (hafter t ht).trans_lt hhigher
  · rw [if_neg hhigher, if_neg hhigher]
    refine ⟨before, top, after ++ [s], by simp, hbytes, hms, hbefore, fun t ht => ?_⟩
    rcases List.mem_append.mp ht with ht | ht
    · exact hafter t ht
    · obtain rfl := List.mem_singleton.mp ht
      exact not_lt.mp hhigher

/-! ## What holds between any two steps -/

/-- The panel has the figures of the last analysis. -/
structure MeteredApp.FragShown (m : MeteredApp) : Prop where
  percent : m.metrics.fragPct = m.frag.report.percent
  largestGap : m.metrics.largestGap = m.frag.report.largestGap
  known : m.metrics.gapKnown = m.frag.report.largestGapKnown

structure MeterInv (s : MeterSys) : Prop where
  backlog : s.metered.app.stagedHead ≤ s.metered.app.staged.length
  total : (∀ u ∈ s.allocs, u ≤ kUint64Max) →
    s.metered.metrics.totalBytes = min kUint64Max s.allocs.sum
  count : s.metered.metrics.totalAllocs = min kUint64Max s.allocs.length
  peak : FirstMax s.samples s.metered.metrics.peakBytes s.metered.metrics.peakMs
  last : s.samples.getLast? = some s.metered.metrics.live
  frag : s.metered.FragShown
  current : s.dirty = false → s.drawn.Looks s.metered.metrics

section Parts

variable {m : MeteredApp}

/-- A drain returns the number of events it applies. -/
theorem HeapApp.drain_count {a : HeapApp} (hle : a.stagedHead ≤ a.staged.length)
    (queued : List HvEvent) :
    (a.drain queued).2 = (a.appliedBy (.drain queued)).length := by
  obtain ⟨-, hplanned⟩ := HeapApp.drainPlan_staging hle
  rcases HeapApp.drainPlan_sound hle with ⟨n, hplan, hsound⟩ | ⟨-, hopen⟩
  · rw [HeapApp.drain, HeapApp.appliedBy, hplan]
    exact hsound.ret.trans (congrArg List.length (List.append_nil _).symm)
  · obtain ⟨hsound, -, -⟩ := hopen.finish hplanned (List.length_take_le _ queued)
    exact hsound.ret

/-- The tick tells the panel what it found, and reports it where it is something new. -/
theorem MeteredApp.analyze_spec (h : m.FragShown) :
    m.analyze.1.FragShown ∧ m.analyze.1.app = m.app ∧
      m.analyze.1.metrics.live = m.metrics.live ∧
      m.analyze.1.metrics.totalBytes = m.metrics.totalBytes ∧
      m.analyze.1.metrics.totalAllocs = m.metrics.totalAllocs ∧
      m.analyze.1.metrics.peakBytes = m.metrics.peakBytes ∧
      m.analyze.1.metrics.peakMs = m.metrics.peakMs ∧
      (m.analyze.2 = false → m.analyze.1.metrics = m.metrics) := by
  have hsame : (m.frag.analyze m.app.table m.app.regions m.app.nowMs).2 = false →
      (m.frag.analyze m.app.table m.app.regions m.app.nowMs).1.report.percent =
          m.frag.report.percent ∧
        (m.frag.analyze m.app.table m.app.regions m.app.nowMs).1.report.largestGap =
          m.frag.report.largestGap ∧
        (m.frag.analyze m.app.table m.app.regions m.app.nowMs).1.report.largestGapKnown =
          m.frag.report.largestGapKnown := by
    unfold FragAnalyzer.analyze
    split_ifs
    · exact fun _ => ⟨rfl, rfl, rfl⟩
    · intro hflag
      simpa [not_or, and_assoc] using hflag
  unfold MeteredApp.analyze
  generalize m.frag.analyze m.app.table m.app.regions m.app.nowMs = told at hsame ⊢
  obtain ⟨frag, moved⟩ := told
  cases moved with
  | true => exact ⟨⟨rfl, rfl, rfl⟩, rfl, rfl, rfl, rfl, rfl, rfl, nofun⟩
  | false =>
      obtain ⟨hpercent, hgap, hknown⟩ := hsame rfl
      exact ⟨⟨h.percent.trans hpercent.symm, h.largestGap.trans hgap.symm,
        h.known.trans hknown.symm⟩, rfl, rfl, rfl, rfl, rfl, rfl, fun _ => rfl⟩

end Parts

section Steps

variable {s : MeterSys}

theorem MeterInv.drain (h : MeterInv s) (queued : List HvEvent) :
    MeterInv (s.act (.drain queued)) := by
  obtain ⟨-, hbacklog⟩ := HeapApp.drain_applied h.backlog queued
  have hevents := Metrics.foldl_event_eq (s.metered.app.appliedBy (.drain queued))
    s.metered.metrics
  refine ⟨hbacklog, fun hfit => ?_, Metrics.foldl_event_count _ h.count, ?_, ?_, ?_, fun hclean => ?_⟩
  · exact Metrics.foldl_event_total _ (h.total fun u hu => hfit u (List.mem_append_left _ hu))
      fun u hu => hfit u (List.mem_append_right _ hu)
  · have hpeak := congrArg Metrics.peakBytes hevents
    have hpeakMs := congrArg Metrics.peakMs hevents
    exact hpeak.symm ▸ hpeakMs.symm ▸ h.peak
  · exact h.last.trans (congrArg some (congrArg Metrics.live hevents).symm)
  · refine ⟨?_, ?_, ?_⟩
    · exact (congrArg Metrics.fragPct hevents).trans h.frag.percent
    · exact (congrArg Metrics.largestGap hevents).trans h.frag.largestGap
    · exact (congrArg Metrics.gapKnown hevents).trans h.frag.known
  · -- nothing was applied, or the frame would be dirty
    obtain ⟨hdirty, hcount⟩ := Bool.or_eq_false_iff.mp hclean
    have hnone : s.metered.app.appliedBy (.drain queued) = [] := by
      rw [← List.length_eq_zero_iff, ← HeapApp.drain_count h.backlog queued]
      simpa [MeteredApp.drain] using hcount
    show s.drawn.Looks (List.foldl _ _ _)
    rw [hnone]
    exact h.current hdirty

theorem MeterInv.update (h : MeterInv s) (env : HeapApp.UpdateEnv) (ring : RingFigures)
    (others : Bool) : MeterInv (s.act (.update env ring others)) := by
  cases hpaused : s.metered.app.paused with
  | true =>
      have hstill : s.act (.update env ring others) = { s with dirty := s.dirty || others } := by
        simp [MeterSys.act, MeteredApp.update, hpaused]
      rw [hstill]
      exact ⟨h.backlog, h.total, h.count, h.peak, h.last, h.frag, fun hclean =>
        h.current (Bool.or_eq_false_iff.mp hclean).1⟩
  | false =>
      obtain ⟨hstaged, hhead⟩ := s.metered.app.update_staging env
      obtain ⟨hfrag, happ, hlive, htotal, hcount, hpeak, hpeakMs, hstill⟩ :=
        MeteredApp.analyze_spec (m := { s.metered with app := s.metered.app.update env })
          ⟨h.frag.percent, h.frag.largestGap, h.frag.known⟩
      simp only [MeterSys.act, MeteredApp.update, hpaused, Bool.false_eq_true, if_false]
      generalize hm : MeteredApp.analyze { s.metered with app := s.metered.app.update env } = told
        at hfrag happ hlive htotal hcount hpeak hpeakMs hstill ⊢
      refine ⟨?_, fun hfit => htotal.trans (h.total hfit), hcount.trans h.count, ?_, ?_,
        ⟨hfrag.percent, hfrag.largestGap, hfrag.known⟩, fun hclean => ?_⟩
      · show told.1.app.stagedHead ≤ told.1.app.staged.length
        rw [happ]
        show (s.metered.app.update env).stagedHead ≤ (s.metered.app.update env).staged.length
        rw [hstaged, hhead]
        exact h.backlog
      · have hnext := (hpeakMs ▸ hpeak ▸ h.peak :
          FirstMax s.samples told.1.metrics.peakBytes told.1.metrics.peakMs).concat
            (told.1.sampleOf ring)
        simpa only [Metrics.sample, decide_eq_true_eq] using hnext
      · exact List.getLast?_concat
      · simp only [Bool.or_eq_false_iff] at hclean
        obtain ⟨⟨hdirty, htold, hmoved⟩, -⟩ := hclean
        have hlooks := Metrics.sample_looks hmoved
        rw [hstill htold] at hlooks ⊢
        exact (h.current hdirty).trans hlooks

theorem MeterInv.reset (h : MeterInv s) (ring : RingFigures) : MeterInv (s.act (.reset ring)) := by
  by_cases hdetached : s.metered.app.state = .detached
  · have hstill : s.act (.reset ring) = s := by
      simp [MeterSys.act, MeteredApp.reset, hdetached]
    rw [hstill]
    exact h
  · simp only [MeterSys.act, MeteredApp.reset, if_neg hdetached, if_true]
    refine ⟨h.backlog, fun _ => rfl, rfl, .single _, rfl, ⟨h.frag.percent, h.frag.largestGap,
      h.frag.known⟩, fun hclean => ?_⟩
    exact absurd (Bool.or_eq_false_iff.mp hclean).2 (by decide)

theorem MeterInv.act (h : MeterInv s) (a : MeterAct) : MeterInv (s.act a) := by
  cases a with
  | drain queued => exact h.drain queued
  | update env ring others => exact h.update env ring others
  | reset ring => exact h.reset ring
  | space =>
      have hkeep : s.metered.app.SameStaging s.metered.app.keySpace := by
        unfold HeapApp.keySpace
        split <;> exact ⟨rfl, rfl⟩
      refine ⟨?_, h.total, h.count, h.peak, h.last, ⟨h.frag.percent, h.frag.largestGap,
        h.frag.known⟩, fun hclean => ?_⟩
      · show s.metered.app.keySpace.stagedHead ≤ s.metered.app.keySpace.staged.length
        rw [hkeep.1, hkeep.2]
        exact h.backlog
      · simp only [MeterSys.act, Bool.or_eq_false_iff] at hclean
        exact h.current hclean.1.1
  | resized w ht =>
      obtain ⟨hstaged, hhead⟩ := s.metered.app.resized_staging w ht
      refine ⟨?_, h.total, h.count, h.peak, h.last, ⟨h.frag.percent, h.frag.largestGap,
        h.frag.known⟩, fun hclean => ?_⟩
      · show (s.metered.app.resized w ht).stagedHead ≤ (s.metered.app.resized w ht).staged.length
        rw [hstaged, hhead]
        exact h.backlog
      · cases hclean
  | frame =>
      unfold MeterSys.act
      dsimp only
      split_ifs
      · exact ⟨h.backlog, h.total, h.count, h.peak, h.last, h.frag, fun _ => .refl _⟩
      · exact h

/-- A session just attached, and its loop. -/
def MeterSys.init (attached unicode : Bool) (originNs : Nat) (style : MetricsStyle)
    (dropped : Nat) : MeterSys :=
  MeterSys.start (MeteredApp.new attached unicode originNs style dropped)

theorem MeterInv.init (attached unicode : Bool) (originNs : Nat) (style : MetricsStyle)
    (dropped : Nat) : MeterInv (MeterSys.init attached unicode originNs style dropped) :=
  ⟨Nat.le_refl 0, fun _ => rfl, rfl, .single _, rfl, ⟨rfl, rfl, rfl⟩, nofun⟩

theorem MeterInv.run {s' : MeterSys} {acts : List MeterAct} (h : MeterInv s)
    (hrun : Run.run MeterSys.step s acts = some s') : MeterInv s' := by
  refine Run.run_invariant (I := MeterInv) (fun s a s' hs hstep => ?_) h hrun
  obtain rfl := Option.some.inj hstep
  exact hs.act a

end Steps

/-! ## What the panel tells -/

/-- **The panel tells what has happened since the last reset.** In every run of the
session: the total is the sum of the sizes allocated and the count their number,
both held at `UINT64_MAX`; the peak is the highest sample, and its time the first
that reached it; the live figures are the last sample's, and the fragmentation that
of the last analysis. -/
theorem metrics_tell (attached unicode : Bool) (originNs : Nat) (style : MetricsStyle)
    (dropped : Nat) (acts : List MeterAct) (s : MeterSys)
    (hrun : Run.run MeterSys.step (MeterSys.init attached unicode originNs style dropped) acts =
      some s) :
    ((∀ u ∈ s.allocs, u ≤ kUint64Max) →
      s.metered.metrics.totalBytes = min kUint64Max s.allocs.sum) ∧
    s.metered.metrics.totalAllocs = min kUint64Max s.allocs.length ∧
    FirstMax s.samples s.metered.metrics.peakBytes s.metered.metrics.peakMs ∧
    s.samples.getLast? = some s.metered.metrics.live ∧ s.metered.FragShown := by
  have hinv := (MeterInv.init attached unicode originNs style dropped).run hrun
  exact ⟨hinv.total, hinv.count, hinv.peak, hinv.last, hinv.frag⟩

/-- An update after `ms` milliseconds; the target is gone, and so are its regions. -/
def meterUpdate (ms : Nat) : MeterAct :=
  .update ⟨ms * 1000000, true, .lines [], ⟨.ok, []⟩⟩ ⟨3, 16, 5⟩ false

/-- Two allocations, a sample and an analysis; after a reset an allocation and a
free, and two samples more, of which the second changes nothing. -/
def twoWindows : List MeterAct :=
  [.drain [⟨0, 0x1000, 40, 48, 0, 0, 0, HvOp.malloc.code⟩,
      ⟨0, 0x1100, 100, 112, 0, 0, 0, HvOp.malloc.code⟩],
    meterUpdate 500, .frame, .reset ⟨0, 16, 5⟩,
    .drain [⟨0, 0x1200, 24, 32, 0, 0, 0, HvOp.malloc.code⟩,
      ⟨0, 0x1000, 0, 0, 0, 0, 0, HvOp.free.code⟩],
    meterUpdate 1000, .frame, .drain [], meterUpdate 1010]

theorem metrics_tell_windows :
    ∃ s, Run.run MeterSys.step (MeterSys.init true true 0 .default 0) twoWindows = some s ∧
      s.metered.metrics.totalBytes = 32 ∧ s.metered.metrics.totalAllocs = 1 ∧
      s.samples.map MetricsSample.liveBytes = [160, 144, 144] ∧
      FirstMax s.samples s.metered.metrics.peakBytes s.metered.metrics.peakMs ∧
      s.metered.frag.ran = true ∧ s.metered.FragShown := by
  have hval : (Run.run MeterSys.step (MeterSys.init true true 0 .default 0) twoWindows).map
      (fun s => (s.allocs, s.samples.map MetricsSample.liveBytes, s.metered.frag.ran)) =
        some ([32], [160, 144, 144], true) := by decide +kernel
  obtain ⟨s, hrun, hval⟩ := Option.map_eq_some_iff.mp hval
  simp only [Prod.mk.injEq] at hval
  obtain ⟨hallocs, hsamples, hfrag⟩ := hval
  obtain ⟨htotal, hcount, hpeak, -, hshown⟩ := metrics_tell true true 0 .default 0 twoWindows s hrun
  rw [hallocs] at htotal hcount
  exact ⟨s, hrun, htotal (by decide), hcount, hsamples, hpeak, hfrag, hshown⟩

/-- **No change of the panel goes unreported.** In every run of the session in its
loop, while nothing has asked for a draw since the last one, the panel would be
drawn as it was then, wherever and over whatever. -/
theorem panel_current (attached unicode : Bool) (originNs : Nat) (style : MetricsStyle)
    (dropped : Nat) (acts : List MeterAct) (s : MeterSys)
    (hrun : Run.run MeterSys.step (MeterSys.init attached unicode originNs style dropped) acts =
      some s) (hclean : s.dirty = false) (area : Rect) (fb : Framebuffer) :
    s.metered.metrics.draw area fb = s.drawn.draw area fb :=
  Metrics.draw_congr (((MeterInv.init attached unicode originNs style dropped).run hrun).current
    hclean) area fb

theorem panel_current_skipped :
    ∃ s, Run.run MeterSys.step (MeterSys.init true true 0 .default 0) twoWindows = some s ∧
      s.dirty = false ∧
      s.metered.metrics.draw ⟨0, 0, 40, 7⟩ Framebuffer.init =
        s.drawn.draw ⟨0, 0, 40, 7⟩ Framebuffer.init := by
  have hval : (Run.run MeterSys.step (MeterSys.init true true 0 .default 0) twoWindows).map
      MeterSys.dirty = some false := by decide +kernel
  obtain ⟨s, hrun, hclean⟩ := Option.map_eq_some_iff.mp hval
  have hcurrent := panel_current true true 0 .default 0 twoWindows s hrun hclean ⟨0, 0, 40, 7⟩
    Framebuffer.init
  exact ⟨s, hrun, hclean, hcurrent⟩

end Heapviz
