import Heapviz.FramePace
import Mathlib.Data.List.Count

/-!
# What the loop's statistics tell

Between frames the statistics are those of the frames since the last reset
(`stats_tell`): how many there were, how many were drawn and skipped, how often
the screen changed its size, what was written, what came in, how many took longer
than their period, the last of them and the longest, and how many of the last
thirty were drawn in the time those took.

Within a frame the counters run ahead of the frames that are over, by what the
current one has come to so far (`StatsInv`).
-/

namespace Heapviz

/-! ## What there is to tell -/

/-- The rate over the last frames, thirty at most: those after the first of them
that were drawn, and the time from it to the last. -/
structure RateTells (fs : List FrameRecord) (fps : Nat × Nat) : Prop where
  few : fs.length < 2 → fps = (0, 0)
  many : ∀ before first since last, fs = before ++ first :: (since ++ [last]) →
    since.length + 2 ≤ kFpsSamples → before = [] ∨ since.length + 2 = kFpsSamples →
    fps = if last.updatedAt - first.updatedAt = 0 then (0, 0)
      else ((since ++ [last]).countP (·.painted), last.updatedAt - first.updatedAt)

/-- The counters that go on within a frame are those of these frames. -/
structure CountsTell (fs : List FrameRecord) (stats : LoopStats) : Prop where
  drawn : stats.drawn = fs.countP (·.painted)
  repaints : stats.repaints = fs.countP (·.resized)
  writes : stats.writes = fs.countP (·.bytes ≠ 0)
  bytesWritten : stats.bytesWritten = (fs.map (·.bytes)).sum
  events : stats.events = (fs.map (·.events)).sum % 2 ^ 64

/-- The longer of two frames, the earlier where they are as long. -/
def FrameTiming.longer (worst t : FrameTiming) : FrameTiming :=
  if t.totalNs > worst.totalNs then t else worst

/-- What is counted when a frame is over is that of these frames. -/
structure TimesTell (cfg : PaceConfig) (fs : List FrameRecord) (stats : LoopStats) : Prop where
  overruns : stats.overruns = fs.countP (·.timing.totalNs > cfg.periodNs)
  last : stats.last = ((fs.getLast?).map (·.timing)).getD .init
  worst : stats.worst = (fs.map (·.timing)).foldl FrameTiming.longer .init
  fps : RateTells fs stats.fps

/-! ## The samples behind the rate -/

/-- After each frame: when it was updated, and how many had been drawn by then. -/
def samplesFrom (drawn : Nat) : List FrameRecord → List (Nat × Nat)
  | [] => []
  | f :: fs =>
      (f.updatedAt, drawn + (if f.painted then 1 else 0)) ::
        samplesFrom (drawn + (if f.painted then 1 else 0)) fs

theorem samplesFrom_length (fs : List FrameRecord) :
    ∀ drawn, (samplesFrom drawn fs).length = fs.length := by
  induction fs with
  | nil => exact fun _ => rfl
  | cons f fs ih => exact fun drawn => congrArg (· + 1) (ih _)

theorem samplesFrom_get (before : List FrameRecord) (f : FrameRecord) (since : List FrameRecord) :
    ∀ drawn, (samplesFrom drawn (before ++ f :: since))[before.length]? =
      some (f.updatedAt, drawn + (before ++ [f]).countP (·.painted)) := by
  induction before with
  | nil =>
      intro drawn
      simp [samplesFrom, List.countP_cons]
  | cons g before ih =>
      intro drawn
      have hrest := ih (drawn + (if g.painted then 1 else 0))
      simp only [List.cons_append, samplesFrom, List.length_cons, List.getElem?_cons_succ, hrest,
        List.countP_cons]
      congr 2
      omega

theorem samplesFrom_concat (fs : List FrameRecord) (f : FrameRecord) :
    ∀ drawn, samplesFrom drawn (fs ++ [f]) =
      samplesFrom drawn fs ++ [(f.updatedAt, drawn + (fs ++ [f]).countP (·.painted))] := by
  induction fs with
  | nil =>
      intro drawn
      simp [samplesFrom, List.countP_cons]
  | cons g fs ih =>
      intro drawn
      simp only [List.cons_append, samplesFrom, ih, List.countP_cons]
      congr 4
      omega

/-- The rate the loop computes from the samples it holds. -/
theorem rate_tells {fs : List FrameRecord} {f : FrameRecord}
    {recent : Recent (Nat × Nat) kFpsSamples} {stats : LoopStats}
    (hholds : recent.Holds (samplesFrom 0 (fs ++ [f])))
    (hdrawn : stats.drawn = (fs ++ [f]).countP (·.painted)) (hfps : RateTells fs stats.fps) :
    RateTells (fs ++ [f]) (PacedLoop.rate recent stats f.updatedAt) := by
  have hlength : (fs ++ [f]).length = fs.length + 1 := List.length_append
  have hcount := hholds.count
  rw [samplesFrom_length, hlength] at hcount
  constructor
  · intro hfew
    unfold PacedLoop.rate
    rw [if_neg (by rw [hcount]; omega)]
    exact hfps.few (by omega)
  · intro before first since last heq hroom hfirst
    have hlengths : fs.length + 1 = before.length + (since.length + 2) := by
      rw [← hlength, heq]
      simp only [List.length_append, List.length_cons, List.length_nil]
    have hlast : last = f := by
      have h := congrArg List.getLast? heq
      rw [List.getLast?_concat, ← List.cons_append, ← List.append_assoc,
        List.getLast?_concat] at h
      exact (Option.some.inj h).symm
    have hold : (samplesFrom 0 (fs ++ [f]))[before.length]? =
        some (first.updatedAt, (before ++ [first]).countP (·.painted)) := by
      rw [heq, samplesFrom_get, Nat.zero_add]
    have hindex : (samplesFrom 0 (fs ++ [f])).length -
        min (samplesFrom 0 (fs ++ [f])).length kFpsSamples = before.length := by
      rw [samplesFrom_length, hlength, hlengths]
      rcases hfirst with rfl | hfull
      · simp only [List.length_nil]
        omega
      · omega
    have holdest := hholds.oldest_eq (hindex ▸ hold)
    have hsince : stats.drawn - (before ++ [first]).countP (·.painted) =
        (since ++ [last]).countP (·.painted) := by
      rw [hdrawn, heq, ← List.singleton_append, ← List.append_assoc, List.countP_append,
        Nat.add_sub_cancel_left]
    unfold PacedLoop.rate
    rw [if_pos (by rw [hcount, hlengths]; omega)]
    dsimp only
    rw [holdest, hsince, hlast]

/-! ## Within a frame -/

/-- Where the counters stand: what the current frame has come to, and whether it is
among those begun or among those over. -/
def PaceSys.Stands (s : PaceSys) : Prop :=
  match s.paced.loop.phase with
  | .top =>
      s.current = .init ∧ s.paced.place = .fresh ∧ s.paced.loop.frames = s.finished.length
  | .look | .measure =>
      s.current = .init ∧ s.paced.place = .fresh ∧ s.paced.loop.frames = s.finished.length + 1
  | .work =>
      (s.paced.place = .fresh ∧ s.current.events = 0 ∨
        s.paced.place = .marked ∧ s.paced.updatedAt = s.current.updatedAt) ∧
      s.current.painted = false ∧ s.current.bytes = 0 ∧
      s.paced.loop.frames = s.finished.length + 1
  | .flush _ =>
      s.paced.place = .marked ∧ s.paced.updatedAt = s.current.updatedAt ∧
      s.current.painted = false ∧ s.current.bytes = 0 ∧
      s.paced.loop.frames = s.finished.length + 1
  | .wait =>
      s.paced.place = .painted ∧ s.paced.updatedAt = s.current.updatedAt ∧
        s.paced.loop.frames = s.finished.length + 1 ∨
      s.paced.place ≠ .painted ∧ s.current = .init ∧ s.paced.loop.frames = s.finished.length
  | .exited _ => True

structure StatsInv (cfg : PaceConfig) (s : PaceSys) : Prop where
  counts : CountsTell (s.finished ++ [s.current]) s.paced.stats
  skipped : s.paced.stats.skipped = s.finished.countP (!·.painted) +
    if s.paced.place = .painted ∧ s.current.painted = false then 1 else 0
  times : TimesTell cfg s.finished s.paced.stats
  recent : s.paced.recent.Holds (samplesFrom 0 s.finished)
  stands : s.Stands

theorem CountsTell.none : CountsTell [] .init := ⟨rfl, rfl, rfl, rfl, rfl⟩

theorem TimesTell.none (cfg : PaceConfig) : TimesTell cfg [] .init := by
  refine ⟨rfl, rfl, rfl, fun _ => rfl, fun before first since last h => ?_⟩
  exact absurd h (by simp)

/-- The end of a frame. -/
theorem TimesTell.finish {cfg : PaceConfig} {fs : List FrameRecord} {stats : LoopStats}
    (h : TimesTell cfg fs stats) (f : FrameRecord) {fps : Nat × Nat}
    (hfps : RateTells (fs ++ [f]) fps) :
    TimesTell cfg (fs ++ [f]) { stats with
      last := f.timing
      worst := if f.timing.totalNs > stats.worst.totalNs then f.timing else stats.worst
      overruns :=
        if f.timing.totalNs > cfg.periodNs then stats.overruns + 1 else stats.overruns
      fps := fps } := by
  refine ⟨?_, ?_, ?_, hfps⟩
  · rw [List.countP_append, List.countP_singleton, ← h.overruns]
    simp only [decide_eq_true_eq]
    split <;> rfl
  · rw [List.getLast?_concat]
    rfl
  · rw [List.map_append, List.foldl_append, ← h.worst]
    rfl

theorem countP_concat {α : Type*} (p : α → Bool) (xs : List α) (x : α) :
    (xs ++ [x]).countP p = xs.countP p + (p x).toNat := by
  rw [List.countP_append, List.countP_singleton]
  cases p x <;> rfl

/-- A frame that has come to nothing yet adds nothing. -/
theorem CountsTell.settled {fs : List FrameRecord} {stats : LoopStats} :
    CountsTell (fs ++ [.init]) stats ↔ CountsTell fs stats := by
  have hpainted := countP_concat (·.painted) fs FrameRecord.init
  have hresized := countP_concat (·.resized) fs FrameRecord.init
  have hwritten := countP_concat (·.bytes ≠ 0) fs FrameRecord.init
  have hbytes : ((fs ++ [FrameRecord.init]).map (·.bytes)).sum = (fs.map (·.bytes)).sum := by
    rw [List.map_append, List.sum_append]
    rfl
  have hevents : ((fs ++ [FrameRecord.init]).map (·.events)).sum % 2 ^ 64 =
      (fs.map (·.events)).sum % 2 ^ 64 := by
    rw [List.map_append, List.sum_append]
    rfl
  constructor
  · intro h
    exact ⟨h.drawn.trans hpainted, h.repaints.trans hresized, h.writes.trans hwritten,
      h.bytesWritten.trans hbytes, h.events.trans hevents⟩
  · intro h
    exact ⟨h.drawn.trans hpainted.symm, h.repaints.trans hresized.symm,
      h.writes.trans hwritten.symm, h.bytesWritten.trans hbytes.symm, h.events.trans hevents.symm⟩

theorem CountsTell.events_concat {fs : List FrameRecord} {f : FrameRecord} {stats : LoopStats}
    (h : CountsTell (fs ++ [f]) stats) :
    stats.events = ((fs.map (·.events)).sum + f.events) % 2 ^ 64 := by
  have hevents := h.events
  rwa [List.map_append, List.sum_append] at hevents

/-- Counters that go on with another frame in the place of the last. -/
theorem CountsTell.replace {fs : List FrameRecord} {f g : FrameRecord} {stats stats' : LoopStats}
    (h : CountsTell (fs ++ [f]) stats)
    (hdrawn : stats'.drawn + f.painted.toNat = stats.drawn + g.painted.toNat)
    (hrepaints : stats'.repaints + f.resized.toNat = stats.repaints + g.resized.toNat)
    (hwrites : stats'.writes + (decide (f.bytes ≠ 0)).toNat =
      stats.writes + (decide (g.bytes ≠ 0)).toNat)
    (hbytes : stats'.bytesWritten + f.bytes = stats.bytesWritten + g.bytes)
    (hevents : stats'.events = ((fs.map (·.events)).sum + g.events) % 2 ^ 64) :
    CountsTell (fs ++ [g]) stats' := by
  refine ⟨?_, ?_, ?_, ?_, ?_⟩
  · have hold := h.drawn
    rw [countP_concat] at hold ⊢
    omega
  · have hold := h.repaints
    rw [countP_concat] at hold ⊢
    omega
  · have hold := h.writes
    rw [countP_concat] at hold ⊢
    omega
  · have hold := h.bytesWritten
    simp only [List.map_append, List.sum_append, List.map_cons, List.map_nil, List.sum_cons,
      List.sum_nil] at hold ⊢
    omega
  · simpa using hevents

section Steps

variable {cfg : PaceConfig} {s s' : PaceSys}

/-- A step that counts nothing. -/
theorem StatsInv.keep (h : StatsInv cfg s) (hstats : s'.paced.stats = s.paced.stats)
    (hrecent : s'.paced.recent = s.paced.recent) (hfinished : s'.finished = s.finished)
    (hcurrent : s'.current = s.current) (hplace : s.paced.place ≠ .painted)
    (hplace' : s'.paced.place ≠ .painted) (hstands : s'.Stands) : StatsInv cfg s' := by
  have hskipped := h.skipped
  rw [if_neg fun hw => hplace hw.1] at hskipped
  refine ⟨?_, ?_, ?_, ?_, hstands⟩
  · rw [hstats, hfinished, hcurrent]
    exact h.counts
  · rw [hstats, hfinished, if_neg fun hw => hplace' hw.1]
    exact hskipped
  · rw [hstats, hfinished]
    exact h.times
  · rw [hrecent, hfinished]
    exact h.recent

theorem PaceSys.Stands.exited (hexit : ∃ why, s.paced.loop.phase = .exited why) : s.Stands := by
  obtain ⟨why, hexit⟩ := hexit
  unfold PaceSys.Stands
  rw [hexit]
  trivial

theorem StatsInv.begin {now : Nat} {quit reset : Bool} (h : StatsInv cfg s)
    (hstep : s.step cfg (.begin now quit reset) = some s') : StatsInv cfg s' := by
  obtain ⟨⟨htop, -⟩, hs⟩ := Option.ite_none_right_eq_some.mp hstep
  obtain rfl := Option.some.inj hs
  have hstands := h.stands
  simp only [PaceSys.Stands, htop] at hstands
  obtain ⟨hcurrent, hplace, hframes⟩ := hstands
  have hfresh : s.paced.place ≠ .painted := by
    rw [hplace]
    exact Place.noConfusion
  have hphase := s.paced.loop.begin_phase cfg.toLoopConfig quit reset
  by_cases hnew : quit = false ∧ reset = true
  · obtain ⟨rfl, rfl⟩ := hnew
    refine ⟨CountsTell.settled.mpr CountsTell.none, rfl, TimesTell.none cfg,
      Recent.clear_holds _, ?_⟩
    rcases hphase with ⟨hlook, hfirst⟩ | hexit
    · simp only [PaceSys.Stands, PacedLoop.begin, hlook]
      exact ⟨trivial, trivial, hfirst⟩
    · exact .exited hexit
  · have hstill : (!quit && reset) = false := by
      cases quit <;> cases reset <;> simp_all
    refine h.keep ?_ ?_ (if_neg hnew) hcurrent.symm hfresh Place.noConfusion ?_
    · simp only [PacedLoop.begin, hstill, Bool.false_eq_true, if_false]
    · simp only [PacedLoop.begin, hstill, Bool.false_eq_true, if_false]
    · rcases hphase with ⟨hlook, hnext⟩ | hexit
      · have hreset : reset = false := by
          cases quit with
          | true => exact absurd hlook (by simp [EventLoop.begin])
          | false => simpa using hstill
        simp only [PaceSys.Stands, PacedLoop.begin, hlook, if_neg hnew]
        rw [hnext, hreset, if_neg Bool.false_ne_true, hframes]
        exact ⟨trivial, trivial, rfl⟩
      · exact .exited hexit

theorem StatsInv.measure {size : Option (Int × Int)} (h : StatsInv cfg s)
    (hstep : s.step cfg (.measure size) = some s') : StatsInv cfg s' := by
  obtain ⟨hphase, hs⟩ := Option.ite_none_right_eq_some.mp hstep
  obtain rfl := Option.some.inj hs
  have hstands := h.stands
  simp only [PaceSys.Stands, hphase] at hstands
  obtain ⟨hcurrent, hplace, hframes⟩ := hstands
  obtain ⟨hgoes, hkept⟩ := s.paced.loop.sized_phase cfg.toLoopConfig size
  set resized : Bool := decide ((s.paced.measure cfg size).loop.fb.w ≠ s.paced.loop.fb.w ∨
    (s.paced.measure cfg size).loop.fb.h ≠ s.paced.loop.fb.h) with hresized
  have hstats : (s.paced.measure cfg size).stats =
      { s.paced.stats with repaints := s.paced.stats.repaints + resized.toNat } := by
    by_cases hsize : (s.paced.measure cfg size).loop.fb.w ≠ s.paced.loop.fb.w ∨
        (s.paced.measure cfg size).loop.fb.h ≠ s.paced.loop.fb.h
    · rw [hresized, decide_eq_true hsize]
      exact if_pos hsize
    · rw [hresized, decide_eq_false hsize]
      exact if_neg hsize
  have hcounts := h.counts
  have htimes := h.times
  rw [hcurrent] at hcounts
  refine ⟨?_, ?_, ?_, h.recent, ?_⟩
  · dsimp only
    rw [hstats, hcurrent]
    refine hcounts.replace rfl ?_ rfl rfl ?_
    · exact Nat.add_zero _
    · exact hcounts.events_concat
  · have hskipped := h.skipped
    rw [if_neg (by simp [hplace])] at hskipped
    dsimp only
    rw [hstats, if_neg (by simp [PacedLoop.measure, hplace])]
    exact hskipped
  · dsimp only
    rw [hstats]
    exact ⟨htimes.overruns, htimes.last, htimes.worst, htimes.fps⟩
  · rcases hgoes with hwork | hexit
    · simp only [PaceSys.Stands, PacedLoop.measure, hwork, hcurrent]
      exact ⟨.inl ⟨hplace, rfl⟩, rfl, rfl, hkept.trans hframes⟩
    · exact .exited hexit

theorem StatsInv.work {now n drainedAt : Nat} {updated animating : Bool} (h : StatsInv cfg s)
    (hstep : s.step cfg (.work now n updated animating drainedAt) = some s') :
    StatsInv cfg s' := by
  obtain ⟨⟨hphase, hfresh, -, -⟩, hs⟩ := Option.ite_none_right_eq_some.mp hstep
  obtain rfl := Option.some.inj hs
  have hstands := h.stands
  simp only [PaceSys.Stands, hphase] at hstands
  obtain ⟨hplace, hpainted, hbytes, hframes⟩ := hstands
  have hnone : s.current.events = 0 := by
    rcases hplace with ⟨-, hnone⟩ | ⟨hmarked, -⟩
    · exact hnone
    · exact absurd (hfresh.symm.trans hmarked) (by simp)
  have hcounts := h.counts
  have htimes := h.times
  refine ⟨?_, ?_, ?_, h.recent, ?_⟩
  · refine hcounts.replace rfl rfl rfl rfl ?_
    have hevents := hcounts.events_concat
    rw [hnone, Nat.add_zero] at hevents
    simp only [PacedLoop.work, hevents, Nat.mod_add_mod]
  · have hskipped := h.skipped
    rw [if_neg (by simp [hfresh])] at hskipped
    rw [if_neg (by simp [PacedLoop.work])]
    exact hskipped
  · exact ⟨htimes.overruns, htimes.last, htimes.worst, htimes.fps⟩
  · simp only [PaceSys.Stands, PacedLoop.work, EventLoop.mark, hphase]
    exact ⟨.inr ⟨trivial, trivial⟩, hpainted, hbytes, hframes⟩

theorem StatsInv.skip (h : StatsInv cfg s) (hstep : s.step cfg .skip = some s') :
    StatsInv cfg s' := by
  obtain ⟨⟨hphase, hmarked, hclean⟩, hs⟩ := Option.ite_none_right_eq_some.mp hstep
  obtain rfl := Option.some.inj hs
  have hstands := h.stands
  simp only [PaceSys.Stands, hphase] at hstands
  obtain ⟨hplace, hpainted, -, hframes⟩ := hstands
  have hupdated : s.paced.updatedAt = s.current.updatedAt := by
    rcases hplace with ⟨hfresh, -⟩ | ⟨-, hupdated⟩
    · exact absurd (hfresh.symm.trans hmarked) (by simp)
    · exact hupdated
  have hcounts := h.counts
  have htimes := h.times
  refine ⟨?_, ?_, ?_, h.recent, ?_⟩
  · exact ⟨hcounts.drawn, hcounts.repaints, hcounts.writes, hcounts.bytesWritten, hcounts.events⟩
  · have hskipped := h.skipped
    rw [if_neg (by simp [hmarked])] at hskipped
    rw [if_pos ⟨rfl, hpainted⟩]
    exact congrArg (· + 1) hskipped
  · exact ⟨htimes.overruns, htimes.last, htimes.worst, htimes.fps⟩
  · simp only [PaceSys.Stands, PacedLoop.skip, s.paced.loop.draw_clean hclean]
    exact .inl ⟨trivial, hupdated, hframes⟩

theorem StatsInv.flush {now : Nat} {ok : Bool} (h : StatsInv cfg s)
    (hstep : s.step cfg (.flush now ok) = some s') : StatsInv cfg s' := by
  simp only [PaceSys.step] at hstep
  split at hstep
  · next rest hphase =>
    obtain ⟨-, hs⟩ := Option.ite_none_right_eq_some.mp hstep
    obtain rfl := Option.some.inj hs
    have hstands := h.stands
    simp only [PaceSys.Stands, hphase] at hstands
    obtain ⟨hmarked, hupdated, hpainted, hnone, hframes⟩ := hstands
    have hcounts := h.counts
    have htimes := h.times
    have hskipped := h.skipped
    rw [if_neg (by simp [hmarked])] at hskipped
    rcases s.paced.flush_cases rest ok now with hfailed | hdone
    · rw [hfailed]
      exact h.keep rfl rfl rfl rfl (by simp [hmarked]) (by simp [hmarked]) trivial
    · rw [hdone]
      refine ⟨?_, ?_, ?_, h.recent, .inl ⟨rfl, hupdated, hframes⟩⟩
      · refine hcounts.replace ?_ rfl ?_ ?_ ?_
        · rw [hpainted]
          rfl
        · rw [hnone]
          cases rest <;> rfl
        · rw [hnone]
          rfl
        · exact hcounts.events_concat
      · exact hskipped
      · exact ⟨htimes.overruns, htimes.last, htimes.worst, htimes.fps⟩
  · cases hstep

theorem StatsInv.finish {now : Nat} (h : StatsInv cfg s)
    (hstep : s.step cfg (.finish now) = some s') : StatsInv cfg s' := by
  obtain ⟨⟨hphase, hpainted, -⟩, hs⟩ := Option.ite_none_right_eq_some.mp hstep
  obtain rfl := Option.some.inj hs
  have hstands := h.stands
  simp only [PaceSys.Stands, hphase] at hstands
  obtain ⟨-, hupdated, hframes⟩ := hstands.resolve_right fun hother => hother.1 hpainted
  have hcounts := h.counts
  have htimes := h.times
  set done : FrameRecord := { s.current with timing := (s.paced.finish cfg now).timing } with hdone
  have hcounts' : CountsTell (s.finished ++ [done]) s.paced.stats :=
    hcounts.replace rfl rfl rfl rfl hcounts.events_concat
  have hrecent : (s.paced.recent.push (s.paced.updatedAt, s.paced.stats.drawn)).Holds
      (samplesFrom 0 (s.finished ++ [done])) := by
    rw [samplesFrom_concat, Nat.zero_add, ← hcounts'.drawn, hupdated]
    exact h.recent.push _
  refine ⟨?_, ?_, ?_, hrecent, ?_⟩
  · refine CountsTell.settled.mpr ?_
    exact ⟨hcounts'.drawn, hcounts'.repaints, hcounts'.writes, hcounts'.bytesWritten,
      hcounts'.events⟩
  · have hskipped := h.skipped
    rw [hpainted] at hskipped
    have hover : ¬((s.paced.finish cfg now).place = .painted ∧
        FrameRecord.init.painted = false) := fun hw => Place.noConfusion hw.1
    dsimp only
    rw [if_neg hover, List.countP_append, List.countP_singleton]
    refine hskipped.trans ?_
    show _ = _ + if (!s.current.painted) = true then 1 else 0
    cases s.current.painted <;> rfl
  · refine htimes.finish done ?_
    rw [hupdated] at hrecent ⊢
    exact rate_tells hrecent hcounts'.drawn htimes.fps
  · simp only [PaceSys.Stands, PacedLoop.finish, hphase]
    refine .inr ⟨Place.noConfusion, trivial, ?_⟩
    rw [hframes, List.length_append]
    rfl

theorem StatsInv.step {a : PaceAct} (h : StatsInv cfg s) (hstep : s.step cfg a = some s') :
    StatsInv cfg s' := by
  have hstands := h.stands
  unfold PaceSys.Stands at hstands
  cases a with
  | begin now quit reset => exact h.begin hstep
  | measure size => exact h.measure hstep
  | work now n updated animating drainedAt => exact h.work hstep
  | skip => exact h.skip hstep
  | flush now ok => exact h.flush hstep
  | finish now => exact h.finish hstep
  | look requested =>
      obtain ⟨hphase, hs⟩ := Option.ite_none_right_eq_some.mp hstep
      obtain rfl := Option.some.inj hs
      rw [hphase] at hstands
      obtain ⟨hcurrent, hplace, hframes⟩ := hstands
      have hfresh : s.paced.place ≠ .painted := by simp [hplace]
      refine h.keep rfl rfl rfl rfl hfresh hfresh ?_
      cases requested with
      | true => exact ⟨hcurrent, hplace, hframes⟩
      | false =>
          refine ⟨.inl ⟨hplace, ?_⟩, ?_, ?_, hframes⟩
          · exact hcurrent ▸ rfl
          · exact hcurrent ▸ rfl
          · exact hcurrent ▸ rfl
  | draw now puts drawnAt =>
      obtain ⟨⟨hphase, hmarked, hdirty, -, -⟩, hs⟩ := Option.ite_none_right_eq_some.mp hstep
      obtain rfl := Option.some.inj hs
      rw [hphase] at hstands
      obtain ⟨hplace, hpainted, hbytes, hframes⟩ := hstands
      have hupdated : s.paced.updatedAt = s.current.updatedAt := by
        rcases hplace with ⟨hfresh, -⟩ | ⟨-, hupdated⟩
        · exact absurd (hfresh.symm.trans hmarked) (by simp)
        · exact hupdated
      have hfresh : s.paced.place ≠ .painted := by simp [hmarked]
      refine h.keep rfl rfl rfl rfl hfresh hfresh ?_
      obtain ⟨rest, hflush⟩ := s.paced.loop.draw_dirty hdirty puts
      simp only [PaceSys.Stands, PacedLoop.draw, hflush]
      exact ⟨hmarked, hupdated, hpainted, hbytes, (s.paced.loop.draw_frames puts).trans hframes⟩
  | check now quit =>
      obtain ⟨⟨hphase, hcheck, -⟩, hs⟩ := Option.ite_none_right_eq_some.mp hstep
      obtain rfl := Option.some.inj hs
      rw [hphase] at hstands
      have hplace : s.paced.place ≠ .painted := by simp [hcheck]
      obtain ⟨-, hcurrent, hframes⟩ := hstands.resolve_left fun hother => hplace hother.1
      rcases s.paced.check_cases now quit with ⟨hleave, -⟩ | ⟨wake, place, heq, -, hrests⟩
      · rw [hleave]
        refine h.keep rfl rfl rfl rfl hplace Place.noConfusion ?_
        cases quit with
        | true => trivial
        | false => exact ⟨hcurrent, rfl, hframes⟩
      · have hplace' : place ≠ .painted := by
          rcases hrests with rfl | ⟨rfl, -⟩ <;> exact Place.noConfusion
        rw [heq]
        refine h.keep rfl rfl rfl rfl hplace hplace' ?_
        simp only [PaceSys.Stands, hphase]
        exact .inr ⟨hplace', hcurrent, hframes⟩
  | woken now signal =>
      simp only [PaceSys.step] at hstep
      split at hstep
      · next wake hasleep =>
        obtain ⟨⟨hphase, -, -⟩, hs⟩ := Option.ite_none_right_eq_some.mp hstep
        obtain rfl := Option.some.inj hs
        rw [hphase] at hstands
        have hplace : s.paced.place ≠ .painted := by simp [hasleep]
        obtain ⟨-, hcurrent, hframes⟩ := hstands.resolve_left fun hother => hplace hother.1
        exact h.keep rfl rfl rfl rfl hplace Place.noConfusion ⟨hcurrent, rfl, hframes⟩
      · cases hstep
  | polled now r =>
      simp only [PaceSys.step] at hstep
      split at hstep
      · next wake hpolling =>
        obtain ⟨⟨hphase, -, -⟩, hs⟩ := Option.ite_none_right_eq_some.mp hstep
        obtain rfl := Option.some.inj hs
        rw [hphase] at hstands
        have hplace : s.paced.place ≠ .painted := by simp [hpolling]
        obtain ⟨-, hcurrent, hframes⟩ := hstands.resolve_left fun hother => hplace hother.1
        rcases s.paced.polled_cases r with ⟨quit, key, hleave, -⟩ | ⟨dirty, inputOpen, heq, -⟩
        · rw [hleave]
          refine h.keep rfl rfl rfl rfl hplace Place.noConfusion ?_
          cases quit with
          | true => trivial
          | false => exact ⟨hcurrent, rfl, hframes⟩
        · rw [heq]
          refine h.keep rfl rfl rfl rfl hplace Place.noConfusion ?_
          simp only [PaceSys.Stands, hphase]
          exact .inr ⟨Place.noConfusion, hcurrent, hframes⟩
      · cases hstep

theorem StatsInv.init (cfg : PaceConfig) (fb : Framebuffer) (now : Nat) :
    StatsInv cfg (.start cfg fb now) :=
  ⟨CountsTell.settled.mpr CountsTell.none, rfl, TimesTell.none cfg, Recent.clear_holds _, rfl, rfl,
    rfl⟩

/-- **The statistics tell of the frames since the last reset.** At the top of an iteration,
in whatever run from the start, every number the loop keeps is that of these frames. -/
theorem stats_tell {acts : List PaceAct} {fb : Framebuffer} {now : Nat}
    (hrun : Run.run (PaceSys.step cfg) (.start cfg fb now) acts = some s)
    (htop : s.paced.loop.phase = .top) :
    s.paced.loop.frames = s.finished.length ∧
      s.paced.stats.skipped = s.finished.countP (!·.painted) ∧
      CountsTell s.finished s.paced.stats ∧ TimesTell cfg s.finished s.paced.stats := by
  have hinv : StatsInv cfg s :=
    Run.run_invariant (fun _ _ _ h hstep => h.step hstep) (.init cfg fb now) hrun
  have hstands := hinv.stands
  unfold PaceSys.Stands at hstands
  rw [htop] at hstands
  obtain ⟨hcurrent, hplace, hframes⟩ := hstands
  have hcounts := hinv.counts
  rw [hcurrent] at hcounts
  have hskipped := hinv.skipped
  rw [if_neg (by simp [hplace])] at hskipped
  exact ⟨hframes, hskipped, CountsTell.settled.mp hcounts, hinv.times⟩

end Steps

/-- A frame that is drawn, and one with nothing new. -/
def twoFrames : List PaceAct :=
  [.begin 0 false false, .look false, .work 30 0 false false 10, .draw 70 [] 50, .flush 90 true,
    .finish 100, .check 200 false, .polled 50000200 .timeout,
    .begin 50000300 false false, .look false, .work 50000400 0 false false 50000350, .skip,
    .finish 50000500, .check 50000600 false, .polled 100000600 .timeout]

theorem stats_tell_two :
    ∃ s, Run.run (PaceSys.step ⟨.default, 20⟩) (.start ⟨.default, 20⟩ .init 0) twoFrames = some s ∧
      s.paced.loop.frames = 2 ∧ s.paced.stats.drawn = 1 ∧ s.paced.stats.skipped = 1 := by
  have hrun : ∃ s, Run.run (PaceSys.step ⟨.default, 20⟩) (.start ⟨.default, 20⟩ .init 0)
      twoFrames = some s ∧ s.paced.loop.phase = .top ∧ s.finished.length = 2 ∧
        s.finished.countP (·.painted) = 1 ∧ s.finished.countP (!·.painted) = 1 :=
    ⟨_, rfl, rfl, rfl, rfl, rfl⟩
  obtain ⟨s, hrun, htop, hlength, hpainted, hclean⟩ := hrun
  obtain ⟨hframes, hskipped, hcounts, -⟩ := stats_tell hrun htop
  exact ⟨s, hrun, hframes.trans hlength, hcounts.drawn.trans hpainted, hskipped.trans hclean⟩

end Heapviz
