import Heapviz.ChunkMap
import Heapviz.HeapPause
import Heapviz.HeatColor

/-!
# What becomes of freed records

A freed record stays in the table for its fade. Which records those are
can be read off the events alone: an address that was allocated at some
time has a record, and it is freed, at the time of the last event of that
address, when that event was a free (`FollowsLog`). No part of a frame
changes that - rebuilding and enrichment rewrite flags only - and nothing
ever takes a record out. So how long freed records stay is up to the
target: they are gone in time exactly when their addresses are handed out
again.
-/

namespace Heapviz

open RobinHood ChunkTable

/-! ## Discarded in time -/

/-- How long a freed record has something to fade. -/
def fadeWindowMs : Nat := kDefaultTimings.freeFlashMs + kDefaultTimings.freeFadeMs

/-- The record is freed, and not for longer than its fade and a period. -/
def Chunk.Fading (nowMs period : Nat) (c : Chunk) : Prop :=
  c.state = .freed ∧ nowMs ≤ c.freeMs + fadeWindowMs + period

instance (nowMs period : Nat) : DecidablePred (Chunk.Fading nowMs period) :=
  fun _ => inferInstanceAs (Decidable (_ ∧ _))

/-- Every freed record is still fading, and the table no larger than what is
live and what is fading. -/
structure ChunkTable.Discarded (t : ChunkTable) (nowMs period : Nat) : Prop where
  faded : ∀ c ∈ t.records, c.state = .freed → c.Fading nowMs period
  size : t.size ≤ t.live.card + (t.records.filter (Chunk.Fading nowMs period)).card

theorem TableInv.discarded_iff {t : ChunkTable} (hI : TableInv t) {nowMs period : Nat} :
    t.Discarded nowMs period ↔
      ∀ c ∈ t.records, c.state = .freed → nowMs ≤ c.freeMs + fadeWindowMs + period := by
  constructor
  · intro h c hc hfreed
    exact (h.faded c hc hfreed).2
  · intro h
    refine ⟨fun c hc hfreed => ⟨hfreed, h c hc hfreed⟩, ?_⟩
    have hrest : (t.records.filter fun c => ¬ c.state = .live) ≤
        t.records.filter (Chunk.Fading nowMs period) := by
      refine Multiset.le_filter.mpr ⟨Multiset.filter_le _ _, fun c hc => ?_⟩
      obtain ⟨hmem, hlive⟩ := Multiset.mem_filter.mp hc
      have hfull := full_iff.mp (mem_contents.mp hmem).1
      have hfreed : c.state = .freed := by
        cases hstate : c.state with
        | empty => exact absurd hstate hfull
        | live => exact absurd hstate hlive
        | freed => rfl
      exact ⟨hfreed, h c hmem hfreed⟩
    calc t.size = t.records.card := hI.size_eq
      _ = t.live.card + (t.records.filter fun c => ¬ c.state = .live).card := by
        rw [ChunkTable.live, liveOf, ← Multiset.card_add, Multiset.filter_add_not]
      _ ≤ t.live.card + (t.records.filter (Chunk.Fading nowMs period)).card :=
        Nat.add_le_add_left (Multiset.card_le_card hrest) _

/-! ## What the events say -/

/-- The address was allocated at some time. -/
def Allocated (log : List HvEvent) (ptr : Nat) : Prop :=
  ptr ≠ 0 ∧ ∃ e ∈ log, e.ptr = ptr ∧ e.isFree = false

def lastEvent (log : List HvEvent) (ptr : Nat) : Option HvEvent :=
  (log.filter fun e => e.ptr = ptr).getLast?

/-- The event is a free, of an address that had been allocated, and the last
thing that happened to it. -/
def FreedLast (log : List HvEvent) (ptr : Nat) (e : HvEvent) : Prop :=
  Allocated log ptr ∧ lastEvent log ptr = some e ∧ e.isFree = true

section Log

variable {log : List HvEvent} {e : HvEvent} {ptr : Nat}

theorem lastEvent_concat_self : lastEvent (log ++ [e]) e.ptr = some e := by
  simp [lastEvent, List.filter_append]

theorem lastEvent_concat_of_ne (h : ptr ≠ e.ptr) :
    lastEvent (log ++ [e]) ptr = lastEvent log ptr := by
  simp [lastEvent, List.filter_append, Ne.symm h]

theorem allocated_concat :
    Allocated (log ++ [e]) ptr ↔
      Allocated log ptr ∨ ptr ≠ 0 ∧ e.ptr = ptr ∧ e.isFree = false := by
  simp only [Allocated, List.mem_append, List.mem_singleton]
  constructor
  · rintro ⟨hptr, x, hx | rfl, hx'⟩
    · exact .inl ⟨hptr, x, hx, hx'⟩
    · exact .inr ⟨hptr, hx'⟩
  · rintro (⟨hptr, x, hx, hx'⟩ | ⟨hptr, hx'⟩)
    · exact ⟨hptr, x, .inl hx, hx'⟩
    · exact ⟨hptr, e, .inr rfl, hx'⟩

theorem allocated_concat_of_ne (h : ptr ≠ e.ptr) :
    Allocated (log ++ [e]) ptr ↔ Allocated log ptr := by
  rw [allocated_concat]
  exact or_iff_left fun hx => h hx.2.1.symm

end Log

/-- The map records the allocated addresses, and those as freed whose last
event was a free, with its time. -/
structure FollowsLog (stamp : Nat → Nat) (log : List HvEvent) (m : ChunkMap) : Prop where
  known : ∀ ptr, (m ptr).isSome = true ↔ Allocated log ptr
  freed : ∀ ptr ms, (∃ c, m ptr = some c ∧ c.state = .freed ∧ c.freeMs = ms) ↔
    ∃ e, FreedLast log ptr e ∧ stamp e.timestamp = ms

/-- What an event does to the map. -/
def ChunkMap.event (stamp : Nat → Nat) (m : ChunkMap) (e : HvEvent) : ChunkMap :=
  if e.isFree then (ChunkMap.step m (.markFreed e.ptr (stamp e.timestamp))).1
  else (ChunkMap.step m (.insertLive e.ptr (HeapApp.clampU32 e.size) e.usable
    (stamp e.timestamp) (hvEventGetTid e))).1

section Event

variable {stamp : Nat → Nat} {log : List HvEvent} {m : ChunkMap}

theorem FollowsLog.nil : FollowsLog stamp [] fun _ => none where
  known := fun ptr => by simp [Allocated]
  freed := fun ptr ms => by simp [FreedLast, Allocated]

/-- Other addresses are not concerned. -/
theorem ChunkMap.event_of_ne {e : HvEvent} {ptr : Nat} (h : ptr ≠ e.ptr) :
    ChunkMap.event stamp m e ptr = m ptr := by
  unfold ChunkMap.event
  split_ifs
  · exact Function.update_of_ne h _ _
  · unfold ChunkMap.step
    dsimp only
    split_ifs
    · rfl
    · exact Function.update_of_ne h _ _

theorem FollowsLog.event (h : FollowsLog stamp log m) (e : HvEvent) :
    FollowsLog stamp (log ++ [e]) (m.event stamp e) := by
  refine ⟨?_, ?_⟩
  · intro ptr
    by_cases hptr : ptr = e.ptr
    · subst hptr
      rw [allocated_concat, ← h.known]
      unfold ChunkMap.event
      cases hfree : e.isFree with
      | true => simp [ChunkMap.step]
      | false =>
          by_cases hzero : e.ptr = 0
          · simp [ChunkMap.step, hzero]
          · simp [ChunkMap.step, hzero]
    · rw [ChunkMap.event_of_ne hptr, allocated_concat_of_ne hptr]
      exact h.known ptr
  · intro ptr ms
    by_cases hptr : ptr = e.ptr
    · subst hptr
      simp only [FreedLast, lastEvent_concat_self, Option.some.injEq, allocated_concat, ← h.known]
      unfold ChunkMap.event
      cases hfree : e.isFree with
      | true =>
          cases hm : m e.ptr with
          | none => simp [ChunkMap.step, hm]
          | some c => simp [ChunkMap.step, hm, hfree]
      | false =>
          have hrec : ∀ c, (ChunkMap.step m (.insertLive e.ptr (HeapApp.clampU32 e.size) e.usable
              (stamp e.timestamp) (hvEventGetTid e))).1 e.ptr = some c → c.state ≠ .freed := by
            intro c hc
            by_cases hzero : e.ptr = 0
            · -- address zero is never recorded
              have hnone : m 0 = none := by
                rw [← Option.not_isSome_iff_eq_none, h.known]
                exact fun hall => hall.1 rfl
              simp [ChunkMap.step, hzero, hnone] at hc
            · simp only [ChunkMap.step, if_neg hzero, Function.update_self,
                Option.some.injEq] at hc
              rw [← hc]
              exact fun hstate => by cases hstate
          constructor
          · rintro ⟨c, hc, hstate, -⟩
            exact absurd hstate (hrec c hc)
          · rintro ⟨x, ⟨-, rfl, hx⟩, -⟩
            rw [hfree] at hx
            cases hx
    · have hlast : ∀ x, FreedLast (log ++ [e]) ptr x ↔ FreedLast log ptr x := fun x => by
        rw [FreedLast, allocated_concat_of_ne hptr, lastEvent_concat_of_ne hptr, FreedLast]
      simp only [hlast]
      rw [ChunkMap.event_of_ne hptr]
      exact h.freed ptr ms

end Event

/-! ## A frame leaves the records alone -/

/-- `b` has the records of `a`, up to their flags, its clock and its pause. -/
structure HeapApp.SameRecords (a b : HeapApp) : Prop where
  models : ∀ m, a.table.Models m → b.table.Models m
  originNs : b.originNs = a.originNs
  nowMs : b.nowMs = a.nowMs
  paused : b.paused = a.paused

section Frame

variable {a : HeapApp}

theorem HeapApp.SameRecords.refl (a : HeapApp) : a.SameRecords a := ⟨fun _ h => h, rfl, rfl, rfl⟩

theorem HeapApp.SameRecords.trans {b c : HeapApp} (h : a.SameRecords b) (h' : b.SameRecords c) :
    a.SameRecords c :=
  ⟨fun m hm => h'.models m (h.models m hm), h'.originNs.trans h.originNs,
    h'.nowMs.trans h.nowMs, h'.paused.trans h.paused⟩

theorem HeapApp.refit_records (a : HeapApp) : a.SameRecords a.refit := by
  cases hvalid : a.fitted.valid with
  | false =>
      rw [HeapApp.refit_invalid hvalid]
      exact ⟨fun _ h => h, rfl, rfl, rfl⟩
  | true =>
      cases hsame : a.map.sameGeometry a.fitted with
      | true =>
          rw [HeapApp.refit_same hvalid hsame]
          exact ⟨fun _ h => h, rfl, rfl, rfl⟩
      | false =>
          rw [HeapApp.refit_moved hvalid hsame]
          exact ⟨fun _ h => h.clearRefined, rfl, rfl, rfl⟩

theorem HeapApp.foldHeader_records (a : HeapApp) (c : Chunk) (info : HeapApp.ChunkInfo) :
    a.SameRecords (a.foldHeader c info) := by
  unfold HeapApp.foldHeader
  split_ifs
  · exact HeapApp.SameRecords.refl a
  · exact HeapApp.SameRecords.refl a
  · exact ⟨fun _ h => (h.markRefined c.key info.overhead info.header).1, rfl, rfl, rfl⟩

theorem HeapApp.enrich_records (a : HeapApp) (reply : HeapApp.ReaderReply) :
    a.SameRecords (a.enrich reply) :=
  HeapApp.enrich_induction reply (fun _ _ _ => ⟨fun _ h => h, rfl, rfl, rfl⟩)
    fun b c info hb => hb.trans (b.foldHeader_records c info)

theorem HeapApp.resized_records (a : HeapApp) (w h : Int) : a.SameRecords (a.resized w h) := by
  unfold HeapApp.resized
  dsimp only
  split_ifs
  · exact ⟨fun _ h => h, rfl, rfl, rfl⟩
  · have hset : a.SameRecords
        { a with width := w, height := h, layout := solveLayout w h, geometryDirty := true } :=
      ⟨fun _ h => h, rfl, rfl, rfl⟩
    exact hset.trans (HeapApp.refit_records _)

/-- The time an unpaused update shows. -/
def HeapApp.msAt (a : HeapApp) (nowNs : Nat) : Nat :=
  HeapApp.clampU32 (sub64 nowNs a.originNs / 1000000)

theorem HeapApp.update_records (hp : a.paused = false) (env : HeapApp.UpdateEnv) :
    ({ a with nowMs := a.msAt env.nowNs } : HeapApp).SameRecords (a.update env) := by
  have htick : ({ a with nowMs := a.msAt env.nowNs } : HeapApp).SameRecords (a.tick env) := by
    unfold HeapApp.tick
    dsimp only
    split_ifs <;> exact ⟨fun _ h => h, rfl, rfl, rfl⟩
  have hscan : (a.tick env).SameRecords ((a.tick env).rescan env).1 := by
    unfold HeapApp.rescan
    split_ifs
    · exact ⟨fun _ h => h, rfl, rfl, rfl⟩
    · exact HeapApp.SameRecords.refl _
  have hfit : ((a.tick env).rescan env).1.SameRecords ((a.tick env).rescan env).1.refitDirty := by
    unfold HeapApp.refitDirty
    split_ifs
    · exact HeapApp.refit_records _
    · exact HeapApp.SameRecords.refl _
  unfold HeapApp.update
  rw [if_neg (by rw [hp]; exact Bool.false_ne_true)]
  exact ((htick.trans hscan).trans hfit).trans (HeapApp.enrich_records _ _)

/-! ## Events and records -/

theorem HeapApp.applyEvent_originNs (a : HeapApp) (e : HvEvent) :
    (a.applyEvent e).originNs = a.originNs := by
  unfold HeapApp.applyEvent
  dsimp only
  split
  · split <;> rfl
  · rfl

theorem HeapApp.eventMs_congr {b : HeapApp} (h : b.originNs = a.originNs) :
    b.eventMs = a.eventMs := by
  funext ns
  rw [HeapApp.eventMs, HeapApp.eventMs, h]

theorem HeapApp.applyEvent_models {m : ChunkMap} (h : a.table.Models m) (e : HvEvent) :
    (a.applyEvent e).table.Models (m.event a.eventMs e) := by
  unfold ChunkMap.event
  cases hfree : e.isFree with
  | false =>
      rw [(HeapApp.applyEvent_alloc hfree).2]
      exact (h.insertLive e.ptr (HeapApp.clampU32 e.size) e.usable (a.eventMs e.timestamp)
        (hvEventGetTid e)).1
  | true =>
      cases hlookup : a.table.lookup e.ptr with
      | none =>
          rw [(HeapApp.applyEvent_unknown hfree hlookup).2]
          have hnone : m e.ptr = none := by rw [← h.lookup, hlookup]; rfl
          have hsame : (ChunkMap.step m (.markFreed e.ptr (a.eventMs e.timestamp))).1 = m := by
            unfold ChunkMap.step
            dsimp only
            rw [hnone, Option.map_none, ← hnone, Function.update_eq_self]
          rw [if_pos rfl, hsame]
          exact h
      | some c =>
          have hkey := (h.inv.lookup_eq_some.mp hlookup).2
          rw [(HeapApp.applyEvent_known hfree hlookup hkey).2]
          exact (h.markFreed e.ptr (a.eventMs e.timestamp)).1

/-- The table records what the events say. -/
def HeapApp.Recorded (log : List HvEvent) (a : HeapApp) : Prop :=
  ∃ m, a.table.Models m ∧ FollowsLog a.eventMs log m

theorem HeapApp.Recorded.of_records {b : HeapApp} {log : List HvEvent} (h : a.Recorded log)
    (hb : a.SameRecords b) : b.Recorded log := by
  obtain ⟨m, hm, hlog⟩ := h
  exact ⟨m, hb.models m hm, HeapApp.eventMs_congr hb.originNs ▸ hlog⟩

theorem HeapApp.Recorded.at_ms (h : a.Recorded log) (ms : Nat) :
    ({ a with nowMs := ms } : HeapApp).Recorded log := h

theorem HeapApp.Recorded.apply {log : List HvEvent} (h : a.Recorded log) (es : List HvEvent) :
    (a.apply es).Recorded (log ++ es) := by
  induction es generalizing a log with
  | nil =>
      rw [List.append_nil]
      exact h
  | cons e es ih =>
      obtain ⟨m, hm, hlog⟩ := h
      have hstep : (a.applyEvent e).Recorded (log ++ [e]) :=
        ⟨m.event a.eventMs e, HeapApp.applyEvent_models hm e,
          HeapApp.eventMs_congr (a.applyEvent_originNs e) ▸ hlog.event e⟩
      have := ih hstep
      rwa [List.append_assoc] at this

end Frame

/-! ## The session and its events -/

/-- The events an action applies to the model. -/
def HeapApp.appliedBy (a : HeapApp) : HeapApp.AppAct → List HvEvent
  | .drain queued =>
      a.replayed ++ a.drainPlan.2.applies (queued.take a.drainPlan.2.request)
  | .resized _ _ | .update _ | .space => []

/-- A drain applies those events, and keeps what is staged behind its head. -/
theorem HeapApp.drain_applied {a : HeapApp} (hle : a.stagedHead ≤ a.staged.length)
    (queued : List HvEvent) :
    (a.drain queued).1.model = (a.apply (a.appliedBy (.drain queued))).model ∧
      (a.drain queued).1.stagedHead ≤ (a.drain queued).1.staged.length := by
  obtain ⟨-, hplanned⟩ := HeapApp.drainPlan_staging hle
  rcases HeapApp.drainPlan_sound hle with ⟨n, hplan, hsound⟩ | ⟨-, hopen⟩
  · have hdrain : (a.drain queued).1 = a.drainPlan.1 := by
      rw [HeapApp.drain, hplan]
      rfl
    have hlog : a.appliedBy (.drain queued) = a.replayed := by
      rw [HeapApp.appliedBy, hplan]
      exact List.append_nil _
    rw [hdrain, hlog]
    exact ⟨hsound.model, hplanned⟩
  · obtain ⟨hsound, -, hle'⟩ := hopen.finish hplanned (List.length_take_le _ queued)
    exact ⟨hsound.model, hle'⟩

/-- A session, and the events it has applied so far. -/
structure FadeSys where
  app : HeapApp
  log : List HvEvent

namespace FadeSys

def init (attached unicode : Bool) (originNs : Nat) : FadeSys :=
  ⟨HeapApp.new attached unicode originNs, []⟩

def step (s : FadeSys) (x : HeapApp.AppAct) : Option FadeSys :=
  some ⟨s.app.act x, s.log ++ s.app.appliedBy x⟩

/-- An unpaused update leaves no freed record that has faded longer than a
period ago. -/
def Discards (period : Nat) (s : FadeSys) : HeapApp.AppAct → Prop
  | .update env => s.app.paused = false →
      (s.app.update env).table.Discarded (s.app.update env).nowMs period
  | .drain _ | .resized _ _ | .space => True

/-- At an unpaused update, no address that was allocated has been freed, for
the last time, longer ago than that. -/
def Reused (period : Nat) (s : FadeSys) : HeapApp.AppAct → Prop
  | .update env => s.app.paused = false →
      ∀ ptr e, FreedLast s.log ptr e →
        s.app.msAt env.nowNs ≤ s.app.eventMs e.timestamp + fadeWindowMs + period
  | .drain _ | .resized _ _ | .space => True

end FadeSys

structure FadeInv (s : FadeSys) : Prop where
  backlog : s.app.stagedHead ≤ s.app.staged.length
  recorded : s.app.Recorded s.log

theorem HeapApp.Recorded.of_model {a b : HeapApp} {log : List HvEvent} (h : a.Recorded log)
    (hb : b.model = a.model) : b.Recorded log := by
  obtain ⟨m, hm, hlog⟩ := h
  have htable := congrArg HeapApp.table hb
  have horigin := congrArg HeapApp.originNs hb
  dsimp only [HeapApp.model] at htable horigin
  exact ⟨m, htable ▸ hm, HeapApp.eventMs_congr horigin ▸ hlog⟩

theorem FadeInv.init (attached unicode : Bool) (originNs : Nat) :
    FadeInv (FadeSys.init attached unicode originNs) where
  backlog := Nat.le_refl 0
  recorded :=
    ⟨fun _ => none,
      (ChunkTable.Models.new 1024).same (HeapApp.new_table attached unicode originNs),
      FollowsLog.nil⟩

theorem FadeInv.drain {s : FadeSys} (h : FadeInv s) (queued : List HvEvent) :
    FadeInv ⟨(s.app.drain queued).1, s.log ++ s.app.appliedBy (.drain queued)⟩ := by
  obtain ⟨hmodel, hle⟩ := HeapApp.drain_applied h.backlog queued
  exact ⟨hle, (h.recorded.apply _).of_model hmodel⟩

theorem FadeInv.step {s s' : FadeSys} (h : FadeInv s) {x : HeapApp.AppAct}
    (hstep : s.step x = some s') : FadeInv s' := by
  obtain rfl := Option.some.inj hstep
  cases x with
  | drain queued => exact h.drain queued
  | resized w ht =>
      obtain ⟨hstaged, hhead⟩ := s.app.resized_staging w ht
      refine ⟨?_, ?_⟩
      · simp only [HeapApp.act]
        rw [hstaged, hhead]
        exact h.backlog
      · simp only [HeapApp.act, HeapApp.appliedBy, List.append_nil]
        exact h.recorded.of_records (s.app.resized_records w ht)
  | update env =>
      obtain ⟨hstaged, hhead⟩ := s.app.update_staging env
      refine ⟨?_, ?_⟩
      · simp only [HeapApp.act]
        rw [hstaged, hhead]
        exact h.backlog
      · simp only [HeapApp.act, HeapApp.appliedBy, List.append_nil]
        cases hp : s.app.paused with
        | true =>
            rw [HeapApp.update, if_pos hp]
            exact h.recorded
        | false =>
            exact (h.recorded.at_ms _).of_records (HeapApp.update_records hp env)
  | space =>
      simp only [HeapApp.act, HeapApp.appliedBy, List.append_nil, HeapApp.keySpace]
      split_ifs
      · exact ⟨h.backlog, h.recorded⟩
      · exact h

/-- At one update: the table has kept a record too long exactly when the
events say so. -/
theorem FadeInv.discards_iff {s : FadeSys} (h : FadeInv s) (period : Nat) (x : HeapApp.AppAct) :
    s.Discards period x ↔ s.Reused period x := by
  cases x with
  | drain queued => exact Iff.rfl
  | resized w ht => exact Iff.rfl
  | space => exact Iff.rfl
  | update env =>
      refine forall_congr' ?_
      intro hp
      obtain ⟨m, hm, hlog⟩ := h.recorded
      have hrec := HeapApp.update_records hp env
      have hm' := hrec.models m hm
      rw [hm'.inv.discarded_iff, hrec.nowMs]
      constructor
      · intro hfaded ptr e he
        obtain ⟨entry, hentry, hstate, hms⟩ := (hlog.freed ptr _).mpr ⟨e, he, rfl⟩
        rw [← hm'.lookup] at hentry
        obtain ⟨c, hc, rfl⟩ := Option.map_eq_some_iff.mp hentry
        have := hfaded c (hm'.inv.lookup_eq_some.mp hc).1 hstate
        rwa [show c.freeMs = _ from hms] at this
      · intro hreused c hc hstate
        have hentry : m c.key = some c.entry := by
          rw [← hm'.lookup, hm'.inv.lookup_eq_some.mpr ⟨hc, rfl⟩]
          rfl
        obtain ⟨e, he, hms⟩ := (hlog.freed c.key c.freeMs).mp ⟨c.entry, hentry, hstate, rfl⟩
        rw [← hms]
        exact hreused c.key e he

theorem FadeInv.guarded_iff {s : FadeSys} (h : FadeInv s) (period : Nat)
    (acts : List HeapApp.AppAct) :
    Run.Guarded FadeSys.step (FadeSys.Discards period) s acts ↔
      Run.Guarded FadeSys.step (FadeSys.Reused period) s acts :=
  Run.guarded_congr (fun _ _ _ hs hs' => hs.step hs') (fun _ x hs => hs.discards_iff period x) h

/-- **Only reuse discards freed records.** In every session - any events, any
schedule of drains, resizes, pauses and updates - every unpaused update
leaves a table without records that have faded longer than a period ago,
and no larger than the live and the fading ones, exactly when at each such
update every address that was freed for the last time, and had been
allocated before, was freed within the window and the period. -/
theorem freed_discarded_iff (attached unicode : Bool) (originNs period : Nat)
    (acts : List HeapApp.AppAct) :
    Run.Guarded FadeSys.step (FadeSys.Discards period) (FadeSys.init attached unicode originNs)
        acts ↔
      Run.Guarded FadeSys.step (FadeSys.Reused period) (FadeSys.init attached unicode originNs)
        acts :=
  (FadeInv.init attached unicode originNs).guarded_iff period acts

/-- An update `s` seconds in, with nothing new about the target. -/
def quietUpdate (s : Nat) : HeapApp.AppAct := .update ⟨s * 10 ^ 9, false, .lines [], ⟨.ok, []⟩⟩

theorem FadeSys.run_quiet {s : FadeSys} (hp : s.app.paused = false) (seconds : List Nat) :
    ∃ app, Run.run FadeSys.step s (seconds.map quietUpdate) = some ⟨app, s.log⟩ ∧
      app.paused = false ∧ app.originNs = s.app.originNs := by
  induction seconds generalizing s with
  | nil => exact ⟨s.app, rfl, hp, rfl⟩
  | cons n seconds ih =>
      obtain ⟨-, horigin, -, hpaused⟩ :=
        HeapApp.update_records hp ⟨n * 10 ^ 9, false, .lines [], ⟨.ok, []⟩⟩
      have hlog : s.log ++ s.app.appliedBy (quietUpdate n) = s.log := List.append_nil _
      obtain ⟨app, hrun, hp', horigin'⟩ :=
        @ih ⟨s.app.act (quietUpdate n), s.log ++ s.app.appliedBy (quietUpdate n)⟩
          (hpaused.trans hp)
      rw [hlog] at hrun
      refine ⟨app, Run.run_cons.mpr ⟨⟨s.app.act (quietUpdate n), s.log⟩, ?_, hrun⟩, hp',
        horigin'.trans horigin⟩
      rw [FadeSys.step, hlog]

/-- One chunk, freed at once; its address is not used again. With an update
every second, its record is there after four. -/
theorem freed_kept :
    ¬ Run.Guarded FadeSys.step (FadeSys.Discards 1000) (FadeSys.init true true 0)
      ([.drain [eventAt 256 .malloc, eventAt 256 .free]] ++ [1, 2, 3].map quietUpdate ++
        [quietUpdate 4]) := by
  rw [(FadeInv.init true true 0).guarded_iff]
  intro hg
  obtain ⟨s, hs, hp, horigin, hlog⟩ : ∃ s,
      Run.run FadeSys.step (FadeSys.init true true 0)
        [.drain [eventAt 256 .malloc, eventAt 256 .free]] = some s ∧ s.app.paused = false ∧
        s.app.originNs = 0 ∧ s.log = [eventAt 256 .malloc, eventAt 256 .free] :=
    ⟨_, rfl, by decide +kernel, by decide +kernel, by decide +kernel⟩
  obtain ⟨app, hrun, hp', horigin'⟩ := s.run_quiet hp [1, 2, 3]
  obtain ⟨-, hlast⟩ := hg.append (Run.run_append.mpr ⟨s, hs, hrun⟩)
  have hfreed : FreedLast s.log 256 (eventAt 256 .free) := by
    rw [hlog]
    exact ⟨⟨by decide, eventAt 256 .malloc, by simp, rfl, by decide⟩, by decide, by decide⟩
  have hlate := hlast.1 hp' 256 _ hfreed
  simp only [HeapApp.msAt, HeapApp.eventMs, horigin', horigin] at hlate
  exact absurd hlate (by decide)

end Heapviz
