import Heapviz.Pipeline
import Heapviz.HeapLedger

/-!
# The target's heap on the screen

End to end: what the session shows of the target, with everything in
between - hooks on any number of threads, the lock-free ring, the staging
area, pauses, resizes and frames.

At every moment the chunk table is the fold of a prefix of the reports, in
the order of their sequence numbers (`session_follows_target`). Since the
reports of every address alternate, no free in it is unknown and no
allocation falls on a live record. When the threads are between calls and
everything reported has been applied, what is live in the table is what is
live in the allocator, and of the size that was asked for
(`session_shows_sizes`).
-/

namespace Heapviz

open ChunkTable

/-! ## The ledger of a list of reports -/

/-- The reports the hooks make: of a real address, with a known opcode. -/
def HvPush.Proper (e : HvPush) : Prop := e.ptr ≠ 0 ∧ ∃ op : HvOp, e.opcode = op.code

theorem HvPush.Proper.isFree {e : HvPush} (h : e.Proper) : e.view.isFree = !e.isAlloc := by
  obtain ⟨-, op, hop⟩ := h
  have hview : e.view.op = e.opcode &&& hvOpMask := rfl
  simp only [HvEvent.isFree, HvPush.isAlloc, hview, hop]
  cases op <;> decide

section Reports

variable (stamp : Nat → Nat) {L : List HvPush}

/-- The live entries are the fold, sizes kept in 32 bits. -/
theorem ledger_replay (hL : ∀ e ∈ L, e.Proper) (a : Nat) :
    ((Ledger.ofEvents stamp (L.map HvPush.view)).liveAt a).map ChunkEntry.size =
      (replay L a).map HeapApp.clampU32 := by
  induction L using List.reverseRecOn generalizing a with
  | nil => rfl
  | append_singleton L e ih =>
      have he := hL e (by simp)
      have hrest := ih fun e' he' => hL e' (List.mem_append_left _ he')
      have hfree := he.isFree
      rw [List.map_append, List.map_singleton, Ledger.ofEvents_concat, replay_concat, replayEvent]
      cases halloc : e.isAlloc with
      | true =>
          have hop : ¬ e.opcode = HvOp.free.code := by simpa [HvPush.isAlloc] using halloc
          rw [halloc] at hfree
          rw [Ledger.liveAt_hear_alloc hfree he.1, if_neg hop]
          by_cases ha : a = e.ptr
          · rw [ha, Function.update_self]
            exact congrArg _ (Function.update_self ..)
          · rw [Function.update_of_ne ha]
            exact (congrArg _ (Function.update_of_ne ha ..)).trans (hrest a)
      | false =>
          have hop : e.opcode = HvOp.free.code := by simpa [HvPush.isAlloc] using halloc
          rw [halloc] at hfree
          rw [Ledger.liveAt_hear_free hfree, if_pos hop]
          by_cases ha : a = e.ptr
          · rw [ha, Function.update_self]
            exact congrArg _ (Function.update_self ..)
          · rw [Function.update_of_ne ha]
            exact (congrArg _ (Function.update_of_ne ha ..)).trans (hrest a)

theorem alternates_left {l l' : List Bool} (h : Alternates (l ++ l')) : Alternates l := by
  obtain ⟨hchain, hhead⟩ := h
  refine ⟨(List.isChain_append.mp hchain).1, ?_⟩
  cases l with
  | nil => simp
  | cons b l => exact hhead

/-- Before a free that alternates stands an allocation. -/
theorem alternates_free {l : List Bool} (h : Alternates (l ++ [false])) :
    l.getLast? = some true := by
  obtain ⟨hchain, hhead⟩ := h
  obtain ⟨-, -, hlast⟩ := List.isChain_append.mp hchain
  cases hl : l.getLast? with
  | none =>
      rw [List.getLast?_eq_none_iff] at hl
      rw [hl] at hhead
      simp at hhead
  | some b =>
      cases b with
      | true => rfl
      | false => exact absurd rfl (hlast false (by simp [hl]) false (by simp))

theorem eventsOf_append (L L' : List HvPush) (a : Nat) :
    eventsOf (L ++ L') a = eventsOf L a ++ eventsOf L' a := by
  simp [eventsOf]

/-- While the reports of every address alternate, no free is unknown. -/
theorem ledger_unknown (hL : ∀ e ∈ L, e.Proper) (halt : ∀ a, Alternates (eventsOf L a)) :
    (Ledger.ofEvents stamp (L.map HvPush.view)).unknown = 0 := by
  induction L using List.reverseRecOn with
  | nil => rfl
  | append_singleton L e ih =>
      have he := hL e (by simp)
      have hrest : ∀ e' ∈ L, e'.Proper := fun e' he' => hL e' (List.mem_append_left _ he')
      have hzero := ih hrest fun a => alternates_left (eventsOf_append L [e] a ▸ halt a)
      rw [List.map_append, List.map_singleton, Ledger.ofEvents_concat]
      have hfree := he.isFree
      cases halloc : e.isAlloc with
      | true =>
          rw [halloc] at hfree
          rw [Ledger.hear_alloc hfree]
          exact hzero
      | false =>
          rw [halloc] at hfree
          have hlast := halt e.ptr
          rw [eventsOf_concat, if_pos rfl, halloc] at hlast
          have hrep : reported L e.ptr = true := by
            rw [reported, alternates_free hlast]
            rfl
          -- so the ledger has a live entry there
          have hfold := ledger_replay stamp hrest e.ptr
          have hsome := (replay_isSome L e.ptr).trans hrep
          obtain ⟨size, hsize⟩ := Option.isSome_iff_exists.mp hsome
          rw [hsize] at hfold
          obtain ⟨entry, hentry, -⟩ := Option.map_eq_some_iff.mp hfold
          have hchunk := (Option.filter_eq_some_iff.mp hentry).1
          have hptr : e.view.ptr = e.ptr := rfl
          rw [Ledger.hear_free hfree, hptr, hchunk]
          exact hzero

end Reports

/-! ## The session at the end of the ring -/

namespace Pipeline

variable {n k arena : Nat} {s s' : Pipeline n}

/-- A step of the pipeline is at most one of the session. -/
theorem step_pause {a : PipeAct n} (h : s.step arena a = some s') :
    s'.session = s.session ∨ ∃ act, s.session.step act = some s'.session := by
  cases a with
  | call t c =>
      obtain ⟨hooks, -, rfl⟩ := Option.map_eq_some_iff.mp h
      exact .inl rfl
  | access t env =>
      simp only [step] at h
      cases hr : (s.hooks.pc t).report with
      | some r =>
          rw [hr] at h
          obtain ⟨session, hsession, rfl⟩ := Option.map_eq_some_iff.mp h
          exact .inr ⟨_, hsession⟩
      | none =>
          rw [hr] at h
          obtain ⟨hooks, -, rfl⟩ := Option.map_eq_some_iff.mp h
          exact .inl rfl
  | push t spurious =>
      obtain ⟨session, hsession, rfl⟩ := Option.map_eq_some_iff.mp h
      rw [push_session]
      exact .inr ⟨_, hsession⟩
  | _ =>
      obtain ⟨session, hsession, rfl⟩ := Option.map_eq_some_iff.mp h
      exact .inr ⟨_, hsession⟩

/-- The session's part of a run. -/
theorem run_pause (attached unicode : Bool) (originNs : Nat) {acts : List (PipeAct n)}
    (hrun : Run.run (step arena)
      (Pipeline.init n (2 ^ k) (HeapApp.new attached unicode originNs)) acts = some s) :
    PauseInv (2 ^ k) s.session ∧
      s.session.app.Tells (HeapApp.new attached unicode originNs).eventMs s.session.applied := by
  have happ := HeapApp.Tells.new attached unicode originNs
  refine Run.run_invariant (I := fun s : Pipeline n => PauseInv (2 ^ k) s.session ∧
    s.session.app.Tells (HeapApp.new attached unicode originNs).eventMs s.session.applied)
    (fun s a s' h hstep => ?_) (And.intro (PauseInv.init attached unicode originNs) ?_) hrun
  · rcases step_pause hstep with hsame | ⟨act, hact⟩
    · rw [hsame]
      exact h
    · exact ⟨h.1.step hact, PauseSys.step_tells h.1 h.2 hact⟩
  · exact happ

/-- What has been applied is a prefix of what was reported, and all of it
when neither ring nor staging area holds anything. -/
theorem applied_eq (h : s.Inv k) (hp : PauseInv (2 ^ k) s.session) :
    s.session.applied =
        (s.session.ring.claimed.take s.session.applied.length).map HvPush.view ∧
      (s.session.ring.queued = [] → s.session.app.staged.drop s.session.app.stagedHead = [] →
        s.session.applied = s.session.ring.claimed.map HvPush.view) := by
  have horder := hp.order
  rw [h.ring.slot.drained] at horder
  refine ⟨?_, fun hqueued hstaged => ?_⟩
  · have hprefix : s.session.applied <+: s.session.ring.claimed.map HvPush.view := by
      refine List.IsPrefix.trans ⟨_, horder⟩ ?_
      exact (List.take_prefix ..).map _
    rw [List.map_take]
    exact List.prefix_iff_eq_take.mp hprefix
  · have hall : s.session.ring.claimed.drop s.session.ring.ring.tail = [] :=
      List.map_eq_nil_iff.mp hqueued
    rw [hstaged, List.append_nil] at horder
    rw [horder, List.take_of_length_le (List.drop_eq_nil_iff.mp hall)]

/-- The threads are between calls, and what they reported has arrived. -/
structure Quiet (s : Pipeline n) : Prop where
  threads : ∀ t : Fin n, s.hooks.pc t = .idle
  queued : s.session.ring.queued = []
  staged : s.session.app.staged.drop s.session.app.stagedHead = []

/-- Then the atomic hooks are between calls too. -/
theorem Quiet.idle (hq : s.Quiet) (h : s.Inv k) (t : Nat) : s.atomic.pc t = .idle := by
  by_cases ht : t < n
  · have hpc := hq.threads ⟨t, ht⟩
    have hidle := h.idle_of_report (t := ⟨t, ht⟩) (by rw [hpc]; rfl)
    exact (ahead_of_idle hidle).trans hpc
  · exact (dif_neg ht).trans (h.outside t (by omega))

end Pipeline

section EndToEnd

variable {n k arena : Nat} {attached unicode : Bool} {originNs : Nat}
  {acts : List (PipeAct n)} {s : Pipeline n}

/-- The session, as far as it has applied, is the fold of the reports. -/
theorem Pipeline.shows (h : s.Inv k) (hp : PauseInv (2 ^ k) s.session) {stamp : Nat → Nat}
    (htells : s.session.app.Tells stamp s.session.applied) (hm : HookSound s.atomic) :
    s.session.app.freesUnknown = 0 ∧ s.session.app.Totals ∧
      ∀ a, (s.session.app.table.liveAt a).map Chunk.size =
        (replay (s.session.ring.claimed.take s.session.applied.length) a).map
          HeapApp.clampU32 := by
  obtain ⟨happlied, -⟩ := Pipeline.applied_eq h hp
  have hproper : ∀ e ∈ s.session.ring.claimed.take s.session.applied.length, e.Proper :=
    fun e he => hm.events e (List.mem_of_mem_take he)
  have halt : ∀ a, Alternates
      (eventsOf (s.session.ring.claimed.take s.session.applied.length) a) := by
    intro a
    have hall : Alternates (eventsOf s.session.ring.claimed a) := hm.order.alternates a
    rw [← List.take_append_drop s.session.applied.length s.session.ring.claimed,
      eventsOf_append] at hall
    exact alternates_left hall
  refine ⟨?_, htells.totals fun e he => ?_, fun a => ?_⟩
  · rw [htells.unknown, happlied, ledger_unknown stamp hproper halt]
  · rw [happlied] at he
    obtain ⟨e', he', rfl⟩ := List.mem_map.mp he
    exact (hproper e' he').1
  · have hfold := ledger_replay stamp hproper a
    rw [← happlied, ← htells.table.liveAt a, Option.map_map] at hfold
    exact hfold

/-- **End to end.** Whatever the threads of a well-behaved target and the
session do, in whatever order, as long as no push is turned away: what has
been applied is a prefix of the reports in the order of their sequence
numbers, no free in it was unknown, and the chunk table's live records are
its fold. And when all threads are between calls and everything has been
applied, the live records are the blocks the allocator has out, and there
are as many as the session says. -/
theorem session_follows_target (hk : k < 64)
    (hd : Run.Guarded (Pipeline.step arena) (Pipeline.Disciplined arena)
      (Pipeline.init n (2 ^ k) (HeapApp.new attached unicode originNs)) acts)
    (hrun : Run.run (Pipeline.step arena)
      (Pipeline.init n (2 ^ k) (HeapApp.new attached unicode originNs)) acts = some s)
    (hend : s.Lossless) :
    s.session.applied =
        (s.session.ring.claimed.take s.session.applied.length).map HvPush.view ∧
      s.session.app.freesUnknown = 0 ∧
      (∀ a, (s.session.app.table.liveAt a).map Chunk.size =
        (replay (s.session.ring.claimed.take s.session.applied.length) a).map
          HeapApp.clampU32) ∧
      (s.Quiet →
        (∀ a, s.session.app.table.liveAt a ≠ none ↔ s.hooks.blocks a ≠ none) ∧
          s.session.app.live = {a | s.hooks.blocks a ≠ none}.ncard) := by
  obtain ⟨h, bs, hm, hguards⟩ := Pipeline.atomic_run hk hrun hend
  have hbs := hguards _ _ (fun _ _ _ _ => Pipeline.label_disciplined) hd
  have hsound := Run.guarded_invariant HookSound.step HookSound.init hbs hm
  obtain ⟨hp, htells⟩ := Pipeline.run_pause attached unicode originNs hrun
  obtain ⟨happlied, hall⟩ := Pipeline.applied_eq h hp
  obtain ⟨hunknown, htotals, hfold⟩ := Pipeline.shows h hp htells hsound
  refine ⟨happlied, hunknown, hfold, fun hq => ?_⟩
  have hmember : ∀ a, s.session.app.table.liveAt a ≠ none ↔ s.hooks.blocks a ≠ none := by
    intro a
    have hrest := (hsound.order.rest a fun t => by
      rw [hq.idle h t]
      exact HookPc.not_holds rfl a).2
    have hlen : s.session.applied.length = s.session.ring.claimed.length := by
      rw [hall hq.queued hq.staged, List.length_map]
    have hat := hfold a
    rw [hlen, List.take_length] at hat
    have hsome := congrArg Option.isSome hat
    rw [Option.isSome_map, Option.isSome_map, replay_isSome] at hsome
    rw [← Option.isSome_iff_ne_none, ← Option.isSome_iff_ne_none, hsome]
    exact iff_of_eq (congrArg (· = true) hrest)
  refine ⟨hmember, ?_⟩
  rw [htotals.chunks, htells.table.live_card]
  refine congrArg Set.ncard (Set.ext fun a => ?_)
  rw [Set.mem_ofPred_eq, Set.mem_ofPred_eq, ← hmember a, ← htells.table.liveAt a, Ne,
    Option.map_eq_none_iff]

/-- Both threads allocate, and the second frees the block of the first while the
session drains the ring; it drains once more. -/
def threadsDrained {n : Nat} (i j : Fin n) : List (PipeAct n) :=
  bothAllocate i j ++ .callDrain :: List.replicate 8 .drain ++ otherFrees j ++
    List.replicate 14 .drain ++ .callDrain :: List.replicate 13 .drain

theorem threadsDrained_run : ∃ s : Pipeline 2,
    Run.run (Pipeline.step 65536) (Pipeline.init 2 (2 ^ 4) (HeapApp.new true true 0))
        (threadsDrained 0 1) = some s ∧
      s.Lossless ∧ s.Quiet ∧ s.hooks.blocks 4096 = none ∧ s.hooks.blocks 8192 = some 40 := by
  have hring : (Run.run (Pipeline.step 65536)
      (Pipeline.init 2 (2 ^ 4) (HeapApp.new true true 0)) (threadsDrained 0 1)).map
        (fun s => (s.session.ring.ring.dropped, s.session.ring.started, s.session.ring.queued,
          s.session.app.staged)) = some (0, 3, [], []) := by decide +kernel
  have hhooks : (Run.run (Pipeline.step 65536)
      (Pipeline.init 2 (2 ^ 4) (HeapApp.new true true 0)) (threadsDrained 0 1)).map
        (fun s => (s.hooks.blocks 4096, s.hooks.blocks 8192, s.hooks.pc 0, s.hooks.pc 1)) =
      some (none, some 40, .idle, .idle) := by decide +kernel
  obtain ⟨s, hrun, hval⟩ := Option.map_eq_some_iff.mp hring
  rw [hrun, Option.map_some] at hhooks
  simp only [Prod.mk.injEq, Option.some.injEq] at hval hhooks
  obtain ⟨hdropped, hstarted, hqueued, hstaged⟩ := hval
  obtain ⟨hfreed, hblock, hpc0, hpc1⟩ := hhooks
  refine ⟨s, hrun, ⟨hdropped, by rw [hstarted]; decide⟩, ⟨fun t => ?_, hqueued, ?_⟩, hfreed,
    hblock⟩
  · match t with
    | 0 => exact hpc0
    | 1 => exact hpc1
  · rw [hstaged, List.drop_nil]

theorem session_follows_target_threads : ∃ s : Pipeline 2,
    Run.run (Pipeline.step 65536) (Pipeline.init 2 (2 ^ 4) (HeapApp.new true true 0))
        (threadsDrained 0 1) = some s ∧
      s.session.app.freesUnknown = 0 ∧ s.session.app.table.liveAt 4096 = none ∧
      s.session.app.table.liveAt 8192 ≠ none := by
  obtain ⟨s, hrun, hless, hq, hfreed, hblock⟩ := threadsDrained_run
  obtain ⟨-, hunknown, -, hquiet⟩ :=
    @session_follows_target 2 4 65536 true true 0 _ _ (by decide) (by decide +kernel) hrun hless
  refine ⟨s, hrun, hunknown, ?_, ((hquiet hq).1 8192).mpr (by rw [hblock]; simp)⟩
  exact not_not.mp fun hlive => ((hquiet hq).1 4096).mp hlive hfreed

/-- What a target may do, and what NULL has to mean, for the sizes to be
right. -/
def Pipeline.ToldTarget (arena : Nat) (s : Pipeline n) (a : PipeAct n) : Prop :=
  s.Disciplined arena a ∧ s.Told a = true

instance (arena : Nat) (s : Pipeline n) (a : PipeAct n) : Decidable (s.ToldTarget arena a) :=
  inferInstanceAs (Decidable (_ ∧ _))

/-- **Sizes, end to end.** If besides NULL from the real `realloc` only ever
meant that the block already had the size asked for, the records show every
block at the size of the last request for it, kept in 32 bits: an address
no thread has in hand in its record, or in a report not yet applied, and
all of them when the pipeline is quiet. -/
theorem session_shows_sizes (hk : k < 64)
    (hg : Run.Guarded (Pipeline.step arena) (Pipeline.ToldTarget arena)
      (Pipeline.init n (2 ^ k) (HeapApp.new attached unicode originNs)) acts)
    (hrun : Run.run (Pipeline.step arena)
      (Pipeline.init n (2 ^ k) (HeapApp.new attached unicode originNs)) acts = some s)
    (hend : s.Lossless) :
    (∀ a, (∀ t, ¬ (s.atomic.pc t).Holds a) →
        replay s.session.ring.claimed a = s.hooks.blocks a) ∧
      (s.Quiet → ∀ a, (s.session.app.table.liveAt a).map Chunk.size =
        (s.hooks.blocks a).map HeapApp.clampU32) := by
  obtain ⟨h, bs, hm, hguards⟩ := Pipeline.atomic_run hk hrun hend
  have hbs := hguards _ (Heapviz.ToldTarget arena) (fun _ _ _ hinv hH hlabel =>
    ⟨Pipeline.label_disciplined hH.1 hlabel, Pipeline.label_told hinv hH.2 hlabel⟩) hg
  have hsized := Run.guarded_invariant HookSized.step HookSized.init hbs hm
  obtain ⟨hp, htells⟩ := Pipeline.run_pause attached unicode originNs hrun
  obtain ⟨-, hall⟩ := Pipeline.applied_eq h hp
  obtain ⟨-, -, hfold⟩ := Pipeline.shows h hp htells hsized.toHookSound
  refine ⟨fun a hfree => hsized.at_rest hfree, fun hq a => ?_⟩
  have hlen : s.session.applied.length = s.session.ring.claimed.length := by
    rw [hall hq.queued hq.staged, List.length_map]
  have hat := hfold a
  rw [hlen, List.take_length] at hat
  have hrest := hsized.at_rest (a := a) fun t => by
    rw [hq.idle h t]
    exact HookPc.not_holds rfl a
  exact hat.trans (congrArg _ hrest)

theorem session_shows_sizes_threads : ∃ s : Pipeline 2,
    Run.run (Pipeline.step 65536) (Pipeline.init 2 (2 ^ 4) (HeapApp.new true true 0))
        (threadsDrained 0 1) = some s ∧
      s.session.app.table.liveAt 4096 = none ∧
      (s.session.app.table.liveAt 8192).map Chunk.size = some 40 := by
  obtain ⟨s, hrun, hless, hq, hfreed, hblock⟩ := threadsDrained_run
  obtain ⟨-, hquiet⟩ :=
    @session_shows_sizes 2 4 65536 true true 0 _ _ (by decide) (by decide +kernel) hrun hless
  have hnone := hquiet hq 4096
  rw [hfreed, Option.map_none, Option.map_eq_none_iff] at hnone
  exact ⟨s, hrun, hnone, by rw [hquiet hq, hblock]; rfl⟩

end EndToEnd

end Heapviz
