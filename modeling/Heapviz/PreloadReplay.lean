import Heapviz.Preload

/-!
# Rebuilding the heap from the events

A consumer that folds the events - a free removes the address, anything
else sets it to the event's size - should hold, between calls of a single
thread, the real allocator's map from live block to requested size.

It does, as long as no `realloc` returns NULL for a request that differs
from what the block already is. The hook cannot tell the two meanings of
NULL apart: it re-reports the old address with the new size, which is
wrong in size when the request failed and wrong in membership when the
request was for zero bytes and the block is gone. `replay_eq_blocks_iff`
says these are the only ways to go wrong.
-/

namespace Heapviz

/-! ## The fold -/

/-- The consumer's map after one more event. -/
def replayEvent (m : Nat → Option Nat) (e : HvPush) : Nat → Option Nat :=
  Function.update m e.ptr (if e.opcode = HvOp.free.code then none else some e.size)

def replay (ring : List HvPush) : Nat → Option Nat := ring.foldl replayEvent fun _ => none

theorem replay_concat (ring : List HvPush) (e : HvPush) :
    replay (ring ++ [e]) = replayEvent (replay ring) e := by
  simp [replay]

theorem replay_emit_free {s : HookSys} {t ptr size : Nat} {env : HookEnv} :
    replay (s.emit t env .free ptr size).ring = Function.update (replay s.ring) ptr none :=
  (replay_concat _ _).trans (by simp [replayEvent])

theorem replay_emit_alloc {s : HookSys} {t ptr size : Nat} {env : HookEnv} {op : HvOp}
    (hop : op ≠ .free) :
    replay (s.emit t env op ptr size).ring =
      Function.update (replay s.ring) ptr (some size) := by
  have hcode : op.code ≠ HvOp.free.code := by
    cases op with
    | free => exact absurd rfl hop
    | _ => decide
  exact (replay_concat _ _).trans (by simp [replayEvent, hcode])

/-! ## What the fold knows at each point of a hook -/

/-- How the fold `m` stands to the allocator's blocks while the only running
thread is at `pc`: equal, except that the block in transit is missing from
the fold until its report, which will then be right. -/
def HookPc.Told (m blocks : Nat → Option Nat) : HookPc → Prop
  | .emitAlloc h p => m = Function.update blocks p none ∧ blocks p = some h.reported
  | .realFree ptr => m = Function.update blocks ptr none
  | .realRealloc ptr _ => m = Function.update blocks ptr none
  | .emitRealloc ptr size p =>
      m = Function.update blocks (p.getD ptr) none ∧ blocks (p.getD ptr) = some size
  | _ => m = blocks

/-- NULL from the real `realloc` says what the hook takes it to say: the
block is there, and has the size asked for. -/
def reallocTold (s : HookSys) : HookAct → Bool
  | .call _ _ => true
  | .access t env =>
      match s.pc t, env.result with
      | .realRealloc ptr size, none => size != 0 && s.blocks ptr == some size
      | _, _ => true

/-- Reporting the block in transit completes the fold. -/
theorem update_report {blocks : Nat → Option Nat} {p : Nat} {v : Option Nat}
    (h : blocks p = v) : Function.update (Function.update blocks p none) p v = blocks := by
  rw [Function.update_idem, ← h, Function.update_eq_self]

theorem HookPc.Told.call {arena t : Nat} {s s' : HookSys} {c : HookCall}
    (hI : (s.pc t).Told (replay s.ring) s.blocks)
    (h : s.step arena (.call t c) = some s') :
    (s'.pc t).Told (replay s'.ring) s'.blocks := by
  obtain ⟨hidle, hs'⟩ := Option.ite_none_right_eq_some.mp h
  obtain rfl := Option.some.inj hs'
  rw [hidle] at hI
  have hpc : Function.update s.pc t (hookCall arena c) t = hookCall arena c :=
    Function.update_self ..
  simp only [HookSys.goto, hpc]
  cases c with
  | free ptr =>
      by_cases hskip : ptr = 0 ∨ hvIsBootstrapPtr arena ptr = true
      · rw [hookCall_free_skip hskip]; exact hI
      · rw [hookCall_free hskip]; exact hI
  | realloc ptr size =>
      by_cases hskip : ptr = 0 ∨ hvIsBootstrapPtr arena ptr = true
      · rw [hookCall_realloc_skip hskip]; exact hI
      · rw [hookCall_realloc hskip]; exact hI
  | _ => exact hI

theorem HookPc.Told.access {arena t : Nat} {s s' : HookSys} {env : HookEnv}
    (hI : (s.pc t).Told (replay s.ring) s.blocks) (hg : reallocTold s (.access t env) = true)
    (h : s.step arena (.access t env) = some s') :
    (s'.pc t).Told (replay s'.ring) s'.blocks := by
  simp only [HookSys.step, HookSys.access] at h
  simp only [reallocTold] at hg
  have hgoto : ∀ (m : HookSys) pc, (m.goto t pc).pc t = pc := fun m pc => Function.update_self ..
  cases hpc : s.pc t with
  | idle => simp [hpc] at h
  | realAlloc hk =>
      rw [hpc] at h hI
      cases hres : env.result with
      | none =>
          simp only [hres, Option.some.injEq] at h
          obtain rfl := h
          rw [hgoto]
          exact hI
      | some p =>
          simp only [hres, Option.ite_none_right_eq_some, Option.some.injEq] at h
          obtain ⟨⟨hfresh, hfits⟩, rfl⟩ := h
          rw [hgoto]
          refine ⟨hI.trans (update_report hfresh.2.2).symm |>.trans ?_, ?_⟩
          · simp [HookSys.goto, HookSys.setBlock]
          · simp [HookSys.goto, HookSys.setBlock, hk.reported_eq hfits]
  | emitAlloc hk p =>
      rw [hpc] at h hI
      obtain rfl := Option.some.inj h
      rw [hgoto]
      exact (replay_emit_alloc hk.op_ne).trans (hI.1 ▸ update_report hI.2)
  | emitFree ptr =>
      rw [hpc] at h hI
      obtain rfl := Option.some.inj h
      rw [hgoto]
      exact replay_emit_free.trans (congrArg (Function.update · ptr none) hI)
  | realFree ptr =>
      rw [hpc] at h hI
      obtain rfl := Option.some.inj h
      rw [hgoto]
      exact hI
  | emitRelease ptr size =>
      rw [hpc] at h hI
      obtain rfl := Option.some.inj h
      rw [hgoto]
      exact replay_emit_free.trans (congrArg (Function.update · ptr none) hI)
  | realRealloc ptr size =>
      rw [hpc] at h hI hg
      cases hres : env.result with
      | none =>
          simp only [hres, Bool.and_eq_true, bne_iff_ne, ne_eq, beq_iff_eq] at hg
          simp only [hres, if_neg hg.1, Option.some.injEq] at h
          obtain rfl := h
          rw [hgoto]
          exact ⟨hI, hg.2⟩
      | some p =>
          simp only [hres, Option.ite_none_left_eq_some] at h
          obtain ⟨-, h⟩ := h
          by_cases hp : p = ptr
          · rw [if_pos hp] at h
            obtain rfl := Option.some.inj h
            rw [hgoto]
            refine ⟨hI.trans ?_, ?_⟩
            · simp [HookSys.goto, HookSys.setBlock, hp]
            · simp [HookSys.goto, HookSys.setBlock, hp]
          · simp only [if_neg hp, Option.ite_none_right_eq_some, Option.some.injEq] at h
            obtain ⟨hfresh, rfl⟩ := h
            rw [hgoto]
            -- the fresh block is missing from the fold because it was not live before
            have hgone : Function.update s.blocks ptr none p = none := by
              rw [Function.update_of_ne hp]; exact hfresh.2.2
            refine ⟨hI.trans (update_report hgone).symm |>.trans ?_, ?_⟩
            · simp [HookSys.goto, HookSys.setBlock]
            · simp [HookSys.goto, HookSys.setBlock]
  | emitRealloc ptr size p =>
      rw [hpc] at h hI
      cases p with
      | some p =>
          obtain rfl := Option.some.inj h
          rw [hgoto]
          exact (replay_emit_alloc (by decide)).trans (hI.1 ▸ update_report hI.2)
      | none =>
          obtain rfl := Option.some.inj h
          rw [hgoto]
          exact (replay_emit_alloc (by decide)).trans (hI.1 ▸ update_report hI.2)
  | ret value back =>
      rw [hpc] at h hI
      obtain rfl := Option.some.inj h
      simp only [HookSys.goto, Function.update_self]
      exact hI

/-- While only thread `t` runs and NULL means what the hook takes it to
mean, the fold is right at every point of every hook. -/
theorem HookPc.Told.run {arena t : Nat} {acts : List HookAct} {s : HookSys}
    (hone : ∀ a ∈ acts, a.thread = t)
    (hg : Run.Guarded (HookSys.step arena) (fun s a => reallocTold s a = true)
      HookSys.init acts)
    (hrun : Run.run (HookSys.step arena) HookSys.init acts = some s) :
    (s.pc t).Told (replay s.ring) s.blocks := by
  have hboth : Run.Guarded (HookSys.step arena)
      (fun s a => a.thread = t ∧ reallocTold s a = true) HookSys.init acts := by
    refine Run.guarded_iff.mpr fun bs a cs m heq hm => ⟨?_, Run.guarded_iff.mp hg bs a cs m heq hm⟩
    exact hone a (by simp [heq])
  refine Run.guarded_invariant (I := fun s => (s.pc t).Told (replay s.ring) s.blocks)
    (fun m a m' hI hga hm => ?_) rfl hboth hrun
  obtain ⟨hthread, htold⟩ := hga
  cases a with
  | call t' c =>
      obtain rfl : t' = t := hthread
      exact hI.call hm
  | access t' env =>
      obtain rfl : t' = t := hthread
      exact hI.access htold hm

/-! ## The other direction: a NULL that is told wrongly is seen -/

/-- A thread inside a hook can only go on with it. -/
theorem HookSys.step_busy {arena t : Nat} {s s' : HookSys} {a : HookAct}
    (ht : a.thread = t) (hbusy : s.pc t ≠ .idle) (h : s.step arena a = some s') :
    ∃ env, a = .access t env ∧ s.access arena t env = some s' := by
  cases a with
  | call t' c =>
      obtain rfl : t' = t := ht
      exact absurd (Option.ite_none_right_eq_some.mp h).1 hbusy
  | access t' env =>
      obtain rfl : t' = t := ht
      exact ⟨env, rfl, h⟩

/-- After NULL the hook reports the old address with the new size and
returns; the allocator is not touched again. -/
theorem HookSys.after_null {arena t ptr size : Nat} {s s' : HookSys} {acts : List HookAct}
    (hone : ∀ a ∈ acts, a.thread = t) (hpc : s.pc t = .emitRealloc ptr size none)
    (hrun : Run.run (HookSys.step arena) s acts = some s') (hdone : s'.pc t = .idle) :
    ∃ as bs m, acts = as ++ bs ∧ Run.run (HookSys.step arena) s as = some m ∧
      m.pc t = .idle ∧ replay m.ring ptr = some size ∧ m.blocks = s.blocks := by
  cases acts with
  | nil =>
      obtain rfl := Option.some.inj hrun
      rw [hpc] at hdone
      cases hdone
  | cons a acts =>
      obtain ⟨m1, hm1, hrun1⟩ := Run.run_cons.mp hrun
      obtain ⟨env, rfl, hacc⟩ :=
        HookSys.step_busy (hone a (by simp)) (by rw [hpc]; simp) hm1
      simp only [HookSys.access, hpc, Option.some.injEq] at hacc
      have hpc1 : ∃ back, m1.pc t = .ret none back := by
        rw [← hacc]
        exact ⟨_, Function.update_self ..⟩
      have hring1 : replay m1.ring ptr = some size := by
        have : m1.ring = (s.emit t env .realloc ptr size).ring := hacc ▸ rfl
        rw [this, replay_emit_alloc (by decide), Function.update_self]
      have hblocks1 : m1.blocks = s.blocks := hacc ▸ rfl
      clear hacc
      obtain ⟨back, hpc1⟩ := hpc1
      cases acts with
      | nil =>
          obtain rfl := Option.some.inj hrun1
          rw [hpc1] at hdone
          cases hdone
      | cons b acts =>
          obtain ⟨m2, hm2, hrun2⟩ := Run.run_cons.mp hrun1
          obtain ⟨env', rfl, hacc'⟩ :=
            HookSys.step_busy (hone b (by simp)) (by rw [hpc1]; simp) hm2
          simp only [HookSys.access, hpc1, Option.some.injEq] at hacc'
          refine ⟨[.access t env, .access t env'], acts, m2, rfl,
            Run.run_cons.mpr ⟨m1, hm1, Run.run_cons.mpr ⟨m2, hm2, rfl⟩⟩, ?_, ?_, ?_⟩
          · exact hacc' ▸ Function.update_self ..
          · exact hacc' ▸ hring1
          · exact hacc' ▸ hblocks1

/-- Where `reallocTold` fails, the hook is at a `realloc` whose NULL leaves
the block without the size asked for. -/
theorem HookSys.null_of_not_told {arena t : Nat} {s s' : HookSys} {a : HookAct}
    (ht : a.thread = t) (hbad : reallocTold s a = false) (h : s.step arena a = some s') :
    ∃ ptr size, s'.pc t = .emitRealloc ptr size none ∧ s'.blocks ptr ≠ some size := by
  cases a with
  | call t' c => cases hbad
  | access t' env =>
      obtain rfl : t' = t := ht
      simp only [HookSys.step, HookSys.access] at h
      simp only [reallocTold] at hbad
      split at hbad
      · rename_i ptr size hpc hres
        simp only [hpc, hres] at h
        refine ⟨ptr, size, ?_⟩
        by_cases hsz : size = 0
        · rw [if_pos hsz] at h
          obtain rfl := Option.some.inj h
          simp [HookSys.goto, HookSys.setBlock]
        · rw [if_neg hsz] at h
          obtain rfl := Option.some.inj h
          have hne : s.blocks ptr ≠ some size := by simpa [hsz] using hbad
          exact ⟨Function.update_self .., hne⟩
      · cases hbad

/-- **Reconstruction.** For every run of one thread that ends between two
calls: the fold of the events is the allocator's map after every call,
exactly if every NULL the real `realloc` returns in it is for a live block
of just the size asked for. -/
theorem replay_eq_blocks_iff {arena t : Nat} {acts : List HookAct} {s : HookSys}
    (hone : ∀ a ∈ acts, a.thread = t)
    (hrun : Run.run (HookSys.step arena) HookSys.init acts = some s)
    (hdone : s.pc t = .idle) :
    (∀ as bs m, acts = as ++ bs → Run.run (HookSys.step arena) HookSys.init as = some m →
        m.pc t = .idle → replay m.ring = m.blocks) ↔
      Run.Guarded (HookSys.step arena) (fun s a => reallocTold s a = true)
        HookSys.init acts := by
  constructor
  · intro hfold
    refine Run.guarded_iff.mpr ?_
    intro bs a cs m heq hm
    by_contra hbad
    subst heq
    obtain ⟨m', hm', hrest⟩ := Run.run_append.mp hrun
    obtain rfl := Option.some.inj (hm.symm.trans hm')
    obtain ⟨m1, hm1, hrun1⟩ := Run.run_cons.mp hrest
    obtain ⟨ptr, size, hpc1, hne⟩ := HookSys.null_of_not_told (hone a (by simp))
      (Bool.eq_false_iff.mpr hbad) hm1
    obtain ⟨as, cs', m2, rfl, hrun2, hidle2, hsize2, hblocks2⟩ := HookSys.after_null
      (fun b hb => hone b (by simp [hb])) hpc1 hrun1 hdone
    have hreach : Run.run (HookSys.step arena) HookSys.init (bs ++ a :: as) = some m2 :=
      Run.run_append.mpr ⟨m, hm, Run.run_cons.mpr ⟨m1, hm1, hrun2⟩⟩
    have heq := hfold (bs ++ a :: as) cs' m2 (by simp) hreach hidle2
    rw [heq, hblocks2] at hsize2
    exact hne hsize2
  · rintro hg as bs m rfl hm hidle
    have htold := HookPc.Told.run (fun a ha => hone a (List.mem_append_left bs ha))
      (hg.append hm).1 hm
    rw [hidle] at htold
    exact htold

/-- A block grown in place, shrunk with a move, and refused a request for
the size it has. -/
def reallocGoodRun : List HookAct :=
  [.call 0 (.malloc 24), .access 0 ⟨1, 24, some 4096⟩, .access 0 ⟨2, 24, none⟩,
    .access 0 ⟨3, 24, none⟩, .call 0 (.realloc 4096 40), .access 0 ⟨4, 24, none⟩,
    .access 0 ⟨5, 40, some 4096⟩, .access 0 ⟨6, 40, none⟩, .access 0 ⟨7, 40, none⟩,
    .call 0 (.realloc 4096 16), .access 0 ⟨8, 40, none⟩, .access 0 ⟨9, 24, some 8192⟩,
    .access 0 ⟨10, 24, none⟩, .access 0 ⟨11, 24, none⟩, .call 0 (.realloc 8192 16),
    .access 0 ⟨12, 24, none⟩, .access 0 ⟨13, 24, none⟩, .access 0 ⟨14, 24, none⟩,
    .access 0 ⟨15, 24, none⟩]

theorem replay_eq_blocks_iff_good : ∃ s,
    Run.run (HookSys.step 65536) HookSys.init reallocGoodRun = some s ∧ s.pc 0 = .idle ∧
      replay s.ring = s.blocks := by
  have hobs : (Run.run (HookSys.step 65536) HookSys.init reallocGoodRun).map
      (fun s => s.pc 0) = some .idle := by
    decide
  obtain ⟨s, hrun, hidle⟩ := Option.map_eq_some_iff.mp hobs
  refine ⟨s, hrun, hidle, ?_⟩
  exact (replay_eq_blocks_iff (by decide) hrun hidle).mpr (by decide)
    reallocGoodRun [] s (List.append_nil _).symm hrun hidle

/-- `malloc(24)` and `realloc` of it to `size`, answered with NULL. -/
def reallocNullRun (size : Nat) : List HookAct :=
  [.call 0 (.malloc 24), .access 0 ⟨1, 24, some 4096⟩, .access 0 ⟨2, 24, none⟩,
    .access 0 ⟨3, 24, none⟩, .call 0 (.realloc 4096 size), .access 0 ⟨4, 24, none⟩,
    .access 0 ⟨5, 24, none⟩, .access 0 ⟨6, 24, none⟩, .access 0 ⟨7, 24, none⟩]

/-- The fold keeps a block that `realloc(p, 0)` freed, and gives a block
whose `realloc` failed the size it never got. -/
theorem replay_wrong_after_null :
    (∃ s, Run.run (HookSys.step 65536) HookSys.init (reallocNullRun 0) = some s ∧
      s.pc 0 = .idle ∧ replay s.ring 4096 = some 0 ∧ s.blocks 4096 = none) ∧
    (∃ s, Run.run (HookSys.step 65536) HookSys.init (reallocNullRun 4000) = some s ∧
      s.pc 0 = .idle ∧ replay s.ring 4096 = some 4000 ∧ s.blocks 4096 = some 24) := by
  constructor
  · have hobs : (Run.run (HookSys.step 65536) HookSys.init (reallocNullRun 0)).map
        (fun s => (s.pc 0, replay s.ring 4096, s.blocks 4096)) =
          some (.idle, some 0, none) := by
      decide
    obtain ⟨s, hrun, hs⟩ := Option.map_eq_some_iff.mp hobs
    simp only [Prod.mk.injEq] at hs
    exact ⟨s, hrun, hs⟩
  · have hobs : (Run.run (HookSys.step 65536) HookSys.init (reallocNullRun 4000)).map
        (fun s => (s.pc 0, replay s.ring 4096, s.blocks 4096)) =
          some (.idle, some 4000, some 24) := by
      decide
    obtain ⟨s, hrun, hs⟩ := Option.map_eq_some_iff.mp hobs
    simp only [Prod.mk.injEq] at hs
    exact ⟨s, hrun, hs⟩

end Heapviz
