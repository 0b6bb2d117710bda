import Heapviz.PreloadOrder
import Heapviz.PreloadReplay

/-!
# Rebuilding the heap of any number of threads

`Heapviz.PreloadReplay` folds the events of one thread. With more of them
the fold is behind the allocator all the time, by a block for every thread
in transit, and a block may have changed hands twice before the fold
hears of the first.

The invariant is per address: whatever was last reported allocated is in
the fold with the size the allocator has it at (`HookSized.settled`). A
block in transit is reported free, or not at all, so nothing is said of it;
that nobody else touches it until its hook reports is exclusive hold once
more, and the report is right because the hook remembers what it asked for
(`HookPc.Promise`).
-/

namespace Heapviz

/-! ## Reports -/

/-- What `hv_emit` is called with at a point of a hook, and where the hook
goes on when it returns. -/
structure Report where
  op : HvOp
  ptr : Nat
  size : Nat
  next : HookPc

/-- The points of the hooks that are a call of `hv_emit`. -/
def HookPc.report : HookPc → Option Report
  | .emitAlloc h p => some ⟨h.op, p, h.reported, .ret (some p) (some p)⟩
  | .emitFree ptr => some ⟨.free, ptr, 0, .realFree ptr⟩
  | .emitRelease ptr size => some ⟨.free, ptr, 0, .realRealloc ptr size⟩
  | .emitRealloc _ size (some p) => some ⟨.realloc, p, size, .ret (some p) (some p)⟩
  | .emitRealloc ptr size none =>
      some ⟨.realloc, ptr, size, .ret none (if size = 0 then none else some ptr)⟩
  | _ => none

/-- The arguments `hv_emit` hands on to `hv_ring_push` on thread `t`. -/
def Report.push (r : Report) (t : Nat) (env : HookEnv) : HvPush :=
  ⟨env.now, r.ptr, r.size, hvUsable env.usable, t, r.op.code⟩

section Hooks

variable {arena t : Nat} {s s' : HookSys} {env : HookEnv}

/-- A report, made in one step. -/
theorem HookSys.access_report {r : Report} (h : (s.pc t).report = some r) :
    s.access arena t env =
      some ({ s with ring := s.ring ++ [r.push t env] }.goto t r.next) := by
  unfold HookSys.access
  cases hpc : s.pc t with
  | emitRealloc ptr size p =>
      rw [hpc] at h
      cases p with
      | none => obtain rfl := Option.some.inj h; rfl
      | some p => obtain rfl := Option.some.inj h; rfl
  | emitAlloc hk p => rw [hpc] at h; obtain rfl := Option.some.inj h; rfl
  | emitFree ptr => rw [hpc] at h; obtain rfl := Option.some.inj h; rfl
  | emitRelease ptr size => rw [hpc] at h; obtain rfl := Option.some.inj h; rfl
  | _ => rw [hpc] at h; cases h

/-- Any other access looks at the allocator and at its own thread only: in
a system that differs elsewhere it does the same. -/
theorem HookSys.access_elsewhere (hnone : (s.pc t).report = none)
    (h : s.access arena t env = some s') (ring : List HvPush) {pc : Nat → HookPc}
    (hpc : pc t = s.pc t) :
    ({ s with ring := ring, pc := pc } : HookSys).access arena t env =
        some { s' with ring := ring, pc := Function.update pc t (s'.pc t) } ∧
      ∀ u, u ≠ t → s'.pc u = s.pc u := by
  have hself : ∀ (m : HookSys) x, (m.goto t x).pc t = x := fun m x => Function.update_self ..
  have hother : ∀ (m : HookSys) x u, u ≠ t → (m.goto t x).pc u = m.pc u :=
    fun m x u hu => Function.update_of_ne hu ..
  unfold HookSys.access at h ⊢
  dsimp only
  rw [hpc]
  cases hat : s.pc t with
  | idle => simp [hat] at h
  | realAlloc hk =>
      simp only [hat] at h ⊢
      cases hres : env.result with
      | none =>
          simp only [hres, Option.some.injEq] at h ⊢
          subst h
          exact ⟨by rw [hself]; rfl, hother _ _⟩
      | some p =>
          simp only [hres, Option.ite_none_right_eq_some, Option.some.injEq] at h
          obtain ⟨hfresh, rfl⟩ := h
          simp only
          rw [if_pos (by exact hfresh)]
          exact ⟨by rw [hself]; rfl, hother _ _⟩
  | realFree ptr =>
      simp only [hat, Option.some.injEq] at h ⊢
      subst h
      exact ⟨by rw [hself]; rfl, hother _ _⟩
  | realRealloc ptr size =>
      simp only [hat] at h ⊢
      cases hres : env.result with
      | none =>
          simp only [hres] at h ⊢
          split_ifs at h ⊢
          · obtain rfl := Option.some.inj h
            exact ⟨by rw [hself]; rfl, hother _ _⟩
          · obtain rfl := Option.some.inj h
            exact ⟨by rw [hself]; rfl, hother _ _⟩
      | some p =>
          simp only [hres, Option.ite_none_left_eq_some] at h
          obtain ⟨hsize, h⟩ := h
          simp only
          rw [if_neg hsize]
          by_cases hp : p = ptr
          · rw [if_pos hp] at h ⊢
            obtain rfl := Option.some.inj h
            exact ⟨by rw [hself]; rfl, hother _ _⟩
          · rw [if_neg hp] at h ⊢
            obtain ⟨hfresh, hs⟩ := Option.ite_none_right_eq_some.mp h
            obtain rfl := Option.some.inj hs
            rw [if_pos (by exact hfresh)]
            exact ⟨by rw [hself]; rfl, hother _ _⟩
  | ret value back =>
      simp only [hat, Option.some.injEq] at h ⊢
      subst h
      refine ⟨?_, hother _ _⟩
      simp only [HookSys.goto, Function.update_self]
  | emitRealloc ptr size p => rw [hat] at hnone; cases p <;> cases hnone
  | _ => rw [hat] at hnone; cases hnone

end Hooks

/-- Nor does any other access touch the events. -/
theorem HookSys.access_quiet {arena t : Nat} {s s' : HookSys} {env : HookEnv}
    (hnone : (s.pc t).report = none) (h : s.access arena t env = some s') : s'.ring = s.ring := by
  obtain ⟨hsame, -⟩ := HookSys.access_elsewhere hnone h s.ring rfl
  have heq := Option.some.inj (h.symm.trans hsame)
  have hring := congrArg HookSys.ring heq
  exact hring

/-! ## One address -/

/-- An access changes the block its hook holds, reported free, or takes a
fresh one. -/
theorem HookSys.access_blocks {arena t : Nat} {s s' : HookSys} {env : HookEnv}
    (h : s.access arena t env = some s') (a : Nat) :
    s'.blocks a = s.blocks a ∨ (s.pc t).holds = some (a, false) ∨ s.Fresh arena a := by
  have hset : ∀ {p : Nat} {v : Option Nat}, a ≠ p → Function.update s.blocks p v a = s.blocks a :=
    fun hne => Function.update_of_ne hne _ _
  simp only [HookSys.access] at h
  cases hpc : s.pc t with
  | idle => simp [hpc] at h
  | realAlloc hk =>
      rw [hpc] at h
      cases hres : env.result with
      | none =>
          simp only [hres, Option.some.injEq] at h
          obtain rfl := h
          exact .inl rfl
      | some p =>
          simp only [hres, Option.ite_none_right_eq_some, Option.some.injEq] at h
          obtain ⟨⟨hfresh, -⟩, rfl⟩ := h
          by_cases ha : a = p
          · exact .inr (.inr (ha ▸ hfresh))
          · exact .inl (hset ha)
  | realFree ptr =>
      rw [hpc] at h
      obtain rfl := Option.some.inj h
      by_cases ha : a = ptr
      · exact .inr (.inl (by rw [ha]; rfl))
      · exact .inl (hset ha)
  | realRealloc ptr size =>
      rw [hpc] at h
      by_cases ha : a = ptr
      · exact .inr (.inl (by rw [ha]; rfl))
      cases hres : env.result with
      | none =>
          simp only [hres] at h
          split_ifs at h
          · obtain rfl := Option.some.inj h
            exact .inl (hset ha)
          · obtain rfl := Option.some.inj h
            exact .inl rfl
      | some p =>
          simp only [hres, Option.ite_none_left_eq_some] at h
          obtain ⟨-, h⟩ := h
          by_cases hp : p = ptr
          · rw [if_pos hp] at h
            obtain rfl := Option.some.inj h
            exact .inl (hset ha)
          · simp only [if_neg hp, Option.ite_none_right_eq_some, Option.some.injEq] at h
            obtain ⟨hfresh, rfl⟩ := h
            by_cases hap : a = p
            · exact .inr (.inr (hap ▸ hfresh))
            · exact .inl ((Function.update_of_ne hap _ _).trans (hset ha))
  | emitRealloc ptr size p =>
      rw [hpc] at h
      cases p with
      | none => obtain rfl := Option.some.inj h; exact .inl rfl
      | some p => obtain rfl := Option.some.inj h; exact .inl rfl
  | _ =>
      rw [hpc] at h
      obtain rfl := Option.some.inj h
      exact .inl rfl

/-- The fold holds an address exactly while it was last reported allocated. -/
theorem replay_isSome (ring : List HvPush) (a : Nat) :
    (replay ring a).isSome = reported ring a := by
  induction ring using List.reverseRecOn with
  | nil => rfl
  | append_singleton ring e ih =>
      rw [replay_concat, reported_concat, replayEvent]
      by_cases ha : e.ptr = a
      · rw [if_pos ha, ← ha, Function.update_self]
        by_cases hop : e.opcode = HvOp.free.code
        · simp [hop, HvPush.isAlloc]
        · simp [hop, HvPush.isAlloc]
      · rw [if_neg ha, Function.update_of_ne (Ne.symm ha), ih]

/-- What a hook about to report an allocation knows of the block: its size
is the one it will report. -/
def HookPc.Promise (blocks : Nat → Option Nat) : HookPc → Prop
  | .emitAlloc h p => blocks p = some h.reported
  | .emitRealloc ptr size p => blocks (p.getD ptr) = some size
  | _ => True

/-- The order of the events, and that they are events of blocks. -/
structure HookSound (s : HookSys) : Prop where
  order : HookInv s
  null : s.blocks 0 = none
  events : ∀ e ∈ s.ring, e.ptr ≠ 0 ∧ ∃ op : HvOp, e.opcode = op.code

/-- And the sizes are right. -/
structure HookSized (s : HookSys) : Prop extends HookSound s where
  promised : ∀ t, (s.pc t).Promise s.blocks
  settled : ∀ a, reported s.ring a = true → replay s.ring a = s.blocks a

theorem HookSound.init : HookSound HookSys.init where
  order := HookInv.init
  null := rfl
  events := fun e he => by cases he

theorem HookSized.init : HookSized HookSys.init where
  toHookSound := HookSound.init
  promised := fun _ => trivial
  settled := fun a ha => by cases ha

/-- The block in a hook's hands is a real one. -/
theorem HookSound.holds_ne {s : HookSys} (h : HookSound s) {t a : Nat}
    (ha : (s.pc t).Holds a) : a ≠ 0 := by
  rintro rfl
  obtain ⟨b, hb⟩ := ha
  have hlive := (h.order.busy t 0 b hb).1
  rw [h.null] at hlive
  cases hlive

/-- An address at rest is in the fold as the allocator has it, or in
neither. -/
theorem HookSized.at_rest {s : HookSys} (h : HookSized s) {a : Nat}
    (hfree : ∀ t, ¬ (s.pc t).Holds a) : replay s.ring a = s.blocks a := by
  have hrep := (h.order.rest a hfree).2
  cases hlive : s.blocks a with
  | none =>
      have hnone := replay_isSome s.ring a
      rw [hrep, hlive] at hnone
      exact Option.isNone_iff_eq_none.mp (by simpa using hnone)
  | some size =>
      rw [hlive] at hrep
      rw [← hlive]
      exact h.settled a hrep

/-- A report is of the block its hook holds. -/
theorem HookPc.report_holds {pc : HookPc} {r : Report} (hr : pc.report = some r) :
    pc.Holds r.ptr := by
  cases pc with
  | emitAlloc hk p => obtain rfl := Option.some.inj hr; exact ⟨false, rfl⟩
  | emitFree ptr => obtain rfl := Option.some.inj hr; exact ⟨true, rfl⟩
  | emitRelease ptr size => obtain rfl := Option.some.inj hr; exact ⟨true, rfl⟩
  | emitRealloc ptr size p =>
      cases p with
      | none => obtain rfl := Option.some.inj hr; exact ⟨false, rfl⟩
      | some p => obtain rfl := Option.some.inj hr; exact ⟨false, rfl⟩
  | _ => cases hr

/-- If it is a report of an allocation, it has the size promised. -/
theorem HookPc.report_promise {pc : HookPc} {blocks : Nat → Option Nat} {r : Report}
    (hp : pc.Promise blocks) (hr : pc.report = some r) :
    (r.op = .free ∨ blocks r.ptr = some r.size) ∧ r.next.Promise blocks := by
  cases pc with
  | emitAlloc hk p => obtain rfl := Option.some.inj hr; exact ⟨.inr hp, trivial⟩
  | emitFree ptr => obtain rfl := Option.some.inj hr; exact ⟨.inl rfl, trivial⟩
  | emitRelease ptr size => obtain rfl := Option.some.inj hr; exact ⟨.inl rfl, trivial⟩
  | emitRealloc ptr size p =>
      cases p with
      | none => obtain rfl := Option.some.inj hr; exact ⟨.inr hp, trivial⟩
      | some p => obtain rfl := Option.some.inj hr; exact ⟨.inr hp, trivial⟩
  | _ => cases hr

/-! ## One step -/

/-- What another thread's access leaves of a promise: the block is held, so
it is not touched. -/
theorem HookInv.promise_frame {arena : Nat} {s s' : HookSys} (hI : HookInv s) {t u : Nat}
    {env : HookEnv} (hne : u ≠ t) (hstep : s.access arena t env = some s')
    (h : (s.pc u).Promise s.blocks) : (s.pc u).Promise s'.blocks := by
  have hkeep : ∀ a, (s.pc u).Holds a → s'.blocks a = s.blocks a := by
    intro a ha
    rcases HookSys.access_blocks hstep a with hsame | hheld | hfresh
    · exact hsame
    · exact absurd (hI.unique u t a ha ⟨false, hheld⟩) hne
    · exact absurd ha (hI.free_of_dead hfresh.2.2 u)
  cases hpc : s.pc u with
  | emitAlloc hk p =>
      rw [hpc] at h hkeep
      exact (hkeep p ⟨false, rfl⟩).trans h
  | emitRealloc ptr size p =>
      rw [hpc] at h hkeep
      exact (hkeep (p.getD ptr) ⟨false, rfl⟩).trans h
  | _ => trivial

theorem HookSound.step {arena : Nat} (s : HookSys) (a : HookAct) (s' : HookSys)
    (h : HookSound s) (hd : Disciplined arena s a) (hstep : s.step arena a = some s') :
    HookSound s' := by
  have horder := h.order.step s a s' hd hstep
  cases a with
  | call t c =>
      obtain ⟨-, hs⟩ := Option.ite_none_right_eq_some.mp hstep
      obtain rfl := Option.some.inj hs
      exact ⟨horder, h.null, h.events⟩
  | access t env =>
      cases hr : (s.pc t).report with
      | some r =>
          obtain rfl := Option.some.inj ((HookSys.access_report hr).symm.trans hstep)
          refine ⟨horder, h.null, fun e he => ?_⟩
          rcases List.mem_append.mp he with he | he
          · exact h.events e he
          · rw [List.mem_singleton.mp he]
            exact ⟨h.holds_ne (HookPc.report_holds hr), r.op, rfl⟩
      | none =>
          refine ⟨horder, ?_, HookSys.access_quiet hr hstep ▸ h.events⟩
          rcases HookSys.access_blocks hstep 0 with hsame | hheld | hfresh
          · exact hsame.trans h.null
          · exact absurd rfl (h.holds_ne ⟨false, hheld⟩)
          · exact absurd rfl hfresh.1

/-- Entering a hook promises nothing. -/
theorem hookCall_promise (arena : Nat) (c : HookCall) (blocks : Nat → Option Nat) :
    (hookCall arena c).Promise blocks := by
  cases c with
  | free ptr => simp only [hookCall]; split_ifs <;> trivial
  | realloc ptr size => simp only [hookCall]; split_ifs <;> trivial
  | _ => trivial

theorem HookSized.call {arena : Nat} {s s' : HookSys} {t : Nat} {c : HookCall}
    (h : HookSized s) (hsound : HookSound s') (hstep : s.step arena (.call t c) = some s') :
    HookSized s' := by
  obtain ⟨-, hs⟩ := Option.ite_none_right_eq_some.mp hstep
  obtain rfl := Option.some.inj hs
  refine ⟨hsound, fun u => ?_, h.settled⟩
  by_cases hu : u = t
  · simp only [hu, HookSys.goto, Function.update_self]
    exact hookCall_promise arena c s.blocks
  · simp only [HookSys.goto, Function.update_of_ne hu]
    exact h.promised u

/-- A report made keeps the sizes right. -/
theorem HookSized.report {arena : Nat} {s s' : HookSys} {t : Nat} {env : HookEnv}
    (h : HookSized s) (hsound : HookSound s') {r : Report} (hr : (s.pc t).report = some r)
    (hstep : s.access arena t env = some s') : HookSized s' := by
  obtain ⟨hsize, hnext⟩ := HookPc.report_promise (h.promised t) hr
  obtain rfl := Option.some.inj ((HookSys.access_report hr).symm.trans hstep)
  refine ⟨hsound, fun u => ?_, fun a ha => ?_⟩
  · by_cases hu : u = t
    · simp only [hu, HookSys.goto, Function.update_self]
      exact hnext
    · simp only [HookSys.goto, Function.update_of_ne hu]
      exact h.promised u
  · have hring : reported (s.ring ++ [r.push t env]) a = true := ha
    change replay (s.ring ++ [r.push t env]) a = s.blocks a
    rw [reported_concat] at hring
    rw [replay_concat, replayEvent]
    by_cases hptr : (r.push t env).ptr = a
    · -- the report is an allocation, and of the size promised
      rw [if_pos hptr] at hring
      have hop : (r.push t env).opcode ≠ HvOp.free.code := by
        simpa [HvPush.isAlloc] using hring
      have hnot : r.op ≠ .free := fun e => hop (congrArg HvOp.code e)
      rw [if_neg hop, ← hptr, Function.update_self]
      exact (hsize.resolve_left hnot).symm
    · rw [if_neg hptr] at hring
      rw [Function.update_of_ne (Ne.symm hptr)]
      exact h.settled a hring

/-- What the hook promises after an access of the real allocator. -/
theorem HookSys.access_promise {arena t : Nat} {s s' : HookSys} {env : HookEnv}
    (hnone : (s.pc t).report = none) (hg : reallocTold s (.access t env) = true)
    (h : s.access arena t env = some s') : (s'.pc t).Promise s'.blocks := by
  simp only [HookSys.access] at h
  simp only [reallocTold] at hg
  have hgoto : ∀ (m : HookSys) pc, (m.goto t pc).pc t = pc := fun m pc => Function.update_self ..
  cases hpc : s.pc t with
  | idle => simp [hpc] at h
  | realAlloc hk =>
      rw [hpc] at h
      cases hres : env.result with
      | none =>
          simp only [hres, Option.some.injEq] at h
          obtain rfl := h
          rw [hgoto]
          trivial
      | some p =>
          simp only [hres, Option.ite_none_right_eq_some, Option.some.injEq] at h
          obtain ⟨⟨-, hfits⟩, rfl⟩ := h
          rw [hgoto]
          simp [HookPc.Promise, HookSys.goto, HookSys.setBlock, hk.reported_eq hfits]
  | realFree ptr =>
      rw [hpc] at h
      obtain rfl := Option.some.inj h
      rw [hgoto]
      trivial
  | realRealloc ptr size =>
      rw [hpc] at h hg
      cases hres : env.result with
      | none =>
          simp only [hres, Bool.and_eq_true, bne_iff_ne, ne_eq, beq_iff_eq] at hg
          simp only [hres, if_neg hg.1, Option.some.injEq] at h
          obtain rfl := h
          rw [hgoto]
          exact hg.2
      | some p =>
          simp only [hres, Option.ite_none_left_eq_some] at h
          obtain ⟨-, h⟩ := h
          by_cases hp : p = ptr
          · rw [if_pos hp] at h
            obtain rfl := Option.some.inj h
            rw [hgoto]
            simp [HookPc.Promise, HookSys.goto, HookSys.setBlock, hp]
          · simp only [if_neg hp, Option.ite_none_right_eq_some, Option.some.injEq] at h
            obtain ⟨-, rfl⟩ := h
            rw [hgoto]
            simp [HookPc.Promise, HookSys.goto, HookSys.setBlock]
  | ret value back =>
      rw [hpc] at h
      obtain rfl := Option.some.inj h
      simp only [HookSys.goto, Function.update_self]
      trivial
  | emitRealloc ptr size p => rw [hpc] at hnone; cases p <;> cases hnone
  | _ => rw [hpc] at hnone; cases hnone

/-- An access of the real allocator keeps the sizes right. -/
theorem HookSized.real {arena : Nat} {s s' : HookSys} {t : Nat} {env : HookEnv}
    (h : HookSized s) (hsound : HookSound s') (hnone : (s.pc t).report = none)
    (hg : reallocTold s (.access t env) = true) (hstep : s.access arena t env = some s') :
    HookSized s' := by
  have hring := HookSys.access_quiet hnone hstep
  obtain ⟨-, hother⟩ := HookSys.access_elsewhere hnone hstep s.ring rfl
  refine ⟨hsound, fun u => ?_, fun a ha => ?_⟩
  · by_cases hu : u = t
    · rw [hu]
      exact HookSys.access_promise hnone hg hstep
    · rw [hother u hu]
      exact h.order.promise_frame hu hstep (h.promised u)
  · rw [hring] at ha ⊢
    rcases HookSys.access_blocks hstep a with hsame | hheld | hfresh
    · exact (h.settled a ha).trans hsame.symm
    · -- what the hook holds is reported free
      have hrep := (h.order.busy t a false hheld).2.1
      rw [ha] at hrep
      cases hrep
    · have hrep := (h.order.rest a (h.order.free_of_dead hfresh.2.2)).2
      rw [ha, hfresh.2.2] at hrep
      cases hrep

/-- What a target may do, and what NULL has to mean, for the sizes to be
right. -/
def ToldTarget (arena : Nat) (s : HookSys) (a : HookAct) : Prop :=
  Disciplined arena s a ∧ reallocTold s a = true

instance (arena : Nat) (s : HookSys) (a : HookAct) : Decidable (ToldTarget arena s a) :=
  inferInstanceAs (Decidable (_ ∧ _))

theorem HookSized.step {arena : Nat} (s : HookSys) (a : HookAct) (s' : HookSys)
    (h : HookSized s) (hg : ToldTarget arena s a) (hstep : s.step arena a = some s') :
    HookSized s' := by
  have hsound := h.toHookSound.step s a s' hg.1 hstep
  cases a with
  | call t c => exact h.call hsound hstep
  | access t env =>
      cases hr : (s.pc t).report with
      | some r => exact h.report hsound hr hstep
      | none => exact h.real hsound hr hg.2 hstep

/-! ## Every interleaving -/

/-- **Reconstruction, with any number of threads.** In every run of a
well-behaved target in which NULL from the real `realloc` means the block
has the size asked for, the fold of the events agrees with the allocator on
every address no hook has in hand - so between calls it is the allocator's
map - and an address in some hook's hands is in the fold with the right
size or not at all. -/
theorem replay_eq_blocks {arena : Nat} {acts : List HookAct} {s : HookSys}
    (hg : Run.Guarded (HookSys.step arena) (ToldTarget arena) HookSys.init acts)
    (hrun : Run.run (HookSys.step arena) HookSys.init acts = some s) :
    (∀ a, (∀ t, ¬ (s.pc t).Holds a) → replay s.ring a = s.blocks a) ∧
      (∀ a, replay s.ring a = s.blocks a ∨ replay s.ring a = none) ∧
      ((∀ t, s.pc t = .idle) → replay s.ring = s.blocks) := by
  have h := Run.guarded_invariant HookSized.step HookSized.init hg hrun
  refine ⟨fun a hfree => h.at_rest hfree, fun a => ?_, fun hidle => funext fun a => ?_⟩
  · cases hrep : reported s.ring a with
    | true => exact .inl (h.settled a hrep)
    | false =>
        have hsome := replay_isSome s.ring a
        rw [hrep] at hsome
        exact .inr (Option.isNone_iff_eq_none.mp (by simpa using hsome))
  · refine h.at_rest fun t => ?_
    rw [hidle t]
    exact HookPc.not_holds rfl a

/-- Three threads pass one address around; what the fold says of the block
the last of them moved to, the allocator says. -/
theorem replay_eq_blocks_recycled : ∃ s,
    Run.run (HookSys.step 65536) HookSys.init recycledRun = some s ∧
      replay s.ring 8192 = some 64 ∧ s.blocks 8192 = some 64 := by
  have hobs : (Run.run (HookSys.step 65536) HookSys.init recycledRun).map
      (fun s => replay s.ring 8192) = some (some 64) := by
    decide
  obtain ⟨s, hrun, hfold⟩ := Option.map_eq_some_iff.mp hobs
  obtain ⟨-, heither, -⟩ := replay_eq_blocks (by decide) hrun
  refine ⟨s, hrun, hfold, ?_⟩
  rcases heither 8192 with hsame | hnone
  · exact hsame.symm.trans hfold
  · rw [hfold] at hnone
    cases hnone

end Heapviz
