import Heapviz.RingStep

/-!
# What the ring promises

The three guarantees of `common/heapviz_ring.h` read off the invariant:
the consumer sees every claimed event once, in sequence order and whole
(`ring_safety`); the diagnostic counters add up when nothing is in
progress; and a push is only turned away from a full ring - as long as
the producer's two loads are not torn apart by a whole lap of everyone
else (`drop_only_when_full`). The last condition is not idle: `head` and
`tail` are loaded one after the other and subtracted modulo `2 ^ 64`, so
a `tail` that has overtaken the older `head` reads as an enormous
backlog (`drop_on_empty_ring`).
-/

namespace Heapviz

/-- What the model reads out of a drained event. -/
def HvEvent.contents (e : HvEvent) : Nat × Nat × Nat × Nat × Nat × Nat :=
  (e.timestamp, e.ptr, e.size, e.usable, hvEventGetTid e, e.op)

/-- What a push was called with, as far as the packet can carry it. -/
def HvPush.contents (a : HvPush) : Nat × Nat × Nat × Nat × Nat × Nat :=
  (a.timestamp, a.ptr, a.size, a.usable, a.tid % 2 ^ 24, a.opcode % 64)

theorem HvPush.view_contents (a : HvPush) : a.view.contents = a.contents := by
  have htid : hvEventGetTid a.view = a.tid % 2 ^ 24 :=
    hvEventGetTid_setTid ⟨a.timestamp, a.ptr, a.size, a.usable, 0, 0, 0, 0⟩ a.tid
  have hop : a.opcode &&& hvOpMask = a.opcode % 64 :=
    Nat.and_two_pow_sub_one_eq_mod a.opcode 6
  simp only [HvEvent.contents, HvPush.contents, htid]
  simp only [HvPush.view, HvPush.event, hvEventSetTid, hop]

section Safety

variable {P : Type} [DecidableEq P] [Fintype P] {k : Nat} {s : RingSys P}

/-- **Ring safety.** In every state a schedule of fewer than `2 ^ 64` pushes
can reach: the backlog is between zero and the capacity; entry `i` of
`claimed` is the push that won sequence number `i`; between drains,
everything returned so far is exactly the first `tail` of them, in order
and whole; and between pushes the counters account for every call. -/
theorem ring_safety (hk : k < 64) (hr : RingSys.Reachable (2 ^ k) s)
    (hlt : s.started < 2 ^ 64) :
    (s.ring.tail ≤ s.ring.head ∧ s.ring.head - s.ring.tail ≤ s.ring.capacity)
      ∧ s.claimed.length = s.ring.head
      ∧ (s.cons = .idle →
          s.drained.map HvEvent.contents
            = (s.claimed.take s.ring.tail).map HvPush.contents)
      ∧ ((∀ p, s.pc p = .idle) →
          s.ring.head = s.ring.totalEvents
            ∧ s.completed = s.ring.totalEvents + s.ring.dropped) := by
  obtain ⟨acts, hrun⟩ := hr
  have h := RingInv.run hk hrun hlt
  have hroom := h.slot.room
  refine ⟨⟨h.slot.tail_le, ?_⟩, h.slot.head_eq.symm, ?_, ?_⟩
  · rw [h.slot.cap]; have := h.slot.tail_le; omega
  · intro _
    rw [h.slot.drained, List.map_map]
    exact List.map_congr_left fun a _ => a.view_contents
  · intro hidle
    have hnone : ∑ p, (s.pc p).won = 0 :=
      Finset.sum_eq_zero fun p _ => by rw [hidle p]; rfl
    have hwins := h.count.wins
    rw [hnone] at hwins
    exact ⟨h.slot.head_eq.trans hwins, h.count.returns⟩

end Safety

/-- An undisturbed `hv_ring_push` call: the claim, eight stores and the
count. -/
def soloPush {P : Type} (p : P) (a : HvPush) : List (RingAct P) :=
  .callPush p a :: List.replicate 12 (.push p false)

/-- An undisturbed `hv_ring_drain` call that finds one event. -/
def soloDrain {P : Type} (max : Nat) : List (RingAct P) :=
  .callDrain max :: List.replicate 13 .drain

/-- A push whose opcode and thread id are wider than the packet. -/
def samplePush : HvPush := ⟨7, 0x5500, 24, 24, 0x1000002, 0xC1⟩

/-- One push and one drain, on the smallest ring the interceptor creates. -/
theorem ring_safety_one_event : ∃ s : RingSys (Fin 2),
    Run.run RingSys.step (RingSys.init (Fin 2) (2 ^ 10))
        (soloPush 0 samplePush ++ soloDrain 8) = some s
      ∧ s.drained.map HvEvent.contents = [(7, 0x5500, 24, 24, 2, 1)]
      ∧ s.ring.head = s.ring.totalEvents := by
  have hobs : (Run.run RingSys.step (RingSys.init (Fin 2) (2 ^ 10))
      (soloPush 0 samplePush ++ soloDrain 8)).map
        (fun s => (s.ring.tail, s.started, s.claimed, s.cons, s.pc 0, s.pc 1))
      = some (1, 1, [samplePush], .idle, .idle, .idle) := by decide +kernel
  obtain ⟨s, hs, hval⟩ := Option.map_eq_some_iff.mp hobs
  simp only [Prod.mk.injEq] at hval
  obtain ⟨htail, hstarted, hclaimed, hcons, h0, h1⟩ := hval
  obtain ⟨-, -, hdrained, hcount⟩ :=
    ring_safety (k := 10) (s := s) (by decide) ⟨_, hs⟩ (by rw [hstarted]; decide)
  refine ⟨s, hs, ?_, (hcount ?_).1⟩
  · rw [hdrained hcons, htail, hclaimed]; rfl
  · intro p
    match p with
    | 0 => exact h0
    | 1 => exact h1

/-! ## Drops -/

section Drops

variable {P : Type} [DecidableEq P]

theorem RingSys.pushAct_pc_of_ne (s : RingSys P) {p q : P} (hne : q ≠ p)
    (spurious : Bool) : (s.pushAct p spurious).pc q = s.pc q := by
  unfold RingSys.pushAct
  split <;> exact Function.update_of_ne hne _ _

/-- The one way to the `dropped` counter: a `tail` load that makes the
counters look a capacity apart. -/
theorem RingSys.pushAct_bumpDropped {s : RingSys P} {p : P} {spurious : Bool}
    {a : HvPush} (h : (s.pushAct p spurious).pc p = .bumpDropped a) :
    ∃ hd, s.pc p = .loadTail a hd ∧ s.ring.capacity ≤ sub64 hd s.ring.tail := by
  unfold RingSys.pushAct at h
  cases hp : s.pc p with
  | idle => simp [hp, pushStep] at h
  | loadHead b => simp [hp, pushStep] at h
  | loadTail b hd =>
      simp only [hp, pushStep] at h
      by_cases hfull : sub64 hd s.ring.tail ≥ s.ring.capacity
      · rw [if_pos hfull] at h
        simp only [Function.update_self, PushPc.bumpDropped.injEq] at h
        subst h
        exact ⟨hd, rfl, hfull⟩
      · rw [if_neg hfull] at h
        simp at h
  | casHead b hd =>
      simp only [hp, pushStep] at h
      split_ifs at h <;> simp at h
  | bumpDropped b => simp [hp, pushStep] at h
  | write b seq next =>
      simp only [hp, pushStep] at h
      cases hf : fieldOrder[next]? <;> simp [hf] at h
  | bumpTotal b seq => simp [hp, pushStep] at h

theorem RingSys.step_bumpDropped {s s' : RingSys P} {act : RingAct P}
    (hstep : s.step act = some s') {p : P} {a : HvPush}
    (h : s'.pc p = .bumpDropped a) :
    s.pc p = .bumpDropped a ∨ ∃ spurious hd, act = .push p spurious
      ∧ s.pc p = .loadTail a hd ∧ s.ring.capacity ≤ sub64 hd s.ring.tail := by
  cases act with
  | callPush q b =>
      simp only [RingSys.step] at hstep
      split at hstep
      · cases hstep
        by_cases hpq : p = q
        · subst hpq; simp at h
        · exact Or.inl (by simpa [Function.update_of_ne hpq] using h)
      · cases hstep
  | push q spurious =>
      simp only [RingSys.step] at hstep
      split at hstep
      · cases hstep
      · cases hstep
        by_cases hpq : p = q
        · subst hpq
          obtain ⟨hd, h1, h2⟩ := RingSys.pushAct_bumpDropped h
          exact Or.inr ⟨spurious, hd, rfl, h1, h2⟩
        · exact Or.inl ((s.pushAct_pc_of_ne hpq spurious).symm.trans h)
  | callDrain max =>
      simp only [RingSys.step] at hstep
      split at hstep
      · cases hstep; exact Or.inl h
      · cases hstep
  | drain =>
      simp only [RingSys.step] at hstep
      split at hstep
      · cases hstep
      · cases hstep
        have hpc : s.drainAct.pc = s.pc := by
          unfold RingSys.drainAct
          split <;> rfl
        exact Or.inl (hpc ▸ h)

theorem pushStep_ret_false {r r' : HvRing} {spurious : Bool} {pc : PushPc}
    (h : pushStep r spurious pc = .ret r' false) : ∃ a, pc = .bumpDropped a := by
  cases pc with
  | bumpDropped a => exact ⟨a, rfl⟩
  | loadTail a hd => simp only [pushStep] at h; split_ifs at h
  | casHead a hd => simp only [pushStep] at h; split_ifs at h
  | write a seq next =>
      simp only [pushStep] at h
      cases hf : fieldOrder[next]? <;> simp [hf] at h
  | _ => simp [pushStep] at h

/-- At a load of `tail`, the consumer is not past the `head` loaded before. -/
def PushPc.NotOvertaken (tail : Nat) : PushPc → Prop
  | .loadTail _ hd => tail ≤ hd
  | _ => True

instance (tail : Nat) : ∀ pc : PushPc, Decidable (pc.NotOvertaken tail)
  | .loadTail _ hd => inferInstanceAs (Decidable (tail ≤ hd))
  | .idle | .loadHead _ | .casHead _ _ | .bumpDropped _ | .write _ _ _
  | .bumpTotal _ _ => .isTrue trivial

/-- The action does not load a `tail` that has overtaken the producer. -/
def NotOvertaken (s : RingSys P) : RingAct P → Prop
  | .push p _ => (s.pc p).NotOvertaken s.ring.tail
  | _ => True

instance (s : RingSys P) : ∀ act, Decidable (NotOvertaken s act)
  | .push p _ => inferInstanceAs (Decidable ((s.pc p).NotOvertaken s.ring.tail))
  | .callPush _ _ | .callDrain _ | .drain => .isTrue trivial

omit [DecidableEq P] in
/-- Turned away without having been overtaken, the producer saw a full ring
at the moment it loaded `tail`. -/
theorem RingInv.full_of_not_overtaken [Fintype P] {k : Nat} {s : RingSys P}
    (h : RingInv k s) (hlt : s.started < 2 ^ 64) {p : P} {a : HvPush} {hd : Nat}
    (hp : s.pc p = .loadTail a hd) (hle : s.ring.tail ≤ hd)
    (hfull : s.ring.capacity ≤ sub64 hd s.ring.tail) :
    s.ring.head - s.ring.tail = s.ring.capacity := by
  have hhd := h.slot.loaded p a hd hp
  have hhead := h.head_lt hlt
  have hroom := h.slot.room
  rw [sub64_of_le hle (by omega)] at hfull
  rw [h.slot.cap] at hfull ⊢
  omega

/-- **A push is only turned away from a full ring**, in every run in which
no producer loads a `tail` that has overtaken its `head`: if the call that
`p` made after `pre` is about to return 0, then in some state between the
call and now the backlog was the whole capacity. -/
theorem drop_only_when_full [Fintype P] {k : Nat} (hk : k < 64)
    {pre mid : List (RingAct P)} {p : P} {a : HvPush} {s : RingSys P}
    (hrun : Run.run RingSys.step (RingSys.init P (2 ^ k))
      (pre ++ .callPush p a :: mid) = some s) (hlt : s.started < 2 ^ 64)
    (hguard : Run.Guarded RingSys.step NotOvertaken (RingSys.init P (2 ^ k))
      (pre ++ .callPush p a :: mid))
    {spurious : Bool} {r : HvRing}
    (hret : pushStep s.ring spurious (s.pc p) = .ret r false) :
    ∃ mid₁ s₁, mid₁ <+: mid
      ∧ Run.run RingSys.step (RingSys.init P (2 ^ k))
          (pre ++ .callPush p a :: mid₁) = some s₁
      ∧ s₁.ring.head - s₁.ring.tail = s₁.ring.capacity := by
  obtain ⟨b, hb⟩ := pushStep_ret_false hret
  clear hret
  -- backwards from the drop to the load that decided it
  induction mid using List.reverseRecOn generalizing s with
  | nil =>
      obtain ⟨m, -, hstep⟩ := Run.run_concat.mp hrun
      rcases RingSys.step_bumpDropped hstep hb with hm | ⟨sp, hd, hact, -, -⟩
      · simp only [RingSys.step] at hstep
        split at hstep
        · next hidle => rw [hidle] at hm; cases hm
        · cases hstep
      · cases hact
  | append_singleton mid act ih =>
      rw [← List.cons_append, ← List.append_assoc] at hrun hguard
      obtain ⟨m, hm, hstep⟩ := Run.run_concat.mp hrun
      have hmlt : m.started < 2 ^ 64 :=
        Nat.lt_of_le_of_lt (RingSys.step_started hstep) hlt
      obtain ⟨hg1, hg2⟩ := hguard.append hm
      rcases RingSys.step_bumpDropped hstep hb with hmb | ⟨sp, hd, hact, hp, hfull⟩
      · obtain ⟨mid₁, s₁, hpre, hrest⟩ := ih hm hmlt hg1 hmb
        exact ⟨mid₁, s₁, hpre.trans (List.prefix_append _ _), hrest⟩
      · have hle : (m.pc p).NotOvertaken m.ring.tail := by
          have := hg2.1
          rwa [hact] at this
        rw [hp] at hle
        exact ⟨mid, m, List.prefix_append _ _, hm,
          (RingInv.run hk hm hmlt).full_of_not_overtaken hmlt hp hle hfull⟩

end Drops

/-- A full ring of one slot turns a push away: the first producer's event is
still in the ring when the second calls. -/
theorem drop_only_when_full_one_slot : ∃ (mid : List (RingAct (Fin 2)))
    (s : RingSys (Fin 2)),
    Run.run RingSys.step (RingSys.init (Fin 2) (2 ^ 0))
        (soloPush 0 samplePush ++ .callPush 1 samplePush :: mid) = some s
      ∧ (∃ r, pushStep s.ring false (s.pc 1) = .ret r false)
      ∧ ∃ mid₁ s₁, mid₁ <+: mid
        ∧ Run.run RingSys.step (RingSys.init (Fin 2) (2 ^ 0))
            (soloPush 0 samplePush ++ .callPush 1 samplePush :: mid₁) = some s₁
        ∧ s₁.ring.head - s₁.ring.tail = s₁.ring.capacity := by
  have hobs : (Run.run RingSys.step (RingSys.init (Fin 2) (2 ^ 0))
      (soloPush 0 samplePush ++ .callPush 1 samplePush
        :: [.push 1 false, .push 1 false])).map
        (fun s => (s.ring.dropped, s.started, s.pc 1))
      = some (0, 2, .bumpDropped samplePush) := by decide
  obtain ⟨s, hs, hval⟩ := Option.map_eq_some_iff.mp hobs
  simp only [Prod.mk.injEq] at hval
  obtain ⟨hdropped, hstarted, hpc⟩ := hval
  have hret : pushStep s.ring false (s.pc 1)
      = .ret { s.ring with dropped := add64 s.ring.dropped 1 } false := by
    rw [hpc]; rfl
  refine ⟨_, s, hs, ⟨_, hret⟩, drop_only_when_full (k := 0) (by decide) hs
    (by rw [hstarted]; decide) (by decide) hret⟩

/-- What a schedule whose two loads are torn apart does: the first producer
loads `head`, the second pushes an event, the consumer drains it, and only
then does the first producer load `tail`. -/
def overtakenMid : List (RingAct (Fin 2)) :=
  .push 0 false :: soloPush 1 samplePush ++ soloDrain 8 ++ [.push 0 false]

/-- **A push turned away from an empty ring.** The call is about to return
0, and in no state since it was made was the ring full. -/
theorem drop_on_empty_ring : ∃ s : RingSys (Fin 2),
    Run.run RingSys.step (RingSys.init (Fin 2) (2 ^ 10))
        (.callPush 0 samplePush :: overtakenMid) = some s
      ∧ s.started < 2 ^ 64
      ∧ (∃ r, pushStep s.ring false (s.pc 0) = .ret r false)
      ∧ s.ring.head = s.ring.tail
      ∧ ∀ mid₁ s₁, mid₁ <+: overtakenMid →
          Run.run RingSys.step (RingSys.init (Fin 2) (2 ^ 10))
            (.callPush 0 samplePush :: mid₁) = some s₁ →
          s₁.ring.head - s₁.ring.tail ≠ s₁.ring.capacity := by
  have hobs : (Run.run RingSys.step (RingSys.init (Fin 2) (2 ^ 10))
      (.callPush 0 samplePush :: overtakenMid)).map
        (fun s => (s.ring.head, s.ring.tail, s.started, s.pc 0))
      = some (1, 1, 2, .bumpDropped samplePush) := by decide +kernel
  have hnever : ∀ n ≤ overtakenMid.length,
      (Run.run RingSys.step (RingSys.init (Fin 2) (2 ^ 10))
        (.callPush 0 samplePush :: overtakenMid.take n)).map
          (fun s => decide (s.ring.head - s.ring.tail = s.ring.capacity))
        ≠ some true := by decide +kernel
  obtain ⟨s, hs, hval⟩ := Option.map_eq_some_iff.mp hobs
  simp only [Prod.mk.injEq] at hval
  obtain ⟨hhead, htail, hstarted, hpc⟩ := hval
  refine ⟨s, hs, by rw [hstarted]; decide, ⟨_, by rw [hpc]; rfl⟩, by rw [hhead, htail], ?_⟩
  intro mid₁ s₁ hpre hrun hfull
  rw [List.prefix_iff_eq_take.mp hpre] at hrun
  refine hnever mid₁.length hpre.length_le ?_
  rw [hrun]
  simpa using hfull

end Heapviz
