import Heapviz.Simulation
import Heapviz.PreloadReports
import Heapviz.HeapPause

/-!
# From the hooks to the session

`Heapviz.Preload` takes a report to be one atomic append, and
`Heapviz.HeapPause` takes the pushes to come from nowhere. Here the two
are one system: the threads of the target run the hooks, `hv_emit` is the
whole of `hv_ring_push` with its loads, compare-exchanges and stores, and
the session drains the ring, is paused, resized and updated meanwhile.

The atomic picture is recovered by looking at the moment a push wins its
sequence number. `Pipeline.atomic` counts a report as made from then on,
although the hook is still writing the slot, and as not made before, and
`Pipeline.simulation` says that every step of the pipeline is then one
access of the atomic hooks or nothing at all - as long as the ring turns
no push away, since a report that is dropped has no atomic counterpart.
-/

namespace Heapviz

/-! ## The whole pipeline -/

/-- The hooks of `n` threads over the real allocator, and the session over
the ring. The events go through the ring: `hooks.ring` is not used. -/
structure Pipeline (n : Nat) where
  hooks : HookSys
  session : PauseSys (Fin n)

def Pipeline.init (n capacity : Nat) (app : HeapApp) : Pipeline n :=
  ⟨HookSys.init, PauseSys.init (Fin n) capacity app⟩

/-- A scheduling decision: a thread of the target calls a hook, or goes on
inside it - at `hv_emit` that is the call of `hv_ring_push`, whose accesses
follow one by one - or the session's loop does something. -/
inductive PipeAct (n : Nat) where
  | call (t : Fin n) (c : HookCall)
  | access (t : Fin n) (env : HookEnv)
  | push (t : Fin n) (spurious : Bool)
  | space
  | resized (w h : Int)
  | update (env : HeapApp.UpdateEnv)
  | callDrain
  | drain

/-- What the session's loop does, as an action of the session. -/
def PipeAct.session {n : Nat} : PipeAct n → Option (PauseAct (Fin n))
  | .space => some .space
  | .resized w h => some (.resized w h)
  | .update env => some (.update env)
  | .callDrain => some .callDrain
  | .drain => some .drain
  | .call _ _ | .access _ _ | .push _ _ => none

namespace Pipeline

variable {n : Nat}

/-- `hv_emit` returns, whatever became of its push. -/
def emitted (s : Pipeline n) (t : Fin n) (session : PauseSys (Fin n)) : Pipeline n where
  hooks := match (s.hooks.pc t).report with
    | some r => s.hooks.goto t r.next
    | none => s.hooks
  session := session

def step (arena : Nat) (s : Pipeline n) : PipeAct n → Option (Pipeline n)
  | .call t c => (s.hooks.step arena (.call t c)).map fun hooks => { s with hooks := hooks }
  | .access t env =>
      match (s.hooks.pc t).report with
      | some r =>
          (s.session.step (.callPush t (r.push t env))).map fun session =>
            { s with session := session }
      | none => (s.hooks.access arena t env).map fun hooks => { s with hooks := hooks }
  | .push t spurious =>
      (s.session.step (.push t spurious)).map fun session =>
        if session.ring.pc t = .idle then s.emitted t session else { s with session := session }
  | .space => (s.session.step .space).map fun session => { s with session := session }
  | .resized w h =>
      (s.session.step (.resized w h)).map fun session => { s with session := session }
  | .update env => (s.session.step (.update env)).map fun session => { s with session := session }
  | .callDrain => (s.session.step .callDrain).map fun session => { s with session := session }
  | .drain => (s.session.step .drain).map fun session => { s with session := session }

/-- The target behaves as it has to for the atomic hooks. -/
def Disciplined (arena : Nat) (s : Pipeline n) : PipeAct n → Prop
  | .call t c => Heapviz.Disciplined arena s.hooks (.call t c)
  | _ => True

instance (arena : Nat) (s : Pipeline n) : ∀ a, Decidable (s.Disciplined arena a)
  | .call t c => inferInstanceAs (Decidable (Heapviz.Disciplined arena s.hooks (.call t c)))
  | .access _ _ | .push _ _ | .space | .resized _ _ | .update _ | .callDrain | .drain =>
      .isTrue trivial

/-! ## The atomic picture -/

/-- Where thread `t` is when a report counts from the moment its push has
won a sequence number. -/
def ahead (s : Pipeline n) (t : Nat) : HookPc :=
  if h : t < n then
    if (s.session.ring.pc ⟨t, h⟩).won = 1 then
      ((s.hooks.pc t).report.map Report.next).getD (s.hooks.pc t)
    else s.hooks.pc t
  else s.hooks.pc t

def atomic (s : Pipeline n) : HookSys :=
  { s.hooks with ring := s.session.ring.claimed, pc := s.ahead }

theorem ahead_of_not_won {s : Pipeline n} {t : Fin n} (h : (s.session.ring.pc t).won ≠ 1) :
    s.ahead t = s.hooks.pc t := by
  simp only [ahead, dif_pos t.isLt, Fin.eta, if_neg h]

theorem ahead_of_won {s : Pipeline n} {t : Fin n} {r : Report}
    (h : (s.session.ring.pc t).won = 1) (hr : (s.hooks.pc t).report = some r) :
    s.ahead t = r.next := by
  simp only [ahead, dif_pos t.isLt, Fin.eta, if_pos h, hr, Option.map_some, Option.getD_some]

/-- Only what thread `t` did shows. -/
theorem ahead_eq_update (s s' : Pipeline n) {t : Fin n}
    (hhooks : ∀ u : Nat, u ≠ t → s'.hooks.pc u = s.hooks.pc u)
    (hring : ∀ u, u ≠ t → s'.session.ring.pc u = s.session.ring.pc u) :
    s'.ahead = Function.update s.ahead t (s'.ahead t) := by
  funext u
  by_cases hu : u = t
  · rw [hu, Function.update_self]
  · rw [Function.update_of_ne hu]
    by_cases hlt : u < n
    · have hne : (⟨u, hlt⟩ : Fin n) ≠ t := fun h => hu (congrArg Fin.val h)
      simp only [ahead, dif_pos hlt, hring _ hne, hhooks u hu]
    · simp only [ahead, dif_neg hlt, hhooks u hu]

/-! ## The invariant -/

end Pipeline

/-- The arguments of the call of `hv_ring_push` in progress. -/
def PushPc.args : PushPc → Option HvPush
  | .idle => none
  | .loadHead a | .loadTail a _ | .casHead a _ | .bumpDropped a | .write a _ _ | .bumpTotal a _ =>
      some a

/-- Each step of a push stays with its arguments until it returns. -/
theorem pushStep_args {r r' : HvRing} {spurious : Bool} {pc pc' : PushPc} (hbusy : pc ≠ .idle)
    (h : pushStep r spurious pc = .run r' pc') :
    pc'.args = pc.args ∧ pc'.won = pc.won ∧ pc' ≠ .idle ∧ r'.dropped = r.dropped := by
  cases pc with
  | idle => exact absurd rfl hbusy
  | loadHead a =>
      obtain ⟨rfl, rfl⟩ := PushOut.run.inj h
      exact ⟨rfl, rfl, by simp, rfl⟩
  | loadTail a head =>
      simp only [pushStep] at h
      split_ifs at h
      · obtain ⟨rfl, rfl⟩ := PushOut.run.inj h
        exact ⟨rfl, rfl, by simp, rfl⟩
      · obtain ⟨rfl, rfl⟩ := PushOut.run.inj h
        exact ⟨rfl, rfl, by simp, rfl⟩
  | casHead a head =>
      simp only [pushStep] at h
      split_ifs at h
      obtain ⟨rfl, rfl⟩ := PushOut.run.inj h
      exact ⟨rfl, rfl, by simp, rfl⟩
  | bumpDropped a => cases h
  | write a seq next =>
      simp only [pushStep] at h
      cases hf : fieldOrder[next]? with
      | some f =>
          rw [hf] at h
          obtain ⟨rfl, rfl⟩ := PushOut.run.inj h
          exact ⟨rfl, rfl, by simp, rfl⟩
      | none =>
          rw [hf] at h
          obtain ⟨rfl, rfl⟩ := PushOut.run.inj h
          exact ⟨rfl, rfl, by simp, rfl⟩
  | bumpTotal a seq => cases h

/-- A sequence number is won by the compare-exchange alone. -/
theorem pushStep_claim {r r' : HvRing} {spurious : Bool} {pc : PushPc} {a : HvPush} {seq : Nat}
    (h : pushStep r spurious pc = .claim r' a seq) :
    pc = .casHead a seq ∧ r'.dropped = r.dropped := by
  cases pc with
  | casHead b head =>
      simp only [pushStep] at h
      split_ifs at h
      obtain ⟨rfl, rfl, rfl⟩ := PushOut.claim.inj h
      exact ⟨rfl, rfl⟩
  | loadTail b head => simp only [pushStep] at h; split_ifs at h
  | write b i next => simp only [pushStep] at h; cases hf : fieldOrder[next]? <;> simp [hf] at h
  | _ => cases h

/-- A push returns after its event is counted, or after its drop is. -/
theorem pushStep_ret {r r' : HvRing} {spurious landed : Bool} {pc : PushPc}
    (h : pushStep r spurious pc = .ret r' landed) :
    (pc.won = 1 ∧ r'.dropped = r.dropped) ∨
      (pc.busy = 1 ∧ pc.won = 0 ∧ r'.dropped = add64 r.dropped 1) := by
  cases pc with
  | bumpDropped b =>
      obtain ⟨rfl, -⟩ := PushOut.ret.inj h
      exact .inr ⟨rfl, rfl, rfl⟩
  | bumpTotal b seq =>
      obtain ⟨rfl, -⟩ := PushOut.ret.inj h
      exact .inl ⟨rfl, rfl⟩
  | loadTail b head => simp only [pushStep] at h; split_ifs at h
  | casHead b head => simp only [pushStep] at h; split_ifs at h
  | write b i next => simp only [pushStep] at h; cases hf : fieldOrder[next]? <;> simp [hf] at h
  | _ => cases h

namespace Pipeline

variable {n : Nat}

/-- The ring is in order, there are no other threads, and whoever is
pushing stands at a report and pushes what it says. -/
structure Inv (k : Nat) (s : Pipeline n) : Prop where
  ring : RingInv k s.session.ring
  outside : ∀ t, n ≤ t → s.hooks.pc t = .idle
  pushing : ∀ t : Fin n, s.session.ring.pc t ≠ .idle →
    ∃ r env, (s.hooks.pc t).report = some r ∧
      (s.session.ring.pc t).args = some (r.push t env)

/-- Nothing has been turned away, and the counters are far from wrapping. -/
def Lossless (s : Pipeline n) : Prop :=
  s.session.ring.ring.dropped = 0 ∧ s.session.ring.started < 2 ^ 64

end Pipeline

/-! ## What a step of the session does to the ring -/

def RingAct.byConsumer {P : Type} : RingAct P → Bool
  | .callDrain _ | .drain => true
  | .callPush _ _ | .push _ _ => false

def PauseAct.byLoop {P : Type} : PauseAct P → Bool
  | .space | .resized _ _ | .update _ | .callDrain | .drain => true
  | .callPush _ _ | .push _ _ => false

theorem PipeAct.session_byLoop {n : Nat} {a : PipeAct n} {act : PauseAct (Fin n)}
    (h : a.session = some act) : act.byLoop = true := by
  cases a with
  | call t c => cases h
  | access t env => cases h
  | push t spurious => cases h
  | _ => obtain rfl := Option.some.inj h; rfl

/-- The ring one step of a drain leaves. -/
def DrainOut.ring : DrainOut → HvRing
  | .run r _ => r
  | .ret r _ => r

theorem drainStep_dropped (r : HvRing) (pc : DrainPc) :
    (drainStep r pc).ring.dropped = r.dropped := by
  cases pc with
  | scan max tail head out =>
      simp only [drainStep]
      split_ifs <;> rfl
  | copy max tail head out op next e =>
      simp only [drainStep]
      cases fieldOrder[next]? <;> rfl
  | finish tail out =>
      simp only [drainStep]
      split_ifs <;> rfl
  | _ => rfl

section Session

variable {P : Type} [DecidableEq P]

/-- The consumer moves neither a producer nor what producers count. -/
theorem RingSys.step_consumer {s s' : RingSys P} {act : RingAct P}
    (hact : act.byConsumer = true) (h : s.step act = some s') :
    s'.pc = s.pc ∧ s'.claimed = s.claimed ∧ s'.started = s.started ∧
      s'.ring.dropped = s.ring.dropped := by
  cases act with
  | callPush p a => cases hact
  | push p spurious => cases hact
  | callDrain max =>
      obtain ⟨-, hs⟩ := Option.ite_none_right_eq_some.mp h
      obtain rfl := Option.some.inj hs
      exact ⟨rfl, rfl, rfl, rfl⟩
  | drain =>
      obtain ⟨-, hs⟩ := Option.ite_none_left_eq_some.mp h
      obtain rfl := Option.some.inj hs
      have hdrop := drainStep_dropped s.ring s.cons
      unfold RingSys.drainAct
      split
      · rename_i r pc hr
        rw [hr] at hdrop
        exact ⟨rfl, rfl, rfl, hdrop⟩
      · rename_i r out hr
        rw [hr] at hdrop
        exact ⟨rfl, rfl, rfl, hdrop⟩

/-- The session's loop acts on the ring as its consumer, if at all. -/
theorem PauseSys.step_ring {s s' : PauseSys P} {act : PauseAct P} (hact : act.byLoop = true)
    (h : s.step act = some s') :
    s'.ring = s.ring ∨ ∃ ract, ract.byConsumer = true ∧ s.ring.step ract = some s'.ring := by
  cases act with
  | callPush p a => cases hact
  | push p spurious => cases hact
  | space =>
      obtain ⟨-, hs⟩ := Option.ite_none_right_eq_some.mp h
      obtain rfl := Option.some.inj hs
      exact .inl rfl
  | resized w ht =>
      obtain ⟨-, hs⟩ := Option.ite_none_right_eq_some.mp h
      obtain rfl := Option.some.inj hs
      exact .inl rfl
  | update env =>
      obtain ⟨-, hs⟩ := Option.ite_none_right_eq_some.mp h
      obtain rfl := Option.some.inj hs
      exact .inl rfl
  | callDrain =>
      obtain ⟨-, hs⟩ := Option.ite_none_right_eq_some.mp h
      unfold PauseSys.callDrain at hs
      dsimp only at hs
      split_ifs at hs
      · obtain rfl := Option.some.inj hs
        exact .inl rfl
      · obtain ⟨ring, hring, rfl⟩ := Option.map_eq_some_iff.mp hs
        exact .inr ⟨_, rfl, hring⟩
  | drain =>
      obtain ⟨o, -, rfl⟩ := Option.map_eq_some_iff.mp h
      unfold PauseSys.drainAct
      by_cases hidle : s.ring.cons = .idle
      · have hsame : s.ring.drainAct = s.ring := by
          simp only [RingSys.drainAct, hidle, drainStep]
          rw [← hidle]
        rw [hidle]
        exact .inl hsame
      · have hstep : s.ring.step .drain = some s.ring.drainAct := if_neg hidle
        refine .inr ⟨.drain, rfl, hstep.trans (congrArg some ?_)⟩
        split <;> rfl

/-- So the session's loop moves no producer. -/
theorem PauseSys.step_producers {s s' : PauseSys P} {act : PauseAct P}
    (hact : act.byLoop = true) (h : s.step act = some s') :
    s'.ring.pc = s.ring.pc ∧ s'.ring.claimed = s.ring.claimed ∧
      s'.ring.started = s.ring.started ∧ s'.ring.ring.dropped = s.ring.ring.dropped := by
  rcases PauseSys.step_ring hact h with hsame | ⟨ract, hract, hstep⟩
  · rw [hsame]
    exact ⟨rfl, rfl, rfl, rfl⟩
  · exact RingSys.step_consumer hract hstep

theorem PauseSys.step_ringInv [Fintype P] {k : Nat} {s s' : PauseSys P} {act : PauseAct P}
    (hI : RingInv k s.ring) (hlt : s.ring.started < 2 ^ 64) (hact : act.byLoop = true)
    (h : s.step act = some s') : RingInv k s'.ring := by
  rcases PauseSys.step_ring hact h with hsame | ⟨ract, -, hstep⟩
  · rw [hsame]
    exact hI
  · exact hI.step hlt hstep

end Session

/-! ## Following the atomic hooks -/

namespace Pipeline

variable {n k : Nat} {s s' : Pipeline n}

theorem Inv.idle_of_report (h : s.Inv k) {t : Fin n} (hnone : (s.hooks.pc t).report = none) :
    s.session.ring.pc t = .idle := by
  by_contra hbusy
  obtain ⟨r, env, hr, -⟩ := h.pushing t hbusy
  rw [hnone] at hr
  cases hr

/-- A thread that is not pushing is where it is. -/
theorem ahead_of_idle {t : Fin n} (h : s.session.ring.pc t = .idle) :
    s.ahead t = s.hooks.pc t := by
  refine ahead_of_not_won ?_
  rw [h]
  decide

/-- What one step of a push amounts to: it runs on, wins its number, or
returns. -/
theorem pushAct_cases {P : Type} [DecidableEq P] (r : RingSys P) {p : P} (spurious : Bool)
    (hbusy : r.pc p ≠ .idle) :
    (∃ ring pc, r.pushAct p spurious =
        { r with ring := ring, pc := Function.update r.pc p pc } ∧
        pc.args = (r.pc p).args ∧ pc.won = (r.pc p).won ∧ pc ≠ .idle ∧
        ring.dropped = r.ring.dropped) ∨
      (∃ ring a seq, r.pushAct p spurious =
        { r with
          ring := ring
          pc := Function.update r.pc p (.write a seq 0)
          claimed := r.claimed ++ [a] } ∧
        pushStep r.ring spurious (r.pc p) = .claim ring a seq ∧
        r.pc p = .casHead a seq ∧ ring.dropped = r.ring.dropped) ∨
      ∃ ring, r.pushAct p spurious =
        { r with
          ring := ring
          pc := Function.update r.pc p .idle
          completed := r.completed + 1 } ∧
        (((r.pc p).won = 1 ∧ ring.dropped = r.ring.dropped) ∨
          ((r.pc p).busy = 1 ∧ (r.pc p).won = 0 ∧ ring.dropped = add64 r.ring.dropped 1)) := by
  unfold RingSys.pushAct
  cases hstep : pushStep r.ring spurious (r.pc p) with
  | run ring pc => exact .inl ⟨ring, pc, rfl, pushStep_args hbusy hstep⟩
  | claim ring a seq => exact .inr (.inl ⟨ring, a, seq, rfl, rfl, pushStep_claim hstep⟩)
  | ret ring landed => exact .inr (.inr ⟨ring, rfl, pushStep_ret hstep⟩)

/-- What a step of the pipeline can be. -/
inductive Did (arena : Nat) (s : Pipeline n) : PipeAct n → Pipeline n → Prop
  | call {t : Fin n} {c : HookCall} {hooks : HookSys}
      (h : s.hooks.step arena (.call t c) = some hooks) :
      Did arena s (.call t c) { s with hooks := hooks }
  | real {t : Fin n} {env : HookEnv} {hooks : HookSys} (hnone : (s.hooks.pc t).report = none)
      (h : s.hooks.access arena t env = some hooks) :
      Did arena s (.access t env) { s with hooks := hooks }
  | emit {t : Fin n} {env : HookEnv} {r : Report} {session : PauseSys (Fin n)}
      (hr : (s.hooks.pc t).report = some r) (hidle : s.session.ring.pc t = .idle)
      (h : session = { s.session with
        ring := { s.session.ring with
          pc := Function.update s.session.ring.pc t (.loadHead (r.push t env))
          started := s.session.ring.started + 1 } }) :
      Did arena s (.access t env) { s with session := session }
  | push {t : Fin n} {spurious : Bool} {session : PauseSys (Fin n)}
      (hbusy : s.session.ring.pc t ≠ .idle)
      (h : session = { s.session with ring := s.session.ring.pushAct t spurious }) :
      Did arena s (.push t spurious)
        (if session.ring.pc t = .idle then s.emitted t session else { s with session := session })
  | loop {a : PipeAct n} {act : PauseAct (Fin n)} {session : PauseSys (Fin n)}
      (ha : a.session = some act) (h : s.session.step act = some session) :
      Did arena s a { s with session := session }

theorem step_did {arena : Nat} {a : PipeAct n} (h : s.step arena a = some s') :
    Did arena s a s' := by
  cases a with
  | call t c =>
      obtain ⟨hooks, hhooks, rfl⟩ := Option.map_eq_some_iff.mp h
      exact .call hhooks
  | access t env =>
      simp only [step] at h
      cases hr : (s.hooks.pc t).report with
      | some r =>
          rw [hr] at h
          obtain ⟨session, hsession, rfl⟩ := Option.map_eq_some_iff.mp h
          obtain ⟨ring, hring, rfl⟩ := Option.map_eq_some_iff.mp hsession
          obtain ⟨hidle, hs⟩ := Option.ite_none_right_eq_some.mp hring
          obtain rfl := Option.some.inj hs
          exact .emit hr hidle rfl
      | none =>
          rw [hr] at h
          obtain ⟨hooks, hhooks, rfl⟩ := Option.map_eq_some_iff.mp h
          exact .real hr hhooks
  | push t spurious =>
      obtain ⟨session, hsession, rfl⟩ := Option.map_eq_some_iff.mp h
      obtain ⟨ring, hring, rfl⟩ := Option.map_eq_some_iff.mp hsession
      obtain ⟨hbusy, hs⟩ := Option.ite_none_left_eq_some.mp hring
      obtain rfl := Option.some.inj hs
      exact .push hbusy rfl
  | _ =>
      obtain ⟨session, hsession, rfl⟩ := Option.map_eq_some_iff.mp h
      exact .loop rfl hsession

theorem emitted_session (s : Pipeline n) (t : Fin n) (session : PauseSys (Fin n)) :
    (s.emitted t session).session = session := rfl

theorem emitted_hooks {t : Fin n} {r : Report} (hr : (s.hooks.pc t).report = some r)
    (session : PauseSys (Fin n)) : (s.emitted t session).hooks = s.hooks.goto t r.next := by
  simp only [emitted, hr]

/-- The session after a push step, whether the push returned or not. -/
theorem push_session (s : Pipeline n) (t : Fin n) (session : PauseSys (Fin n)) :
    (if session.ring.pc t = .idle then s.emitted t session
      else { s with session := session }).session = session := by
  split <;> rfl

/-- The ring's invariant while the counters cannot wrap. -/
def RingSound (k : Nat) (s : Pipeline n) : Prop :=
  s.session.ring.started < 2 ^ 64 → RingInv k s.session.ring

/-- The count of drops stays below the count of calls, so it cannot come
back to zero. -/
theorem drop_ne_zero (h : RingInv k s.session.ring) (hlt : s.session.ring.started < 2 ^ 64)
    {t : Fin n} (hbusy : (s.session.ring.pc t).busy = 1) :
    add64 s.session.ring.ring.dropped 1 ≠ 0 := by
  have hle := busy_le_sum s.session.ring.pc t
  have hcalls := h.count.calls
  have hreturns := h.count.returns
  rw [add64_of_lt (by omega)]
  exact Nat.succ_ne_zero _

/-- One step on the counters. -/
theorem Did.counters {arena : Nat} {a : PipeAct n} (h : s.RingSound k) (hdid : Did arena s a s') :
    s'.RingSound k ∧ s.session.ring.started ≤ s'.session.ring.started ∧
      (s'.session.ring.started < 2 ^ 64 → s'.session.ring.ring.dropped = 0 →
        s.session.ring.ring.dropped = 0) := by
  cases hdid with
  | call hstep => exact ⟨h, Nat.le_refl _, fun _ hd => hd⟩
  | real hnone hstep => exact ⟨h, Nat.le_refl _, fun _ hd => hd⟩
  | emit hr hidle hsession =>
      subst hsession
      exact ⟨fun hlt => (h (Nat.lt_of_succ_lt hlt)).callPush hidle _, Nat.le_succ _,
        fun _ hd => hd⟩
  | @push t spurious session hbusy hsession =>
      have hring : session.ring = s.session.ring.pushAct t spurious := by rw [hsession]
      have hstarted : (s.session.ring.pushAct t spurious).started = s.session.ring.started := by
        unfold RingSys.pushAct
        split <;> rfl
      simp only [RingSound, push_session]
      rw [hring, hstarted]
      refine ⟨fun hlt => (h hlt).pushAct hlt t spurious, Nat.le_refl _, fun hlt hzero => ?_⟩
      rcases pushAct_cases s.session.ring spurious hbusy with
        ⟨ring, pc, heq, -, -, -, hdrop⟩ | ⟨ring, a, seq, heq, -, -, hdrop⟩ |
          ⟨ring, heq, ⟨-, hdrop⟩ | ⟨hcall, -, hdrop⟩⟩
      · rw [heq] at hzero
        exact hdrop.symm.trans hzero
      · rw [heq] at hzero
        exact hdrop.symm.trans hzero
      · rw [heq] at hzero
        exact hdrop.symm.trans hzero
      · rw [heq] at hzero
        exact absurd (hdrop.symm.trans hzero) (drop_ne_zero (h hlt) hlt hcall)
  | loop ha hstep =>
      have hact := PipeAct.session_byLoop ha
      obtain ⟨-, -, hstarted, hdropped⟩ := PauseSys.step_producers hact hstep
      refine ⟨fun hlt => ?_, hstarted.ge, fun _ hd => hdropped.symm.trans hd⟩
      have hlt' : s.session.ring.started < 2 ^ 64 := hstarted ▸ hlt
      exact PauseSys.step_ringInv (h hlt') hlt' hact hstep

/-- A run that ends without a drop had none. -/
theorem lossless_of_end {arena : Nat} {acts : List (PipeAct n)} (h0 : s.RingSound k)
    (hrun : Run.run (step arena) s acts = some s') (hend : s'.Lossless) :
    s.Lossless ∧ Run.Guarded (step arena) (Run.Into (step arena) Lossless) s acts := by
  refine Run.guarded_of_end (I := RingSound k)
    (fun s a s' hs hstep => ((step_did hstep).counters hs).1) (fun s a s' hs hstep hq => ?_)
    h0 hrun hend
  obtain ⟨-, hle, hback⟩ := (step_did hstep).counters hs
  exact ⟨hback hq.2 hq.1, Nat.lt_of_le_of_lt hle hq.2⟩

/-! ### The invariant -/

theorem Inv.init (hk : k < 64) (app : HeapApp) : (Pipeline.init n (2 ^ k) app).Inv k where
  ring := RingInv.init hk
  outside := fun _ _ => rfl
  pushing := fun _ h => absurd rfl h

/-- A thread outside `hv_ring_push` moves on in its hook. -/
theorem Inv.hooks_move (h : s.Inv k) {t : Fin n} (hidle : s.session.ring.pc t = .idle)
    {hooks : HookSys} (hother : ∀ u : Nat, u ≠ t → hooks.pc u = s.hooks.pc u) :
    ({ s with hooks := hooks } : Pipeline n).Inv k where
  ring := h.ring
  outside := fun u hu => (hother u (by omega)).trans (h.outside u hu)
  pushing := fun u hu => by
    have hne : (u : Nat) ≠ t := fun e => hu (Fin.ext e ▸ hidle)
    simp only [hother u hne]
    exact h.pushing u hu

theorem call_elsewhere {arena : Nat} {m m' : HookSys} {t : Nat} {c : HookCall}
    (h : m.step arena (.call t c) = some m') (u : Nat) (hu : u ≠ t) : m'.pc u = m.pc u := by
  obtain ⟨-, hs⟩ := Option.ite_none_right_eq_some.mp h
  obtain rfl := Option.some.inj hs
  exact Function.update_of_ne hu ..

/-- **The invariant is kept** by every step that keeps the counters from
wrapping. -/
theorem Inv.step {arena : Nat} {a : PipeAct n} (h : s.Inv k)
    (hlt : s'.session.ring.started < 2 ^ 64) (hstep : s.step arena a = some s') : s'.Inv k := by
  have hdid := step_did hstep
  have hring : RingInv k s'.session.ring := (hdid.counters fun _ => h.ring).1 hlt
  cases hdid with
  | @call t c hooks hcall =>
      obtain ⟨hidle, -⟩ := Option.ite_none_right_eq_some.mp hcall
      exact h.hooks_move (h.idle_of_report (by rw [hidle]; rfl)) (call_elsewhere hcall)
  | real hnone haccess =>
      exact h.hooks_move (h.idle_of_report hnone) (HookSys.access_elsewhere hnone haccess [] rfl).2
  | @emit t env r session hr hidle hsession =>
      subst hsession
      refine ⟨hring, h.outside, fun u hu => ?_⟩
      by_cases hut : u = t
      · subst hut
        exact ⟨r, env, hr, by simp only [Function.update_self, PushPc.args]⟩
      · simp only [Function.update_of_ne hut] at hu ⊢
        exact h.pushing u hu
  | @push t spurious session hbusy hsession =>
      obtain ⟨r, env, hr, hargs⟩ := h.pushing t hbusy
      rcases pushAct_cases s.session.ring spurious hbusy with
        ⟨ring, pc, heq, hsame, -, hrun, -⟩ | ⟨ring, a, seq, heq, -, hcas, -⟩ |
          ⟨ring, heq, -⟩
      · rw [heq] at hsession
        have hpc : session.ring.pc = Function.update s.session.ring.pc t pc := by rw [hsession]
        have hgo : session.ring.pc t ≠ .idle := by rw [hpc, Function.update_self]; exact hrun
        simp only [if_neg hgo] at hring ⊢
        refine ⟨hring, h.outside, fun u hu => ?_⟩
        by_cases hut : u = t
        · subst hut
          exact ⟨r, env, hr, by rw [hpc, Function.update_self, hsame, hargs]⟩
        · simp only [hpc, Function.update_of_ne hut] at hu ⊢
          exact h.pushing u hu
      · rw [heq] at hsession
        have hpc : session.ring.pc = Function.update s.session.ring.pc t (.write a seq 0) := by
          rw [hsession]
        have hgo : session.ring.pc t ≠ .idle := by rw [hpc, Function.update_self]; simp
        simp only [if_neg hgo] at hring ⊢
        refine ⟨hring, h.outside, fun u hu => ?_⟩
        by_cases hut : u = t
        · subst hut
          rw [hcas] at hargs
          exact ⟨r, env, hr, by rw [hpc, Function.update_self]; exact hargs⟩
        · simp only [hpc, Function.update_of_ne hut] at hu ⊢
          exact h.pushing u hu
      · rw [heq] at hsession
        have hpc : session.ring.pc = Function.update s.session.ring.pc t .idle := by
          rw [hsession]
        have hback : session.ring.pc t = .idle := by rw [hpc, Function.update_self]
        simp only [if_pos hback] at hring ⊢
        refine ⟨hring, fun u hu => ?_, fun u hu => ?_⟩
        · rw [emitted_hooks hr]
          exact (Function.update_of_ne (by omega) ..).trans (h.outside u hu)
        · rw [emitted_session, hpc] at hu
          have hut : u ≠ t := fun e => hu (by rw [e, Function.update_self])
          have hne : (u : Nat) ≠ t := fun e => hut (Fin.ext e)
          rw [Function.update_of_ne hut] at hu
          obtain ⟨r', env', hr', hargs'⟩ := h.pushing u hu
          refine ⟨r', env', ?_, by rw [emitted_session, hpc, Function.update_of_ne hut, hargs']⟩
          rw [emitted_hooks hr]
          exact (congrArg HookPc.report (Function.update_of_ne hne ..)).trans hr'
  | @loop a act session ha hloop =>
      obtain ⟨hpc, -⟩ := PauseSys.step_producers (PipeAct.session_byLoop ha) hloop
      refine ⟨hring, h.outside, fun u hu => ?_⟩
      simp only [hpc] at hu ⊢
      exact h.pushing u hu

/-! ### The simulation -/

/-- The access of the atomic hooks a step stands for: a call stands for
itself, an access of the real allocator too, and a report is made by the
compare-exchange that wins. -/
def label (s : Pipeline n) : PipeAct n → Option HookAct
  | .call t c => some (.call t c)
  | .access t env =>
      match (s.hooks.pc t).report with
      | some _ => none
      | none => some (.access t env)
  | .push t spurious =>
      match pushStep s.session.ring.ring spurious (s.session.ring.pc t) with
      | .claim _ a _ => some (.access t ⟨a.timestamp, a.usable, none⟩)
      | .run _ _ | .ret _ _ => none
  | .space | .resized _ _ | .update _ | .callDrain | .drain => none

/-- A report made again from what reached the ring is the same report. -/
theorem report_again (r : Report) (t : Nat) (env : HookEnv) :
    r.push t ⟨(r.push t env).timestamp, (r.push t env).usable, none⟩ = r.push t env := by
  simp only [Report.push, hvUsable, min_assoc, min_self]

/-- The atomic picture of a hook that went on outside `hv_ring_push`. -/
theorem atomic_hooks_move {t : Fin n} (hidle : s.session.ring.pc t = .idle) {hooks : HookSys}
    (hother : ∀ u : Nat, u ≠ t → hooks.pc u = s.hooks.pc u) :
    ({ s with hooks := hooks } : Pipeline n).atomic =
      { hooks with
        ring := s.session.ring.claimed
        pc := Function.update s.ahead t (hooks.pc t) } := by
  have hahead := ahead_eq_update s { s with hooks := hooks } hother
    fun _ _ => rfl
  rw [ahead_of_idle (s := { s with hooks := hooks }) hidle] at hahead
  simp only [atomic, hahead]

/-- The atomic picture when only the ring moved. -/
theorem atomic_session (session : PauseSys (Fin n))
    (hclaimed : session.ring.claimed = s.session.ring.claimed)
    (hahead : ({ s with session := session } : Pipeline n).ahead = s.ahead) :
    ({ s with session := session } : Pipeline n).atomic = s.atomic := by
  simp only [atomic, hahead, hclaimed]

theorem follows_call {arena : Nat} {t : Fin n} {c : HookCall} {hooks : HookSys} (h : s.Inv k)
    (hcall : s.hooks.step arena (.call t c) = some hooks) :
    s.atomic.step arena (.call t c) =
      some ({ s with hooks := hooks } : Pipeline n).atomic := by
  have hother := call_elsewhere hcall
  obtain ⟨hidle, hs⟩ := Option.ite_none_right_eq_some.mp hcall
  have hring : s.session.ring.pc t = .idle := h.idle_of_report (by rw [hidle]; rfl)
  rw [atomic_hooks_move hring hother]
  obtain rfl := Option.some.inj hs
  have hat : s.atomic.pc t = .idle := (ahead_of_idle hring).trans hidle
  simp only [HookSys.step, if_pos hat, HookSys.goto, Function.update_self]
  rfl

theorem follows_real {arena : Nat} {t : Fin n} {env : HookEnv} {hooks : HookSys} (h : s.Inv k)
    (hnone : (s.hooks.pc t).report = none)
    (haccess : s.hooks.access arena t env = some hooks) :
    s.atomic.step arena (.access t env) =
      some ({ s with hooks := hooks } : Pipeline n).atomic := by
  have hring := h.idle_of_report hnone
  obtain ⟨hsame, hother⟩ :=
    HookSys.access_elsewhere hnone haccess s.session.ring.claimed (ahead_of_idle hring)
  rw [atomic_hooks_move hring hother]
  exact hsame

/-- The push that wins its number makes the report. -/
theorem follows_claim {arena : Nat} {t : Fin n} {r : Report} {env : HookEnv} {seq : Nat}
    {ring : HvRing} {session : PauseSys (Fin n)} (hr : (s.hooks.pc t).report = some r)
    (hcas : s.session.ring.pc t = .casHead (r.push t env) seq)
    (hsession : session = { s.session with
      ring := { s.session.ring with
        ring := ring
        pc := Function.update s.session.ring.pc t (.write (r.push t env) seq 0)
        claimed := s.session.ring.claimed ++ [r.push t env] } }) :
    s.atomic.step arena (.access t ⟨(r.push t env).timestamp, (r.push t env).usable, none⟩) =
      some ({ s with session := session } : Pipeline n).atomic := by
  have hnot : (s.session.ring.pc t).won ≠ 1 := by rw [hcas]; simp [PushPc.won]
  have hat : (s.atomic.pc t).report = some r :=
    (congrArg HookPc.report (ahead_of_not_won hnot)).trans hr
  have hpc : session.ring.pc =
      Function.update s.session.ring.pc t (.write (r.push t env) seq 0) := by rw [hsession]
  have hwon : (session.ring.pc t).won = 1 := by rw [hpc, Function.update_self]; rfl
  have hahead := ahead_eq_update s { s with session := session } (t := t)
    (fun _ _ => rfl) fun u hu => by simp only [hpc, Function.update_of_ne hu]
  rw [ahead_of_won (s := { s with session := session }) hwon hr] at hahead
  have hclaimed : session.ring.claimed = s.session.ring.claimed ++ [r.push t env] := by
    rw [hsession]
  rw [HookSys.step, HookSys.access_report hat]
  simp only [report_again, HookSys.goto, atomic, hahead, hclaimed]

/-- Every other step of a push is invisible, its return included: the hook
was counted as past the report already. -/
theorem stutter_push {t : Fin n} {spurious : Bool} {session : PauseSys (Fin n)}
    (h : s.Inv k) (hlt : s.session.ring.started < 2 ^ 64) (hbusy : s.session.ring.pc t ≠ .idle)
    (hsession : session = { s.session with ring := s.session.ring.pushAct t spurious })
    (hdropped : session.ring.ring.dropped = 0)
    (hlabel : s.label (.push t spurious) = none) :
    (if session.ring.pc t = .idle then s.emitted t session
      else { s with session := session }).atomic = s.atomic := by
  obtain ⟨r, env, hr, -⟩ := h.pushing t hbusy
  rcases pushAct_cases s.session.ring spurious hbusy with
    ⟨ring, pc, heq, -, hwon, hrun, -⟩ | ⟨ring, a, seq, heq, hclaim, -, -⟩ |
      ⟨ring, heq, hcases⟩
  · rw [heq] at hsession
    have hpc : session.ring.pc = Function.update s.session.ring.pc t pc := by rw [hsession]
    have hgo : session.ring.pc t ≠ .idle := by rw [hpc, Function.update_self]; exact hrun
    rw [if_neg hgo]
    refine atomic_session session (by rw [hsession]) (funext fun u => ?_)
    by_cases hu : u < n
    · by_cases hut : (⟨u, hu⟩ : Fin n) = t
      · simp only [ahead, dif_pos hu, hpc, hut, Function.update_self, hwon]
      · simp only [ahead, dif_pos hu, hpc, Function.update_of_ne hut]
    · simp only [ahead, dif_neg hu]
  · simp only [label, hclaim] at hlabel
    cases hlabel
  · rw [heq] at hsession
    have hpc : session.ring.pc = Function.update s.session.ring.pc t .idle := by rw [hsession]
    have hback : session.ring.pc t = .idle := by rw [hpc, Function.update_self]
    have hdrop : ring.dropped = 0 := by rw [← hdropped, hsession]
    rcases hcases with ⟨hwon, -⟩ | ⟨hcall, -, hbump⟩
    · rw [if_pos hback]
      have hahead := ahead_eq_update s (s.emitted t session) (t := t)
        (fun u hu => by rw [emitted_hooks hr]; exact Function.update_of_ne hu ..)
        (fun u hu => by rw [emitted_session, hpc, Function.update_of_ne hu])
      have hthere : (s.emitted t session).ahead t = s.ahead t := by
        rw [ahead_of_idle (s := s.emitted t session) hback, emitted_hooks hr,
          ahead_of_won hwon hr]
        exact Function.update_self ..
      rw [hthere, Function.update_eq_self] at hahead
      have hclaimed : session.ring.claimed = s.session.ring.claimed := by rw [hsession]
      simp only [atomic, hahead, emitted_session, hclaimed, emitted_hooks hr, HookSys.goto]
    · exact absurd (hbump.symm.trans hdrop) (drop_ne_zero h.ring hlt hcall)

theorem follows {arena : Nat} {a : PipeAct n} (h : s.Inv k) (hgo : s'.Lossless)
    (hstep : s.step arena a = some s') :
    match s.label a with
    | some b => s.atomic.step arena b = some s'.atomic
    | none => s'.atomic = s.atomic := by
  have hdid := step_did hstep
  have hlt := Nat.lt_of_le_of_lt (hdid.counters fun _ => h.ring).2.1 hgo.2
  cases hdid with
  | call hcall => exact follows_call h hcall
  | real hnone haccess =>
      simp only [label, hnone]
      exact follows_real h hnone haccess
  | @emit t env r session hr hidle hsession =>
      simp only [label, hr]
      refine atomic_session session (by rw [hsession]) ?_
      have hpc : session.ring.pc =
          Function.update s.session.ring.pc t (.loadHead (r.push t env)) := by rw [hsession]
      have hahead := ahead_eq_update s { s with session := session } (t := t)
        (fun _ _ => rfl) fun u hu => by simp only [hpc, Function.update_of_ne hu]
      have hnot : (session.ring.pc t).won ≠ 1 := by
        rw [hpc, Function.update_self]
        simp [PushPc.won]
      rw [ahead_of_not_won (s := { s with session := session }) hnot,
        ← ahead_of_idle hidle, Function.update_eq_self] at hahead
      exact hahead
  | @push t spurious session hbusy hsession =>
      cases hlabel : s.label (.push t spurious) with
      | none =>
          have hdropped := hgo.1
          simp only [push_session] at hdropped
          exact stutter_push h hlt hbusy hsession hdropped hlabel
      | some b =>
          obtain ⟨r, env, hr, hargs⟩ := h.pushing t hbusy
          cases hpush : pushStep s.session.ring.ring spurious (s.session.ring.pc t) with
          | claim ring a seq =>
              obtain ⟨hcas, -⟩ := pushStep_claim hpush
              rw [hcas] at hargs
              obtain rfl := Option.some.inj hargs
              simp only [label, hpush] at hlabel
              obtain rfl := Option.some.inj hlabel
              have hact : s.session.ring.pushAct t spurious =
                  { s.session.ring with
                    ring := ring
                    pc := Function.update s.session.ring.pc t (.write (r.push t env) seq 0)
                    claimed := s.session.ring.claimed ++ [r.push t env] } := by
                unfold RingSys.pushAct
                rw [hpush]
              rw [hact] at hsession
              have hwrite : session.ring.pc t ≠ .idle := by
                simp only [hsession, Function.update_self]
                simp
              rw [if_neg hwrite]
              exact follows_claim hr hcas hsession
          | run ring pc => simp only [label, hpush] at hlabel; cases hlabel
          | ret ring landed => simp only [label, hpush] at hlabel; cases hlabel
  | @loop a act session ha hloop =>
      have hnone : s.label a = none := by
        cases a with
        | call t c => cases ha
        | access t env => cases ha
        | push t spurious => cases ha
        | _ => rfl
      obtain ⟨hpc, hclaimed, -⟩ := PauseSys.step_producers (PipeAct.session_byLoop ha) hloop
      simp only [hnone]
      refine atomic_session session hclaimed (funext fun u => ?_)
      simp only [ahead, hpc]

/-- **The hooks are atomic.** While nothing is dropped, whatever the
threads do inside `hv_ring_push` and whatever the session does meanwhile,
the target and the ring behave as the atomic hooks do. -/
def simulation (arena k : Nat) :
    Run.Simulation (step (n := n) arena) (HookSys.step arena) (Inv k)
      (Run.Into (step arena) Lossless) where
  abs := atomic
  label := label
  keeps := fun _ _ s' h hgo hstep => h.step (hgo s' hstep).2 hstep
  follows := fun s a s' h hgo hstep => by
    have hfollows := follows h (hgo s' hstep) hstep
    cases hlabel : s.label a with
    | some b => rw [hlabel] at hfollows; exact hfollows
    | none => rw [hlabel] at hfollows; exact hfollows

/-- A well-behaved target is one for the atomic hooks. -/
theorem label_disciplined {arena : Nat} {a : PipeAct n} {b : HookAct}
    (hd : s.Disciplined arena a) (hb : s.label a = some b) :
    Heapviz.Disciplined arena s.atomic b := by
  cases a with
  | call t c =>
      obtain rfl := Option.some.inj hb
      cases c with
      | _ => exact hd
  | access t env =>
      simp only [label] at hb
      cases hr : (s.hooks.pc t).report with
      | some r => rw [hr] at hb; cases hb
      | none => rw [hr] at hb; obtain rfl := Option.some.inj hb; trivial
  | push t spurious =>
      simp only [label] at hb
      split at hb
      · obtain rfl := Option.some.inj hb; trivial
      · cases hb
      · cases hb
  | _ => cases hb

/-- NULL from the real `realloc` says what its hook takes it to say. -/
def Told (s : Pipeline n) : PipeAct n → Bool
  | .access t env => reallocTold s.hooks (.access t env)
  | _ => true

/-- No report is made at the real `realloc`. -/
theorem reallocTold_report {m : HookSys} {t : Nat} {env : HookEnv} {r : Report}
    (hr : (m.pc t).report = some r) : reallocTold m (.access t env) = true := by
  simp only [reallocTold]
  split
  · rename_i hpc _
    rw [hpc] at hr
    cases hr
  · rfl

theorem label_told {a : PipeAct n} {b : HookAct} (h : s.Inv k) (hg : s.Told a = true)
    (hb : s.label a = some b) : reallocTold s.atomic b = true := by
  cases a with
  | call t c =>
      obtain rfl := Option.some.inj hb
      rfl
  | access t env =>
      simp only [label] at hb
      cases hr : (s.hooks.pc t).report with
      | some r => rw [hr] at hb; cases hb
      | none =>
          rw [hr] at hb
          obtain rfl := Option.some.inj hb
          have hat : s.atomic.pc t = s.hooks.pc t := ahead_of_idle (h.idle_of_report hr)
          simp only [Told, reallocTold] at hg
          simp only [reallocTold, hat]
          exact hg
  | push t spurious =>
      simp only [label] at hb
      cases hpush : pushStep s.session.ring.ring spurious (s.session.ring.pc t) with
      | claim ring e seq =>
          rw [hpush] at hb
          obtain rfl := Option.some.inj hb
          obtain ⟨hcas, -⟩ := pushStep_claim hpush
          obtain ⟨r, env, hr, -⟩ := h.pushing t (by rw [hcas]; simp)
          have hnot : (s.session.ring.pc t).won ≠ 1 := by rw [hcas]; simp [PushPc.won]
          exact reallocTold_report ((congrArg HookPc.report (ahead_of_not_won hnot)).trans hr)
      | run ring pc => rw [hpush] at hb; cases hb
      | ret ring landed => rw [hpush] at hb; cases hb
  | _ => cases hb

theorem atomic_init (n capacity : Nat) (app : HeapApp) :
    (Pipeline.init n capacity app).atomic = HookSys.init := by
  have hahead : (Pipeline.init n capacity app).ahead = fun _ => .idle := by
    funext t
    unfold ahead
    split_ifs <;> rfl
  simp only [atomic, hahead]
  rfl

/-- A run without drops, as a run of the atomic hooks. Whatever condition comes
down with the labels comes down with the run. -/
theorem atomic_run {arena : Nat} {app : HeapApp} {acts : List (PipeAct n)} (hk : k < 64)
    (hrun : Run.run (step arena) (Pipeline.init n (2 ^ k) app) acts = some s)
    (hend : s.Lossless) :
    s.Inv k ∧ ∃ bs, Run.run (HookSys.step arena) HookSys.init bs = some s.atomic ∧
      ∀ (H : Pipeline n → PipeAct n → Prop) (G : HookSys → HookAct → Prop),
        (∀ s a b, s.Inv k → H s a → s.label a = some b → G s.atomic b) →
        Run.Guarded (step arena) H (Pipeline.init n (2 ^ k) app) acts →
          Run.Guarded (HookSys.step arena) G HookSys.init bs := by
  have h0 : (Pipeline.init n (2 ^ k) app).Inv k := Inv.init hk app
  obtain ⟨-, hguard⟩ := lossless_of_end (fun _ => h0.ring) hrun hend
  refine ⟨(simulation arena k).invariant h0 hguard hrun,
    (simulation arena k).trace (Pipeline.init n (2 ^ k) app) acts, ?_⟩
  rw [← atomic_init n (2 ^ k) app]
  exact ⟨(simulation arena k).run h0 hguard hrun, fun H G hdown hH =>
    (simulation arena k).guarded hdown h0 hguard hH hrun⟩

end Pipeline

section Refinement

variable {n k arena : Nat} {app : HeapApp} {acts : List (PipeAct n)} {s : Pipeline n}

/-- **The ring is transparent.** In every run in which no push was turned away -
any number of threads inside `hv_ring_push`, the session draining, paused or
resized at any point - the target did what atomic hooks do. Their ring is the
order of the sequence numbers, their blocks are the allocator's, and a thread
that is not inside `hv_ring_push` is where it is. If the target was well-behaved,
so is that run. -/
theorem pipeline_atomic (hk : k < 64)
    (hrun : Run.run (Pipeline.step arena) (Pipeline.init n (2 ^ k) app) acts = some s)
    (hend : s.Lossless) :
    ∃ bs m, Run.run (HookSys.step arena) HookSys.init bs = some m ∧
      m.ring = s.session.ring.claimed ∧ m.blocks = s.hooks.blocks ∧ m.held = s.hooks.held ∧
      (∀ t, s.session.ring.pc t = .idle → m.pc t = s.hooks.pc t) ∧
      (Run.Guarded (Pipeline.step arena) (Pipeline.Disciplined arena)
          (Pipeline.init n (2 ^ k) app) acts →
        Run.Guarded (HookSys.step arena) (Disciplined arena) HookSys.init bs) := by
  obtain ⟨-, bs, hm, hguards⟩ := Pipeline.atomic_run hk hrun hend
  exact ⟨bs, s.atomic, hm, rfl, rfl, rfl, fun t => Pipeline.ahead_of_idle,
    hguards _ _ fun _ _ _ _ => Pipeline.label_disciplined⟩

end Refinement

/-- The two threads go on inside their pushes, in turn. -/
def inTurn {n : Nat} (i j : Fin n) (k : Nat) : List (PipeAct n) :=
  (List.replicate k [PipeAct.push i false, .push j false]).flatten

/-- Both threads allocate, and race for the first sequence number. -/
def bothAllocate {n : Nat} (i j : Fin n) : List (PipeAct n) :=
  [.call i (.malloc 24), .call j (.malloc 40), .access j ⟨1, 40, some 8192⟩,
    .access i ⟨2, 24, some 4096⟩, .access i ⟨3, 24, none⟩, .access j ⟨4, 40, none⟩] ++
  inTurn i j 12 ++ List.replicate 3 (.push j false) ++
  [.access i ⟨5, 24, none⟩, .access j ⟨6, 40, none⟩]

/-- The second thread frees the block of the first. -/
def otherFrees {n : Nat} (j : Fin n) : List (PipeAct n) :=
  [.call j (.free 4096), .access j ⟨7, 0, none⟩] ++ List.replicate 12 (.push j false) ++
    [.access j ⟨8, 0, none⟩, .access j ⟨9, 0, none⟩]

theorem pipeline_atomic_threads : ∃ s : Pipeline 2,
    Run.run (Pipeline.step 65536) (Pipeline.init 2 (2 ^ 4) (HeapApp.new true true 0))
        (bothAllocate 0 1 ++ otherFrees 1) = some s ∧
      ∃ bs m, Run.run (HookSys.step 65536) HookSys.init bs = some m ∧
        m.ring = [⟨3, 4096, 24, 24, 0, 0⟩, ⟨4, 8192, 40, 40, 1, 0⟩, ⟨7, 4096, 0, 0, 1, 1⟩] ∧
        m.blocks 4096 = none ∧ m.blocks 8192 = some 40 ∧ m.pc 0 = .idle ∧ m.pc 1 = .idle := by
  have hring : (Run.run (Pipeline.step 65536)
      (Pipeline.init 2 (2 ^ 4) (HeapApp.new true true 0)) (bothAllocate 0 1 ++ otherFrees 1)).map
        (fun s => (s.session.ring.claimed, s.session.ring.pc 0, s.session.ring.pc 1,
          s.session.ring.ring.dropped, s.session.ring.started)) =
      some ([⟨3, 4096, 24, 24, 0, 0⟩, ⟨4, 8192, 40, 40, 1, 0⟩, ⟨7, 4096, 0, 0, 1, 1⟩],
        .idle, .idle, 0, 3) := by decide +kernel
  have hhooks : (Run.run (Pipeline.step 65536)
      (Pipeline.init 2 (2 ^ 4) (HeapApp.new true true 0)) (bothAllocate 0 1 ++ otherFrees 1)).map
        (fun s => (s.hooks.blocks 4096, s.hooks.blocks 8192, s.hooks.pc 0, s.hooks.pc 1)) =
      some (none, some 40, .idle, .idle) := by decide +kernel
  obtain ⟨s, hrun, hval⟩ := Option.map_eq_some_iff.mp hring
  rw [hrun, Option.map_some] at hhooks
  simp only [Prod.mk.injEq, Option.some.injEq] at hval hhooks
  obtain ⟨hclaimed, hring0, hring1, hdropped, hstarted⟩ := hval
  obtain ⟨hfreed, hblock, hpc0, hpc1⟩ := hhooks
  obtain ⟨bs, m, hm, hmring, hmblocks, -, hmpc, -⟩ := @pipeline_atomic 2 4 65536 _ _ _ (by decide)
    hrun ⟨hdropped, by rw [hstarted]; decide⟩
  exact ⟨s, hrun, bs, m, hm, hmring.trans hclaimed, by rw [hmblocks, hfreed],
    by rw [hmblocks, hblock], (hmpc 0 hring0).trans hpc0, (hmpc 1 hring1).trans hpc1⟩

end Heapviz
