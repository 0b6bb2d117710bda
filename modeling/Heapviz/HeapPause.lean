import Heapviz.RingSafety
import Heapviz.HeapRun

/-!
# Pausing loses nothing

While the display is paused the ring is still drained, into a staging
area; afterwards the backlog is replayed, at most a frame's budget at a
time, and only when it is gone does a call of `drain` read the ring for
the model again. The user can pause in the middle of that, and producers
push all along.

`PauseSys` puts the session on the ring of `RingSys`, with a call of
`drain` taken apart at its accesses of the ring. What has been applied,
what is staged and what the ring still holds are three parts of one
sequence, the events in the order of their sequence numbers. Two facts
carry that through every schedule: a call that takes from the ring for
the model has found the staging area empty, and one that stages appends
behind what is there.
-/

namespace Heapviz

/-! ## What a call of `drain` does to the session -/

/-- A session without its staging area, its event counter and the pause: the
part events are applied to. -/
def HeapApp.model (a : HeapApp) : HeapApp :=
  { a with staged := [], stagedHead := 0, events := 0, paused := false, helpVisible := false }

/-- The staged events a call replays. -/
def HeapApp.replayed (a : HeapApp) : List HvEvent :=
  if a.attached = false ∨ a.paused then [] else (a.staged.drop a.stagedHead).take kMaxEventsPerFrame

/-- What a call does with the events the ring gave it. -/
def HeapApp.DrainPlan.applies (batch : List HvEvent) : HeapApp.DrainPlan → List HvEvent
  | .take _ _ => batch
  | .done _ | .stage => []

section Session

variable {a : HeapApp}

theorem HeapApp.model_applyEvent (a : HeapApp) (e : HvEvent) :
    (a.applyEvent e).model = a.model.applyEvent e := by
  unfold HeapApp.applyEvent
  dsimp only [HeapApp.model]
  split
  · split <;> rfl
  · rfl

theorem HeapApp.model_apply (a : HeapApp) (es : List HvEvent) :
    (a.apply es).model = a.model.apply es := by
  induction es generalizing a with
  | nil => rfl
  | cons e es ih => exact (ih (a.applyEvent e)).trans (by rw [a.model_applyEvent e]; rfl)

/-- Events change neither the staging area nor the counter. -/
theorem HeapApp.apply_staging (a : HeapApp) (es : List HvEvent) :
    (a.apply es).staged = a.staged ∧ (a.apply es).stagedHead = a.stagedHead ∧
      (a.apply es).events = a.events := by
  refine HeapApp.apply_induction (P := fun b => b.staged = a.staged ∧
    b.stagedHead = a.stagedHead ∧ b.events = a.events) (fun b e hb => ?_) es ⟨rfl, rfl, rfl⟩
  unfold HeapApp.applyEvent
  dsimp only
  split
  · split <;> exact hb
  · exact hb

/-- Replaying takes the events it applies off the front of the backlog. -/
theorem HeapApp.replay_spec (hle : a.stagedHead ≤ a.staged.length) :
    a.replay.2 = ((a.staged.drop a.stagedHead).take kMaxEventsPerFrame).length ∧
      a.replay.1.model =
        (a.apply ((a.staged.drop a.stagedHead).take kMaxEventsPerFrame)).model ∧
      a.replay.1.events = a.events ∧
      a.replay.1.staged.drop a.replay.1.stagedHead =
        (a.staged.drop a.stagedHead).drop kMaxEventsPerFrame ∧
      a.replay.1.stagedHead ≤ a.replay.1.staged.length := by
  have hlen : (a.staged.drop a.stagedHead).length = a.staged.length - a.stagedHead :=
    List.length_drop
  have htake : (a.staged.drop a.stagedHead).take
      (min (a.staged.length - a.stagedHead) kMaxEventsPerFrame) =
        (a.staged.drop a.stagedHead).take kMaxEventsPerFrame := by
    rw [← hlen, ← List.take_take, List.take_of_length_le (List.length_take_le' ..)]
  have hdrop : a.staged.drop
      (a.stagedHead + min (a.staged.length - a.stagedHead) kMaxEventsPerFrame) =
        (a.staged.drop a.stagedHead).drop kMaxEventsPerFrame := by
    rw [← List.drop_drop, ← hlen]
    rcases Nat.le_total (a.staged.drop a.stagedHead).length kMaxEventsPerFrame with hle' | hle'
    · rw [Nat.min_eq_left hle', List.drop_length, List.drop_of_length_le hle']
    · rw [Nat.min_eq_right hle']
  obtain ⟨hstaged, -, hevents⟩ :=
    a.apply_staging ((a.staged.drop a.stagedHead).take kMaxEventsPerFrame)
  unfold HeapApp.replay
  dsimp only
  rw [htake]
  split_ifs with hwait hall
  · have hnil : a.staged.drop a.stagedHead = [] := List.drop_eq_nil_iff.mpr (by omega)
    rw [hnil]
    exact ⟨rfl, rfl, rfl, List.drop_nil.symm, hle⟩
  · refine ⟨by rw [List.length_take, hlen, Nat.min_comm], rfl, hevents, ?_, Nat.le_refl 0⟩
    rw [← hdrop, hall, List.drop_length]
    rfl
  · refine ⟨by rw [List.length_take, hlen, Nat.min_comm], rfl, hevents, ?_, ?_⟩
    · rw [hstaged]
      exact hdrop
    · rw [hstaged]
      change a.stagedHead + _ ≤ a.staged.length
      omega

/-! ## The rest of a frame -/

/-- Outside `drain`, nothing touches the staging area. -/
def HeapApp.SameStaging (a b : HeapApp) : Prop :=
  b.staged = a.staged ∧ b.stagedHead = a.stagedHead

theorem HeapApp.refit_staging (a : HeapApp) : a.SameStaging a.refit := by
  cases hvalid : a.fitted.valid with
  | false => rw [HeapApp.refit_invalid hvalid]; exact ⟨rfl, rfl⟩
  | true =>
      cases hsame : a.map.sameGeometry a.fitted with
      | true => rw [HeapApp.refit_same hvalid hsame]; exact ⟨rfl, rfl⟩
      | false => rw [HeapApp.refit_moved hvalid hsame]; exact ⟨rfl, rfl⟩

theorem HeapApp.enrich_staging (a : HeapApp) (reply : HeapApp.ReaderReply) :
    a.SameStaging (a.enrich reply) := by
  refine HeapApp.enrich_induction reply (fun _ _ _ => ⟨rfl, rfl⟩) ?_
  intro b c info hb
  unfold HeapApp.foldHeader
  split_ifs <;> exact hb

theorem HeapApp.resized_staging (a : HeapApp) (w h : Int) : a.SameStaging (a.resized w h) := by
  unfold HeapApp.resized
  dsimp only
  split_ifs
  · exact ⟨rfl, rfl⟩
  · exact HeapApp.refit_staging _

theorem HeapApp.update_staging (a : HeapApp) (env : HeapApp.UpdateEnv) :
    a.SameStaging (a.update env) := by
  have hscan : a.SameStaging ((a.tick env).rescan env).1 := by
    have htick : a.SameStaging (a.tick env) := by
      unfold HeapApp.tick
      dsimp only
      split_ifs <;> exact ⟨rfl, rfl⟩
    unfold HeapApp.rescan
    split_ifs
    · exact htick
    · exact htick
  have hfit : a.SameStaging ((a.tick env).rescan env).1.refitDirty := by
    unfold HeapApp.refitDirty
    split_ifs
    · exact ⟨(HeapApp.refit_staging _).1.trans hscan.1, (HeapApp.refit_staging _).2.trans hscan.2⟩
    · exact hscan
  unfold HeapApp.update
  split_ifs
  · exact ⟨rfl, rfl⟩
  · exact ⟨(HeapApp.enrich_staging _ _).1.trans hfit.1, (HeapApp.enrich_staging _ _).2.trans hfit.2⟩

end Session

/-! ## The session on its ring -/

/-- A finished call of `drain`: the states around it, the events it applied
and what it returned. -/
structure DrainCall where
  before : HeapApp
  applied : List HvEvent
  after : HeapApp
  ret : Nat

/-- A call that is reading the ring, with what it has applied so far. -/
structure OpenDrain where
  plan : HeapApp.DrainPlan
  before : HeapApp
  applied : List HvEvent

/-- The session and the ring it is attached to. `calls` is history. -/
structure PauseSys (P : Type) where
  ring : RingSys P
  app : HeapApp
  pending : Option OpenDrain
  calls : List DrainCall

def PauseSys.init (P : Type) (capacity : Nat) (app : HeapApp) : PauseSys P :=
  ⟨RingSys.init P capacity, app, none, []⟩

/-- Every event applied to the model so far, in the order it was applied. -/
def PauseSys.applied {P : Type} (s : PauseSys P) : List HvEvent :=
  s.calls.flatMap DrainCall.applied ++ (s.pending.map OpenDrain.applied).getD []

/-- A scheduling decision: a producer makes a call or performs its next
access, the session's loop delivers a key, a resize or a frame, or a call
of `drain` begins or performs its next access of the ring. -/
inductive PauseAct (P : Type) where
  | callPush (p : P) (a : HvPush)
  | push (p : P) (spurious : Bool)
  | space
  | resized (w h : Int)
  | update (env : HeapApp.UpdateEnv)
  | callDrain
  | drain

section Step

variable {P : Type} [DecidableEq P]

/-- `drain` up to its first access of the ring; a call that wants nothing
from it returns at once. -/
def PauseSys.callDrain (s : PauseSys P) : Option (PauseSys P) :=
  let (app, plan) := s.app.drainPlan
  if plan.request = 0 then
    let (after, ret) := app.drainFinish [] plan
    some { s with app := after, calls := s.calls ++ [⟨s.app, s.app.replayed, after, ret⟩] }
  else
    (s.ring.step (.callDrain plan.request)).map fun ring =>
      { s with ring := ring, app := app, pending := some ⟨plan, s.app, s.app.replayed⟩ }

/-- The next access of the ring; the last one finishes the call. -/
def PauseSys.drainAct (s : PauseSys P) (o : OpenDrain) : PauseSys P :=
  match drainStep s.ring.ring s.ring.cons with
  | .run _ _ => { s with ring := s.ring.drainAct }
  | .ret _ out =>
      let (after, ret) := s.app.drainFinish out o.plan
      { s with
        ring := s.ring.drainAct
        app := after
        pending := none
        calls := s.calls ++ [⟨o.before, o.applied ++ o.plan.applies out, after, ret⟩] }

/-- One step of session and producers; `none` when the party is not at a
point where it could do that. The session's loop is one thread: keys,
resizes and frames come between calls of `drain`. -/
def PauseSys.step (s : PauseSys P) : PauseAct P → Option (PauseSys P)
  | .callPush p a => (s.ring.step (.callPush p a)).map fun ring => { s with ring := ring }
  | .push p spurious => (s.ring.step (.push p spurious)).map fun ring => { s with ring := ring }
  | .space => if s.pending.isNone then some { s with app := s.app.keySpace } else none
  | .resized w h => if s.pending.isNone then some { s with app := s.app.resized w h } else none
  | .update env => if s.pending.isNone then some { s with app := s.app.update env } else none
  | .callDrain => if s.pending.isNone then s.callDrain else none
  | .drain => s.pending.map s.drainAct

end Step

/-! ## One call -/

/-- What a finished call has done: its events are applied, counted and
returned, a frame's budget at most, and none while paused. -/
structure DrainCall.Sound (c : DrainCall) : Prop where
  model : c.after.model = (c.before.apply c.applied).model
  budget : c.applied.length ≤ kMaxEventsPerFrame
  events : c.after.events = c.before.events + c.applied.length
  ret : c.ret = c.applied.length
  frozen : c.before.paused = true → c.applied = []

/-- What is known of a call in progress: either it is only staging, or it
found nothing left in the staging area. -/
def OpenDrain.Sound (o : OpenDrain) (a : HeapApp) : Prop :=
  match o.plan with
  | .done _ => False
  | .stage => o.before.paused = true ∧ o.applied = [] ∧ a = o.before
  | .take n room =>
      o.before.paused = false ∧ n = o.applied.length ∧ n + room = kMaxEventsPerFrame ∧
        a.staged = [] ∧ a.model = (o.before.apply o.applied).model ∧ a.events = o.before.events

section Call

variable {a : HeapApp}

/-- Before the ring is read, the backlog has lost what was replayed. -/
theorem HeapApp.drainPlan_staging (hle : a.stagedHead ≤ a.staged.length) :
    a.replayed ++ a.drainPlan.1.staged.drop a.drainPlan.1.stagedHead =
        a.staged.drop a.stagedHead ∧
      a.drainPlan.1.stagedHead ≤ a.drainPlan.1.staged.length := by
  obtain ⟨-, -, -, hdrop, hle'⟩ := HeapApp.replay_spec hle
  unfold HeapApp.replayed HeapApp.drainPlan
  by_cases hatt : a.attached = false
  · rw [if_pos hatt, if_pos (.inl hatt)]
    exact ⟨rfl, hle⟩
  · by_cases hp : a.paused = true
    · rw [if_neg hatt, if_pos hp, if_pos (.inr hp)]
      exact ⟨rfl, hle⟩
    · rw [if_neg hatt, if_neg hp, if_neg (by tauto)]
      have hsplit := List.take_append_drop kMaxEventsPerFrame (a.staged.drop a.stagedHead)
      rw [← hdrop] at hsplit
      dsimp only
      split_ifs
      · exact ⟨hsplit, hle'⟩
      · exact ⟨hsplit, hle'⟩

theorem HeapApp.drainPlan_sound (hle : a.stagedHead ≤ a.staged.length) :
    (∃ n, a.drainPlan.2 = .done n ∧ (DrainCall.mk a a.replayed a.drainPlan.1 n).Sound) ∨
      (0 < a.drainPlan.2.request ∧
        (OpenDrain.mk a.drainPlan.2 a a.replayed).Sound a.drainPlan.1) := by
  obtain ⟨hcount, hmodel, hevents, -, -⟩ := HeapApp.replay_spec hle
  unfold HeapApp.replayed HeapApp.drainPlan
  by_cases hatt : a.attached = false
  · rw [if_pos hatt, if_pos (.inl hatt)]
    exact .inl ⟨0, rfl, rfl, Nat.zero_le _, rfl, rfl, fun _ => rfl⟩
  · by_cases hp : a.paused = true
    · rw [if_neg hatt, if_pos hp, if_pos (.inr hp)]
      exact .inr ⟨Nat.zero_lt_succ _, hp, rfl, rfl⟩
    · rw [if_neg hatt, if_neg hp, if_neg (by tauto)]
      have hbudget : a.replay.2 ≤ kMaxEventsPerFrame := by
        rw [hcount]
        exact List.length_take_le ..
      dsimp only
      split_ifs with hroom
      · refine .inr ⟨Nat.sub_pos_of_lt hroom.1, Bool.eq_false_iff.mpr hp, hcount, ?_, hroom.2,
          hmodel, hevents⟩
        omega
      · refine .inl ⟨a.replay.2, rfl, hmodel, hcount ▸ hbudget, ?_, hcount, fun h => absurd h hp⟩
        dsimp only
        rw [hevents, hcount]

/-- The rest of the call, with what the ring gave. -/
theorem OpenDrain.Sound.finish {o : OpenDrain} (h : o.Sound a)
    (hle : a.stagedHead ≤ a.staged.length) {out : List HvEvent}
    (hlen : out.length ≤ o.plan.request) :
    (DrainCall.mk o.before (o.applied ++ o.plan.applies out) (a.drainFinish out o.plan).1
        (a.drainFinish out o.plan).2).Sound ∧
      o.plan.applies out ++
          (a.drainFinish out o.plan).1.staged.drop (a.drainFinish out o.plan).1.stagedHead =
        a.staged.drop a.stagedHead ++ out ∧
      (a.drainFinish out o.plan).1.stagedHead ≤ (a.drainFinish out o.plan).1.staged.length := by
  obtain ⟨plan, before, applied⟩ := o
  cases plan with
  | done n => exact h.elim
  | stage =>
      obtain ⟨hp, rfl, rfl⟩ := h
      refine ⟨⟨rfl, Nat.zero_le _, rfl, rfl, fun _ => rfl⟩, ?_, ?_⟩
      · exact (List.drop_append_of_le_length hle).symm ▸ rfl
      · exact hle.trans (List.length_append ▸ Nat.le_add_right ..)
  | take n room =>
      obtain ⟨hp, hn, hroom, hempty, hmodel, hevents⟩ := h
      obtain ⟨hstaged, hhead, hev⟩ := a.apply_staging out
      have hlen' : out.length ≤ room := hlen
      dsimp only at hp hn hmodel hevents
      simp only [HeapApp.drainFinish, HeapApp.DrainPlan.applies]
      refine ⟨⟨?_, ?_, ?_, ?_, ?_⟩, ?_, ?_⟩
      · calc (a.apply out).model = a.model.apply out := a.model_apply out
          _ = (before.apply applied).model.apply out := by rw [hmodel]
          _ = ((before.apply applied).apply out).model :=
              ((before.apply applied).model_apply out).symm
          _ = (before.apply (applied ++ out)).model := by
            rw [HeapApp.apply, HeapApp.apply, HeapApp.apply, List.foldl_append]
      · dsimp only
        rw [List.length_append]
        omega
      · dsimp only
        rw [hev, hevents, hn, List.length_append]
      · dsimp only
        rw [hn, List.length_append]
      · intro h
        rw [hp] at h
        cases h
      · rw [hstaged, hempty, List.drop_nil, List.drop_nil, List.append_nil, List.nil_append]
      · rw [hstaged, hhead]
        exact hle

end Call

/-! ## The reader's budget -/

/-- The consumer was asked for `max` events and has not copied more. -/
def DrainPc.Within (max : Nat) : DrainPc → Prop
  | .idle => True
  | .loadTail m => m = max
  | .loadHead m _ => m = max
  | .scan m _ _ out => m = max ∧ out.length ≤ max
  | .copy m _ _ out _ _ _ => m = max ∧ out.length < max
  | .finish _ out => out.length ≤ max

theorem drainStep_within {r : HvRing} {pc : DrainPc} {max : Nat} (h : pc.Within max)
    (hbusy : pc ≠ .idle) :
    (∃ r' pc', drainStep r pc = .run r' pc' ∧ pc'.Within max ∧ pc' ≠ .idle) ∨
      ∃ r' out, drainStep r pc = .ret r' out ∧ out.length ≤ max := by
  cases pc with
  | idle => exact absurd rfl hbusy
  | loadTail m => exact .inl ⟨_, _, rfl, h, by simp⟩
  | loadHead m tail => exact .inl ⟨_, _, rfl, ⟨h, Nat.zero_le _⟩, by simp⟩
  | scan m tail head out =>
      obtain ⟨rfl, hle⟩ := h
      refine .inl ?_
      simp only [drainStep]
      split_ifs with hmore
      · exact ⟨_, _, rfl, hle, by simp⟩
      · exact ⟨_, _, rfl, hle, by simp⟩
      · exact ⟨_, _, rfl, ⟨rfl, hmore.1⟩, by simp⟩
      · exact ⟨_, _, rfl, hle, by simp⟩
  | copy m tail head out op next e =>
      obtain ⟨rfl, hlt⟩ := h
      refine .inl ?_
      simp only [drainStep]
      cases fieldOrder[next]? with
      | some f => exact ⟨_, _, rfl, ⟨rfl, hlt⟩, by simp⟩
      | none =>
          refine ⟨_, _, rfl, ⟨rfl, ?_⟩, by simp⟩
          rw [List.length_append]
          exact hlt
  | finish tail out =>
      refine .inr ?_
      simp only [drainStep]
      split_ifs
      · exact ⟨_, out, rfl, h⟩
      · exact ⟨_, out, rfl, h⟩

/-! ## The invariant -/

section Inv

variable {P : Type} [DecidableEq P] {capacity : Nat} {s s' : PauseSys P}

/-- What holds of session and ring under every schedule. -/
structure PauseInv (capacity : Nat) (s : PauseSys P) : Prop where
  ring : RingSys.Reachable capacity s.ring
  order : s.applied ++ s.app.staged.drop s.app.stagedHead = s.ring.drained
  staging : s.app.stagedHead ≤ s.app.staged.length
  closed : s.pending = none → s.ring.cons = .idle
  opened : ∀ o, s.pending = some o →
    o.Sound s.app ∧ s.ring.cons.Within o.plan.request ∧ s.ring.cons ≠ .idle
  calls : ∀ c ∈ s.calls, c.Sound

theorem RingSys.Reachable.step {r r' : RingSys P} (h : RingSys.Reachable capacity r)
    {act : RingAct P} (hstep : r.step act = some r') : RingSys.Reachable capacity r' := by
  obtain ⟨acts, hrun⟩ := h
  exact ⟨acts ++ [act], Run.run_concat.mpr ⟨r, hrun, hstep⟩⟩

theorem PauseInv.init (attached unicode : Bool) (originNs : Nat) :
    PauseInv capacity (PauseSys.init P capacity (HeapApp.new attached unicode originNs)) where
  ring := ⟨[], rfl⟩
  order := rfl
  staging := Nat.le_refl 0
  closed := fun _ => rfl
  opened := fun _ ho => by cases ho
  calls := fun _ hc => by cases hc

/-- Producers do not move the consumer's side. -/
theorem RingSys.pushAct_cons (r : RingSys P) (p : P) (spurious : Bool) :
    (r.pushAct p spurious).drained = r.drained ∧ (r.pushAct p spurious).cons = r.cons := by
  unfold RingSys.pushAct
  split <;> exact ⟨rfl, rfl⟩

theorem PauseInv.producer (h : PauseInv capacity s) {act : RingAct P} {ring : RingSys P}
    (hstep : s.ring.step act = some ring) (hdrained : ring.drained = s.ring.drained)
    (hcons : ring.cons = s.ring.cons) : PauseInv capacity { s with ring := ring } where
  ring := h.ring.step hstep
  order := h.order.trans hdrained.symm
  staging := h.staging
  closed := fun hp => hcons.trans (h.closed hp)
  opened := fun o ho => by rw [hcons]; exact h.opened o ho
  calls := h.calls

/-- The session's other work between two calls. -/
theorem PauseInv.frame (h : PauseInv capacity s) (hidle : s.pending = none) {app : HeapApp}
    (hsame : s.app.SameStaging app) : PauseInv capacity { s with app := app } where
  ring := h.ring
  order := by
    dsimp only [PauseSys.applied]
    rw [hsame.1, hsame.2]
    exact h.order
  staging := by
    dsimp only
    rw [hsame.1, hsame.2]
    exact h.staging
  closed := h.closed
  opened := fun o ho => absurd (hidle.symm.trans ho) (by simp)
  calls := h.calls

theorem PauseInv.callDrain (h : PauseInv capacity s) (hidle : s.pending = none)
    (hstep : s.callDrain = some s') : PauseInv capacity s' := by
  have horder : s.calls.flatMap DrainCall.applied ++ s.app.staged.drop s.app.stagedHead =
      s.ring.drained := by
    have := h.order
    simpa [PauseSys.applied, hidle] using this
  obtain ⟨hkeep, hle⟩ := HeapApp.drainPlan_staging h.staging
  have hsound := HeapApp.drainPlan_sound h.staging
  unfold PauseSys.callDrain at hstep
  cases hd : s.app.drainPlan with
  | mk app plan =>
      rw [hd] at hkeep hle hsound
      simp only [hd] at hstep
      rcases hsound with ⟨n, rfl, hcall⟩ | ⟨hreq, hopen⟩
      · simp only [HeapApp.DrainPlan.request, if_true, HeapApp.drainFinish] at hstep
        obtain rfl := Option.some.inj hstep
        refine ⟨h.ring, ?_, hle, h.closed, ?_, ?_⟩
        · simp only [PauseSys.applied, hidle, Option.map_none, Option.getD_none, List.append_nil,
            List.flatMap_append, List.flatMap_singleton]
          rw [List.append_assoc, hkeep]
          exact horder
        · intro o ho
          rw [hidle] at ho
          cases ho
        · intro c hc
          rcases List.mem_append.mp hc with hc | hc
          · exact h.calls c hc
          · rw [List.mem_singleton.mp hc]
            exact hcall
      · rw [if_neg (Nat.pos_iff_ne_zero.mp hreq)] at hstep
        obtain ⟨ring, hring, rfl⟩ := Option.map_eq_some_iff.mp hstep
        have hcons := h.closed hidle
        have hring' := hring
        simp only [RingSys.step, if_pos hcons] at hring'
        obtain rfl := Option.some.inj hring'
        refine ⟨h.ring.step hring, ?_, hle, fun hp => (by cases hp), fun o ho => ?_, h.calls⟩
        · simp only [PauseSys.applied, Option.map_some, Option.getD_some]
          rw [List.append_assoc, hkeep]
          exact horder
        · obtain rfl := Option.some.inj ho
          exact ⟨hopen, rfl, by simp⟩

theorem PauseInv.drainAct (h : PauseInv capacity s) {o : OpenDrain} (ho : s.pending = some o) :
    PauseInv capacity (s.drainAct o) := by
  obtain ⟨hsound, hwithin, hbusy⟩ := h.opened o ho
  have hring : s.ring.step .drain = some s.ring.drainAct := by
    simp only [RingSys.step, if_neg hbusy]
  have horder := h.order
  simp only [PauseSys.applied, ho, Option.map_some, Option.getD_some] at horder
  unfold PauseSys.drainAct
  rcases drainStep_within (r := s.ring.ring) hwithin hbusy with
    ⟨r, pc, hact, hpc, hne⟩ | ⟨r, out, hact, hlen⟩
  · have hact' : s.ring.drainAct = { s.ring with ring := r, cons := pc } := by
      simp only [RingSys.drainAct, hact]
    simp only [hact]
    refine ⟨h.ring.step hring, ?_, h.staging, ?_, ?_, h.calls⟩
    · simp only [PauseSys.applied, ho, Option.map_some, Option.getD_some, hact']
      exact horder
    · intro hp
      rw [ho] at hp
      cases hp
    · intro o' ho'
      obtain rfl := Option.some.inj (ho.symm.trans ho')
      rw [hact']
      exact ⟨hsound, hpc, hne⟩
  · have hact' : s.ring.drainAct =
        { s.ring with ring := r, cons := .idle, drained := s.ring.drained ++ out } := by
      simp only [RingSys.drainAct, hact]
    obtain ⟨hcall, hkeep, hle⟩ := hsound.finish h.staging hlen
    simp only [hact]
    refine ⟨h.ring.step hring, ?_, hle, fun _ => by rw [hact'], fun o' ho' => (by cases ho'),
      fun c hc => ?_⟩
    · simp only [PauseSys.applied, Option.map_none, Option.getD_none, List.append_nil,
        List.flatMap_append, List.flatMap_singleton, hact']
      rw [← horder, List.append_assoc, List.append_assoc, hkeep]
      simp only [List.append_assoc]
    · rcases List.mem_append.mp hc with hc | hc
      · exact h.calls c hc
      · rw [List.mem_singleton.mp hc]
        exact hcall

theorem PauseInv.step (h : PauseInv capacity s) {act : PauseAct P} (hstep : s.step act = some s') :
    PauseInv capacity s' := by
  cases act with
  | callPush p a =>
      obtain ⟨ring, hring, rfl⟩ := Option.map_eq_some_iff.mp hstep
      have hring' := hring
      simp only [RingSys.step, Option.ite_none_right_eq_some, Option.some.injEq] at hring'
      obtain ⟨-, rfl⟩ := hring'
      exact h.producer hring rfl rfl
  | push p spurious =>
      obtain ⟨ring, hring, rfl⟩ := Option.map_eq_some_iff.mp hstep
      have hring' := hring
      simp only [RingSys.step, Option.ite_none_left_eq_some, Option.some.injEq] at hring'
      obtain ⟨-, rfl⟩ := hring'
      exact h.producer hring (s.ring.pushAct_cons p spurious).1 (s.ring.pushAct_cons p spurious).2
  | space =>
      simp only [PauseSys.step, Option.ite_none_right_eq_some, Option.isNone_iff_eq_none,
        Option.some.injEq] at hstep
      obtain ⟨hidle, rfl⟩ := hstep
      refine h.frame hidle ?_
      unfold HeapApp.keySpace
      split_ifs <;> exact ⟨rfl, rfl⟩
  | resized w ht =>
      simp only [PauseSys.step, Option.ite_none_right_eq_some, Option.isNone_iff_eq_none,
        Option.some.injEq] at hstep
      obtain ⟨hidle, rfl⟩ := hstep
      exact h.frame hidle (s.app.resized_staging w ht)
  | update env =>
      simp only [PauseSys.step, Option.ite_none_right_eq_some, Option.isNone_iff_eq_none,
        Option.some.injEq] at hstep
      obtain ⟨hidle, rfl⟩ := hstep
      exact h.frame hidle (s.app.update_staging env)
  | callDrain =>
      simp only [PauseSys.step, Option.ite_none_right_eq_some, Option.isNone_iff_eq_none] at hstep
      exact h.callDrain hstep.1 hstep.2
  | drain =>
      obtain ⟨o, ho, rfl⟩ := Option.map_eq_some_iff.mp hstep
      exact h.drainAct ho

end Inv

/-! ## What the ring still holds -/

/-- The events of the sequence numbers that have been claimed and not been
drained. -/
def RingSys.queued {P : Type} (s : RingSys P) : List HvEvent :=
  (s.claimed.drop s.ring.tail).map HvPush.view

/-- The slots between the two cursors, as a drain would hand them out. -/
def HvRing.stored (r : HvRing) : List HvEvent :=
  (List.range (r.head - r.tail)).map fun i =>
    { r.slot (r.tail + i) with op := (r.slot (r.tail + i)).op &&& hvOpMask }

theorem SlotDone.view {r : HvRing} {seq : Nat} {a : HvPush} (h : SlotDone r seq a) :
    { r.slot seq with op := (r.slot seq).op &&& hvOpMask } = a.view := by
  refine HvEvent.eq_of_get ?_ ?_
  · intro f
    have := h.1 f
    cases f <;> exact this
  · have hmask := congrArg (· &&& hvOpMask) h.2
    exact hmask.trans (publishedOp_mask ..)

/-- Between pushes, what is queued lies in the slots. -/
theorem RingInv.stored {P : Type} [Fintype P] {k : Nat} {s : RingSys P} (h : RingInv k s)
    (hidle : ∀ p, s.pc p = .idle) : s.ring.stored = s.queued := by
  have hlen : s.claimed.length = s.ring.head := h.slot.head_eq.symm
  refine List.ext_getElem? ?_
  intro i
  by_cases hi : i < s.ring.head - s.ring.tail
  · obtain ⟨a, ha⟩ : ∃ a, s.claimed[s.ring.tail + i]? = some a :=
      ⟨_, List.getElem?_eq_getElem (by omega)⟩
    have hroom := h.slot.room
    rcases h.slot.slots _ a ha (by omega) with hdone | ⟨p, n, hfl⟩
    · simp only [HvRing.stored, RingSys.queued, List.getElem?_map, List.getElem?_range hi,
        List.getElem?_drop, ha, Option.map_some, hdone.view]
    · rw [hidle p] at hfl
      cases hfl
  · have h1 : s.ring.stored.length ≤ i := by simp [HvRing.stored]; omega
    have h2 : s.queued.length ≤ i := by simp [RingSys.queued]; omega
    rw [List.getElem?_eq_none h1, List.getElem?_eq_none h2]

/-! ## Every schedule -/

section Order

variable {P : Type} [DecidableEq P] [Fintype P] {k : Nat} {s : PauseSys P}

/-- **Pausing loses, duplicates and reorders nothing.** Whatever producers,
keys, resizes, frames and calls of `drain` do, in whatever order: what has
been applied, then what is staged, is what the ring has handed out, and
with what it still holds it is every event claimed so far in the order of
the sequence numbers, which only ever increase while fewer than `2 ^ 64`
pushes were made. Each finished call applied its events to the model and
counted them, a frame's budget at most; one made while paused changed
nothing and returned 0. -/
theorem pause_keeps_order (hk : k < 64) (attached unicode : Bool) (originNs : Nat)
    {acts : List (PauseAct P)}
    (hrun : Run.run PauseSys.step
      (PauseSys.init P (2 ^ k) (HeapApp.new attached unicode originNs)) acts = some s) :
    s.applied ++ s.app.staged.drop s.app.stagedHead = s.ring.drained ∧
      (s.ring.started < 2 ^ 64 →
        s.applied ++ s.app.staged.drop s.app.stagedHead ++ s.ring.queued =
            s.ring.claimed.map HvPush.view ∧
          ((∀ p, s.ring.pc p = .idle) → s.ring.ring.stored = s.ring.queued)) ∧
      ∀ c ∈ s.calls,
        c.after.model = (c.before.apply c.applied).model ∧
          c.applied.length ≤ kMaxEventsPerFrame ∧
          c.after.events = c.before.events + c.applied.length ∧
          c.ret = c.applied.length ∧
          (c.before.paused = true →
            c.after.table = c.before.table ∧ c.after.map = c.before.map ∧
              c.after.live = c.before.live ∧ c.after.liveBytes = c.before.liveBytes ∧
              c.ret = 0) := by
  have h : PauseInv (2 ^ k) s :=
    Run.run_invariant (fun s act s' hs hs' => hs.step hs') (PauseInv.init attached unicode originNs)
      hrun
  refine ⟨h.order, ?_, ?_⟩
  · intro hlt
    obtain ⟨racts, hracts⟩ := h.ring
    have hinv := RingInv.run hk hracts hlt
    refine ⟨?_, hinv.stored⟩
    rw [h.order, hinv.slot.drained, RingSys.queued, ← List.map_append, List.take_append_drop]
  · intro c hc
    obtain ⟨hmodel, hbudget, hevents, hret, hfrozen⟩ := h.calls c hc
    refine ⟨hmodel, hbudget, hevents, hret, fun hp => ?_⟩
    rw [hfrozen hp] at hmodel hret
    have htable := congrArg HeapApp.table hmodel
    have hmap := congrArg HeapApp.map hmodel
    have hlive := congrArg HeapApp.live hmodel
    have hbytes := congrArg HeapApp.liveBytes hmodel
    exact ⟨htable, hmap, hlive, hbytes, hret⟩

end Order

/-- An undisturbed push, and an undisturbed call of `drain` that finds one
event. -/
def onePush : List (PauseAct (Fin 1)) := .callPush 0 samplePush :: List.replicate 12 (.push 0 false)

def oneDrain : List (PauseAct (Fin 1)) := .callDrain :: List.replicate 13 .drain

/-- Pause, stage an event, push another, resume: both are applied in order. -/
theorem pause_keeps_order_resumed : ∃ s : PauseSys (Fin 1),
    Run.run PauseSys.step (PauseSys.init (Fin 1) (2 ^ 10) (HeapApp.new true true 0))
        (onePush ++ .space :: oneDrain ++ onePush ++ .space :: oneDrain) = some s ∧
      s.calls.length = 2 ∧
      s.applied ++ s.app.staged.drop s.app.stagedHead ++ s.ring.queued =
        [samplePush.view, samplePush.view] := by
  have hobs : (Run.run PauseSys.step (PauseSys.init (Fin 1) (2 ^ 10) (HeapApp.new true true 0))
      (onePush ++ .space :: oneDrain ++ onePush ++ .space :: oneDrain)).map
        (fun s => (s.ring.started, s.calls.length, s.ring.claimed)) =
      some (2, 2, [samplePush, samplePush]) := by decide +kernel
  obtain ⟨s, hs, hval⟩ := Option.map_eq_some_iff.mp hobs
  simp only [Prod.mk.injEq] at hval
  obtain ⟨hstarted, hcalls, hclaimed⟩ := hval
  obtain ⟨-, hring, -⟩ := pause_keeps_order (k := 10) (by decide) true true 0 hs
  obtain ⟨horder, -⟩ := hring (by rw [hstarted]; decide)
  exact ⟨s, hs, hcalls, by rw [horder, hclaimed]; rfl⟩

end Heapviz
