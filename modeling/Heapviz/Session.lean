import Mathlib.Data.List.Induction
import Heapviz.Consumer

/-!
# Attaching to a target

`RingSession::attach` and `detach` (`tui/session.cpp`) of any number of
heapviz processes against one target. `attach` lets go of what it had,
polls for the segment until it is initialised and of this build's ABI,
maps it, and claims the word; `detach` releases it; a process that dies
does neither.

Nothing on this path asks whether the owner it is refused for is alive,
and nothing clears the word for it. So the word tells the whole history:
once a process has died with its pid on it, that pid stays, and every
later claim is refused for it.
-/

namespace Heapviz

/-! ## The polling loop -/

inductive AttachStatus where
  | ok
  | noSegment
  | targetGone
  | abiMismatch
  | alreadyWatched
  | mapFailed
deriving Repr, DecidableEq

def kPollIntervalMs : Nat := 5

/-- `HEAPVIZ_ABI_VERSION`. -/
def heapvizAbiVersion : Nat := 3

/-- `sizeof(HvEvent)`. -/
def hvEventSize : Nat := 32

/-- What one round of the loop finds: no segment, one whose header cannot be
mapped, one still being initialised, or a header, and whether the whole
ring then maps. -/
inductive SegmentProbe where
  | absent (targetAlive : Bool)
  | unmappable
  | initialising
  | header (abiVersion eventSize : Nat) (mapped : Bool)
deriving Repr, DecidableEq

inductive PollNext where
  | again
  | done (status : AttachStatus)
  | claim
deriving Repr, DecidableEq

/-- One round of the loop of `attach`, up to its claim. -/
def attachRound (waited timeoutMs : Nat) : SegmentProbe → PollNext
  | .absent targetAlive =>
      if targetAlive = false then .done .targetGone
      else if waited ≥ timeoutMs then .done .noSegment
      else .again
  | .unmappable => .done .mapFailed
  | .initialising => if waited ≥ timeoutMs then .done .noSegment else .again
  | .header abiVersion eventSize mapped =>
      if abiVersion ≠ heapvizAbiVersion ∨ eventSize ≠ hvEventSize then .done .abiMismatch
      else if mapped then .claim
      else .done .mapFailed

/-! ## Any number of processes -/

/-- Where a process is in `attach`: not in it, polling, or with the segment
mapped and before a compare-and-swap of the claim. -/
inductive AttachPc where
  | idle
  | polling (waited timeoutMs : Nat)
  | claiming
deriving Repr, DecidableEq

structure Watcher where
  alive : Bool
  /-- `ring_` is set. -/
  ring : Bool
  pc : AttachPc
deriving Repr, DecidableEq

structure WatchSys where
  word : Nat
  proc : Nat → Watcher

def WatchSys.init : WatchSys := ⟨0, fun _ => ⟨true, false, .idle⟩⟩

inductive WatchAct where
  | attach (pid timeoutMs : Nat) (spurious : Bool)
  | poll (pid : Nat) (probe : SegmentProbe)
  | claim (pid : Nat) (spurious : Bool)
  | detach (pid : Nat) (spurious : Bool)
  | die (pid : Nat)
deriving Repr, DecidableEq

def WatchAct.pid : WatchAct → Nat
  | .attach pid .. | .poll pid _ | .claim pid _ | .detach pid _ | .die pid => pid

namespace WatchSys

def set (s : WatchSys) (pid : Nat) (w : Watcher) : WatchSys :=
  { s with proc := Function.update s.proc pid w }

/-- The word after `RingSession::detach`, which does nothing without a ring. -/
def detachWord (s : WatchSys) (pid : Nat) (spurious : Bool) : Nat :=
  if (s.proc pid).ring then hvRingRelease s.word pid spurious else s.word

/-- What `attach` returns from the claim of a process that has come to it,
with `other_consumer_` where it is refused; `none` while the claim goes
round its loop. -/
def attachAnswer (s : WatchSys) (pid : Nat) (spurious : Bool) : Option (AttachStatus × Nat) :=
  if (s.proc pid).alive ∧ (s.proc pid).pc = .claiming then
    match (hvRingClaim s.word pid spurious).2 with
    | .claimed => some (.ok, 0)
    | .again => none
    | .refused owner => some (.alreadyWatched, owner)
  else none

/-- What one process can do next. `attach` begins by detaching. -/
def act (s : WatchSys) : WatchAct → Option WatchSys
  | .attach pid timeoutMs spurious =>
      if (s.proc pid).pc = .idle then
        some ({ s with word := s.detachWord pid spurious }.set pid
          { s.proc pid with ring := false, pc := .polling 0 timeoutMs })
      else none
  | .poll pid probe =>
      match (s.proc pid).pc with
      | .polling waited timeoutMs =>
          match attachRound waited timeoutMs probe with
          | .again =>
              some (s.set pid
                { s.proc pid with pc := .polling (waited + kPollIntervalMs) timeoutMs })
          | .done _ => some (s.set pid { s.proc pid with pc := .idle })
          | .claim => some (s.set pid { s.proc pid with pc := .claiming })
      | _ => none
  | .claim pid spurious =>
      if (s.proc pid).pc = .claiming then
        match hvRingClaim s.word pid spurious with
        | (word, .claimed) =>
            some ({ s with word := word }.set pid { s.proc pid with ring := true, pc := .idle })
        | (word, .again) => some { s with word := word }
        | (word, .refused _) =>
            some ({ s with word := word }.set pid { s.proc pid with pc := .idle })
      else none
  | .detach pid spurious =>
      if (s.proc pid).pc = .idle then
        some ({ s with word := s.detachWord pid spurious }.set pid
          { s.proc pid with ring := false })
      else none
  | .die pid => some (s.set pid { s.proc pid with alive := false })

/-- One step of one process that is alive; none has pid zero. -/
def step (s : WatchSys) (x : WatchAct) : Option WatchSys :=
  if x.pid = 0 ∨ (s.proc x.pid).alive = false then none else s.act x

/-- The word names a process that has died. -/
def Locked (s : WatchSys) : Prop := s.word ≠ 0 ∧ (s.proc s.word).alive = false

instance (s : WatchSys) : Decidable s.Locked := inferInstanceAs (Decidable (_ ∧ _))

end WatchSys

/-! ## What a step does to word and life -/

theorem WatchSys.detachWord_cases (s : WatchSys) (pid : Nat) (spurious : Bool) :
    (s.word = pid ∧ s.detachWord pid spurious = 0) ∨ s.detachWord pid spurious = s.word := by
  unfold WatchSys.detachWord
  split_ifs
  · exact hvRingRelease_cases s.word pid spurious
  · exact .inr rfl

theorem WatchSys.alive_set {s : WatchSys} {pid : Nat} {w : Watcher}
    (h : w.alive = (s.proc pid).alive) (p : Nat) :
    ((s.set pid w).proc p).alive = (s.proc p).alive := by
  by_cases hp : p = pid
  · subst hp
    exact (congrArg Watcher.alive (Function.update_self ..)).trans h
  · exact congrArg Watcher.alive (Function.update_of_ne hp ..)

/-- A step either kills its process and leaves the word, or kills nobody and
leaves the word, or writes it: a process that is alive takes it from zero,
or gives it back. -/
theorem WatchSys.step_cases {s s' : WatchSys} {x : WatchAct} (h : s.step x = some s') :
    x.pid ≠ 0 ∧ (s.proc x.pid).alive = true ∧
      ((x = .die x.pid ∧ s'.word = s.word ∧ (s'.proc x.pid).alive = false ∧
          ∀ p, p ≠ x.pid → (s'.proc p).alive = (s.proc p).alive) ∨
        ((∀ p, x ≠ .die p) ∧ (∀ p, (s'.proc p).alive = (s.proc p).alive) ∧
          (s'.word = s.word ∨ (s.word = 0 ∧ s'.word = x.pid) ∨
            (s.word = x.pid ∧ s'.word = 0)))) := by
  obtain ⟨hpre, hact⟩ := Option.ite_none_left_eq_some.mp h
  push Not at hpre
  refine ⟨hpre.1, by simpa using hpre.2, ?_⟩
  cases x with
  | attach pid timeoutMs spurious =>
      obtain ⟨-, hstep⟩ := Option.ite_none_right_eq_some.mp hact
      obtain rfl := Option.some.inj hstep
      refine .inr ⟨by simp, WatchSys.alive_set (by rfl), ?_⟩
      exact (s.detachWord_cases pid spurious).symm.imp_right .inr
  | poll pid probe =>
      refine .inr ⟨by simp, ?_⟩
      simp only [WatchSys.act] at hact
      split at hact
      · split at hact
        · obtain rfl := Option.some.inj hact
          exact ⟨WatchSys.alive_set (by rfl), .inl rfl⟩
        · obtain rfl := Option.some.inj hact
          exact ⟨WatchSys.alive_set (by rfl), .inl rfl⟩
        · obtain rfl := Option.some.inj hact
          exact ⟨WatchSys.alive_set (by rfl), .inl rfl⟩
      · cases hact
  | claim pid spurious =>
      obtain ⟨-, hcas⟩ := Option.ite_none_right_eq_some.mp hact
      refine .inr ⟨by simp, ?_⟩
      rcases hvRingClaim_cases s.word pid spurious with ⟨hw, heq⟩ | ⟨-, heq⟩ | ⟨-, heq⟩
      · rw [heq] at hcas
        obtain rfl := Option.some.inj hcas
        exact ⟨WatchSys.alive_set (by rfl), .inr (.inl ⟨hw, rfl⟩)⟩
      · rw [heq] at hcas
        obtain rfl := Option.some.inj hcas
        exact ⟨fun _ => rfl, .inl rfl⟩
      · rw [heq] at hcas
        obtain rfl := Option.some.inj hcas
        exact ⟨WatchSys.alive_set (by rfl), .inl rfl⟩
  | detach pid spurious =>
      obtain ⟨-, hstep⟩ := Option.ite_none_right_eq_some.mp hact
      obtain rfl := Option.some.inj hstep
      refine .inr ⟨by simp, WatchSys.alive_set (by rfl), ?_⟩
      exact (s.detachWord_cases pid spurious).symm.imp_right .inr
  | die pid =>
      obtain rfl := Option.some.inj hact
      refine .inl ⟨rfl, rfl, ?_, ?_⟩
      · simp only [WatchSys.set, WatchAct.pid]
        rw [Function.update_self]
      · intro p hp
        simp only [WatchSys.set, WatchAct.pid] at hp ⊢
        rw [Function.update_of_ne hp]

/-! ## The word tells the history -/

/-- Some process died with its pid on the word. -/
def DiedOnWord (history : List WatchAct) : Prop :=
  ∃ before after m, history = before ++ .die m.word :: after ∧
    Run.run WatchSys.step WatchSys.init before = some m

/-- A word that names a dead process names it for good. -/
theorem WatchSys.Locked.step {s s' : WatchSys} (h : s.Locked) {x : WatchAct}
    (hstep : s.step x = some s') : s'.Locked := by
  obtain ⟨hword, hdead⟩ := h
  obtain ⟨-, halive, ⟨-, hw, hdies, hlife⟩ | ⟨-, hlife, hcase⟩⟩ := WatchSys.step_cases hstep
  · refine ⟨by rwa [hw], ?_⟩
    rw [hw]
    by_cases hp : s.word = x.pid
    · rw [hp]; exact hdies
    · rw [hlife _ hp, hdead]
  · rcases hcase with hw | ⟨hzero, -⟩ | ⟨hmine, -⟩
    · exact ⟨by rwa [hw], by rw [hw, hlife, hdead]⟩
    · exact absurd hzero hword
    · rw [hmine, halive] at hdead
      cases hdead

/-- The word comes to name a dead process only by the death of the one it
names. -/
theorem WatchSys.locked_of_step {s s' : WatchSys} {x : WatchAct} (hstep : s.step x = some s')
    (h : s'.Locked) : s.Locked ∨ x = .die s.word := by
  obtain ⟨hword, hdead⟩ := h
  obtain ⟨-, halive, ⟨hx, hw, -, hlife⟩ | ⟨-, hlife, hcase⟩⟩ := WatchSys.step_cases hstep
  · rw [hw] at hword hdead
    by_cases hp : s.word = x.pid
    · exact .inr (hp ▸ hx)
    · rw [hlife _ hp] at hdead
      exact .inl ⟨hword, hdead⟩
  · rw [hlife] at hdead
    rcases hcase with hw | ⟨-, hmine⟩ | ⟨-, hzero⟩
    · rw [hw] at hword hdead
      exact .inl ⟨hword, hdead⟩
    · rw [hmine, halive] at hdead
      cases hdead
    · exact absurd hzero hword

theorem WatchSys.locked_of_die {s s' : WatchSys} (hstep : s.step (.die s.word) = some s') :
    s'.Locked := by
  obtain ⟨hpid, -, ⟨-, hw, hdies, -⟩ | ⟨hne, -⟩⟩ := WatchSys.step_cases hstep
  · refine ⟨by rw [hw]; exact hpid, ?_⟩
    rw [hw]
    exact hdies
  · exact absurd rfl (hne s.word)

theorem WatchSys.locked_iff {history : List WatchAct} {s : WatchSys}
    (hrun : Run.run WatchSys.step WatchSys.init history = some s) :
    s.Locked ↔ DiedOnWord history := by
  induction history using List.reverseRecOn generalizing s with
  | nil =>
      obtain rfl := Option.some.inj hrun
      refine ⟨fun h => absurd rfl h.1, fun ⟨before, after, m, heq, _⟩ => ?_⟩
      simp at heq
  | append_singleton history x ih =>
      obtain ⟨m, hm, hstep⟩ := Run.run_concat.mp hrun
      constructor
      · intro hlocked
        rcases WatchSys.locked_of_step hstep hlocked with hbefore | rfl
        · obtain ⟨before, after, m', rfl, hm'⟩ := (ih hm).mp hbefore
          exact ⟨before, after ++ [x], m', by simp, hm'⟩
        · exact ⟨history, [], m, rfl, hm⟩
      · rintro ⟨before, after, m', heq, hm'⟩
        -- the death is the last step, or it was one of those before it
        rcases List.eq_nil_or_concat after with rfl | ⟨after, y, rfl⟩
        · obtain ⟨rfl, hx⟩ := List.append_inj' heq rfl
          obtain rfl := Option.some.inj (hm.symm.trans hm')
          obtain rfl := (List.cons.inj hx).1
          exact WatchSys.locked_of_die hstep
        · rw [List.concat_eq_append, ← List.cons_append, ← List.append_assoc] at heq
          obtain ⟨rfl, -⟩ := List.append_inj' heq rfl
          exact ((ih hm).mpr ⟨before, after, m', rfl, hm'⟩).step hstep

/-- **When an attach is refused for the living.** After every history, for
every process whose `attach` has mapped the segment: it reports
`AlreadyWatched` only for a pid that is alive if and only if no process
has died with its pid on the word. -/
theorem refused_for_living_iff {history : List WatchAct} {s : WatchSys}
    (hrun : Run.run WatchSys.step WatchSys.init history = some s) {pid : Nat}
    (halive : (s.proc pid).alive = true) (hpc : (s.proc pid).pc = .claiming) :
    (∀ spurious owner, s.attachAnswer pid spurious = some (.alreadyWatched, owner) →
        (s.proc owner).alive = true) ↔ ¬ DiedOnWord history := by
  rw [← WatchSys.locked_iff hrun]
  constructor
  · rintro h ⟨hword, hdead⟩
    rcases hvRingClaim_cases s.word pid false with ⟨hw, -⟩ | ⟨hw, -⟩ | ⟨-, heq⟩
    · exact hword hw
    · exact hword hw
    · have := h false s.word (by rw [WatchSys.attachAnswer, if_pos ⟨halive, hpc⟩, heq])
      rw [hdead] at this
      cases this
  · intro hunlocked spurious owner hanswer
    rw [WatchSys.attachAnswer, if_pos ⟨halive, hpc⟩] at hanswer
    rcases hvRingClaim_cases s.word pid spurious with ⟨-, heq⟩ | ⟨-, heq⟩ | ⟨hw, heq⟩
    · rw [heq] at hanswer; simp at hanswer
    · rw [heq] at hanswer; simp at hanswer
    · rw [heq] at hanswer
      obtain rfl := (Prod.mk.inj (Option.some.inj hanswer)).2
      by_contra hdead
      exact hunlocked ⟨hw, by simpa using hdead⟩

/-- A whole attach of a process that finds the segment ready. -/
def attachReady (pid : Nat) : List WatchAct :=
  [.attach pid 3000 false, .poll pid (.header heapvizAbiVersion hvEventSize true)]

/-- Process 1 attaches and is killed; process 2 attaches, and is told that
process 1, which is dead, is watching. -/
theorem refused_for_the_dead : ∃ s,
    Run.run WatchSys.step WatchSys.init
      (attachReady 1 ++ [.claim 1 false, .die 1] ++ attachReady 2) = some s ∧
      (s.proc 2).alive = true ∧ (s.proc 2).pc = .claiming ∧
      s.attachAnswer 2 false = some (.alreadyWatched, 1) ∧ (s.proc 1).alive = false := by
  have hobs : (Run.run WatchSys.step WatchSys.init
      (attachReady 1 ++ [.claim 1 false, .die 1] ++ attachReady 2)).map (fun s => decide
        ((s.proc 2).alive = true ∧ (s.proc 2).pc = .claiming ∧
          s.attachAnswer 2 false = some (.alreadyWatched, 1) ∧ (s.proc 1).alive = false)) =
      some true := by decide
  obtain ⟨s, hs, hval⟩ := Option.map_eq_some_iff.mp hobs
  exact ⟨s, hs, of_decide_eq_true hval⟩

/-- With a watcher that is alive the refusal is right. -/
theorem refused_for_living_iff_watched : ∃ s,
    Run.run WatchSys.step WatchSys.init
      (attachReady 1 ++ [.claim 1 false] ++ attachReady 2) = some s ∧
      s.attachAnswer 2 false = some (.alreadyWatched, 1) ∧
      ¬ DiedOnWord (attachReady 1 ++ [.claim 1 false] ++ attachReady 2) := by
  have hobs : (Run.run WatchSys.step WatchSys.init
      (attachReady 1 ++ [.claim 1 false] ++ attachReady 2)).map (fun s =>
        (s.word, (s.proc 2).alive, (s.proc 2).pc, (s.proc 1).alive)) =
      some (1, true, .claiming, true) := by decide
  obtain ⟨s, hs, hval⟩ := Option.map_eq_some_iff.mp hobs
  simp only [Prod.mk.injEq] at hval
  obtain ⟨hword, halive, hpc, howner⟩ := hval
  have hrefused : ∀ spurious, s.attachAnswer 2 spurious = some (.alreadyWatched, 1) := by
    intro spurious
    rw [WatchSys.attachAnswer, if_pos ⟨halive, hpc⟩, hword]
    cases spurious with
    | false => rfl
    | true => rfl
  refine ⟨s, hs, hrefused false, (refused_for_living_iff hs halive hpc).mp
    fun spurious owner hanswer => ?_⟩
  obtain rfl := (Prod.mk.inj (Option.some.inj ((hrefused spurious).symm.trans hanswer))).2
  exact howner

end Heapviz
