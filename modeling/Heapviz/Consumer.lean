import Mathlib.Logic.Function.Basic
import Heapviz.Run

/-!
# Owning the ring

`consumer_pid` in `common/heapviz_ring.h`: zero when nobody watches, else
the pid of the one consumer that may drain. A consumer takes the word by a
compare-and-swap from zero and gives it back by one from its own pid; the
word outlives a consumer that dies holding it, so the next one checks
whether the pid it was refused for is gone, force-clears the word and
claims again.

The check and the clear are two steps, and the clear is a plain store. A
process is where it is between two such steps, and a run interleaves the
steps of any number of processes. As long as no store of
`hv_ring_break_claim` hits the claim of a consumer that is alive, a live
holder's pid is on the word, which is one word.
-/

namespace Heapviz

/-! ## The word -/

/-- A weak compare-and-swap: the new word, and what it leaves in `expected`
when it fails. One that fails spuriously finds what it expected. -/
def casWeak (word expected desired : Nat) (spurious : Bool) : Nat × Option Nat :=
  if word = expected ∧ spurious = false then (desired, none) else (word, some word)

/-- What one compare-and-swap of `hv_ring_claim` comes to: it returns 1, it
goes round its loop, or it returns 0 with the owner's pid. -/
inductive ClaimAnswer where
  | claimed
  | again
  | refused (owner : Nat)
deriving Repr, DecidableEq

/-- One round of `hv_ring_claim`; `expected` is zero whenever it goes round. -/
def hvRingClaim (word pid : Nat) (spurious : Bool) : Nat × ClaimAnswer :=
  match casWeak word 0 pid spurious with
  | (word, none) => (word, .claimed)
  | (word, some 0) => (word, .again)
  | (word, some owner) => (word, .refused owner)

/-- `hv_ring_release`: one weak compare-and-swap, its answer unread. -/
def hvRingRelease (word pid : Nat) (spurious : Bool) : Nat := (casWeak word pid 0 spurious).1

/-- `hv_ring_break_claim`. -/
def hvRingBreakClaim : Nat := 0

theorem hvRingClaim_cases (word pid : Nat) (spurious : Bool) :
    (word = 0 ∧ hvRingClaim word pid spurious = (pid, .claimed)) ∨
      (word = 0 ∧ hvRingClaim word pid spurious = (word, .again)) ∨
      (word ≠ 0 ∧ hvRingClaim word pid spurious = (word, .refused word)) := by
  unfold hvRingClaim casWeak
  by_cases hword : word = 0
  · cases spurious with
    | false => exact .inl ⟨hword, by rw [if_pos ⟨hword, rfl⟩]⟩
    | true => exact .inr (.inl ⟨hword, by rw [if_neg (by simp), hword]; rfl⟩)
  · refine .inr (.inr ⟨hword, ?_⟩)
    rw [if_neg fun h => hword h.1]
    obtain ⟨n, rfl⟩ := Nat.exists_eq_succ_of_ne_zero hword
    rfl

theorem hvRingRelease_cases (word pid : Nat) (spurious : Bool) :
    (word = pid ∧ hvRingRelease word pid spurious = 0) ∨
      hvRingRelease word pid spurious = word := by
  unfold hvRingRelease casWeak
  split_ifs with h
  · exact .inl ⟨h.1, rfl⟩
  · exact .inr rfl

/-! ## Any number of consumers -/

/-- Where a consumer is: between calls, before a compare-and-swap of
`hv_ring_claim`, refused for `owner`, or sure that the owner is dead and
about to break its claim. -/
inductive ConsumerPc where
  | idle
  | claiming
  | refused (owner : Nat)
  | breaking
deriving Repr, DecidableEq

structure Consumer where
  alive : Bool
  /-- A claim returned 1 and has not been released since. -/
  holds : Bool
  pc : ConsumerPc
deriving Repr, DecidableEq

structure ClaimSys where
  word : Nat
  proc : Nat → Consumer

def ClaimSys.init : ClaimSys := ⟨0, fun _ => ⟨true, false, .idle⟩⟩

inductive ClaimAct where
  | call (pid : Nat)
  | cas (pid : Nat) (spurious : Bool)
  | check (pid : Nat)
  | breakClaim (pid : Nat)
  | release (pid : Nat) (spurious : Bool)
  | die (pid : Nat)
deriving Repr, DecidableEq

def ClaimAct.pid : ClaimAct → Nat
  | .call pid | .cas pid _ | .check pid | .breakClaim pid | .release pid _ | .die pid => pid

namespace ClaimSys

def set (s : ClaimSys) (pid : Nat) (c : Consumer) : ClaimSys :=
  { s with proc := Function.update s.proc pid c }

/-- Able to begin a call. A refused consumer may leave it at that. -/
def ready (c : Consumer) : Bool :=
  c.alive && match c.pc with
    | .idle => true
    | .refused _ => true
    | _ => false

/-- What one consumer can do next. -/
def act (s : ClaimSys) : ClaimAct → Option ClaimSys
  | .call pid =>
      if ready (s.proc pid) then some (s.set pid { s.proc pid with pc := .claiming }) else none
  | .cas pid spurious =>
      if (s.proc pid).alive ∧ (s.proc pid).pc = .claiming then
        match hvRingClaim s.word pid spurious with
        | (word, .claimed) =>
            some ({ s with word := word }.set pid { s.proc pid with holds := true, pc := .idle })
        | (word, .again) => some { s with word := word }
        | (word, .refused owner) =>
            some ({ s with word := word }.set pid { s.proc pid with pc := .refused owner })
      else none
  | .check pid =>
      match (s.proc pid).alive, (s.proc pid).pc with
      | true, .refused owner =>
          if (s.proc owner).alive then some (s.set pid { s.proc pid with pc := .idle })
          else some (s.set pid { s.proc pid with pc := .breaking })
      | _, _ => none
  | .breakClaim pid =>
      if (s.proc pid).alive ∧ (s.proc pid).pc = .breaking then
        some ({ s with word := hvRingBreakClaim }.set pid { s.proc pid with pc := .claiming })
      else none
  | .release pid spurious =>
      if ready (s.proc pid) then
        some ({ s with word := hvRingRelease s.word pid spurious }.set pid
          { s.proc pid with holds := false, pc := .idle })
      else none
  | .die pid =>
      if (s.proc pid).alive then some (s.set pid { s.proc pid with alive := false }) else none

/-- One step of one consumer; no process has pid zero. -/
def step (s : ClaimSys) (x : ClaimAct) : Option ClaimSys := if x.pid = 0 then none else s.act x

/-- A live consumer with a claim it has not released. -/
def Holder (s : ClaimSys) (pid : Nat) : Prop :=
  (s.proc pid).alive = true ∧ (s.proc pid).holds = true

instance (s : ClaimSys) (pid : Nat) : Decidable (s.Holder pid) :=
  inferInstanceAs (Decidable (_ ∧ _))

/-- No two live consumers hold a claim. -/
def OneHolder (s : ClaimSys) : Prop := ∀ p q, s.Holder p → s.Holder q → p = q

/-- A break hits no claim of a live consumer: the pid on the word is not that
of one. -/
def BreaksStale (s : ClaimSys) : ClaimAct → Prop
  | .breakClaim _ => ¬ s.Holder s.word
  | _ => True

instance (s : ClaimSys) : ∀ act, Decidable (s.BreaksStale act)
  | .breakClaim _ => inferInstanceAs (Decidable (¬ _))
  | .call _ | .cas .. | .check _ | .release .. | .die _ => .isTrue trivial

end ClaimSys

/-! ## What carries exclusion -/

/-- The pid of a live holder is on the word, and none is zero. -/
def ClaimInv (s : ClaimSys) : Prop := ∀ p, s.Holder p → s.word = p ∧ p ≠ 0

theorem ClaimInv.oneHolder {s : ClaimSys} (h : ClaimInv s) : s.OneHolder :=
  fun p q hp hq => (h p hp).1.symm.trans (h q hq).1

theorem ClaimInv.init : ClaimInv ClaimSys.init := by
  intro p hp
  exact absurd hp.2 (by simp [ClaimSys.init])

section Steps

variable {s : ClaimSys} {pid : Nat} {c : Consumer}

theorem ClaimSys.set_proc_self : (s.set pid c).proc pid = c := Function.update_self ..

theorem ClaimSys.set_proc_of_ne {p : Nat} (h : p ≠ pid) : (s.set pid c).proc p = s.proc p :=
  Function.update_of_ne h _ _

/-- A process that moves holds afterwards only if it held before, and the word
stays: what every step but the three that write the word comes to. -/
theorem ClaimInv.move (h : ClaimInv s)
    (hc : c.alive = true ∧ c.holds = true → s.Holder pid) : ClaimInv (s.set pid c) := by
  intro p hp
  change s.word = p ∧ p ≠ 0
  by_cases hpid : p = pid
  · subst hpid
    unfold ClaimSys.Holder at hp
    rw [ClaimSys.set_proc_self] at hp
    exact h p (hc hp)
  · unfold ClaimSys.Holder at hp
    rw [ClaimSys.set_proc_of_ne hpid] at hp
    exact h p hp

/-- With no holder but the one that moves, the word may become anything that
names it. -/
theorem ClaimInv.take (word : Nat) (hnone : ∀ p, p ≠ pid → ¬ s.Holder p)
    (hc : c.alive = true ∧ c.holds = true → word = pid ∧ pid ≠ 0) :
    ClaimInv ({ s with word := word }.set pid c) := by
  intro p hp
  change word = p ∧ p ≠ 0
  by_cases hpid : p = pid
  · subst hpid
    unfold ClaimSys.Holder at hp
    rw [ClaimSys.set_proc_self] at hp
    exact hc hp
  · unfold ClaimSys.Holder at hp
    rw [ClaimSys.set_proc_of_ne hpid] at hp
    exact absurd hp (hnone p hpid)

theorem ClaimInv.not_holder (h : ClaimInv s) {p : Nat} (hp : s.word ≠ p) : ¬ s.Holder p :=
  fun hh => hp (h p hh).1

theorem ClaimInv.step (h : ClaimInv s) {x : ClaimAct} (hstale : s.BreaksStale x)
    {s' : ClaimSys} (hstep : s.step x = some s') : ClaimInv s' := by
  obtain ⟨hpid, hact⟩ := Option.ite_none_left_eq_some.mp hstep
  cases x with
  | call pid =>
      obtain ⟨-, hcall⟩ := Option.ite_none_right_eq_some.mp hact
      obtain rfl := Option.some.inj hcall
      exact h.move id
  | cas pid spurious =>
      obtain ⟨-, hcas⟩ := Option.ite_none_right_eq_some.mp hact
      rcases hvRingClaim_cases s.word pid spurious with ⟨hw, heq⟩ | ⟨-, heq⟩ | ⟨-, heq⟩
      · rw [heq] at hcas
        obtain rfl := Option.some.inj hcas
        -- the word was free, so it named no holder
        exact ClaimInv.take pid (fun p _ hp => (h p hp).2 ((h p hp).1.symm.trans hw))
          fun _ => ⟨rfl, hpid⟩
      · rw [heq] at hcas
        obtain rfl := Option.some.inj hcas
        exact h
      · rw [heq] at hcas
        obtain rfl := Option.some.inj hcas
        exact h.move id
  | check pid =>
      simp only [ClaimSys.act] at hact
      split at hact
      · split at hact
        · obtain rfl := Option.some.inj hact
          exact h.move id
        · obtain rfl := Option.some.inj hact
          exact h.move id
      · cases hact
  | breakClaim pid =>
      obtain ⟨-, hbreak⟩ := Option.ite_none_right_eq_some.mp hact
      obtain rfl := Option.some.inj hbreak
      have hnone : ∀ p, ¬ s.Holder p := fun p hp => hstale (by rw [(h p hp).1]; exact hp)
      exact ClaimInv.take _ (fun p _ => hnone p) fun hc => absurd hc (hnone pid)
  | release pid spurious =>
      obtain ⟨-, hrel⟩ := Option.ite_none_right_eq_some.mp hact
      obtain rfl := Option.some.inj hrel
      rcases hvRingRelease_cases s.word pid spurious with ⟨hw, heq⟩ | heq
      · rw [heq]
        refine ClaimInv.take 0 (fun p hp => h.not_holder ?_) fun hc => absurd hc.2 (by simp)
        rw [hw]
        exact Ne.symm hp
      · rw [heq]
        exact h.move fun hc => absurd hc.2 (by simp)
  | die pid =>
      obtain ⟨-, hdie⟩ := Option.ite_none_right_eq_some.mp hact
      obtain rfl := Option.some.inj hdie
      exact h.move fun hc => absurd hc.1 (by simp)

end Steps

/-! ## Every interleaving -/

/-- **At most one consumer owns the ring**, in every state of every run none
of whose breaks hits a live consumer's claim. -/
theorem one_consumer {acts : List ClaimAct} {s : ClaimSys}
    (hstale : Run.Guarded ClaimSys.step ClaimSys.BreaksStale ClaimSys.init acts)
    (hrun : Run.run ClaimSys.step ClaimSys.init acts = some s) : s.OneHolder :=
  (Run.guarded_invariant (fun _ _ _ h hg hstep => h.step hg hstep) ClaimInv.init hstale
    hrun).oneHolder

/-- Process 1 claims the ring and dies; processes 2 and 3 are refused for it
and find it dead. -/
def twoRecover : List ClaimAct :=
  [.call 1, .cas 1 false, .die 1, .call 2, .cas 2 false, .check 2, .call 3, .cas 3 false,
    .check 3]

/-- One recovery after the other: process 2 breaks the stale claim and takes
the ring, and process 1's death leaves it the only holder. -/
theorem one_consumer_recovers : ∃ s,
    Run.run ClaimSys.step ClaimSys.init (twoRecover ++ [.breakClaim 2, .cas 2 false]) = some s ∧
      s.Holder 2 ∧ s.OneHolder := by
  have hobs : (Run.run ClaimSys.step ClaimSys.init
      (twoRecover ++ [.breakClaim 2, .cas 2 false])).map (fun s => decide (s.Holder 2)) =
      some true := by decide
  obtain ⟨s, hs, hholder⟩ := Option.map_eq_some_iff.mp hobs
  exact ⟨s, hs, of_decide_eq_true hholder, one_consumer (by decide) hs⟩

/-- **Two consumers own the ring.** Process 3 clears the word after process 2
has claimed it, and claims it too. -/
theorem two_consumers : ∃ s,
    Run.run ClaimSys.step ClaimSys.init (twoRecover ++
      [.breakClaim 2, .cas 2 false, .breakClaim 3, .cas 3 false]) = some s ∧ ¬ s.OneHolder := by
  have hobs : (Run.run ClaimSys.step ClaimSys.init (twoRecover ++
      [.breakClaim 2, .cas 2 false, .breakClaim 3, .cas 3 false])).map
        (fun s => decide (s.Holder 2 ∧ s.Holder 3)) = some true := by decide
  obtain ⟨s, hs, hholders⟩ := Option.map_eq_some_iff.mp hobs
  obtain ⟨h2, h3⟩ := of_decide_eq_true hholders
  exact ⟨s, hs, fun hone => absurd (hone 2 3 h2 h3) (by decide)⟩

/-! ## One call alone

No other process steps in, and the compare-and-swaps of the call fail
spuriously as a finite pattern says. `hv_ring_claim` goes round again on
such a failure; `hv_ring_release` takes it for its answer. -/

/-- What a call of `hv_ring_claim` leaves: the word, the value returned, and
the caller's `*owner_out`, which is none for a null pointer. -/
structure ClaimCall where
  word : Nat
  ret : Nat
  ownerOut : Option Nat
deriving Repr, DecidableEq

/-- A whole call of `hv_ring_claim`, given which of its compare-and-swaps fail
spuriously; none while it is still in its loop after all of them. -/
def hvRingClaimCall (pid : Nat) (ownerOut : Option Nat) : List Bool → Nat → Option ClaimCall
  | [], _ => none
  | spurious :: fates, word =>
      match hvRingClaim word pid spurious with
      | (word, .claimed) => some ⟨word, 1, ownerOut⟩
      | (word, .again) => hvRingClaimCall pid ownerOut fates word
      | (word, .refused owner) => some ⟨word, 0, ownerOut.map fun _ => owner⟩

/-- A whole call of `hv_ring_release`: its only compare-and-swap meets the
first fate. -/
def hvRingReleaseCall (word pid : Nat) (fates : List Bool) : Nat :=
  hvRingRelease word pid (fates.headD false)

/-- The call returns, with 1 exactly when the word was free, and otherwise
with the owner named and the word as it was. -/
def ClaimDecides (word pid : Nat) (ownerOut : Option Nat) (fates : List Bool) : Prop :=
  ∃ c, hvRingClaimCall pid ownerOut fates word = some c ∧
    (c.ret = 1 ↔ word = 0) ∧ (c.ret = 1 → c.word = pid) ∧
    (c.ret ≠ 1 → c.ret = 0 ∧ c.ownerOut = ownerOut.map (fun _ => word) ∧ c.word = word)

/-- The release frees a word that held `pid` and leaves any other. -/
def ReleaseClears (word pid : Nat) (fates : List Bool) : Prop :=
  hvRingReleaseCall word pid fates = if word = pid then 0 else word

instance (word pid : Nat) (fates : List Bool) : Decidable (ReleaseClears word pid fates) :=
  inferInstanceAs (Decidable (_ = _))

/-- A free word is taken by the first compare-and-swap that does not fail
spuriously. -/
theorem hvRingClaimCall_free (pid : Nat) (ownerOut : Option Nat) :
    ∀ pattern : List Bool, hvRingClaimCall pid ownerOut (pattern ++ [false]) 0 =
      some ⟨pid, 1, ownerOut⟩
  | [] => rfl
  | false :: _ => rfl
  | true :: pattern => hvRingClaimCall_free pid ownerOut pattern

theorem hvRingClaimCall_owned (pid : Nat) (ownerOut : Option Nat) {word : Nat} (hword : word ≠ 0)
    (spurious : Bool) (fates : List Bool) :
    hvRingClaimCall pid ownerOut (spurious :: fates) word =
      some ⟨word, 0, ownerOut.map fun _ => word⟩ := by
  rcases hvRingClaim_cases word pid spurious with ⟨h, -⟩ | ⟨h, -⟩ | ⟨-, heq⟩
  · exact absurd h hword
  · exact absurd h hword
  · rw [hvRingClaimCall, heq]

theorem claimDecides_append (word pid : Nat) (ownerOut : Option Nat) (pattern : List Bool) :
    ClaimDecides word pid ownerOut (pattern ++ [false]) := by
  by_cases hword : word = 0
  · subst hword
    exact ⟨_, hvRingClaimCall_free pid ownerOut pattern, by simp, fun _ => rfl, by simp⟩
  · obtain ⟨spurious, fates, heq⟩ : ∃ spurious fates, pattern ++ [false] = spurious :: fates :=
      List.exists_cons_of_ne_nil (by simp)
    rw [heq]
    refine ⟨_, hvRingClaimCall_owned pid ownerOut hword spurious fates, ?_, by simp,
      fun _ => ⟨rfl, rfl, rfl⟩⟩
    simpa using hword

theorem releaseClears_iff (word : Nat) {pid : Nat} (hpid : pid ≠ 0) (pattern : List Bool) :
    ReleaseClears word pid (pattern ++ [false]) ↔
      ¬ (word = pid ∧ pattern.head? = some true) := by
  unfold ReleaseClears hvRingReleaseCall hvRingRelease casWeak
  by_cases hword : word = pid
  · subst hword
    cases pattern with
    | nil => simp
    | cons spurious pattern => cases spurious <;> simp [hpid]
  · simp [hword]

/-- **Claim and release, alone.** Under any pattern of spurious failures the
claim decides rightly; the release does unless its one compare-and-swap on a
word that holds `pid` is the one that fails. -/
theorem claim_release_alone {pid : Nat} (hpid : pid ≠ 0) (word : Nat) (ownerOut : Option Nat)
    (claiming releasing : List Bool) :
    (ClaimDecides word pid ownerOut (claiming ++ [false]) ∧
        ReleaseClears word pid (releasing ++ [false])) ↔
      ¬ (word = pid ∧ releasing.head? = some true) := by
  rw [and_iff_right (claimDecides_append word pid ownerOut claiming)]
  exact releaseClears_iff word hpid releasing

/-- Two spurious failures before the claim of a free ring, and one before a
release of a ring that process 7 does not own. -/
theorem claim_release_alone_free :
    ClaimDecides 0 7 (some 0) [true, true, false] ∧ ReleaseClears 0 7 [true, false] :=
  (claim_release_alone (by decide) 0 (some 0) [true, true] [true]).mpr (by decide)

/-- **The claim is not given back.** Process 7 owns the ring, and the
compare-and-swap of its release fails spuriously. -/
theorem release_keeps_claim :
    hvRingReleaseCall 7 7 ([true] ++ [false]) = 7 ∧ ¬ ReleaseClears 7 7 ([true] ++ [false]) := by
  decide

end Heapviz
