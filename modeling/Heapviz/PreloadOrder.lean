import Mathlib.Data.List.Chain
import Heapviz.Preload

/-!
# The events of one address alternate

For any number of threads, in ring order, the events of every address are
an allocation, a free, an allocation, a free and so on. The reason is
exclusive hold: from the moment the real allocator hands a block out to
the return of the hook, and from the call of `free` or `realloc` to the
moment the real function takes the block back, exactly one hook has it
(`HookPc.holds`), and while it does nobody else can report it. A block no
hook holds is live exactly if it was last reported allocated
(`HookInv.rest`).

`HookInv.move` is the one argument about ownership: a thread moves from
one program counter to the next, everything outside what it held and
holds is unchanged, so only those addresses need a proof. Each access of
a hook is an instance.
-/

namespace Heapviz

/-! ## What the ring says about one address -/

def HvPush.isAlloc (e : HvPush) : Bool := e.opcode != HvOp.free.code

theorem HvOp.isAlloc_of_ne {op : HvOp} (h : op ≠ .free) :
    (op.code != HvOp.free.code) = true := by
  cases op with
  | free => exact absurd rfl h
  | _ => rfl

/-- The events of an address in ring order: `true` an allocation, `false` a
free. -/
def eventsOf (ring : List HvPush) (a : Nat) : List Bool :=
  (ring.filter fun e => e.ptr == a).map HvPush.isAlloc

/-- The last event of the address is an allocation. -/
def reported (ring : List HvPush) (a : Nat) : Bool := (eventsOf ring a).getLast? == some true

/-- Allocation, free, allocation, free, ... starting with an allocation. -/
def Alternates (l : List Bool) : Prop := l.IsChain (· ≠ ·) ∧ l.head? ≠ some false

theorem eventsOf_concat (ring : List HvPush) (e : HvPush) (a : Nat) :
    eventsOf (ring ++ [e]) a =
      if e.ptr = a then eventsOf ring a ++ [e.isAlloc] else eventsOf ring a := by
  by_cases h : e.ptr = a
  · simp [eventsOf, h]
  · simp [eventsOf, h]

theorem reported_concat (ring : List HvPush) (e : HvPush) (a : Nat) :
    reported (ring ++ [e]) a = if e.ptr = a then e.isAlloc else reported ring a := by
  unfold reported
  rw [eventsOf_concat]
  split
  · simp
  · rfl

theorem alternates_concat {l : List Bool} {b : Bool} (hl : Alternates l)
    (hb : (l.getLast? == some true) = !b) : Alternates (l ++ [b]) := by
  obtain ⟨hchain, hhead⟩ := hl
  refine ⟨List.isChain_append.mpr ⟨hchain, List.isChain_singleton b, ?_⟩, ?_⟩
  · intro x hx y hy
    obtain rfl : b = y := by simpa using hy
    rw [Option.mem_def.mp hx] at hb
    cases x <;> cases b <;> simp_all
  · cases l with
    | nil => cases b <;> simp_all
    | cons x l => simpa using hhead

theorem alternates_emit {ring : List HvPush} {e : HvPush}
    (h : ∀ a, Alternates (eventsOf ring a)) (he : reported ring e.ptr = !e.isAlloc) (a : Nat) :
    Alternates (eventsOf (ring ++ [e]) a) := by
  rw [eventsOf_concat]
  split
  · rename_i hea
    exact alternates_concat (h a) (hea ▸ he)
  · exact h a

/-! ## Exclusive hold -/

/-- The block a hook has to itself, and whether its last event is an
allocation. -/
def HookPc.holds : HookPc → Option (Nat × Bool)
  | .idle => none
  | .realAlloc _ => none
  | .emitAlloc _ p => some (p, false)
  | .emitFree ptr => some (ptr, true)
  | .realFree ptr => some (ptr, false)
  | .emitRelease ptr _ => some (ptr, true)
  | .realRealloc ptr _ => some (ptr, false)
  | .emitRealloc ptr _ p => some (p.getD ptr, false)
  | .ret _ back => back.map fun p => (p, true)

/-- No hook is in a `realloc` of size zero. -/
def HookPc.sized : HookPc → Prop
  | .emitRelease _ size => size ≠ 0
  | .realRealloc _ size => size ≠ 0
  | .emitRealloc _ size _ => size ≠ 0
  | _ => True

def HookPc.Holds (pc : HookPc) (a : Nat) : Prop := ∃ b, pc.holds = some (a, b)

structure HookInv (s : HookSys) : Prop where
  alternates : ∀ a, Alternates (eventsOf s.ring a)
  busy : ∀ t a b, (s.pc t).holds = some (a, b) →
    (s.blocks a).isSome = true ∧ reported s.ring a = b ∧ s.held a = false
  unique : ∀ t t' a, (s.pc t).Holds a → (s.pc t').Holds a → t = t'
  rest : ∀ a, (∀ t, ¬ (s.pc t).Holds a) →
    s.held a = (s.blocks a).isSome ∧ reported s.ring a = (s.blocks a).isSome
  sized : ∀ t, (s.pc t).sized

theorem HookInv.init : HookInv HookSys.init where
  alternates := fun _ => ⟨List.isChain_nil, by simp [HookSys.init, eventsOf]⟩
  busy := fun _ _ _ h => by simp [HookSys.init, HookPc.holds] at h
  unique := fun _ _ _ h => by simp [HookSys.init, HookPc.Holds, HookPc.holds] at h
  rest := fun _ _ => ⟨rfl, rfl⟩
  sized := fun _ => trivial

/-- A block that is live and in the target's hands is held by no hook. -/
theorem HookInv.free_of_held {s : HookSys} (hI : HookInv s) {a : Nat} (ha : s.held a = true)
    (t : Nat) : ¬ (s.pc t).Holds a := by
  rintro ⟨b, hb⟩
  rw [(hI.busy t a b hb).2.2] at ha
  cases ha

theorem HookInv.free_of_dead {s : HookSys} (hI : HookInv s) {a : Nat} (ha : s.blocks a = none)
    (t : Nat) : ¬ (s.pc t).Holds a := by
  rintro ⟨b, hb⟩
  have := (hI.busy t a b hb).1
  rw [ha] at this
  cases this

/-- **Ownership.** Thread `t` goes to `pc`. Outside what it held and holds
nothing changed; what it holds now it had, or nobody had; what it gave up
is settled. -/
theorem HookInv.move {s s' : HookSys} (hI : HookInv s) (t : Nat) {pc : HookPc}
    (hpc : s'.pc = Function.update s.pc t pc)
    (hframe : ∀ a, ¬ (s.pc t).Holds a → ¬ pc.Holds a →
      s'.blocks a = s.blocks a ∧ s'.held a = s.held a ∧
        reported s'.ring a = reported s.ring a)
    (hnew : ∀ a b, pc.holds = some (a, b) →
      (s'.blocks a).isSome = true ∧ reported s'.ring a = b ∧ s'.held a = false)
    (hown : ∀ a, pc.Holds a → (s.pc t).Holds a ∨ ∀ t', ¬ (s.pc t').Holds a)
    (hold : ∀ a, (s.pc t).Holds a → ¬ pc.Holds a →
      s'.held a = (s'.blocks a).isSome ∧ reported s'.ring a = (s'.blocks a).isSome)
    (halt : ∀ a, Alternates (eventsOf s'.ring a)) (hsize : pc.sized) : HookInv s' := by
  have hself : s'.pc t = pc := by rw [hpc, Function.update_self]
  have hother : ∀ t', t' ≠ t → s'.pc t' = s.pc t' := fun t' ht => by
    rw [hpc, Function.update_of_ne ht]
  -- nobody else holds what the thread holds, before or after
  have hexcl : ∀ t' a, t' ≠ t → (s.pc t').Holds a → ¬ (s.pc t).Holds a ∧ ¬ pc.Holds a := by
    intro t' a ht ha
    refine ⟨fun h => ht (hI.unique t' t a ha h), fun h => ?_⟩
    rcases hown a h with h | h
    · exact ht (hI.unique t' t a ha h)
    · exact h t' ha
  refine ⟨halt, ?_, ?_, ?_, ?_⟩
  · intro t' a b hb
    by_cases ht : t' = t
    · subst ht
      exact hnew a b (hself ▸ hb)
    · rw [hother t' ht] at hb
      obtain ⟨h1, h2⟩ := hexcl t' a ht ⟨b, hb⟩
      obtain ⟨e1, e2, e3⟩ := hframe a h1 h2
      rw [e1, e2, e3]
      exact hI.busy t' a b hb
  · intro t1 t2 a h1 h2
    by_cases ht1 : t1 = t
    · by_cases ht2 : t2 = t
      · rw [ht1, ht2]
      · rw [hother t2 ht2] at h2
        rw [ht1, hself] at h1
        exact absurd h1 (hexcl t2 a ht2 h2).2
    · rw [hother t1 ht1] at h1
      by_cases ht2 : t2 = t
      · rw [ht2, hself] at h2
        exact absurd h2 (hexcl t1 a ht1 h1).2
      · rw [hother t2 ht2] at h2
        exact hI.unique t1 t2 a h1 h2
  · intro a hno
    have hpcno : ¬ pc.Holds a := hself ▸ hno t
    by_cases ha : (s.pc t).Holds a
    · exact hold a ha hpcno
    · obtain ⟨e1, e2, e3⟩ := hframe a ha hpcno
      rw [e1, e2, e3]
      refine hI.rest a ?_
      intro t'
      by_cases ht : t' = t
      · rw [ht]; exact ha
      · rw [← hother t' ht]; exact hno t'
  · intro t'
    by_cases ht : t' = t
    · rw [ht, hself]; exact hsize
    · rw [hother t' ht]; exact hI.sized t'

/-! ## One step -/

theorem HookPc.holds_unique {pc : HookPc} {a c : Nat} {b : Bool} (h : pc.holds = some (a, b)) :
    pc.Holds c ↔ c = a := by
  constructor
  · rintro ⟨b', hb'⟩
    rw [h] at hb'
    exact (congrArg Prod.fst (Option.some.inj hb')).symm
  · rintro rfl
    exact ⟨b, h⟩

theorem HookPc.not_holds {pc : HookPc} (h : pc.holds = none) (a : Nat) : ¬ pc.Holds a := by
  rintro ⟨b, hb⟩
  rw [h] at hb
  cases hb

/-- A thread that holds nothing goes somewhere it holds nothing. -/
theorem HookInv.pass {s : HookSys} (hI : HookInv s) {t : Nat} {pc : HookPc}
    (h : (s.pc t).holds = none) (h' : pc.holds = none) (hsize : pc.sized) :
    HookInv (s.goto t pc) :=
  hI.move t rfl (fun _ _ _ => ⟨rfl, rfl, rfl⟩) (fun a b hb => by rw [h'] at hb; cases hb)
    (fun a ha => absurd ha (HookPc.not_holds h' a))
    (fun a ha => absurd ha (HookPc.not_holds h a)) hI.alternates hsize

/-- The target hands a block over to a hook. -/
theorem HookInv.give {s : HookSys} (hI : HookInv s) {t ptr : Nat} {pc : HookPc}
    (h : (s.pc t).holds = none) (hpc : pc.holds = some (ptr, true)) (hheld : s.held ptr = true)
    (hsize : pc.sized) :
    HookInv { s.goto t pc with held := Function.update s.held ptr false } := by
  have hfree := hI.free_of_held hheld
  obtain ⟨hlive, hrep⟩ := hI.rest ptr hfree
  rw [hheld] at hlive
  refine hI.move t rfl (fun a _ ha => ⟨rfl, ?_, rfl⟩) ?_ ?_
    (fun a ha => absurd ha (HookPc.not_holds h a)) hI.alternates hsize
  · exact Function.update_of_ne (fun e => ha ((HookPc.holds_unique hpc).mpr e)) _ _
  · intro a b hb
    obtain ⟨rfl, rfl⟩ := Prod.mk.injEq .. |>.mp (Option.some.inj (hpc.symm.trans hb))
    exact ⟨hlive.symm, hrep.trans hlive.symm, Function.update_self ..⟩
  · intro a ha
    rw [(HookPc.holds_unique hpc).mp ha]
    exact .inr hfree

/-- A hook reports the block it holds: a free if it was reported allocated,
an allocation otherwise. -/
theorem HookInv.report {s : HookSys} (hI : HookInv s) {t a : Nat} {b : Bool} {pc : HookPc}
    {env : HookEnv} {op : HvOp} {size : Nat} (h : (s.pc t).holds = some (a, b))
    (h' : pc.holds = some (a, !b)) (hop : (op.code != HvOp.free.code) = !b) (hsize : pc.sized) :
    HookInv ((s.emit t env op a size).goto t pc) := by
  obtain ⟨hlive, hrep, hheld⟩ := hI.busy t a b h
  refine hI.move t rfl (fun c _ hc => ⟨rfl, rfl, ?_⟩) ?_ ?_
    ?_ (alternates_emit hI.alternates ?_) hsize
  · refine (reported_concat _ _ c).trans (if_neg fun e => hc ?_)
    exact (HookPc.holds_unique h').mpr e.symm
  · intro c d hd
    obtain ⟨rfl, rfl⟩ := Prod.mk.injEq .. |>.mp (Option.some.inj (h'.symm.trans hd))
    exact ⟨hlive, (reported_concat _ _ a).trans ((if_pos rfl).trans hop), hheld⟩
  · intro c hc
    rw [(HookPc.holds_unique h').mp hc]
    exact .inl ⟨b, h⟩
  · intro c hc hc'
    exact absurd ((HookPc.holds_unique h').mpr ((HookPc.holds_unique h).mp hc)) hc'
  · simp only [HvPush.isAlloc, hop, Bool.not_not]
    exact hrep

/-- The real allocator hands out a block nobody had. -/
theorem HookInv.gain {s : HookSys} (hI : HookInv s) {t p size : Nat} {pc : HookPc}
    (h : (s.pc t).holds = none) (hpc : pc.holds = some (p, false)) (hp : s.blocks p = none)
    (hsize : pc.sized) : HookInv ((s.setBlock p (some size)).goto t pc) := by
  have hfree := hI.free_of_dead hp
  obtain ⟨hheld, hrep⟩ := hI.rest p hfree
  rw [hp] at hheld hrep
  refine hI.move t rfl (fun a _ ha => ⟨?_, rfl, rfl⟩) ?_ ?_
    (fun a ha => absurd ha (HookPc.not_holds h a)) hI.alternates hsize
  · exact Function.update_of_ne (fun e => ha ((HookPc.holds_unique hpc).mpr e)) _ _
  · intro a b hb
    obtain ⟨rfl, rfl⟩ := Prod.mk.injEq .. |>.mp (Option.some.inj (hpc.symm.trans hb))
    exact ⟨by simp [HookSys.goto, HookSys.setBlock], hrep, hheld⟩
  · intro a ha
    rw [(HookPc.holds_unique hpc).mp ha]
    exact .inr hfree

/-- The real allocator takes back a block already reported free. -/
theorem HookInv.release {s : HookSys} (hI : HookInv s) {t a : Nat} {pc : HookPc}
    (h : (s.pc t).holds = some (a, false)) (hpc : pc.holds = none) (hsize : pc.sized) :
    HookInv ((s.setBlock a none).goto t pc) := by
  obtain ⟨-, hrep, hheld⟩ := hI.busy t a false h
  refine hI.move t rfl (fun c hc _ => ⟨?_, rfl, rfl⟩) ?_ ?_ ?_ hI.alternates hsize
  · exact Function.update_of_ne (fun e => hc ((HookPc.holds_unique h).mpr e)) _ _
  · intro c d hd
    rw [hpc] at hd; cases hd
  · intro c hc
    exact absurd hc (HookPc.not_holds hpc c)
  · intro c hc _
    rw [(HookPc.holds_unique h).mp hc]
    have : (Function.update s.blocks a none a).isSome = false := by simp
    exact ⟨hheld.trans this.symm, hrep.trans this.symm⟩

/-- The real `realloc` answers for the block itself, in place or with NULL. -/
theorem HookInv.keep {s : HookSys} (hI : HookInv s) {t a : Nat} {pc : HookPc}
    {blocks : Nat → Option Nat} (h : (s.pc t).holds = some (a, false))
    (hpc : pc.holds = some (a, false)) (hblocks : ∀ c, c ≠ a → blocks c = s.blocks c)
    (hlive : (blocks a).isSome = true) (hsize : pc.sized) :
    HookInv ({ s with blocks := blocks }.goto t pc) := by
  obtain ⟨-, hrep, hheld⟩ := hI.busy t a false h
  refine hI.move t rfl (fun c hc _ => ⟨?_, rfl, rfl⟩) ?_ ?_ ?_ hI.alternates hsize
  · exact hblocks c fun e => hc ((HookPc.holds_unique h).mpr e)
  · intro c d hd
    obtain ⟨rfl, rfl⟩ := Prod.mk.injEq .. |>.mp (Option.some.inj (hpc.symm.trans hd))
    exact ⟨hlive, hrep, hheld⟩
  · intro c hc
    rw [(HookPc.holds_unique hpc).mp hc]
    exact .inl ⟨false, h⟩
  · intro c hc hc'
    exact absurd ((HookPc.holds_unique hpc).mpr ((HookPc.holds_unique h).mp hc)) hc'

/-- The real `realloc` moves: the old block goes back and a fresh one comes
out in one access. -/
theorem HookInv.relocate {s : HookSys} (hI : HookInv s) {t a p size : Nat} {pc : HookPc}
    (h : (s.pc t).holds = some (a, false)) (hpc : pc.holds = some (p, false)) (hpa : p ≠ a)
    (hp : s.blocks p = none) (hsize : pc.sized) :
    HookInv (((s.setBlock a none).setBlock p (some size)).goto t pc) := by
  obtain ⟨-, hrepa, hhelda⟩ := hI.busy t a false h
  have hfree := hI.free_of_dead hp
  obtain ⟨hheld, hrep⟩ := hI.rest p hfree
  rw [hp] at hheld hrep
  refine hI.move t rfl (fun c hc hc' => ⟨?_, rfl, rfl⟩) ?_ ?_ ?_ hI.alternates hsize
  · refine (Function.update_of_ne (fun e => hc' ((HookPc.holds_unique hpc).mpr e)) _ _).trans ?_
    exact Function.update_of_ne (fun e => hc ((HookPc.holds_unique h).mpr e)) _ _
  · intro c d hd
    obtain ⟨rfl, rfl⟩ := Prod.mk.injEq .. |>.mp (Option.some.inj (hpc.symm.trans hd))
    exact ⟨by simp [HookSys.goto, HookSys.setBlock], hrep, hheld⟩
  · intro c hc
    rw [(HookPc.holds_unique hpc).mp hc]
    exact .inr hfree
  · intro c hc _
    rw [(HookPc.holds_unique h).mp hc]
    have : (Function.update (Function.update s.blocks a none) p (some size) a).isSome = false := by
      rw [Function.update_of_ne hpa.symm]; simp
    exact ⟨hhelda.trans this.symm, hrepa.trans this.symm⟩

/-- A hook returns and the block it held is the target's again. -/
theorem HookInv.handBack {s : HookSys} (hI : HookInv s) {t a : Nat}
    (h : (s.pc t).holds = some (a, true)) :
    HookInv { s.goto t .idle with held := Function.update s.held a true } := by
  obtain ⟨hlive, hrep, -⟩ := hI.busy t a true h
  refine hI.move t rfl (fun c hc _ => ⟨rfl, ?_, rfl⟩) (fun c d hd => by cases hd)
    (fun c hc => absurd hc (HookPc.not_holds rfl c)) (fun c hc _ => ?_) hI.alternates trivial
  · exact Function.update_of_ne (fun e => hc ((HookPc.holds_unique h).mpr e)) _ _
  · rw [(HookPc.holds_unique h).mp hc]
    exact ⟨(Function.update_self ..).trans hlive.symm, hrep.trans hlive.symm⟩

/-- The target behaves: it frees or reallocates NULL, an arena block or a
block it holds, and the last of these never to size zero. -/
def Disciplined (arena : Nat) (s : HookSys) : HookAct → Prop
  | .call _ (.free ptr) =>
      ptr = 0 ∨ hvIsBootstrapPtr arena ptr = true ∨ s.held ptr = true
  | .call _ (.realloc ptr size) =>
      ptr = 0 ∨ hvIsBootstrapPtr arena ptr = true ∨ (s.held ptr = true ∧ size ≠ 0)
  | _ => True

instance (arena : Nat) (s : HookSys) : ∀ a, Decidable (Disciplined arena s a)
  | .call _ (.free _) => inferInstanceAs (Decidable (_ ∨ _ ∨ _))
  | .call _ (.realloc _ _) => inferInstanceAs (Decidable (_ ∨ _ ∨ _))
  | .call _ (.malloc _) => .isTrue trivial
  | .call _ (.calloc _ _) => .isTrue trivial
  | .call _ (.posixMemalign _ _) => .isTrue trivial
  | .call _ (.alignedAlloc _ _) => .isTrue trivial
  | .call _ (.memalign _ _) => .isTrue trivial
  | .call _ (.valloc _) => .isTrue trivial
  | .call _ (.pvalloc _) => .isTrue trivial
  | .access _ _ => .isTrue trivial

theorem HookInv.call {arena : Nat} {s s' : HookSys} {t : Nat} {c : HookCall} (hI : HookInv s)
    (hd : Disciplined arena s (.call t c)) (h : s.step arena (.call t c) = some s') :
    HookInv s' := by
  obtain ⟨hidle, hs'⟩ := Option.ite_none_right_eq_some.mp h
  obtain rfl := Option.some.inj hs'
  have hnone : (s.pc t).holds = none := by rw [hidle]; rfl
  cases c with
  | free ptr =>
      by_cases hskip : ptr = 0 ∨ hvIsBootstrapPtr arena ptr = true
      · rw [hookCall_free_skip hskip]
        exact hI.pass hnone rfl trivial
      · have hheld : s.held ptr = true := (or_assoc.mpr hd).resolve_left hskip
        rw [hookCall_free hskip]
        exact hI.give hnone rfl hheld trivial
  | realloc ptr size =>
      by_cases hskip : ptr = 0 ∨ hvIsBootstrapPtr arena ptr = true
      · rw [hookCall_realloc_skip hskip]
        exact hI.pass hnone rfl trivial
      · obtain ⟨hheld, hsize⟩ := (or_assoc.mpr hd).resolve_left hskip
        rw [hookCall_realloc hskip]
        exact hI.give hnone rfl hheld hsize
  | _ => exact hI.pass hnone rfl trivial

theorem HookInv.access {arena : Nat} {s s' : HookSys} {t : Nat} {env : HookEnv}
    (hI : HookInv s) (h : s.step arena (.access t env) = some s') : HookInv s' := by
  have hsized := hI.sized t
  simp only [HookSys.step, HookSys.access] at h
  cases hpc : s.pc t with
  | idle => simp [hpc] at h
  | realAlloc hk =>
      rw [hpc] at h
      cases hres : env.result with
      | none =>
          simp only [hres, Option.some.injEq] at h
          exact h ▸ hI.pass (by rw [hpc]; rfl) rfl trivial
      | some p =>
          simp only [hres, Option.ite_none_right_eq_some, Option.some.injEq] at h
          obtain ⟨⟨hfresh, -⟩, rfl⟩ := h
          exact hI.gain (by rw [hpc]; rfl) rfl hfresh.2.2 trivial
  | emitAlloc hk p =>
      rw [hpc] at h
      obtain rfl := Option.some.inj h
      exact hI.report (b := false) (by rw [hpc]; rfl) rfl (HvOp.isAlloc_of_ne hk.op_ne) trivial
  | emitFree ptr =>
      rw [hpc] at h
      obtain rfl := Option.some.inj h
      exact hI.report (b := true) (by rw [hpc]; rfl) rfl rfl trivial
  | realFree ptr =>
      rw [hpc] at h
      obtain rfl := Option.some.inj h
      exact hI.release (by rw [hpc]; rfl) rfl trivial
  | emitRelease ptr size =>
      rw [hpc] at h hsized
      obtain rfl := Option.some.inj h
      exact hI.report (b := true) (by rw [hpc]; rfl) rfl rfl hsized
  | realRealloc ptr size =>
      rw [hpc] at h hsized
      have hsz : size ≠ 0 := hsized
      have hold : (s.pc t).holds = some (ptr, false) := by rw [hpc]; rfl
      cases hres : env.result with
      | none =>
          simp only [hres, if_neg hsz, Option.some.injEq] at h
          exact h ▸ hI.keep hold rfl (fun _ _ => rfl) (hI.busy t _ _ hold).1 hsz
      | some p =>
          simp only [hres, if_neg hsz] at h
          by_cases hp : p = ptr
          · rw [if_pos hp] at h
            obtain rfl := Option.some.inj h
            subst hp
            exact hI.keep hold rfl (fun c hc => Function.update_of_ne hc _ _) (by simp) hsz
          · simp only [if_neg hp, Option.ite_none_right_eq_some, Option.some.injEq] at h
            obtain ⟨hfresh, rfl⟩ := h
            exact hI.relocate hold rfl hp hfresh.2.2 hsz
  | emitRealloc ptr size p =>
      rw [hpc] at h hsized
      cases p with
      | some p =>
          obtain rfl := Option.some.inj h
          exact hI.report (b := false) (by rw [hpc]; rfl) rfl rfl trivial
      | none =>
          have hsz : size ≠ 0 := hsized
          simp only [if_neg hsz, Option.some.injEq] at h
          exact h ▸ hI.report (b := false) (by rw [hpc]; rfl) rfl rfl trivial
  | ret value back =>
      rw [hpc] at h
      obtain rfl := Option.some.inj h
      cases back with
      | none => exact hI.pass (by rw [hpc]; rfl) rfl trivial
      | some p => exact hI.handBack (by rw [hpc]; rfl)

theorem HookInv.step {arena : Nat} (s : HookSys) (a : HookAct) (s' : HookSys) (hI : HookInv s)
    (hd : Disciplined arena s a) (h : s.step arena a = some s') : HookInv s' := by
  cases a with
  | call t c => exact hI.call hd h
  | access t env => exact hI.access h

/-! ## Whole runs -/

/-- **Event order.** In every run of a well-behaved target the events of
every address alternate, starting with an allocation, and between calls
the addresses last reported allocated are the live blocks. -/
theorem hook_event_order {arena : Nat} {acts : List HookAct} {s : HookSys}
    (hd : Run.Guarded (HookSys.step arena) (Disciplined arena) HookSys.init acts)
    (hrun : Run.run (HookSys.step arena) HookSys.init acts = some s) :
    (∀ a, Alternates (eventsOf s.ring a)) ∧
      ((∀ t, s.pc t = .idle) → ∀ a, reported s.ring a = true ↔ s.blocks a ≠ none) := by
  have hI := Run.guarded_invariant HookInv.step HookInv.init hd hrun
  refine ⟨hI.alternates, fun hidle a => ?_⟩
  have hfree : ∀ t, ¬ (s.pc t).Holds a := fun t => by
    rw [hidle t]
    exact HookPc.not_holds rfl a
  rw [(hI.rest a hfree).2, Option.isSome_iff_ne_none]

/-- Thread 1 frees a block of thread 0, and before that `free` returns
thread 2 is given the same address and moves away from it. -/
def recycledRun : List HookAct :=
  [.call 0 (.malloc 24), .access 0 ⟨1, 24, some 4096⟩, .access 0 ⟨2, 24, none⟩,
    .access 0 ⟨3, 24, none⟩, .call 1 (.free 4096), .access 1 ⟨4, 24, none⟩,
    .call 2 (.calloc 2 8), .access 1 ⟨5, 24, none⟩, .access 2 ⟨6, 24, some 4096⟩,
    .access 2 ⟨7, 24, none⟩, .access 2 ⟨8, 24, none⟩, .call 2 (.realloc 4096 64),
    .access 2 ⟨9, 24, none⟩, .access 2 ⟨10, 24, some 8192⟩, .access 1 ⟨11, 24, none⟩,
    .access 2 ⟨12, 72, none⟩]

theorem hook_event_order_recycled : ∃ s,
    Run.run (HookSys.step 65536) HookSys.init recycledRun = some s ∧
      eventsOf s.ring 4096 = [true, false, true, false] ∧
      Alternates (eventsOf s.ring 4096) ∧
      ((∀ t, s.pc t = .idle) → (reported s.ring 8192 = true ↔ s.blocks 8192 ≠ none)) := by
  have hobs : (Run.run (HookSys.step 65536) HookSys.init recycledRun).map
      (fun s => eventsOf s.ring 4096) = some [true, false, true, false] := by
    decide
  obtain ⟨s, hrun, hevents⟩ := Option.map_eq_some_iff.mp hobs
  obtain ⟨halt, hlive⟩ := hook_event_order (by decide) hrun
  exact ⟨s, hrun, hevents, halt 4096, fun h => hlive h 8192⟩

end Heapviz
