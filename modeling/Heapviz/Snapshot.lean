import Heapviz.HeapFade
import Heapviz.WalkBytes

/-!
# Snapshot mode

`HeapApp::snapshot`: a session without events. Every pass walks the
target's heap and replaces the model by what it found; the one thing it
takes over from the outgoing table is when an address was first seen.

What that figure means is said with the history of passes: the time of
the first pass of the unbroken run, up to now, of passes that found the
address (`firstSeen`). A pass that was denied, or whose target is gone,
leaves the model as it is. It is also the last one that walks: both are
latched, so no run of passes goes on behind it.
-/

namespace Heapviz

open ChunkTable

/-! ## The pass -/

def kSnapshotIntervalMs : Nat := 250

def kSnapshotDutyFactor : Nat := 8

/-- A session in snapshot mode. -/
structure SnapshotApp where
  app : HeapApp
  walker : HeapWalker
  walked : List WalkedChunk
  walk : WalkResult
  walkLastMs : Nat
  walkCostMs : Nat
  walkIntervalMs : Nat
  walkedOnce : Bool

/-- What the world says during a pass: the regions of the last scan, what the
reads answer, and how long it all takes. -/
structure PassEnv where
  regions : List Mapping
  read : ReadFn
  costMs : Nat

/-- When the address was first seen, by the outgoing table. -/
def HeapApp.firstMs (a : HeapApp) (c : WalkedChunk) : Nat :=
  match a.table.lookup c.userPtr with
  | some prev => if prev.state = .live then prev.allocMs else a.nowMs
  | none => a.nowMs

def HeapApp.insertWalked (a : HeapApp) (p : WalkedChunk × Nat) : HeapApp :=
  { a with
    table := (a.table.insertLive p.1.userPtr (HeapApp.clampU32 p.1.usable)
      (HeapApp.clampU32 p.1.usable) p.2 0).1
    live := a.live + 1
    liveBytes := a.liveBytes + p.1.usable }

/-- The model replaced by what was walked. -/
def HeapApp.replaceModel (a : HeapApp) (walked : List WalkedChunk) : HeapApp :=
  let firsts := walked.map a.firstMs
  let a := { a with table := a.table.clear, live := 0, liveBytes := 0 }
  let a := (walked.zip firsts).foldl HeapApp.insertWalked a
  { a with map := a.map.rebuild a.translation a.table }

namespace SnapshotApp

/-- Whether a pass is due. -/
def due (a : SnapshotApp) : Bool :=
  a.app.state = .live && !a.app.paused &&
    !(a.walkedOnce && sub32 a.app.nowMs a.walkLastMs < a.walkIntervalMs)

/-- `snapshot` at `a.app.nowMs`; the flag is whether it walked. -/
def snapshot (a : SnapshotApp) (env : PassEnv) : SnapshotApp × Bool :=
  if a.due = false then (a, false)
  else
    let (walker, walked, r) := a.walker.walk env.read env.regions
    let a := { a with
      walkLastMs := a.app.nowMs
      walkedOnce := true
      walker := walker
      walked := walked
      walk := r }
    if r.status = .denied ∨ r.status = .targetGone then
      ({ a with walkCostMs := 0, walkIntervalMs := kSnapshotIntervalMs }, true)
    else
      ({ a with
        app := a.app.replaceModel walked
        walkCostMs := HeapApp.clampU32 env.costMs
        walkIntervalMs := max kSnapshotIntervalMs
          (HeapApp.clampU32 env.costMs * kSnapshotDutyFactor % 2 ^ 32) }, true)

/-- `enable_snapshots` on a session that is not attached. -/
def new (unicode : Bool) (originNs : Nat) : SnapshotApp where
  app := { HeapApp.new false unicode originNs with state := .live }
  walker := HeapWalker.init
  walked := []
  walk := WalkResult.init
  walkLastMs := 0
  walkCostMs := 0
  walkIntervalMs := kSnapshotIntervalMs
  walkedOnce := false

end SnapshotApp

/-! ## The session and its passes -/

/-- A pass that walked: when, how it ended, and the addresses it found. -/
structure SnapPass where
  nowMs : Nat
  status : WalkStatus
  found : List Nat
deriving Repr, DecidableEq

/-- The passes up to the last that found the address, without a break and the
last first. -/
def unbroken (addr : Nat) (passes : List SnapPass) : List SnapPass :=
  passes.reverse.takeWhile fun p => p.status = .ok && addr ∈ p.found

/-- When the unbroken run of passes that find the address began. -/
def firstSeen (addr : Nat) (passes : List SnapPass) : Option Nat :=
  (unbroken addr passes).getLast?.map SnapPass.nowMs

/-- A session in snapshot mode. `passes` is history. -/
structure SnapSys where
  snap : SnapshotApp
  passes : List SnapPass

/-- What happens to it: the parts of `update` in whatever order, a resize, the
Space key. No events come, and nothing is enriched. -/
inductive SnapAct where
  | tick (env : HeapApp.UpdateEnv)
  | rescan (env : HeapApp.UpdateEnv)
  | pass (env : PassEnv)
  | refitDirty
  | resized (w h : Int)
  | space

namespace SnapSys

def init (unicode : Bool) (originNs : Nat) : SnapSys := ⟨SnapshotApp.new unicode originNs, []⟩

def withApp (s : SnapSys) (app : HeapApp) : SnapSys := { s with snap := { s.snap with app := app } }

/-- A pass, recorded if it walked. -/
def pass (s : SnapSys) (env : PassEnv) : SnapSys :=
  let (snap, walked) := s.snap.snapshot env
  { snap := snap
    passes := if walked then s.passes ++
      [⟨s.snap.app.nowMs, snap.walk.status, snap.walked.map WalkedChunk.userPtr⟩] else s.passes }

def step (s : SnapSys) : SnapAct → Option SnapSys
  | .tick env => some (s.withApp (s.snap.app.tick env))
  | .rescan env => some (s.withApp (s.snap.app.rescan env).1)
  | .pass env => some (s.pass env)
  | .refitDirty => some (s.withApp s.snap.app.refitDirty)
  | .resized w h => some (s.withApp (s.snap.app.resized w h))
  | .space => some (s.withApp s.snap.app.keySpace)

end SnapSys

/-- The regions of the pass are disjoint and below `2 ^ 63`. -/
def PassEnv.Valid (env : PassEnv) : Prop :=
  (∀ r ∈ env.regions, r.Low) ∧ env.regions.Pairwise Mapping.Disjoint

def SnapAct.Valid : SnapAct → Prop
  | .pass env => env.Valid
  | .tick _ | .rescan _ | .refitDirty | .resized _ _ | .space => True

/-! ## First seen -/

section FirstSeen

variable {addr : Nat} {passes : List SnapPass} {p : SnapPass}

theorem firstSeen_concat_found (hok : p.status = .ok) (h : addr ∈ p.found) :
    firstSeen addr (passes ++ [p]) = some ((firstSeen addr passes).getD p.nowMs) := by
  have hrun : unbroken addr (passes ++ [p]) = p :: unbroken addr passes := by
    rw [unbroken, List.reverse_append, List.reverse_singleton, List.singleton_append,
      List.takeWhile_cons_of_pos (by simp [hok, h])]
    rfl
  rw [firstSeen, hrun, firstSeen]
  cases hlast : (unbroken addr passes).getLast? with
  | none =>
      rw [List.getLast?_eq_none_iff.mp hlast]
      rfl
  | some q => rw [List.getLast?_cons, hlast]; rfl

theorem firstSeen_concat_lost (h : ¬ (p.status = .ok ∧ addr ∈ p.found)) :
    firstSeen addr (passes ++ [p]) = none := by
  have hrun : unbroken addr (passes ++ [p]) = [] := by
    rw [unbroken, List.reverse_append, List.reverse_singleton, List.singleton_append,
      List.takeWhile_cons_of_neg (by simpa using h)]
  rw [firstSeen, hrun]
  rfl

end FirstSeen

/-! ## The table replaced -/

/-- The entry of a walked chunk. -/
def walkedEntry (p : WalkedChunk × Nat) : ChunkEntry :=
  ⟨HeapApp.clampU32 p.1.usable, HeapApp.clampU32 p.1.usable, p.2, 0, 0, .live⟩

section Replace

variable {a : HeapApp} {m : ChunkMap} {ps : List (WalkedChunk × Nat)}

/-- Inserted one after the other, chunks at different addresses are all there,
and what was not inserted is as before. -/
theorem HeapApp.insertWalked_models (hm : a.table.Models m)
    (hne : ∀ p ∈ ps, p.1.userPtr ≠ 0) (hnodup : (ps.map fun p => p.1.userPtr).Nodup) :
    ∃ m', (ps.foldl HeapApp.insertWalked a).table.Models m' ∧
      (∀ p ∈ ps, m' p.1.userPtr = some (walkedEntry p)) ∧
      ∀ key, key ∉ ps.map (fun p => p.1.userPtr) → m' key = m key := by
  induction ps generalizing a m with
  | nil => exact ⟨m, hm, fun p hp => absurd hp List.not_mem_nil, fun _ _ => rfl⟩
  | cons p ps ih =>
      rw [List.map_cons, List.nodup_cons] at hnodup
      have hstep := (hm.insertLive p.1.userPtr (HeapApp.clampU32 p.1.usable)
        (HeapApp.clampU32 p.1.usable) p.2 0).1
      have heq : (ChunkMap.step m (.insertLive p.1.userPtr (HeapApp.clampU32 p.1.usable)
          (HeapApp.clampU32 p.1.usable) p.2 0)).1 =
            Function.update m p.1.userPtr (some (walkedEntry p)) := by
        rw [ChunkMap.step, if_neg (hne p List.mem_cons_self)]
        rfl
      rw [heq] at hstep
      obtain ⟨m', hm', hin, hout⟩ := @ih (a.insertWalked p) _ hstep
        (fun q hq => hne q (List.mem_cons_of_mem _ hq)) hnodup.2
      refine ⟨m', hm', ?_, ?_⟩
      · intro q hq
        rcases List.mem_cons.mp hq with rfl | hq
        · rw [hout _ hnodup.1, Function.update_self]
        · exact hin q hq
      · intro key hkey
        rw [List.map_cons, List.mem_cons, not_or] at hkey
        rw [hout key hkey.2, Function.update_of_ne hkey.1]

theorem HeapApp.insertWalked_totals (ps : List (WalkedChunk × Nat)) :
    (ps.foldl HeapApp.insertWalked a).live = a.live + ps.length ∧
      (ps.foldl HeapApp.insertWalked a).liveBytes =
        a.liveBytes + (ps.map fun p => p.1.usable).sum := by
  induction ps generalizing a with
  | nil => exact ⟨rfl, rfl⟩
  | cons p ps ih =>
      obtain ⟨hlive, hbytes⟩ := @ih (a.insertWalked p)
      rw [List.foldl_cons, hlive, hbytes, List.length_cons, List.map_cons, List.sum_cons]
      exact ⟨by dsimp only [HeapApp.insertWalked]; omega,
        by dsimp only [HeapApp.insertWalked]; omega⟩

/-- What replacing the model leaves: the walked addresses, each with its entry,
and their totals. -/
theorem HeapApp.replaceModel_spec {walked : List WalkedChunk} (hm : a.table.Models m)
    (hne : ∀ c ∈ walked, c.userPtr ≠ 0) (hnodup : (walked.map WalkedChunk.userPtr).Nodup) :
    (∃ m', (a.replaceModel walked).table.Models m' ∧
      (∀ c ∈ walked, m' c.userPtr = some (walkedEntry (c, a.firstMs c))) ∧
      ∀ key, key ∉ walked.map WalkedChunk.userPtr → m' key = none) ∧
      (a.replaceModel walked).live = walked.length ∧
      (a.replaceModel walked).liveBytes = (walked.map WalkedChunk.usable).sum := by
  have hzip : walked.zip (walked.map a.firstMs) = walked.map fun c => (c, a.firstMs c) :=
    List.map_prod_left_eq_zip.symm
  have hkeys : ((walked.map fun c => (c, a.firstMs c)).map fun p => p.1.userPtr) =
      walked.map WalkedChunk.userPtr := by
    rw [List.map_map]
    rfl
  have husable : ((walked.map fun c => (c, a.firstMs c)).map fun p => p.1.usable) =
      walked.map WalkedChunk.usable := by
    rw [List.map_map]
    rfl
  have hclear : ({ a with table := a.table.clear, live := 0, liveBytes := 0 } :
      HeapApp).table.Models fun _ => none := hm.clear
  unfold HeapApp.replaceModel
  dsimp only
  rw [hzip]
  obtain ⟨m', hm', hin, hout⟩ := HeapApp.insertWalked_models hclear
    (fun p hp => by obtain ⟨c, hc, rfl⟩ := List.mem_map.mp hp; exact hne c hc)
    (hkeys ▸ hnodup)
  obtain ⟨hlive, hbytes⟩ := @HeapApp.insertWalked_totals
    { a with table := a.table.clear, live := 0, liveBytes := 0 }
    (walked.map fun c => (c, a.firstMs c))
  rw [hkeys] at hout
  refine ⟨⟨m', hm', ?_, hout⟩, ?_, ?_⟩
  · intro c hc
    exact hin (c, a.firstMs c) (List.mem_map.mpr ⟨c, hc, rfl⟩)
  · rw [hlive, List.length_map, Nat.zero_add]
  · rw [hbytes, husable, Nat.zero_add]

end Replace

/-! ## Denied and gone are latched -/

section Latched

variable {w : HeapWalker} {read : ReadFn} {regions : List Mapping}

/-- A walk over regions that does not end well has lost its target. -/
theorem HeapWalker.walkRegions_latched {out : List WalkedChunk} {sum : WalkResult}
    (hlow : ∀ r ∈ regions, r.Low) (hsum : sum.status = .ok)
    (h : (walkRegions read regions w out sum).2.2.status ≠ .ok) :
    (walkRegions read regions w out sum).1.denied = true ∧
        (walkRegions read regions w out sum).2.2.status = .denied ∨
      (walkRegions read regions w out sum).1.gone = true ∧
        (walkRegions read regions w out sum).2.2.status = .targetGone := by
  induction regions generalizing w out sum with
  | nil => exact absurd hsum h
  | cons r rs ih =>
      have hlow' : ∀ r' ∈ rs, r'.Low := fun r' hr' => hlow r' (List.mem_cons_of_mem _ hr')
      cases hwalk : r.walkable with
      | false =>
          rw [walkRegions_skip hwalk] at h ⊢
          exact ih hlow' hsum h
      | true =>
          obtain ⟨-, -, -, -, -, hstatus⟩ :=
            w.walkRegion_out read (hlow r List.mem_cons_self) out sum
          rw [walkRegions, if_neg (by rw [hwalk]; exact Bool.true_eq_false_eq_False)] at h ⊢
          dsimp only at h ⊢
          by_cases hdenied : (w.walkRegion read r out sum).1.denied = true
          · rw [if_pos hdenied]
            exact .inl ⟨hdenied, rfl⟩
          · by_cases hgone : (w.walkRegion read r out sum).1.gone = true
            · rw [if_neg hdenied, if_pos hgone]
              exact .inr ⟨hgone, rfl⟩
            · rw [if_neg hdenied, if_neg hgone] at h ⊢
              exact ih hlow' (hstatus.trans hsum) h

/-- A walk that does not end well leaves the walker unable to walk, and a
walker that is does not walk. -/
theorem HeapWalker.walk_latched (hlow : ∀ r ∈ regions, r.Low)
    (h : (w.walk read regions).2.2.status ≠ .ok) :
    ((w.walk read regions).1.denied = true ∨ (w.walk read regions).1.gone = true) ∧
      ((w.walk read regions).2.2.status = .denied ∨
        (w.walk read regions).2.2.status = .targetGone) := by
  unfold walk at h ⊢
  by_cases hdenied : w.denied = true
  · rw [if_pos hdenied]
    exact ⟨.inl hdenied, .inl rfl⟩
  · by_cases hgone : w.gone = true
    · rw [if_neg hdenied, if_pos hgone]
      exact ⟨.inr hgone, .inr rfl⟩
    · rw [if_neg hdenied, if_neg hgone] at h ⊢
      rcases walkRegions_latched hlow rfl h with ⟨hd, hs⟩ | ⟨hg, hs⟩
      · exact ⟨.inl hd, .inl hs⟩
      · exact ⟨.inr hg, .inr hs⟩

theorem HeapWalker.walk_available (h : (w.walk read regions).2.2.status = .ok) :
    w.denied = false ∧ w.gone = false := by
  unfold walk at h
  by_cases hdenied : w.denied = true
  · rw [if_pos hdenied] at h
    cases h
  · by_cases hgone : w.gone = true
    · rw [if_neg hdenied, if_pos hgone] at h
      cases h
    · exact ⟨Bool.eq_false_iff.mpr hdenied, Bool.eq_false_iff.mpr hgone⟩

end Latched

/-! ## Every pass -/

/-- A pass that walked, by how the walk ended. -/
theorem SnapshotApp.snapshot_cases {a : SnapshotApp} {env : PassEnv}
    (h : (a.snapshot env).2 = true) :
    (a.snapshot env).1.walker = (a.walker.walk env.read env.regions).1 ∧
      (a.snapshot env).1.walked = (a.walker.walk env.read env.regions).2.1 ∧
      (a.snapshot env).1.walk = (a.walker.walk env.read env.regions).2.2 ∧
      (((a.snapshot env).1.walk.status = .denied ∨ (a.snapshot env).1.walk.status = .targetGone) ∧
          (a.snapshot env).1.app = a.app ∨
        ¬ ((a.snapshot env).1.walk.status = .denied ∨
            (a.snapshot env).1.walk.status = .targetGone) ∧
          (a.snapshot env).1.app = a.app.replaceModel (a.snapshot env).1.walked) := by
  by_cases hdue : a.due = false
  · rw [SnapshotApp.snapshot, if_pos hdue] at h
    cases h
  · by_cases hstatus : (a.walker.walk env.read env.regions).2.2.status = .denied ∨
        (a.walker.walk env.read env.regions).2.2.status = .targetGone
    · simp only [SnapshotApp.snapshot, if_neg hdue, if_pos hstatus]
      exact ⟨trivial, trivial, trivial, .inl ⟨hstatus, trivial⟩⟩
    · simp only [SnapshotApp.snapshot, if_neg hdue, if_neg hstatus]
      exact ⟨trivial, trivial, trivial, .inr ⟨hstatus, trivial⟩⟩

/-- The passes that ended well. -/
def okPasses (passes : List SnapPass) : List SnapPass := passes.filter fun p => p.status = .ok

/-- The table holds what the passes that ended well have found last, live and
with when it was first seen; behind one that did not, none walks. -/
structure SnapInv (s : SnapSys) : Prop where
  seen : ∃ m, s.snap.app.table.Models m ∧ ∀ key,
    (m key).map (fun e => (e.state, e.allocMs)) =
      (firstSeen key (okPasses s.passes)).map fun ms => (.live, ms)
  latched : (∃ p ∈ s.passes, p.status ≠ .ok) →
    s.snap.walker.denied = true ∨ s.snap.walker.gone = true

section Pass

variable {s : SnapSys} {env : PassEnv}

theorem SnapInv.init (unicode : Bool) (originNs : Nat) :
    SnapInv (SnapSys.init unicode originNs) where
  seen := ⟨fun _ => none,
    (ChunkTable.Models.new 1024).same (HeapApp.new_table false unicode originNs), fun _ => rfl⟩
  latched := fun ⟨_, hp, _⟩ => absurd hp List.not_mem_nil

/-- What a pass takes over: the time the history gives. -/
theorem SnapInv.firstMs (h : SnapInv s) (c : WalkedChunk) :
    s.snap.app.firstMs c =
      (firstSeen c.userPtr (okPasses s.passes)).getD s.snap.app.nowMs := by
  obtain ⟨m, hm, hseen⟩ := h.seen
  have hkey := hseen c.userPtr
  rw [← hm.lookup, Option.map_map] at hkey
  unfold HeapApp.firstMs
  cases hlookup : s.snap.app.table.lookup c.userPtr with
  | none =>
      rw [hlookup, Option.map_none] at hkey
      rw [Option.map_eq_none_iff.mp hkey.symm]
      rfl
  | some prev =>
      rw [hlookup, Option.map_some] at hkey
      obtain ⟨ms, hms, heq⟩ := Option.map_eq_some_iff.mp hkey.symm
      obtain ⟨hstate, halloc⟩ := Prod.mk.inj heq
      have hlive : prev.state = .live := hstate.symm
      rw [hms]
      dsimp only
      rw [if_pos hlive]
      exact halloc.symm

/-- Behind a pass that ended well, every pass has. -/
theorem SnapInv.all_ok (h : SnapInv s)
    (hok : (s.snap.walker.walk env.read env.regions).2.2.status = .ok) :
    okPasses s.passes = s.passes := by
  obtain ⟨hdenied, hgone⟩ := HeapWalker.walk_available hok
  refine List.filter_eq_self.mpr ?_
  intro p hp
  by_contra hne
  rcases h.latched ⟨p, hp, by simpa using hne⟩ with hd | hg
  · rw [hdenied] at hd
    cases hd
  · rw [hgone] at hg
    cases hg

theorem SnapSys.pass_passes (h : (s.snap.snapshot env).2 = true) :
    (s.pass env).passes = s.passes ++ [⟨s.snap.app.nowMs, (s.pass env).snap.walk.status,
      (s.pass env).snap.walked.map WalkedChunk.userPtr⟩] := by
  simp only [SnapSys.pass, h, if_true]

/-- After a pass that ended well the table holds what it found, each address
live since the unbroken run of passes that find it began. -/
theorem SnapInv.pass_ok (h : SnapInv s) (henv : env.Valid)
    (hwalked : (s.snap.snapshot env).2 = true) (hok : (s.pass env).snap.walk.status = .ok) :
    (∃ m, (s.pass env).snap.app.table.Models m ∧
      (∀ c ∈ (s.pass env).snap.walked, ∃ ms,
        firstSeen c.userPtr (okPasses (s.pass env).passes) = some ms ∧
          m c.userPtr = some (walkedEntry (c, ms))) ∧
      ∀ key, key ∉ (s.pass env).snap.walked.map WalkedChunk.userPtr →
        m key = none ∧ firstSeen key (okPasses (s.pass env).passes) = none) ∧
      ((s.pass env).snap.walked.map WalkedChunk.userPtr).Nodup ∧
      okPasses (s.pass env).passes = (s.pass env).passes ∧
      (s.pass env).snap.app.live = (s.pass env).snap.walked.length ∧
      (s.pass env).snap.app.liveBytes =
        ((s.pass env).snap.walked.map WalkedChunk.usable).sum := by
  obtain ⟨-, hout, hwalk, hdone⟩ := SnapshotApp.snapshot_cases hwalked
  have hpasses := SnapSys.pass_passes hwalked
  have hok' : (s.snap.snapshot env).1.walk.status = .ok := hok
  have hwalkOk : (s.snap.walker.walk env.read env.regions).2.2.status = .ok := hwalk ▸ hok'
  obtain ⟨hnodup, hin, -⟩ := HeapWalker.walk_out henv.1 henv.2 hwalkOk
  rw [← hout] at hnodup hin
  obtain ⟨m, hm, -⟩ := h.seen
  obtain ⟨⟨m', hm', hfound, hlost⟩, hlive, hbytes⟩ := HeapApp.replaceModel_spec hm
    (fun c hc => (by have := (hin c hc).1; omega)) hnodup
  have happ : (s.snap.snapshot env).1.app =
      s.snap.app.replaceModel (s.snap.snapshot env).1.walked := by
    rcases hdone with ⟨hbad, -⟩ | ⟨-, happ⟩
    · rw [hok'] at hbad
      rcases hbad with hbad | hbad <;> cases hbad
    · exact happ
  rw [← happ] at hm' hlive hbytes
  have hall : okPasses (s.pass env).passes = (s.pass env).passes := by
    have hbefore := h.all_ok hwalkOk
    rw [hpasses, okPasses, List.filter_append, ← okPasses, hbefore]
    simp [hok]
  rw [hall]
  refine ⟨⟨m', hm', ?_, fun key hkey => ⟨hlost key hkey, ?_⟩⟩, hnodup, rfl, hlive,
    hbytes⟩
  · intro c hc
    refine ⟨s.snap.app.firstMs c, ?_, hfound c hc⟩
    rw [hpasses, firstSeen_concat_found hok (List.mem_map_of_mem hc), h.firstMs, h.all_ok hwalkOk]
  · rw [hpasses]
    exact firstSeen_concat_lost fun hp => hkey hp.2

/-- Every pass keeps the invariant. -/
theorem SnapInv.pass (h : SnapInv s) (henv : env.Valid) : SnapInv (s.pass env) := by
  cases hwalked : (s.snap.snapshot env).2 with
  | false =>
      have hdue : s.snap.due = false := by
        by_contra hdue
        rw [SnapshotApp.snapshot, if_neg hdue] at hwalked
        dsimp only at hwalked
        split_ifs at hwalked
      have hsame : s.pass env = s := by
        rw [SnapSys.pass, SnapshotApp.snapshot, if_pos hdue]
        rfl
      rw [hsame]
      exact h
  | true =>
      obtain ⟨hwalker, -, hwalk, hdone⟩ := SnapshotApp.snapshot_cases hwalked
      have hpasses := SnapSys.pass_passes hwalked
      by_cases hok : (s.pass env).snap.walk.status = .ok
      · obtain ⟨⟨m, hm, hfound, hlost⟩, -, hall, -, -⟩ := h.pass_ok henv hwalked hok
        refine ⟨⟨m, hm, ?_⟩, fun ⟨p, hp, hbad⟩ => ?_⟩
        · intro key
          by_cases hkey : key ∈ (s.pass env).snap.walked.map WalkedChunk.userPtr
          · obtain ⟨c, hc, rfl⟩ := List.mem_map.mp hkey
            obtain ⟨ms, hms, hentry⟩ := hfound c hc
            rw [hms, hentry]
            rfl
          · rw [(hlost key hkey).1, (hlost key hkey).2]
            rfl
        · rw [← hall, okPasses] at hp
          have := (List.mem_filter.mp hp).2
          exact absurd (by simpa using this) hbad
      · have hok' : (s.snap.snapshot env).1.walk.status ≠ .ok := hok
        obtain ⟨hlatched, hbad⟩ := HeapWalker.walk_latched henv.1 (hwalk ▸ hok')
        have happ : (s.snap.snapshot env).1.app = s.snap.app := by
          rcases hdone with ⟨-, happ⟩ | ⟨hnot, -⟩
          · exact happ
          · rw [hwalk] at hnot
            exact absurd hbad hnot
        have hsame : okPasses (s.pass env).passes = okPasses s.passes := by
          rw [hpasses, okPasses, List.filter_append, ← okPasses]
          simp [hok]
        refine ⟨?_, ?_⟩
        · rw [hsame, show (s.pass env).snap.app = s.snap.app from happ]
          exact h.seen
        · intro _
          rw [show (s.pass env).snap.walker = _ from hwalker]
          exact hlatched

end Pass

/-! ## Every run -/

theorem SnapInv.withApp {s : SnapSys} (h : SnapInv s) {app : HeapApp}
    (happ : ∀ m, s.snap.app.table.Models m → app.table.Models m) : SnapInv (s.withApp app) := by
  obtain ⟨m, hm, hseen⟩ := h.seen
  exact ⟨⟨m, happ m hm, hseen⟩, h.latched⟩

theorem SnapInv.step {s s' : SnapSys} (h : SnapInv s) {x : SnapAct} (hx : x.Valid)
    (hstep : s.step x = some s') : SnapInv s' := by
  cases x with
  | tick env =>
      obtain rfl := Option.some.inj hstep
      refine h.withApp ?_
      intro m hm
      unfold HeapApp.tick
      dsimp only
      split_ifs <;> exact hm
  | rescan env =>
      obtain rfl := Option.some.inj hstep
      refine h.withApp ?_
      intro m hm
      unfold HeapApp.rescan
      split_ifs <;> exact hm
  | pass env =>
      obtain rfl := Option.some.inj hstep
      exact h.pass hx
  | refitDirty =>
      obtain rfl := Option.some.inj hstep
      refine h.withApp ?_
      intro m hm
      unfold HeapApp.refitDirty
      split_ifs
      · exact (HeapApp.refit_records _).models m hm
      · exact hm
  | resized w ht =>
      obtain rfl := Option.some.inj hstep
      exact h.withApp (s.snap.app.resized_records w ht).models
  | space =>
      obtain rfl := Option.some.inj hstep
      refine h.withApp ?_
      intro m hm
      unfold HeapApp.keySpace
      split_ifs <;> exact hm

theorem SnapInv.run {unicode : Bool} {originNs : Nat} {acts : List SnapAct} {s : SnapSys}
    (hacts : ∀ x ∈ acts, x.Valid)
    (hrun : Run.run SnapSys.step (SnapSys.init unicode originNs) acts = some s) : SnapInv s := by
  have hg : Run.Guarded SnapSys.step (fun _ x => x.Valid) (SnapSys.init unicode originNs) acts :=
    Run.guarded_iff.mpr fun as x bs _ heq _ => hacts x (by rw [heq]; simp)
  exact Run.guarded_invariant (fun _ _ _ hs hx hs' => hs.step hx hs')
    (SnapInv.init unicode originNs) hg hrun

/-- **Snapshot mode.** In every run of passes over disjoint regions - whatever
the memory holds and the reads answer, with scans, refits, resizes and
pauses in between - a pass that ends well leaves exactly the walked
addresses in the table, all live, size and usable figure clamped, each
stamped with the first pass of the unbroken run of passes that found it,
and the totals are theirs. A pass that is denied or finds its target gone
leaves the session's model as it was. -/
theorem snapshot_model (unicode : Bool) (originNs : Nat) {acts : List SnapAct} {s : SnapSys}
    (hacts : ∀ x ∈ acts, x.Valid) {env : PassEnv} (henv : env.Valid)
    (hrun : Run.run SnapSys.step (SnapSys.init unicode originNs) acts = some s)
    (hwalked : (s.snap.snapshot env).2 = true) :
    ((s.pass env).snap.walk.status = .ok →
      (s.pass env).snap.app.table.records.map Chunk.key =
          ((s.pass env).snap.walked.map WalkedChunk.userPtr : Multiset Nat) ∧
        (∀ c ∈ (s.pass env).snap.walked, ∃ k ∈ (s.pass env).snap.app.table.records,
          k.key = c.userPtr ∧ k.state = .live ∧ k.size = HeapApp.clampU32 c.usable ∧
            k.usable = HeapApp.clampU32 c.usable ∧
            firstSeen c.userPtr (s.pass env).passes = some k.allocMs) ∧
        (s.pass env).snap.app.live = (s.pass env).snap.walked.length ∧
        (s.pass env).snap.app.liveBytes =
          ((s.pass env).snap.walked.map WalkedChunk.usable).sum) ∧
      ((s.pass env).snap.walk.status = .denied ∨ (s.pass env).snap.walk.status = .targetGone →
        (s.pass env).snap.app.table = s.snap.app.table ∧
          (s.pass env).snap.app.live = s.snap.app.live ∧
          (s.pass env).snap.app.liveBytes = s.snap.app.liveBytes ∧
          (s.pass env).snap.app.map = s.snap.app.map) := by
  have hinv := SnapInv.run hacts hrun
  refine ⟨?_, ?_⟩
  · intro hok
    obtain ⟨⟨m, hm, hfound, hlost⟩, hnodup, hall, hlive, hbytes⟩ := hinv.pass_ok henv hwalked hok
    rw [hall] at hfound
    refine ⟨?_, ?_, hlive, hbytes⟩
    · refine (Multiset.Nodup.ext hm.inv.nodup (Multiset.coe_nodup.mpr hnodup)).mpr ?_
      intro key
      constructor
      · intro hkey
        obtain ⟨k, hk, rfl⟩ := Multiset.mem_map.mp hkey
        by_contra hout
        have hnone := (hlost k.key hout).1
        rw [← hm.lookup, hm.inv.lookup_eq_some.mpr ⟨hk, rfl⟩] at hnone
        cases hnone
      · intro hkey
        obtain ⟨c, hc, rfl⟩ := List.mem_map.mp hkey
        obtain ⟨ms, -, hentry⟩ := hfound c hc
        rw [← hm.lookup] at hentry
        obtain ⟨k, hk, -⟩ := Option.map_eq_some_iff.mp hentry
        obtain ⟨hmem, hkeq⟩ := hm.inv.lookup_eq_some.mp hk
        exact Multiset.mem_map.mpr ⟨k, hmem, hkeq⟩
    · intro c hc
      obtain ⟨ms, hms, hentry⟩ := hfound c hc
      rw [← hm.lookup] at hentry
      obtain ⟨k, hk, heq⟩ := Option.map_eq_some_iff.mp hentry
      obtain ⟨hmem, hkeq⟩ := hm.inv.lookup_eq_some.mp hk
      have hsize := congrArg ChunkEntry.size heq
      have husable := congrArg ChunkEntry.usable heq
      have halloc := congrArg ChunkEntry.allocMs heq
      have hstate := congrArg ChunkEntry.state heq
      refine ⟨k, hmem, hkeq, hstate, hsize, husable, ?_⟩
      rw [hms]
      exact congrArg some halloc.symm
  · intro hbad
    obtain ⟨-, -, -, ⟨-, happ⟩ | ⟨hnot, -⟩⟩ := SnapshotApp.snapshot_cases hwalked
    · have happ' : (s.pass env).snap.app = s.snap.app := happ
      rw [happ']
      exact ⟨rfl, rfl, rfl, rfl⟩
    · exact absurd hbad hnot

/-- The small heap, read as it is. -/
def smallPass : PassEnv := ⟨[smallHeap], fullReads smallChunks, 0⟩

/-- The clock at so many milliseconds. -/
def tickAt (ms : Nat) : SnapAct := .tick ⟨ms * 1000000, false, .lines [], ⟨.ok, []⟩⟩

/-- Two passes 300 ms apart: the second leaves the six chunks, and the first of
them stamped with the first pass. -/
theorem snapshot_model_twice : ∃ s : SnapSys,
    Run.run SnapSys.step (SnapSys.init true 0) [tickAt 100, .pass smallPass, tickAt 400] =
        some s ∧
      (s.pass smallPass).snap.app.live = 6 ∧
      ∃ k ∈ (s.pass smallPass).snap.app.table.records, k.key = 4112 ∧ k.allocMs = 100 := by
  have henv : smallPass.Valid := by
    refine ⟨fun r hr => ?_, List.pairwise_singleton _ _⟩
    rw [List.mem_singleton.mp hr]
    exact ⟨by decide, by decide⟩
  have hacts : ∀ x ∈ [tickAt 100, .pass smallPass, tickAt 400], x.Valid := by
    intro x hx
    simp only [List.mem_cons, List.not_mem_nil, or_false] at hx
    rcases hx with rfl | rfl | rfl
    · trivial
    · exact henv
    · trivial
  refine ⟨_, rfl, ?_⟩
  obtain ⟨hok, -⟩ := snapshot_model true 0 hacts henv rfl (by decide +kernel)
  obtain ⟨-, hfound, hlive, -⟩ := hok (by decide +kernel)
  obtain ⟨k, hk, hkey, -, -, -, hfirst⟩ := hfound (walkedAt 4096 32) (by decide +kernel)
  refine ⟨hlive.trans (by decide +kernel), k, hk, hkey, ?_⟩
  exact Option.some.inj (hfirst.symm.trans (by decide +kernel))

end Heapviz
