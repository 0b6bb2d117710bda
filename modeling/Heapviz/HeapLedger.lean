import Heapviz.HeapPause
import Heapviz.HeapTotals
import Heapviz.HeapFade

/-!
# What the session shows is what it was told

`Ledger` is the bookkeeping one would do by hand with the event stream: the
finite map of `Heapviz.ChunkMap`, and the frees that name no allocation.
`HeapApp.Tells` says that a session is that ledger - its hash table stands
for the map, its two totals are those of the live entries, its count of
unknown frees is the ledger's.

Events keep the two in step one by one. Everything else a session does -
pausing, staging, replaying, fitting the grid anew, rebuilding the map,
marking records with their exact overhead - leaves the ledger alone, and
`session_tells` is that statement for every schedule of the session on its
ring.
-/

namespace Heapviz

open ChunkTable

/-! ## The ledger -/

structure Ledger where
  chunks : ChunkMap
  unknown : Nat

namespace Ledger

def empty : Ledger := ⟨fun _ => none, 0⟩

/-- One more event, on a clock that stamps it with milliseconds. -/
def hear (stamp : Nat → Nat) (l : Ledger) (e : HvEvent) : Ledger where
  chunks := l.chunks.event stamp e
  unknown := if e.isFree ∧ (l.chunks e.ptr).isNone then l.unknown + 1 else l.unknown

def ofEvents (stamp : Nat → Nat) (es : List HvEvent) : Ledger := es.foldl (hear stamp) empty

theorem ofEvents_concat (stamp : Nat → Nat) (es : List HvEvent) (e : HvEvent) :
    ofEvents stamp (es ++ [e]) = (ofEvents stamp es).hear stamp e := by
  simp [ofEvents]

theorem hear_alloc {stamp : Nat → Nat} {l : Ledger} {e : HvEvent} (h : e.isFree = false) :
    l.hear stamp e =
      ⟨(l.chunks.step (.insertLive e.ptr (HeapApp.clampU32 e.size) e.usable (stamp e.timestamp)
        (hvEventGetTid e))).1, l.unknown⟩ := by
  simp [hear, ChunkMap.event, h]

theorem hear_free {stamp : Nat → Nat} {l : Ledger} {e : HvEvent} (h : e.isFree = true) :
    l.hear stamp e =
      ⟨(l.chunks.step (.markFreed e.ptr (stamp e.timestamp))).1,
        if (l.chunks e.ptr).isNone then l.unknown + 1 else l.unknown⟩ := by
  simp [hear, ChunkMap.event, h]

/-- The entry of a live address. -/
def liveAt (l : Ledger) (key : Nat) : Option ChunkEntry :=
  (l.chunks key).filter fun e => e.state = .live

/-- An allocation is live from then on, with the figures of its event. -/
theorem liveAt_hear_alloc {stamp : Nat → Nat} {l : Ledger} {e : HvEvent} (h : e.isFree = false)
    (hptr : e.ptr ≠ 0) :
    (l.hear stamp e).liveAt = Function.update l.liveAt e.ptr
      (some ⟨HeapApp.clampU32 e.size, e.usable, stamp e.timestamp, 0, hvEventGetTid e, .live⟩) := by
  funext key
  rw [hear_alloc h]
  simp only [liveAt, ChunkMap.step, if_neg hptr]
  by_cases hkey : key = e.ptr
  · rw [hkey, Function.update_self, Function.update_self]
    rfl
  · rw [Function.update_of_ne hkey, Function.update_of_ne hkey]
    rfl

/-- After a free the address is not live. -/
theorem liveAt_hear_free {stamp : Nat → Nat} {l : Ledger} {e : HvEvent} (h : e.isFree = true) :
    (l.hear stamp e).liveAt = Function.update l.liveAt e.ptr none := by
  funext key
  rw [hear_free h]
  simp only [liveAt, ChunkMap.step]
  by_cases hkey : key = e.ptr
  · rw [hkey, Function.update_self, Function.update_self]
    cases l.chunks e.ptr with
    | none => rfl
    | some entry => rfl
  · rw [Function.update_of_ne hkey, Function.update_of_ne hkey]
    rfl

end Ledger

/-! ## Live entries -/

theorem ChunkTable.Models.liveAt {t : ChunkTable} {l : Ledger} (h : t.Models l.chunks)
    (key : Nat) : (t.liveAt key).map Chunk.entry = l.liveAt key := by
  rw [Ledger.liveAt, ← h.lookup key, ChunkTable.liveAt]
  cases t.lookup key with
  | none => rfl
  | some c => by_cases hc : c.state = .live <;> simp [hc, Chunk.entry, Option.filter]

/-- As many live records as live entries. -/
theorem ChunkTable.Models.live_card {t : ChunkTable} {l : Ledger} (h : t.Models l.chunks) :
    t.live.card = {key | l.liveAt key ≠ none}.ncard := by
  have hkeys : {key | l.liveAt key ≠ none} = ((t.live.map Chunk.key).toFinset : Set Nat) := by
    ext key
    rw [Set.mem_ofPred_eq, Finset.mem_coe, Multiset.mem_toFinset, Multiset.mem_map, ← h.liveAt key,
      Ne, Option.map_eq_none_iff, liveAt_eq_none]
    simp only [not_forall, not_not, exists_prop, h.inv.lookup_eq_some, mem_live]
    exact exists_congr fun c => ⟨fun hc => ⟨⟨hc.1.1, hc.2⟩, hc.1.2⟩, fun hc =>
      ⟨⟨hc.1.1, hc.2⟩, hc.1.2⟩⟩
  have hnodup : (t.live.map Chunk.key).Nodup :=
    Multiset.nodup_of_le (Multiset.map_le_map (Multiset.filter_le _ _)) h.inv.nodup
  rw [hkeys, Set.ncard_coe_finset, Multiset.toFinset_card_of_nodup hnodup, Multiset.card_map]

/-! ## The session that was told -/

/-- The session stands where the events `es` have put it. An event for the
null address would be counted and not recorded, so the totals are those of
the table if there was none. -/
structure HeapApp.Tells (stamp : Nat → Nat) (es : List HvEvent) (a : HeapApp) : Prop where
  clock : a.eventMs = stamp
  wellFormed : a.WellFormed
  table : a.table.Models (Ledger.ofEvents stamp es).chunks
  unknown : a.freesUnknown = (Ledger.ofEvents stamp es).unknown
  totals : (∀ e ∈ es, e.ptr ≠ 0) → a.Totals

theorem HeapApp.Tells.new (attached unicode : Bool) (originNs : Nat) :
    (HeapApp.new attached unicode originNs).Tells
      (HeapApp.new attached unicode originNs).eventMs [] where
  clock := rfl
  wellFormed := HeapApp.new_wellFormed attached unicode originNs
  table := (Models.new 1024).same (HeapApp.new_table attached unicode originNs)
  unknown := rfl
  totals := fun _ => HeapApp.new_totals attached unicode originNs

section Events

variable {stamp : Nat → Nat} {es : List HvEvent} {a : HeapApp}

theorem HeapApp.applyEvent_unknownFrees (a : HeapApp) (e : HvEvent) :
    (a.applyEvent e).freesUnknown =
      if e.isFree ∧ (a.table.lookup e.ptr).isNone then a.freesUnknown + 1
      else a.freesUnknown := by
  cases hfree : e.isFree with
  | false =>
      have hop : ¬ e.op &&& hvOpMask = HvOp.free.code := by simpa [HvEvent.isFree] using hfree
      simp only [HeapApp.applyEvent, if_neg hop]
      simp [HeapApp.applyAlloc]
  | true =>
      have hop : e.op &&& hvOpMask = HvOp.free.code := by simpa [HvEvent.isFree] using hfree
      simp only [HeapApp.applyEvent, if_pos hop]
      cases hlookup : a.table.lookup e.ptr with
      | none => simp [HeapApp.applyUnknownFree]
      | some c => simp [HeapApp.applyKnownFree]

/-- An event is entered in both. -/
theorem HeapApp.Tells.applyEvent (h : a.Tells stamp es) (e : HvEvent) :
    (a.applyEvent e).Tells stamp (es ++ [e]) where
  clock := (HeapApp.eventMs_congr (a.applyEvent_originNs e)).trans h.clock
  wellFormed := h.wellFormed.applyEvent e
  table := by
    rw [Ledger.ofEvents_concat, Ledger.hear, ← h.clock]
    exact HeapApp.applyEvent_models (h.clock ▸ h.table) e
  unknown := by
    have hsome := h.table.isSome e.ptr
    have hnone : ((Ledger.ofEvents stamp es).chunks e.ptr).isNone =
        (a.table.lookup e.ptr).isNone := by
      rw [← Option.not_isSome, ← Option.not_isSome, hsome]
    rw [Ledger.ofEvents_concat, Ledger.hear, a.applyEvent_unknownFrees e, hnone, h.unknown]
  totals := fun hptr =>
    (h.totals fun e' he' => hptr e' (List.mem_append_left _ he')).applyEvent h.wellFormed
      (hptr e (List.mem_append_right _ (List.mem_singleton_self e)))

theorem HeapApp.Tells.apply (h : a.Tells stamp es) (new : List HvEvent) :
    (a.apply new).Tells stamp (es ++ new) := by
  induction new generalizing a es with
  | nil => rw [List.append_nil]; exact h
  | cons e new ih =>
      have := ih (h.applyEvent e)
      rwa [List.append_assoc, List.singleton_append] at this

end Events

/-! ## Everything else a session does -/

section Frame

variable {stamp : Nat → Nat} {es : List HvEvent} {a b : HeapApp}

/-- The totals depend on the figures of the live records only. -/
theorem HeapApp.Totals.of_figures (h : a.Totals) (hfig : figures b.table.live = figures a.table.live)
    (hlive : b.live = a.live) (hbytes : b.liveBytes = a.liveBytes) : b.Totals := by
  have hsum : ∀ L : Multiset Chunk, total Chunk.usable L = ((figures L).map Prod.snd).sum := by
    intro L
    simp only [figures, Multiset.map_map]
    rfl
  have hcard := congrArg Multiset.card hfig
  simp only [figures, Multiset.card_map] at hcard
  refine ⟨?_, ?_⟩
  · rw [hlive, h.chunks, hcard]
  · rw [hbytes, h.bytes, hsum, hsum, hfig]

/-- A session that says the same of every chunk tells the same. -/
theorem HeapApp.Tells.of_table (h : a.Tells stamp es) (hw : b.WellFormed)
    (hclock : b.originNs = a.originNs) (htable : ∀ m, a.table.Models m → b.table.Models m)
    (hfig : figures b.table.live = figures a.table.live)
    (hcounts : b.live = a.live ∧ b.liveBytes = a.liveBytes ∧ b.freesUnknown = a.freesUnknown) :
    b.Tells stamp es where
  clock := (HeapApp.eventMs_congr hclock).trans h.clock
  wellFormed := hw
  table := htable _ h.table
  unknown := hcounts.2.2.trans h.unknown
  totals := fun hptr => (h.totals hptr).of_figures hfig hcounts.1 hcounts.2.1

/-- What neither events nor the table enter into can be anything. -/
theorem HeapApp.Tells.of_model (h : a.Tells stamp es) (hmodel : b.model = a.model) :
    b.Tells stamp es := by
  have hfield : ∀ {β : Type} (f : HeapApp → β), (∀ x : HeapApp, f x.model = f x) → f b = f a :=
    fun f hf => by rw [← hf b, hmodel, hf a]
  have htable : b.table = a.table := hfield HeapApp.table fun _ => rfl
  have hmap : b.map = a.map := hfield HeapApp.map fun _ => rfl
  have hclock : b.originNs = a.originNs := hfield HeapApp.originNs fun _ => rfl
  have hlive : b.live = a.live := hfield HeapApp.live fun _ => rfl
  have hbytes : b.liveBytes = a.liveBytes := hfield HeapApp.liveBytes fun _ => rfl
  have hfrees : b.freesUnknown = a.freesUnknown := hfield HeapApp.freesUnknown fun _ => rfl
  refine h.of_table ⟨?_, ?_, ?_⟩ hclock (fun m hm => htable ▸ hm) (by rw [htable])
    ⟨hlive, hbytes, hfrees⟩
  · rw [htable]; exact h.wellFormed.table
  · rw [htable]; exact h.wellFormed.unbounded
  · rw [hmap]; exact h.wellFormed.cells

theorem HeapApp.Tells.refit (h : a.Tells stamp es) : a.refit.Tells stamp es := by
  have hw := h.wellFormed.refit
  cases hvalid : a.fitted.valid with
  | false =>
      rw [HeapApp.refit_invalid hvalid] at hw ⊢
      exact h.of_table hw rfl (fun _ hm => hm) rfl ⟨rfl, rfl, rfl⟩
  | true =>
      cases hsame : a.map.sameGeometry a.fitted with
      | true =>
          rw [HeapApp.refit_same hvalid hsame] at hw ⊢
          exact h.of_table hw rfl (fun _ hm => hm) rfl ⟨rfl, rfl, rfl⟩
      | false =>
          rw [HeapApp.refit_moved hvalid hsame] at hw ⊢
          exact h.of_table hw rfl (fun _ hm => hm.clearRefined) (figures_clearRefined a.table)
            ⟨rfl, rfl, rfl⟩

theorem HeapApp.Tells.resized (h : a.Tells stamp es) (w ht : Int) :
    (a.resized w ht).Tells stamp es := by
  have hset : ({ a with
      width := w, height := ht, layout := solveLayout w ht, geometryDirty := true } :
      HeapApp).Tells stamp es :=
    h.of_table ⟨h.wellFormed.table, h.wellFormed.unbounded, h.wellFormed.cells⟩ rfl
      (fun _ hm => hm) rfl ⟨rfl, rfl, rfl⟩
  unfold HeapApp.resized
  dsimp only
  split_ifs
  · exact hset
  · exact hset.refit

/-- A mark on a record is not an entry in the ledger. -/
theorem HeapApp.Tells.foldHeader (h : a.Tells stamp es) (c : Chunk) (info : HeapApp.ChunkInfo) :
    (a.foldHeader c info).Tells stamp es := by
  have hw := h.wellFormed.foldHeader c info
  unfold HeapApp.foldHeader at hw ⊢
  split_ifs at hw ⊢
  · exact h
  · exact h
  · exact h.of_table hw rfl (fun m hm => (hm.markRefined ..).1)
      (h.wellFormed.table.figures_markRefined ..) ⟨rfl, rfl, rfl⟩

theorem HeapApp.Tells.enrich (h : a.Tells stamp es) (reply : HeapApp.ReaderReply) :
    (a.enrich reply).Tells stamp es :=
  HeapApp.enrich_induction reply
    (fun _ _ _ => h.of_table ⟨h.wellFormed.table, h.wellFormed.unbounded, h.wellFormed.cells⟩
      rfl (fun _ hm => hm) rfl ⟨rfl, rfl, rfl⟩)
    fun _ c info hb => hb.foldHeader c info

theorem HeapApp.Tells.rescan (h : a.Tells stamp es) (env : HeapApp.UpdateEnv) :
    ((a.tick env).rescan env).1.Tells stamp es := by
  have htick : (a.tick env).Tells stamp es := by
    have hw : ∀ now state exited, ({ a with nowMs := now, state := state, exitedMs := exited } :
        HeapApp).Tells stamp es := fun _ _ _ =>
      h.of_table ⟨h.wellFormed.table, h.wellFormed.unbounded, h.wellFormed.cells⟩ rfl
        (fun _ hm => hm) rfl ⟨rfl, rfl, rfl⟩
    unfold HeapApp.tick
    dsimp only
    split_ifs
    · exact hw _ _ _
    · exact hw _ _ _
  unfold HeapApp.rescan
  split_ifs
  · exact htick.of_table
      ⟨htick.wellFormed.table, htick.wellFormed.unbounded, htick.wellFormed.cells⟩ rfl
      (fun _ hm => hm) rfl ⟨rfl, rfl, rfl⟩
  · exact htick

theorem HeapApp.Tells.update (h : a.Tells stamp es) (env : HeapApp.UpdateEnv) :
    (a.update env).Tells stamp es := by
  have hscan := h.rescan env
  have hfit : ((a.tick env).rescan env).1.refitDirty.Tells stamp es := by
    unfold HeapApp.refitDirty
    split_ifs
    · exact hscan.refit
    · exact hscan
  unfold HeapApp.update
  split_ifs
  · exact h
  · exact hfit.enrich env.reply

theorem HeapApp.Tells.keySpace (h : a.Tells stamp es) : a.keySpace.Tells stamp es := by
  refine h.of_model ?_
  unfold HeapApp.keySpace
  split_ifs <;> rfl

/-- The rest of a call of `drain` enters what the plan applies. -/
theorem HeapApp.Tells.drainFinish (h : a.Tells stamp es) (out : List HvEvent)
    (plan : HeapApp.DrainPlan) :
    (a.drainFinish out plan).1.Tells stamp (es ++ plan.applies out) := by
  cases plan with
  | done n =>
      rw [HeapApp.DrainPlan.applies, List.append_nil]
      exact h
  | stage =>
      rw [HeapApp.DrainPlan.applies, List.append_nil]
      exact h.of_model rfl
  | take n room => exact (h.apply out).of_model rfl

/-- Up to its read of the ring a call enters what it replays. -/
theorem HeapApp.Tells.drainPlan (h : a.Tells stamp es) (hle : a.stagedHead ≤ a.staged.length) :
    a.drainPlan.1.Tells stamp (es ++ a.replayed) := by
  refine (h.apply a.replayed).of_model ?_
  rcases HeapApp.drainPlan_sound hle with ⟨n, -, hcall⟩ | ⟨-, hopen⟩
  · exact hcall.model
  · unfold OpenDrain.Sound at hopen
    dsimp only at hopen
    split at hopen
    · exact hopen.elim
    · obtain ⟨-, hnone, hsame⟩ := hopen
      rw [hnone, hsame]
      rfl
    · exact hopen.2.2.2.2.1

end Frame

/-! ## Every schedule -/

section Schedule

variable {P : Type} [DecidableEq P] {capacity : Nat} {stamp : Nat → Nat} {s s' : PauseSys P}

/-- The session has been told what has been applied. -/
theorem PauseSys.step_tells (h : PauseInv capacity s) (htells : s.app.Tells stamp s.applied)
    {act : PauseAct P} (hstep : s.step act = some s') : s'.app.Tells stamp s'.applied := by
  cases act with
  | callPush p a =>
      obtain ⟨ring, -, rfl⟩ := Option.map_eq_some_iff.mp hstep
      exact htells
  | push p spurious =>
      obtain ⟨ring, -, rfl⟩ := Option.map_eq_some_iff.mp hstep
      exact htells
  | space =>
      obtain ⟨-, hs⟩ := Option.ite_none_right_eq_some.mp hstep
      obtain rfl := Option.some.inj hs
      exact htells.keySpace
  | resized w ht =>
      obtain ⟨-, hs⟩ := Option.ite_none_right_eq_some.mp hstep
      obtain rfl := Option.some.inj hs
      exact htells.resized w ht
  | update env =>
      obtain ⟨-, hs⟩ := Option.ite_none_right_eq_some.mp hstep
      obtain rfl := Option.some.inj hs
      exact htells.update env
  | callDrain =>
      obtain ⟨hnone, hs⟩ := Option.ite_none_right_eq_some.mp hstep
      have hidle := Option.isNone_iff_eq_none.mp hnone
      have hbefore : s.applied = s.calls.flatMap DrainCall.applied := by
        simp [PauseSys.applied, hidle]
      have hplan := htells.drainPlan h.staging
      rw [hbefore] at hplan
      unfold PauseSys.callDrain at hs
      dsimp only at hs
      split_ifs at hs with hreq
      · obtain rfl := Option.some.inj hs
        have hfin := hplan.drainFinish [] s.app.drainPlan.2
        have hnil : s.app.drainPlan.2.applies [] = [] := by
          cases s.app.drainPlan.2 <;> rfl
        rw [hnil, List.append_nil] at hfin
        simpa [PauseSys.applied, hidle] using hfin
      · obtain ⟨ring, -, rfl⟩ := Option.map_eq_some_iff.mp hs
        exact hplan
  | drain =>
      obtain ⟨o, ho, rfl⟩ := Option.map_eq_some_iff.mp hstep
      have hbefore : s.applied = s.calls.flatMap DrainCall.applied ++ o.applied := by
        simp [PauseSys.applied, ho]
      unfold PauseSys.drainAct
      cases hact : drainStep s.ring.ring s.ring.cons with
      | run r pc => exact htells
      | ret r out =>
          rw [hbefore] at htells
          have hfin := htells.drainFinish out o.plan
          simp only [PauseSys.applied, Option.map_none, Option.getD_none, List.append_nil,
            List.flatMap_append, List.flatMap_singleton]
          rwa [← List.append_assoc]

/-- What the session tells, in any state a schedule leads to. -/
theorem PauseSys.run_tells (attached unicode : Bool) (originNs : Nat) {acts : List (PauseAct P)}
    (hrun : Run.run PauseSys.step
      (PauseSys.init P capacity (HeapApp.new attached unicode originNs)) acts = some s) :
    PauseInv capacity s ∧
      s.app.Tells (HeapApp.new attached unicode originNs).eventMs s.applied :=
  Run.run_invariant (I := fun s => PauseInv capacity s ∧
      s.app.Tells (HeapApp.new attached unicode originNs).eventMs s.applied)
    (fun _ _ _ h hstep => ⟨h.1.step hstep, PauseSys.step_tells h.1 h.2 hstep⟩)
    ⟨PauseInv.init attached unicode originNs, HeapApp.Tells.new attached unicode originNs⟩ hrun

/-- **The session shows what it was told.** Whatever producers, keys,
resizes, frames and calls of `drain` do, in whatever order: the chunk table
holds exactly the entries of the ledger of the events applied so far, the
count of unknown frees is the ledger's, and the totals are the number of
its live entries and the sum over their records. -/
theorem session_tells (attached unicode : Bool) (originNs : Nat) {acts : List (PauseAct P)}
    (hrun : Run.run PauseSys.step
      (PauseSys.init P capacity (HeapApp.new attached unicode originNs)) acts = some s) :
    let l := Ledger.ofEvents (HeapApp.new attached unicode originNs).eventMs s.applied
    (∀ key, (s.app.table.lookup key).map Chunk.entry = l.chunks key) ∧
      s.app.freesUnknown = l.unknown ∧
      ((∀ e ∈ s.applied, e.ptr ≠ 0) →
        s.app.live = {key | l.liveAt key ≠ none}.ncard ∧
          s.app.liveBytes = total Chunk.usable s.app.table.live) := by
  intro l
  obtain ⟨-, h⟩ := PauseSys.run_tells attached unicode originNs hrun
  exact ⟨h.table.lookup, h.unknown, fun hptr =>
    ⟨(h.totals hptr).chunks.trans h.table.live_card, (h.totals hptr).bytes⟩⟩

end Schedule

/-- A free of an address nobody allocated: counted, and nothing recorded. -/
theorem session_tells_unknown : ∃ s : PauseSys (Fin 1),
    Run.run PauseSys.step (PauseSys.init (Fin 1) (2 ^ 4) (HeapApp.new true true 0))
        (onePush ++ oneDrain) = some s ∧
      s.applied = [samplePush.view] ∧ s.app.freesUnknown = 1 ∧ s.app.live = 0 ∧
      s.app.table.lookup samplePush.ptr = none := by
  have hobs : (Run.run PauseSys.step
      (PauseSys.init (Fin 1) (2 ^ 4) (HeapApp.new true true 0)) (onePush ++ oneDrain)).map
        (fun s => (s.applied, s.app.live)) = some ([samplePush.view], 0) := by decide +kernel
  obtain ⟨s, hs, hval⟩ := Option.map_eq_some_iff.mp hobs
  simp only [Prod.mk.injEq] at hval
  obtain ⟨hlookup, hunknown, -⟩ := session_tells true true 0 hs
  rw [hval.1] at hlookup hunknown
  have hnone := hlookup samplePush.ptr
  exact ⟨s, hs, hval.1, hunknown.trans (by decide), hval.2,
    Option.map_eq_none_iff.mp (hnone.trans (by decide))⟩

end Heapviz
