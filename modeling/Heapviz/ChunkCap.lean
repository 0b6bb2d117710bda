import Heapviz.ChunkQueue
import Heapviz.ChunkMap

/-!
# A table with a cap

`set_max_entries` bounds the table. `insert_live` at the cap gives up one
freed record for the new one and refuses when there is none; lowering the cap
gives up freed records until the table fits or only live ones are left.

`CapInv` is the table invariant with the queue's shape, kept by every call
(`CapInv.step`). What a capped insertion does is said once, in four cases
(`InsertCase`), and so is what a new cap does (`CapInv.setMaxEntries`). From
these

- `bounded_table_admits`: live records survive, and an insertion is refused
  only when nothing can be given up for it;
- `cap_kept_iff`: the comment at `set_max_entries` calls `size() <=
  max_entries()` an invariant. An insertion works off one record of an excess,
  never more, so it is one exactly as long as no insertion meets a larger
  excess that is there to be worked off.
-/

namespace Heapviz

open RobinHood ChunkTable

/-! ## Calls -/

/-- A call on a table that may be given a cap. -/
inductive CapOp where
  | call (op : TableOp)
  | setMaxEntries (n : Nat)
deriving Repr, DecidableEq

def ChunkTable.capStep (t : ChunkTable) : CapOp → ChunkTable
  | .call op => (t.step op).1
  | .setMaxEntries n => t.setMaxEntries n

def ChunkTable.capRun (t : ChunkTable) (ops : List CapOp) : ChunkTable :=
  ops.foldl ChunkTable.capStep t

/-- Every call of a sequence is made on a table of which `P` holds with it. -/
def ChunkTable.EveryCall (P : ChunkTable → CapOp → Prop) : ChunkTable → List CapOp → Prop
  | _, [] => True
  | t, op :: ops => P t op ∧ ChunkTable.EveryCall P (t.capStep op) ops

/-- What holds of a table between calls, cap or not. -/
structure CapInv (t : ChunkTable) : Prop extends TableInv t where
  queued : t.Queued

/-- What `insert_live` does to a table, by what it finds. -/
inductive InsertCase (t : ChunkTable) (key size usable allocMs tid : Nat) (t' : ChunkTable) :
    Bool → Prop
  | recycled (hrew : Rewritten t key (fun c => c.reuse size usable allocMs tid) t')
      (hpolicy : SamePolicy t t') : InsertCase t key size usable allocMs tid t' true
  | placed (hnew : ∀ c ∈ t.records, c.key ≠ key)
      (hroom : t.maxEntries = 0 ∨ t.size < t.maxEntries)
      (hrec : t'.records = Chunk.fresh key size usable allocMs tid ::ₘ t.records)
      (hpolicy : SamePolicy t t') : InsertCase t key size usable allocMs tid t' true
  | evicting (hnew : ∀ c ∈ t.records, c.key ≠ key) (hmax : t.maxEntries ≠ 0)
      (hfull : t.maxEntries ≤ t.size) {c : Chunk} (hevict : Evicted t c t.makeRoom.1)
      (hchosen : t.Chosen c t.makeRoom.1)
      (hrec : t'.records = Chunk.fresh key size usable allocMs tid ::ₘ t.makeRoom.1.records)
      (hpolicy : SamePolicy t.makeRoom.1 t') : InsertCase t key size usable allocMs tid t' true
  | refused (hnew : ∀ c ∈ t.records, c.key ≠ key) (hmax : t.maxEntries ≠ 0)
      (hfull : t.maxEntries ≤ t.size) (hnone : ∀ c ∈ t.records, c.state ≠ .freed)
      (hrec : t'.records = t.records) (hsize : t'.size = t.size)
      (hdrops : t'.stats.drops = t.stats.drops + 1) (hcap : t'.maxEntries = t.maxEntries)
      (hhints : t'.hints = []) : InsertCase t key size usable allocMs tid t' false

theorem CapInv.new (initialCapacity : Nat) : CapInv (ChunkTable.new initialCapacity) :=
  ⟨TableInv.new initialCapacity, rfl, Nat.zero_le _, Nat.zero_le _⟩

section Insert

variable {t : ChunkTable} {key : Nat}

/-- `insert_live`, cap or not. -/
theorem CapInv.insertLive (h : CapInv t) (hkey : key ≠ 0) (size usable allocMs tid : Nat) :
    CapInv (t.insertLive key size usable allocMs tid).1 ∧
      InsertCase t key size usable allocMs tid (t.insertLive key size usable allocMs tid).1
        (t.insertLive key size usable allocMs tid).2 := by
  rcases h.find_cases key with ⟨i, hi, hfull, hk, hfind⟩ | ⟨hno, hfind⟩
  · obtain ⟨hinv, hrec⟩ := @TableInv.rewrite t h.toTableInv i
      ((t.slots i).reuse size usable allocMs tid) hi hfull rfl rfl
    rw [insertLive_eq_reuse hkey hfind]
    refine ⟨⟨hinv.congr rfl rfl rfl rfl, h.queued.congr ⟨rfl, rfl, rfl, rfl⟩⟩, ?_⟩
    exact .recycled ⟨t.slots i, mem_contents_of_full hi hfull, hk, hrec⟩ ⟨rfl, rfl, rfl, rfl⟩
  · by_cases hcap : t.maxEntries ≠ 0 ∧ t.size ≥ t.maxEntries
    · have hroom : t.roomForOne = t.makeRoom := if_pos hcap
      rcases makeRoom_spec h.toTableInv h.queued hcap.1 with
        ⟨c, htrue, hevict, hchosen⟩ | ⟨hfalse, hsame, hqueued, hhints, hnone⟩
      · obtain ⟨u, hgrow, hg, hload⟩ := hevict.inv.growForOne
        have hno' : ∀ d ∈ t.makeRoom.1.records, d.key ≠ key := fun d hd =>
          hno d (hevict.records ▸ Multiset.mem_cons_of_mem hd)
        obtain ⟨hinv, hpolicy, hrec⟩ := hg.addNew hload
          (Chunk.fresh key size usable allocMs tid) rfl hkey hno'
        rw [insertLive_eq_addNew hkey hfind (hroom.trans (Prod.ext rfl htrue)) hgrow]
        exact ⟨⟨hinv, hevict.queued.congr hpolicy⟩,
          .evicting hno hcap.1 hcap.2 hevict hchosen hrec hpolicy⟩
      · have heq : t.insertLive key size usable allocMs tid = (t.makeRoom.1.refuse, false) := by
          have hroom' : t.roomForOne = (t.makeRoom.1, false) := hroom.trans (Prod.ext rfl hfalse)
          simp only [ChunkTable.insertLive, if_neg hkey, hfind, hroom']
        rw [heq]
        refine ⟨⟨(hsame.inv h.toTableInv).congr rfl rfl rfl rfl,
          hqueued.congr ⟨rfl, rfl, rfl, rfl⟩⟩, ?_⟩
        exact .refused hno hcap.1 hcap.2 hnone hsame.records hsame.size
          (congrArg (fun s => s.drops + 1) hsame.stats) hsame.maxEntries hhints
    · obtain ⟨u, hgrow, hg, hload⟩ := h.toTableInv.growForOne
      obtain ⟨hinv, hpolicy, hrec⟩ := hg.addNew hload
        (Chunk.fresh key size usable allocMs tid) rfl hkey hno
      rw [insertLive_eq_addNew hkey hfind (if_neg hcap) hgrow]
      refine ⟨⟨hinv, h.queued.congr hpolicy⟩, .placed hno ?_ hrec hpolicy⟩
      omega

end Insert

/-! ## A new cap -/

/-- The table fits its cap, or holds nothing that could be given up. -/
def ChunkTable.AtCap (t : ChunkTable) : Prop :=
  t.size ≤ t.maxEntries ∨ ∀ c ∈ t.records, c.state ≠ .freed

/-- Records are given up, no live one among them. -/
structure ChunkTable.Sheds (t t' : ChunkTable) : Prop where
  le : t'.records ≤ t.records
  live : ∀ c ∈ t.records, c.state = .live → c ∈ t'.records

theorem ChunkTable.Sheds.of_eq {t t' : ChunkTable} (h : t'.records = t.records) : t.Sheds t' :=
  ⟨h.le, fun _ hc _ => h.symm ▸ hc⟩

theorem ChunkTable.Sheds.trans {t t' t'' : ChunkTable} (h : t.Sheds t') (h' : t'.Sheds t'') :
    t.Sheds t'' :=
  ⟨h'.le.trans h.le, fun c hc hl => h'.live c (h.live c hc hl) hl⟩

section NewCap

variable {t : ChunkTable}

theorem ChunkTable.Evicted.sheds {c : Chunk} {t' : ChunkTable} (h : Evicted t c t') :
    t.Sheds t' := by
  refine ⟨h.records ▸ Multiset.le_cons_self _ c, ?_⟩
  intro d hd hlive
  rw [← h.records] at hd
  rcases Multiset.mem_cons.mp hd with rfl | hd
  · rw [h.freed] at hlive
    cases hlive
  · exact hd

theorem ChunkTable.Evicted.size {c : Chunk} {t' : ChunkTable} (h : Evicted t c t')
    (hI : TableInv t) : t'.size + 1 = t.size := by
  rw [hI.size_eq, h.inv.size_eq, ← h.records, Multiset.card_cons]

theorem CapInv.shrinkLoop (h : CapInv t) (hmax : t.maxEntries ≠ 0) (fuel : Nat)
    (hfuel : t.size ≤ fuel) :
    CapInv (ChunkTable.shrinkLoop fuel t) ∧
      (ChunkTable.shrinkLoop fuel t).maxEntries = t.maxEntries ∧
      t.Sheds (ChunkTable.shrinkLoop fuel t) ∧ (ChunkTable.shrinkLoop fuel t).AtCap := by
  induction fuel generalizing t with
  | zero => exact ⟨h, rfl, .of_eq rfl, Or.inl (hfuel.trans (Nat.zero_le _))⟩
  | succ fuel ih =>
      unfold ChunkTable.shrinkLoop
      split
      · have hspec := makeRoom_spec h.toTableInv h.queued hmax
        generalize t.makeRoom = r at hspec ⊢
        obtain ⟨u, b⟩ := r
        rcases hspec with ⟨c, htrue, hevict, -⟩ | ⟨hfalse, hsame, hqueued, -, hnone⟩
        · cases htrue
          have hsize := hevict.size h.toTableInv
          obtain ⟨hinv, hcap, hsheds, hat⟩ := @ih u ⟨hevict.inv, hevict.queued⟩
            (by rw [hevict.maxEntries]; exact hmax) (by dsimp only at hsize; omega)
          exact ⟨hinv, hcap.trans hevict.maxEntries, hevict.sheds.trans hsheds, hat⟩
        · cases hfalse
          refine ⟨⟨hsame.inv h.toTableInv, hqueued⟩, hsame.maxEntries, .of_eq hsame.records,
            Or.inr ?_⟩
          intro c hc
          exact hnone c (hsame.records ▸ hc)
      · rename_i hfits
        exact ⟨h, rfl, .of_eq rfl, Or.inl (not_lt.mp hfits)⟩

/-- The table `set_max_entries` starts shrinking from. -/
def ChunkTable.recapped (t : ChunkTable) (n : Nat) : ChunkTable :=
  refillFreedQueue
    { t with
      maxEntries := n
      freedFifo := List.replicate (n + 1) 0
      freedHead := 0
      freedTail := 0 }

theorem setMaxEntries_eq {n : Nat} (hn : n ≠ 0) :
    t.setMaxEntries n = ChunkTable.shrinkLoop (t.recapped n).size (t.recapped n) := by
  unfold ChunkTable.setMaxEntries
  rw [if_neg hn]
  rfl

/-- The queue is set up anew: the records are what they were, the oldest freed
ones are queued in order. -/
theorem CapInv.recapped (h : CapInv t) {n : Nat} (hn : n ≠ 0) :
    CapInv (t.recapped n) ∧ (t.recapped n).records = t.records ∧
      (t.recapped n).maxEntries = n ∧
      (t.recapped n).hints = (t.freedInOrder.take n).map Prod.snd := by
  obtain ⟨hsame, hqueued, hhints⟩ := @refill_spec
    { t with
      maxEntries := n
      freedFifo := List.replicate (n + 1) 0
      freedHead := 0
      freedTail := 0 } hn (List.length_replicate ..)
  refine ⟨⟨?_, hqueued⟩, hsame.records, hsame.maxEntries, hhints⟩
  exact hsame.inv (h.toTableInv.congr rfl rfl rfl rfl)

/-- `set_max_entries`: afterwards the table fits, or only live records are left. -/
theorem CapInv.setMaxEntries (h : CapInv t) (n : Nat) :
    CapInv (t.setMaxEntries n) ∧ (t.setMaxEntries n).maxEntries = n ∧
      t.Sheds (t.setMaxEntries n) ∧ (n ≠ 0 → (t.setMaxEntries n).AtCap) := by
  by_cases hn : n = 0
  · subst hn
    have heq : t.setMaxEntries 0 =
        { t with maxEntries := 0, freedFifo := [], freedHead := 0, freedTail := 0 } := if_pos rfl
    rw [heq]
    refine ⟨⟨h.toTableInv.congr rfl rfl rfl rfl, rfl, Nat.zero_le _, Nat.zero_le _⟩, rfl,
      .of_eq rfl, ?_⟩
    exact fun hne => absurd rfl hne
  · obtain ⟨hinv, hrec, hcap, -⟩ := h.recapped hn
    rw [setMaxEntries_eq hn]
    obtain ⟨hinv', hcap', hsheds, hat⟩ :=
      hinv.shrinkLoop (by rw [hcap]; exact hn) _ (Nat.le_refl _)
    exact ⟨hinv', hcap'.trans hcap, (Sheds.of_eq hrec).trans hsheds, fun _ => hat⟩

end NewCap

/-! ## Every call -/

section Step

variable {t : ChunkTable}

theorem CapInv.markFreed (h : CapInv t) (key freeMs : Nat) : CapInv (t.markFreed key freeMs).1 := by
  refine ⟨?_, ?_⟩
  · rcases h.toTableInv.markFreed key freeMs with ⟨-, heq⟩ | ⟨-, -, hinv, -⟩
    · rw [heq]
      exact h.toTableInv
    · exact hinv
  · unfold ChunkTable.markFreed
    split
    · exact h.queued
    · refine Queued.pushFreed ?_ key
      exact h.queued.congr ⟨rfl, rfl, rfl, rfl⟩

theorem CapInv.markRefined (h : CapInv t) (key exactOverhead headerFlags : Nat) :
    CapInv (t.markRefined key exactOverhead headerFlags).1 := by
  rcases h.toTableInv.markRefined key exactOverhead headerFlags with
    ⟨-, heq⟩ | ⟨-, -, -, hinv, hpolicy⟩
  · rw [heq]
    exact h
  · exact ⟨hinv, h.queued.congr hpolicy⟩

theorem CapInv.erase (h : CapInv t) (key : Nat) : CapInv (t.erase key).1 := by
  rcases h.toTableInv.erase key with ⟨-, heq⟩ | ⟨-, -, -, -, hinv, hpolicy⟩
  · rw [heq]
    exact h
  · exact ⟨hinv, h.queued.congr hpolicy⟩

theorem CapInv.step (h : CapInv t) (op : CapOp) : CapInv (t.capStep op) := by
  cases op with
  | setMaxEntries n => exact (h.setMaxEntries n).1
  | call op =>
      cases op with
      | insertLive key size usable allocMs tid =>
          by_cases hkey : key = 0
          · subst hkey
            exact h
          · exact (h.insertLive hkey size usable allocMs tid).1
      | markFreed key freeMs => exact h.markFreed key freeMs
      | markRefined key exactOverhead headerFlags =>
          exact h.markRefined key exactOverhead headerFlags
      | clearRefined => exact ⟨h.toTableInv.clearRefined, h.queued.congr ⟨rfl, rfl, rfl, rfl⟩⟩
      | erase key => exact h.erase key
      | reserve entries =>
          obtain ⟨hg, -⟩ := h.toTableInv.reserve entries
          exact ⟨hg.inv, h.queued.congr hg.policy⟩
      | clear => exact ⟨h.toTableInv.clear, h.queued.length, Nat.zero_le _, Nat.zero_le _⟩
      | find key => exact h

theorem CapInv.run (h : CapInv t) (ops : List CapOp) : CapInv (t.capRun ops) := by
  induction ops generalizing t with
  | nil => exact h
  | cons op ops ih => exact ih (h.step op)

/-- A table that a sequence of calls on a new one leaves. -/
def ChunkTable.Reached (t : ChunkTable) : Prop :=
  ∃ initialCapacity ops, t = (ChunkTable.new initialCapacity).capRun ops

theorem ChunkTable.Reached.inv (h : t.Reached) : CapInv t := by
  obtain ⟨initialCapacity, ops, rfl⟩ := h
  exact (CapInv.new initialCapacity).run ops

/-- What is equivalent on every table is equivalent over every sequence. -/
theorem CapInv.everyCall_congr {P Q : ChunkTable → CapOp → Prop}
    (hPQ : ∀ t op, CapInv t → (P t op ↔ Q t op)) (h : CapInv t) (ops : List CapOp) :
    ChunkTable.EveryCall P t ops ↔ ChunkTable.EveryCall Q t ops := by
  induction ops generalizing t with
  | nil => exact Iff.rfl
  | cons op ops ih => exact and_congr (hPQ t op h) (ih (h.step op))

theorem capRun_append (t : ChunkTable) (ops ops' : List CapOp) :
    t.capRun (ops ++ ops') = (t.capRun ops).capRun ops' :=
  List.foldl_append ..

/-- The calls of a sequence, each with what came before it. -/
theorem everyCall_iff {P : ChunkTable → CapOp → Prop} {ops : List CapOp} :
    t.EveryCall P ops ↔ ∀ pre op post, ops = pre ++ op :: post → P (t.capRun pre) op := by
  induction ops generalizing t with
  | nil =>
      refine ⟨fun _ pre op post h => ?_, fun _ => trivial⟩
      cases pre <;> cases h
  | cons op ops ih =>
      constructor
      · rintro ⟨hop, hops⟩ pre op' post heq
        cases pre with
        | nil =>
            obtain ⟨rfl, -⟩ := List.cons.inj heq
            exact hop
        | cons first pre =>
            obtain ⟨rfl, hrest⟩ := List.cons.inj heq
            exact ih.mp hops pre op' post hrest
      · intro h
        refine ⟨h [] op ops rfl, ih.mpr ?_⟩
        intro pre op' post heq
        exact h (op :: pre) op' post (congrArg (op :: ·) heq)

theorem everyCall_of_append {P : ChunkTable → CapOp → Prop} {ops ops' : List CapOp}
    (h : t.EveryCall P (ops ++ ops')) : t.EveryCall P ops := by
  rw [everyCall_iff] at h ⊢
  intro pre op post heq
  exact h pre op (post ++ ops') (by rw [heq, List.append_assoc, List.cons_append])

/-- A key that was there is there after a rewrite. -/
theorem Rewritten.keeps {t' : ChunkTable} {key : Nat} {f : Chunk → Chunk}
    (h : Rewritten t key f t') (hf : ∀ c, (f c).key = c.key) {d : Chunk} (hd : d ∈ t.records) :
    ∃ d' ∈ t'.records, d'.key = d.key := by
  obtain ⟨c, hc, rfl, hrec⟩ := h
  have hmem : ∀ e ∈ f c ::ₘ t.records, e ∈ c ::ₘ t'.records := fun e he => hrec ▸ he
  rcases Multiset.mem_cons.mp (hmem d (Multiset.mem_cons_of_mem hd)) with rfl | hd'
  · -- the rewritten record itself: its new version took its place
    rcases Multiset.mem_cons.mp (hmem (f d) (Multiset.mem_cons_self _ _)) with heq | hfd
    · rw [heq] at hrec
      exact ⟨d, (Multiset.cons_inj_right d).mp hrec ▸ hc, rfl⟩
    · exact ⟨f d, hfd, hf d⟩
  · exact ⟨d, hd', rfl⟩

end Step

/-! ## Live data is never given up -/

/-- The two calls that are asked to remove records. -/
def CapOp.removes : CapOp → Bool
  | .call (.erase _) => true
  | .call .clear => true
  | _ => false

/-- The record's key is still in the table after the call. -/
def ChunkTable.Survives (c : Chunk) (t' : ChunkTable) : Prop := ∃ c' ∈ t'.records, c'.key = c.key

section Live

variable {t : ChunkTable}

/-- A key that is there is recycled. -/
theorem InsertCase.rewritten {key size usable allocMs tid : Nat} {t' : ChunkTable} {b : Bool}
    (h : InsertCase t key size usable allocMs tid t' b) {c : Chunk} (hc : c ∈ t.records)
    (hkey : c.key = key) : Rewritten t key (fun c => c.reuse size usable allocMs tid) t' := by
  cases h with
  | recycled hrew hpolicy => exact hrew
  | placed hnew hroom hrec hpolicy => exact absurd hkey (hnew c hc)
  | evicting hnew hmax hfull hevict hchosen hrec hpolicy => exact absurd hkey (hnew c hc)
  | refused hnew hmax hfull hnone hrec hsize hdrops hcap hhints => exact absurd hkey (hnew c hc)

theorem InsertCase.keeps {key size usable allocMs tid : Nat} {t' : ChunkTable} {b : Bool}
    (h : InsertCase t key size usable allocMs tid t' b) {c : Chunk} (hc : c ∈ t.records)
    (hlive : c.state = .live) : t'.Survives c := by
  cases h with
  | recycled hrew hpolicy => exact hrew.keeps (fun _ => rfl) hc
  | placed hnew hroom hrec hpolicy => exact ⟨c, hrec ▸ Multiset.mem_cons_of_mem hc, rfl⟩
  | evicting hnew hmax hfull hevict hchosen hrec hpolicy =>
      exact ⟨c, hrec ▸ Multiset.mem_cons_of_mem (hevict.sheds.live c hc hlive), rfl⟩
  | refused hnew hmax hfull hnone hrec hsize hdrops hcap hhints => exact ⟨c, hrec ▸ hc, rfl⟩

/-- Only `erase` and `clear` take a live record out. -/
theorem CapInv.live_survives (h : CapInv t) {op : CapOp} (hop : op.removes = false) {c : Chunk}
    (hc : c ∈ t.records) (hlive : c.state = .live) : (t.capStep op).Survives c := by
  cases op with
  | setMaxEntries n => exact ⟨c, (h.setMaxEntries n).2.2.1.live c hc hlive, rfl⟩
  | call op =>
      cases op with
      | insertLive key size usable allocMs tid =>
          by_cases hkey : key = 0
          · subst hkey
            exact ⟨c, hc, rfl⟩
          · exact (h.insertLive hkey size usable allocMs tid).2.keeps hc hlive
      | markFreed key freeMs =>
          rcases h.toTableInv.markFreed key freeMs with ⟨-, heq⟩ | ⟨hrew, -⟩
          · exact ⟨c, (congrArg (fun r => r.1.records) heq).symm ▸ hc, rfl⟩
          · exact hrew.keeps (fun _ => rfl) hc
      | markRefined key exactOverhead headerFlags =>
          rcases h.toTableInv.markRefined key exactOverhead headerFlags with
            ⟨-, heq⟩ | ⟨-, hrew, -⟩
          · exact ⟨c, (congrArg (fun r => r.1.records) heq).symm ▸ hc, rfl⟩
          · exact hrew.keeps (fun _ => rfl) hc
      | clearRefined =>
          refine ⟨c.unrefine, ?_, rfl⟩
          show c.unrefine ∈ t.clearRefined.records
          rw [records_clearRefined]
          exact Multiset.mem_map_of_mem _ hc
      | erase key => cases hop
      | reserve entries =>
          obtain ⟨hg, -⟩ := h.toTableInv.reserve entries
          exact ⟨c, hg.records.symm ▸ hc, rfl⟩
      | clear => cases hop
      | find key => exact ⟨c, hc, rfl⟩

end Live

/-- **A bounded table admits what it can.** After every sequence of calls, caps
set and lifted among them: the next call, unless it is `erase` or `clear`,
leaves every live record's key in the table; and an insertion is refused only
when the key is new, the cap is reached and no record at all is freed, and then
it changes no record and counts one drop. -/
theorem bounded_table_admits (initialCapacity : Nat) (ops : List CapOp) :
    let t := (ChunkTable.new initialCapacity).capRun ops
    (∀ op, op.removes = false → ∀ c ∈ t.records, c.state = .live → (t.capStep op).Survives c) ∧
    (∀ key size usable allocMs tid, key ≠ 0 →
      (t.insertLive key size usable allocMs tid).2 = false →
        (t.find key = none ∧ 0 < t.maxEntries ∧ t.maxEntries ≤ t.size ∧
          ∀ c ∈ t.records, c.state ≠ .freed) ∧
        (t.insertLive key size usable allocMs tid).1.records = t.records ∧
        (t.insertLive key size usable allocMs tid).1.size = t.size ∧
        (t.insertLive key size usable allocMs tid).1.stats.drops = t.stats.drops + 1) := by
  intro t
  have h : CapInv t := (CapInv.new initialCapacity).run ops
  refine ⟨fun op hop c hc hlive => h.live_survives hop hc hlive, ?_⟩
  intro key size usable allocMs tid hkey hfalse
  obtain ⟨-, hcase⟩ := h.insertLive hkey size usable allocMs tid
  rw [hfalse] at hcase
  cases hcase with
  | refused hnew hmax hfull hnone hrec hsize hdrops hcap hhints =>
      have hfind : t.find key = none := by
        rcases h.find_cases key with ⟨i, hi, hslot, hk, -⟩ | ⟨-, hfind⟩
        · exact absurd hk (hnew _ (mem_contents_of_full hi hslot))
        · exact hfind
      exact ⟨⟨hfind, Nat.pos_of_ne_zero hmax, hfull, hnone⟩, hrec, hsize, hdrops⟩

/-! ## Is the cap an invariant? -/

/-- How many records could be given up. -/
def ChunkTable.freedCount (t : ChunkTable) : Nat := t.records.countP fun c => c.state = .freed

/-- What is asked of one call: a new cap, and every insertion of a new key under
a cap, leaves a table that fits or has nothing to give up. -/
def ChunkTable.CapKept (t : ChunkTable) : CapOp → Prop
  | .setMaxEntries n => 0 < n → (t.setMaxEntries n).AtCap
  | .call (.insertLive key size usable allocMs tid) =>
      0 < t.maxEntries → t.find key = none →
        (t.insertLive key size usable allocMs tid).2 = true →
          (t.insertLive key size usable allocMs tid).1.AtCap
  | _ => True

/-- An insertion of a new key under a cap does not meet an excess of which more
than one record could be worked off. -/
def ChunkTable.NoExcess (t : ChunkTable) : CapOp → Prop
  | .call (.insertLive key _ _ _ _) =>
      0 < t.maxEntries → key ≠ 0 → t.find key = none →
        t.size ≤ t.maxEntries ∨ t.freedCount ≤ 1
  | _ => True

section Cap

variable {t : ChunkTable}

theorem freedCount_eq_zero : t.freedCount = 0 ↔ ∀ c ∈ t.records, c.state ≠ .freed :=
  Multiset.countP_eq_zero

/-- The eviction an insertion makes is the only one. -/
theorem ChunkTable.Evicted.freedCount {c : Chunk} {t' : ChunkTable} (h : Evicted t c t') :
    t.freedCount = t'.freedCount + 1 := by
  unfold ChunkTable.freedCount
  rw [← h.records]
  refine Multiset.countP_cons_of_pos _ ?_
  exact h.freed

theorem CapInv.capKept_insert_iff (h : CapInv t) (key size usable allocMs tid : Nat) :
    t.CapKept (.call (.insertLive key size usable allocMs tid)) ↔
      t.NoExcess (.call (.insertLive key size usable allocMs tid)) := by
  unfold ChunkTable.CapKept ChunkTable.NoExcess
  by_cases hkey : key = 0
  · subst hkey
    exact ⟨fun _ _ hne => absurd rfl hne, fun _ _ _ hfalse => nomatch hfalse⟩
  · obtain ⟨hinv, hcase⟩ := h.insertLive hkey size usable allocMs tid
    refine forall_congr' fun hmax => ?_
    generalize t.insertLive key size usable allocMs tid = r at hinv hcase
    obtain ⟨t', b⟩ := r
    dsimp only at hinv hcase ⊢
    cases hcase with
    | recycled hrew hpolicy =>
        obtain ⟨c, hc, hk, -⟩ := hrew
        have hsome : t.find key ≠ none := by
          rcases h.find_cases key with ⟨i, -, -, -, hfind⟩ | ⟨hno, -⟩
          · rw [hfind]
            exact Option.some_ne_none i
          · exact absurd hk (hno c hc)
        exact ⟨fun _ _ hnone => absurd hnone hsome, fun _ hnone => absurd hnone hsome⟩
    | placed hnew hroom hrec hpolicy =>
        have hsize : t'.size = t.size + 1 := by
          rw [hinv.size_eq, h.size_eq, hrec, Multiset.card_cons]
        have hcap := hpolicy.maxEntries
        exact ⟨fun _ _ _ => Or.inl (by omega), fun _ _ _ => Or.inl (by omega)⟩
    | evicting hnew hne hfull hevict hchosen hrec hpolicy =>
        have hsize : t'.size = t.size := by
          have hone := hevict.size h.toTableInv
          rw [hevict.inv.size_eq] at hone
          rw [hinv.size_eq, hrec, Multiset.card_cons, hone]
        have hfreed : t'.freedCount + 1 = t.freedCount := by
          rw [hevict.freedCount]
          unfold ChunkTable.freedCount
          rw [hrec, Multiset.countP_cons_of_neg]
          exact ChunkState.noConfusion
        have hat : t'.AtCap ↔ t.size ≤ t.maxEntries ∨ t.freedCount ≤ 1 := by
          unfold ChunkTable.AtCap
          rw [← freedCount_eq_zero, hsize, hpolicy.maxEntries, hevict.maxEntries]
          omega
        rw [hat]
        exact ⟨fun hkept _ hnone => hkept hnone rfl, fun hok hnone _ => hok hkey hnone⟩
    | refused hnew hne hfull hnone hrec hsize hdrops hcap hhints =>
        have hzero := freedCount_eq_zero.mpr hnone
        exact ⟨fun _ _ _ => Or.inr (by omega), fun _ _ hfalse => nomatch hfalse⟩

theorem CapInv.capKept_iff (h : CapInv t) (op : CapOp) : t.CapKept op ↔ t.NoExcess op := by
  cases op with
  | setMaxEntries n =>
      exact ⟨fun _ => trivial, fun _ hn => (h.setMaxEntries n).2.2.2 (Nat.ne_of_gt hn)⟩
  | call op =>
      cases op with
      | insertLive key size usable allocMs tid =>
          exact h.capKept_insert_iff key size usable allocMs tid
      | markFreed key freeMs => exact Iff.rfl
      | markRefined key exactOverhead headerFlags => exact Iff.rfl
      | clearRefined => exact Iff.rfl
      | erase key => exact Iff.rfl
      | reserve entries => exact Iff.rfl
      | clear => exact Iff.rfl
      | find key => exact Iff.rfl

/-- **When the cap is an invariant.** Over every sequence of calls: each new cap
and each insertion of a new key leaves a table that fits or has nothing to give
up, if and only if no insertion of a new key meets a table above its cap with
more than one freed record in it. -/
theorem cap_kept_iff (initialCapacity : Nat) (ops : List CapOp) :
    (ChunkTable.new initialCapacity).EveryCall ChunkTable.CapKept ops ↔
      (ChunkTable.new initialCapacity).EveryCall ChunkTable.NoExcess ops :=
  (CapInv.new initialCapacity).everyCall_congr (fun _ op h => h.capKept_iff op) ops

/-- Three live records, a cap of one, two of them freed, one more inserted. -/
def excessCalls : List CapOp :=
  [.call (.insertLive 16 8 24 0 1), .call (.insertLive 32 8 24 1 1),
    .call (.insertLive 48 8 24 2 1), .setMaxEntries 1, .call (.markFreed 16 3),
    .call (.markFreed 32 4), .call (.insertLive 64 8 24 5 1)]

/-- The table then holds three records under its cap of one, and could give up
the first. -/
theorem cap_left_in_excess :
    ¬ (ChunkTable.new 16).EveryCall ChunkTable.CapKept excessCalls := by
  intro h
  have hlast := h.2.2.2.2.2.2.1 (by decide +kernel) (by decide +kernel) (by decide +kernel)
  have hinv : CapInv ((ChunkTable.new 16).capRun excessCalls) := (CapInv.new 16).run excessCalls
  have hfound : ((ChunkTable.new 16).capRun excessCalls).lookup 16 =
      some ⟨16, 8, 24, 0, 3, 1, .freed, 0, 0⟩ := by decide +kernel
  rcases hlast with hsize | hnone
  · revert hsize
    decide +kernel
  · exact hnone _ (hinv.lookup_eq_some.mp hfound).1 rfl

end Cap

end Heapviz
