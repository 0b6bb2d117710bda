import Mathlib.Data.Set.Card
import Heapviz.ChunkInv

/-!
# The chunk table is a finite map

What the table is for: a map from address to what is known about the
allocation there. `ChunkMap` is that map with the operations one would
write down without a hash table, and `chunkTable_refines` says that no
sequence of calls can tell the two apart - same lookups, same booleans,
same size - and that every probe loop ends.

The refinement relation is `ChunkTable.Models`: the table satisfies its
invariant, has no bound, and looks up what the map holds.
-/

namespace Heapviz

open RobinHood ChunkTable

/-! ## The abstract map -/

/-- What the map remembers of an allocation. -/
structure ChunkEntry where
  size : Nat
  usable : Nat
  allocMs : Nat
  freeMs : Nat
  tid : Nat
  state : ChunkState
deriving Repr, DecidableEq

def Chunk.entry (c : Chunk) : ChunkEntry :=
  ⟨c.size, c.usable, c.allocMs, c.freeMs, c.tid, c.state⟩

abbrev ChunkMap := Nat → Option ChunkEntry

/-- A call on the table. -/
inductive TableOp where
  | insertLive (key size usable allocMs tid : Nat)
  | markFreed (key freeMs : Nat)
  | markRefined (key exactOverhead headerFlags : Nat)
  | clearRefined
  | erase (key : Nat)
  | reserve (entries : Nat)
  | clear
  | find (key : Nat)
deriving Repr, DecidableEq

/-- What a call returns. -/
inductive TableAnswer where
  | done
  | bool (b : Bool)
  | entry (e : Option ChunkEntry)
deriving Repr, DecidableEq

/-- The call on the map: what it becomes and what is returned. -/
def ChunkMap.step (m : ChunkMap) : TableOp → ChunkMap × TableAnswer
  | .insertLive key size usable allocMs tid =>
      if key = 0 then (m, .bool false)
      else (Function.update m key (some ⟨size, usable, allocMs, 0, tid, .live⟩), .bool true)
  | .markFreed key freeMs =>
      (Function.update m key ((m key).map fun e => { e with state := .freed, freeMs := freeMs }),
        .bool (m key).isSome)
  | .markRefined key exactOverhead _ =>
      (m, .bool (exactOverhead ≤ 2 ^ 16 - 1 && (m key).isSome))
  | .clearRefined => (m, .done)
  | .erase key => (Function.update m key none, .bool (m key).isSome)
  | .reserve _ => (m, .bool true)
  | .clear => (fun _ => none, .done)
  | .find key => (m, .entry (m key))

/-- The same call on the table. -/
def ChunkTable.step (t : ChunkTable) : TableOp → ChunkTable × TableAnswer
  | .insertLive key size usable allocMs tid =>
      ((t.insertLive key size usable allocMs tid).1,
        .bool (t.insertLive key size usable allocMs tid).2)
  | .markFreed key freeMs => ((t.markFreed key freeMs).1, .bool (t.markFreed key freeMs).2)
  | .markRefined key exactOverhead headerFlags =>
      ((t.markRefined key exactOverhead headerFlags).1,
        .bool (t.markRefined key exactOverhead headerFlags).2)
  | .clearRefined => (t.clearRefined, .done)
  | .erase key => ((t.erase key).1, .bool (t.erase key).2)
  | .reserve entries => ((t.reserve entries).1, .bool (t.reserve entries).2)
  | .clear => (t.clear, .done)
  | .find key => (t, .entry ((t.lookup key).map Chunk.entry))

def ChunkTable.steps (t : ChunkTable) (ops : List TableOp) : ChunkTable :=
  ops.foldl (fun t op => (t.step op).1) t

def ChunkMap.steps (m : ChunkMap) (ops : List TableOp) : ChunkMap :=
  ops.foldl (fun m op => (ChunkMap.step m op).1) m

/-! ## Lookups after a change of the records -/

/-- The table stands for the map. -/
structure ChunkTable.Models (t : ChunkTable) (m : ChunkMap) : Prop where
  inv : TableInv t
  unbounded : t.maxEntries = 0
  lookup : ∀ key, (t.lookup key).map Chunk.entry = m key

/-- Lookups depend on the records under the key only. -/
theorem TableInv.lookup_congr {t t' : ChunkTable} (hI : TableInv t) (hI' : TableInv t')
    {key : Nat} (h : ∀ c, c.key = key → (c ∈ t'.records ↔ c ∈ t.records)) :
    t'.lookup key = t.lookup key := by
  refine Option.ext ?_
  intro c
  rw [hI.lookup_eq_some, hI'.lookup_eq_some]
  exact and_congr_left fun hk => h c hk

/-- A table whose records under the other keys are the old ones is the old table, updated. -/
theorem TableInv.lookup_eq_update {t t' : ChunkTable} (hI : TableInv t) (hI' : TableInv t')
    {key : Nat} {found : Option Chunk} (hself : t'.lookup key = found)
    (hother : ∀ d : Chunk, d.key ≠ key → (d ∈ t'.records ↔ d ∈ t.records)) :
    t'.lookup = Function.update t.lookup key found := by
  funext k
  by_cases hk : k = key
  · rw [hk, Function.update_self, hself]
  · rw [Function.update_of_ne hk]
    refine hI.lookup_congr hI' ?_
    intro d hd
    exact hother d fun h => hk (hd.symm.trans h)

theorem TableInv.lookup_add {t t' : ChunkTable} (hI : TableInv t) (hI' : TableInv t') {c : Chunk}
    (hrec : t'.records = c ::ₘ t.records) :
    t'.lookup = Function.update t.lookup c.key (some c) := by
  refine hI.lookup_eq_update hI' ?_ ?_
  · exact hI'.lookup_eq_some.mpr ⟨hrec ▸ Multiset.mem_cons_self c _, rfl⟩
  · intro d hd
    have hne : d ≠ c := fun h => hd (congrArg Chunk.key h)
    rw [hrec, Multiset.mem_cons, or_iff_right hne]

theorem TableInv.lookup_remove {t t' : ChunkTable} (hI : TableInv t) (hI' : TableInv t')
    {c : Chunk} (hrec : c ::ₘ t'.records = t.records) :
    t'.lookup = Function.update t.lookup c.key none := by
  refine hI.lookup_eq_update hI' ?_ ?_
  · refine hI'.lookup_eq_none.mpr ?_
    intro d hd hdk
    have hnd := hI.nodup
    rw [← hrec, Multiset.map_cons, Multiset.nodup_cons] at hnd
    exact hnd.1 (hdk ▸ Multiset.mem_map_of_mem _ hd)
  · intro d hd
    have hne : d ≠ c := fun h => hd (congrArg Chunk.key h)
    rw [← hrec, Multiset.mem_cons, or_iff_right hne]

theorem TableInv.lookup_rewritten {t t' : ChunkTable} (hI : TableInv t) (hI' : TableInv t')
    {key : Nat} {f : Chunk → Chunk} (h : Rewritten t key f t')
    (hf : ∀ c, (f c).key = c.key) :
    t'.lookup = Function.update t.lookup key ((t.lookup key).map f) ∧
      (t.lookup key).isSome = true := by
  obtain ⟨c, hc, rfl, hrec⟩ := h
  have hfound : t.lookup c.key = some c := hI.lookup_eq_some.mpr ⟨hc, rfl⟩
  refine ⟨hI.lookup_eq_update hI' ?_ ?_, by rw [hfound]; rfl⟩
  · rw [hfound, Option.map_some]
    refine hI'.lookup_eq_some.mpr ⟨?_, hf c⟩
    -- `f c` is in the new table, or it is `c` itself and was there before
    have hmem : f c ∈ c ::ₘ t'.records := hrec ▸ Multiset.mem_cons_self _ _
    rcases Multiset.mem_cons.mp hmem with heq | hmem
    · rw [heq] at hrec ⊢
      rw [(Multiset.cons_inj_right c).mp hrec]
      exact hc
    · exact hmem
  · intro d hd
    have hne : d ≠ c := fun h => hd (congrArg Chunk.key h)
    have hne' : d ≠ f c := fun h => hd (by rw [h, hf])
    have hiff : d ∈ c ::ₘ t'.records ↔ d ∈ f c ::ₘ t.records := by rw [hrec]
    rwa [Multiset.mem_cons, Multiset.mem_cons, or_iff_right hne, or_iff_right hne'] at hiff

/-- One record for each key. -/
theorem TableInv.eq_of_key {t : ChunkTable} (hI : TableInv t) {c d : Chunk} (hc : c ∈ t.records)
    (hd : d ∈ t.records) (hkey : c.key = d.key) : c = d := by
  have hfound := hI.lookup_eq_some.mpr ⟨hc, hkey⟩
  rw [hI.lookup_eq_some.mpr ⟨hd, rfl⟩] at hfound
  exact (Option.some.inj hfound).symm

/-- What a rewrite of one record leaves under the other keys. -/
theorem TableInv.mem_rewritten {t t' : ChunkTable} (hI : TableInv t) (hI' : TableInv t')
    {key : Nat} {f : Chunk → Chunk} (h : Rewritten t key f t') (hf : ∀ c, (f c).key = c.key)
    {d : Chunk} (hd : d ∈ t'.records) :
    (∃ c ∈ t.records, c.key = key ∧ d = f c) ∨ (d ∈ t.records ∧ d.key ≠ key) := by
  obtain ⟨hlookup, -⟩ := hI.lookup_rewritten hI' h hf
  have hfound := hI'.lookup_eq_some.mpr ⟨hd, rfl⟩
  rw [hlookup] at hfound
  by_cases hkey : d.key = key
  · rw [hkey, Function.update_self] at hfound
    obtain ⟨c, hc, hfc⟩ := Option.map_eq_some_iff.mp hfound
    obtain ⟨hmem, hck⟩ := hI.lookup_eq_some.mp hc
    exact Or.inl ⟨c, hmem, hck, hfc.symm⟩
  · rw [Function.update_of_ne hkey] at hfound
    exact Or.inr ⟨(hI.lookup_eq_some.mp hfound).1, hkey⟩

/-! ## One call -/

theorem ChunkTable.Models.isSome {t : ChunkTable} {m : ChunkMap} (h : t.Models m) (key : Nat) :
    (m key).isSome = (t.lookup key).isSome := by
  rw [← h.lookup key, Option.isSome_map]

/-- The map follows when one entry of the lookups is replaced. -/
theorem ChunkTable.Models.update {t t' : ChunkTable} {m : ChunkMap} (h : t.Models m)
    (hI : TableInv t') (hmax : t'.maxEntries = 0) {key : Nat} {v : Option Chunk}
    (hl : t'.lookup = Function.update t.lookup key v) {e : Option ChunkEntry}
    (he : v.map Chunk.entry = e) : t'.Models (Function.update m key e) where
  inv := hI
  unbounded := hmax
  lookup := fun k => by
    by_cases hk : k = key
    · subst hk
      rw [hl, Function.update_self, Function.update_self, he]
    · rw [hl, Function.update_of_ne hk, Function.update_of_ne hk, h.lookup]

theorem ChunkTable.Models.same {t t' : ChunkTable} {m : ChunkMap} (h : t.Models m)
    (hg : Grown t t') : t'.Models m where
  inv := hg.inv
  unbounded := hg.policy.maxEntries.trans h.unbounded
  lookup := fun key => by
    have hcongr := @TableInv.lookup_congr t t' h.inv hg.inv key fun c _ => by rw [hg.records]
    rw [hcongr, h.lookup]

theorem ChunkTable.Models.insertLive {t : ChunkTable} {m : ChunkMap} (h : t.Models m)
    (key size usable allocMs tid : Nat) :
    (t.step (.insertLive key size usable allocMs tid)).1.Models
        (m.step (.insertLive key size usable allocMs tid)).1 ∧
      (t.step (.insertLive key size usable allocMs tid)).2 =
        (m.step (.insertLive key size usable allocMs tid)).2 := by
  by_cases hkey : key = 0
  · subst hkey
    exact ⟨h, rfl⟩
  · obtain ⟨hI', htrue, hpol, heff⟩ :=
      h.inv.insertLive h.unbounded hkey size usable allocMs tid
    have hmax := hpol.maxEntries.trans h.unbounded
    simp only [ChunkTable.step, ChunkMap.step, if_neg hkey, htrue, and_true]
    rcases heff with hrew | ⟨-, hadd⟩
    · obtain ⟨hl, hsome⟩ := h.inv.lookup_rewritten hI' hrew fun _ => rfl
      obtain ⟨c, hc⟩ := Option.isSome_iff_exists.mp hsome
      exact h.update hI' hmax hl (by rw [hc]; rfl)
    · exact h.update hI' hmax (h.inv.lookup_add hI' hadd) rfl

theorem ChunkTable.Models.markFreed {t : ChunkTable} {m : ChunkMap} (h : t.Models m)
    (key freeMs : Nat) :
    (t.step (.markFreed key freeMs)).1.Models (m.step (.markFreed key freeMs)).1 ∧
      (t.step (.markFreed key freeMs)).2 = (m.step (.markFreed key freeMs)).2 := by
  simp only [ChunkTable.step, ChunkMap.step]
  rw [h.isSome]
  rcases h.inv.markFreed key freeMs with ⟨hno, heq⟩ | ⟨hrew, htrue, hI', hmax⟩
  · have hnone := h.inv.lookup_eq_none.mpr hno
    have hm : m key = none := by rw [← h.lookup, hnone]; rfl
    rw [heq, hnone, hm]
    refine ⟨?_, rfl⟩
    rw [Option.map_none, ← hm, Function.update_eq_self]
    exact h
  · obtain ⟨hl, hsome⟩ := h.inv.lookup_rewritten hI' hrew fun _ => rfl
    rw [htrue, hsome]
    refine ⟨h.update hI' (hmax.trans h.unbounded) hl ?_, rfl⟩
    rw [← h.lookup, Option.map_map, Option.map_map]
    rfl

theorem ChunkTable.Models.markRefined {t : ChunkTable} {m : ChunkMap} (h : t.Models m)
    (key exactOverhead headerFlags : Nat) :
    (t.step (.markRefined key exactOverhead headerFlags)).1.Models
        (m.step (.markRefined key exactOverhead headerFlags)).1 ∧
      (t.step (.markRefined key exactOverhead headerFlags)).2 =
        (m.step (.markRefined key exactOverhead headerFlags)).2 := by
  simp only [ChunkTable.step, ChunkMap.step]
  rw [h.isSome]
  rcases h.inv.markRefined key exactOverhead headerFlags with
    ⟨hno, heq⟩ | ⟨hfits, hrew, htrue, hI', hpol⟩
  · rw [heq]
    refine ⟨h, ?_⟩
    rcases hno with hbig | hno
    · rw [decide_eq_false (not_le.mpr hbig), Bool.false_and]
    · rw [h.inv.lookup_eq_none.mpr hno, Option.isSome_none, Bool.and_false]
  · obtain ⟨hl, hsome⟩ := h.inv.lookup_rewritten hI' hrew fun _ => rfl
    rw [htrue, hsome, decide_eq_true hfits]
    refine ⟨?_, rfl⟩
    -- refinement does not show in the entry
    have hself : ((t.lookup key).map fun c => c.refine exactOverhead headerFlags).map
        Chunk.entry = m key := by
      rw [← h.lookup, Option.map_map]
      rfl
    have := h.update hI' (hpol.maxEntries.trans h.unbounded) hl hself
    rwa [Function.update_eq_self] at this

theorem ChunkTable.Models.clearRefined {t : ChunkTable} {m : ChunkMap} (h : t.Models m) :
    t.clearRefined.Models m where
  inv := h.inv.clearRefined
  unbounded := h.unbounded
  lookup := fun key => by
    rw [← h.lookup]
    cases hl : t.lookup key with
    | none =>
        rw [h.inv.clearRefined.lookup_eq_none.mpr]
        intro c hc
        rw [records_clearRefined] at hc
        obtain ⟨d, hd, rfl⟩ := Multiset.mem_map.mp hc
        exact h.inv.lookup_eq_none.mp hl d hd
    | some c =>
        obtain ⟨hc, hk⟩ := h.inv.lookup_eq_some.mp hl
        have hmem : c.unrefine ∈ t.clearRefined.records :=
          records_clearRefined t ▸ Multiset.mem_map_of_mem _ hc
        rw [h.inv.clearRefined.lookup_eq_some.mpr ⟨hmem, hk⟩]
        rfl

theorem ChunkTable.Models.erase {t : ChunkTable} {m : ChunkMap} (h : t.Models m) (key : Nat) :
    (t.step (.erase key)).1.Models (m.step (.erase key)).1 ∧
      (t.step (.erase key)).2 = (m.step (.erase key)).2 := by
  simp only [ChunkTable.step, ChunkMap.step]
  rw [h.isSome]
  rcases h.inv.erase key with ⟨hno, heq⟩ | ⟨c, rfl, hrec, htrue, hI', hpol⟩
  · have hnone := h.inv.lookup_eq_none.mpr hno
    have hm : m key = none := by rw [← h.lookup, hnone]; rfl
    rw [heq, hnone, ← hm, Function.update_eq_self]
    exact ⟨h, rfl⟩
  · have hmem : c ∈ t.records := hrec ▸ Multiset.mem_cons_self c _
    rw [htrue, h.inv.lookup_eq_some.mpr ⟨hmem, rfl⟩]
    exact ⟨h.update hI' (hpol.maxEntries.trans h.unbounded) (h.inv.lookup_remove hI' hrec) rfl,
      rfl⟩

theorem ChunkTable.Models.clear {t : ChunkTable} {m : ChunkMap} (h : t.Models m) :
    t.clear.Models fun _ => none where
  inv := h.inv.clear
  unbounded := h.unbounded
  lookup := fun key => by
    rw [h.inv.clear.lookup_eq_none.mpr]
    · rfl
    · rw [records_clear]
      exact fun c hc => absurd hc (Multiset.notMem_zero c)

/-- No call tells table and map apart. -/
theorem ChunkTable.Models.step {t : ChunkTable} {m : ChunkMap} (h : t.Models m) (op : TableOp) :
    (t.step op).1.Models (m.step op).1 ∧ (t.step op).2 = (m.step op).2 := by
  cases op with
  | insertLive key size usable allocMs tid => exact h.insertLive key size usable allocMs tid
  | markFreed key freeMs => exact h.markFreed key freeMs
  | markRefined key exactOverhead headerFlags =>
      exact h.markRefined key exactOverhead headerFlags
  | clearRefined => exact ⟨h.clearRefined, rfl⟩
  | erase key => exact h.erase key
  | reserve entries =>
      obtain ⟨hg, htrue⟩ := h.inv.reserve entries
      exact ⟨h.same hg, congrArg TableAnswer.bool htrue⟩
  | clear => exact ⟨h.clear, rfl⟩
  | find key => exact ⟨h, congrArg TableAnswer.entry (h.lookup key)⟩

/-! ## Every sequence of calls -/

theorem ChunkTable.Models.new (initialCapacity : Nat) :
    (ChunkTable.new initialCapacity).Models fun _ => none where
  inv := TableInv.new initialCapacity
  unbounded := rfl
  lookup := fun key => by
    have hempty : (ChunkTable.new initialCapacity).records = 0 := records_of_empty fun _ _ => rfl
    rw [(TableInv.new initialCapacity).lookup_eq_none.mpr]
    · rfl
    · rw [hempty]
      exact fun c hc => absurd hc (Multiset.notMem_zero c)

theorem ChunkTable.Models.steps {t : ChunkTable} {m : ChunkMap} (h : t.Models m)
    (ops : List TableOp) : (t.steps ops).Models (m.steps ops) := by
  induction ops generalizing t m with
  | nil => exact h
  | cons op ops ih => exact ih (h.step op).1

/-- One round of the table is enough for the loop of `place`. -/
def ChunkTable.PlaceEnds (t : ChunkTable) (c : Chunk) : Prop :=
  (placeLoop t.capacity t c (t.idealSlot c.key) 0).isSome = true

/-- Every probe loop ends: of `find`, of `place` into the table as it is or
grown, of the reinsertions of a rehash, and of `erase`. -/
structure ChunkTable.Terminates (t : ChunkTable) : Prop where
  find : ∀ key, (t.findLoop key t.capacity (t.idealSlot key) 0).isSome = true
  place : ∀ n c, c.full = true → (t.growTo n).1.PlaceEnds c
  rehash : ∀ n j, t.capacity < roundCapacity n → j < t.capacity → (t.slots j).full = true →
    (t.rehashed (roundCapacity n) j).PlaceEnds (t.slots j)
  erase : ∀ key i, t.find key = some i → (eraseLoop t.capacity t i).isSome = true

theorem Layout.placeEnds {t : ChunkTable} (hL : Layout t) (hroom : t.records.card < t.capacity)
    {c : Chunk} (hc : c.full = true) : t.PlaceEnds c := by
  obtain ⟨t', hrun, -⟩ := hL.placeLoop hroom hc
  rw [PlaceEnds, hrun]
  rfl

theorem TableInv.terminates {t : ChunkTable} (hI : TableInv t) : t.Terminates where
  find := fun key => by
    by_cases h : ∃ c ∈ t.records, c.key = key
    · obtain ⟨c, hc, rfl⟩ := h
      obtain ⟨hfull, i, hi, rfl⟩ := mem_contents.mp hc
      rw [hI.findLoop_present hi hfull]
      rfl
    · rw [hI.findLoop_absent fun c hc hk => h ⟨c, hc, hk⟩]
      rfl
  place := fun n c hc => by
    obtain ⟨hg, -, -⟩ := hI.growTo n
    exact hg.inv.toLayout.placeEnds hg.inv.card_lt hc
  rehash := fun n j hcap hj hfull => by
    obtain ⟨hsame, hL, hrec⟩ := rehashed_spec hI (roundCapacity_eq n) hcap hj.le
    refine hL.placeEnds ?_ hfull
    calc (t.rehashed (roundCapacity n) j).records.card
        ≤ t.records.card := by rw [hrec]; exact Multiset.card_le_card (contents_mono hj.le)
      _ < t.capacity := hI.card_lt
      _ < roundCapacity n := hcap
      _ = (t.rehashed (roundCapacity n) j).capacity := hsame.capacity.symm
  erase := fun key i hfind => by
    rcases hI.find_cases key with ⟨j, hj, hfull, -, hfind'⟩ | ⟨-, hnone⟩
    · obtain rfl := Option.some.inj (hfind.symm.trans hfind')
      obtain ⟨t', hrun, -⟩ := hI.eraseLoop hj hfull
      rw [hrun]
      rfl
    · rw [hnone] at hfind
      cases hfind

/-- The number of slots in use. -/
def ChunkTable.slotsInUse (t : ChunkTable) : Nat :=
  ((List.range t.capacity).filter fun i => (t.slots i).full).length

theorem ChunkTable.slotsInUse_eq (t : ChunkTable) : t.slotsInUse = t.records.card := by
  unfold slotsInUse ChunkTable.records contents
  rw [Multiset.filter_map, Multiset.card_map]
  rw [← Multiset.coe_range, Multiset.filter_coe, Multiset.coe_card]
  simp only [Function.comp_apply, Bool.decide_eq_true]

theorem ChunkTable.Models.size_eq {t : ChunkTable} {m : ChunkMap} (h : t.Models m) :
    t.size = {key | m key ≠ none}.ncard := by
  have hkeys : {key | m key ≠ none} = ((t.records.map Chunk.key).toFinset : Set Nat) := by
    ext key
    rw [Set.mem_ofPred_eq, Finset.mem_coe, Multiset.mem_toFinset, Multiset.mem_map,
      ← h.lookup key, Ne, Option.map_eq_none_iff, h.inv.lookup_eq_none]
    simp only [not_forall, not_not, exists_prop]
  rw [hkeys, Set.ncard_coe_finset, Multiset.toFinset_card_of_nodup h.inv.nodup,
    Multiset.card_map, h.inv.size_eq]

/-- **The chunk table refines a finite map.** After every sequence of calls
on a fresh table of any capacity, lookups agree with the map, no key is in
two slots, the size is the number of keys and of slots in use, whatever
is called next returns what the map would, and its loops end. -/
theorem chunkTable_refines (initialCapacity : Nat) (ops : List TableOp) :
    let t := (ChunkTable.new initialCapacity).steps ops
    let m := ChunkMap.steps (fun _ => none) ops
    (∀ key, (t.lookup key).map Chunk.entry = m key) ∧
    (∀ key c, t.lookup key = some c → c.key = key) ∧
    (∀ i < t.capacity, ∀ j < t.capacity, (t.slots i).full = true → (t.slots j).full = true →
      (t.slots i).key = (t.slots j).key → i = j) ∧
    t.size = {key | m key ≠ none}.ncard ∧
    t.size = t.slotsInUse ∧
    (∀ op, (t.step op).2 = (m.step op).2) ∧
    t.Terminates := by
  intro t m
  have h : t.Models m := (Models.new initialCapacity).steps ops
  exact ⟨h.lookup, fun key c hc => (h.inv.lookup_eq_some.mp hc).2,
    fun i hi j hj hfi hfj => h.inv.slot_eq hi hj hfi hfj, h.size_eq,
    h.inv.size_eq.trans t.slotsInUse_eq.symm, fun op => (h.step op).2, h.inv.terminates⟩

end Heapviz
