import Heapviz.RobinHood
import Heapviz.ChunkTable

/-!
# What every chunk table satisfies

`TableInv` is the representation invariant: the Robin Hood order on probe
distances, no key twice, no record under key zero, the cached size, the
load bound that keeps a slot empty, the longest probe seen, and empty
slots all zero. Each operation of the table keeps it, and its effect is
said once, as an equation on the multiset of records (`records`); the
proofs about the rest of the program use those equations and never look
at slots.

The probe loops are the theory of `Heapviz.RobinHood` at
`home c = ideal_slot(c.key)`: `findLoop_hit` is the early exit,
`placeLoop_spec` the induction over a carried record, `eraseLoop_spec`
the one over the gap that moves forward.
-/

namespace Heapviz

open RobinHood

namespace ChunkTable

/-- The slot a record would like to be in. -/
def home (t : ChunkTable) (c : Chunk) : Nat := t.idealSlot c.key

/-- The records of the table, slot layout forgotten. -/
def records (t : ChunkTable) : Multiset Chunk := contents t.capacity Chunk.full t.slots

theorem full_iff {c : Chunk} : c.full = true ↔ c.state ≠ .empty := by
  simp [Chunk.full]

theorem full_eq_false {c : Chunk} : c.full = false ↔ c.state = .empty := by
  simp [Chunk.full]

/-! ## Geometry -/

theorem roundCapacity_eq (n : Nat) : ∃ k, 4 ≤ k ∧ roundCapacity n = 2 ^ k := by
  unfold roundCapacity
  split_ifs with h
  · exact ⟨4, le_rfl, rfl⟩
  · refine ⟨Nat.log2 (n - 1) + 1, ?_, rfl⟩
    have h16 : 2 ^ 4 ≤ n - 1 := by
      unfold kMinCapacity at h
      omega
    have := (Nat.le_log2 (by omega)).mpr h16
    omega

theorem le_roundCapacity (n : Nat) : n ≤ roundCapacity n := by
  unfold roundCapacity
  split_ifs with h
  · exact h
  · have := Nat.lt_log2_self (n := n - 1)
    omega

/-- The capacity is a power of two of at least `kMinCapacity`. -/
def Sized (t : ChunkTable) : Prop := ∃ k, 4 ≤ k ∧ t.capacity = 2 ^ k

theorem Sized.one_lt {t : ChunkTable} (h : t.Sized) : 1 < t.capacity := by
  obtain ⟨k, hk, hcap⟩ := h
  rw [hcap]
  exact Nat.one_lt_two_pow (by omega)

theorem Sized.and_mask {t : ChunkTable} (h : t.Sized) (x : Nat) :
    x &&& t.mask = x % t.capacity := by
  obtain ⟨k, -, hcap⟩ := h
  rw [mask, hcap, Nat.and_two_pow_sub_one_eq_mod]

theorem Sized.next {t : ChunkTable} (h : t.Sized) (slot : Nat) :
    (slot + 1) &&& t.mask = next t.capacity slot := h.and_mask _

theorem Sized.probeDistance {t : ChunkTable} (h : t.Sized) (slot : Nat) :
    t.probeDistance slot = disp t.capacity t.home t.slots slot := h.and_mask _

/-- The hash takes just as many bits as there are slots. -/
theorem Sized.idealSlot_lt {t : ChunkTable} (h : t.Sized) (key : Nat) :
    t.idealSlot key < t.capacity := by
  obtain ⟨k, -, hcap⟩ := h
  have hhash : key * kFibonacci % 2 ^ 64 < 2 ^ 64 := Nat.mod_lt _ (Nat.two_pow_pos 64)
  rw [idealSlot, shift, hcap, Nat.log2_two_pow, Nat.shiftRight_eq_div_pow]
  refine Nat.div_lt_of_lt_mul (lt_of_lt_of_le hhash ?_)
  rw [← pow_add]
  exact Nat.pow_le_pow_right (by decide) (by omega)

theorem Sized.home_lt {t : ChunkTable} (h : t.Sized) (c : Chunk) : t.home c < t.capacity :=
  h.idealSlot_lt c.key

/-! ## The invariant -/

end ChunkTable

/-- What holds of the slots at every moment, also inside an operation. -/
structure Layout (t : ChunkTable) : Prop where
  sized : t.Sized
  ordered : Ordered t.capacity t.home Chunk.full t.slots
  probed : ∀ i < t.capacity, (t.slots i).full = true →
    disp t.capacity t.home t.slots i ≤ t.stats.maxProbe
  zeroed : ∀ i < t.capacity, (t.slots i).full = false → t.slots i = kEmptySlot

/-- What holds of the table between operations. -/
structure TableInv (t : ChunkTable) : Prop extends Layout t where
  nodup : (t.records.map Chunk.key).Nodup
  key_ne : ∀ c ∈ t.records, c.key ≠ 0
  size_eq : t.size = t.records.card
  load : t.size * kLoadDenominator ≤ t.capacity * kLoadNumerator

namespace ChunkTable

theorem records_of_empty {t : ChunkTable} (h : ∀ i < t.capacity, t.slots i = kEmptySlot) :
    t.records = 0 := by
  refine Multiset.eq_zero_of_forall_notMem ?_
  intro c hc
  obtain ⟨hfull, i, hi, rfl⟩ := mem_contents.mp hc
  rw [h i hi] at hfull
  cases hfull

theorem layout_of_empty {t : ChunkTable} (hs : t.Sized)
    (h : ∀ i < t.capacity, t.slots i = kEmptySlot) : Layout t := by
  refine ⟨hs, ?_, ?_, fun i hi _ => h i hi⟩
  · intro i hi hfull
    rw [h _ (next_lt hi)] at hfull
    cases hfull
  · intro i hi hfull
    rw [h i hi] at hfull
    cases hfull

end ChunkTable

open ChunkTable

theorem TableInv.card_lt {t : ChunkTable} (hI : TableInv t) : t.records.card < t.capacity := by
  have hload := hI.load
  have hcap := hI.sized.one_lt
  unfold kLoadDenominator kLoadNumerator at hload
  rw [← hI.size_eq]
  omega

theorem TableInv.hole {t : ChunkTable} (hI : TableInv t) :
    Hole t.capacity Chunk.full t.slots := hole_of_card_lt hI.card_lt

theorem TableInv.new (initialCapacity : Nat) : TableInv (ChunkTable.new initialCapacity) := by
  have hs : (ChunkTable.new initialCapacity).Sized := roundCapacity_eq initialCapacity
  have hempty : (ChunkTable.new initialCapacity).records = 0 := records_of_empty fun _ _ => rfl
  refine ⟨layout_of_empty hs fun _ _ => rfl, ?_, ?_, ?_, ?_⟩
  · rw [hempty]; exact Multiset.nodup_zero
  · rw [hempty]; exact fun c hc => absurd hc (Multiset.notMem_zero c)
  · rw [hempty]; rfl
  · exact (Nat.zero_mul _).le.trans (Nat.zero_le _)

/-- The slot of a stored record is determined by its key. -/
theorem TableInv.slot_eq {t : ChunkTable} (hI : TableInv t) {i j : Nat}
    (hi : i < t.capacity) (hj : j < t.capacity) (hfi : (t.slots i).full = true)
    (hfj : (t.slots j).full = true) (hkey : (t.slots i).key = (t.slots j).key) : i = j :=
  slot_unique hI.nodup hi hj hfi hfj hkey

/-! ## Looking up -/

theorem findLoop_hit {t : ChunkTable} (hI : TableInv t) {i : Nat} (hi : i < t.capacity)
    (hfull : (t.slots i).full = true) {fuel d : Nat}
    (hd : d ≤ disp t.capacity t.home t.slots i)
    (hfuel : disp t.capacity t.home t.slots i - d < fuel) :
    t.findLoop (t.slots i).key fuel (walk t.capacity (t.home (t.slots i)) d) d =
      some (some i) := by
  have hhome := hI.sized.home_lt (t.slots i)
  induction fuel generalizing d with
  | zero => exact absurd hfuel (Nat.not_lt_zero _)
  | succ fuel ih =>
      obtain ⟨hf, hle⟩ := hI.ordered.run hi hhome hfull hd
      rw [findLoop, if_neg (full_iff.mp hf)]
      by_cases hkey : (t.slots (walk t.capacity (t.home (t.slots i)) d)).key = (t.slots i).key
      · rw [if_pos hkey, hI.slot_eq (walk_lt hhome) hi hf hfull hkey]
      · -- short of the record the walk is no longer than the incumbent's own
        have hne : d ≠ disp t.capacity t.home t.slots i := by
          rintro rfl
          exact hkey (by unfold disp; rw [walk_dist hhome hi])
        rw [if_neg hkey, hI.sized.probeDistance, if_neg (not_lt.mpr hle), hI.sized.next,
          ← walk_succ]
        exact ih (by omega) (by omega)

theorem findLoop_miss {t : ChunkTable} (hs : t.Sized) {key : Nat}
    (hno : ∀ i < t.capacity, (t.slots i).full = true → (t.slots i).key ≠ key) {e : Nat} :
    ∀ {fuel slot d : Nat}, slot < t.capacity →
      (t.slots (walk t.capacity slot e)).full = false → e < fuel →
      t.findLoop key fuel slot d = some none := by
  induction e with
  | zero =>
      intro fuel slot d hslot hempty hfuel
      obtain ⟨fuel, rfl⟩ := Nat.exists_eq_succ_of_ne_zero (Nat.ne_of_gt hfuel)
      rw [walk_zero hslot] at hempty
      rw [findLoop, if_pos (full_eq_false.mp hempty)]
  | succ e ih =>
      intro fuel slot d hslot hempty hfuel
      obtain ⟨fuel, rfl⟩ := Nat.exists_eq_succ_of_ne_zero (Nat.ne_zero_of_lt hfuel)
      rw [findLoop]
      split_ifs with hstate hkey hdist
      · rfl
      · exact absurd hkey (hno slot hslot (full_iff.mpr hstate))
      · rfl
      · rw [hs.next]
        refine ih (next_lt hslot) ?_ (by omega)
        rw [next_walk]
        exact hempty

theorem TableInv.findLoop_present {t : ChunkTable} (hI : TableInv t) {i : Nat}
    (hi : i < t.capacity) (hfull : (t.slots i).full = true) :
    t.findLoop (t.slots i).key t.capacity (t.idealSlot (t.slots i).key) 0 = some (some i) := by
  have hdisp := hI.ordered.disp_lt hI.hole hi (hI.sized.home_lt _) hfull
  have hloop := @findLoop_hit t hI i hi hfull t.capacity 0 (Nat.zero_le _) (by omega)
  rwa [walk_zero (hI.sized.home_lt _)] at hloop

/-- `find` reaches every stored record. -/
theorem TableInv.find_slot {t : ChunkTable} (hI : TableInv t) {i : Nat} (hi : i < t.capacity)
    (hfull : (t.slots i).full = true) : t.find (t.slots i).key = some i := by
  have hkey := hI.key_ne _ (mem_contents_of_full hi hfull)
  have hcap : t.capacity ≠ 0 := Nat.ne_of_gt (by omega)
  rw [find, if_neg (by simp [hkey, hcap]), hI.findLoop_present hi hfull, Option.getD_some]

theorem TableInv.findLoop_absent {t : ChunkTable} (hI : TableInv t) {key : Nat}
    (hno : ∀ c ∈ t.records, c.key ≠ key) :
    t.findLoop key t.capacity (t.idealSlot key) 0 = some none := by
  obtain ⟨e, he, hempty⟩ := hI.hole.ahead (hI.sized.idealSlot_lt key)
  exact findLoop_miss hI.sized (fun i hi hf => hno _ (mem_contents_of_full hi hf))
    (hI.sized.idealSlot_lt key) hempty he

/-- The two outcomes of `find`. -/
theorem TableInv.find_cases {t : ChunkTable} (hI : TableInv t) (key : Nat) :
    (∃ i < t.capacity, (t.slots i).full = true ∧ (t.slots i).key = key ∧
      t.find key = some i) ∨
    ((∀ c ∈ t.records, c.key ≠ key) ∧ t.find key = none) := by
  by_cases h : ∃ c ∈ t.records, c.key = key
  · obtain ⟨c, hc, rfl⟩ := h
    obtain ⟨hfull, i, hi, rfl⟩ := mem_contents.mp hc
    exact .inl ⟨i, hi, hfull, rfl, hI.find_slot hi hfull⟩
  · have hno : ∀ c ∈ t.records, c.key ≠ key := fun c hc hk => h ⟨c, hc, hk⟩
    refine .inr ⟨hno, ?_⟩
    rw [find]
    split_ifs
    · rfl
    · rw [hI.findLoop_absent hno, Option.getD_some]

/-- `find` is membership. -/
theorem TableInv.lookup_eq_some {t : ChunkTable} (hI : TableInv t) {key : Nat} {c : Chunk} :
    t.lookup key = some c ↔ c ∈ t.records ∧ c.key = key := by
  unfold lookup
  constructor
  · intro h
    obtain ⟨i, hfind, rfl⟩ := Option.map_eq_some_iff.mp h
    rcases hI.find_cases key with ⟨j, hj, hfull, hkey, hfind'⟩ | ⟨-, hnone⟩
    · obtain rfl := Option.some.inj (hfind.symm.trans hfind')
      exact ⟨mem_contents_of_full hj hfull, hkey⟩
    · rw [hnone] at hfind
      cases hfind
  · rintro ⟨hc, rfl⟩
    obtain ⟨hfull, i, hi, rfl⟩ := mem_contents.mp hc
    rw [hI.find_slot hi hfull, Option.map_some]

theorem TableInv.lookup_eq_none {t : ChunkTable} (hI : TableInv t) {key : Nat} :
    t.lookup key = none ↔ ∀ c ∈ t.records, c.key ≠ key := by
  constructor
  · intro h c hc hk
    rw [hI.lookup_eq_some.mpr ⟨hc, hk⟩] at h
    cases h
  · intro h
    cases hl : t.lookup key with
    | none => rfl
    | some c =>
        obtain ⟨hc, hk⟩ := hI.lookup_eq_some.mp hl
        exact absurd hk (h c hc)

/-! ## Placing -/

@[simp] theorem noteProbe_slots (t : ChunkTable) (d : Nat) :
    (t.noteProbe d).slots = t.slots := by
  unfold noteProbe; split <;> rfl

@[simp] theorem noteProbe_capacity (t : ChunkTable) (d : Nat) :
    (t.noteProbe d).capacity = t.capacity := by
  unfold noteProbe; split <;> rfl

@[simp] theorem noteProbe_maxProbe (t : ChunkTable) (d : Nat) :
    (t.noteProbe d).stats.maxProbe = max t.stats.maxProbe d := by
  unfold noteProbe
  split_ifs with h
  · exact (max_eq_right h.le).symm
  · exact (max_eq_left (not_lt.mp h)).symm

/-- The hash depends on the table through its capacity only. -/
theorem home_congr {t t' : ChunkTable} (h : t'.capacity = t.capacity) : t'.home = t.home := by
  funext c
  simp only [home, idealSlot, shift, h]

/-- Only slots and the longest probe differ. -/
def SameBut (t t' : ChunkTable) : Prop :=
  t' = { t with slots := t'.slots, stats := { t.stats with maxProbe := t'.stats.maxProbe } }

theorem SameBut.refl (t : ChunkTable) : SameBut t t := rfl

theorem SameBut.trans {t t' t'' : ChunkTable} (h : SameBut t t') (h' : SameBut t' t'') :
    SameBut t t'' := by
  unfold SameBut at *
  rw [h'] at *
  rw [h]

theorem SameBut.capacity {t t' : ChunkTable} (h : SameBut t t') : t'.capacity = t.capacity := by
  unfold SameBut at h
  rw [h]

theorem SameBut.size {t t' : ChunkTable} (h : SameBut t t') : t'.size = t.size := by
  unfold SameBut at h
  rw [h]

theorem SameBut.set (t : ChunkTable) (i : Nat) (c : Chunk) : SameBut t (t.set i c) := rfl

theorem SameBut.noteProbe (t : ChunkTable) (d : Nat) : SameBut t (t.noteProbe d) := by
  unfold ChunkTable.noteProbe SameBut
  split <;> rfl

theorem Layout.noteProbe {t : ChunkTable} (hL : Layout t) (d : Nat) : Layout (t.noteProbe d) := by
  have hcap := noteProbe_capacity t d
  refine ⟨?_, ?_, ?_, ?_⟩
  · unfold Sized
    rw [hcap]
    exact hL.sized
  · rw [hcap, home_congr hcap, noteProbe_slots]
    exact hL.ordered
  · rw [hcap, home_congr hcap, noteProbe_slots, noteProbe_maxProbe]
    exact fun i hi hf => (hL.probed i hi hf).trans (le_max_left _ _)
  · rw [hcap, noteProbe_slots]
    exact hL.zeroed

theorem set_slots_self (t : ChunkTable) (i : Nat) (c : Chunk) : (t.set i c).slots i = c :=
  Function.update_self ..

theorem set_slots_of_ne (t : ChunkTable) {i j : Nat} (c : Chunk) (h : j ≠ i) :
    (t.set i c).slots j = t.slots j :=
  Function.update_of_ne h _ _

/-- Writing one slot. -/
theorem Layout.set {t : ChunkTable} (hL : Layout t) {i : Nat} {c : Chunk}
    (hord : Ordered t.capacity t.home Chunk.full (Function.update t.slots i c))
    (hprobe : c.full = true → dist t.capacity (t.home c) i ≤ t.stats.maxProbe)
    (hzero : c.full = false → c = kEmptySlot) : Layout (t.set i c) := by
  refine ⟨hL.sized, hord, ?_, ?_⟩
  · intro j hj hf
    by_cases hji : j = i
    · subst hji
      rw [set_slots_self] at hf
      exact disp_update_self.le.trans (hprobe hf)
    · rw [set_slots_of_ne t c hji] at hf
      exact (disp_update_ne hji).le.trans (hL.probed j hj hf)
  · intro j hj hf
    by_cases hji : j = i
    · subst hji
      rw [set_slots_self] at hf ⊢
      exact hzero hf
    · rw [set_slots_of_ne t c hji] at hf ⊢
      exact hL.zeroed j hj hf

/-- What `place` leaves behind. -/
structure Placed (t : ChunkTable) (c : Chunk) (t' : ChunkTable) : Prop where
  same : SameBut t t'
  layout : Layout t'
  records : t'.records = c ::ₘ t.records

theorem records_congr {t t' : ChunkTable} (hs : t'.slots = t.slots)
    (hc : t'.capacity = t.capacity) : t'.records = t.records := by
  unfold records
  rw [hs, hc]

theorem records_set_empty {t : ChunkTable} {i : Nat} {c : Chunk} (hi : i < t.capacity)
    (hempty : (t.slots i).full = false) (hc : c.full = true) :
    (t.set i c).records = c ::ₘ t.records := by
  have h := @contents_update Chunk t.capacity Chunk.full t.slots i hi c
  rw [hempty, if_neg (by decide), zero_add, if_pos hc, Multiset.singleton_add] at h
  exact h

theorem records_set_full {t : ChunkTable} {i : Nat} {c : Chunk} (hi : i < t.capacity)
    (hfull : (t.slots i).full = true) (hc : c.full = true) :
    t.slots i ::ₘ (t.set i c).records = c ::ₘ t.records := by
  have h := @contents_update Chunk t.capacity Chunk.full t.slots i hi c
  rw [if_pos hfull, if_pos hc, Multiset.singleton_add, Multiset.singleton_add] at h
  exact h

theorem records_set_vacated {t : ChunkTable} {i : Nat} (hi : i < t.capacity)
    (hfull : (t.slots i).full = true) :
    t.slots i ::ₘ (t.set i kEmptySlot).records = t.records := by
  have h := @contents_update Chunk t.capacity Chunk.full t.slots i hi kEmptySlot
  rw [if_pos hfull, if_neg (by decide), zero_add, Multiset.singleton_add] at h
  exact h

/-- Putting the record down. -/
theorem Layout.put {t : ChunkTable} {c : Chunk} {slot d : Nat} (hL : Layout t)
    (hcarry : Carry t.capacity t.home Chunk.full t.slots c slot d) (hc : c.full = true)
    (hprobe : d ≤ t.stats.maxProbe) (hempty : (t.slots slot).full = false) :
    Placed t c ((t.set slot c).noteProbe d) where
  same := (SameBut.set t slot c).trans (SameBut.noteProbe _ _)
  layout := by
    refine (hL.set (hcarry.put hL.sized.one_lt hL.ordered hempty) ?_ ?_).noteProbe d
    · intro _
      exact hcarry.dist_eq.le.trans hprobe
    · intro h
      rw [hc] at h
      cases h
  records := by
    rw [records_congr (noteProbe_slots ..) (noteProbe_capacity ..)]
    exact records_set_empty hcarry.slot_lt hempty hc

theorem placeLoop_spec {e : Nat} : ∀ {fuel : Nat} {t : ChunkTable} {c : Chunk} {slot d : Nat},
    Layout t → Carry t.capacity t.home Chunk.full t.slots c slot d → c.full = true →
    d ≤ t.stats.maxProbe → (t.slots (walk t.capacity slot e)).full = false → e < fuel →
    ∃ t', placeLoop fuel t c slot d = some t' ∧ Placed t c t' := by
  -- the induction is on the way to the empty slot; what is in hand changes
  induction e with
  | zero =>
      intro fuel t c slot d hL hcarry hc hprobe hempty hfuel
      obtain ⟨fuel, rfl⟩ := Nat.exists_eq_succ_of_ne_zero (Nat.ne_of_gt hfuel)
      rw [walk_zero hcarry.slot_lt] at hempty
      rw [placeLoop, if_pos (full_eq_false.mp hempty)]
      exact ⟨_, rfl, hL.put hcarry hc hprobe hempty⟩
  | succ e ih =>
      intro fuel t c slot d hL hcarry hc hprobe hempty hfuel
      obtain ⟨fuel, rfl⟩ := Nat.exists_eq_succ_of_ne_zero (Nat.ne_zero_of_lt hfuel)
      rw [placeLoop]
      by_cases hstate : (t.slots slot).state = .empty
      · rw [if_pos hstate]
        exact ⟨_, rfl, hL.put hcarry hc hprobe (full_eq_false.mpr hstate)⟩
      have hfull := full_iff.mpr hstate
      have hhole : Hole t.capacity Chunk.full t.slots := ⟨_, walk_lt hcarry.slot_lt, hempty⟩
      rw [← next_walk] at hempty
      rw [if_neg hstate, hL.sized.probeDistance, hL.sized.next]
      split_ifs with hlt
      · obtain ⟨hord, hcarry'⟩ := hcarry.steal hL.sized.one_lt hL.ordered hhole
          hL.sized.home_lt hc hfull hlt
        have hL' : Layout (t.set slot c) :=
          hL.set hord (fun _ => hcarry.dist_eq.le.trans hprobe) (fun h => by rw [hc] at h; cases h)
        have hcap : ((t.set slot c).noteProbe (disp t.capacity t.home t.slots slot + 1)).capacity =
          t.capacity := noteProbe_capacity ..
        have hne : walk t.capacity (next t.capacity slot) e ≠ slot := by
          intro h
          rw [h, hfull] at hempty
          cases hempty
        obtain ⟨t', hrun, hsame, hlay, hrec⟩ := ih (hL'.noteProbe _)
          (by rw [hcap, home_congr hcap, noteProbe_slots]; exact hcarry') hfull
          (by rw [noteProbe_maxProbe]; exact le_max_right _ _)
          (by rw [hcap, noteProbe_slots, set_slots_of_ne t c hne]; exact hempty)
          (Nat.lt_of_succ_lt_succ hfuel)
        refine ⟨t', hrun, ((SameBut.set t slot c).trans (SameBut.noteProbe _ _)).trans hsame,
          hlay, ?_⟩
        rw [hrec, records_congr (noteProbe_slots ..) (noteProbe_capacity ..)]
        exact records_set_full hcarry.slot_lt hfull hc
      · have hcap : (t.noteProbe (d + 1)).capacity = t.capacity := noteProbe_capacity ..
        obtain ⟨t', hrun, hsame, hlay, hrec⟩ := ih (hL.noteProbe (d + 1))
          (by
            rw [hcap, home_congr hcap, noteProbe_slots]
            exact hcarry.pass hL.ordered hhole hL.sized.home_lt hfull (not_lt.mp hlt)) hc
          (by rw [noteProbe_maxProbe]; exact le_max_right _ _)
          (by rw [hcap, noteProbe_slots]; exact hempty) (Nat.lt_of_succ_lt_succ hfuel)
        refine ⟨t', hrun, (SameBut.noteProbe t _).trans hsame, hlay, ?_⟩
        rw [hrec, records_congr (noteProbe_slots ..) (noteProbe_capacity ..)]

/-- The loop of `place` ends, with the record added. -/
theorem Layout.placeLoop {t : ChunkTable} (hL : Layout t)
    (hroom : t.records.card < t.capacity) {c : Chunk} (hc : c.full = true) :
    ∃ t', ChunkTable.placeLoop t.capacity t c (t.idealSlot c.key) 0 = some t' ∧
      Placed t c t' := by
  have hhome := hL.sized.home_lt c
  obtain ⟨e, he, hempty⟩ := (hole_of_card_lt hroom).ahead hhome
  exact placeLoop_spec hL (Carry.start hhome) hc (Nat.zero_le _) hempty he

theorem Layout.place {t : ChunkTable} (hL : Layout t) (hroom : t.records.card < t.capacity)
    {c : Chunk} (hc : c.full = true) : Placed t c (t.place c) := by
  obtain ⟨t', hrun, hplaced⟩ := hL.placeLoop hroom hc
  rw [ChunkTable.place, hrun, Option.getD_some]
  exact hplaced

/-! ## Growing -/

/-- After `j` old slots the new table holds just their records, whatever the old
slots were like. -/
theorem rehashed_layout {t : ChunkTable} (hcard : t.records.card < t.capacity) {capacity : Nat}
    (hsized : ∃ k, 4 ≤ k ∧ capacity = 2 ^ k) (hcap : t.capacity < capacity) {j : Nat}
    (hj : j ≤ t.capacity) :
    SameBut (t.emptied capacity) (t.rehashed capacity j) ∧ Layout (t.rehashed capacity j) ∧
      (t.rehashed capacity j).records = contents j Chunk.full t.slots := by
  induction j with
  | zero =>
      refine ⟨SameBut.refl _, layout_of_empty hsized fun _ _ => rfl, ?_⟩
      exact records_of_empty fun _ _ => rfl
  | succ j ih =>
      obtain ⟨hsame, hL, hrec⟩ := ih (by omega)
      have hstep : t.rehashed capacity (j + 1) =
          (t.rehashed capacity j).replace (t.slots j) := by
        simp only [rehashed, List.range_succ, List.foldl_append, List.foldl_cons,
          List.foldl_nil]
      rw [hstep, contents_succ, replace]
      by_cases hstate : (t.slots j).state = .empty
      · rw [if_pos hstate, full_eq_false.mpr hstate, if_neg (by decide), zero_add]
        exact ⟨hsame, hL, hrec⟩
      · have hfull := full_iff.mpr hstate
        have hroom : (t.rehashed capacity j).records.card <
            (t.rehashed capacity j).capacity := by
          calc (t.rehashed capacity j).records.card
              = (contents j Chunk.full t.slots).card := by rw [hrec]
            _ ≤ t.records.card := Multiset.card_le_card (contents_mono (by omega))
            _ < t.capacity := hcard
            _ < capacity := hcap
            _ = (t.rehashed capacity j).capacity := hsame.capacity.symm
        have hplaced := hL.place hroom hfull
        rw [if_neg hstate, if_pos hfull, Multiset.singleton_add]
        exact ⟨hsame.trans hplaced.same, hplaced.layout, by rw [hplaced.records, hrec]⟩

theorem rehashed_spec {t : ChunkTable} (hI : TableInv t) {capacity : Nat}
    (hsized : ∃ k, 4 ≤ k ∧ capacity = 2 ^ k) (hcap : t.capacity < capacity) {j : Nat}
    (hj : j ≤ t.capacity) :
    SameBut (t.emptied capacity) (t.rehashed capacity j) ∧ Layout (t.rehashed capacity j) ∧
      (t.rehashed capacity j).records = contents j Chunk.full t.slots :=
  rehashed_layout hI.card_lt hsized hcap hj

/-- The bounded-memory policy of the two tables is in the same state. -/
structure SamePolicy (t t' : ChunkTable) : Prop where
  maxEntries : t'.maxEntries = t.maxEntries
  freedFifo : t'.freedFifo = t.freedFifo
  freedHead : t'.freedHead = t.freedHead
  freedTail : t'.freedTail = t.freedTail

theorem SamePolicy.refl (t : ChunkTable) : SamePolicy t t := ⟨rfl, rfl, rfl, rfl⟩

theorem SamePolicy.trans {t t' t'' : ChunkTable} (h : SamePolicy t t') (h' : SamePolicy t' t'') :
    SamePolicy t t'' :=
  ⟨h'.1.trans h.1, h'.2.trans h.2, h'.3.trans h.3, h'.4.trans h.4⟩

theorem SameBut.policy {t t' : ChunkTable} (h : SameBut t t') : SamePolicy t t' := by
  unfold SameBut at h
  rw [h]
  exact ⟨rfl, rfl, rfl, rfl⟩

/-- What `grow_to` leaves behind: the same records under a larger mask. -/
structure Grown (t t' : ChunkTable) : Prop where
  inv : TableInv t'
  records : t'.records = t.records
  size : t'.size = t.size
  policy : SamePolicy t t'

theorem Grown.refl {t : ChunkTable} (hI : TableInv t) : Grown t t :=
  ⟨hI, rfl, rfl, SamePolicy.refl t⟩

theorem TableInv.growTo {t : ChunkTable} (hI : TableInv t) (newCapacity : Nat) :
    Grown t (t.growTo newCapacity).1 ∧ (t.growTo newCapacity).2 = true ∧
      newCapacity ≤ (t.growTo newCapacity).1.capacity := by
  unfold ChunkTable.growTo
  split_ifs with hle
  · exact ⟨Grown.refl hI, rfl, (le_roundCapacity newCapacity).trans hle⟩
  · obtain ⟨hsame, hL, hrec⟩ :=
      rehashed_spec hI (roundCapacity_eq newCapacity) (not_le.mp hle) le_rfl
    have hcap := hsame.capacity
    have hrec' : (t.rehashed (roundCapacity newCapacity) t.capacity).records = t.records := hrec
    refine ⟨⟨⟨⟨hL.sized, hL.ordered, hL.probed, hL.zeroed⟩, ?_, ?_, ?_, ?_⟩, hrec, hsame.size,
      ⟨hsame.policy.1, hsame.policy.2, hsame.policy.3, hsame.policy.4⟩⟩, rfl, ?_⟩
    · exact (congrArg (fun m => (m.map Chunk.key).Nodup) hrec').mpr hI.nodup
    · intro c hc
      exact hI.key_ne c (hrec' ▸ hc)
    · exact hsame.size.trans (hI.size_eq.trans (congrArg Multiset.card hrec'.symm))
    · calc (t.rehashed (roundCapacity newCapacity) t.capacity).size * kLoadDenominator
          = t.size * kLoadDenominator := congrArg (· * kLoadDenominator) hsame.size
        _ ≤ t.capacity * kLoadNumerator := hI.load
        _ ≤ roundCapacity newCapacity * kLoadNumerator :=
            Nat.mul_le_mul_right _ (not_le.mp hle).le
        _ = _ := congrArg (· * kLoadNumerator) hcap.symm
    · exact (le_roundCapacity newCapacity).trans hcap.ge

/-! ## Removing -/

/-- What the backward shift from slot `i` leaves behind. -/
structure Shifted (t : ChunkTable) (i : Nat) (t' : ChunkTable) : Prop where
  same : SameBut t t'
  layout : Layout t'
  records : t.slots i ::ₘ t'.records = t.records

/-- The run ends after slot `i`. -/
theorem Layout.vacate {t : ChunkTable} (hL : Layout t) {i : Nat} (hi : i < t.capacity)
    (hfull : (t.slots i).full = true)
    (hnext : (t.slots (next t.capacity i)).full = true →
      disp t.capacity t.home t.slots (next t.capacity i) = 0) :
    Shifted t i (t.set i kEmptySlot) where
  same := SameBut.set t i kEmptySlot
  layout := hL.set (hL.ordered.vacate hL.sized.one_lt rfl hnext) (fun h => by cases h)
    fun _ => rfl
  records := records_set_vacated hi hfull

theorem eraseLoop_spec {e : Nat} : ∀ {fuel : Nat} {t : ChunkTable} {i : Nat}, Layout t →
    i < t.capacity → (t.slots i).full = true →
    (t.slots (walk t.capacity (next t.capacity i) e)).full = false → e < fuel →
    ∃ t', eraseLoop fuel t i = some t' ∧ Shifted t i t' := by
  induction e with
  | zero =>
      intro fuel t i hL hi hfull hempty hfuel
      obtain ⟨fuel, rfl⟩ := Nat.exists_eq_succ_of_ne_zero (Nat.ne_of_gt hfuel)
      rw [walk_zero (next_lt hi)] at hempty
      simp only [eraseLoop, hL.sized.next, if_pos (full_eq_false.mp hempty)]
      exact ⟨_, rfl, hL.vacate hi hfull fun h => by rw [hempty] at h; cases h⟩
  | succ e ih =>
      intro fuel t i hL hi hfull hempty hfuel
      obtain ⟨fuel, rfl⟩ := Nat.exists_eq_succ_of_ne_zero (Nat.ne_zero_of_lt hfuel)
      simp only [eraseLoop, hL.sized.next, hL.sized.probeDistance]
      split_ifs with hstate hdisp
      · refine ⟨_, rfl, hL.vacate hi hfull fun h => ?_⟩
        rw [full_eq_false.mpr hstate] at h
        cases h
      · exact ⟨_, rfl, hL.vacate hi hfull fun _ => hdisp⟩
      · have hj := next_lt hi
        have hfj := full_iff.mpr hstate
        have hpos := Nat.pos_of_ne_zero hdisp
        have hL' : Layout (t.set i (t.slots (next t.capacity i))) := by
          refine hL.set (hL.ordered.pull hL.sized.one_lt hL.sized.home_lt hi hfj hpos)
            ?_ ?_
          · intro _
            have hback := dist_of_next_pos (hL.sized.home_lt _) hi hpos
            have hmax := hL.probed _ hj hfj
            unfold disp at hmax
            omega
          · intro h
            rw [hfj] at h
            cases h
        rw [← next_walk] at hempty
        have hne : walk t.capacity (next t.capacity (next t.capacity i)) e ≠ i := by
          intro h
          rw [h, hfull] at hempty
          cases hempty
        have hself : (t.set i (t.slots (next t.capacity i))).slots (next t.capacity i) =
            t.slots (next t.capacity i) :=
          set_slots_of_ne t _ (next_ne hL.sized.one_lt hi)
        obtain ⟨t', hrun, hsame, hlay, hrec⟩ := ih hL' hj (by rw [hself]; exact hfj)
          ((congrArg Chunk.full (set_slots_of_ne t _ hne)).trans hempty)
          (Nat.lt_of_succ_lt_succ hfuel)
        refine ⟨t', hrun, (SameBut.set t i _).trans hsame, hlay, ?_⟩
        -- the gap moved to the next slot, whose record is now in slot `i`
        rw [hself] at hrec
        have hset := records_set_full hi hfull hfj
        rw [← hrec, Multiset.cons_swap] at hset
        exact (Multiset.cons_inj_right _).mp hset

/-! ## What a record coming, going or changing does to the table -/

theorem TableInv.congr {t t' : ChunkTable} (hI : TableInv t) (hs : t'.slots = t.slots)
    (hc : t'.capacity = t.capacity) (hsize : t'.size = t.size)
    (hprobe : t'.stats.maxProbe = t.stats.maxProbe) : TableInv t' := by
  have hrec := records_congr hs hc
  refine ⟨⟨?_, ?_, ?_, ?_⟩, ?_, ?_, ?_, ?_⟩
  · unfold Sized; rw [hc]; exact hI.sized
  · rw [hc, home_congr hc, hs]; exact hI.ordered
  · rw [hc, home_congr hc, hs, hprobe]; exact hI.probed
  · rw [hc, hs]; exact hI.zeroed
  · rw [hrec]; exact hI.nodup
  · rw [hrec]; exact hI.key_ne
  · rw [hrec, hsize]; exact hI.size_eq
  · rw [hc, hsize]; exact hI.load

/-- A record with a new key comes in. -/
theorem TableInv.add {t t' : ChunkTable} (hI : TableInv t) {c : Chunk} (hL : Layout t')
    (hrec : t'.records = c ::ₘ t.records) (hcap : t'.capacity = t.capacity)
    (hsize : t'.size = t.size + 1)
    (hload : (t.size + 1) * kLoadDenominator ≤ t.capacity * kLoadNumerator)
    (hkey : c.key ≠ 0) (hnew : ∀ d ∈ t.records, d.key ≠ c.key) : TableInv t' := by
  refine ⟨hL, ?_, ?_, ?_, ?_⟩
  · rw [hrec, Multiset.map_cons, Multiset.nodup_cons]
    refine ⟨fun h => ?_, hI.nodup⟩
    obtain ⟨d, hd, hdk⟩ := Multiset.mem_map.mp h
    exact hnew d hd hdk
  · intro d hd
    rw [hrec, Multiset.mem_cons] at hd
    rcases hd with rfl | hd
    · exact hkey
    · exact hI.key_ne d hd
  · rw [hrec, Multiset.card_cons, hsize, hI.size_eq]
  · rw [hcap, hsize]; exact hload

/-- A record goes. -/
theorem TableInv.remove {t t' : ChunkTable} (hI : TableInv t) {c : Chunk} (hL : Layout t')
    (hrec : c ::ₘ t'.records = t.records) (hcap : t'.capacity = t.capacity)
    (hsize : t'.size = t.size - 1) : TableInv t' := by
  have hle : t'.records ≤ t.records := hrec ▸ Multiset.le_cons_self _ c
  refine ⟨hL, ?_, ?_, ?_, ?_⟩
  · exact Multiset.nodup_of_le (Multiset.map_le_map hle) hI.nodup
  · exact fun d hd => hI.key_ne d (Multiset.mem_of_le hle hd)
  · rw [hsize, hI.size_eq, ← hrec, Multiset.card_cons, Nat.add_sub_cancel]
  · rw [hcap, hsize]
    exact (Nat.mul_le_mul_right _ (Nat.sub_le _ _)).trans hI.load

/-- A record is rewritten under its key. -/
theorem TableInv.rewrite {t : ChunkTable} (hI : TableInv t) {i : Nat} {c : Chunk}
    (hi : i < t.capacity) (hfull : (t.slots i).full = true) (hc : c.full = true)
    (hkey : c.key = (t.slots i).key) :
    TableInv (t.set i c) ∧ t.slots i ::ₘ (t.set i c).records = c ::ₘ t.records := by
  have hrec := records_set_full hi hfull hc
  have hhome : t.home c = t.home (t.slots i) := congrArg t.idealSlot hkey
  have hkeys : (t.set i c).records.map Chunk.key = t.records.map Chunk.key := by
    have h := congrArg (Multiset.map Chunk.key) hrec
    rw [Multiset.map_cons, Multiset.map_cons, hkey] at h
    exact (Multiset.cons_inj_right _).mp h
  refine ⟨⟨hI.toLayout.set ?_ ?_ ?_, ?_, ?_, ?_, hI.load⟩, hrec⟩
  · refine hI.ordered.update hI.sized.one_lt ?_ fun hf hd => ⟨hc, ?_⟩
    · intro p hp hps _ hd
      subst hps
      rw [hhome] at hd ⊢
      exact hI.ordered p hp hfull hd
    · rw [hhome]
      exact (hI.ordered i hi hf hd).2
  · intro _
    rw [hhome]
    exact hI.probed i hi hfull
  · intro h
    rw [hc] at h
    cases h
  · rw [hkeys]; exact hI.nodup
  · intro d hd
    have hmem : d.key ∈ t.records.map Chunk.key := hkeys ▸ Multiset.mem_map_of_mem _ hd
    obtain ⟨d', hd', hk⟩ := Multiset.mem_map.mp hmem
    exact hk ▸ hI.key_ne d' hd'
  · have h := congrArg Multiset.card hkeys
    rw [Multiset.card_map, Multiset.card_map] at h
    rw [h]
    exact hI.size_eq

/-! ## The operations -/

/-- The record under `key` was rewritten by `f`, and nothing else. -/
def Rewritten (t : ChunkTable) (key : Nat) (f : Chunk → Chunk) (t' : ChunkTable) : Prop :=
  ∃ c ∈ t.records, c.key = key ∧ c ::ₘ t'.records = f c ::ₘ t.records

theorem TableInv.eraseLoop {t : ChunkTable} (hI : TableInv t) {i : Nat} (hi : i < t.capacity)
    (hfull : (t.slots i).full = true) :
    ∃ t', ChunkTable.eraseLoop t.capacity t i = some t' ∧ Shifted t i t' := by
  obtain ⟨e, he, hempty⟩ := hI.hole.ahead (next_lt hi)
  exact eraseLoop_spec hI.toLayout hi hfull hempty he

theorem TableInv.erase {t : ChunkTable} (hI : TableInv t) (key : Nat) :
    ((∀ c ∈ t.records, c.key ≠ key) ∧ t.erase key = (t, false)) ∨
    (∃ c, c.key = key ∧ c ::ₘ (t.erase key).1.records = t.records ∧ (t.erase key).2 = true ∧
      TableInv (t.erase key).1 ∧ SamePolicy t (t.erase key).1) := by
  rcases hI.find_cases key with ⟨i, hi, hfull, hkey, hfind⟩ | ⟨hno, hfind⟩
  · right
    obtain ⟨t', hrun, hsame, hL, hrec⟩ := hI.eraseLoop hi hfull
    have herase : t.erase key = ({ t' with
        size := t'.size - 1
        stats := { t'.stats with erases := t'.stats.erases + 1 } }, true) := by
      simp only [ChunkTable.erase, hfind, hrun, Option.getD_some]
    rw [herase]
    refine ⟨t.slots i, hkey, hrec, rfl, ?_, ?_⟩
    · exact hI.remove (c := t.slots i) ⟨hL.sized, hL.ordered, hL.probed, hL.zeroed⟩ hrec
        hsame.capacity (congrArg (· - 1) hsame.size)
    · exact ⟨hsame.policy.1, hsame.policy.2, hsame.policy.3, hsame.policy.4⟩
  · left
    exact ⟨hno, by simp only [ChunkTable.erase, hfind]⟩

theorem TableInv.growForOne {t : ChunkTable} (hI : TableInv t) :
    ∃ u, t.growForOne = (u, true) ∧ Grown t u ∧
      (u.size + 1) * kLoadDenominator ≤ u.capacity * kLoadNumerator := by
  unfold ChunkTable.growForOne
  split_ifs with hfit
  · obtain ⟨hg, htrue, hcap⟩ := hI.growTo (t.capacity * 2)
    refine ⟨_, Prod.ext rfl htrue, hg, ?_⟩
    have hdouble : (t.size + 1) * kLoadDenominator ≤ t.capacity * 2 * kLoadNumerator := by
      have hload := hI.load
      obtain ⟨k, hk, hpow⟩ := hI.sized
      have h16 : 2 ^ 4 ≤ 2 ^ k := Nat.pow_le_pow_right (by decide) hk
      unfold kLoadDenominator kLoadNumerator at *
      omega
    rw [hg.size]
    exact hdouble.trans (Nat.mul_le_mul_right _ hcap)
  · exact ⟨t, rfl, Grown.refl hI, not_lt.mp hfit⟩

theorem Grown.addNew {t u : ChunkTable} (hg : Grown t u)
    (hload : (u.size + 1) * kLoadDenominator ≤ u.capacity * kLoadNumerator) (c : Chunk)
    (hc : c.full = true) (hkey : c.key ≠ 0) (hno : ∀ d ∈ t.records, d.key ≠ c.key) :
    TableInv (u.addNew c) ∧ SamePolicy t (u.addNew c) ∧
      (u.addNew c).records = c ::ₘ t.records := by
  have hplaced := hg.inv.toLayout.place hg.inv.card_lt hc
  have hL := hplaced.layout
  have hp := hplaced.same.policy
  refine ⟨?_, hg.policy.trans ⟨hp.1, hp.2, hp.3, hp.4⟩,
    hplaced.records.trans (congrArg _ hg.records)⟩
  exact hg.inv.add (c := c) ⟨hL.sized, hL.ordered, hL.probed, hL.zeroed⟩ hplaced.records
    hplaced.same.capacity (congrArg (· + 1) hplaced.same.size) hload hkey (hg.records ▸ hno)

section InsertPaths

variable {t : ChunkTable} {key size usable allocMs tid : Nat}

/-- An address that has a record gets its record rewritten. -/
theorem insertLive_eq_reuse (hkey : key ≠ 0) {i : Nat} (hfind : t.find key = some i) :
    t.insertLive key size usable allocMs tid =
      ({ t.set i ((t.slots i).reuse size usable allocMs tid) with
        stats := { t.stats with updates := t.stats.updates + 1 } }, true) := by
  simp only [ChunkTable.insertLive, if_neg hkey, hfind]
  rfl

/-- With room made, the new record is placed. -/
theorem insertLive_eq_addNew (hkey : key ≠ 0) (hfind : t.find key = none) {u v : ChunkTable}
    (hroom : t.roomForOne = (u, true)) (hgrow : u.growForOne = (v, true)) :
    t.insertLive key size usable allocMs tid =
      (v.addNew (Chunk.fresh key size usable allocMs tid), true) := by
  simp only [ChunkTable.insertLive, if_neg hkey, hfind, hroom, hgrow]

end InsertPaths

/-- `insert_live` without a bound: a recycled address is overwritten, a new
one placed. -/
theorem TableInv.insertLive {t : ChunkTable} (hI : TableInv t) (hmax : t.maxEntries = 0)
    {key : Nat} (hkey : key ≠ 0) (size usable allocMs tid : Nat) :
    TableInv (t.insertLive key size usable allocMs tid).1 ∧
    (t.insertLive key size usable allocMs tid).2 = true ∧
    SamePolicy t (t.insertLive key size usable allocMs tid).1 ∧
    (Rewritten t key (fun c => c.reuse size usable allocMs tid)
        (t.insertLive key size usable allocMs tid).1 ∨
      ((∀ c ∈ t.records, c.key ≠ key) ∧
        (t.insertLive key size usable allocMs tid).1.records =
          Chunk.fresh key size usable allocMs tid ::ₘ t.records)) := by
  rcases hI.find_cases key with ⟨i, hi, hfull, hk, hfind⟩ | ⟨hno, hfind⟩
  · obtain ⟨hinv, hrec⟩ := hI.rewrite (c := (t.slots i).reuse size usable allocMs tid) hi hfull
      rfl rfl
    rw [insertLive_eq_reuse hkey hfind]
    refine ⟨hinv.congr rfl rfl rfl rfl, rfl, ⟨rfl, rfl, rfl, rfl⟩, .inl ?_⟩
    exact ⟨t.slots i, mem_contents_of_full hi hfull, hk, hrec⟩
  · obtain ⟨u, hgrow, hg, hload⟩ := hI.growForOne
    obtain ⟨hinv, hpolicy, hrec⟩ := hg.addNew hload (Chunk.fresh key size usable allocMs tid) rfl
      hkey hno
    have hroom : t.roomForOne = (t, true) := by simp [ChunkTable.roomForOne, hmax]
    rw [insertLive_eq_addNew hkey hfind hroom hgrow]
    exact ⟨hinv, rfl, hpolicy, .inr ⟨hno, hrec⟩⟩

theorem pushFreed_eq (t : ChunkTable) (key : Nat) :
    (t.pushFreed key).slots = t.slots ∧ (t.pushFreed key).capacity = t.capacity ∧
      (t.pushFreed key).size = t.size ∧ (t.pushFreed key).stats = t.stats ∧
      (t.pushFreed key).maxEntries = t.maxEntries := by
  unfold pushFreed
  split_ifs
  · exact ⟨rfl, rfl, rfl, rfl, rfl⟩
  · exact ⟨rfl, rfl, rfl, rfl, rfl⟩

theorem TableInv.markFreed {t : ChunkTable} (hI : TableInv t) (key freeMs : Nat) :
    ((∀ c ∈ t.records, c.key ≠ key) ∧ t.markFreed key freeMs = (t, false)) ∨
    (Rewritten t key (fun c => { c with state := .freed, freeMs := freeMs })
        (t.markFreed key freeMs).1 ∧
      (t.markFreed key freeMs).2 = true ∧ TableInv (t.markFreed key freeMs).1 ∧
      (t.markFreed key freeMs).1.maxEntries = t.maxEntries) := by
  unfold ChunkTable.markFreed
  rcases hI.find_cases key with ⟨i, hi, hfull, hk, hfind⟩ | ⟨hno, hfind⟩
  · right
    obtain ⟨hinv, hrec⟩ := hI.rewrite
      (c := { t.slots i with state := .freed, freeMs := freeMs }) hi hfull rfl rfl
    obtain ⟨hs, hc, hsize, hstats, hmax⟩ := pushFreed_eq
      (t.set i { t.slots i with state := .freed, freeMs := freeMs }) key
    rw [hfind]
    refine ⟨⟨t.slots i, mem_contents_of_full hi hfull, hk, ?_⟩, rfl,
      hinv.congr hs hc hsize (congrArg ChunkTableStats.maxProbe hstats), hmax⟩
    rw [records_congr hs hc]
    exact hrec
  · left
    rw [hfind]
    exact ⟨hno, rfl⟩

theorem TableInv.markRefined {t : ChunkTable} (hI : TableInv t)
    (key exactOverhead headerFlags : Nat) :
    ((2 ^ 16 - 1 < exactOverhead ∨ ∀ c ∈ t.records, c.key ≠ key) ∧
      t.markRefined key exactOverhead headerFlags = (t, false)) ∨
    (exactOverhead ≤ 2 ^ 16 - 1 ∧
      Rewritten t key (fun c => c.refine exactOverhead headerFlags)
        (t.markRefined key exactOverhead headerFlags).1 ∧
      (t.markRefined key exactOverhead headerFlags).2 = true ∧
      TableInv (t.markRefined key exactOverhead headerFlags).1 ∧
      SamePolicy t (t.markRefined key exactOverhead headerFlags).1) := by
  unfold ChunkTable.markRefined
  split_ifs with hbig
  · exact .inl ⟨.inl hbig, rfl⟩
  · rcases hI.find_cases key with ⟨i, hi, hfull, hk, hfind⟩ | ⟨hno, hfind⟩
    · obtain ⟨hinv, hrec⟩ := hI.rewrite (c := (t.slots i).refine exactOverhead headerFlags) hi
        hfull hfull rfl
      rw [hfind]
      exact .inr ⟨not_lt.mp hbig, ⟨t.slots i, mem_contents_of_full hi hfull, hk, hrec⟩, rfl, hinv,
        ⟨rfl, rfl, rfl, rfl⟩⟩
    · rw [hfind]
      exact .inl ⟨.inr hno, rfl⟩

theorem records_clearRefined (t : ChunkTable) :
    t.clearRefined.records = t.records.map Chunk.unrefine :=
  contents_map (f := Chunk.unrefine) fun _ => rfl

theorem TableInv.clearRefined {t : ChunkTable} (hI : TableInv t) : TableInv t.clearRefined := by
  have hkeys : t.clearRefined.records.map Chunk.key = t.records.map Chunk.key := by
    rw [records_clearRefined, Multiset.map_map]
    rfl
  refine ⟨⟨hI.sized, ?_, ?_, ?_⟩, ?_, ?_, ?_, hI.load⟩
  · exact hI.ordered.map (f := Chunk.unrefine) (fun _ => rfl) fun _ => rfl
  · exact fun i hi hf => hI.probed i hi hf
  · intro i hi hf
    have : t.slots i = kEmptySlot := hI.zeroed i hi hf
    simp only [ChunkTable.clearRefined, this]
    rfl
  · rw [hkeys]; exact hI.nodup
  · intro c hc
    rw [records_clearRefined] at hc
    obtain ⟨d, hd, rfl⟩ := Multiset.mem_map.mp hc
    exact hI.key_ne d hd
  · rw [records_clearRefined, Multiset.card_map]
    exact hI.size_eq

theorem records_clear (t : ChunkTable) : t.clear.records = 0 :=
  records_of_empty fun _ _ => rfl

theorem TableInv.clear {t : ChunkTable} (hI : TableInv t) : TableInv t.clear := by
  refine ⟨layout_of_empty hI.sized fun _ _ => rfl, ?_, ?_, ?_, ?_⟩
  · rw [records_clear]; exact Multiset.nodup_zero
  · rw [records_clear]; exact fun c hc => absurd hc (Multiset.notMem_zero c)
  · rw [records_clear]; rfl
  · exact (Nat.zero_mul _).le.trans (Nat.zero_le _)

theorem TableInv.reserve {t : ChunkTable} (hI : TableInv t) (entries : Nat) :
    Grown t (t.reserve entries).1 ∧ (t.reserve entries).2 = true := by
  unfold ChunkTable.reserve
  dsimp only
  split_ifs
  · exact ⟨Grown.refl hI, rfl⟩
  · obtain ⟨hg, htrue, -⟩ := hI.growTo
      (roundCapacity (entries * kLoadDenominator / kLoadNumerator + 1))
    exact ⟨hg, htrue⟩

end Heapviz
