import Heapviz.ChunkCap

/-!
# Oldest freed first?

"The oldest freed records are evicted first", says the policy. Eviction knows
their age only through the queue of hints, and a hint is a key: it does not
say which free of that key it was pushed for. `HintsInOrder` is what has to be
true of the queue for the policy to hold: of two freed records the one hinted
first was not freed later, where a record counts from its first hint and one
without a hint counts last.

Refilling puts the queue in order (`hintsInOrder_refilled`) and every eviction
keeps it so (`HintsInOrder.evict`), as does everything that only takes freed
records away (`HintsInOrder.mono`). `mark_freed` is the one call that can break
it, and with the clock running forward there are three ways, each to be seen in
the table it is called on: its key was freed before and has an old hint ahead of
a record freed since; a record freed before it has no hint, the last refill or an
overrun having left it out; or the ring is full and a record that loses its hint
has its next one behind a newer record. `FreesInTurn` excludes them and nothing
else (`CapInv.markFreed_inOrder_iff`). So `evicts_oldest_first` is the policy for
every sequence of calls with the clock running forward whose frees are in turn,
and `refreed_evicts_newer` is what a key freed twice does to it.
-/

namespace Heapviz

open RobinHood ChunkTable

/-- Of two freed records the one hinted first was not freed later. -/
def HintsInOrder (hints : List Nat) (records : Multiset Chunk) : Prop :=
  ∀ c ∈ records, ∀ d ∈ records, c.state = .freed → d.state = .freed →
    hints.idxOf c.key < hints.idxOf d.key → c.freeMs ≤ d.freeMs

instance (hints : List Nat) (records : Multiset Chunk) : Decidable (HintsInOrder hints records) :=
  inferInstanceAs (Decidable (∀ c ∈ records, ∀ d ∈ records, _))

/-- The hints of a table in order. -/
def ChunkTable.InOrder (t : ChunkTable) : Prop := HintsInOrder t.hints t.records

/-- The table `make_room` is called on, round by round, while a cap is lowered. -/
def shrinkCalls : Nat → ChunkTable → List ChunkTable
  | 0, _ => []
  | fuel + 1, t =>
      if t.size > t.maxEntries then
        t :: if t.makeRoom.2 then shrinkCalls fuel t.makeRoom.1 else []
      else []

/-- The tables a call makes `make_room` evict from, in order. -/
def ChunkTable.makeRoomCalls (t : ChunkTable) : CapOp → List ChunkTable
  | .call (.insertLive key _ _ _ _) =>
      if key ≠ 0 ∧ t.find key = none ∧ t.maxEntries ≠ 0 ∧ t.size ≥ t.maxEntries then [t] else []
  | .setMaxEntries n => if n = 0 then [] else shrinkCalls (t.recapped n).size (t.recapped n)
  | _ => []

/-- Whatever the call evicts is a freed record, and at that moment no freed
record of the table has an earlier free time. -/
def ChunkTable.EvictsOldest (t : ChunkTable) (op : CapOp) : Prop :=
  ∀ u ∈ t.makeRoomCalls op, u.makeRoom.2 = true →
    ∃ c, c.state = .freed ∧ c ::ₘ u.makeRoom.1.records = u.records ∧ u.OldestFreed c

/-- The hints that stay when one more is pushed. -/
def keptHints (cap : Nat) (q : List Nat) : List Nat := if q.length < cap then q else q.tail

/-- The hint that is overwritten when one more is pushed. -/
def lostHint (cap : Nat) (q : List Nat) : Option Nat := if q.length < cap then none else q.head?

/-- Every other record freed before `freeMs` has a hint, ahead of any `key` has
left from an earlier free. -/
def HintedAhead (q : List Nat) (records : Multiset Chunk) (key freeMs : Nat) : Prop :=
  ∀ d ∈ records, d.state = .freed → d.key ≠ key → d.freeMs < freeMs → q.idxOf d.key < q.idxOf key

/-- A record that loses its hint has another, ahead of every record freed later. -/
def LossHarmless (q : List Nat) (lost : Option Nat) (records : Multiset Chunk) (key : Nat) : Prop :=
  ∀ c ∈ records, ∀ d ∈ records, c.state = .freed → d.state = .freed → c.key ≠ key → d.key ≠ key →
    lost = some c.key → c.freeMs < d.freeMs → q.idxOf c.key ≤ q.idxOf d.key

/-- A `mark_freed` under a cap meets a queue in which its hint comes in turn. -/
def ChunkTable.FreesInTurn (t : ChunkTable) : CapOp → Prop
  | .call (.markFreed key freeMs) =>
      t.maxEntries ≠ 0 → (t.find key).isSome →
        HintedAhead (keptHints t.maxEntries t.hints) t.records key freeMs ∧
          LossHarmless (keptHints t.maxEntries t.hints) (lostHint t.maxEntries t.hints) t.records
            key
  | _ => True

instance (q : List Nat) (records : Multiset Chunk) (key freeMs : Nat) :
    Decidable (HintedAhead q records key freeMs) :=
  inferInstanceAs (Decidable (∀ d ∈ records, _))

instance (q : List Nat) (lost : Option Nat) (records : Multiset Chunk) (key : Nat) :
    Decidable (LossHarmless q lost records key) :=
  inferInstanceAs (Decidable (∀ c ∈ records, ∀ d ∈ records, _))

/-- The time a call gives a free. -/
def CapOp.freedAt : CapOp → Option Nat
  | .call (.markFreed _ freeMs) => some freeMs
  | _ => none

/-- The times of the frees in a sequence of calls. -/
def freeTimes (ops : List CapOp) : List Nat := ops.filterMap CapOp.freedAt

/-- Every freed record of `t'` was one of `t`, freed when it says. -/
def ChunkTable.FreedFrom (t t' : ChunkTable) : Prop :=
  ∀ d ∈ t'.records, d.state = .freed →
    ∃ c ∈ t.records, c.state = .freed ∧ c.key = d.key ∧ c.freeMs = d.freeMs

/-- No record was freed after `ms`. -/
def ChunkTable.FreedBy (t : ChunkTable) (ms : Nat) : Prop :=
  ∀ c ∈ t.records, c.state = .freed → c.freeMs ≤ ms

/-! ## What keeps the hints in order -/

section Order

variable {hints : List Nat} {records records' : Multiset Chunk}

/-- Freed records may go away. -/
theorem HintsInOrder.mono {t t' : ChunkTable} (h : HintsInOrder t.hints t.records)
    (hfrom : t.FreedFrom t') (hhints : t'.hints = t.hints) : HintsInOrder t'.hints t'.records := by
  intro c hc d hd hcf hdf hlt
  obtain ⟨c', hc', hcf', hckey, hcms⟩ := hfrom c hc hcf
  obtain ⟨d', hd', hdf', hdkey, hdms⟩ := hfrom d hd hdf
  rw [← hcms, ← hdms]
  refine h c' hc' d' hd' hcf' hdf' ?_
  rw [hckey, hdkey, ← hhints]
  exact hlt

theorem HintsInOrder.nil : HintsInOrder [] records := by
  intro c _ d _ _ _ hlt
  cases hlt

/-- The first hinted freed record goes, with the stale hints before it. -/
theorem HintsInOrder.evict {stale rest : List Nat} {key : Nat}
    (h : HintsInOrder (stale ++ key :: rest) records)
    (hstale : ∀ c ∈ records, c.state = .freed → c.key ∉ stale)
    (hsub : ∀ d ∈ records', d ∈ records ∧ d.key ≠ key) : HintsInOrder rest records' := by
  have hrank : ∀ d ∈ records', d.state = .freed →
      (stale ++ key :: rest).idxOf d.key = stale.length + (rest.idxOf d.key + 1) := by
    intro d hd hdf
    obtain ⟨hmem, hne⟩ := hsub d hd
    rw [List.idxOf_append_of_notMem (hstale d hmem hdf), List.idxOf_cons_ne _ hne.symm]
  intro c hc d hd hcf hdf hlt
  refine h c (hsub c hc).1 d (hsub d hd).1 hcf hdf ?_
  rw [hrank c hc hcf, hrank d hd hdf]
  omega

/-- In order, the first hinted freed record is an oldest one. -/
theorem HintsInOrder.oldest {stale rest : List Nat} {c : Chunk}
    (h : HintsInOrder (stale ++ c.key :: rest) records)
    (hstale : ∀ d ∈ records, d.state = .freed → d.key ∉ stale)
    (hunique : ∀ d ∈ records, d.key = c.key → d = c) (hc : c ∈ records)
    (hfreed : c.state = .freed) : ∀ d ∈ records, d.state = .freed → c.freeMs ≤ d.freeMs := by
  intro d hd hdf
  by_cases hkey : d.key = c.key
  · rw [hunique d hd hkey]
  · refine h c hc d hd hfreed hdf ?_
    rw [List.idxOf_append_of_notMem (hstale c hc hfreed), List.idxOf_cons_self,
      List.idxOf_append_of_notMem (hstale d hd hdf), List.idxOf_cons_ne _ (Ne.symm hkey)]
    omega

/-- The keys of a prefix of a sorted list rank as the list does, with the keys
left out last. -/
theorem le_of_idxOf_take {order : List (Nat × Nat)}
    (hsorted : order.Pairwise fun a b => a.1 ≤ b.1)
    (hunique : ∀ a ∈ order, ∀ b ∈ order, a.2 = b.2 → a = b) (n : Nat) {a b : Nat × Nat}
    (ha : a ∈ order) (hb : b ∈ order)
    (hlt : ((order.take n).map Prod.snd).idxOf a.2 < ((order.take n).map Prod.snd).idxOf b.2) :
    a.1 ≤ b.1 := by
  induction order generalizing n with
  | nil => cases ha
  | cons x order ih =>
      obtain ⟨hhead, htail⟩ := List.pairwise_cons.mp hsorted
      cases n with
      | zero => cases hlt
      | succ n =>
          rw [List.take_succ_cons, List.map_cons] at hlt
          by_cases hbx : b = x
          · rw [hbx, List.idxOf_cons_self] at hlt
            cases hlt
          · have hb' : b ∈ order := (List.mem_cons.mp hb).resolve_left hbx
            by_cases hax : a = x
            · rw [hax]
              exact hhead b hb'
            · have ha' : a ∈ order := (List.mem_cons.mp ha).resolve_left hax
              have hane : x.2 ≠ a.2 := fun h => hax (hunique x List.mem_cons_self a ha h).symm
              have hbne : x.2 ≠ b.2 := fun h => hbx (hunique x List.mem_cons_self b hb h).symm
              rw [List.idxOf_cons_ne _ hane, List.idxOf_cons_ne _ hbne] at hlt
              refine ih htail ?_ n ha' hb' (Nat.lt_of_succ_lt_succ hlt)
              exact fun c hc d hd => hunique c (List.mem_cons_of_mem _ hc) d
                (List.mem_cons_of_mem _ hd)

end Order

/-! ## One hint more -/

section Push

variable {q : List Nat} {cap key : Nat}

theorem pushed_eq (cap : Nat) (q : List Nat) (key : Nat) :
    pushed cap q key = keptHints cap q ++ [key] := by
  unfold pushed keptHints
  split <;> rfl

/-- The new hint of a key ranks with the first one it had, or last. -/
theorem idxOf_snoc_self (q : List Nat) (key : Nat) : (q ++ [key]).idxOf key = q.idxOf key := by
  by_cases hmem : key ∈ q
  · rw [List.idxOf_append, if_pos hmem]
  · rw [List.idxOf_append, if_neg hmem, List.idxOf_cons_self, List.idxOf_eq_length hmem,
      Nat.zero_add]

/-- Other keys rank as they did, those without a hint behind the new one. -/
theorem idxOf_snoc_of_ne (q : List Nat) {k : Nat} (hk : k ≠ key) :
    (q ++ [key]).idxOf k = if k ∈ q then q.idxOf k else q.length + 1 := by
  rw [List.idxOf_append]
  split
  · rfl
  · rw [List.idxOf_cons_ne _ hk.symm, List.idxOf_nil]
    omega

theorem idxOf_snoc_lt {c d : Nat} (hc : c ≠ key) (hd : d ≠ key) :
    (q ++ [key]).idxOf c < (q ++ [key]).idxOf d ↔ q.idxOf c < q.idxOf d := by
  rw [idxOf_snoc_of_ne q hc, idxOf_snoc_of_ne q hd]
  by_cases hcq : c ∈ q <;> by_cases hdq : d ∈ q
  · rw [if_pos hcq, if_pos hdq]
  · have := List.idxOf_lt_length_of_mem hcq
    rw [if_pos hcq, if_neg hdq, List.idxOf_eq_length hdq]
    omega
  · have := List.idxOf_lt_length_of_mem hdq
    rw [if_neg hcq, if_pos hdq, List.idxOf_eq_length hcq]
    omega
  · rw [if_neg hcq, if_neg hdq, List.idxOf_eq_length hcq, List.idxOf_eq_length hdq]
    omega

theorem idxOf_snoc_self_lt {d : Nat} (hd : d ≠ key) :
    (q ++ [key]).idxOf key < (q ++ [key]).idxOf d ↔ q.idxOf key ≤ q.idxOf d := by
  rw [idxOf_snoc_self, idxOf_snoc_of_ne q hd]
  by_cases hdq : d ∈ q
  · rw [if_pos hdq]
    refine ⟨Nat.le_of_lt, fun hle => lt_of_le_of_ne hle ?_⟩
    intro heq
    exact hd (List.idxOf_inj hdq |>.mp heq.symm)
  · have := @List.idxOf_le_length _ _ _ q key
    rw [if_neg hdq, List.idxOf_eq_length hdq]
    omega

/-- Keys that lose no hint rank as they did. -/
theorem idxOf_keptHints_lt {c d : Nat} (hc : lostHint cap q ≠ some c)
    (hd : lostHint cap q ≠ some d) :
    (keptHints cap q).idxOf c < (keptHints cap q).idxOf d ↔ q.idxOf c < q.idxOf d := by
  unfold keptHints
  unfold lostHint at hc hd
  by_cases hroom : q.length < cap
  · rw [if_pos hroom]
  · rw [if_neg hroom] at hc hd ⊢
    cases q with
    | nil => exact Iff.rfl
    | cons k q =>
        have hkc : k ≠ c := fun h => hc (congrArg some h)
        have hkd : k ≠ d := fun h => hd (congrArg some h)
        rw [List.tail_cons, List.idxOf_cons_ne _ hkc, List.idxOf_cons_ne _ hkd]
        omega

/-- A key that is to lose its hint ranks first. -/
theorem idxOf_lt_of_lostHint {c d : Nat} (hc : lostHint cap q = some c) (hne : c ≠ d) :
    q.idxOf c < q.idxOf d := by
  unfold lostHint at hc
  split at hc
  · cases hc
  · cases q with
    | nil => cases hc
    | cons k q =>
        cases hc
        rw [List.idxOf_cons_self, List.idxOf_cons_ne _ hne]
        exact Nat.succ_pos _

/-- The records once the one under `key` is marked freed. -/
def freeing (records : Multiset Chunk) (key freeMs : Nat) : Multiset Chunk :=
  records.map fun c => if c.key = key then { c with state := .freed, freeMs := freeMs } else c

variable {records : Multiset Chunk} {freeMs : Nat}

theorem mem_freeing {d : Chunk} : d ∈ freeing records key freeMs ↔
    (∃ c ∈ records, c.key = key ∧ d = { c with state := .freed, freeMs := freeMs }) ∨
      (d ∈ records ∧ d.key ≠ key) := by
  unfold freeing
  rw [Multiset.mem_map]
  constructor
  · rintro ⟨c, hc, rfl⟩
    by_cases hkey : c.key = key
    · rw [if_pos hkey]
      exact Or.inl ⟨c, hc, hkey, rfl⟩
    · rw [if_neg hkey]
      exact Or.inr ⟨hc, hkey⟩
  · rintro (⟨c, hc, hkey, rfl⟩ | ⟨hd, hkey⟩)
    · exact ⟨c, hc, if_pos hkey⟩
    · exact ⟨d, hd, if_neg hkey⟩

/-- With the clock running forward, a free leaves the hints in order exactly if
its own comes in turn and the one overwritten for it does no harm. -/
theorem HintsInOrder.freeing_iff (horder : HintsInOrder q records)
    (hlatest : ∀ c ∈ records, c.state = .freed → c.freeMs ≤ freeMs)
    (hkey : ∃ c ∈ records, c.key = key) :
    HintsInOrder (pushed cap q key) (freeing records key freeMs) ↔
      HintedAhead (keptHints cap q) records key freeMs ∧
        LossHarmless (keptHints cap q) (lostHint cap q) records key := by
  rw [pushed_eq]
  constructor
  · intro h
    refine ⟨?_, ?_⟩
    · intro d hd hdf hdk hlt
      by_contra hbehind
      obtain ⟨c, hc, hck⟩ := hkey
      have hle := h _ (mem_freeing.mpr (Or.inl ⟨c, hc, hck, rfl⟩)) d
        (mem_freeing.mpr (Or.inr ⟨hd, hdk⟩)) rfl hdf
        (by rw [hck]; exact (idxOf_snoc_self_lt hdk).mpr (not_lt.mp hbehind))
      exact absurd hle (not_le.mpr hlt)
    · intro c hc d hd hcf hdf hck hdk _ hlt
      by_contra hbehind
      have hle := h d (mem_freeing.mpr (Or.inr ⟨hd, hdk⟩)) c (mem_freeing.mpr (Or.inr ⟨hc, hck⟩))
        hdf hcf ((idxOf_snoc_lt hdk hck).mpr (not_le.mp hbehind))
      exact absurd hle (not_le.mpr hlt)
  · rintro ⟨hahead, hharmless⟩ c hc d hd hcf hdf hlt
    rcases mem_freeing.mp hc with ⟨c₀, hc₀, hck, rfl⟩ | ⟨hc', hck⟩
    · rcases mem_freeing.mp hd with ⟨d₀, hd₀, hdk, rfl⟩ | ⟨hd', hdk⟩
      · exact Nat.le_refl _
      · -- a record hinted behind the new one was not freed before it
        by_contra hlater
        have hfirst := hahead d hd' hdf hdk (not_le.mp hlater)
        rw [hck, idxOf_snoc_self_lt hdk] at hlt
        omega
    · rcases mem_freeing.mp hd with ⟨d₀, hd₀, hdk, rfl⟩ | ⟨hd', hdk⟩
      · exact hlatest c hc' hcf
      · rw [idxOf_snoc_lt hck hdk] at hlt
        by_cases hlostd : lostHint cap q = some d.key
        · by_contra hlater
          have hfirst := hharmless d hd' c hc' hdf hcf hdk hck hlostd (not_le.mp hlater)
          omega
        · refine horder c hc' d hd' hcf hdf ?_
          by_cases hlostc : lostHint cap q = some c.key
          · refine idxOf_lt_of_lostHint hlostc fun heq => ?_
            rw [heq] at hlt
            exact lt_irrefl _ hlt
          · exact (idxOf_keptHints_lt hlostc hlostd).mp hlt

end Push

section Table

variable {t t' : ChunkTable}

/-- A refilled queue is in order. -/
theorem hintsInOrder_refilled (hI : TableInv t) (n : Nat) :
    HintsInOrder ((t.freedInOrder.take n).map Prod.snd) t.records := by
  have hsorted : t.freedInOrder.Pairwise fun a b => a.1 ≤ b.1 := by
    refine (freedInOrder_sorted t).imp ?_
    intro a b hab
    simp only [olderOrEqual, Bool.or_eq_true, Bool.and_eq_true, decide_eq_true_eq,
      beq_iff_eq] at hab
    omega
  have hunique : ∀ a ∈ t.freedInOrder, ∀ b ∈ t.freedInOrder, a.2 = b.2 → a = b := by
    intro a ha b hb hkey
    obtain ⟨c, hc, -, hcms, hckey⟩ := mem_freedInOrder.mp ha
    obtain ⟨d, hd, -, hdms, hdkey⟩ := mem_freedInOrder.mp hb
    have hcd : c = d := hI.eq_of_key hc hd (by rw [hckey, hdkey, hkey])
    exact Prod.ext (by rw [← hcms, ← hdms, hcd]) hkey
  intro c hc d hd hcf hdf hlt
  have hcmem : (c.freeMs, c.key) ∈ t.freedInOrder := mem_freedInOrder.mpr ⟨c, hc, hcf, rfl, rfl⟩
  have hdmem : (d.freeMs, d.key) ∈ t.freedInOrder := mem_freedInOrder.mpr ⟨d, hd, hdf, rfl, rfl⟩
  exact le_of_idxOf_take hsorted hunique n hcmem hdmem hlt

/-! ## Evictions -/

/-- What is left has another key than what went. -/
theorem ChunkTable.Evicted.mem {c : Chunk} (h : Evicted t c t') (hI : TableInv t) {d : Chunk}
    (hd : d ∈ t'.records) : d ∈ t.records ∧ d.key ≠ c.key := by
  have hmem : d ∈ t.records := h.records ▸ Multiset.mem_cons_of_mem hd
  refine ⟨hmem, ?_⟩
  have hnodup := hI.nodup
  rw [← h.records, Multiset.map_cons, Multiset.nodup_cons] at hnodup
  intro hkey
  exact hnodup.1 (hkey ▸ Multiset.mem_map_of_mem _ hd)

/-- With the hints in order `make_room` evicts an oldest record and leaves them
in order. -/
theorem ChunkTable.Chosen.oldest {c : Chunk} (hchosen : t.Chosen c t') (hevict : Evicted t c t')
    (hI : TableInv t) (h : HintsInOrder t.hints t.records) :
    t.OldestFreed c ∧ HintsInOrder t'.hints t'.records := by
  have hc : c ∈ t.records := hevict.records ▸ Multiset.mem_cons_self c _
  have hsub : ∀ d ∈ t'.records, d ∈ t.records ∧ d.key ≠ c.key := fun d hd => hevict.mem hI hd
  rcases hchosen with ⟨stale, rest, hhints, hstale, rfl⟩ | ⟨-, hold, hhints⟩
  · have hnot : ∀ d ∈ t.records, d.state = .freed → d.key ∉ stale :=
      fun d hd hdf hmem => hstale d.key hmem ⟨d, hd, rfl, hdf⟩
    rw [hhints] at h
    exact ⟨h.oldest hnot (fun d hd hkey => hI.eq_of_key hd hc hkey) hc hevict.freed,
      h.evict hnot hsub⟩
  · have hfill := hintsInOrder_refilled hI t.maxEntries
    rw [hhints] at hfill
    refine ⟨hold, @HintsInOrder.evict t.records t'.records [] t'.hints c.key hfill ?_ hsub⟩
    exact fun d _ _ => List.not_mem_nil

/-- One call of `make_room` on a table whose hints are in order. -/
theorem CapInv.makeRoom_oldest (h : CapInv t) (hmax : t.maxEntries ≠ 0) (horder : t.InOrder) :
    (t.makeRoom.2 = true →
        ∃ c, c.state = .freed ∧ c ::ₘ t.makeRoom.1.records = t.records ∧ t.OldestFreed c) ∧
      t.makeRoom.1.InOrder := by
  rcases makeRoom_spec h.toTableInv h.queued hmax with
    ⟨c, -, hevict, hchosen⟩ | ⟨hfalse, -, -, hhints, -⟩
  · obtain ⟨hold, hleft⟩ := hchosen.oldest hevict h.toTableInv horder
    exact ⟨fun _ => ⟨c, hevict.freed, hevict.records, hold⟩, hleft⟩
  · refine ⟨fun htrue => absurd (htrue.symm.trans hfalse) Bool.noConfusion, ?_⟩
    unfold ChunkTable.InOrder
    rw [hhints]
    exact HintsInOrder.nil

theorem CapInv.makeRoom (h : CapInv t) (hmax : t.maxEntries ≠ 0) :
    CapInv t.makeRoom.1 ∧ t.makeRoom.1.maxEntries = t.maxEntries := by
  rcases makeRoom_spec h.toTableInv h.queued hmax with
    ⟨c, -, hevict, -⟩ | ⟨-, hsame, hqueued, -, -⟩
  · exact ⟨⟨hevict.inv, hevict.queued⟩, hevict.maxEntries⟩
  · exact ⟨⟨hsame.inv h.toTableInv, hqueued⟩, hsame.maxEntries⟩

theorem CapInv.shrink_oldest (fuel : Nat) (h : CapInv t) (hmax : t.maxEntries ≠ 0)
    (horder : t.InOrder) :
    (∀ u ∈ shrinkCalls fuel t, u.makeRoom.2 = true →
        ∃ c, c.state = .freed ∧ c ::ₘ u.makeRoom.1.records = u.records ∧ u.OldestFreed c) ∧
      (ChunkTable.shrinkLoop fuel t).InOrder := by
  induction fuel generalizing t with
  | zero => exact ⟨fun u hu => absurd hu List.not_mem_nil, horder⟩
  | succ fuel ih =>
      unfold shrinkCalls ChunkTable.shrinkLoop
      obtain ⟨hold, hleft⟩ := h.makeRoom_oldest hmax horder
      obtain ⟨hinv, hcap⟩ := h.makeRoom hmax
      split
      · obtain ⟨hrest, hloop⟩ := ih hinv (by rw [hcap]; exact hmax) hleft
        generalize hr : t.makeRoom = r at hold hrest hloop hleft
        obtain ⟨u, b⟩ := r
        cases b with
        | false =>
            refine ⟨?_, hleft⟩
            intro v hv htrue
            rcases List.mem_cons.mp hv with rfl | hv
            · rw [hr] at htrue
              cases htrue
            · cases hv
        | true =>
            refine ⟨?_, hloop⟩
            intro v hv htrue
            rcases List.mem_cons.mp hv with rfl | hv
            · rw [hr]
              exact hold rfl
            · exact hrest v hv htrue
      · exact ⟨fun u hu => absurd hu List.not_mem_nil, horder⟩

/-! ## What a call does to the freed records -/

theorem ChunkTable.FreedFrom.of_le (h : t'.records ≤ t.records) : t.FreedFrom t' :=
  fun d hd hdf => ⟨d, Multiset.mem_of_le h hd, hdf, rfl, rfl⟩

/-- A rewrite that leaves the state and the time alone. -/
theorem ChunkTable.FreedFrom.of_rewritten {key : Nat} {f : Chunk → Chunk} (hI : TableInv t)
    (hI' : TableInv t') (hrew : Rewritten t key f t') (hkey : ∀ c, (f c).key = c.key)
    (hf : ∀ c, (f c).state = .freed → c.state = .freed ∧ c.freeMs = (f c).freeMs) :
    t.FreedFrom t' := by
  intro d hd hdf
  rcases hI.mem_rewritten hI' hrew hkey hd with ⟨c, hc, -, rfl⟩ | ⟨hmem, -⟩
  · exact ⟨c, hc, (hf c hdf).1, (hkey c).symm, (hf c hdf).2⟩
  · exact ⟨d, hmem, hdf, rfl, rfl⟩

/-- The new record is a live one. -/
theorem ChunkTable.FreedFrom.of_cons_live {u : ChunkTable} {c : Chunk} (hlive : c.state = .live)
    (hrec : t'.records = c ::ₘ u.records) (h : t.FreedFrom u) : t.FreedFrom t' := by
  intro d hd hdf
  rw [hrec] at hd
  rcases Multiset.mem_cons.mp hd with rfl | hmem
  · rw [hlive] at hdf
    cases hdf
  · exact h d hmem hdf

theorem InsertCase.freedFrom {key size usable allocMs tid : Nat} {b : Bool} (h : CapInv t)
    (h' : CapInv t') (hcase : InsertCase t key size usable allocMs tid t' b) : t.FreedFrom t' := by
  cases hcase with
  | recycled hrew _ =>
      exact .of_rewritten h.toTableInv h'.toTableInv hrew (fun _ => rfl) fun _ hf => nomatch hf
  | placed _ _ hrec _ => exact .of_cons_live rfl hrec (.of_le (le_rfl))
  | evicting _ _ _ hevict _ hrec _ => exact .of_cons_live rfl hrec (.of_le hevict.sheds.le)
  | refused _ _ _ _ hrec _ _ _ _ => exact .of_le (le_of_eq hrec)

/-- Only `mark_freed` makes a freed record. -/
theorem CapInv.step_freedFrom (h : CapInv t) {op : CapOp} (hop : op.freedAt = none) :
    t.FreedFrom (t.capStep op) := by
  cases op with
  | setMaxEntries n => exact .of_le (h.setMaxEntries n).2.2.1.le
  | call op =>
      cases op with
      | insertLive key size usable allocMs tid =>
          by_cases hkey : key = 0
          · subst hkey
            exact .of_le (le_rfl)
          · obtain ⟨hinv, hcase⟩ := h.insertLive hkey size usable allocMs tid
            exact hcase.freedFrom h hinv
      | markFreed key freeMs => cases hop
      | markRefined key exactOverhead headerFlags =>
          show t.FreedFrom (t.markRefined key exactOverhead headerFlags).1
          rcases h.toTableInv.markRefined key exactOverhead headerFlags with
            ⟨-, heq⟩ | ⟨-, hrew, -, hinv, -⟩
          · rw [heq]
            exact .of_le (le_rfl)
          · exact .of_rewritten h.toTableInv hinv hrew (fun _ => rfl) fun _ hf => ⟨hf, rfl⟩
      | clearRefined =>
          intro d hd hdf
          have hd' : d ∈ t.clearRefined.records := hd
          rw [records_clearRefined] at hd'
          obtain ⟨c, hc, rfl⟩ := Multiset.mem_map.mp hd'
          exact ⟨c, hc, hdf, rfl, rfl⟩
      | erase key =>
          show t.FreedFrom (t.erase key).1
          rcases h.toTableInv.erase key with ⟨-, heq⟩ | ⟨c, -, hrec, -, -, -⟩
          · rw [heq]
            exact .of_le (le_rfl)
          · exact .of_le (hrec ▸ Multiset.le_cons_self _ c)
      | reserve entries => exact .of_le (le_of_eq (h.toTableInv.reserve entries).1.records)
      | clear => exact .of_le (le_of_eq_of_le (records_clear t) (Multiset.zero_le _))
      | find key => exact .of_le (le_rfl)

/-- `mark_freed` on a key that is there. -/
theorem CapInv.markFreed_found (h : CapInv t) {key : Nat} (freeMs : Nat)
    (hfound : (t.find key).isSome) : (t.markFreed key freeMs).1.records =
      freeing t.records key freeMs ∧
    (t.maxEntries ≠ 0 → (t.markFreed key freeMs).1.hints = pushed t.maxEntries t.hints key) ∧
    ∃ c ∈ t.records, c.key = key := by
  rcases h.find_cases key with ⟨i, hi, hfull, hk, hfind⟩ | ⟨-, hfind⟩
  · have hmem : t.slots i ∈ t.records := mem_contents_of_full hi hfull
    refine ⟨?_, ?_, ⟨t.slots i, hmem, hk⟩⟩
    · rcases h.toTableInv.markFreed key freeMs with ⟨hno, -⟩ | ⟨⟨c, hc, hck, hrec⟩, -, -, -⟩
      · exact absurd hk (hno _ hmem)
      · obtain ⟨rest, hrest⟩ := Multiset.exists_cons_of_mem hc
        have hother : ∀ d ∈ rest, d.key ≠ key := by
          have hnodup := h.nodup
          rw [hrest, Multiset.map_cons, Multiset.nodup_cons] at hnodup
          intro d hd hdk
          exact hnodup.1 (hck.trans hdk.symm ▸ Multiset.mem_map_of_mem _ hd)
        rw [hrest, Multiset.cons_swap, Multiset.cons_inj_right] at hrec
        rw [hrec, hrest, freeing, Multiset.map_cons, if_pos hck]
        congr 1
        refine (Multiset.map_id' rest).symm.trans (Multiset.map_congr rfl ?_)
        exact fun d hd => (if_neg (hother d hd)).symm
    · intro hmax
      unfold ChunkTable.markFreed
      rw [hfind]
      have hqueued : (t.set i { t.slots i with state := .freed, freeMs := freeMs }).Queued :=
        h.queued.congr ⟨rfl, rfl, rfl, rfl⟩
      exact hqueued.hints_pushFreed hmax key
  · rw [hfind] at hfound
    cases hfound

theorem markFreed_of_not_found {key : Nat} (freeMs : Nat) (hmiss : ¬ (t.find key).isSome) :
    t.markFreed key freeMs = (t, false) := by
  unfold ChunkTable.markFreed
  rw [Option.not_isSome_iff_eq_none.mp hmiss]

/-- A freed record was one before the call, or was freed by it. -/
theorem CapInv.step_freed (h : CapInv t) (op : CapOp) {d : Chunk} (hd : d ∈ (t.capStep op).records)
    (hdf : d.state = .freed) :
    (∃ c ∈ t.records, c.state = .freed ∧ c.freeMs = d.freeMs) ∨ op.freedAt = some d.freeMs := by
  cases hop : op.freedAt with
  | none =>
      obtain ⟨c, hc, hcf, -, hcms⟩ := h.step_freedFrom hop d hd hdf
      exact Or.inl ⟨c, hc, hcf, hcms⟩
  | some ms =>
      obtain ⟨key, rfl⟩ : ∃ key, op = .call (.markFreed key ms) := by
        cases op with
        | setMaxEntries n => cases hop
        | call op =>
            cases op <;> cases hop
            exact ⟨_, rfl⟩
      have hd' : d ∈ (t.markFreed key ms).1.records := hd
      by_cases hfound : (t.find key).isSome
      · rw [(h.markFreed_found ms hfound).1] at hd'
        rcases mem_freeing.mp hd' with ⟨c, -, -, rfl⟩ | ⟨hmem, -⟩
        · exact Or.inr rfl
        · exact Or.inl ⟨d, hmem, hdf, rfl⟩
      · rw [markFreed_of_not_found ms hfound] at hd'
        exact Or.inl ⟨d, hd', hdf, rfl⟩

/-! ## Every call -/

/-- A record that is inserted or recycled is live. -/
theorem InsertCase.inOrder {key size usable allocMs tid : Nat} {b : Bool} (h : CapInv t)
    (h' : CapInv t') (hcase : InsertCase t key size usable allocMs tid t' b)
    (horder : t.InOrder) : t'.InOrder := by
  have hfrom := hcase.freedFrom h h'
  cases hcase with
  | recycled _ hpolicy => exact horder.mono hfrom (hints_congr hpolicy)
  | placed _ _ _ hpolicy => exact horder.mono hfrom (hints_congr hpolicy)
  | evicting _ _ _ hevict hchosen hrec hpolicy =>
      obtain ⟨-, hleft⟩ := hchosen.oldest hevict h.toTableInv horder
      exact hleft.mono (.of_cons_live rfl hrec (.of_le (le_rfl))) (hints_congr hpolicy)
  | refused _ _ _ _ _ _ _ _ hhints =>
      unfold ChunkTable.InOrder
      rw [hhints]
      exact HintsInOrder.nil

/-- The frees that keep the hints in order are those in turn. -/
theorem CapInv.markFreed_inOrder_iff (h : CapInv t) (key freeMs : Nat) (horder : t.InOrder)
    (hlatest : t.FreedBy freeMs) :
    (t.markFreed key freeMs).1.InOrder ↔ t.FreesInTurn (.call (.markFreed key freeMs)) := by
  unfold ChunkTable.InOrder ChunkTable.FreesInTurn
  by_cases hfound : (t.find key).isSome
  · obtain ⟨hrec, hpush, hkey⟩ := h.markFreed_found freeMs hfound
    by_cases hmax : t.maxEntries = 0
    · have hcap : (t.markFreed key freeMs).1.maxEntries = 0 := by
        rcases h.toTableInv.markFreed key freeMs with ⟨-, heq⟩ | ⟨-, -, -, hcap⟩
        · rw [heq]
          exact hmax
        · exact hcap.trans hmax
      rw [(h.markFreed key freeMs).queued.hints_nil hcap]
      exact iff_of_true HintsInOrder.nil fun hne => absurd hmax hne
    · rw [hrec, hpush hmax]
      refine (horder.freeing_iff hlatest hkey).trans ?_
      exact ⟨fun hok _ _ => hok, fun hok => hok hmax hfound⟩
  · rw [markFreed_of_not_found freeMs hfound]
    exact iff_of_true horder fun _ hsome => absurd hsome hfound

theorem CapInv.setMaxEntries_oldest (h : CapInv t) (n : Nat) :
    t.EvictsOldest (.setMaxEntries n) ∧ (t.setMaxEntries n).InOrder := by
  by_cases hn : n = 0
  · subst hn
    obtain ⟨hinv, hcap, -⟩ := h.setMaxEntries 0
    refine ⟨fun u hu => absurd hu List.not_mem_nil, ?_⟩
    unfold ChunkTable.InOrder
    rw [hinv.queued.hints_nil hcap]
    exact HintsInOrder.nil
  · obtain ⟨hinv, hrec, hcap, hhints⟩ := h.recapped hn
    have horder : (t.recapped n).InOrder := by
      unfold ChunkTable.InOrder
      rw [hhints, hrec]
      exact hintsInOrder_refilled h.toTableInv n
    obtain ⟨hold, hleft⟩ := hinv.shrink_oldest (t.recapped n).size (by rw [hcap]; exact hn) horder
    have hcalls : t.makeRoomCalls (.setMaxEntries n) =
        shrinkCalls (t.recapped n).size (t.recapped n) := if_neg hn
    refine ⟨?_, by rw [setMaxEntries_eq hn]; exact hleft⟩
    intro u hu
    rw [hcalls] at hu
    exact hold u hu

theorem CapInv.insertLive_oldest (h : CapInv t) (horder : t.InOrder)
    (key size usable allocMs tid : Nat) :
    t.EvictsOldest (.call (.insertLive key size usable allocMs tid)) := by
  intro u hu
  simp only [ChunkTable.makeRoomCalls] at hu
  split at hu
  · rename_i hcap
    rw [List.mem_singleton.mp hu]
    exact (h.makeRoom_oldest hcap.2.2.1 horder).1
  · cases hu

/-- One call: what it evicts is an oldest record, and the hints stay in order. -/
theorem CapInv.step_oldest (h : CapInv t) (horder : t.InOrder) {op : CapOp}
    (htime : ∀ ms, op.freedAt = some ms → t.FreedBy ms) (hok : t.FreesInTurn op) :
    t.EvictsOldest op ∧ (t.capStep op).InOrder := by
  cases op with
  | setMaxEntries n => exact h.setMaxEntries_oldest n
  | call op =>
      cases op with
      | insertLive key size usable allocMs tid =>
          refine ⟨h.insertLive_oldest horder key size usable allocMs tid, ?_⟩
          by_cases hkey : key = 0
          · subst hkey
            exact horder
          · obtain ⟨hinv, hcase⟩ := h.insertLive hkey size usable allocMs tid
            exact hcase.inOrder h hinv horder
      | markFreed key freeMs =>
          refine ⟨fun u hu => absurd hu List.not_mem_nil, ?_⟩
          exact (h.markFreed_inOrder_iff key freeMs horder (htime freeMs rfl)).mpr hok
      | markRefined key exactOverhead headerFlags =>
          refine ⟨fun u hu => absurd hu List.not_mem_nil, horder.mono (h.step_freedFrom rfl) ?_⟩
          show (t.markRefined key exactOverhead headerFlags).1.hints = t.hints
          rcases h.toTableInv.markRefined key exactOverhead headerFlags with
            ⟨-, heq⟩ | ⟨-, -, -, -, hpolicy⟩
          · rw [heq]
          · exact hints_congr hpolicy
      | clearRefined =>
          exact ⟨fun u hu => absurd hu List.not_mem_nil, horder.mono (h.step_freedFrom rfl) rfl⟩
      | erase key =>
          refine ⟨fun u hu => absurd hu List.not_mem_nil, horder.mono (h.step_freedFrom rfl) ?_⟩
          show (t.erase key).1.hints = t.hints
          rcases h.toTableInv.erase key with ⟨-, heq⟩ | ⟨-, -, -, -, -, hpolicy⟩
          · rw [heq]
          · exact hints_congr hpolicy
      | reserve entries =>
          exact ⟨fun u hu => absurd hu List.not_mem_nil, horder.mono (h.step_freedFrom rfl)
            (hints_congr (h.toTableInv.reserve entries).1.policy)⟩
      | clear =>
          refine ⟨fun u hu => absurd hu List.not_mem_nil, ?_⟩
          show HintsInOrder t.clear.hints t.clear.records
          rw [records_clear]
          exact fun c hc => absurd hc (Multiset.notMem_zero c)
      | find key => exact ⟨fun u hu => absurd hu List.not_mem_nil, horder⟩

/-- The induction is on the calls still to come, with no record freed after any
of their times. -/
theorem CapInv.run_oldest (h : CapInv t) (horder : t.InOrder) (ops : List CapOp)
    (hpast : ∀ ms ∈ freeTimes ops, t.FreedBy ms) (htimes : (freeTimes ops).Pairwise (· ≤ ·))
    (hok : t.EveryCall ChunkTable.FreesInTurn ops) : t.EveryCall ChunkTable.EvictsOldest ops := by
  induction ops generalizing t with
  | nil => trivial
  | cons op ops ih =>
      have hrest : (freeTimes ops).Sublist (freeTimes (op :: ops)) :=
        (List.sublist_cons_self op ops).filterMap _
      have hnow : ∀ ms, op.freedAt = some ms → ms ∈ freeTimes (op :: ops) :=
        fun ms hms => List.mem_filterMap.mpr ⟨op, List.mem_cons_self, hms⟩
      obtain ⟨hold, hleft⟩ := h.step_oldest horder (fun ms hms => hpast ms (hnow ms hms)) hok.1
      refine ⟨hold, ih (h.step op) hleft ?_ (htimes.sublist hrest) hok.2⟩
      intro ms hms d hd hdf
      rcases h.step_freed op hd hdf with ⟨c, hc, hcf, hcms⟩ | hfreed
      · rw [← hcms]
        exact hpast ms (hrest.subset hms) c hc hcf
      · rw [freeTimes, List.filterMap_cons_some hfreed] at htimes
        exact (List.pairwise_cons.mp htimes).1 ms hms

end Table

/-- **When the oldest freed goes first.** In every sequence of calls with the
clock running forward whose frees are in turn, every eviction by `insert_live`
or `set_max_entries` takes a freed record with the least free time in the
table. -/
theorem evicts_oldest_first (initialCapacity : Nat) (ops : List CapOp)
    (htimes : (freeTimes ops).Pairwise (· ≤ ·))
    (hok : (ChunkTable.new initialCapacity).EveryCall ChunkTable.FreesInTurn ops) :
    (ChunkTable.new initialCapacity).EveryCall ChunkTable.EvictsOldest ops := by
  have hinv := CapInv.new initialCapacity
  refine hinv.run_oldest HintsInOrder.nil ops ?_ htimes hok
  intro ms _ c hc hcf
  have hnone : (ChunkTable.new initialCapacity).records = 0 :=
    records_of_empty fun _ _ => rfl
  rw [hnone] at hc
  exact absurd hc (Multiset.notMem_zero c)

/-- A table at its cap of three whose first record is freed twice before the
second is, and one more inserted. -/
theorem evicts_oldest_first_twice :
    (ChunkTable.new 16).EveryCall ChunkTable.EvictsOldest
      [.call (.insertLive 16 8 24 0 1), .call (.insertLive 32 8 24 1 1),
        .call (.insertLive 48 8 24 2 1), .setMaxEntries 3, .call (.markFreed 16 3),
        .call (.insertLive 16 8 24 4 1), .call (.markFreed 16 5), .call (.markFreed 32 6),
        .call (.insertLive 64 8 24 7 1)] := by
  refine evicts_oldest_first 16 _ (by decide)
    ⟨trivial, trivial, trivial, trivial, ?_, trivial, ?_, ?_, trivial, trivial⟩
  all_goals
    intro _ _
    decide +kernel

/-- Under a cap of three two records are freed, the first of them for the second
time. The ring has room for all three hints. -/
def refreedCalls : List CapOp :=
  [.call (.insertLive 16 8 24 0 1), .call (.insertLive 32 8 24 1 1),
    .call (.insertLive 48 8 24 2 1), .setMaxEntries 3, .call (.markFreed 16 3),
    .call (.insertLive 16 8 24 4 1), .call (.markFreed 32 5), .call (.markFreed 16 6),
    .call (.insertLive 64 8 24 7 1)]

/-- The hint of the first free of 16 stands ahead of that of 32. It is taken for
the second, and 16, freed later, is evicted. -/
theorem refreed_evicts_newer :
    (freeTimes refreedCalls).Pairwise (· ≤ ·) ∧
      ¬ (ChunkTable.new 16).EveryCall ChunkTable.EvictsOldest refreedCalls := by
  refine ⟨by decide, ?_⟩
  intro h
  have hinv : CapInv ((ChunkTable.new 16).capRun (refreedCalls.take 8)) := (CapInv.new 16).run _
  have hinv' := (hinv.makeRoom (by decide +kernel)).1
  have hnewer : ((ChunkTable.new 16).capRun (refreedCalls.take 8)).lookup 16 =
      some ⟨16, 8, 24, 4, 6, 1, .freed, 0, 0⟩ := by decide +kernel
  have holder : ((ChunkTable.new 16).capRun (refreedCalls.take 8)).lookup 32 =
      some ⟨32, 8, 24, 1, 5, 1, .freed, 0, 0⟩ := by decide +kernel
  have hgone : ((ChunkTable.new 16).capRun (refreedCalls.take 8)).makeRoom.1.lookup 16 = none := by
    decide +kernel
  have hmem : (ChunkTable.new 16).capRun (refreedCalls.take 8) ∈
      ((ChunkTable.new 16).capRun (refreedCalls.take 8)).makeRoomCalls
        (.call (.insertLive 64 8 24 7 1)) := by
    simp only [ChunkTable.makeRoomCalls]
    rw [if_pos (by decide +kernel)]
    exact List.mem_singleton_self _
  obtain ⟨c, -, hrec, hold⟩ := h.2.2.2.2.2.2.2.2.1 _ hmem (by decide +kernel)
  have hnewer' := (hinv.lookup_eq_some.mp hnewer).1
  rw [← hrec] at hnewer'
  rcases Multiset.mem_cons.mp hnewer' with heq | hstays
  · have hle := hold _ (hinv.lookup_eq_some.mp holder).1 rfl
    rw [← heq] at hle
    revert hle
    decide
  · exact hinv'.lookup_eq_none.mp hgone _ hstays rfl

end Heapviz
