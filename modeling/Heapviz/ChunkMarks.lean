import Heapviz.ChunkCap

/-!
# Whose refinement is it?

`mark_refined` notes on a record what was read from the chunk's header: the
exact overhead, the mark itself and two header bits. The note is about one
allocation. `insert_live` ends the allocation under its key and `clear_refined`
takes every note back; `RefinedSince` is the history of calls in which a note
is still about the allocation the record describes.

A new record starts without a note. A recycled one keeps the note of the
allocation before it, since `insert_live` overwrites the record field by field
and leaves flags and overhead alone; and `mark_refined` adds header bits to
those that are there. `marks_current_iff` says that these two are all that goes
wrong, over every sequence of calls.
-/

namespace Heapviz

open RobinHood ChunkTable

/-- The record carries something only `mark_refined` sets. -/
def Chunk.noted (c : Chunk) : Bool :=
  c.flags &&& (kChunkFlagRefined ||| kHeaderFlagMask) ≠ 0 || c.overheadExact ≠ 0

/-- The call ends the allocation under the key, or takes all marks back. -/
def CapOp.unmarks (key : Nat) : CapOp → Bool
  | .call (.insertLive k _ _ _ _) => k == key
  | .call .clearRefined => true
  | _ => false

/-- Among the calls so far a `mark_refined` of the key succeeded, and none since
has ended that allocation or cleared the marks. -/
def ChunkTable.RefinedSince (t : ChunkTable) (ops : List CapOp) (key : Nat) : Prop :=
  ∃ pre exactOverhead headerFlags post,
    ops = pre ++ .call (.markRefined key exactOverhead headerFlags) :: post ∧
      ((t.capRun pre).markRefined key exactOverhead headerFlags).2 = true ∧
      ∀ op ∈ post, op.unmarks key = false

/-- The marks on live records are about the allocations they describe. -/
def ChunkTable.MarksCurrent (t : ChunkTable) (ops : List CapOp) : Prop :=
  ∀ c ∈ (t.capRun ops).records, c.state = .live → c.noted = true → t.RefinedSince ops c.key

/-- A successful `mark_refined` leaves exactly the header bits it was passed. -/
def ChunkTable.HeadersExact (t : ChunkTable) : CapOp → Prop
  | .call (.markRefined key exactOverhead headerFlags) =>
      (t.markRefined key exactOverhead headerFlags).2 = true →
        ∀ c ∈ (t.markRefined key exactOverhead headerFlags).1.records, c.key = key →
          c.flags &&& kHeaderFlagMask = headerFlags &&& kHeaderFlagMask
  | _ => True

/-- An insertion meets no marked record under its key, and a refinement none with
a header bit it does not pass. -/
def ChunkTable.MeetsClean (t : ChunkTable) : CapOp → Prop
  | .call (.insertLive key _ _ _ _) => ∀ c ∈ t.records, c.key = key → c.noted = false
  | .call (.markRefined key exactOverhead headerFlags) =>
      exactOverhead ≤ 2 ^ 16 - 1 → ∀ c ∈ t.records, c.key = key →
        (c.flags &&& kHeaderFlagMask) ||| (headerFlags &&& kHeaderFlagMask) =
          headerFlags &&& kHeaderFlagMask
  | _ => True

/-! ## Marks on records -/

theorem refine_headers (c : Chunk) (exactOverhead headerFlags : Nat) :
    (c.refine exactOverhead headerFlags).flags &&& kHeaderFlagMask =
      (c.flags &&& kHeaderFlagMask) ||| (headerFlags &&& kHeaderFlagMask) := by
  have hmark : kChunkFlagRefined &&& kHeaderFlagMask = 0 := by decide
  unfold Chunk.refine
  rw [Nat.and_or_distrib_right, Nat.and_or_distrib_right, hmark, Nat.or_zero, Nat.and_assoc,
    Nat.and_self]

theorem noted_unrefine (c : Chunk) : c.unrefine.noted = false := by
  have hkeep : (0xFF - (kChunkFlagRefined ||| kHeaderFlagMask)) &&&
      (kChunkFlagRefined ||| kHeaderFlagMask) = 0 := by decide
  unfold Chunk.noted Chunk.unrefine
  dsimp only
  rw [Nat.and_assoc, hkeep, Nat.and_zero]
  rfl

theorem noted_fresh (key size usable allocMs tid : Nat) :
    (Chunk.fresh key size usable allocMs tid).noted = false := by
  unfold Chunk.noted Chunk.fresh
  dsimp only
  rw [Nat.zero_and]
  rfl

/-! ## History -/

section History

variable {t : ChunkTable} {ops : List CapOp} {key : Nat}

theorem ChunkTable.RefinedSince.later (h : t.RefinedSince ops key) {op : CapOp}
    (hop : op.unmarks key = false) : t.RefinedSince (ops ++ [op]) key := by
  obtain ⟨pre, exactOverhead, headerFlags, post, rfl, htrue, hpost⟩ := h
  refine ⟨pre, exactOverhead, headerFlags, post ++ [op], ?_, htrue, ?_⟩
  · rw [List.append_assoc, List.cons_append]
  · intro op' hop'
    rcases List.mem_append.mp hop' with hmem | hmem
    · exact hpost op' hmem
    · rw [List.mem_singleton.mp hmem]
      exact hop

/-- The call that ended the allocation is the last one: nothing came since. -/
theorem not_refinedSince {op : CapOp} (hop : op.unmarks key = true) :
    ¬ t.RefinedSince (ops ++ [op]) key := by
  rintro ⟨pre, exactOverhead, headerFlags, post, heq, -, hpost⟩
  rcases List.eq_nil_or_concat post with rfl | ⟨post, last, rfl⟩
  · have hlast := (List.append_inj' heq rfl).2
    rw [List.cons.injEq] at hlast
    rw [hlast.1] at hop
    cases hop
  · rw [List.concat_eq_append] at heq hpost
    have hlast : [op] = [last] := by
      rw [← List.cons_append, ← List.append_assoc] at heq
      exact (List.append_inj' heq rfl).2
    rw [List.cons.injEq] at hlast
    rw [hlast.1, hpost last (List.mem_append_right _ (List.mem_singleton_self _))] at hop
    cases hop

end History

/-! ## Where a mark comes from -/

/-- A mark the call leaves was there before and is still about the same
allocation, or the call set it. -/
def ChunkTable.MarkFrom (t : ChunkTable) (op : CapOp) (c' : Chunk) : Prop :=
  (∃ c ∈ t.records, c.noted = true ∧ c.key = c'.key ∧ op.unmarks c.key = false) ∨
    ∃ exactOverhead headerFlags, op = .call (.markRefined c'.key exactOverhead headerFlags) ∧
      (t.markRefined c'.key exactOverhead headerFlags).2 = true

section Marks

variable {t : ChunkTable}

theorem ChunkTable.MarkFrom.kept {op : CapOp} {c : Chunk} (hc : c ∈ t.records)
    (hnoted : c.noted = true) (hop : op.unmarks c.key = false) : t.MarkFrom op c :=
  Or.inl ⟨c, hc, hnoted, rfl, hop⟩

theorem CapInv.insertLive_markFrom (h : CapInv t) {key size usable allocMs tid : Nat}
    (hclean : ∀ c ∈ t.records, c.key = key → c.noted = false) {c' : Chunk}
    (hc' : c' ∈ (t.insertLive key size usable allocMs tid).1.records)
    (hnoted : c'.noted = true) :
    t.MarkFrom (.call (.insertLive key size usable allocMs tid)) c' := by
  by_cases hkey : key = 0
  · subst hkey
    exact .kept hc' hnoted (beq_eq_false_iff_ne.mpr (h.key_ne c' hc').symm)
  · obtain ⟨hinv, hcase⟩ := h.insertLive hkey size usable allocMs tid
    have hother : c' ∈ t.records → c'.key ≠ key →
        t.MarkFrom (.call (.insertLive key size usable allocMs tid)) c' :=
      fun hmem hne => .kept hmem hnoted (beq_eq_false_iff_ne.mpr hne.symm)
    have hfresh : c' ≠ Chunk.fresh key size usable allocMs tid := by
      rintro rfl
      rw [noted_fresh] at hnoted
      cases hnoted
    generalize t.insertLive key size usable allocMs tid = r at hc' hinv hcase
    obtain ⟨t', b⟩ := r
    dsimp only at hc' hinv hcase
    cases hcase with
    | recycled hrew hpolicy =>
        rcases h.toTableInv.mem_rewritten hinv.toTableInv hrew (fun _ => rfl) hc' with
          ⟨c, hc, hk, rfl⟩ | ⟨hmem, hne⟩
        · -- the recycled record keeps what marks it has, and it has none
          rw [show (c.reuse size usable allocMs tid).noted = c.noted from rfl,
            hclean c hc hk] at hnoted
          cases hnoted
        · exact hother hmem hne
    | placed hnew hroom hrec hpolicy =>
        rw [hrec] at hc'
        have hmem := (Multiset.mem_cons.mp hc').resolve_left hfresh
        exact hother hmem (hnew c' hmem)
    | evicting hnew hmax hfull hevict hchosen hrec hpolicy =>
        rw [hrec] at hc'
        have hmem := Multiset.mem_of_le hevict.sheds.le
          ((Multiset.mem_cons.mp hc').resolve_left hfresh)
        exact hother hmem (hnew c' hmem)
    | refused hnew hmax hfull hnone hrec hsize hdrops hcap hhints =>
        rw [hrec] at hc'
        exact hother hc' (hnew c' hc')

theorem CapInv.markFrom (h : CapInv t) {op : CapOp} (hclean : t.MeetsClean op) {c' : Chunk}
    (hc' : c' ∈ (t.capStep op).records) (hnoted : c'.noted = true) : t.MarkFrom op c' := by
  cases op with
  | setMaxEntries n =>
      exact .kept (Multiset.mem_of_le (h.setMaxEntries n).2.2.1.le hc') hnoted rfl
  | call op =>
      cases op with
      | insertLive key size usable allocMs tid => exact h.insertLive_markFrom hclean hc' hnoted
      | markFreed key freeMs =>
          have hc'' : c' ∈ (t.markFreed key freeMs).1.records := hc'
          rcases h.toTableInv.markFreed key freeMs with ⟨-, heq⟩ | ⟨hrew, -, hinv, -⟩
          · rw [heq] at hc''
            exact .kept hc'' hnoted rfl
          · rcases h.toTableInv.mem_rewritten hinv hrew (fun _ => rfl) hc'' with
              ⟨c, hc, -, rfl⟩ | ⟨hmem, -⟩
            · exact Or.inl ⟨c, hc, hnoted, rfl, rfl⟩
            · exact .kept hmem hnoted rfl
      | markRefined key exactOverhead headerFlags =>
          have hc'' : c' ∈ (t.markRefined key exactOverhead headerFlags).1.records := hc'
          rcases h.toTableInv.markRefined key exactOverhead headerFlags with
            ⟨-, heq⟩ | ⟨-, hrew, htrue, hinv, -⟩
          · rw [heq] at hc''
            exact .kept hc'' hnoted rfl
          · rcases h.toTableInv.mem_rewritten hinv hrew (fun _ => rfl) hc'' with
              ⟨c, hc, rfl, rfl⟩ | ⟨hmem, -⟩
            · exact Or.inr ⟨exactOverhead, headerFlags, rfl, htrue⟩
            · exact .kept hmem hnoted rfl
      | clearRefined =>
          have hc'' : c' ∈ t.clearRefined.records := hc'
          rw [records_clearRefined] at hc''
          obtain ⟨c, -, rfl⟩ := Multiset.mem_map.mp hc''
          rw [noted_unrefine] at hnoted
          cases hnoted
      | erase key =>
          have hc'' : c' ∈ (t.erase key).1.records := hc'
          rcases h.toTableInv.erase key with ⟨-, heq⟩ | ⟨c, -, hrec, -⟩
          · rw [heq] at hc''
            exact .kept hc'' hnoted rfl
          · exact .kept (hrec ▸ Multiset.mem_cons_of_mem hc'') hnoted rfl
      | reserve entries =>
          obtain ⟨hg, -⟩ := h.toTableInv.reserve entries
          exact .kept (hg.records ▸ hc') hnoted rfl
      | clear =>
          have hc'' : c' ∈ t.clear.records := hc'
          rw [records_clear] at hc''
          exact absurd hc'' (Multiset.notMem_zero c')
      | find key => exact .kept hc' hnoted rfl

/-- Every mark, on a live record or a freed one, has a history. -/
def ChunkTable.MarksTraced (t : ChunkTable) (ops : List CapOp) : Prop :=
  ∀ c ∈ (t.capRun ops).records, c.noted = true → t.RefinedSince ops c.key

theorem ChunkTable.MarksTraced.step {ops : List CapOp} {op : CapOp} (h : t.MarksTraced ops)
    (hinv : CapInv (t.capRun ops)) (hclean : (t.capRun ops).MeetsClean op) :
    t.MarksTraced (ops ++ [op]) := by
  intro c' hc' hnoted
  rw [capRun_append] at hc'
  rcases hinv.markFrom hclean hc' hnoted with
    ⟨c, hc, hcm, hkey, hop⟩ | ⟨exactOverhead, headerFlags, rfl, htrue⟩
  · rw [← hkey]
    exact (h c hc hcm).later hop
  · exact ⟨ops, exactOverhead, headerFlags, [], rfl, htrue,
      fun op hop => absurd hop List.not_mem_nil⟩

theorem marksTraced_of_clean (initialCapacity : Nat) (ops : List CapOp)
    (hclean : (ChunkTable.new initialCapacity).EveryCall ChunkTable.MeetsClean ops) :
    (ChunkTable.new initialCapacity).MarksTraced ops := by
  induction ops using List.reverseRecOn with
  | nil =>
      intro c hc
      have hempty : (ChunkTable.new initialCapacity).records = 0 :=
        records_of_empty fun _ _ => rfl
      have hc' : c ∈ (ChunkTable.new initialCapacity).records := hc
      rw [hempty] at hc'
      exact absurd hc' (Multiset.notMem_zero c)
  | append_singleton ops op ih =>
      have hlast := everyCall_iff.mp hclean ops op [] rfl
      exact (ih (everyCall_of_append hclean)).step ((CapInv.new initialCapacity).run ops) hlast

/-! ## One refinement -/

theorem CapInv.headersExact_iff (h : CapInv t) (key exactOverhead headerFlags : Nat) :
    t.HeadersExact (.call (.markRefined key exactOverhead headerFlags)) ↔
      t.MeetsClean (.call (.markRefined key exactOverhead headerFlags)) := by
  unfold ChunkTable.HeadersExact ChunkTable.MeetsClean
  rcases h.toTableInv.markRefined key exactOverhead headerFlags with
    ⟨hno, heq⟩ | ⟨hfits, hrew, htrue, hinv, -⟩
  · refine ⟨fun _ hfits c hc hkey => ?_, fun _ htrue => ?_⟩
    · rcases hno with hbig | hno
      · omega
      · exact absurd hkey (hno c hc)
    · rw [heq] at htrue
      cases htrue
  · constructor
    · intro hexact _ c hc hkey
      have hlookup := (h.toTableInv.lookup_rewritten hinv hrew fun _ => rfl).1
      have hfound : (t.markRefined key exactOverhead headerFlags).1.lookup key =
          some (c.refine exactOverhead headerFlags) := by
        rw [hlookup, Function.update_self, h.toTableInv.lookup_eq_some.mpr ⟨hc, hkey⟩,
          Option.map_some]
      have hmem := (hinv.lookup_eq_some.mp hfound).1
      rw [← refine_headers c exactOverhead headerFlags]
      exact hexact htrue _ hmem hkey
    · intro hclean _ c' hc' hkey
      rcases h.toTableInv.mem_rewritten hinv hrew (fun _ => rfl) hc' with
        ⟨c, hc, hk, rfl⟩ | ⟨-, hne⟩
      · rw [refine_headers]
        exact hclean hfits c hc hk
      · exact absurd hkey hne

/-- A recycled record that has a mark has one that is not its own. -/
theorem CapInv.insert_clean (h : CapInv t) {t₀ : ChunkTable} {ops : List CapOp}
    (ht : t₀.capRun ops = t) {key size usable allocMs tid : Nat}
    (hcurrent : t₀.MarksCurrent (ops ++ [.call (.insertLive key size usable allocMs tid)])) :
    t.MeetsClean (.call (.insertLive key size usable allocMs tid)) := by
  intro c hc hkey
  by_contra hnoted
  rw [Bool.not_eq_false] at hnoted
  have hne : key ≠ 0 := hkey ▸ h.key_ne c hc
  obtain ⟨hinv, hcase⟩ := h.insertLive hne size usable allocMs tid
  have hfound : (t.insertLive key size usable allocMs tid).1.lookup key =
      some (c.reuse size usable allocMs tid) := by
    have hrew := hcase.rewritten hc hkey
    rw [(h.toTableInv.lookup_rewritten hinv.toTableInv hrew fun _ => rfl).1,
      Function.update_self, h.toTableInv.lookup_eq_some.mpr ⟨hc, hkey⟩, Option.map_some]
  have hmem := (hinv.toTableInv.lookup_eq_some.mp hfound).1
  have hsince := hcurrent (c.reuse size usable allocMs tid)
    (by rw [capRun_append, ht]; exact hmem) rfl hnoted
  rw [show (c.reuse size usable allocMs tid).key = key from hkey] at hsince
  have hends : CapOp.unmarks key (.call (.insertLive key size usable allocMs tid)) = true :=
    beq_self_eq_true key
  exact not_refinedSince hends hsince

/-- **When marks describe the current allocation.** Over every sequence of
calls: after each of them the marks on live records come from a refinement
since the latest insertion of the key and the latest `clear_refined`, and each
refinement leaves exactly the header bits it passes, if and only if no insertion
meets a marked record under its key and no refinement a header bit it does not
pass. -/
theorem marks_current_iff (initialCapacity : Nat) (ops : List CapOp) :
    ((∀ pre, pre <+: ops → (ChunkTable.new initialCapacity).MarksCurrent pre) ∧
        (ChunkTable.new initialCapacity).EveryCall ChunkTable.HeadersExact ops) ↔
      (ChunkTable.new initialCapacity).EveryCall ChunkTable.MeetsClean ops := by
  have hinv : ∀ pre, CapInv ((ChunkTable.new initialCapacity).capRun pre) :=
    (CapInv.new initialCapacity).run
  constructor
  · rintro ⟨hcurrent, hheaders⟩
    rw [everyCall_iff] at hheaders ⊢
    intro pre op post heq
    cases op with
    | setMaxEntries n => trivial
    | call op =>
        cases op with
        | insertLive key size usable allocMs tid =>
            refine (hinv pre).insert_clean rfl (hcurrent _ ⟨post, ?_⟩)
            rw [heq, List.append_assoc, List.singleton_append]
        | markRefined key exactOverhead headerFlags =>
            exact ((hinv pre).headersExact_iff key exactOverhead headerFlags).mp
              (hheaders pre _ post heq)
        | markFreed key freeMs => trivial
        | clearRefined => trivial
        | erase key => trivial
        | reserve entries => trivial
        | clear => trivial
        | find key => trivial
  · intro hclean
    refine ⟨?_, ?_⟩
    · rintro pre ⟨post, rfl⟩ c hc - hnoted
      exact marksTraced_of_clean initialCapacity pre (everyCall_of_append hclean) c hc hnoted
    · rw [everyCall_iff] at hclean ⊢
      intro pre op post heq
      cases op with
      | setMaxEntries n => trivial
      | call op =>
          cases op with
          | markRefined key exactOverhead headerFlags =>
              exact ((hinv pre).headersExact_iff key exactOverhead headerFlags).mpr
                (hclean pre _ post heq)
          | insertLive key size usable allocMs tid => trivial
          | markFreed key freeMs => trivial
          | clearRefined => trivial
          | erase key => trivial
          | reserve entries => trivial
          | clear => trivial
          | find key => trivial

/-- A chunk is refined, freed, and its address handed out again. -/
def recycledCalls : List CapOp :=
  [.call (.insertLive 16 8 24 0 1), .call (.markRefined 16 32 kChunkFlagMmapped),
    .call (.markFreed 16 1), .call (.insertLive 16 8 24 2 1)]

/-- The new allocation carries the overhead and the header bit of the old one. -/
theorem recycled_keeps_marks :
    ¬ ((∀ pre, pre <+: recycledCalls → (ChunkTable.new 16).MarksCurrent pre) ∧
        (ChunkTable.new 16).EveryCall ChunkTable.HeadersExact recycledCalls) := by
  rintro ⟨hcurrent, -⟩
  have hinv : CapInv ((ChunkTable.new 16).capRun recycledCalls) := (CapInv.new 16).run _
  have hfound : ((ChunkTable.new 16).capRun recycledCalls).lookup 16 =
      some ⟨16, 8, 24, 2, 0, 1, .live, 3, 32⟩ := by decide +kernel
  have hsince := hcurrent _ (List.prefix_refl _) _ (hinv.lookup_eq_some.mp hfound).1 rfl rfl
  have hends : CapOp.unmarks 16 (.call (.insertLive 16 8 24 2 1)) = true := rfl
  exact @not_refinedSince _ (recycledCalls.take 3) _ _ hends hsince

end Marks

end Heapviz
