import Heapviz.WalkChain
import Heapviz.WalkOut

/-!
# Which bytes are counted twice

What is opaque in a region is found by subtraction: its span less the
chunks emitted for it (`HeapWalker.walk_out`). A chunk judged free is not
emitted, so its bytes stay in that difference, and they are in
`free_bytes` as well. The three figures add up to the spans exactly when
no chunk is judged free.

Which chunks are judged can be said of the memory: those whose successor's
header lies in the region and in a block the walk still reads
(`blocksEnd`), the first `kMaxChunksPerRegion` of the chain.
-/

namespace Heapviz

/-! ## What is judged free -/

/-- Where the blocks run out: the header of the chain that none of `left`
whole blocks from `cursor` holds, `limit` if they hold them all. -/
def blocksEnd (mem : Memory) (limit : Nat) : Nat → Nat → Nat
  | 0, cursor => cursor
  | left + 1, cursor =>
      match (chain mem limit cursor).find? fun c =>
        cursor + min (limit - cursor) kWalkBlockBytes < c.1 + c.2 + 16 with
      | none => limit
      | some c => blocksEnd mem limit left (c.1 + c.2)

/-- No chunk of the chain from `a` is judged free, up to the ceilings. -/
def NoneFreeFrom (mem : Memory) (limit a : Nat) : Prop :=
  ∀ c ∈ (chain mem limit a).take kMaxChunksPerRegion,
    c.1 + c.2 < blocksEnd mem limit kMaxBlocksPerRegion a → c.1 + c.2 + 16 ≤ limit →
      prevInUse (fieldAt mem (c.1 + c.2)) = true

/-- No chunk of the region's chain is judged free. -/
def NoneFree (mem : Memory) (r : Mapping) : Prop :=
  ∀ off, findChainStart (bytesAt mem r.start (min (r.limit - r.start) kWalkBlockBytes))
    (r.limit - r.start) = some off → NoneFreeFrom mem r.limit (r.start + off)

/-! ## Free bytes along the chain -/

section Free

variable {mem : Memory} {r : Mapping} {bound a : Nat} {s : Scan}

/-- The chunks of a list whose successor's header ends by the bound are used. -/
def AllUsed (mem : Memory) (bound : Nat) (cs : List (Nat × Nat)) : Prop :=
  ∀ c ∈ cs, c.1 + c.2 + 16 ≤ bound → prevInUse (fieldAt mem (c.1 + c.2)) = true

theorem allUsed_cons {c : Nat × Nat} {cs : List (Nat × Nat)} :
    AllUsed mem bound (c :: cs) ↔
      (c.1 + c.2 + 16 ≤ bound → prevInUse (fieldAt mem (c.1 + c.2)) = true) ∧
        AllUsed mem bound cs :=
  List.forall_mem_cons

/-- No successor's header ends by the bound. -/
theorem allUsed_of_end (hlink : ∀ p ∈ s.pending, p.1 + p.2 = a ∧ 0 < p.2)
    (h : ¬ a + 16 ≤ bound) (n : Nat) :
    AllUsed mem bound ((s.pending ++ chain mem r.limit a).take n) := by
  intro c hc hle
  rcases List.mem_append.mp (List.mem_of_mem_take hc) with hc | hc
  · rw [(hlink c hc).1] at hle
    exact absurd hle h
  · have := (chain_ordered.2 c hc).1
    omega

/-- A verdict, by what it says: there was none to give, the chunk is free, or
it is used and perhaps the last. -/
theorem Scan.verdict_cases (s : Scan) (inUse : Bool) :
    (s.pending = [] ∧ s.verdict inUse = (s, false)) ∨
      (∃ p, s.pending = [p] ∧ inUse = false ∧ (s.verdict inUse).2 = false ∧
        (s.verdict inUse).1.found = s.found ∧
        (s.verdict inUse).1.sum.freeBytes = s.sum.freeBytes + p.2) ∨
      ∃ p, s.pending = [p] ∧ inUse = true ∧
        ((s.verdict inUse).2 = true ↔ kMaxChunksPerRegion ≤ s.found + 1) ∧
        (s.verdict inUse).1.found = s.found + 1 ∧
        (s.verdict inUse).1.sum.freeBytes = s.sum.freeBytes := by
  unfold Scan.verdict Scan.pending
  cases s.prev with
  | none => exact .inl ⟨rfl, rfl⟩
  | some p =>
      cases inUse with
      | false => exact .inr (.inl ⟨p, rfl, rfl, rfl, rfl, rfl⟩)
      | true =>
          refine .inr (.inr ⟨p, rfl, rfl, ?_⟩)
          dsimp only
          rw [if_pos rfl]
          split_ifs with hfull
          · exact ⟨iff_of_true rfl hfull, rfl, rfl⟩
          · exact ⟨iff_of_false not_false hfull, rfl, rfl⟩

/-- One verdict and what comes after it. `total` is the figure in the end. -/
theorem Scan.verdict_free {rest : List (Nat × Nat)} {total : Nat} (hb : a + 16 ≤ bound)
    (hlink : ∀ p ∈ s.pending, p.1 + p.2 = a ∧ 0 < p.2) (hfound : s.found < kMaxChunksPerRegion)
    (hfull : (s.verdict (prevInUse (fieldAt mem a))).2 = true →
      total = (s.verdict (prevInUse (fieldAt mem a))).1.sum.freeBytes)
    (hrest : (s.verdict (prevInUse (fieldAt mem a))).2 = false →
      (s.verdict (prevInUse (fieldAt mem a))).1.sum.freeBytes ≤ total ∧
        (total = (s.verdict (prevInUse (fieldAt mem a))).1.sum.freeBytes ↔
          AllUsed mem bound (rest.take (kMaxChunksPerRegion -
            (s.verdict (prevInUse (fieldAt mem a))).1.found)))) :
    s.sum.freeBytes ≤ total ∧
      (total = s.sum.freeBytes ↔
        AllUsed mem bound ((s.pending ++ rest).take (kMaxChunksPerRegion - s.found))) := by
  have hroom : kMaxChunksPerRegion - s.found = kMaxChunksPerRegion - (s.found + 1) + 1 := by omega
  rcases s.verdict_cases (prevInUse (fieldAt mem a)) with
    ⟨hnil, heq⟩ | ⟨p, hp, hfree, hgo, -, hbytes⟩ | ⟨p, hp, hused, hlast, hnum, hbytes⟩
  · rw [heq] at hrest
    rw [hnil]
    exact hrest rfl
  · obtain ⟨hlink, hpos⟩ := hlink p (hp ▸ List.mem_cons_self)
    have hle := (hrest hgo).1
    rw [hbytes] at hle
    refine ⟨by omega, iff_of_false (by omega) fun hall => ?_⟩
    rw [hp, List.singleton_append, hroom, List.take_succ_cons, allUsed_cons, hlink, hfree] at hall
    exact Bool.false_ne_true (hall.1 hb)
  · obtain ⟨hlink, -⟩ := hlink p (hp ▸ List.mem_cons_self)
    rw [hp, List.singleton_append, hroom, List.take_succ_cons, allUsed_cons, hlink]
    have hthis : a + 16 ≤ bound → prevInUse (fieldAt mem a) = true := fun _ => hused
    cases hgo : (s.verdict (prevInUse (fieldAt mem a))).2 with
    | true =>
        have hzero : kMaxChunksPerRegion - (s.found + 1) = 0 :=
          Nat.sub_eq_zero_of_le (hlast.mp hgo)
        rw [hfull hgo, hbytes, hzero, List.take_zero]
        exact ⟨Nat.le_refl _, iff_of_true rfl ⟨hthis, fun c hc => absurd hc List.not_mem_nil⟩⟩
    | false =>
        obtain ⟨hle, hiff⟩ := hrest hgo
        rw [hbytes, hnum] at hiff
        rw [hbytes] at hle
        exact ⟨hle, hiff.trans ⟨fun h => ⟨hthis, h⟩, And.right⟩⟩

/-- Followed up to a bound, the walk judges no chunk free exactly when all are
used, of those whose successor it reads before there are too many. -/
theorem follow_free (hlim : r.limit < 2 ^ 63) (hlo : r.start ≤ a) (hhi : a ≤ r.limit)
    (hlink : ∀ p ∈ s.pending, p.1 + p.2 = a ∧ 0 < p.2) (hbound : bound ≤ r.limit)
    (hfound : s.found < kMaxChunksPerRegion) :
    s.sum.freeBytes ≤ (follow mem r bound a s).1.sum.freeBytes ∧
      ((follow mem r bound a s).1.sum.freeBytes = s.sum.freeBytes ↔
        AllUsed mem bound
          ((s.pending ++ chain mem r.limit a).take (kMaxChunksPerRegion - s.found))) := by
  induction a, s using follow_induction mem r bound with
  | hdone a s hb =>
      rw [follow_done hb]
      exact ⟨Nat.le_refl _, iff_of_true rfl (allUsed_of_end hlink hb _)⟩
  | hstop a s s' hb hv =>
      rw [follow_stop hb hv]
      rcases Scan.visit_cases hv with ⟨hfull, rfl, -⟩ | ⟨-, hfollows, rfl, -⟩ | ⟨-, -, -, hnext⟩
      · refine Scan.verdict_free hb hlink hfound (fun _ => rfl) ?_
        intro hgo
        rw [hfull] at hgo
        cases hgo
      · rw [follows_iff hlim hlo hhi] at hfollows
        rw [chain_nil fun h => hfollows h.2]
        refine Scan.verdict_free hb hlink hfound (fun _ => rfl) fun _ => ⟨Nat.le_refl _, ?_⟩
        rw [List.take_nil]
        exact iff_of_true rfl fun c hc => absurd hc List.not_mem_nil
      · cases hnext
  | hnext a s s' size hb hv ih =>
      rw [follow_next hb hv]
      rcases Scan.visit_cases hv with ⟨-, -, hnext⟩ | ⟨-, -, -, hnext⟩ | ⟨hgo, hfollows, rfl, hnext⟩
      · cases hnext
      · cases hnext
      · obtain rfl := Option.some.inj hnext
        rw [follows_iff hlim hlo hhi] at hfollows
        have hpos := hfollows.1
        unfold kWalkMinChunk at hpos
        have hroom : (s.verdict (prevInUse (fieldAt mem a))).1.found < kMaxChunksPerRegion := by
          rcases s.verdict_cases (prevInUse (fieldAt mem a)) with
            ⟨-, heq⟩ | ⟨p, -, -, -, hnum, -⟩ | ⟨p, -, -, hlast, hnum, -⟩
          · rw [heq]
            exact hfound
          · rw [hnum]
            exact hfound
          · rw [hnum]
            exact not_le.mp fun h => Bool.false_ne_true (hgo.symm.trans (hlast.mpr h))
        rw [chain_cons (hb.trans hbound) hfollows]
        refine Scan.verdict_free hb hlink hfound ?_ ?_
        · intro hfull
          rw [hgo] at hfull
          cases hfull
        · intro _
          exact ih (hlo.trans (Nat.le_add_right ..)) hfollows.2.2
            (fun p hp => by rw [List.mem_singleton.mp hp]; exact ⟨rfl, by dsimp only; omega⟩) hroom

end Free

/-! ## Whole blocks -/

/-- The memory stands still and every read is answered in full. -/
def FullReads (mem : Memory) (read : ReadFn) : Prop :=
  ∀ k addr len, read k addr len = .bytes (bytesAt mem addr len)

section Blocks

variable {mem : Memory} {read : ReadFn} {r : Mapping} {bound a cursor : Nat} {s s' : Scan}

theorem FullReads.block {w w' : HeapWalker} {addr len : Nat} {b : Option (List UInt8)}
    (h : FullReads mem read) (hlen : 0 < len) (hb : w.readBlock read addr len = (w', b)) :
    b = some (bytesAt mem addr len) := by
  rw [HeapWalker.readBlock_bytes hlen (Nat.le_refl _) (h w.reads addr len)] at hb
  exact (Prod.mk.inj hb).2.symm

/-- Where the walk stops for want of bytes, it stops at the first header of the
chain that goes past the bound. -/
theorem follow_find (hlim : r.limit < 2 ^ 63) (hlo : r.start ≤ a) (hhi : a ≤ r.limit)
    (hbound : bound ≤ r.limit) (hb : a + 16 ≤ bound) {a' : Nat}
    (h : follow mem r bound a s = (s', some a')) :
    ∃ c, ((chain mem r.limit a).find? fun c => bound < c.1 + c.2 + 16) = some c ∧
      c.1 + c.2 = a' := by
  induction a, s using follow_induction mem r bound with
  | hdone a s hdone => exact absurd hb hdone
  | hstop a s s' _ hv =>
      rw [follow_stop hb hv] at h
      cases h
  | hnext a s s' size _ hv ih =>
      rw [follow_next hb hv] at h
      rcases Scan.visit_cases hv with ⟨-, -, hnext⟩ | ⟨-, -, -, hnext⟩ | ⟨-, hfollows, rfl, hnext⟩
      · cases hnext
      · cases hnext
      · obtain rfl := Option.some.inj hnext
        rw [follows_iff hlim hlo hhi] at hfollows
        rw [chain_cons (hb.trans hbound) hfollows]
        by_cases hpast : a + sizeOfField (fieldAt mem a) + 16 ≤ bound
        · rw [List.find?_cons_of_neg (by simpa using hpast)]
          exact ih (hlo.trans (Nat.le_add_right ..)) hfollows.2.2 hpast h
        · rw [List.find?_cons_of_pos (by simpa using hpast)]
          rw [follow_done hpast] at h
          obtain ⟨-, ha⟩ := Prod.mk.inj h
          exact ⟨_, rfl, Option.some.inj ha⟩

theorem le_blocksEnd (left : Nat) (h : cursor ≤ r.limit) :
    cursor ≤ blocksEnd mem r.limit left cursor := by
  induction left generalizing cursor with
  | zero => exact Nat.le_refl _
  | succ left ih =>
      unfold blocksEnd
      split
      · exact h
      · rename_i c hc
        obtain ⟨hlo, -, hhi⟩ := chain_ordered.2 c (List.mem_of_find?_eq_some hc)
        exact (hlo.trans (Nat.le_add_right ..)).trans (ih hhi)

/-- How far a header may reach to be read with `left` blocks from `cursor`. -/
def blocksBound (mem : Memory) (r : Mapping) (left cursor : Nat) : Nat :=
  min r.limit (blocksEnd mem r.limit left cursor + 15)

/-- The bytes of the next block are within that. -/
theorem le_blocksBound {left : Nat} (h : cursor + 16 ≤ r.limit) :
    cursor + min (r.limit - cursor) kWalkBlockBytes ≤ blocksBound mem r (left + 1) cursor := by
  refine le_min (by omega) ?_
  unfold blocksEnd
  split
  · omega
  · rename_i c hc
    have hpast := List.find?_some hc
    have := @le_blocksEnd mem r _ left (chain_ordered.2 c (List.mem_of_find?_eq_some hc)).2.2
    simp only [decide_eq_true_eq] at hpast
    omega

/-- Read in whole blocks, the walk finds free what it does as far as the
blocks last. -/
theorem walkBlocks_full (hread : FullReads mem read) (hlim : r.limit < 2 ^ 63) {left : Nat}
    {w : HeapWalker} (hlo : r.start ≤ cursor) (hhi : cursor ≤ r.limit) :
    (HeapWalker.walkBlocks read r left w cursor s).2.sum.freeBytes =
      (follow mem r (blocksBound mem r left cursor) cursor s).1.sum.freeBytes := by
  have hlen : ∀ {cursor : Nat}, cursor + 16 ≤ r.limit →
      16 ≤ min (r.limit - cursor) kWalkBlockBytes := fun h =>
    le_min (by omega) (by decide)
  induction left, w, cursor, s using HeapWalker.walkBlocks_induction read r with
  | hdone left w cursor s h =>
      have hb : ¬ cursor + 16 ≤ blocksBound mem r left cursor := fun hle =>
        h (hle.trans (Nat.min_le_left ..))
      rw [HeapWalker.walkBlocks_done h, follow_done hb]
  | hceiling w cursor s h =>
      have hb : ¬ cursor + 16 ≤ blocksBound mem r 0 cursor := fun hle => by
        have : cursor + 16 ≤ cursor + 15 := hle.trans (Nat.min_le_right ..)
        omega
      rw [HeapWalker.walkBlocks_ceiling h, follow_done hb]
  | hunread left w cursor s w' h hb =>
      have hsome := hread.block (Nat.lt_of_lt_of_le (by decide) (hlen h)) hb
      cases hsome
  | hended left w cursor s w' block s' h hb hl =>
      have hsome := hread.block (Nat.lt_of_lt_of_le (by decide) (hlen h)) hb
      obtain rfl := Option.some.inj hsome
      rw [HeapWalker.walkBlocks_ended h hb hl, follow_trans (le_blocksBound h), follow_of_block hl]
      rfl
  | hstuck left w cursor s w' block s' h hb hl =>
      have hsome := hread.block (Nat.lt_of_lt_of_le (by decide) (hlen h)) hb
      obtain rfl := Option.some.inj hsome
      have hpast : cursor + min (r.limit - cursor) kWalkBlockBytes < cursor + 0 + 16 :=
        (follow_some (follow_of_block hl)).2
      have := hlen h
      omega
  | hnext left w cursor s w' block s' off h hb hl hoff ih =>
      have hsome := hread.block (Nat.lt_of_lt_of_le (by decide) (hlen h)) hb
      obtain rfl := Option.some.inj hsome
      have hfol : follow mem r (cursor + min (r.limit - cursor) kWalkBlockBytes) cursor s =
          (s', some (cursor + off)) := follow_of_block hl
      obtain ⟨c, hfind, hc⟩ := follow_find hlim hlo hhi (by omega)
        (Nat.add_le_add_left (hlen h) cursor) hfol
      have hmem := (chain_ordered.2 c (List.mem_of_find?_eq_some hfind)).2.2
      have hbound :
          blocksBound mem r (left + 1) cursor = blocksBound mem r left (cursor + off) := by
        rw [blocksBound, blocksEnd, hfind]
        dsimp only
        rw [hc]
        rfl
      rw [HeapWalker.walkBlocks_next h hb hl hoff, follow_trans (le_blocksBound h), hfol, hbound]
      exact ih (hlo.trans (Nat.le_add_right ..)) (hc ▸ hmem)

end Blocks

/-! ## Regions -/

section Regions

variable {mem : Memory} {read : ReadFn} {r : Mapping}

/-- A region adds nothing to `free_bytes` exactly when none of its chunks is
judged free. -/
theorem walkRegion_free (hread : FullReads mem read) (hr : r.Low) (w : HeapWalker)
    (out : List WalkedChunk) (sum : WalkResult) :
    sum.freeBytes ≤ (w.walkRegion read r out sum).2.1.sum.freeBytes ∧
      ((w.walkRegion read r out sum).2.1.sum.freeBytes = sum.freeBytes ↔ NoneFree mem r) := by
  by_cases hsmall : r.limit ≤ r.start ∨ r.limit - r.start < kWalkMinChunk
  · have hspan : r.limit - r.start < kWalkMinChunk := by
      unfold kWalkMinChunk at hsmall ⊢
      omega
    rw [HeapWalker.walkRegion_small hsmall]
    refine ⟨Nat.le_refl _, iff_of_true rfl fun off hoff => ?_⟩
    rw [findChainStart_small hspan] at hoff
    cases hoff
  · have hpos : 0 < min (r.limit - r.start) kWalkBlockBytes := lt_min (by omega) (by decide)
    have hb := HeapWalker.readBlock_bytes hpos (Nat.le_refl _) (hread w.reads r.start _)
    cases hstart : findChainStart (bytesAt mem r.start (min (r.limit - r.start) kWalkBlockBytes))
        (r.limit - r.start) with
    | none =>
        rw [HeapWalker.walkRegion_unchained hsmall hb hstart]
        refine ⟨Nat.le_refl _, iff_of_true rfl fun off hoff => ?_⟩
        rw [hstart] at hoff
        cases hoff
    | some off =>
        have hoff := findChainStart_le hstart
        rw [length_bytesAt] at hoff
        rw [HeapWalker.walkRegion_chained hsmall hb hstart]
        dsimp only
        rw [walkBlocks_full hread hr.2 (Nat.le_add_right ..) (by omega)]
        obtain ⟨hle, hiff⟩ := @follow_free mem r
          (blocksBound mem r kMaxBlocksPerRegion (r.start + off)) (r.start + off)
          ⟨0, none, out, sum⟩ hr.2 (Nat.le_add_right ..) (by omega)
          (fun p hp => absurd hp List.not_mem_nil) (Nat.min_le_left ..)
          (show 0 < kMaxChunksPerRegion by decide)
        refine ⟨hle, hiff.trans ?_⟩
        rw [NoneFree]
        simp only [hstart, Option.some.injEq, forall_eq']
        refine forall_congr' fun c => forall_congr' ?_
        intro _
        rw [blocksBound]
        constructor
        · intro h hlt hle
          exact h (le_min hle (by omega))
        · intro h hle
          exact h (by omega) (by omega)

/-- The same for a list of regions. -/
theorem walkRegions_free (hread : FullReads mem read) {rs : List Mapping} {w : HeapWalker}
    {out : List WalkedChunk} {sum : WalkResult} (hlow : ∀ r ∈ rs, r.Low)
    (hok : (HeapWalker.walkRegions read rs w out sum).2.2.status = .ok) :
    sum.freeBytes ≤ (HeapWalker.walkRegions read rs w out sum).2.2.freeBytes ∧
      ((HeapWalker.walkRegions read rs w out sum).2.2.freeBytes = sum.freeBytes ↔
        ∀ r ∈ rs, r.walkable = true → NoneFree mem r) := by
  induction rs generalizing w out sum with
  | nil => exact ⟨Nat.le_refl _, iff_of_true rfl fun r hr => absurd hr List.not_mem_nil⟩
  | cons r rs ih =>
      have hlow' : ∀ r' ∈ rs, r'.Low := fun r' hr' => hlow r' (List.mem_cons_of_mem _ hr')
      rw [List.forall_mem_cons]
      cases hwalk : r.walkable with
      | false =>
          rw [HeapWalker.walkRegions_skip hwalk] at hok ⊢
          obtain ⟨hle, hiff⟩ := ih hlow' hok
          exact ⟨hle, hiff.trans ⟨fun h => ⟨fun h' => (by cases h'), h⟩, And.right⟩⟩
      | true =>
          obtain ⟨hle₁, hiff₁⟩ :=
            walkRegion_free hread (hlow r List.mem_cons_self) w out sum
          have hnext := HeapWalker.walkRegions_next hwalk hok
          rw [hnext] at hok ⊢
          obtain ⟨hle₂, hiff₂⟩ := ih hlow' hok
          have hafter : (w.afterRegion read r out sum).freeBytes =
              (w.walkRegion read r out sum).2.1.sum.freeBytes := rfl
          rw [hafter] at hle₂ hiff₂
          refine ⟨hle₁.trans hle₂, ?_⟩
          rw [← hiff₂]
          constructor
          · intro h
            exact ⟨fun _ => hiff₁.mp (by omega), by omega⟩
          · rintro ⟨h₁, h₂⟩
            rw [h₂, hiff₁.mpr (h₁ rfl)]

end Regions

/-! ## Every byte once -/

/-- **The bytes of free chunks are counted twice.** Over disjoint regions of a
memory that can be read and stands still, a walk that ends well accounts
for every byte of the regions it looked at once - emitted, free or opaque -
exactly when in none of them a chunk is judged free: one of the first
`kMaxChunksPerRegion` of the chain whose successor's header lies in the
region, before the blocks run out, and has no `PREV_INUSE`. -/
theorem bytes_once_iff (mem : Memory) (read : ReadFn) (regions : List Mapping) (w : HeapWalker)
    (hread : FullReads mem read) (hlow : ∀ r ∈ regions, r.Low)
    (hdisj : regions.Pairwise Mapping.Disjoint)
    (hok : (w.walk read regions).2.2.status = .ok) :
    walkableBytes regions =
        ((w.walk read regions).2.1.map WalkedChunk.chunkSize).sum +
          (w.walk read regions).2.2.freeBytes + (w.walk read regions).2.2.opaqueBytes ↔
      ∀ r ∈ regions, r.walkable = true → NoneFree mem r := by
  obtain ⟨-, -, hbytes⟩ := HeapWalker.walk_out hlow hdisj hok
  have hwalk := HeapWalker.walk_ok hok
  rw [hwalk] at hok hbytes ⊢
  obtain ⟨-, hiff⟩ := walkRegions_free hread hlow hok
  have hzero : WalkResult.init.freeBytes = 0 := rfl
  rw [hzero] at hiff
  rw [← hiff]
  omega

/-- Chunks of 32 bytes, all of them used. -/
def usedChunks : Memory := fun a => if a % 32 = 8 then 0x21 else 0

def fullReads (mem : Memory) : ReadFn := fun _ addr len => .bytes (bytesAt mem addr len)

theorem bytes_once_iff_used :
    walkableBytes [smallHeap] =
      ((HeapWalker.init.walk (fullReads usedChunks) [smallHeap]).2.1.map
          WalkedChunk.chunkSize).sum +
        (HeapWalker.init.walk (fullReads usedChunks) [smallHeap]).2.2.freeBytes +
        (HeapWalker.init.walk (fullReads usedChunks) [smallHeap]).2.2.opaqueBytes := by
  refine (bytes_once_iff usedChunks (fullReads usedChunks) [smallHeap] HeapWalker.init
    (fun _ _ _ => rfl) ?_ (List.pairwise_singleton _ _) (by decide +kernel)).mpr ?_
  · intro r hr
    rw [List.mem_singleton.mp hr]
    exact ⟨by decide, by decide⟩
  · intro r hr _ off hoff
    rw [List.mem_singleton.mp hr] at hoff ⊢
    have hstart : findChainStart (bytesAt usedChunks smallHeap.start
        (min (smallHeap.limit - smallHeap.start) kWalkBlockBytes))
        (smallHeap.limit - smallHeap.start) = some 0 := by decide +kernel
    obtain rfl := Option.some.inj (hstart.symm.trans hoff)
    have hused : ∀ c ∈ (chain usedChunks smallHeap.limit (smallHeap.start + 0)).take
        kMaxChunksPerRegion, prevInUse (fieldAt usedChunks (c.1 + c.2)) = true := by
      decide +kernel
    exact fun c hc _ _ => hused c hc

/-- With the third chunk free, its 32 bytes are in two figures. -/
theorem free_counted_twice :
    FullReads smallChunks (fullReads smallChunks) ∧ smallHeap.Low ∧
      (HeapWalker.init.walk (fullReads smallChunks) [smallHeap]).2.2.status = .ok ∧
      walkableBytes [smallHeap] ≠
        ((HeapWalker.init.walk (fullReads smallChunks) [smallHeap]).2.1.map
            WalkedChunk.chunkSize).sum +
          (HeapWalker.init.walk (fullReads smallChunks) [smallHeap]).2.2.freeBytes +
          (HeapWalker.init.walk (fullReads smallChunks) [smallHeap]).2.2.opaqueBytes :=
  ⟨fun _ _ _ => rfl, ⟨by decide, by decide⟩, by decide +kernel, by decide +kernel⟩

end Heapviz
