import Heapviz.HeapWalker

/-!
# Blocks do not show

The plain reading of a chunk chain: from a header to the next, each where
the one before says, until one makes no sense (`chain`). A chunk of it is
in use when the header behind it, if the region has one, says so.

The walk reads blocks instead, of lengths it does not choose. `follow` is
what lies between the two: the walk's own step from header to header, on
memory instead of a block, as far as headers end before a bound. A block
is one `follow` up to where its bytes end; two in a row are one up to the
further bound (`follow_trans`); and one up to the end of the region is
the plain chain (`follow_emits`). No block boundary is left in it.
-/

namespace Heapviz

/-! ## Memory -/

abbrev Memory := Nat → UInt8

def bytesAt (mem : Memory) (addr n : Nat) : List UInt8 := (List.range' addr n).map mem

/-- The size field of the header at an address. -/
def fieldAt (mem : Memory) (a : Nat) : Nat := leWord (bytesAt mem (a + 8) 8)

theorem length_bytesAt (mem : Memory) (addr n : Nat) : (bytesAt mem addr n).length = n := by
  rw [bytesAt, List.length_map, List.length_range']

theorem sizeField_bytesAt {mem : Memory} {addr n off : Nat} (h : off + 16 ≤ n) :
    sizeField (bytesAt mem addr n) off = fieldAt mem (addr + off) := by
  have hsplit : n = (off + 8) + (8 + (n - (off + 16))) := by omega
  have hdrop : (bytesAt mem addr n).drop (off + 8) =
      bytesAt mem (addr + off + 8) (8 + (n - (off + 16))) := by
    conv_lhs => rw [hsplit]
    rw [bytesAt, ← List.range'_append_1, List.map_append,
      List.drop_left' (by rw [List.length_map, List.length_range']), ← Nat.add_assoc]
    rfl
  have htake : (bytesAt mem (addr + off + 8) (8 + (n - (off + 16)))).take 8 =
      bytesAt mem (addr + off + 8) 8 := by
    rw [bytesAt, ← List.range'_append_1, List.map_append,
      List.take_left' (by rw [List.length_map, List.length_range'])]
    rfl
  rw [sizeField, hdrop, htake, fieldAt]

/-! ## The plain chain -/

/-- A header at `a` can be followed in a region that ends at `limit`. -/
def HeaderSound (mem : Memory) (limit a : Nat) : Prop :=
  kWalkMinChunk ≤ sizeOfField (fieldAt mem a) ∧ sizeOfField (fieldAt mem a) % kWalkAlign = 0 ∧
    a + sizeOfField (fieldAt mem a) ≤ limit

instance (mem : Memory) (limit a : Nat) : Decidable (HeaderSound mem limit a) :=
  inferInstanceAs (Decidable (_ ∧ _ ∧ _))

/-- The chunks from `a` on, each with its address and size. -/
def chain (mem : Memory) (limit a : Nat) : List (Nat × Nat) :=
  if a + 16 ≤ limit ∧ HeaderSound mem limit a then
    (a, sizeOfField (fieldAt mem a)) :: chain mem limit (a + sizeOfField (fieldAt mem a))
  else []
termination_by limit - a
decreasing_by
  rename_i h
  have := h.2.1
  unfold kWalkMinChunk at this
  omega

/-- The header behind the chunk lies in the region and says that it is used. -/
def chunkInUse (mem : Memory) (limit : Nat) (c : Nat × Nat) : Bool :=
  c.1 + c.2 + 16 ≤ limit && prevInUse (fieldAt mem (c.1 + c.2))

/-- The chunks in use, header by header. -/
def naiveWalk (mem : Memory) (limit a : Nat) : List WalkedChunk :=
  ((chain mem limit a).filter (chunkInUse mem limit)).map fun c => walkedAt c.1 c.2

/-- The same for a region, from where the probe finds the chain. -/
def naiveRegion (mem : Memory) (r : Mapping) : List WalkedChunk :=
  match findChainStart (bytesAt mem r.start (min (r.limit - r.start) kWalkBlockBytes))
    (r.limit - r.start) with
  | none => []
  | some off => naiveWalk mem r.limit (r.start + off)

section Chain

variable {mem : Memory} {limit a : Nat}

theorem chain_cons (h : a + 16 ≤ limit) (hs : HeaderSound mem limit a) :
    chain mem limit a =
      (a, sizeOfField (fieldAt mem a)) :: chain mem limit (a + sizeOfField (fieldAt mem a)) := by
  rw [chain, if_pos ⟨h, hs⟩]

theorem chain_nil (h : ¬ (a + 16 ≤ limit ∧ HeaderSound mem limit a)) : chain mem limit a = [] := by
  rw [chain, if_neg h]

/-- The chunks lie behind each other in the region. -/
theorem chain_ordered :
    (chain mem limit a).Pairwise (fun c d => c.1 + c.2 ≤ d.1) ∧
      ∀ c ∈ chain mem limit a, a ≤ c.1 ∧ kWalkMinChunk ≤ c.2 ∧ c.1 + c.2 ≤ limit := by
  induction a using chain.induct mem limit with
  | case1 a h ih =>
      obtain ⟨hpair, hmem⟩ := ih
      rw [chain_cons h.1 h.2]
      refine ⟨List.pairwise_cons.mpr ⟨fun d hd => (hmem d hd).1, hpair⟩, fun c hc => ?_⟩
      rcases List.mem_cons.mp hc with rfl | hc
      · exact ⟨Nat.le_refl _, h.2.1, h.2.2.2⟩
      · obtain ⟨hle, hrest⟩ := hmem c hc
        exact ⟨(Nat.le_add_right ..).trans hle, hrest⟩
  | case2 a h =>
      rw [chain_nil h]
      exact ⟨.nil, fun c hc => absurd hc List.not_mem_nil⟩

end Chain

/-! ## The walk on memory -/

/-- The walk's steps on memory, for the headers that end by `bound`; then
where it stands, unless the chain ended. -/
def follow (mem : Memory) (r : Mapping) (bound a : Nat) (s : Scan) : Scan × Option Nat :=
  if a + 16 ≤ bound then
    match _h : s.visit r a (fieldAt mem a) with
    | (s', none) => (s', none)
    | (s', some size) => follow mem r bound (a + size) s'
  else (s, some a)
termination_by bound - a
decreasing_by
  have := Scan.visit_some _h
  unfold kWalkMinChunk at this
  omega

section Follow

variable {mem : Memory} {r : Mapping} {bound a : Nat} {s s' : Scan}

theorem follow_done (h : ¬ a + 16 ≤ bound) : follow mem r bound a s = (s, some a) := by
  rw [follow, if_neg h]

theorem follow_stop (h : a + 16 ≤ bound) (hv : s.visit r a (fieldAt mem a) = (s', none)) :
    follow mem r bound a s = (s', none) := by
  rw [follow, if_pos h]
  split
  · rename_i heq
    rw [← heq, hv]
  · rename_i heq
    rw [hv] at heq
    cases heq

theorem follow_next {size : Nat} (h : a + 16 ≤ bound)
    (hv : s.visit r a (fieldAt mem a) = (s', some size)) :
    follow mem r bound a s = follow mem r bound (a + size) s' := by
  rw [follow, if_pos h]
  split
  · rename_i heq
    rw [hv] at heq
    cases heq
  · rename_i heq
    rw [hv] at heq
    obtain ⟨rfl, hsize⟩ := Prod.mk.inj heq
    obtain rfl := Option.some.inj hsize
    rfl

/-- Induction along the headers, in the terms of the three equations. -/
theorem follow_induction (mem : Memory) (r : Mapping) (bound : Nat) {P : Nat → Scan → Prop}
    (hdone : ∀ a s, ¬ a + 16 ≤ bound → P a s)
    (hstop : ∀ a s s', a + 16 ≤ bound → s.visit r a (fieldAt mem a) = (s', none) → P a s)
    (hnext : ∀ a s s' size, a + 16 ≤ bound → s.visit r a (fieldAt mem a) = (s', some size) →
      P (a + size) s' → P a s) (a : Nat) (s : Scan) : P a s := by
  induction a, s using follow.induct mem r bound with
  | case1 a s h s' hv => exact hstop a s s' h hv
  | case2 a s h s' size hv ih => exact hnext a s s' size h hv ih
  | case3 a s h => exact hdone a s h

theorem follow_some {a' : Nat} (h : follow mem r bound a s = (s', some a')) :
    a ≤ a' ∧ bound < a' + 16 := by
  revert h
  induction a, s using follow_induction mem r bound with
  | hdone a s hb =>
      rw [follow_done hb]
      intro h
      obtain ⟨-, ha⟩ := Prod.mk.inj h
      obtain rfl := Option.some.inj ha
      exact ⟨Nat.le_refl _, by omega⟩
  | hstop a s s' hb hv =>
      rw [follow_stop hb hv]
      intro h
      cases h
  | hnext a s s' size hb hv ih =>
      rw [follow_next hb hv]
      intro h
      obtain ⟨hle, hlt⟩ := ih h
      exact ⟨(Nat.le_add_right ..).trans hle, hlt⟩

/-- Up to one bound and then up to a further one is up to the further one. -/
theorem follow_trans {bound' : Nat} (hb : bound ≤ bound') :
    follow mem r bound' a s =
      match follow mem r bound a s with
      | (s', none) => (s', none)
      | (s', some a') => follow mem r bound' a' s' := by
  induction a, s using follow_induction mem r bound with
  | hdone a s h => rw [follow_done h]
  | hstop a s s' h hv => rw [follow_stop h hv, follow_stop (h.trans hb) hv]
  | hnext a s s' size h hv ih => rw [follow_next h hv, follow_next (h.trans hb) hv, ih]

/-- A block is the walk on memory up to where its bytes end. -/
theorem follow_block {cursor n off : Nat} :
    follow mem r (cursor + n) (cursor + off) s =
      Prod.map id (Option.map (cursor + ·)) (blockLoop r (bytesAt mem cursor n) cursor off s) := by
  have hlen := length_bytesAt mem cursor n
  induction off, s using blockLoop_induction r (bytesAt mem cursor n) cursor with
  | hdone off s h =>
      rw [follow_done (by omega), blockLoop_done h]
      rfl
  | hstop off s s' h hv =>
      have hv' := hv
      rw [sizeField_bytesAt (by omega)] at hv'
      rw [follow_stop (by omega) hv', blockLoop_stop h hv]
      rfl
  | hnext off s s' size h hv ih =>
      have hv' := hv
      rw [sizeField_bytesAt (by omega)] at hv'
      rw [follow_next (by omega) hv', blockLoop_next h hv, Nat.add_assoc, ih]

theorem follow_of_block {cursor n : Nat} {next : Option Nat}
    (h : blockLoop r (bytesAt mem cursor n) cursor 0 s = (s', next)) :
    follow mem r (cursor + n) cursor s = (s', next.map (cursor + ·)) := by
  have hblock := @follow_block mem r s cursor n 0
  rwa [h] at hblock

/-! ## Up to the end of the region -/

/-- In a region below `2 ^ 63` no sum wraps unnoticed. -/
theorem follows_iff (hlim : r.limit < 2 ^ 63) (hlo : r.start ≤ a) (hhi : a ≤ r.limit) :
    Scan.Follows r a (sizeOfField (fieldAt mem a)) ↔ HeaderSound mem r.limit a := by
  unfold Scan.Follows HeaderSound add64
  omega

/-- The header at `a` gives the verdict the plain chain asks for. -/
theorem pending_inUse (hlink : ∀ p ∈ s.pending, p.1 + p.2 = a) (h : a + 16 ≤ bound) :
    (s.pending.filter fun _ => prevInUse (fieldAt mem a)) =
      s.pending.filter (chunkInUse mem bound) := by
  refine List.filter_congr ?_
  intro p hp
  rw [chunkInUse, hlink p hp, decide_eq_true h, Bool.true_and]

theorem pending_last (hlink : ∀ p ∈ s.pending, p.1 + p.2 = a) (h : ¬ a + 16 ≤ bound) :
    s.pending.filter (chunkInUse mem bound) = [] := by
  refine List.filter_eq_nil_iff.mpr ?_
  intro p hp
  rw [chunkInUse, hlink p hp, decide_eq_false h, Bool.false_and]
  exact Bool.false_ne_true

/-- Followed to the end of the region, unless there are too many, the walk
emits what the plain chain has in use. -/
theorem follow_emits (hlim : r.limit < 2 ^ 63) (hlo : r.start ≤ a) (hhi : a ≤ r.limit)
    (hlink : ∀ p ∈ s.pending, p.1 + p.2 = a)
    (ht : (follow mem r r.limit a s).1.sum.truncated = false) :
    (follow mem r r.limit a s).1.out = s.out ++
        ((s.pending ++ chain mem r.limit a).filter (chunkInUse mem r.limit)).map
          (fun c => walkedAt c.1 c.2) ∧
      (follow mem r r.limit a s).1.found = s.found +
        ((s.pending ++ chain mem r.limit a).filter (chunkInUse mem r.limit)).length := by
  induction a, s using follow_induction mem r r.limit with
  | hdone a s hb =>
      rw [follow_done hb, chain_nil fun h => hb h.1, List.append_nil, pending_last hlink hb]
      exact ⟨(List.append_nil _).symm, rfl⟩
  | hstop a s s' hb hv =>
      rw [follow_stop hb hv] at ht ⊢
      obtain ⟨hout, hfound, -⟩ := s.verdict_out (prevInUse (fieldAt mem a))
      rw [pending_inUse hlink hb] at hout hfound
      rcases Scan.visit_cases hv with ⟨hfull, rfl, -⟩ | ⟨-, hfollows, rfl, -⟩ | ⟨-, -, -, hnext⟩
      · rw [((s.verdict_full _).2 hfull).1] at ht
        cases ht
      · rw [follows_iff hlim hlo hhi] at hfollows
        rw [chain_nil fun h => hfollows h.2, List.append_nil]
        exact ⟨hout, hfound⟩
      · cases hnext
  | hnext a s s' size hb hv ih =>
      rw [follow_next hb hv] at ht ⊢
      obtain ⟨hout, hfound, -⟩ := s.verdict_out (prevInUse (fieldAt mem a))
      rw [pending_inUse hlink hb] at hout hfound
      rcases Scan.visit_cases hv with ⟨-, -, hnext⟩ | ⟨-, -, -, hnext⟩ | ⟨-, hfollows, rfl, hnext⟩
      · cases hnext
      · cases hnext
      · obtain rfl := Option.some.inj hnext
        rw [follows_iff hlim hlo hhi] at hfollows
        obtain ⟨hout', hfound'⟩ := ih (hlo.trans (Nat.le_add_right ..)) hfollows.2.2
          (fun p hp => by rw [List.mem_singleton.mp hp]) ht
        dsimp only [Scan.pending, Option.toList_some] at hout' hfound'
        rw [hout', hfound', hout, hfound, chain_cons hb hfollows, List.append_assoc, Nat.add_assoc,
          ← List.map_append, ← List.length_append, ← List.filter_append]
        exact ⟨rfl, rfl⟩

end Follow

/-! ## Block by block -/

/-- The probe of the region, the `k`-th read, is delivered in full, and every
later read in it at least a header of what it asked for. -/
structure Delivers (mem : Memory) (read : ReadFn) (r : Mapping) (k : Nat) : Prop where
  probe : read k r.start (min (r.limit - r.start) kWalkBlockBytes) =
    .bytes (bytesAt mem r.start (min (r.limit - r.start) kWalkBlockBytes))
  later : ∀ j addr len, k < j → 0 < len → r.start ≤ addr → addr + len ≤ r.limit →
    ∃ n, 0 < n ∧ min 16 len ≤ n ∧ n ≤ len ∧ read j addr len = .bytes (bytesAt mem addr n)

section Blocks

variable {mem : Memory} {read : ReadFn} {r : Mapping}

theorem HeapWalker.readBlock_bytes {w : HeapWalker} {addr len n : Nat} (hpos : 0 < n)
    (hle : n ≤ len) (h : read w.reads addr len = .bytes (bytesAt mem addr n)) :
    w.readBlock read addr len = ({ w with reads := w.reads + 1 }, some (bytesAt mem addr n)) := by
  have htake : (bytesAt mem addr n).take len = bytesAt mem addr n :=
    List.take_of_length_le (by rwa [length_bytesAt])
  have hne : bytesAt mem addr n ≠ [] := fun hnil => by
    have := length_bytesAt mem addr n
    rw [hnil, List.length_nil] at this
    omega
  unfold HeapWalker.readBlock
  rw [h]
  dsimp only
  rw [htake, if_neg hne]

/-- From the `k`-th read on, every read of a header and more of the region
delivers one. -/
def Serves (mem : Memory) (read : ReadFn) (r : Mapping) (k : Nat) : Prop :=
  ∀ j addr len, k ≤ j → 16 ≤ len → r.start ≤ addr → addr + len ≤ r.limit →
    ∃ n, 16 ≤ n ∧ n ≤ len ∧ read j addr len = .bytes (bytesAt mem addr n)

theorem Serves.block {w w' : HeapWalker} {cursor : Nat} {b : Option (List UInt8)}
    (hread : Serves mem read r w.reads) (hlo : r.start ≤ cursor) (h : cursor + 16 ≤ r.limit)
    (hb : w.readBlock read cursor (min (r.limit - cursor) kWalkBlockBytes) = (w', b)) :
    ∃ n, 16 ≤ n ∧ cursor + n ≤ r.limit ∧ b = some (bytesAt mem cursor n) ∧
      Serves mem read r w'.reads := by
  have hlen : 16 ≤ min (r.limit - cursor) kWalkBlockBytes :=
    le_min (by omega) (by decide)
  obtain ⟨n, hn, hle, hn'⟩ := hread w.reads cursor _ (Nat.le_refl _) hlen hlo (by omega)
  rw [HeapWalker.readBlock_bytes (by omega) hle hn'] at hb
  obtain ⟨rfl, rfl⟩ := Prod.mk.inj hb
  exact ⟨n, hn, by omega, rfl, fun j addr len hj => hread j addr len (by dsimp only at hj; omega)⟩

/-- Short of the ceilings, the blocks together are the walk on memory to the
end of the region. -/
theorem walkBlocks_follow {left cursor : Nat} {w : HeapWalker} {s : Scan}
    (hread : Serves mem read r w.reads) (hlo : r.start ≤ cursor)
    (ht : (HeapWalker.walkBlocks read r left w cursor s).2.sum.truncated = false) :
    (HeapWalker.walkBlocks read r left w cursor s).2 = (follow mem r r.limit cursor s).1 := by
  induction left, w, cursor, s using HeapWalker.walkBlocks_induction read r with
  | hdone left w cursor s h => rw [HeapWalker.walkBlocks_done h, follow_done h]
  | hceiling w cursor s h =>
      rw [HeapWalker.walkBlocks_ceiling h] at ht
      cases ht
  | hunread left w cursor s w' h hb =>
      obtain ⟨n, -, -, hnone, -⟩ := hread.block hlo h hb
      cases hnone
  | hended left w cursor s w' block s' h hb hl =>
      obtain ⟨n, -, hle, hsome, -⟩ := hread.block hlo h hb
      obtain rfl := Option.some.inj hsome
      rw [HeapWalker.walkBlocks_ended h hb hl, follow_trans hle, follow_of_block hl]
      rfl
  | hstuck left w cursor s w' block s' h hb hl =>
      -- a block holds a header, and its chunk is not empty
      obtain ⟨n, hn, -, hsome, -⟩ := hread.block hlo h hb
      obtain rfl := Option.some.inj hsome
      have hpast : cursor + n < cursor + 0 + 16 := (follow_some (follow_of_block hl)).2
      omega
  | hnext left w cursor s w' block s' off h hb hl hoff ih =>
      obtain ⟨n, -, hle, hsome, hread'⟩ := hread.block hlo h hb
      obtain rfl := Option.some.inj hsome
      rw [HeapWalker.walkBlocks_next h hb hl hoff] at ht ⊢
      rw [ih hread' (hlo.trans (Nat.le_add_right ..)) ht, @follow_trans mem r _ cursor s _ hle,
        follow_of_block hl]
      rfl

end Blocks

/-! ## A region -/

section Region

variable {mem : Memory} {read : ReadFn} {r : Mapping}

/-- In less than the smallest chunk no chain begins. -/
theorem findChainStart_small {block : List UInt8} {span : Nat} (h : span < kWalkMinChunk) :
    findChainStart block span = none := by
  have hscore : ∀ rounds off, scoreChain block span rounds off = 0 := by
    intro rounds off
    cases rounds with
    | zero => rfl
    | succ rounds =>
        unfold scoreChain
        dsimp only
        split_ifs with hoff hsize
        · rfl
        · omega
        · rfl
  have hprobe : ∀ candidates off, probeLoop block span candidates off 0 0 = (0, 0) := by
    intro candidates
    induction candidates with
    | zero => exact fun off => rfl
    | succ candidates ih =>
        intro off
        unfold probeLoop
        dsimp only
        rw [hscore, if_neg (Nat.lt_irrefl 0)]
        exact ih _
  unfold findChainStart
  dsimp only
  rw [hprobe]
  rfl

theorem naiveWalk_ordered (limit a : Nat) :
    (naiveWalk mem limit a).Pairwise
        (fun c d => c.userPtr - 16 + c.chunkSize ≤ d.userPtr - 16) ∧
      ∀ c ∈ naiveWalk mem limit a,
        a + 16 ≤ c.userPtr ∧ kWalkMinChunk ≤ c.chunkSize ∧
          c.userPtr - 16 + c.chunkSize ≤ limit := by
  obtain ⟨hpair, hmem⟩ := @chain_ordered mem limit a
  refine ⟨List.pairwise_map.mpr ((hpair.filter _).imp ?_), ?_⟩
  · intro c d h
    simpa [walkedAt] using h
  · intro c hc
    obtain ⟨p, hp, rfl⟩ := List.mem_map.mp hc
    obtain ⟨hlo, hsize, hhi⟩ := hmem p (List.mem_filter.mp hp).1
    refine ⟨Nat.add_le_add_right hlo 16, hsize, ?_⟩
    simpa [walkedAt] using hhi

/-- Where the probe finds a chain, the region's chunks are that chain's. -/
theorem walkRegion_chain {w w' : HeapWalker} {off : Nat} {block : List UInt8}
    {out : List WalkedChunk} {sum : WalkResult} (hlim : r.limit < 2 ^ 63)
    (hserves : Serves mem read r w'.reads)
    (hsize : ¬ (r.limit ≤ r.start ∨ r.limit - r.start < kWalkMinChunk))
    (hb : w.readBlock read r.start (min (r.limit - r.start) kWalkBlockBytes) = (w', some block))
    (hstart : findChainStart block (r.limit - r.start) = some off)
    (hoff : r.start + off ≤ r.limit)
    (hceil : (w.walkRegion read r out sum).2.1.sum.truncated = false) :
    (w.walkRegion read r out sum).2.1.out = out ++ naiveWalk mem r.limit (r.start + off) ∧
      ((w.walkRegion read r out sum).2.2 = true ↔ naiveWalk mem r.limit (r.start + off) ≠ []) := by
  rw [HeapWalker.walkRegion_chained hsize hb hstart] at hceil ⊢
  dsimp only at hceil ⊢
  have hfol := walkBlocks_follow hserves (Nat.le_add_right ..) hceil
  rw [hfol] at hceil ⊢
  obtain ⟨hout, hfound⟩ := follow_emits hlim (Nat.le_add_right ..) hoff
    (fun p hp => absurd hp List.not_mem_nil) hceil
  refine ⟨hout, ?_⟩
  rw [decide_eq_true_iff, hfound]
  dsimp only [Scan.pending, Option.toList_none, List.nil_append]
  rw [Nat.zero_add, List.length_pos_iff]
  exact (not_congr List.map_eq_nil_iff).symm

theorem walkRegion_emits {w : HeapWalker} {out : List WalkedChunk} {sum : WalkResult}
    (hlim : r.limit < 2 ^ 63) (hread : Delivers mem read r w.reads)
    (hceil : (w.walkRegion read r out sum).2.1.sum.truncated = false) :
    (w.walkRegion read r out sum).2.1.out = out ++ naiveRegion mem r ∧
      ((w.walkRegion read r out sum).2.2 = true ↔ naiveRegion mem r ≠ []) := by
  by_cases hsmall : r.limit ≤ r.start ∨ r.limit - r.start < kWalkMinChunk
  · have hspan : r.limit - r.start < kWalkMinChunk := by
      unfold kWalkMinChunk at hsmall ⊢
      omega
    rw [HeapWalker.walkRegion_small hsmall, naiveRegion, findChainStart_small hspan]
    simp
  · have hpos : 0 < min (r.limit - r.start) kWalkBlockBytes := lt_min (by omega) (by decide)
    have hb := HeapWalker.readBlock_bytes hpos (Nat.le_refl _) hread.probe
    unfold naiveRegion
    cases hstart : findChainStart (bytesAt mem r.start (min (r.limit - r.start) kWalkBlockBytes))
        (r.limit - r.start) with
    | none =>
        rw [HeapWalker.walkRegion_unchained hsmall hb hstart]
        simp
    | some off =>
        have hoff := findChainStart_le hstart
        rw [length_bytesAt] at hoff
        refine walkRegion_chain hlim (fun j addr len hj hlen hlo hhi => ?_) hsmall hb hstart
          (by omega) hceil
        obtain ⟨n, -, hmin, hle, hn⟩ := hread.later j addr len hj (by omega) hlo hhi
        exact ⟨n, by omega, hle, hn⟩

theorem naiveRegion_ordered (mem : Memory) (r : Mapping) :
    (naiveRegion mem r).Pairwise (fun c d => c.userPtr - 16 + c.chunkSize ≤ d.userPtr - 16) ∧
      ∀ c ∈ naiveRegion mem r,
        r.start + 16 ≤ c.userPtr ∧ c.userPtr - 16 + c.chunkSize ≤ r.limit := by
  unfold naiveRegion
  split
  · exact ⟨.nil, fun c hc => absurd hc List.not_mem_nil⟩
  · refine ⟨(naiveWalk_ordered _ _).1, fun c hc => ?_⟩
    obtain ⟨hlo, -, hhi⟩ := (naiveWalk_ordered _ _).2 c hc
    exact ⟨by omega, hhi⟩

/-- **Blocks do not show.** Whatever lengths the reads of a walk deliver, as
long as each delivers a header: short of the ceilings the walk emits the
chunks that the plain chain has in use, in ascending order, disjoint and
inside the region. It ends within a fixed number of reads. -/
theorem walkRegion_eq_naive (mem : Memory) (read : ReadFn) (r : Mapping) (w : HeapWalker)
    (out : List WalkedChunk) (sum : WalkResult) (hlim : r.limit < 2 ^ 63)
    (hread : Delivers mem read r w.reads)
    (hceil : (w.walkRegion read r out sum).2.1.sum.truncated = false) :
    (w.walkRegion read r out sum).2.1.out = out ++ naiveRegion mem r ∧
      ((w.walkRegion read r out sum).2.2 = true ↔ naiveRegion mem r ≠ []) ∧
      (naiveRegion mem r).Pairwise
        (fun c d => c.userPtr - 16 + c.chunkSize ≤ d.userPtr - 16) ∧
      (∀ c ∈ naiveRegion mem r,
        r.start + 16 ≤ c.userPtr ∧ c.userPtr - 16 + c.chunkSize ≤ r.limit) ∧
      (w.walkRegion read r out sum).1.reads ≤ w.reads + 1 + kMaxBlocksPerRegion := by
  obtain ⟨hout, hchained⟩ := walkRegion_emits hlim hread hceil
  obtain ⟨hordered, hinside⟩ := naiveRegion_ordered mem r
  exact ⟨hout, hchained, hordered, hinside, w.walkRegion_reads read r out sum⟩

end Region

/-- Chunks of 32 bytes, the third of them free. -/
def smallChunks : Memory := fun a => if a % 32 = 8 then if a = 4200 then 0x20 else 0x21 else 0

/-- The probe in full, then a header at a time. -/
def headerReads : ReadFn := fun k addr len =>
  .bytes (bytesAt smallChunks addr (if k = 0 then len else min 16 len))

def smallHeap : Mapping := ⟨⟨4096, 4336, .heap, false⟩, 3⟩

theorem walkRegion_eq_naive_headers :
    (HeapWalker.init.walkRegion headerReads smallHeap [] WalkResult.init).2.1.out =
      [walkedAt 4096 32, walkedAt 4128 32, walkedAt 4192 32, walkedAt 4224 32,
        walkedAt 4256 32, walkedAt 4288 32] := by
  have hread : Delivers smallChunks headerReads smallHeap HeapWalker.init.reads := by
    refine ⟨rfl, fun j addr len hj hlen _ _ => ⟨min 16 len, by omega, Nat.le_refl _, by omega, ?_⟩⟩
    have hne : j ≠ 0 := Nat.ne_of_gt hj
    rw [headerReads, if_neg hne]
  obtain ⟨hout, -⟩ := walkRegion_eq_naive smallChunks headerReads smallHeap HeapWalker.init []
    WalkResult.init (by decide) hread (by decide +kernel)
  rw [hout]
  decide +kernel

end Heapviz
