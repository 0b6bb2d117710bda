import Heapviz.HeapWalker

/-!
# What a walk puts out

Whatever the reads answer - torn headers, memory that changes between two
reads, short reads, failures - the chunks a walk emits for a region lie
in it, one behind the other: the walk only moves forward, never past the
end, and a chunk is emitted from where the walk stood. With disjoint
regions no address comes out twice, and what a region is charged for is
what was emitted for it.
-/

namespace Heapviz

/-! ## Emitted for one region -/

/-- Chunks of the region that lie before `bound`, one behind the other. -/
structure Emitted (r : Mapping) (bound : Nat) (new : List WalkedChunk) : Prop where
  ordered : new.Pairwise fun c d => c.userPtr + c.chunkSize ≤ d.userPtr
  inside : ∀ c ∈ new, r.start + 16 ≤ c.userPtr ∧ kWalkMinChunk ≤ c.chunkSize ∧
    c.userPtr + c.chunkSize ≤ bound + 16
  bytes : r.start + (new.map WalkedChunk.chunkSize).sum ≤ bound

section Emitted

variable {r : Mapping} {bound : Nat} {new : List WalkedChunk}

theorem Emitted.nil (h : r.start ≤ bound) : Emitted r bound [] where
  ordered := .nil
  inside := fun _ hc => absurd hc List.not_mem_nil
  bytes := h

theorem Emitted.mono {bound' : Nat} (h : Emitted r bound new) (hle : bound ≤ bound') :
    Emitted r bound' new where
  ordered := h.ordered
  inside := fun c hc =>
    ⟨(h.inside c hc).1, (h.inside c hc).2.1,
      (h.inside c hc).2.2.trans (Nat.add_le_add_right hle 16)⟩
  bytes := h.bytes.trans hle

theorem Emitted.concat {size : Nat} (h : Emitted r bound new) (hsize : kWalkMinChunk ≤ size) :
    Emitted r (bound + size) (new ++ [walkedAt bound size]) where
  ordered := by
    refine List.pairwise_append.mpr ⟨h.ordered, List.pairwise_singleton _ _, fun c hc d hd => ?_⟩
    rw [List.mem_singleton.mp hd]
    exact (h.inside c hc).2.2
  inside := by
    intro c hc
    rcases List.mem_append.mp hc with hc | hc
    · exact (h.mono (Nat.le_add_right bound size)).inside c hc
    · have hbytes := h.bytes
      rw [List.mem_singleton.mp hc]
      dsimp only [walkedAt]
      exact ⟨by omega, hsize, by omega⟩
  bytes := by
    have hbytes := h.bytes
    rw [List.map_append, List.sum_append]
    simp only [List.map_cons, List.map_nil, List.sum_cons, List.sum_nil, walkedAt]
    omega

/-- Every chunk's address is one of the region's. -/
theorem Emitted.mem_region (h : Emitted r r.limit new) {c : WalkedChunk} (hc : c ∈ new) :
    r.start ≤ c.userPtr ∧ c.userPtr < r.limit := by
  obtain ⟨hlo, hsize, hhi⟩ := h.inside c hc
  unfold kWalkMinChunk at hsize
  omega

theorem Emitted.nodup (h : Emitted r bound new) : (new.map WalkedChunk.userPtr).Nodup := by
  refine List.pairwise_map.mpr ((h.ordered.imp_of_mem) fun {c d} hc hd hle heq => ?_)
  have := (h.inside c hc).2.1
  unfold kWalkMinChunk at this
  omega

end Emitted

/-! ## From header to header -/

/-- The scan has emitted chunks before `bound` on top of what it began with,
and touched nothing of the sums but its own. -/
def Scan.Holds (s : Scan) (r : Mapping) (s₀ : Scan) (bound : Nat) : Prop :=
  ∃ new, s.out = s₀.out ++ new ∧ s.found = new.length ∧ Emitted r bound new ∧
    s.sum.opaqueBytes = s₀.sum.opaqueBytes ∧ s.sum.status = s₀.sum.status

/-- The scan stands at `here`: what it has emitted lies before, and so does the
chunk that is pending, which reaches up to it. -/
structure Scan.At (s : Scan) (r : Mapping) (s₀ : Scan) (here : Nat) : Prop where
  le_limit : here ≤ r.limit
  pending : ∀ p ∈ s.pending, p.1 + p.2 = here ∧ kWalkMinChunk ≤ p.2 ∧ s.Holds r s₀ p.1
  holds : s.Holds r s₀ here

section Steps

variable {r : Mapping} {s₀ s s' : Scan} {here field : Nat}

theorem Scan.Holds.mono {bound bound' : Nat} (h : s.Holds r s₀ bound) (hle : bound ≤ bound') :
    s.Holds r s₀ bound' := by
  obtain ⟨new, hout, hfound, hemit, hsum⟩ := h
  exact ⟨new, hout, hfound, hemit.mono hle, hsum⟩

/-- With the verdict given, everything lies before where the scan stands. -/
theorem Scan.At.verdict (h : s.At r s₀ here) (inUse : Bool) :
    (s.verdict inUse).1.Holds r s₀ here := by
  obtain ⟨hout, hfound, -, hopaque, hstatus⟩ := s.verdict_out inUse
  cases hpend : s.pending.filter fun _ => inUse with
  | nil =>
      obtain ⟨new, hout', hfound', hemit, hopaque', hstatus'⟩ := h.holds
      rw [hpend] at hout hfound
      refine ⟨new, ?_, hfound.trans hfound', hemit, hopaque.trans hopaque',
        hstatus.trans hstatus'⟩
      rw [hout, hout']
      exact List.append_nil _
  | cons p ps =>
      have hp : p ∈ s.pending :=
        (List.mem_filter.mp (hpend ▸ List.mem_cons_self : p ∈ s.pending.filter fun _ => inUse)).1
      have hnil : ps = [] := by
        have hlen := List.length_filter_le (fun _ => inUse) s.pending
        have hone : s.pending.length ≤ 1 := by
          unfold Scan.pending
          cases s.prev <;> simp
        rw [hpend, List.length_cons] at hlen
        exact List.eq_nil_of_length_eq_zero (by omega)
      subst hnil
      obtain ⟨hlink, hsize, new, hout', hfound', hemit, hopaque', hstatus'⟩ := h.pending p hp
      rw [hpend] at hout hfound
      refine ⟨new ++ [walkedAt p.1 p.2], ?_, ?_, hlink ▸ hemit.concat hsize,
        hopaque.trans hopaque', hstatus.trans hstatus'⟩
      · rw [hout, hout', List.append_assoc]
        rfl
      · rw [hfound, hfound', List.length_append]
        rfl

theorem Scan.At.visit_none (h : s.At r s₀ here) (hv : s.visit r here field = (s', none)) :
    s'.Holds r s₀ r.limit := by
  have hverdict := (h.verdict (prevInUse field)).mono h.le_limit
  rcases Scan.visit_cases hv with ⟨-, rfl, -⟩ | ⟨-, -, rfl, -⟩ | ⟨-, -, -, hnext⟩
  · exact hverdict
  · exact hverdict
  · cases hnext

theorem Scan.At.visit_some (h : s.At r s₀ here) (hlim : r.limit < 2 ^ 63) {size : Nat}
    (hv : s.visit r here field = (s', some size)) : s'.At r s₀ (here + size) := by
  have hverdict := h.verdict (prevInUse field)
  have hhere := h.le_limit
  rcases Scan.visit_cases hv with ⟨-, -, hnext⟩ | ⟨-, -, -, hnext⟩ | ⟨-, hfollows, rfl, hnext⟩
  · cases hnext
  · cases hnext
  · obtain rfl := Option.some.inj hnext
    unfold Scan.Follows add64 at hfollows
    refine ⟨by omega, fun p hp => ?_, hverdict.mono (Nat.le_add_right ..)⟩
    rw [List.mem_singleton.mp hp]
    exact ⟨rfl, by dsimp only; omega, hverdict⟩

/-- A block leaves the scan at a header or at the end of the chain. -/
theorem Scan.At.block (hlim : r.limit < 2 ^ 63) (block : List UInt8) (cursor off : Nat)
    (h : s.At r s₀ (cursor + off)) :
    (∀ s' off', blockLoop r block cursor off s = (s', some off') → s'.At r s₀ (cursor + off')) ∧
      ∀ s', blockLoop r block cursor off s = (s', none) → s'.Holds r s₀ r.limit := by
  induction off, s using blockLoop_induction r block cursor with
  | hdone off s hoff =>
      rw [blockLoop_done hoff]
      refine ⟨?_, ?_⟩
      · intro s' off' heq
        obtain ⟨rfl, hoff'⟩ := Prod.mk.inj heq
        obtain rfl := Option.some.inj hoff'
        exact h
      · intro s' heq
        cases heq
  | hstop off s s' hoff hv =>
      rw [blockLoop_stop hoff hv]
      refine ⟨?_, ?_⟩
      · intro t off' heq
        cases heq
      · intro t heq
        obtain ⟨rfl, -⟩ := Prod.mk.inj heq
        exact h.visit_none hv
  | hnext off s s' size hoff hv ih =>
      rw [blockLoop_next hoff hv]
      exact ih (Nat.add_assoc cursor off size ▸ h.visit_some hlim hv)

theorem Scan.At.blocks (hlim : r.limit < 2 ^ 63) {read : ReadFn} {left cursor : Nat}
    {w : HeapWalker} (h : s.At r s₀ cursor) :
    (HeapWalker.walkBlocks read r left w cursor s).2.Holds r s₀ r.limit := by
  induction left, w, cursor, s using HeapWalker.walkBlocks_induction read r with
  | hdone left w cursor s hc =>
      rw [HeapWalker.walkBlocks_done hc]
      exact h.holds.mono h.le_limit
  | hceiling w cursor s hc =>
      rw [HeapWalker.walkBlocks_ceiling hc]
      exact h.holds.mono h.le_limit
  | hunread left w cursor s w' hc hb =>
      rw [HeapWalker.walkBlocks_unread hc hb]
      exact h.holds.mono h.le_limit
  | hended left w cursor s w' block s' hc hb hl =>
      rw [HeapWalker.walkBlocks_ended hc hb hl]
      exact (Scan.At.block hlim block cursor 0 h).2 s' hl
  | hstuck left w cursor s w' block s' hc hb hl =>
      rw [HeapWalker.walkBlocks_stuck hc hb hl]
      have hat := (Scan.At.block hlim block cursor 0 h).1 s' 0 hl
      exact hat.holds.mono hat.le_limit
  | hnext left w cursor s w' block s' off hc hb hl hoff ih =>
      rw [HeapWalker.walkBlocks_next hc hb hl hoff]
      exact ih ((Scan.At.block hlim block cursor 0 h).1 s' off hl)

end Steps

/-! ## One region -/

/-- The address is one of the region's. -/
def Mapping.Has (r : Mapping) (x : Nat) : Prop := r.start ≤ x ∧ x < r.limit

def Mapping.Disjoint (r r' : Mapping) : Prop := ∀ x, ¬ (r.Has x ∧ r'.Has x)

/-- A region below `2 ^ 63`. -/
def Mapping.Low (r : Mapping) : Prop := r.start ≤ r.limit ∧ r.limit < 2 ^ 63

section Region

variable {r : Mapping} {read : ReadFn} {out new : List WalkedChunk}

theorem HeapWalker.readBlock_length {w w' : HeapWalker} {addr len : Nat} {block : List UInt8}
    (h : w.readBlock read addr len = (w', some block)) : block.length ≤ len := by
  unfold HeapWalker.readBlock at h
  dsimp only at h
  split at h
  · cases h
  · cases h
  · cases h
  · cases h
  · obtain ⟨-, hblock⟩ := Prod.mk.inj h
    split_ifs at hblock
    obtain rfl := Option.some.inj hblock
    exact List.length_take_le ..

/-- What a region adds to the output, and to nothing else of the sums than its
own. -/
theorem HeapWalker.walkRegion_out (w : HeapWalker) (read : ReadFn) (hr : r.Low)
    (out : List WalkedChunk) (sum : WalkResult) :
    ∃ new, (w.walkRegion read r out sum).2.1.out = out ++ new ∧ Emitted r r.limit new ∧
      ((w.walkRegion read r out sum).2.2 = true ↔ new ≠ []) ∧
      (w.walkRegion read r out sum).2.1.sum.opaqueBytes = sum.opaqueBytes ∧
      (w.walkRegion read r out sum).2.1.sum.status = sum.status := by
  rcases w.walkRegion_cases read r out sum with ⟨w', -, heq⟩ | ⟨w', block, off, hb, hstart, heq⟩
  · rw [heq]
    exact ⟨[], (List.append_nil _).symm, .nil hr.1, by simp, rfl, rfl⟩
  · have hoff := findChainStart_le hstart
    have hlen := HeapWalker.readBlock_length hb
    have hat : (⟨0, none, out, sum⟩ : Scan).At r ⟨0, none, out, sum⟩ (r.start + off) :=
      ⟨by omega, fun p hp => absurd hp List.not_mem_nil,
        ⟨[], (List.append_nil _).symm, rfl, .nil (Nat.le_add_right ..), rfl, rfl⟩⟩
    obtain ⟨new, hout, hfound, hemit, hopaque, hstatus⟩ :=
      @Scan.At.blocks r _ _ hr.2 read kMaxBlocksPerRegion _ w' hat
    rw [heq]
    refine ⟨new, hout, hemit, ?_, hopaque, hstatus⟩
    rw [decide_eq_true_iff, hfound, List.length_pos_iff]

/-- What a region is charged for is what was emitted for it. -/
theorem Emitted.accounted (h : Emitted r r.limit new) (hout : ∀ c ∈ out, ¬ r.Has c.userPtr) :
    HeapWalker.accounted r (out ++ new) = (new.map WalkedChunk.chunkSize).sum := by
  have hold : (out.filter fun c => r.start ≤ c.userPtr && c.userPtr < r.limit) = [] := by
    refine List.filter_eq_nil_iff.mpr fun c hc hin => hout c hc ?_
    simpa [Mapping.Has] using hin
  have hnew : (new.filter fun c => r.start ≤ c.userPtr && c.userPtr < r.limit) = new := by
    refine List.filter_eq_self.mpr ?_
    intro c hc
    simpa using h.mem_region hc
  rw [HeapWalker.accounted, List.filter_append, hold, hnew, List.nil_append]

/-- The rest of the region is opaque. -/
theorem Emitted.covers (h : Emitted r r.limit new) (hr : r.Low)
    (hout : ∀ c ∈ out, ¬ r.Has c.userPtr) {chained : Bool} (hchained : chained = true ↔ new ≠ []) :
    (new.map WalkedChunk.chunkSize).sum + HeapWalker.opaqueOf r (out ++ new) chained =
      r.limit - r.start := by
  have hbytes := h.bytes
  have hspan : sub64 r.limit r.start = r.limit - r.start := by
    obtain ⟨hle, hlt⟩ := hr
    unfold sub64
    omega
  unfold HeapWalker.opaqueOf
  rw [h.accounted hout, hspan]
  cases chained with
  | true =>
      rw [if_pos rfl]
      split_ifs <;> omega
  | false =>
      have hnil : new = [] := by
        by_contra hne
        exact Bool.false_ne_true (hchained.mpr hne)
      rw [if_neg Bool.false_ne_true, hnil]
      exact Nat.zero_add _

end Region

/-! ## All regions -/

/-- The bytes of the regions a walk looks at. -/
def walkableBytes (rs : List Mapping) : Nat :=
  ((rs.filter Mapping.walkable).map fun r => r.limit - r.start).sum

/-- What a walk over regions puts out, on top of `out`: chunks of these
regions, none at an address that is there already, and for each region
what is not emitted is opaque. -/
theorem HeapWalker.walkRegions_out {read : ReadFn} {rs : List Mapping} {w : HeapWalker}
    {out : List WalkedChunk} {sum : WalkResult} (hlow : ∀ r ∈ rs, r.Low)
    (hdisj : rs.Pairwise Mapping.Disjoint) (hout : ∀ c ∈ out, ∀ r ∈ rs, ¬ r.Has c.userPtr)
    (hok : (walkRegions read rs w out sum).2.2.status = .ok) :
    ∃ new, (walkRegions read rs w out sum).2.1 = out ++ new ∧
      (new.map WalkedChunk.userPtr).Nodup ∧
      (∀ c ∈ new, 16 ≤ c.userPtr ∧ ∃ r ∈ rs, r.Has c.userPtr) ∧
      walkableBytes rs + sum.opaqueBytes =
        (new.map WalkedChunk.chunkSize).sum + (walkRegions read rs w out sum).2.2.opaqueBytes := by
  induction rs generalizing w out sum with
  | nil =>
      exact ⟨[], (List.append_nil _).symm, List.nodup_nil,
        fun c hc => absurd hc List.not_mem_nil, rfl⟩
  | cons r rs ih =>
      obtain ⟨hdr, hdrs⟩ := List.pairwise_cons.mp hdisj
      have hlow' : ∀ r' ∈ rs, r'.Low := fun r' hr' => hlow r' (List.mem_cons_of_mem _ hr')
      have hout' : ∀ c ∈ out, ∀ r' ∈ rs, ¬ r'.Has c.userPtr := fun c hc r' hr' =>
        hout c hc r' (List.mem_cons_of_mem _ hr')
      cases hwalk : r.walkable with
      | false =>
          rw [walkRegions_skip hwalk] at hok ⊢
          obtain ⟨new, hnew, hnodup, hin, hbytes⟩ := ih hlow' hdrs hout' hok
          refine ⟨new, hnew, hnodup, ?_, ?_⟩
          · intro c hc
            obtain ⟨hpos, r', hr', hhas⟩ := hin c hc
            exact ⟨hpos, r', List.mem_cons_of_mem _ hr', hhas⟩
          · rwa [walkableBytes, List.filter_cons_of_neg (by rw [hwalk]; exact Bool.false_ne_true)]
      | true =>
          have hr := hlow r List.mem_cons_self
          obtain ⟨new₁, hout₁, hemit, hchained, hopaque, hstatus⟩ :=
            w.walkRegion_out read hr out sum
          have hcovers := hemit.covers hr (fun c hc => hout c hc r List.mem_cons_self) hchained
          have hnext := walkRegions_next hwalk hok
          rw [hnext, hout₁] at hok ⊢
          obtain ⟨new₂, hout₂, hnodup₂, hin₂, hbytes⟩ := ih hlow' hdrs (fun c hc r' hr' hhas => by
            rcases List.mem_append.mp hc with hc | hc
            · exact hout' c hc r' hr' hhas
            · exact hdr r' hr' c.userPtr ⟨hemit.mem_region hc, hhas⟩) hok
          refine ⟨new₁ ++ new₂, ?_, ?_, ?_, ?_⟩
          · rw [hout₂, List.append_assoc]
          · rw [List.map_append]
            refine List.nodup_append.mpr ⟨hemit.nodup, hnodup₂, fun x hx y hy hxy => ?_⟩
            obtain ⟨c, hc, rfl⟩ := List.mem_map.mp hx
            obtain ⟨d, hd, rfl⟩ := List.mem_map.mp hy
            obtain ⟨-, r', hr', hhas⟩ := hin₂ d hd
            exact hdr r' hr' c.userPtr ⟨hemit.mem_region hc, hxy ▸ hhas⟩
          · intro c hc
            rcases List.mem_append.mp hc with hc | hc
            · have := (hemit.inside c hc).1
              exact ⟨by omega, r, List.mem_cons_self, hemit.mem_region hc⟩
            · obtain ⟨hpos, r', hr', hhas⟩ := hin₂ c hc
              exact ⟨hpos, r', List.mem_cons_of_mem _ hr', hhas⟩
          · have hafter : (w.afterRegion read r out sum).opaqueBytes =
                sum.opaqueBytes + opaqueOf r (out ++ new₁) (w.walkRegion read r out sum).2.2 := by
              rw [← hout₁, ← hopaque]
              rfl
            have hhead : walkableBytes (r :: rs) = (r.limit - r.start) + walkableBytes rs := by
              rw [walkableBytes, List.filter_cons_of_pos hwalk, List.map_cons, List.sum_cons]
              rfl
            rw [hafter] at hbytes
            rw [List.map_append, List.sum_append, hhead]
            omega

/-- The walk puts out chunks of its regions, each address once, and charges
what it did not emit as opaque. -/
theorem HeapWalker.walk_out {read : ReadFn} {regions : List Mapping} {w : HeapWalker}
    (hlow : ∀ r ∈ regions, r.Low) (hdisj : regions.Pairwise Mapping.Disjoint)
    (hok : (w.walk read regions).2.2.status = .ok) :
    ((w.walk read regions).2.1.map WalkedChunk.userPtr).Nodup ∧
      (∀ c ∈ (w.walk read regions).2.1, 16 ≤ c.userPtr ∧ ∃ r ∈ regions, r.Has c.userPtr) ∧
      walkableBytes regions = ((w.walk read regions).2.1.map WalkedChunk.chunkSize).sum +
        (w.walk read regions).2.2.opaqueBytes := by
  have hwalk := walk_ok hok
  rw [hwalk] at hok ⊢
  obtain ⟨new, hout, hnodup, hin, hbytes⟩ := walkRegions_out hlow hdisj
    (fun c hc => absurd hc List.not_mem_nil) hok
  rw [hout, List.nil_append]
  exact ⟨hnodup, hin, hbytes⟩

end Heapviz
