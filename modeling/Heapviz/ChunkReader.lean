import Heapviz.Checked
import Heapviz.HeapApp

/-!
# Reading chunk headers

`ChunkReader::read` (`tui/chunk_reader.cpp`) fetches the two words in front
of each of `n` pointers, up to 1024 to a call of `process_vm_readv`, and
decodes them. A pointer too low to have a header gets no vector, so vectors
and pointers are not in step; a call may fail, or deliver a prefix of its
vectors, and the buffer is the one of the last call.

The kernel is a function of the number of calls made before and of the
addresses asked for. A call of it is kept with its buffer slots and its
remote addresses, so that what was delivered, and for whom, can be said
without the loop (`Delivered`).

- `readLoop_spec`: after the loop a slot of the buffer holds the header that
  was delivered for it, and else what it held before.
- `read_out`: so each `out[i]` is the decoded header of its own pointer.
-/

namespace Heapviz

open Checked

namespace ChunkReader

open HeapApp (ReadStatus)

/-! ## Decoding -/

def kChunkPrevInUse : Nat := 1

def kChunkIsMmapped : Nat := 2

def kChunkNonMainArena : Nat := 4

def kChunkSizeMask : Nat := complement 64 7

def kMinChunkBytes : Nat := 32

def kChunkAlign : Nat := 16

def kChunkHeaderBytes : Nat := 16

def kChunkMinOverheadBytes : Nat := 8

def kMaxChunkBytes : Nat := 64 <<< 30

structure RawChunkHeader where
  prevSize : Nat
  size : Nat
deriving Repr, DecidableEq

def RawChunkHeader.zero : RawChunkHeader := ⟨0, 0⟩

structure ChunkInfo where
  userPtr : Nat
  chunkSize : Nat
  overhead : Nat
  mmapped : Bool
  nonMainArena : Bool
  prevInUse : Bool
  valid : Bool
deriving Repr, DecidableEq

def ChunkInfo.init : ChunkInfo := ⟨0, 0, 0, false, false, false, false⟩

/-- `decode_chunk`; none where it returns false and leaves `out` alone. -/
def decodeChunk (raw : RawChunkHeader) (userPtr requested regionSpan : Nat) : Option ChunkInfo :=
  let size := raw.size &&& kChunkSizeMask
  if size < kMinChunkBytes then none
  else if size &&& (kChunkAlign - 1) ≠ 0 then none
  else if size > kMaxChunkBytes then none
  else if regionSpan ≠ 0 ∧ size > regionSpan then none
  else if requested ≠ 0 ∧ size < add64 requested kChunkMinOverheadBytes then none
  else
    some
      { userPtr := userPtr
        chunkSize := size
        overhead :=
          if requested ≠ 0 ∧ size ≥ requested then
            if size - requested > 2 ^ 32 - 1 then 2 ^ 32 - 1 else size - requested
          else 0
        mmapped := raw.size &&& kChunkIsMmapped ≠ 0
        nonMainArena := raw.size &&& kChunkNonMainArena ≠ 0
        prevInUse := raw.size &&& kChunkPrevInUse ≠ 0
        valid := true }

/-! ## Reading -/

inductive ReadvErrno where
  | eperm
  | eacces
  | esrch
  | efault
  | other
deriving Repr, DecidableEq

/-- An error, or the headers of the first so many vectors. -/
inductive ReadvReply where
  | failed (errno : ReadvErrno)
  | delivered (headers : List RawChunkHeader)
deriving Repr, DecidableEq

/-- What the `k`-th call answers for a list of addresses. -/
abbrev ReadvFn := Nat → List Nat → ReadvReply

/-- A call that was made: for each vector the slot of the buffer and the remote
address, and the answer. -/
structure ReadvCall where
  slots : List Nat
  remotes : List Nat
  reply : ReadvReply
deriving Repr, DecidableEq

/-- The headers a call delivered, in the order of its vectors. -/
def ReadvCall.headers (c : ReadvCall) : List RawChunkHeader :=
  match c.reply with
  | .failed _ => []
  | .delivered headers => headers

def kMaxVectors : Nat := 1024

end ChunkReader

open ChunkReader
open HeapApp (ReadStatus)

structure ChunkReader where
  denied : Bool
  gone : Bool
  /-- `buf_`, which outlives a call. -/
  buf : Nat → RawChunkHeader
  reads : Nat
  headers : Nat
  rejected : Nat

namespace ChunkReader

def init : ChunkReader := ⟨false, false, fun _ => .zero, 0, 0, 0⟩

/-- The positions of a batch that get a vector. -/
def gather (ptrs : Nat → Nat) (done batch : Nat) : List Nat :=
  (List.range' done batch).filter fun i => kChunkHeaderBytes ≤ ptrs i

/-- The headers delivered go to the slots in order. -/
def deliver (buf : Nat → RawChunkHeader) : List Nat → List RawChunkHeader → Nat → RawChunkHeader
  | slot :: slots, h :: headers => deliver (Function.update buf slot h) slots headers
  | _, _ => buf

/-- The loop of `ChunkReader::read`, with the calls it makes: `error` where it
returns from inside, `ok` with the status it ends with. -/
def readLoop (readv : ReadvFn) (ptrs : Nat → Nat) (n : Nat) (r : ChunkReader) (status : ReadStatus)
    (done : Nat) : ChunkReader × List ReadvCall × Except ReadStatus ReadStatus :=
  if done < n then
    let batch := if n - done < kMaxVectors then n - done else kMaxVectors
    let slots := gather ptrs done batch
    if slots = [] then readLoop readv ptrs n r status (done + batch)
    else
      let remotes := slots.map fun i => ptrs i - kChunkHeaderBytes
      let call : ReadvCall := ⟨slots, remotes, readv r.reads remotes⟩
      let r := { r with reads := r.reads + 1 }
      match call.reply with
      | .failed .eperm | .failed .eacces => ({ r with denied := true }, [call], .error .denied)
      | .failed .esrch => ({ r with gone := true }, [call], .error .targetGone)
      | .failed .efault =>
          let (r, log, result) := readLoop readv ptrs n r .incomplete (done + batch)
          (r, call :: log, result)
      | .failed .other => (r, [call], .error .failed)
      | .delivered headers =>
          let r := { r with buf := deliver r.buf slots headers }
          let status := if headers.length < slots.length then .incomplete else status
          let (r, log, result) := readLoop readv ptrs n r status (done + batch)
          (r, call :: log, result)
  else (r, [], .ok status)
termination_by n - done
decreasing_by
  all_goals
    have : 0 < kMaxVectors := by decide
    split <;> omega

/-- What a call of `read` leaves behind. -/
structure ReadResult where
  reader : ChunkReader
  status : ReadStatus
  out : Nat → ChunkInfo
  /-- The calls of `process_vm_readv` it made. -/
  log : List ReadvCall

/-- `ChunkReader::read`; a null array is none. -/
def read (r : ChunkReader) (readv : ReadvFn) (ptrs requested : Option (Nat → Nat)) (n : Nat)
    (out : Option (Nat → ChunkInfo)) : ReadResult :=
  match ptrs, out with
  | some ptrs, some out =>
      if n = 0 then ⟨r, .ok, out, []⟩
      else if r.denied then ⟨r, .denied, out, []⟩
      else if r.gone then ⟨r, .targetGone, out, []⟩
      else
        let out := fun i => if i < n then .init else out i
        match readLoop readv ptrs n { r with buf := fun _ => .zero } .ok 0 with
        | (r, log, .error status) => ⟨r, status, out, log⟩
        | (r, log, .ok status) =>
            let decoded := fun i =>
              decodeChunk (r.buf i) (ptrs i) (requested.elim 0 fun requested => requested i) 0
            let accepted := (List.range n).countP fun i => (decoded i).isSome
            ⟨{ r with headers := r.headers + accepted, rejected := r.rejected + (n - accepted) },
              status, fun i => if i < n then (decoded i).getD (out i) else out i, log⟩
  | _, _ => ⟨r, .ok, out.getD fun _ => .init, []⟩

/-! ## What was delivered for whom -/

/-- Some vector of some call had this slot and this address, and its header
arrived. -/
def Delivered (log : List ReadvCall) (slot addr : Nat) (h : RawChunkHeader) : Prop :=
  ∃ c ∈ log, ∃ j : Nat, c.slots[j]? = some slot ∧ c.remotes[j]? = some addr ∧ c.headers[j]? = some h

/-- The vectors of a call are of distinct pointers from `done` on, none too low,
and ask for what stands before each. -/
structure ReadvCall.OfBatch (ptrs : Nat → Nat) (n done : Nat) (c : ReadvCall) : Prop where
  distinct : c.slots.Nodup
  remotes : c.remotes = c.slots.map fun i => ptrs i - kChunkHeaderBytes
  slots : ∀ i ∈ c.slots, done ≤ i ∧ i < n ∧ kChunkHeaderBytes ≤ ptrs i

section Deliver

variable {buf : Nat → RawChunkHeader} {slots : List Nat} {headers : List RawChunkHeader} {i : Nat}

theorem deliver_nil_right : deliver buf slots [] = buf := by
  cases slots <;> rfl

theorem deliver_other (h : ∀ (j : Nat) x, slots[j]? = some i → headers[j]? ≠ some x) :
    deliver buf slots headers i = buf i := by
  induction slots generalizing buf headers with
  | nil => rfl
  | cons slot slots ih =>
      cases headers with
      | nil => rfl
      | cons x headers =>
          have hne : i ≠ slot := by
            rintro rfl
            exact h 0 x rfl rfl
          rw [deliver, ih fun j y => h (j + 1) y, Function.update_of_ne hne]

theorem deliver_get (hnodup : slots.Nodup) {j : Nat} {x : RawChunkHeader}
    (hslot : slots[j]? = some i) (hx : headers[j]? = some x) :
    deliver buf slots headers i = x := by
  induction slots generalizing buf headers j with
  | nil => simp at hslot
  | cons slot slots ih =>
      obtain ⟨hnotin, hrest⟩ := List.nodup_cons.mp hnodup
      cases headers with
      | nil => simp at hx
      | cons y headers =>
          cases j with
          | zero =>
              obtain rfl := Option.some.inj hslot
              obtain rfl := Option.some.inj hx
              rw [deliver, deliver_other, Function.update_self]
              intro j x hj
              exact absurd (List.mem_of_getElem? hj) hnotin
          | succ j => exact ih hrest hslot hx

end Deliver

/-- What the loop from `done` on leaves: its calls, and in the buffer the
headers they delivered over what was there. -/
structure LoopSpec (ptrs : Nat → Nat) (n done : Nat) (r : ChunkReader) (status : ReadStatus)
    (ended : ChunkReader × List ReadvCall × Except ReadStatus ReadStatus) : Prop where
  calls : ∀ c ∈ ended.2.1, c.OfBatch ptrs n done
  delivered : ∀ {i addr h}, Delivered ended.2.1 i addr h → ended.1.buf i = h
  kept : ∀ {i}, (∀ addr h, ¬ Delivered ended.2.1 i addr h) → ended.1.buf i = r.buf i
  denied : ended.2.2 = .error .denied → ended.1.denied = true
  gone : ended.2.2 = .error .targetGone → ended.1.gone = true ∧ ended.1.denied = r.denied
  errors : ∀ {e}, ended.2.2 = .error e → e = .denied ∨ e = .targetGone ∨ e = .failed
  oks : ∀ {e}, ended.2.2 = .ok e → e = .incomplete ∨ e = status

section Loop

variable {ptrs : Nat → Nat} {n done : Nat} {r : ChunkReader} {status : ReadStatus}

theorem Delivered.slot_mem {log : List ReadvCall} {i addr : Nat} {h : RawChunkHeader}
    (hdel : Delivered log i addr h) : ∃ c ∈ log, i ∈ c.slots := by
  obtain ⟨c, hc, j, hslot, -, -⟩ := hdel
  exact ⟨c, hc, List.mem_of_getElem? hslot⟩

/-- A batch of its own is in front of what the rest of the loop reads. -/
theorem LoopSpec.cons {done' : Nat} {r' : ChunkReader} {status' : ReadStatus} {c : ReadvCall}
    {ended : ChunkReader × List ReadvCall × Except ReadStatus ReadStatus}
    (hrest : LoopSpec ptrs n done' r' status' ended) (hc : c.OfBatch ptrs n done)
    (hle : done ≤ done') (hbelow : ∀ i ∈ c.slots, i < done')
    (hbuf : r'.buf = deliver r.buf c.slots c.headers) (hdenied : r'.denied = r.denied)
    (hstatus : status' = .incomplete ∨ status' = status) :
    LoopSpec ptrs n done r status (ended.1, c :: ended.2.1, ended.2.2) where
  calls := by
    intro c' hc'
    rcases List.mem_cons.mp hc' with rfl | hc'
    · exact hc
    · have hof := hrest.calls c' hc'
      exact ⟨hof.distinct, hof.remotes, fun i hi =>
        ⟨hle.trans (hof.slots i hi).1, (hof.slots i hi).2⟩⟩
  delivered := by
    rintro i addr h ⟨c', hc', j, hslot, hremote, hheader⟩
    rcases List.mem_cons.mp hc' with rfl | hc'
    · -- the later batches have no vector for a slot of this one
      have hlater : ∀ addr h, ¬ Delivered ended.2.1 i addr h := by
        intro addr h hdel
        obtain ⟨c'', hc'', hi⟩ := hdel.slot_mem
        have hge := ((hrest.calls c'' hc'').slots i hi).1
        have hlt := hbelow i (List.mem_of_getElem? hslot)
        omega
      show ended.1.buf i = h
      rw [hrest.kept hlater, hbuf, deliver_get hc.distinct hslot hheader]
    · exact hrest.delivered ⟨c', hc', j, hslot, hremote, hheader⟩
  kept := by
    intro i hnone
    have hlater : ∀ addr h, ¬ Delivered ended.2.1 i addr h := by
      rintro addr h ⟨c', hc', hdel⟩
      exact hnone addr h ⟨c', List.mem_cons_of_mem c hc', hdel⟩
    show ended.1.buf i = r.buf i
    rw [hrest.kept hlater, hbuf, deliver_other]
    intro j x hslot hheader
    refine hnone (ptrs i - kChunkHeaderBytes) x ⟨c, List.mem_cons_self, j, hslot, ?_, hheader⟩
    rw [hc.remotes, List.getElem?_map, hslot]
    rfl
  denied := hrest.denied
  gone := by
    intro hgone
    obtain ⟨hgone', hden⟩ := hrest.gone hgone
    exact ⟨hgone', hden.trans hdenied⟩
  errors := hrest.errors
  oks := by
    intro e he
    rcases hrest.oks he with hinc | hsame
    · exact .inl hinc
    · rw [hsame]
      exact hstatus

/-- A call that fails ends the loop or at least leaves the buffer. -/
theorem LoopSpec.failed {c : ReadvCall} {r' : ChunkReader} {e : ReadStatus}
    (hc : c.OfBatch ptrs n done) (hheaders : c.headers = []) (hbuf : r'.buf = r.buf)
    (hdenied : e = .denied → r'.denied = true)
    (hgone : e = .targetGone → r'.gone = true ∧ r'.denied = r.denied)
    (he : e = .denied ∨ e = .targetGone ∨ e = .failed) :
    LoopSpec ptrs n done r status (r', [c], .error e) where
  calls := by
    intro c' hc'
    rw [List.mem_singleton.mp hc']
    exact hc
  delivered := by
    rintro i addr h ⟨c', hc', j, -, -, hheader⟩
    rw [List.mem_singleton.mp hc', hheaders] at hheader
    cases hheader
  kept := fun _ => congrFun hbuf _
  denied := fun h => hdenied (Except.error.inj h)
  gone := fun h => hgone (Except.error.inj h)
  errors := fun h => Except.error.inj h ▸ he
  oks := nofun

theorem LoopSpec.mono {done' : Nat}
    {ended : ChunkReader × List ReadvCall × Except ReadStatus ReadStatus}
    (h : LoopSpec ptrs n done' r status ended) (hle : done ≤ done') :
    LoopSpec ptrs n done r status ended :=
  { h with
    calls := fun c hc => { h.calls c hc with
      slots := fun i hi => ⟨hle.trans ((h.calls c hc).slots i hi).1,
        ((h.calls c hc).slots i hi).2⟩ } }

theorem gather_ofBatch {batch : Nat} (hbatch : done + batch ≤ n) (reply : ReadvReply) :
    ReadvCall.OfBatch ptrs n done
      ⟨gather ptrs done batch,
        (gather ptrs done batch).map fun i => ptrs i - kChunkHeaderBytes, reply⟩ where
  distinct := (List.nodup_range').sublist List.filter_sublist
  remotes := rfl
  slots := by
    intro i hi
    obtain ⟨hrange, hlow⟩ := List.mem_filter.mp hi
    have hin := List.mem_range'_1.mp hrange
    exact ⟨hin.1, by omega, of_decide_eq_true hlow⟩

theorem gather_lt {batch i : Nat} (hi : i ∈ gather ptrs done batch) : i < done + batch :=
  (List.mem_range'_1.mp (List.mem_filter.mp hi).1).2

theorem batch_le (h : done < n) :
    done + (if n - done < kMaxVectors then n - done else kMaxVectors) ≤ n := by
  split <;> omega

theorem readLoop_spec (readv : ReadvFn) (ptrs : Nat → Nat) (n : Nat) (r : ChunkReader)
    (status : ReadStatus) (done : Nat) :
    LoopSpec ptrs n done r status (readLoop readv ptrs n r status done) := by
  fun_induction readLoop readv ptrs n r status done with
  | case1 r status done hlt batch slots hempty ih => exact ih.mono (Nat.le_add_right _ _)
  | case2 r status done hlt batch slots hne remotes call r' hreply
  | case3 r status done hlt batch slots hne remotes call r' hreply =>
      refine LoopSpec.failed (gather_ofBatch (batch_le hlt) _) ?_ rfl (fun _ => rfl) nofun
        (.inl rfl)
      rw [ReadvCall.headers, hreply]
  | case4 r status done hlt batch slots hne remotes call r' hreply =>
      refine LoopSpec.failed (gather_ofBatch (batch_le hlt) _) ?_ rfl nofun (fun _ => ⟨rfl, rfl⟩)
        (.inr (.inl rfl))
      rw [ReadvCall.headers, hreply]
  | case5 r status done hlt batch slots hne remotes call r' hreply r'' log result hrest ih =>
      rw [hrest] at ih
      refine ih.cons (gather_ofBatch (batch_le hlt) _) (Nat.le_add_right _ _)
        (fun i hi => gather_lt hi) ?_ rfl (.inl rfl)
      rw [show call.headers = [] by rw [ReadvCall.headers, hreply], deliver_nil_right]
  | case6 r status done hlt batch slots hne remotes call r' hreply =>
      refine LoopSpec.failed (gather_ofBatch (batch_le hlt) _) ?_ rfl nofun nofun (.inr (.inr rfl))
      rw [ReadvCall.headers, hreply]
  | case7 r status done hlt batch slots hne remotes call r' headers hreply r'' status' r3 log
      result hrest ih =>
      rw [hrest] at ih
      refine ih.cons (gather_ofBatch (batch_le hlt) _) (Nat.le_add_right _ _)
        (fun i hi => gather_lt hi) ?_ rfl ?_
      · rw [show call.headers = headers by rw [ReadvCall.headers, hreply]]
      · by_cases hshort : headers.length < slots.length
        · exact .inl (dif_pos hshort)
        · exact .inr (dif_neg hshort)
  | case8 r status done hge =>
      exact ⟨nofun, fun ⟨_, hc, _⟩ => absurd hc List.not_mem_nil, fun _ => rfl, nofun, nofun, nofun,
        fun h => .inr (Except.ok.inj h).symm⟩

end Loop

/-! ## One call -/

/-- The size asked for at a position, zero where it is not known. -/
def want (requested : Option (Nat → Nat)) (i : Nat) : Nat :=
  requested.elim 0 fun requested => requested i

/-- The slots that nothing was delivered for are refused. -/
theorem decodeChunk_zero (userPtr requested regionSpan : Nat) :
    decodeChunk .zero userPtr requested regionSpan = none := by
  have hsize : RawChunkHeader.zero.size &&& kChunkSizeMask = 0 := Nat.zero_and _
  unfold decodeChunk
  rw [hsize]
  rfl

theorem decodeChunk_valid {raw : RawChunkHeader} {userPtr requested regionSpan : Nat}
    {info : ChunkInfo} (h : decodeChunk raw userPtr requested regionSpan = some info) :
    info.valid = true := by
  simp only [decodeChunk, Option.ite_none_left_eq_some] at h
  obtain ⟨-, -, -, -, -, h⟩ := h
  obtain rfl := Option.some.inj h
  rfl

/-- Every entry is the decoded header of its own pointer, if that was delivered
in this call. -/
structure Attributed (ptrs : Nat → Nat) (requested : Option (Nat → Nat)) (n : Nat)
    (log : List ReadvCall) (out : Nat → ChunkInfo) : Prop where
  valid : ∀ i < n, ((out i).valid = true ↔ kChunkHeaderBytes ≤ ptrs i ∧
    ∃ h, Delivered log i (ptrs i - kChunkHeaderBytes) h ∧
      (decodeChunk h (ptrs i) (want requested i) 0).isSome = true)
  describes : ∀ i < n, (out i).valid = true → ∀ h,
    Delivered log i (ptrs i - kChunkHeaderBytes) h →
      decodeChunk h (ptrs i) (want requested i) 0 = some (out i)

section Call

variable {r : ChunkReader} {readv : ReadvFn} {ptrs : Nat → Nat} {requested : Option (Nat → Nat)}
  {n : Nat} {out : Nat → ChunkInfo}

/-- What the decoding pass makes of the loop's buffer. -/
theorem LoopSpec.attributed {r' : ChunkReader} {log : List ReadvCall} {status : ReadStatus}
    (h : LoopSpec ptrs n 0 r .ok (r', log, .ok status)) (hzero : ∀ i, r.buf i = .zero)
    (hout : ∀ i < n, (out i).valid = false) :
    Attributed ptrs requested n log fun i =>
      if i < n then (decodeChunk (r'.buf i) (ptrs i) (want requested i) 0).getD (out i)
      else out i := by
  have hbuf : ∀ i, (∀ addr x, ¬ Delivered log i addr x) → r'.buf i = .zero :=
    fun i hnone => (h.kept hnone).trans (hzero i)
  constructor
  · intro i hi
    rw [if_pos hi]
    by_cases hdel : ∃ x, Delivered log i (ptrs i - kChunkHeaderBytes) x
    · obtain ⟨x, hx⟩ := hdel
      obtain ⟨c, hc, hslot⟩ := hx.slot_mem
      have hlow := ((h.calls c hc).slots i hslot).2.2
      rw [show r'.buf i = x from h.delivered hx]
      constructor
      · intro hvalid
        refine ⟨hlow, x, hx, ?_⟩
        cases hdec : decodeChunk x (ptrs i) (want requested i) 0 with
        | none =>
            rw [hdec, Option.getD_none, hout i hi] at hvalid
            cases hvalid
        | some info => rfl
      · rintro ⟨-, y, hy, hsome⟩
        have hyx : y = x := (h.delivered hy).symm.trans (h.delivered hx)
        rw [hyx] at hsome
        obtain ⟨info, hinfo⟩ := Option.isSome_iff_exists.mp hsome
        rw [hinfo, Option.getD_some]
        exact decodeChunk_valid hinfo
    · -- a vector for this slot would have had the address of its pointer
      have hnone : ∀ addr x, ¬ Delivered log i addr x := by
        rintro addr x ⟨c, hc, j, hslot, hremote, hheader⟩
        have hof := h.calls c hc
        have haddr : addr = ptrs i - kChunkHeaderBytes := by
          rw [hof.remotes, List.getElem?_map, hslot] at hremote
          exact (Option.some.inj hremote).symm
        exact hdel ⟨x, c, hc, j, hslot, haddr ▸ hremote, hheader⟩
      rw [hbuf i hnone, decodeChunk_zero, Option.getD_none, hout i hi]
      constructor
      · intro hfalse
        cases hfalse
      · rintro ⟨-, x, hx, -⟩
        exact absurd ⟨x, hx⟩ hdel
  · intro i hi hvalid x hx
    rw [if_pos hi] at hvalid ⊢
    rw [show r'.buf i = x from h.delivered hx] at hvalid ⊢
    cases hdec : decodeChunk x (ptrs i) (want requested i) 0 with
    | none =>
        rw [hdec, Option.getD_none, hout i hi] at hvalid
        cases hvalid
    | some info => rfl

/-- A call on a reader that is not latched: what it was told, or why not. -/
structure Answered (ptrs : Nat → Nat) (requested : Option (Nat → Nat)) (n : Nat)
    (res : ReadResult) : Prop where
  told : res.status = .ok ∨ res.status = .incomplete →
    Attributed ptrs requested n res.log res.out
  blank : res.status = .denied ∨ res.status = .targetGone ∨ res.status = .failed →
    ∀ i < n, (res.out i).valid = false
  denied : res.status = .denied → res.reader.denied = true
  gone : res.status = .targetGone → res.reader.gone = true ∧ res.reader.denied = false

theorem read_answered (hdenied : r.denied = false) (hgone : r.gone = false) :
    Answered ptrs requested n (r.read readv (some ptrs) requested n (some out)) := by
  unfold read
  dsimp only
  split
  · rename_i hzero
    subst hzero
    exact ⟨fun _ => ⟨nofun, nofun⟩, by simp, nofun, nofun⟩
  · rw [hdenied, hgone, if_neg Bool.false_ne_true, if_neg Bool.false_ne_true]
    have hspec := readLoop_spec readv ptrs n { r with buf := fun _ => .zero } .ok 0
    have hblank : ∀ i < n, (if i < n then ChunkInfo.init else out i).valid = false := by
      intro i hi
      rw [if_pos hi]
      rfl
    split
    · rename_i r' log status hloop
      rw [hdenied, hgone] at hspec
      rw [hloop] at hspec
      refine ⟨?_, fun _ => hblank, ?_, ?_⟩
      · intro hstatus
        rcases hspec.errors rfl with rfl | rfl | rfl <;> simp at hstatus
      · rintro rfl
        exact hspec.denied rfl
      · rintro rfl
        exact hspec.gone rfl
    · rename_i r' log status hloop
      rw [hdenied, hgone] at hspec
      rw [hloop] at hspec
      have hnot : status = .incomplete ∨ status = .ok := hspec.oks rfl
      refine ⟨fun _ => hspec.attributed (fun _ => rfl) hblank, ?_, ?_, ?_⟩
      · intro hstatus
        rcases hnot with rfl | rfl <;> simp at hstatus
      · intro hstatus
        rcases hnot with rfl | rfl <;> cases hstatus
      · intro hstatus
        rcases hnot with rfl | rfl <;> cases hstatus

end Call

/-! ## Later calls -/

/-- One call of `read` with its arguments and the kernel it meets. -/
structure HeaderCall where
  readv : ReadvFn
  ptrs : Option (Nat → Nat)
  requested : Option (Nat → Nat)
  n : Nat
  out : Option (Nat → ChunkInfo)

/-- The reader after a row of calls. -/
def after (r : ChunkReader) (calls : List HeaderCall) : ChunkReader :=
  calls.foldl (fun r c => (r.read c.readv c.ptrs c.requested c.n c.out).reader) r

/-- A latched reader is not changed by a call, which makes no read and says what
latched it. -/
theorem read_latched {r : ChunkReader} (h : r.denied = true ∨ r.gone = true) (readv : ReadvFn)
    (ptrs requested : Option (Nat → Nat)) (n : Nat) (out : Option (Nat → ChunkInfo)) :
    (r.read readv ptrs requested n out).reader = r ∧
      (r.read readv ptrs requested n out).log = [] ∧
      (ptrs.isSome → out.isSome → 0 < n → (r.read readv ptrs requested n out).status =
        if r.denied then .denied else .targetGone) := by
  unfold read
  split
  · split
    · exact ⟨rfl, rfl, fun _ _ hn => by omega⟩
    · split
      · exact ⟨rfl, rfl, fun _ _ _ => rfl⟩
      · rename_i hden
        rw [if_pos (h.resolve_left hden)]
        exact ⟨rfl, rfl, fun _ _ _ => rfl⟩
  · rename_i hnull
    refine ⟨rfl, rfl, fun hp ho => ?_⟩
    obtain ⟨p, rfl⟩ := Option.isSome_iff_exists.mp hp
    obtain ⟨o, rfl⟩ := Option.isSome_iff_exists.mp ho
    exact absurd rfl (hnull p o rfl)

theorem after_latched {r : ChunkReader} (h : r.denied = true ∨ r.gone = true) :
    ∀ calls, r.after calls = r
  | [] => rfl
  | c :: calls => by
      show ((r.read c.readv c.ptrs c.requested c.n c.out).reader).after calls = r
      rw [(read_latched h c.readv c.ptrs c.requested c.n c.out).1]
      exact after_latched h calls

/-- **Headers are attributed to the right pointer.** Whatever an unlatched
reader holds from before and whatever the kernel does: a call that returns
`Ok` or `Partial` has in `out[i]` the decoded header of `ptrs[i]`, if that
pointer has one, it was delivered in this call, and it is accepted; any other
return leaves no entry valid, and one that latches is what all later calls
return, without a read. -/
theorem headers_attributed {r : ChunkReader} (hdenied : r.denied = false) (hgone : r.gone = false)
    (readv : ReadvFn) (ptrs : Nat → Nat) (requested : Option (Nat → Nat)) (n : Nat)
    (out : Nat → ChunkInfo) (res : ReadResult)
    (hres : r.read readv (some ptrs) requested n (some out) = res) :
    (res.status = .ok ∨ res.status = .incomplete → Attributed ptrs requested n res.log res.out) ∧
      (res.status = .denied ∨ res.status = .targetGone ∨ res.status = .failed →
        ∀ i < n, (res.out i).valid = false) ∧
      (res.status = .denied ∨ res.status = .targetGone →
        ∀ (between : List HeaderCall) (c : HeaderCall), c.ptrs.isSome → c.out.isSome → 0 < c.n →
          ((res.reader.after between).read c.readv c.ptrs c.requested c.n c.out).status =
              res.status ∧
            ((res.reader.after between).read c.readv c.ptrs c.requested c.n c.out).log = []) := by
  subst hres
  have hanswer : Answered ptrs requested n (r.read readv (some ptrs) requested n (some out)) :=
    read_answered hdenied hgone
  refine ⟨hanswer.told, hanswer.blank, ?_⟩
  intro hstatus between c hp ho hn
  have hlatched : (r.read readv (some ptrs) requested n (some out)).reader.denied = true ∨
      (r.read readv (some ptrs) requested n (some out)).reader.gone = true := by
    rcases hstatus with hden | hgon
    · exact .inl (hanswer.denied hden)
    · exact .inr (hanswer.gone hgon).1
  rw [after_latched hlatched]
  obtain ⟨-, hlog, hlater⟩ := read_latched hlatched c.readv c.ptrs c.requested c.n c.out
  refine ⟨?_, hlog⟩
  rw [hlater hp ho hn]
  rcases hstatus with hden | hgon
  · rw [hden, if_pos (hanswer.denied hden)]
  · rw [hgon, if_neg (by rw [(hanswer.gone hgon).2]; decide)]

/-- Three pointers, the second too low for a header, and a call that delivers one
of two vectors: the first entry is the chunk, the third is not. -/
def shortReadv : ReadvFn := fun _ remotes =>
  .delivered ((remotes.map fun a => (⟨0, if a = 0x5000 then 0x21 else 0x31⟩ : RawChunkHeader)).take 1)

def lowSecond : Nat → Nat
  | 0 => 0x5010
  | 1 => 8
  | _ => 0x6010

theorem headers_attributed_short :
    (init.read shortReadv (some lowSecond) none 3 (some fun _ => .init)).status = .incomplete ∧
      Attributed lowSecond none 3
        (init.read shortReadv (some lowSecond) none 3 (some fun _ => .init)).log
        (init.read shortReadv (some lowSecond) none 3 (some fun _ => .init)).out := by
  have hstatus : (init.read shortReadv (some lowSecond) none 3 (some fun _ => .init)).status =
      .incomplete := by decide +kernel
  exact ⟨hstatus, (headers_attributed rfl rfl shortReadv lowSecond none 3 (fun _ => .init) _
    rfl).1 (.inr hstatus)⟩

end ChunkReader

end Heapviz
