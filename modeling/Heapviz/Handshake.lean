import Heapviz.RingMapping

/-!
# Attaching while the target starts

`hv_ring_setup` (`preload/preload.c`) and `RingSession::attach`
(`tui/session.cpp`) run in two processes that share a name and, for as long
as it lasts, a segment. Setup creates the segment, gives it its size, maps
it, fills the header field by field and stores the magic last; attach opens
the name whenever it likes and looks at whatever is there, which may also be
what a crashed process of the same pid left behind.

Every system call and every access of the shared header is one step here,
and any number of processes attach at once.

- A watcher that has seen the magic sees a header that is complete and does
  not change any more. It maps exactly the bytes the segment has, and no
  store of the target wipes its claim (`attach_maps_segment`).
- The load of the magic itself comes before all this. Between `shm_open` and
  `ftruncate` the segment has no pages, and a watcher that opens the name
  there is killed by the load. `attach_faults_window` says that this window
  is the only one, of this target or of one that died in it before.

What was left behind may be anything a setup leaves where it is killed: a
segment without pages, one whose header is half written, or a published one.
Of the last it is assumed to be of the size it says (`ShmSegment.Sound`), and
no run leaves one that is not (`HandshakeInv.sound`).
-/

namespace Heapviz

/-! ## The segment -/

/-- `HEAPVIZ_ABI_MAGIC`. -/
def heapvizAbiMagic : Nat := 0x48505A5631000000

theorem heapvizAbiMagic_ne : (0 : Nat) ≠ heapvizAbiMagic := by decide

/-- Block 0 of `HvRingHeader`, the magic aside. -/
structure HvSetup where
  abiVersion : Nat
  eventSize : Nat
  capacity : Nat
  capacityLog2 : Nat
  pid : Nat
  flags : Nat
  startTimeNs : Nat
  comm : List Nat
deriving Repr, DecidableEq

def HvSetup.zero : HvSetup := ⟨0, 0, 0, 0, 0, 0, 0, List.replicate 16 0⟩

/-- The stores of `hv_ring_setup` into it, in program order. -/
inductive SetupField where
  | abiVersion
  | eventSize
  | capacity
  | capacityLog2
  | pid
  | flags
  | startTimeNs
  | comm
deriving Repr, DecidableEq

def setupOrder : List SetupField :=
  [.abiVersion, .eventSize, .capacity, .capacityLog2, .pid, .flags, .startTimeNs, .comm]

/-- One store: the field as it is in `source`. -/
def HvSetup.copy (source : HvSetup) (h : HvSetup) : SetupField → HvSetup
  | .abiVersion => { h with abiVersion := source.abiVersion }
  | .eventSize => { h with eventSize := source.eventSize }
  | .capacity => { h with capacity := source.capacity }
  | .capacityLog2 => { h with capacityLog2 := source.capacityLog2 }
  | .pid => { h with pid := source.pid }
  | .flags => { h with flags := source.flags }
  | .startTimeNs => { h with startTimeNs := source.startTimeNs }
  | .comm => { h with comm := source.comm }

/-- A shared memory object. Its pages are zero until written; it has none
before `ftruncate`. -/
structure ShmSegment where
  size : Nat
  magic : Nat
  setup : HvSetup
  consumerPid : Nat
  producerExited : Bool
deriving Repr, DecidableEq

/-- What `shm_open` creates. -/
def ShmSegment.created : ShmSegment := ⟨0, 0, HvSetup.zero, 0, false⟩

/-- What the target knows when it sets its ring up. A page is a power of two
well below the address space. -/
structure HvTarget where
  env : Option (List Nat)
  page : Nat
  pid : Nat
  startTimeNs : Nat
  comm : List Nat
  isPage : ∃ k < 63, page = 2 ^ k

def HvTarget.bytes (t : HvTarget) : Nat := hvMappingSize (hvEnvCapacity t.env) t.page

def HvTarget.setup (t : HvTarget) : HvSetup where
  abiVersion := heapvizAbiVersion
  eventSize := hvEventSize
  capacity := hvEnvCapacity t.env
  capacityLog2 := hvLog2Pow2 (hvEnvCapacity t.env)
  pid := t.pid
  flags := 0
  startTimeNs := t.startTimeNs
  comm := t.comm

/-! ## The two sides -/

/-- Where the target is: in `hv_ring_setup`, before the named step on
segment `i`; running; in `hv_ring_teardown`; or without a ring. -/
inductive SetupPc where
  | shmOpen
  | clearStale
  | shmOpenAgain
  | ftruncate (i : Nat)
  | unlink (i : Nat)
  | mmap (i : Nat)
  | memset (i : Nat)
  | store (i next : Nat)
  | publish (i : Nat)
  | running (i : Nat)
  | teardown (i : Nat)
  | disabled
deriving Repr, DecidableEq

/-- Where a watcher is in `attach`: before the named system call or load on
segment `i`, with what it has waited of its timeout; attached; or back with
a status. A load from a page the segment does not have kills it. -/
inductive WatchPc where
  | idle
  | shmOpen (waited timeoutMs : Nat)
  | mmapHeader (waited timeoutMs i : Nat)
  | loadMagic (waited timeoutMs i : Nat)
  | loadVersion (i : Nat)
  | loadEventSize (i : Nat)
  | loadCapacity (i : Nat)
  | copyComm (i capacity : Nat)
  | mmapRing (i capacity : Nat) (comm : List Nat)
  | claim (i bytes : Nat) (comm : List Nat)
  | attached (i bytes : Nat) (comm : List Nat)
  | returned (status : AttachStatus)
  | killed
deriving Repr, DecidableEq

/-- `link` is the segment the name stands for, if there is one; `count`
segments have been created. -/
structure HandshakeSys where
  segs : Nat → ShmSegment
  count : Nat
  link : Option Nat
  target : SetupPc
  alive : Bool
  watch : Nat → WatchPc

/-- Before the target starts: nothing, or a segment left under its name. -/
def HandshakeSys.init (stale : Option ShmSegment) : HandshakeSys where
  segs := fun i => if i = 0 then stale.getD ShmSegment.created else ShmSegment.created
  count := if stale.isSome then 1 else 0
  link := stale.map fun _ => 0
  target := .shmOpen
  alive := true
  watch := fun _ => .idle

/-- A scheduling decision. `ok` is how the kernel answers the call the party
is about to make, where it makes one. -/
inductive HandshakeAct where
  | setup (ok : Bool)
  | fini
  | exit
  | attach (w timeoutMs : Nat)
  | poll (w : Nat) (ok spurious : Bool)
  | detach (w : Nat) (spurious : Bool)
deriving Repr, DecidableEq

namespace HandshakeSys

def setSeg (s : HandshakeSys) (i : Nat) (seg : ShmSegment) : HandshakeSys :=
  { s with segs := Function.update s.segs i seg }

def setWatch (s : HandshakeSys) (w : Nat) (pc : WatchPc) : HandshakeSys :=
  { s with watch := Function.update s.watch w pc }

theorem watch_setWatch_self (s : HandshakeSys) (w : Nat) (pc : WatchPc) :
    (s.setWatch w pc).watch w = pc := Function.update_self ..

theorem watch_setWatch_ne (s : HandshakeSys) {w v : Nat} (pc : WatchPc) (h : v ≠ w) :
    (s.setWatch w pc).watch v = s.watch v := Function.update_of_ne h ..

/-- `shm_open` with `O_CREAT | O_EXCL` where the name is free. -/
def create (s : HandshakeSys) : HandshakeSys :=
  { s with
    segs := Function.update s.segs s.count ShmSegment.created
    count := s.count + 1
    link := some s.count
    target := .ftruncate s.count }

/-- One step of `hv_ring_setup`. -/
def setup (t : HvTarget) (s : HandshakeSys) (ok : Bool) : Option HandshakeSys :=
  match s.target with
  | .shmOpen =>
      if ok = false then some { s with target := .disabled }
      else match s.link with
        | some _ => some { s with target := .clearStale }
        | none => some s.create
  | .clearStale =>
      some { s with link := if ok then none else s.link, target := .shmOpenAgain }
  | .shmOpenAgain =>
      if ok = false ∨ s.link.isSome then some { s with target := .disabled } else some s.create
  | .ftruncate i =>
      if ok = false then some { s with target := .unlink i }
      else some { s.setSeg i { s.segs i with size := t.bytes } with target := .mmap i }
  | .unlink _ => some { s with link := none, target := .disabled }
  | .mmap i => some { s with target := if ok then .memset i else .unlink i }
  | .memset i =>
      some { s.setSeg i { s.segs i with
        magic := 0, setup := HvSetup.zero, consumerPid := 0, producerExited := false } with
        target := .store i 0 }
  | .store i next =>
      match setupOrder[next]? with
      | some f =>
          some { s.setSeg i { s.segs i with setup := t.setup.copy (s.segs i).setup f } with
            target := .store i (next + 1) }
      | none => some { s with target := .publish i }
  | .publish i =>
      some { s.setSeg i { s.segs i with magic := heapvizAbiMagic } with target := .running i }
  | .running _ | .teardown _ | .disabled => none

/-- One step of `hv_ring_teardown`. -/
def fini (s : HandshakeSys) : Option HandshakeSys :=
  match s.target with
  | .running i =>
      some { s.setSeg i { s.segs i with producerExited := true } with target := .teardown i }
  | .teardown _ => some { s with link := none, target := .disabled }
  | _ => none

/-- Not this time: wait and try again, or give up. -/
def retry (waited timeoutMs : Nat) : WatchPc :=
  if waited ≥ timeoutMs then .returned .noSegment
  else .shmOpen (waited + kPollIntervalMs) timeoutMs

/-- A watcher's access of the header of segment `i`. -/
def load (s : HandshakeSys) (w i : Nat) (next : WatchPc) : HandshakeSys :=
  s.setWatch w (if (s.segs i).size = 0 then .killed else next)

/-- One step of `attach`, for a watcher at `pc`. -/
def pollStep (page : Nat) (s : HandshakeSys) (w : Nat) (ok spurious : Bool) :
    WatchPc → Option HandshakeSys
  | .shmOpen waited timeoutMs =>
      match if ok then s.link else none with
      | some i => some (s.setWatch w (.mmapHeader waited timeoutMs i))
      | none =>
          some (s.setWatch w
            (if s.alive = false then .returned .targetGone else retry waited timeoutMs))
  | .mmapHeader waited timeoutMs i =>
      some (s.setWatch w (if ok then .loadMagic waited timeoutMs i else .returned .mapFailed))
  | .loadMagic waited timeoutMs i =>
      some (s.load w i
        (if (s.segs i).magic ≠ heapvizAbiMagic then retry waited timeoutMs else .loadVersion i))
  | .loadVersion i =>
      some (s.load w i (if (s.segs i).setup.abiVersion ≠ heapvizAbiVersion then
        .returned .abiMismatch else .loadEventSize i))
  | .loadEventSize i =>
      some (s.load w i (if (s.segs i).setup.eventSize ≠ hvEventSize then
        .returned .abiMismatch else .loadCapacity i))
  | .loadCapacity i => some (s.load w i (.copyComm i (s.segs i).setup.capacity))
  | .copyComm i capacity => some (s.load w i (.mmapRing i capacity (s.segs i).setup.comm))
  | .mmapRing i capacity comm =>
      some (s.setWatch w
        (if ok then .claim i (hvMappingSize capacity page) comm else .returned .mapFailed))
  | .claim i bytes comm =>
      if (s.segs i).size = 0 then some (s.setWatch w .killed)
      else match hvRingClaim (s.segs i).consumerPid w spurious with
        | (word, .claimed) =>
            some ((s.setSeg i { s.segs i with consumerPid := word }).setWatch w
              (.attached i bytes comm))
        | (_, .again) => some s
        | (_, .refused _) => some (s.setWatch w (.returned .alreadyWatched))
  | .idle | .attached _ _ _ | .returned _ | .killed => none

/-- One step of one process. Both sides have pages of the same size. -/
def step (t : HvTarget) (s : HandshakeSys) : HandshakeAct → Option HandshakeSys
  | .setup ok => if s.alive then s.setup t ok else none
  | .fini => if s.alive then s.fini else none
  | .exit => some { s with alive := false }
  | .attach w timeoutMs =>
      match s.watch w with
      | .idle | .returned _ => some (s.setWatch w (.shmOpen 0 timeoutMs))
      | _ => none
  | .poll w ok spurious => s.pollStep t.page w ok spurious (s.watch w)
  | .detach w spurious =>
      match s.watch w with
      | .attached i _ _ =>
          some ((s.setSeg i { s.segs i with
            consumerPid := hvRingRelease (s.segs i).consumerPid w spurious }).setWatch w .idle)
      | _ => none

end HandshakeSys

/-! ## What is settled once the magic is there -/

/-- Segment `i` is published, by the target or by whoever left `stale`. -/
def Published (t : HvTarget) (stale : Option ShmSegment) (segs : Nat → ShmSegment) (i : Nat) :
    Prop :=
  ((segs i).setup = t.setup ∧ (segs i).size = t.bytes) ∨
    ∃ seg, stale = some seg ∧ i = 0 ∧ seg.magic = heapvizAbiMagic ∧
      (segs i).setup = seg.setup ∧ (segs i).size = seg.size

/-- Once the magic is there, so are the pages, and where the header is one of
this build the size is the one its capacity asks for. -/
structure ShmSegment.Sound (page : Nat) (seg : ShmSegment) : Prop where
  pages : seg.magic = heapvizAbiMagic → 0 < seg.size
  sized : seg.magic = heapvizAbiMagic → seg.setup.abiVersion = heapvizAbiVersion →
    seg.setup.eventSize = hvEventSize → seg.size = hvMappingSize seg.setup.capacity page

/-- Segment `i` is the one left behind, and has no pages. -/
def LeftEmpty (stale : Option ShmSegment) (i : Nat) : Prop :=
  i = 0 ∧ ∃ seg, stale = some seg ∧ seg.size = 0

/-- What the target's segment holds at each point of its setup. -/
def SetupPc.Holds (t : HvTarget) (segs : Nat → ShmSegment) : SetupPc → Prop
  | .ftruncate i => segs i = ShmSegment.created
  | .unlink i => (segs i).magic = 0
  | .mmap i | .memset i => segs i = { ShmSegment.created with size := t.bytes }
  | .store i next => segs i = { ShmSegment.created with
      size := t.bytes
      setup := (setupOrder.take next).foldl t.setup.copy HvSetup.zero }
  | .publish i => segs i = { ShmSegment.created with size := t.bytes, setup := t.setup }
  | .running i | .teardown i =>
      (segs i).magic = heapvizAbiMagic ∧ (segs i).setup = t.setup ∧ (segs i).size = t.bytes
  | _ => True

/-- The segment the target works on. -/
def SetupPc.seg : SetupPc → Option Nat
  | .ftruncate i | .unlink i | .mmap i | .memset i | .store i _ | .publish i | .running i
  | .teardown i => some i
  | _ => none

/-- The magic has been seen on segment `i`, and the header checked. -/
def Checked (segs : Nat → ShmSegment) (i : Nat) : Prop :=
  (segs i).magic = heapvizAbiMagic ∧ (segs i).setup.abiVersion = heapvizAbiVersion ∧
    (segs i).setup.eventSize = hvEventSize

/-- What a watcher knows: the magic was there, and what it has read since is
what stands in the header. -/
def WatchPc.Knows (page : Nat) (segs : Nat → ShmSegment) : WatchPc → Prop
  | .loadVersion i => (segs i).magic = heapvizAbiMagic
  | .loadEventSize i =>
      (segs i).magic = heapvizAbiMagic ∧ (segs i).setup.abiVersion = heapvizAbiVersion
  | .loadCapacity i => Checked segs i
  | .copyComm i capacity => Checked segs i ∧ capacity = (segs i).setup.capacity
  | .mmapRing i capacity comm =>
      Checked segs i ∧ capacity = (segs i).setup.capacity ∧ comm = (segs i).setup.comm
  | .claim i bytes comm | .attached i bytes comm =>
      Checked segs i ∧ bytes = hvMappingSize (segs i).setup.capacity page ∧
        comm = (segs i).setup.comm
  | _ => True

structure HandshakeInv (t : HvTarget) (stale : Option ShmSegment) (s : HandshakeSys) : Prop where
  unborn : ∀ i, s.count ≤ i → s.segs i = ShmSegment.created
  born : ∀ i, s.link = some i → i < s.count
  linked : ∀ i, s.target.seg = some i → s.link = some i
  backed : ∀ i, s.link = some i → (s.segs i).size = 0 →
    s.target = .ftruncate i ∨ s.target = .unlink i ∨ LeftEmpty stale i
  left : ∀ seg, stale = some seg →
    0 < s.count ∧ (s.segs 0).size = seg.size ∧ s.target.seg ≠ some 0
  own : s.target.Holds t s.segs
  published : ∀ i, (s.segs i).magic = heapvizAbiMagic → Published t stale s.segs i
  known : ∀ w, (s.watch w).Knows t.page s.segs
  held : ∀ w i bytes comm, w ≠ 0 → s.watch w = .attached i bytes comm →
    (s.segs i).consumerPid = w

/-- What published segments keep. -/
def SegsSettled (segs segs' : Nat → ShmSegment) : Prop :=
  ∀ i, (segs i).magic = heapvizAbiMagic →
    (segs' i).magic = heapvizAbiMagic ∧ (segs' i).setup = (segs i).setup ∧
      (segs' i).size = (segs i).size

section SegsSettled

variable {t : HvTarget} {stale : Option ShmSegment} {segs segs' : Nat → ShmSegment} {i : Nat}

theorem SegsSettled.checked (h : SegsSettled segs segs') (hc : Checked segs i) :
    Checked segs' i ∧ (segs' i).setup = (segs i).setup := by
  obtain ⟨hmagic, hsetup, -⟩ := h i hc.1
  exact ⟨⟨hmagic, by rw [hsetup]; exact hc.2.1, by rw [hsetup]; exact hc.2.2⟩, hsetup⟩

theorem WatchPc.Knows.settled {page : Nat} {pc : WatchPc} (hpc : pc.Knows page segs)
    (h : SegsSettled segs segs') : pc.Knows page segs' := by
  cases pc with
  | loadVersion i => exact (h i hpc).1
  | loadEventSize i =>
      obtain ⟨hmagic, hsetup, -⟩ := h i hpc.1
      exact ⟨hmagic, by rw [hsetup]; exact hpc.2⟩
  | loadCapacity i => exact (h.checked hpc).1
  | copyComm i capacity =>
      obtain ⟨hc, hsetup⟩ := h.checked hpc.1
      exact ⟨hc, by rw [hsetup]; exact hpc.2⟩
  | mmapRing i capacity comm =>
      obtain ⟨hc, hsetup⟩ := h.checked hpc.1
      exact ⟨hc, by rw [hsetup]; exact hpc.2⟩
  | claim i bytes comm =>
      obtain ⟨hc, hsetup⟩ := h.checked hpc.1
      exact ⟨hc, by rw [hsetup]; exact hpc.2⟩
  | attached i bytes comm =>
      obtain ⟨hc, hsetup⟩ := h.checked hpc.1
      exact ⟨hc, by rw [hsetup]; exact hpc.2⟩
  | _ => trivial

theorem settled_update {seg : ShmSegment}
    (h : (segs i).magic = heapvizAbiMagic →
      seg.magic = heapvizAbiMagic ∧ seg.setup = (segs i).setup ∧ seg.size = (segs i).size) :
    SegsSettled segs (Function.update segs i seg) := by
  intro j hj
  by_cases hji : j = i
  · subst hji
    rw [Function.update_self]
    exact h hj
  · rw [Function.update_of_ne hji]
    exact ⟨hj, rfl, rfl⟩

/-- What the target knows of its segment stands while only published ones
are touched. -/
theorem SetupPc.Holds.frame {pc : SetupPc} (h : pc.Holds t segs)
    (hsettled : SegsSettled segs segs')
    (hne : ∀ j, (segs j).magic ≠ heapvizAbiMagic → segs' j = segs j) : pc.Holds t segs' := by
  have hkeep : ∀ {j : Nat} {seg : ShmSegment}, seg.magic = 0 → segs j = seg → segs' j = seg := by
    intro j seg hzero hj
    rw [hne j (by rw [hj, hzero]; exact heapvizAbiMagic_ne), hj]
  cases pc with
  | ftruncate i => exact hkeep rfl h
  | unlink i =>
      exact (congrArg ShmSegment.magic (hkeep (j := i) h rfl)).trans h
  | mmap i => exact hkeep rfl h
  | memset i => exact hkeep rfl h
  | store i next => exact hkeep rfl h
  | publish i => exact hkeep rfl h
  | running i =>
      obtain ⟨hmagic, hsetup, hsize⟩ := h
      obtain ⟨hmagic', hsetup', hsize'⟩ := hsettled i hmagic
      exact ⟨hmagic', hsetup'.trans hsetup, hsize'.trans hsize⟩
  | teardown i =>
      obtain ⟨hmagic, hsetup, hsize⟩ := h
      obtain ⟨hmagic', hsetup', hsize'⟩ := hsettled i hmagic
      exact ⟨hmagic', hsetup'.trans hsetup, hsize'.trans hsize⟩
  | _ => trivial

theorem Published.of_eq (h : Published t stale segs i) (hsetup : (segs' i).setup = (segs i).setup)
    (hsize : (segs' i).size = (segs i).size) : Published t stale segs' i := by
  unfold Published at h ⊢
  rw [hsetup, hsize]
  exact h

/-- A published header is one its segment has the size for. -/
theorem Published.sound (h : Published t stale segs i) (hbytes : 0 < t.bytes)
    (hstale : ∀ seg, stale = some seg → seg.Sound t.page) : (segs i).Sound t.page := by
  rcases h with ⟨hsetup, hsize⟩ | ⟨seg, hseg, -, hmagic, hsetup, hsize⟩
  · refine ⟨fun _ => by rw [hsize]; exact hbytes, fun _ _ _ => ?_⟩
    rw [hsize, hsetup]
    rfl
  · have hs := hstale seg hseg
    refine ⟨fun _ => by rw [hsize]; exact hs.pages hmagic, fun _ => ?_⟩
    rw [hsetup, hsize]
    exact hs.sized hmagic

end SegsSettled

/-- The size of a ring is never zero, whatever the sum wraps to. -/
theorem HvTarget.bytes_pos (t : HvTarget) : 0 < t.bytes := by
  obtain ⟨k, hk, hpage⟩ := t.isPage
  obtain ⟨j, -, hj, hcapacity⟩ := hvEnvCapacity_iff.mp ⟨t.env, rfl⟩
  have hpos := Nat.two_pow_pos k
  have hlow : 2 ^ k ≤ 2 ^ 62 := Nat.pow_le_pow_right (by decide) (by omega)
  rw [HvTarget.bytes, hcapacity, hpage, hvMappingSize_two_pow _ (by omega)]
  refine Nat.mul_pos (Nat.div_pos ?_ hpos) hpos
  rcases Nat.lt_or_ge j 59 with hsmall | hlarge
  · have hslots : 2 ^ j ≤ 2 ^ 58 := Nat.pow_le_pow_right (by decide) (by omega)
    omega
  · -- the slots are a multiple of 2^64 bytes, and nothing of them is left
    have hslots : 32 * 2 ^ j = 2 ^ 64 * 2 ^ (j - 59) := by
      rw [← Nat.pow_add, show 64 + (j - 59) = 5 + j by omega, Nat.pow_add]
    omega

/-! ## One step -/

section Step

variable {t : HvTarget} {stale : Option ShmSegment} {s s' : HandshakeSys}

variable (t stale) in
theorem HandshakeInv.init : HandshakeInv t stale (HandshakeSys.init stale) := by
  have hlink : ∀ i, (HandshakeSys.init stale).link = some i → ∃ seg, stale = some seg ∧ i = 0 := by
    intro i hi
    obtain ⟨seg, hseg, rfl⟩ := Option.map_eq_some_iff.mp hi
    exact ⟨seg, hseg, rfl⟩
  refine ⟨fun i hi => ?_, fun i hi => ?_, fun i hi => (nomatch hi), fun i hi hsize => ?_,
    fun seg hseg => ?_, trivial, fun i hmagic => ?_, fun w => trivial,
    fun w i bytes comm _ h => (nomatch h)⟩
  · cases stale with
    | none => exact ite_self _
    | some seg => exact if_neg (Nat.ne_of_gt hi)
  · obtain ⟨seg, rfl, rfl⟩ := hlink i hi
    exact Nat.zero_lt_one
  · obtain ⟨seg, rfl, rfl⟩ := hlink i hi
    exact .inr (.inr ⟨rfl, seg, rfl, hsize⟩)
  · subst hseg
    exact ⟨Nat.zero_lt_one, rfl, fun h => (nomatch h)⟩
  · cases stale with
    | none =>
        have hseg : (HandshakeSys.init none).segs i = ShmSegment.created := ite_self _
        rw [hseg] at hmagic
        exact absurd hmagic heapvizAbiMagic_ne
    | some seg =>
        by_cases hi : i = 0
        · subst hi
          exact .inr ⟨seg, rfl, rfl, hmagic, rfl, rfl⟩
        · have hseg : (HandshakeSys.init (some seg)).segs i = ShmSegment.created := if_neg hi
          rw [hseg] at hmagic
          exact absurd hmagic heapvizAbiMagic_ne

/-- The target goes on without touching a segment; the name may go. -/
theorem HandshakeInv.retarget (hinv : HandshakeInv t stale s) {link : Option Nat} {pc : SetupPc}
    (hlink : ∀ i, link = some i → s.link = some i) (hown : pc.Holds t s.segs)
    (hseg : pc.seg = none ∨ pc.seg = s.target.seg) (hlinked : ∀ i, pc.seg = some i → link = some i)
    (hbacked : ∀ i, link = some i → (s.segs i).size = 0 →
      pc = .ftruncate i ∨ pc = .unlink i ∨ LeftEmpty stale i) :
    HandshakeInv t stale { s with link := link, target := pc } where
  unborn := hinv.unborn
  born i hi := hinv.born i (hlink i hi)
  linked := hlinked
  backed := hbacked
  left seg hstale := by
    obtain ⟨hcount, hsize, hne⟩ := hinv.left seg hstale
    refine ⟨hcount, hsize, ?_⟩
    rcases hseg with hnone | hsame
    · exact fun h => nomatch hnone.symm.trans h
    · exact fun h => hne (hsame.symm.trans h)
  own := hown
  published := hinv.published
  known := hinv.known
  held := hinv.held

/-- The name is taken, with nothing behind it yet. -/
theorem HandshakeInv.create (hinv : HandshakeInv t stale s) :
    HandshakeInv t stale s.create := by
  have hsegs : Function.update s.segs s.count ShmSegment.created = s.segs :=
    Function.update_eq_self_iff.mpr (hinv.unborn s.count (Nat.le_refl _)).symm
  have heq : s.create =
      { s with count := s.count + 1, link := some s.count, target := .ftruncate s.count } := by
    rw [HandshakeSys.create, hsegs]
  rw [heq]
  refine ⟨fun i hi => hinv.unborn i (Nat.le_of_succ_le hi), fun i hi => ?_, fun i hi => hi,
    fun i hi _ => ?_, fun seg hstale => ?_, hinv.unborn s.count (Nat.le_refl _), hinv.published,
    hinv.known, hinv.held⟩
  · obtain rfl := Option.some.inj hi
    exact Nat.lt_succ_self _
  · obtain rfl := Option.some.inj hi
    exact .inl rfl
  · obtain ⟨hcount, hsize, -⟩ := hinv.left seg hstale
    exact ⟨Nat.succ_pos _, hsize, fun h => Nat.ne_of_gt hcount (Option.some.inj h)⟩

/-- The target writes its segment, and where it was published before it
leaves what the watchers read. -/
theorem HandshakeInv.write (hinv : HandshakeInv t stale s) {i : Nat} {seg : ShmSegment}
    {pc : SetupPc} (hseg : s.target.seg = some i) (hpc : pc.seg = some i)
    (hkeep : (s.segs i).magic = heapvizAbiMagic →
      seg.magic = heapvizAbiMagic ∧ seg.setup = (s.segs i).setup ∧ seg.size = (s.segs i).size ∧
        seg.consumerPid = (s.segs i).consumerPid)
    (hpub : seg.magic = heapvizAbiMagic → seg.setup = t.setup) (hsize : seg.size = t.bytes)
    (hown : pc.Holds t (Function.update s.segs i seg)) :
    HandshakeInv t stale { s.setSeg i seg with target := pc } := by
  have hlink := hinv.linked i hseg
  have hborn := hinv.born i hlink
  have hsettled : SegsSettled s.segs (Function.update s.segs i seg) := settled_update fun h =>
    ⟨(hkeep h).1, (hkeep h).2.1, (hkeep h).2.2.1⟩
  refine ⟨fun j hj => ?_, hinv.born, fun j hj => ?_, fun j hj hzero => ?_,
    fun seg hstale => ?_, hown, fun j hmagic => ?_, fun w => (hinv.known w).settled hsettled,
    fun w j bytes comm hw hwatch => ?_⟩
  · have hcount : s.count ≤ j := hj
    exact (Function.update_of_ne (by omega) _ _).trans (hinv.unborn j hcount)
  · exact hpc.symm.trans hj ▸ hlink
  · obtain rfl := Option.some.inj (hlink.symm.trans hj)
    refine absurd ((congrArg ShmSegment.size (Function.update_self ..)).symm.trans hzero) ?_
    rw [hsize]
    exact Nat.ne_of_gt t.bytes_pos
  · obtain ⟨hcount, hold, hne⟩ := hinv.left _ hstale
    refine ⟨hcount, ?_, fun h => hne (hseg.trans (hpc.symm.trans h))⟩
    refine (congrArg ShmSegment.size (Function.update_of_ne ?_ _ _)).trans hold
    rintro rfl
    exact hne hseg
  · by_cases hji : j = i
    · subst hji
      have hself : Function.update s.segs j seg j = seg := Function.update_self ..
      left
      change (Function.update s.segs j seg j).setup = t.setup ∧
        (Function.update s.segs j seg j).size = t.bytes
      rw [hself]
      exact ⟨hpub ((congrArg ShmSegment.magic hself).symm.trans hmagic), hsize⟩
    · have hself : Function.update s.segs i seg j = s.segs j := Function.update_of_ne hji _ _
      refine (hinv.published j ((congrArg ShmSegment.magic hself).symm.trans hmagic)).of_eq ?_ ?_
      · exact congrArg ShmSegment.setup hself
      · exact congrArg ShmSegment.size hself
  · have hheld := hinv.held w j bytes comm hw hwatch
    by_cases hji : j = i
    · subst hji
      have hknown := hinv.known w
      have hwatch' : s.watch w = .attached j bytes comm := hwatch
      rw [hwatch'] at hknown
      refine (congrArg ShmSegment.consumerPid (Function.update_self ..)).trans ?_
      exact (hkeep hknown.1.1).2.2.2.trans hheld
    · exact (congrArg ShmSegment.consumerPid (Function.update_of_ne hji _ _)).trans hheld

theorem HandshakeInv.setWatch (hinv : HandshakeInv t stale s) {w : Nat} {pc : WatchPc}
    (hknows : pc.Knows t.page s.segs)
    (hheld : ∀ i bytes comm, w ≠ 0 → pc = .attached i bytes comm →
      (s.segs i).consumerPid = w) :
    HandshakeInv t stale (s.setWatch w pc) := by
  refine ⟨hinv.unborn, hinv.born, hinv.linked, hinv.backed, hinv.left, hinv.own, hinv.published,
    fun v => ?_, fun v i bytes comm hv hwatch => ?_⟩
  · by_cases hvw : v = w
    · subst hvw
      rw [s.watch_setWatch_self]
      exact hknows
    · rw [s.watch_setWatch_ne pc hvw]
      exact hinv.known v
  · by_cases hvw : v = w
    · subst hvw
      exact hheld i bytes comm hv ((s.watch_setWatch_self v pc).symm.trans hwatch)
    · exact hinv.held v i bytes comm hv ((s.watch_setWatch_ne pc hvw).symm.trans hwatch)

/-- A watcher writes the consumer's word of a published segment. -/
theorem HandshakeInv.setWord (hinv : HandshakeInv t stale s) {i : Nat} (word : Nat)
    (hmagic : (s.segs i).magic = heapvizAbiMagic)
    (hword : ∀ v bytes comm, v ≠ 0 → s.watch v = .attached i bytes comm → word = v) :
    HandshakeInv t stale (s.setSeg i { s.segs i with consumerPid := word }) := by
  have hself : ∀ j, Function.update s.segs i { s.segs i with consumerPid := word } j =
      { s.segs j with consumerPid := if j = i then word else (s.segs j).consumerPid } := by
    intro j
    by_cases hji : j = i
    · subst hji
      rw [Function.update_self, if_pos rfl]
    · rw [Function.update_of_ne hji, if_neg hji]
  have hsettled : SegsSettled s.segs (Function.update s.segs i
      { s.segs i with consumerPid := word }) := settled_update fun h => ⟨h, rfl, rfl⟩
  have hne : ∀ j, (s.segs j).magic ≠ heapvizAbiMagic → Function.update s.segs i
      { s.segs i with consumerPid := word } j = s.segs j := by
    intro j hj
    refine Function.update_of_ne (fun hji => hj ?_) _ _
    rw [hji]
    exact hmagic
  refine ⟨fun j hj => ?_, hinv.born, hinv.linked, fun j hj hzero => ?_, fun seg hstale => ?_, ?_,
    fun j hj => ?_, fun v => (hinv.known v).settled hsettled,
    fun v j bytes comm hv hwatch => ?_⟩
  · have hunborn := hinv.unborn j hj
    exact (hne j (by rw [hunborn]; exact heapvizAbiMagic_ne)).trans hunborn
  · exact hinv.backed j hj ((congrArg ShmSegment.size (hself j)).symm.trans hzero)
  · obtain ⟨hcount, hsize, hseg⟩ := hinv.left seg hstale
    exact ⟨hcount, (congrArg ShmSegment.size (hself 0)).trans hsize, hseg⟩
  · exact hinv.own.frame hsettled hne
  · have hmagic' := (congrArg ShmSegment.magic (hself j)).symm.trans hj
    obtain ⟨-, hsetup, hsize⟩ := hsettled j hmagic'
    exact (hinv.published j hmagic').of_eq hsetup hsize
  · refine (congrArg ShmSegment.consumerPid (hself j)).trans ?_
    by_cases hji : j = i
    · subst hji
      exact (if_pos rfl).trans (hword v bytes comm hv hwatch)
    · exact (if_neg hji).trans (hinv.held v j bytes comm hv hwatch)

theorem HandshakeInv.setup (hinv : HandshakeInv t stale s) {ok : Bool}
    (h : s.setup t ok = some s') : HandshakeInv t stale s' := by
  -- outside its segment the target finds pages behind the name
  have hquiet : ∀ {pc : SetupPc}, s.target.seg = none → pc.seg = none → pc.Holds t s.segs →
      HandshakeInv t stale { s with target := pc } := by
    intro pc hseg hpc hholds
    refine hinv.retarget (fun _ hi => hi) hholds (.inl hpc) (fun i hi => ?_) fun i hi hzero => ?_
    · rw [hpc] at hi
      cases hi
    · rcases hinv.backed i hi hzero with hat | hat | hleft
      · rw [hat] at hseg
        cases hseg
      · rw [hat] at hseg
        cases hseg
      · exact .inr (.inr hleft)
  have hown := hinv.own
  unfold HandshakeSys.setup at h
  cases htarget : s.target with
  | shmOpen =>
      simp only [htarget] at h
      split at h
      · obtain rfl := Option.some.inj h
        exact hquiet (by rw [htarget]; rfl) rfl trivial
      · split at h
        · obtain rfl := Option.some.inj h
          exact hquiet (by rw [htarget]; rfl) rfl trivial
        · obtain rfl := Option.some.inj h
          exact hinv.create
  | clearStale =>
      simp only [htarget] at h
      obtain rfl := Option.some.inj h
      cases ok with
      | false => exact hquiet (by rw [htarget]; rfl) rfl trivial
      | true =>
          exact hinv.retarget (fun i hi => nomatch hi) trivial (.inl rfl) (fun i hi => nomatch hi)
            fun i hi => nomatch hi
  | shmOpenAgain =>
      simp only [htarget] at h
      split at h
      · obtain rfl := Option.some.inj h
        exact hquiet (by rw [htarget]; rfl) rfl trivial
      · obtain rfl := Option.some.inj h
        exact hinv.create
  | ftruncate i =>
      simp only [htarget] at h
      rw [htarget] at hown
      have hseg : s.segs i = ShmSegment.created := hown
      have hlink := hinv.linked i (by rw [htarget]; rfl)
      split at h
      · obtain rfl := Option.some.inj h
        refine hinv.retarget (fun _ hj => hj) ?_ (.inr (by rw [htarget]; rfl)) (fun j hj => ?_)
          fun j hj _ => ?_
        · exact congrArg ShmSegment.magic hseg
        · obtain rfl := Option.some.inj hj
          exact hlink
        · obtain rfl := Option.some.inj (hlink.symm.trans hj)
          exact .inr (.inl rfl)
      · obtain rfl := Option.some.inj h
        have hmagic : (s.segs i).magic ≠ heapvizAbiMagic := by
          rw [hseg]
          exact heapvizAbiMagic_ne
        refine hinv.write (by rw [htarget]; rfl) rfl (absurd · hmagic) (absurd · hmagic) rfl ?_
        exact (Function.update_self ..).trans (by rw [hseg])
  | unlink i =>
      simp only [htarget] at h
      obtain rfl := Option.some.inj h
      exact hinv.retarget (fun j hj => nomatch hj) trivial (.inl rfl) (fun j hj => nomatch hj)
        fun j hj => nomatch hj
  | mmap i =>
      simp only [htarget] at h
      rw [htarget] at hown
      have hseg : s.segs i = { ShmSegment.created with size := t.bytes } := hown
      have hlink := hinv.linked i (by rw [htarget]; rfl)
      have hpages : ∀ j, s.link = some j → (s.segs j).size ≠ 0 := by
        intro j hj
        obtain rfl := Option.some.inj (hlink.symm.trans hj)
        rw [hseg]
        exact Nat.ne_of_gt t.bytes_pos
      obtain rfl := Option.some.inj h
      cases ok with
      | false =>
          refine hinv.retarget (fun _ hj => hj) ?_ (.inr (by rw [htarget]; rfl)) (fun j hj => ?_)
            fun j hj hzero => absurd hzero (hpages j hj)
          · exact congrArg ShmSegment.magic hseg
          · obtain rfl := Option.some.inj hj
            exact hlink
      | true =>
          refine hinv.retarget (fun _ hj => hj) hseg (.inr (by rw [htarget]; rfl)) (fun j hj => ?_)
            fun j hj hzero => absurd hzero (hpages j hj)
          obtain rfl := Option.some.inj hj
          exact hlink
  | memset i =>
      simp only [htarget] at h
      rw [htarget] at hown
      have hseg : s.segs i = { ShmSegment.created with size := t.bytes } := hown
      have hmagic : (s.segs i).magic ≠ heapvizAbiMagic := by
        rw [hseg]
        exact heapvizAbiMagic_ne
      obtain rfl := Option.some.inj h
      refine hinv.write (by rw [htarget]; rfl) rfl (absurd · hmagic)
        (absurd · heapvizAbiMagic_ne) (congrArg ShmSegment.size hseg) ?_
      exact (Function.update_self ..).trans (by rw [hseg]; rfl)
  | store i next =>
      simp only [htarget] at h
      rw [htarget] at hown
      have hseg : s.segs i = { ShmSegment.created with
        size := t.bytes
        setup := (setupOrder.take next).foldl t.setup.copy HvSetup.zero } := hown
      have hmagic : (s.segs i).magic ≠ heapvizAbiMagic := by
        rw [hseg]
        exact heapvizAbiMagic_ne
      split at h
      · rename_i f hf
        obtain rfl := Option.some.inj h
        refine hinv.write (by rw [htarget]; rfl) rfl (absurd · hmagic) (absurd · hmagic)
          (congrArg ShmSegment.size hseg) ?_
        refine (Function.update_self ..).trans ?_
        rw [hseg, List.take_add_one, hf, List.foldl_append]
        rfl
      · rename_i hend
        obtain rfl := Option.some.inj h
        have hlink := hinv.linked i (by rw [htarget]; rfl)
        refine hinv.retarget (fun _ hj => hj) ?_ (.inr (by rw [htarget]; rfl)) (fun j hj => ?_)
          fun j hj hzero => ?_
        · -- all eight stores are done
          rw [List.take_of_length_le (List.getElem?_eq_none_iff.mp hend)] at hseg
          exact hseg
        · obtain rfl := Option.some.inj hj
          exact hlink
        · obtain rfl := Option.some.inj (hlink.symm.trans hj)
          rw [hseg] at hzero
          exact absurd hzero (Nat.ne_of_gt t.bytes_pos)
  | publish i =>
      simp only [htarget] at h
      rw [htarget] at hown
      have hseg : s.segs i =
        { ShmSegment.created with size := t.bytes, setup := t.setup } := hown
      have hmagic : (s.segs i).magic ≠ heapvizAbiMagic := by
        rw [hseg]
        exact heapvizAbiMagic_ne
      obtain rfl := Option.some.inj h
      refine hinv.write (by rw [htarget]; rfl) rfl (absurd · hmagic)
        (fun _ => congrArg ShmSegment.setup hseg) (congrArg ShmSegment.size hseg) ?_
      have hself := Function.update_self i { s.segs i with magic := heapvizAbiMagic } s.segs
      refine ⟨congrArg ShmSegment.magic hself, ?_, ?_⟩
      · exact (congrArg ShmSegment.setup hself).trans (congrArg ShmSegment.setup hseg)
      · exact (congrArg ShmSegment.size hself).trans (congrArg ShmSegment.size hseg)
  | running i => simp [htarget] at h
  | teardown i => simp [htarget] at h
  | disabled => simp [htarget] at h

theorem HandshakeInv.fini (hinv : HandshakeInv t stale s) (h : s.fini = some s') :
    HandshakeInv t stale s' := by
  have hown := hinv.own
  unfold HandshakeSys.fini at h
  split at h
  · rename_i i htarget
    rw [htarget] at hown
    obtain ⟨hmagic, hsetup, hsize⟩ := hown
    obtain rfl := Option.some.inj h
    refine hinv.write (by rw [htarget]; rfl) rfl (fun _ => ⟨hmagic, rfl, rfl, rfl⟩)
      (fun _ => hsetup) hsize ?_
    have hself := Function.update_self i { s.segs i with producerExited := true } s.segs
    refine ⟨(congrArg ShmSegment.magic hself).trans hmagic, ?_, ?_⟩
    · exact (congrArg ShmSegment.setup hself).trans hsetup
    · exact (congrArg ShmSegment.size hself).trans hsize
  · obtain rfl := Option.some.inj h
    exact hinv.retarget (fun j hj => nomatch hj) trivial (.inl rfl) (fun j hj => nomatch hj)
      fun j hj => nomatch hj
  · cases h

/-- A watcher goes on to a place short of its claim. -/
theorem HandshakeInv.goto (hinv : HandshakeInv t stale s) {w : Nat} {pc : WatchPc}
    (hknows : pc.Knows t.page s.segs) (hpc : ∀ i bytes comm, pc ≠ .attached i bytes comm) :
    HandshakeInv t stale (s.setWatch w pc) :=
  hinv.setWatch hknows fun i bytes comm _ h => absurd h (hpc i bytes comm)

theorem HandshakeInv.retry (hinv : HandshakeInv t stale s) (w waited timeoutMs : Nat) :
    HandshakeInv t stale (s.setWatch w (HandshakeSys.retry waited timeoutMs)) := by
  unfold HandshakeSys.retry
  split
  · exact hinv.goto trivial fun _ _ _ h => (nomatch h)
  · exact hinv.goto trivial fun _ _ _ h => (nomatch h)

theorem HandshakeInv.load (hinv : HandshakeInv t stale s) {w i : Nat} {pc : WatchPc}
    (h : HandshakeInv t stale (s.setWatch w pc)) : HandshakeInv t stale (s.load w i pc) := by
  unfold HandshakeSys.load
  split
  · exact hinv.goto trivial fun _ _ _ h => (nomatch h)
  · exact h

theorem HandshakeInv.poll (hinv : HandshakeInv t stale s) {w : Nat} {ok spurious : Bool}
    (h : s.pollStep t.page w ok spurious (s.watch w) = some s') : HandshakeInv t stale s' := by
  have hknown := hinv.known w
  unfold HandshakeSys.pollStep at h
  cases hpc : s.watch w with
  | shmOpen waited timeoutMs =>
      simp only [hpc] at h
      split at h
      · obtain rfl := Option.some.inj h
        exact hinv.goto trivial fun _ _ _ h => (nomatch h)
      · obtain rfl := Option.some.inj h
        split
        · exact hinv.goto trivial fun _ _ _ h => (nomatch h)
        · exact hinv.retry w waited timeoutMs
  | mmapHeader waited timeoutMs i =>
      simp only [hpc] at h
      obtain rfl := Option.some.inj h
      split
      · exact hinv.goto trivial fun _ _ _ h => (nomatch h)
      · exact hinv.goto trivial fun _ _ _ h => (nomatch h)
  | loadMagic waited timeoutMs i =>
      simp only [hpc] at h
      obtain rfl := Option.some.inj h
      apply hinv.load
      split
      · exact hinv.retry w waited timeoutMs
      · rename_i hmagic
        exact hinv.goto (not_ne_iff.mp hmagic) fun _ _ _ h => (nomatch h)
  | loadVersion i =>
      rw [hpc] at hknown
      simp only [hpc] at h
      obtain rfl := Option.some.inj h
      apply hinv.load
      split
      · exact hinv.goto trivial fun _ _ _ h => (nomatch h)
      · rename_i hversion
        exact hinv.goto ⟨hknown, not_ne_iff.mp hversion⟩ fun _ _ _ h => (nomatch h)
  | loadEventSize i =>
      rw [hpc] at hknown
      simp only [hpc] at h
      obtain rfl := Option.some.inj h
      apply hinv.load
      split
      · exact hinv.goto trivial fun _ _ _ h => (nomatch h)
      · rename_i hsize
        exact hinv.goto ⟨hknown.1, hknown.2, not_ne_iff.mp hsize⟩ fun _ _ _ h => (nomatch h)
  | loadCapacity i =>
      rw [hpc] at hknown
      simp only [hpc] at h
      obtain rfl := Option.some.inj h
      exact hinv.load (hinv.goto ⟨hknown, rfl⟩ fun _ _ _ h => (nomatch h))
  | copyComm i capacity =>
      rw [hpc] at hknown
      simp only [hpc] at h
      obtain rfl := Option.some.inj h
      exact hinv.load (hinv.goto ⟨hknown.1, hknown.2, rfl⟩ fun _ _ _ h => (nomatch h))
  | mmapRing i capacity comm =>
      rw [hpc] at hknown
      obtain ⟨hchecked, rfl, rfl⟩ := hknown
      simp only [hpc] at h
      obtain rfl := Option.some.inj h
      split
      · exact hinv.goto ⟨hchecked, rfl, rfl⟩ fun _ _ _ h => (nomatch h)
      · exact hinv.goto trivial fun _ _ _ h => (nomatch h)
  | claim i bytes comm =>
      rw [hpc] at hknown
      simp only [hpc] at h
      split at h
      · obtain rfl := Option.some.inj h
        exact hinv.goto trivial fun _ _ _ h => (nomatch h)
      · rcases hvRingClaim_cases (s.segs i).consumerPid w spurious with
          ⟨hword, hclaim⟩ | ⟨hword, hclaim⟩ | ⟨hword, hclaim⟩
        · rw [hclaim] at h
          obtain rfl := Option.some.inj h
          -- the word was zero, so no other watcher is attached to this segment
          have hset := hinv.setWord w hknown.1.1 fun v bytes' comm' hv hwatch => by
            have hheld := hinv.held v i bytes' comm' hv hwatch
            exact absurd (hheld.symm.trans hword) hv
          have hsettled : SegsSettled s.segs (Function.update s.segs i
              { s.segs i with consumerPid := w }) := settled_update fun h => ⟨h, rfl, rfl⟩
          refine hset.setWatch (hknown.settled hsettled) fun j bytes' comm' hw hatt => ?_
          cases hatt
          exact congrArg ShmSegment.consumerPid
            (Function.update_self i { s.segs i with consumerPid := w } s.segs)
        · rw [hclaim] at h
          obtain rfl := Option.some.inj h
          exact hinv
        · rw [hclaim] at h
          obtain rfl := Option.some.inj h
          exact hinv.goto trivial fun _ _ _ h => (nomatch h)
  | idle => simp [hpc] at h
  | attached i bytes comm => simp [hpc] at h
  | returned status => simp [hpc] at h
  | killed => simp [hpc] at h

theorem HandshakeInv.detach (hinv : HandshakeInv t stale s) {w i bytes : Nat} {comm : List Nat}
    (hwatch : s.watch w = .attached i bytes comm) (spurious : Bool) :
    HandshakeInv t stale ((s.setSeg i { s.segs i with
      consumerPid := hvRingRelease (s.segs i).consumerPid w spurious }).setWatch w .idle) := by
  have hknown := hinv.known w
  rw [hwatch] at hknown
  have hidle : HandshakeInv t stale (s.setWatch w .idle) :=
    hinv.goto trivial fun _ _ _ h => (nomatch h)
  refine hidle.setWord (i := i) _ hknown.1.1 fun v bytes' comm' hv hattached => ?_
  have hvw : v ≠ w := by
    rintro rfl
    rw [s.watch_setWatch_self] at hattached
    cases hattached
  rw [s.watch_setWatch_ne _ hvw] at hattached
  have hheld := hinv.held v i bytes' comm' hv hattached
  rcases hvRingRelease_cases (s.segs i).consumerPid w spurious with ⟨hword, -⟩ | hword
  · exact absurd (hheld.symm.trans hword) hvw
  · exact hword.trans hheld

theorem HandshakeInv.step (hinv : HandshakeInv t stale s) {a : HandshakeAct}
    (h : HandshakeSys.step t s a = some s') : HandshakeInv t stale s' := by
  cases a with
  | setup ok => exact hinv.setup (Option.ite_none_right_eq_some.mp h).2
  | fini => exact hinv.fini (Option.ite_none_right_eq_some.mp h).2
  | exit =>
      obtain rfl := Option.some.inj h
      exact ⟨hinv.unborn, hinv.born, hinv.linked, hinv.backed, hinv.left, hinv.own, hinv.published,
        hinv.known, hinv.held⟩
  | attach w timeoutMs =>
      simp only [HandshakeSys.step] at h
      split at h
      · obtain rfl := Option.some.inj h
        exact hinv.goto trivial fun _ _ _ h => (nomatch h)
      · obtain rfl := Option.some.inj h
        exact hinv.goto trivial fun _ _ _ h => (nomatch h)
      · cases h
  | poll w ok spurious => exact hinv.poll h
  | detach w spurious =>
      simp only [HandshakeSys.step] at h
      split at h
      · rename_i hwatch
        obtain rfl := Option.some.inj h
        exact hinv.detach hwatch spurious
      · cases h

theorem HandshakeInv.run {as : List HandshakeAct}
    (hrun : Run.run (HandshakeSys.step t) (HandshakeSys.init stale) as = some s) :
    HandshakeInv t stale s :=
  Run.run_invariant (I := HandshakeInv t stale) (fun _ _ _ hinv h => hinv.step h)
    (HandshakeInv.init t stale) hrun

/-- What a run leaves behind at any of its points is again what may be found. -/
theorem HandshakeInv.sound (hinv : HandshakeInv t stale s)
    (hstale : ∀ seg, stale = some seg → seg.Sound t.page) (i : Nat) : (s.segs i).Sound t.page := by
  by_cases hmagic : (s.segs i).magic = heapvizAbiMagic
  · exact (hinv.published i hmagic).sound t.bytes_pos hstale
  · exact ⟨fun h => absurd h hmagic, fun h => absurd h hmagic⟩

end Step

/-! ## What a watcher maps -/

/-- **A watcher maps the segment it has seen.** Whatever the interleaving and
whatever a setup left under the name, an attached watcher has mapped exactly
the bytes of its segment, whose header is of this build, complete, and what
the watcher read of it; the consumer's word is its own. The segment is the
target's, or a published one that was left behind. -/
theorem attach_maps_segment {t : HvTarget} {stale : Option ShmSegment}
    (hstale : ∀ seg, stale = some seg → seg.Sound t.page) {as : List HandshakeAct}
    {s : HandshakeSys}
    (hrun : Run.run (HandshakeSys.step t) (HandshakeSys.init stale) as = some s)
    {w i bytes : Nat} {comm : List Nat} (hwatch : s.watch w = .attached i bytes comm) :
    (s.segs i).magic = heapvizAbiMagic ∧ (s.segs i).setup.abiVersion = heapvizAbiVersion ∧
      (s.segs i).setup.eventSize = hvEventSize ∧ bytes = (s.segs i).size ∧
      bytes = hvMappingSize (s.segs i).setup.capacity t.page ∧ comm = (s.segs i).setup.comm ∧
      (w ≠ 0 → (s.segs i).consumerPid = w) ∧
      (((s.segs i).setup = t.setup ∧ bytes = t.bytes) ∨
        ∃ seg, stale = some seg ∧ i = 0 ∧ seg.magic = heapvizAbiMagic ∧
          (s.segs i).setup = seg.setup ∧ bytes = seg.size) := by
  have hinv := HandshakeInv.run hrun
  have hknown := hinv.known w
  rw [hwatch] at hknown
  obtain ⟨⟨hmagic, hversion, hsize⟩, hbytes, hcomm⟩ := hknown
  have hmapped : bytes = (s.segs i).size :=
    hbytes.trans ((hinv.sound hstale i).sized hmagic hversion hsize).symm
  refine ⟨hmagic, hversion, hsize, hmapped, hbytes, hcomm,
    fun hw => hinv.held w i bytes comm hw hwatch, ?_⟩
  rw [hmapped]
  exact hinv.published i hmagic

/-- The default ring of a program on pages of 4 KiB. -/
def defaultTarget : HvTarget := ⟨none, 4096, 7, 1, [0x78], 12, by decide, rfl⟩

/-- What an earlier process of this pid left behind. -/
def leftBehind : ShmSegment :=
  ⟨defaultTarget.bytes, heapvizAbiMagic, { defaultTarget.setup with comm := [0x79] }, 0, false⟩

theorem leftBehind_sound (seg : ShmSegment) (h : some leftBehind = some seg) :
    seg.Sound defaultTarget.page := by
  obtain rfl := Option.some.inj h
  exact ⟨fun _ => defaultTarget.bytes_pos, fun _ _ _ => rfl⟩

/-- A watcher attaches to what was left, then the target sets its ring up and
a second one attaches to that. -/
def attachTwice : List HandshakeAct :=
  .attach 8 3000 :: List.replicate 9 (.poll 8 true false) ++
    (List.replicate 16 (.setup true) ++ .attach 9 3000 :: List.replicate 9 (.poll 9 true false))

theorem attach_maps_segment_twice : ∃ s,
    Run.run (HandshakeSys.step defaultTarget) (HandshakeSys.init (some leftBehind)) attachTwice =
      some s ∧
    s.watch 8 = .attached 0 33558528 [0x79] ∧ s.watch 9 = .attached 1 33558528 [0x78] ∧
    (s.segs 0).consumerPid = 8 ∧ (s.segs 1).consumerPid = 9 := by
  have hrun : Run.run (HandshakeSys.step defaultTarget) (HandshakeSys.init (some leftBehind))
      attachTwice = some _ := rfl
  refine ⟨_, hrun, rfl, rfl, ?_, ?_⟩
  · exact (attach_maps_segment leftBehind_sound hrun (w := 8) (i := 0)
      (rfl : _ = WatchPc.attached 0 33558528 [0x79])).2.2.2.2.2.2.1 (by decide)
  · exact (attach_maps_segment leftBehind_sound hrun (w := 9) (i := 1)
      (rfl : _ = WatchPc.attached 1 33558528 [0x78])).2.2.2.2.2.2.1 (by decide)

/-! ## Where a watcher dies -/

/-- The name stands for a segment without pages. -/
def HandshakeSys.Empty (s : HandshakeSys) : Prop := ∃ i, s.link = some i ∧ (s.segs i).size = 0

/-- No watcher opens the name in `s` while there is nothing behind it. -/
def OpensPages (s : HandshakeSys) : HandshakeAct → Prop
  | .poll w true _ => (∃ waited timeoutMs, s.watch w = .shmOpen waited timeoutMs) → ¬ s.Empty
  | _ => True

/-- Neither dead nor about to be. -/
def WatchPc.Safe (segs : Nat → ShmSegment) : WatchPc → Prop
  | .mmapHeader _ _ i | .loadMagic _ _ i => (segs i).size ≠ 0
  | .killed => False
  | _ => True

section Safe

variable {t : HvTarget} {stale : Option ShmSegment} {s s' : HandshakeSys}

theorem WatchPc.Safe.grown {segs segs' : Nat → ShmSegment} {pc : WatchPc} (h : pc.Safe segs)
    (hgrown : ∀ i, (segs i).size ≠ 0 → (segs' i).size ≠ 0) : pc.Safe segs' := by
  cases pc with
  | mmapHeader waited timeoutMs i => exact hgrown i h
  | loadMagic waited timeoutMs i => exact hgrown i h
  | killed => exact h
  | _ => trivial

theorem grown_update {segs : Nat → ShmSegment} {i : Nat} {seg : ShmSegment}
    (h : (segs i).size ≠ 0 → seg.size ≠ 0) (j : Nat) (hj : (segs j).size ≠ 0) :
    (Function.update segs i seg j).size ≠ 0 := by
  by_cases hji : j = i
  · subst hji
    rw [Function.update_self]
    exact h hj
  · rw [Function.update_of_ne hji]
    exact hj

/-- The target leaves the watchers where they are, and no segment loses its
pages. -/
theorem setup_grown (hinv : HandshakeInv t stale s) {ok : Bool} (h : s.setup t ok = some s') :
    s'.watch = s.watch ∧ ∀ i, (s.segs i).size ≠ 0 → (s'.segs i).size ≠ 0 := by
  have hcreate : ∀ i, (s.segs i).size ≠ 0 → (s.create.segs i).size ≠ 0 :=
    grown_update fun hsize => by
      rw [hinv.unborn s.count (Nat.le_refl _)] at hsize
      exact absurd rfl hsize
  unfold HandshakeSys.setup at h
  split at h
  · split at h
    · obtain rfl := Option.some.inj h
      exact ⟨rfl, fun _ hi => hi⟩
    · split at h
      · obtain rfl := Option.some.inj h
        exact ⟨rfl, fun _ hi => hi⟩
      · obtain rfl := Option.some.inj h
        exact ⟨rfl, hcreate⟩
  · obtain rfl := Option.some.inj h
    exact ⟨rfl, fun _ hi => hi⟩
  · split at h
    · obtain rfl := Option.some.inj h
      exact ⟨rfl, fun _ hi => hi⟩
    · obtain rfl := Option.some.inj h
      exact ⟨rfl, hcreate⟩
  · split at h
    · obtain rfl := Option.some.inj h
      exact ⟨rfl, fun _ hi => hi⟩
    · obtain rfl := Option.some.inj h
      exact ⟨rfl, grown_update fun _ => Nat.ne_of_gt t.bytes_pos⟩
  · obtain rfl := Option.some.inj h
    exact ⟨rfl, fun _ hi => hi⟩
  · obtain rfl := Option.some.inj h
    exact ⟨rfl, fun _ hi => hi⟩
  · obtain rfl := Option.some.inj h
    exact ⟨rfl, grown_update id⟩
  · split at h
    · obtain rfl := Option.some.inj h
      exact ⟨rfl, grown_update id⟩
    · obtain rfl := Option.some.inj h
      exact ⟨rfl, fun _ hi => hi⟩
  · obtain rfl := Option.some.inj h
    exact ⟨rfl, grown_update id⟩
  · cases h
  · cases h
  · cases h

theorem fini_grown (h : s.fini = some s') :
    s'.watch = s.watch ∧ ∀ i, (s.segs i).size ≠ 0 → (s'.segs i).size ≠ 0 := by
  unfold HandshakeSys.fini at h
  split at h
  · obtain rfl := Option.some.inj h
    exact ⟨rfl, grown_update id⟩
  · obtain rfl := Option.some.inj h
    exact ⟨rfl, fun _ hi => hi⟩
  · cases h

/-- Every watcher is safe. -/
def HandshakeSys.Safe (s : HandshakeSys) : Prop := ∀ w, (s.watch w).Safe s.segs

theorem HandshakeSys.Safe.setWatch (h : s.Safe) {w : Nat} {pc : WatchPc} (hpc : pc.Safe s.segs) :
    (s.setWatch w pc).Safe := by
  intro v
  by_cases hvw : v = w
  · subst hvw
    rw [s.watch_setWatch_self]
    exact hpc
  · rw [s.watch_setWatch_ne pc hvw]
    exact h v

theorem HandshakeSys.Safe.setWord (h : s.Safe) (i word : Nat) :
    (s.setSeg i { s.segs i with consumerPid := word }).Safe :=
  fun w => (h w).grown (grown_update id)

theorem HandshakeSys.Safe.retry (h : s.Safe) (w waited timeoutMs : Nat) :
    (s.setWatch w (HandshakeSys.retry waited timeoutMs)).Safe := by
  unfold HandshakeSys.retry
  split
  · exact h.setWatch trivial
  · exact h.setWatch trivial

theorem HandshakeSys.Safe.load {w i : Nat} {pc : WatchPc} (hsize : (s.segs i).size ≠ 0)
    (h : (s.setWatch w pc).Safe) : (s.load w i pc).Safe := by
  rw [HandshakeSys.load, if_neg hsize]
  exact h

/-- A step of a watcher that opens the name over pages only. What it knows
later on is of a published segment, and that has pages. -/
theorem HandshakeSys.Safe.poll (hsafe : s.Safe) (hinv : HandshakeInv t stale s)
    (hstale : ∀ seg, stale = some seg → seg.Sound t.page) {w : Nat} {ok spurious : Bool}
    (hopens : OpensPages s (.poll w ok spurious))
    (h : s.pollStep t.page w ok spurious (s.watch w) = some s') : s'.Safe := by
  have hw := hsafe w
  have hknown := hinv.known w
  have hpages : ∀ i, (s.segs i).magic = heapvizAbiMagic → (s.segs i).size ≠ 0 := fun i hmagic =>
    Nat.ne_of_gt ((hinv.sound hstale i).pages hmagic)
  unfold HandshakeSys.pollStep at h
  cases hpc : s.watch w with
  | shmOpen waited timeoutMs =>
      simp only [hpc] at h
      split at h
      · rename_i i hlink
        obtain rfl := Option.some.inj h
        cases ok with
        | false => cases hlink
        | true =>
            refine hsafe.setWatch fun hsize => ?_
            exact hopens ⟨waited, timeoutMs, hpc⟩ ⟨i, hlink, hsize⟩
      · obtain rfl := Option.some.inj h
        split
        · exact hsafe.setWatch trivial
        · exact hsafe.retry w waited timeoutMs
  | mmapHeader waited timeoutMs i =>
      rw [hpc] at hw
      simp only [hpc] at h
      obtain rfl := Option.some.inj h
      split
      · exact hsafe.setWatch hw
      · exact hsafe.setWatch trivial
  | loadMagic waited timeoutMs i =>
      rw [hpc] at hw
      simp only [hpc] at h
      obtain rfl := Option.some.inj h
      apply HandshakeSys.Safe.load hw
      split
      · exact hsafe.retry w waited timeoutMs
      · exact hsafe.setWatch trivial
  | loadVersion i =>
      rw [hpc] at hknown
      simp only [hpc] at h
      obtain rfl := Option.some.inj h
      apply HandshakeSys.Safe.load (hpages i hknown)
      split
      · exact hsafe.setWatch trivial
      · exact hsafe.setWatch trivial
  | loadEventSize i =>
      rw [hpc] at hknown
      simp only [hpc] at h
      obtain rfl := Option.some.inj h
      apply HandshakeSys.Safe.load (hpages i hknown.1)
      split
      · exact hsafe.setWatch trivial
      · exact hsafe.setWatch trivial
  | loadCapacity i =>
      rw [hpc] at hknown
      simp only [hpc] at h
      obtain rfl := Option.some.inj h
      exact HandshakeSys.Safe.load (hpages i hknown.1) (hsafe.setWatch trivial)
  | copyComm i capacity =>
      rw [hpc] at hknown
      simp only [hpc] at h
      obtain rfl := Option.some.inj h
      exact HandshakeSys.Safe.load (hpages i hknown.1.1) (hsafe.setWatch trivial)
  | mmapRing i capacity comm =>
      simp only [hpc] at h
      obtain rfl := Option.some.inj h
      split
      · exact hsafe.setWatch trivial
      · exact hsafe.setWatch trivial
  | claim i bytes comm =>
      rw [hpc] at hknown
      simp only [hpc] at h
      rw [if_neg (hpages i hknown.1.1)] at h
      split at h
      · obtain rfl := Option.some.inj h
        exact (hsafe.setWord i _).setWatch trivial
      · obtain rfl := Option.some.inj h
        exact hsafe
      · obtain rfl := Option.some.inj h
        exact hsafe.setWatch trivial
  | idle => simp [hpc] at h
  | attached i bytes comm => simp [hpc] at h
  | returned status => simp [hpc] at h
  | killed => simp [hpc] at h

theorem HandshakeSys.Safe.step (hsafe : s.Safe) (hinv : HandshakeInv t stale s)
    (hstale : ∀ seg, stale = some seg → seg.Sound t.page) {a : HandshakeAct}
    (hopens : OpensPages s a) (h : HandshakeSys.step t s a = some s') : s'.Safe := by
  cases a with
  | setup ok =>
      obtain ⟨hwatch, hgrown⟩ := setup_grown hinv (Option.ite_none_right_eq_some.mp h).2
      intro w
      rw [hwatch]
      exact (hsafe w).grown hgrown
  | fini =>
      obtain ⟨hwatch, hgrown⟩ := fini_grown (Option.ite_none_right_eq_some.mp h).2
      intro w
      rw [hwatch]
      exact (hsafe w).grown hgrown
  | exit =>
      obtain rfl := Option.some.inj h
      exact hsafe
  | attach w timeoutMs =>
      simp only [HandshakeSys.step] at h
      split at h
      · obtain rfl := Option.some.inj h
        exact hsafe.setWatch trivial
      · obtain rfl := Option.some.inj h
        exact hsafe.setWatch trivial
      · cases h
  | poll w ok spurious => exact hsafe.poll hinv hstale hopens h
  | detach w spurious =>
      simp only [HandshakeSys.step] at h
      split at h
      · obtain rfl := Option.some.inj h
        exact (hsafe.setWord _ _).setWatch trivial
      · cases h

/-- Where there is nothing behind the name: before `ftruncate`, after one that
failed, and as long as what was left behind has no pages and is still there. -/
theorem HandshakeInv.empty_iff (hinv : HandshakeInv t stale s) :
    s.Empty ↔
      (∃ i, (s.segs i).size = 0 ∧ (s.target = .ftruncate i ∨ s.target = .unlink i)) ∨
        (s.link = some 0 ∧ ∃ seg, stale = some seg ∧ seg.size = 0) := by
  constructor
  · rintro ⟨i, hlink, hsize⟩
    rcases hinv.backed i hlink hsize with hat | hat | ⟨rfl, hleft⟩
    · exact .inl ⟨i, hsize, .inl hat⟩
    · exact .inl ⟨i, hsize, .inr hat⟩
    · exact .inr ⟨hlink, hleft⟩
  · rintro (⟨i, hsize, hat⟩ | ⟨hlink, seg, hstale, hzero⟩)
    · refine ⟨i, hinv.linked i ?_, hsize⟩
      rcases hat with hat | hat
      · rw [hat]
        rfl
      · rw [hat]
        rfl
    · exact ⟨0, hlink, (hinv.left seg hstale).2.1.trans hzero⟩

/-- A watcher that opens an empty segment and goes on at once dies. -/
theorem HandshakeSys.Empty.kills (hempty : s.Empty) {w waited timeoutMs : Nat}
    (hwatch : s.watch w = .shmOpen waited timeoutMs) :
    ∃ s', Run.run (HandshakeSys.step t) s (List.replicate 3 (.poll w true false)) = some s' ∧
      s'.watch w = .killed := by
  obtain ⟨i, hlink, hsize⟩ := hempty
  have hopen : HandshakeSys.step t s (.poll w true false) =
      some (s.setWatch w (.mmapHeader waited timeoutMs i)) := by
    simp only [HandshakeSys.step, hwatch, HandshakeSys.pollStep, hlink, if_true]
  have hmmap : ∀ m : HandshakeSys, m.watch w = .mmapHeader waited timeoutMs i →
      HandshakeSys.step t m (.poll w true false) =
        some (m.setWatch w (.loadMagic waited timeoutMs i)) := by
    intro m hm
    simp only [HandshakeSys.step, hm, HandshakeSys.pollStep, if_true]
  have hload : ∀ m : HandshakeSys, m.watch w = .loadMagic waited timeoutMs i →
      (m.segs i).size = 0 → HandshakeSys.step t m (.poll w true false) =
        some (m.setWatch w .killed) := by
    intro m hm hzero
    simp only [HandshakeSys.step, hm, HandshakeSys.pollStep, HandshakeSys.load, hzero, if_true]
  let opened := s.setWatch w (.mmapHeader waited timeoutMs i)
  let mapped := opened.setWatch w (.loadMagic waited timeoutMs i)
  have hmapped := hmmap opened (s.watch_setWatch_self w _)
  have hkilled := hload mapped (opened.watch_setWatch_self w _) hsize
  refine ⟨mapped.setWatch w .killed, ?_, mapped.watch_setWatch_self w _⟩
  refine Run.run_cons.mpr ⟨opened, hopen, Run.run_cons.mpr ⟨mapped, hmapped, ?_⟩⟩
  exact Run.run_cons.mpr ⟨_, hkilled, rfl⟩

end Safe

/-- **Where a watcher is killed.** The name stands for an empty segment
exactly while the target is between its `shm_open` and its `ftruncate`, or
its `unlink` after that failed, be it that it goes on or that it died there, and
while a segment that an earlier target left there is still under the name. A
watcher that opens the name then and goes on at once is killed by its load
of the magic; where none does, none is ever killed. -/
theorem attach_faults_window {t : HvTarget} {stale : Option ShmSegment}
    (hstale : ∀ seg, stale = some seg → seg.Sound t.page) {as : List HandshakeAct}
    {s : HandshakeSys}
    (hrun : Run.run (HandshakeSys.step t) (HandshakeSys.init stale) as = some s) :
    (s.Empty ↔
      (∃ i, (s.segs i).size = 0 ∧ (s.target = .ftruncate i ∨ s.target = .unlink i)) ∨
        (s.link = some 0 ∧ ∃ seg, stale = some seg ∧ seg.size = 0)) ∧
    (∀ w waited timeoutMs, s.watch w = .shmOpen waited timeoutMs → s.Empty →
      ∃ s', Run.run (HandshakeSys.step t) s (List.replicate 3 (.poll w true false)) = some s' ∧
        s'.watch w = .killed) ∧
    (Run.Guarded (HandshakeSys.step t) OpensPages (HandshakeSys.init stale) as →
      ∀ w, s.watch w ≠ .killed) := by
  refine ⟨(HandshakeInv.run hrun).empty_iff, fun w waited timeoutMs hwatch hempty =>
    hempty.kills hwatch, fun hguarded w hkilled => ?_⟩
  have hboth : HandshakeInv t stale s ∧ s.Safe :=
    Run.guarded_invariant (I := fun s => HandshakeInv t stale s ∧ s.Safe)
      (fun _ _ _ hs hopens h => ⟨hs.1.step h, hs.2.step hs.1 hstale hopens h⟩)
      ⟨HandshakeInv.init t stale, fun _ => trivial⟩ hguarded hrun
  have hsafe := hboth.2 w
  rw [hkilled] at hsafe
  exact hsafe

/-- `shm_open` on both sides, and nothing between, where an earlier target died
at that point too. -/
theorem attach_faults_window_opened : ∃ s,
    Run.run (HandshakeSys.step defaultTarget) (HandshakeSys.init (some ShmSegment.created))
      [.attach 9 3000, .setup true, .setup true, .setup true] = some s ∧
    s.target = .ftruncate 1 ∧
    ∃ s', Run.run (HandshakeSys.step defaultTarget) s
        (List.replicate 3 (.poll 9 true false)) = some s' ∧
      s'.watch 9 = .killed := by
  have hrun : Run.run (HandshakeSys.step defaultTarget)
      (HandshakeSys.init (some ShmSegment.created))
      [.attach 9 3000, .setup true, .setup true, .setup true] = some _ := rfl
  have hsound : ∀ seg, some ShmSegment.created = some seg → seg.Sound defaultTarget.page := by
    intro seg h
    obtain rfl := Option.some.inj h
    exact ⟨fun h => absurd h heapvizAbiMagic_ne, fun h => absurd h heapvizAbiMagic_ne⟩
  obtain ⟨hempty, hkills, -⟩ := attach_faults_window hsound hrun
  exact ⟨_, hrun, rfl, hkills 9 0 3000 rfl (hempty.mpr (.inl ⟨1, rfl, .inl rfl⟩))⟩

end Heapviz
