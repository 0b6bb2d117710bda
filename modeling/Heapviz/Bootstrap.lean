import Mathlib.Algebra.Order.Ring.Nat
import Mathlib.Data.List.Pairwise
import Mathlib.Data.Nat.Log
import Mathlib.Logic.Function.Basic
import Heapviz.Abi
import Heapviz.Checked
import Heapviz.Preload
import Heapviz.Run

/-!
# The bootstrap arena

While the real allocator is being looked up, `preload.c` serves requests
from a static arena of 64 KiB. A request reserves its bytes by one
`fetch_add` on a shared counter, compares the sum with the size of the
arena afterwards, and writes a header of two words in front of what it
returns. Nothing is given back.

Any number of threads do this at once. A thread is where it is between two
accesses to shared memory, and a thread that finds the arena exhausted still
has `hv_die` ahead of it, while which the others go on. Memory is bytes by
their distance from the arena; what the callers write, they write to
payloads they were given.

The counter and both sums are 64-bit words. A reservation is *sound* when
its sum, not wrapped, is in the arena or, wrapped, is not; and when it does
not end the arena with no payload at all. As long as every reservation is,
what is held lies in the arena, apart from everything else that is held
(`BootInv`), and headers keep their words.
-/

/-! ## Words in a memory of bytes

A memory gives a byte to every address. A word of `k` bytes is stored least
significant byte first; what a load reads depends on those `k` bytes and
nothing else, which is all a frame argument needs. -/

namespace Bytes

variable {m m' : Nat → Nat} {a k v : Nat}

/-- The word of `k` bytes at `a`. -/
def load (m : Nat → Nat) (a : Nat) : Nat → Nat
  | 0 => 0
  | k + 1 => m a + 256 * load m (a + 1) k

/-- The memory with a word of `k` bytes stored at `a`. -/
def store (m : Nat → Nat) (a k v : Nat) : Nat → Nat := fun x =>
  if a ≤ x ∧ x < a + k then v / 256 ^ (x - a) % 256 else m x

/-- The memory with `k` bytes from `a` on set to `b`. -/
def fill (m : Nat → Nat) (a k b : Nat) : Nat → Nat := fun x => if a ≤ x ∧ x < a + k then b else m x

/-- A load sees the bytes of its word. -/
theorem load_congr (h : ∀ x, a ≤ x → x < a + k → m' x = m x) : load m' a k = load m a k := by
  induction k generalizing a with
  | zero => rfl
  | succ k ih =>
      have hrest : load m' (a + 1) k = load m (a + 1) k :=
        ih fun x hlow hhigh => h x (by omega) (by omega)
      rw [load, load, hrest, h a le_rfl (by omega)]

theorem store_of_lt {x : Nat} (h : x < a) : store m a k v x = m x := if_neg (by omega)

theorem store_of_ge {x : Nat} (h : a + k ≤ x) : store m a k v x = m x := if_neg (by omega)

theorem fill_of_lt {b x : Nat} (h : x < a) : fill m a k b x = m x := if_neg (by omega)

theorem fill_of_ge {b x : Nat} (h : a + k ≤ x) : fill m a k b x = m x := if_neg (by omega)

theorem load_store_from (m : Nat → Nat) (a k v : Nat) : ∀ {n j : Nat}, j + n = k →
    load (store m a k v) (a + j) n = v / 256 ^ j % 256 ^ n
  | 0, j, _ => by rw [load, Nat.pow_zero, Nat.mod_one]
  | n + 1, j, h => by
      have hbyte : store m a k v (a + j) = v / 256 ^ j % 256 := by
        rw [store, if_pos (by omega), Nat.add_sub_cancel_left]
      rw [load, hbyte, Nat.add_assoc, load_store_from m a k v (by omega : (j + 1) + n = k),
        Nat.pow_succ 256 j, Nat.pow_succ', Nat.mod_mul, Nat.div_div_eq_div_mul]

/-- A word that was just stored is read back. -/
theorem load_store (m : Nat → Nat) (a : Nat) (hv : v < 256 ^ k) : load (store m a k v) a k = v := by
  have h := load_store_from m a k v (Nat.zero_add k)
  rwa [Nat.add_zero, Nat.pow_zero, Nat.div_one, Nat.mod_eq_of_lt hv] at h

end Bytes

namespace Heapviz

open Checked

/-! ## The allocator -/

/-- `HV_BOOTSTRAP_MAGIC`. -/
def hvBootstrapMagic : Nat := 0x484F4F5453545250

/-- The `payload` of `hv_bootstrap_alloc`. -/
def bootPayload (n : Nat) : Nat := add64 n 15 &&& complement 64 15

/-- The `need` of `hv_bootstrap_alloc`. -/
def bootNeed (n : Nat) : Nat := add64 16 (bootPayload n)

/-- `hv_bootstrap_size`, for a pointer `ptr` bytes into the arena. -/
def hvBootstrapSize (mem : Nat → Nat) (ptr : Nat) : Nat :=
  let hdr := sub64 ptr 16
  if Bytes.load mem (hdr + 8) 8 = hvBootstrapMagic then Bytes.load mem hdr 8 else 0

/-- The callers of `hv_bootstrap_alloc`: `malloc`, and `calloc`, which clears
what it gets. -/
inductive BootCall where
  | malloc (n : Nat)
  | calloc (nmemb size : Nat)
deriving Repr, DecidableEq

/-- The arguments are 64-bit words. -/
def BootCall.inWords : BootCall → Bool
  | .malloc n => n < 2 ^ 64
  | .calloc nmemb size => nmemb < 2 ^ 64 && size < 2 ^ 64

/-- The bytes asked for; none where `__builtin_mul_overflow` says so. -/
def BootCall.total : BootCall → Option Nat
  | .malloc n => some n
  | .calloc nmemb size => mul 64 nmemb size

def BootCall.clears : BootCall → Bool
  | .malloc _ => false
  | .calloc .. => true

/-! ## Any number of threads -/

/-- A block that `hv_bootstrap_alloc` returned: where its payload is in the
arena, and the bytes that were asked for. -/
structure BootBlock where
  ptr : Nat
  size : Nat
deriving Repr, DecidableEq

/-- Where a thread is: not in the allocator; past the `fetch_add` that gave it
`off`; in `hv_die`; before each of the two stores to the header; or in the
`memset` of `calloc`. -/
inductive BootPc where
  | idle
  | check (clears : Bool) (n off : Nat)
  | dying
  | storeSize (clears : Bool) (n off : Nat)
  | storeMagic (clears : Bool) (n off : Nat)
  | clearing (b : BootBlock)
deriving Repr, DecidableEq

structure BootSys where
  /-- `g_bootstrap_used`. -/
  used : Nat
  mem : Nat → Nat
  pc : Nat → BootPc
  /-- What was returned, the latest first. -/
  blocks : List BootBlock
  exited : Bool

def BootSys.init : BootSys := ⟨0, fun _ => 0, fun _ => .idle, [], false⟩

inductive BootAct where
  | call (tid : Nat) (c : BootCall)
  | run (tid : Nat)
  | write (b : BootBlock) (i byte : Nat)
deriving Repr, DecidableEq

namespace BootSys

def goto (s : BootSys) (tid : Nat) (pc : BootPc) : BootSys :=
  { s with pc := Function.update s.pc tid pc }

/-- A thread's call, up to and with the `fetch_add`. -/
def reserve (s : BootSys) (tid : Nat) (c : BootCall) : BootSys :=
  match c.total with
  | none => s
  | some n =>
      if bootPayload n < n then s
      else { s with used := add64 s.used (bootNeed n) }.goto tid (.check c.clears n s.used)

/-- A thread's next access to shared memory. -/
def advance (s : BootSys) (tid : Nat) : BootPc → Option BootSys
  | .idle => none
  | .check clears n off =>
      some (s.goto tid
        (if add64 off (bootNeed n) > hvBootstrapBytes then .dying else .storeSize clears n off))
  | .dying => some { s with exited := true }
  | .storeSize clears n off =>
      some ({ s with mem := Bytes.store s.mem off 8 n }.goto tid (.storeMagic clears n off))
  | .storeMagic clears n off =>
      let b : BootBlock := ⟨add64 off 16, n⟩
      some ({ s with
        mem := Bytes.store s.mem (off + 8) 8 hvBootstrapMagic
        blocks := b :: s.blocks }.goto tid (if clears then .clearing b else .idle))
  | .clearing b => some ({ s with mem := Bytes.fill s.mem b.ptr b.size 0 }.goto tid .idle)

/-- One step of one thread; none after `_exit`. -/
def step (s : BootSys) (x : BootAct) : Option BootSys :=
  if s.exited then none
  else
    match x with
    | .call tid c => if s.pc tid = .idle ∧ c.inWords then some (s.reserve tid c) else none
    | .run tid => s.advance tid (s.pc tid)
    | .write b i byte =>
        if b ∈ s.blocks ∧ i < b.size then
          some { s with mem := Bytes.fill s.mem (b.ptr + i) 1 (byte % 256) }
        else none

end BootSys

/-! ## What is asked and what is promised -/

/-- Where a reservation of `n` bytes at `off` ends, with no wrap-around. -/
def extentEnd (off n : Nat) : Nat := off + 16 + (n + 15) / 16 * 16

/-- A reservation for which the counter and the sums do what they are for. -/
def SoundReservation (used n : Nat) : Prop :=
  (extentEnd used n < 2 ^ 64 ∨ hvBootstrapBytes < extentEnd used n % 2 ^ 64) ∧
    ¬ (n = 0 ∧ extentEnd used n = hvBootstrapBytes)

instance (used n : Nat) : Decidable (SoundReservation used n) := inferInstanceAs (Decidable (_ ∧ _))

/-- The reservation a call is about to make, if it makes one, is sound. -/
def BootSys.Reserves (s : BootSys) : BootAct → Prop
  | .call _ c => ∀ n ∈ c.total, n ≤ 2 ^ 64 - 16 → SoundReservation s.used n
  | _ => True

instance (s : BootSys) : ∀ x, Decidable (s.Reserves x)
  | .call _ c =>
      inferInstanceAs (Decidable (∀ n ∈ c.total, n ≤ 2 ^ 64 - 16 → SoundReservation s.used n))
  | .run _ | .write .. => .isTrue trivial

/-- The payload and the header of two blocks share no byte. -/
def BootBlock.Apart (b c : BootBlock) : Prop :=
  b.ptr + b.size ≤ c.ptr - 16 ∨ c.ptr + c.size ≤ b.ptr - 16

/-- What a returned block is, for an arena placed at `arena`. -/
structure BootBlock.Sound (arena : Nat) (mem : Nat → Nat) (b : BootBlock) : Prop where
  header : 16 ≤ b.ptr
  inside : b.ptr + b.size ≤ hvBootstrapBytes
  aligned : (arena + b.ptr) % 16 = 0
  isBootstrap : hvIsBootstrapPtr arena (arena + b.ptr) = true
  size : hvBootstrapSize mem b.ptr = b.size

/-- Every block returned so far is sound and apart from the others. -/
structure BootSys.Sound (arena : Nat) (s : BootSys) : Prop where
  each : ∀ b ∈ s.blocks, b.Sound arena s.mem
  apart : s.blocks.Pairwise BootBlock.Apart

/-! ## Where everything is -/

/-- What a thread holds that has not been returned: its offset and size, from
the `fetch_add` on where its check will pass. -/
def BootPc.held : BootPc → Option (Nat × Nat)
  | .check _ n off => if extentEnd off n ≤ hvBootstrapBytes then some (off, n) else none
  | .storeSize _ n off | .storeMagic _ n off => some (off, n)
  | .idle | .dying | .clearing _ => none

/-- Header and payload, rounded up, of two reservations share no byte. -/
def ExtentsApart (off n off' n' : Nat) : Prop := extentEnd off n ≤ off' ∨ extentEnd off' n' ≤ off

theorem ExtentsApart.symm {off n off' n' : Nat} (h : ExtentsApart off n off' n') :
    ExtentsApart off' n' off n :=
  Or.symm h

/-- A reservation below the counter and in the arena, its payload address too. -/
structure BootPlaced (used off n : Nat) : Prop where
  aligned : off % 16 = 0
  counted : extentEnd off n ≤ used
  inside : extentEnd off n ≤ hvBootstrapBytes
  address : off + 16 < hvBootstrapBytes

theorem BootPlaced.mono {used used' off n : Nat} (h : BootPlaced used off n)
    (hused : used ≤ used' ∨ hvBootstrapBytes < used') : BootPlaced used' off n where
  aligned := h.aligned
  counted := by
    have hcounted := h.counted
    have hinside := h.inside
    omega
  inside := h.inside
  address := h.address

/-- What is held lies in the arena and apart from everything else that is. -/
structure BootLayout (s : BootSys) : Prop where
  aligned : s.used % 16 = 0
  thread : ∀ {tid off n}, (s.pc tid).held = some (off, n) → BootPlaced s.used off n
  block : ∀ {b}, b ∈ s.blocks → 16 ≤ b.ptr ∧ BootPlaced s.used (b.ptr - 16) b.size
  threads : ∀ {t u off n off' n'}, t ≠ u → (s.pc t).held = some (off, n) →
    (s.pc u).held = some (off', n') → ExtentsApart off n off' n'
  mixed : ∀ {tid off n b}, (s.pc tid).held = some (off, n) → b ∈ s.blocks →
    ExtentsApart off n (b.ptr - 16) b.size
  blocks : s.blocks.Pairwise fun b c => ExtentsApart (b.ptr - 16) b.size (c.ptr - 16) c.size

/-- The headers that were written still say what was written. -/
structure BootContents (s : BootSys) : Prop where
  stored : ∀ {tid clears n off}, s.pc tid = .storeMagic clears n off →
    Bytes.load s.mem off 8 = n
  header : ∀ {b}, b ∈ s.blocks →
    Bytes.load s.mem (b.ptr - 16) 8 = b.size ∧
      Bytes.load s.mem (b.ptr - 16 + 8) 8 = hvBootstrapMagic

/-- A thread before its check passes it only with what it holds, and one that
clears has been given what it clears. -/
def BootPc.Ready (blocks : List BootBlock) : BootPc → Prop
  | .check _ n off =>
      add64 off (bootNeed n) ≤ hvBootstrapBytes → extentEnd off n ≤ hvBootstrapBytes
  | .clearing b => b ∈ blocks
  | .idle | .dying | .storeSize .. | .storeMagic .. => True

/-- The invariant of the arena. -/
structure BootInv (s : BootSys) : Prop where
  layout : BootLayout s
  contents : BootContents s
  ready : ∀ tid, (s.pc tid).Ready s.blocks

section Layout

variable {s : BootSys} {tid : Nat} {pc : BootPc}

theorem BootSys.goto_pc_self : (s.goto tid pc).pc tid = pc := Function.update_self ..

theorem BootSys.goto_pc_of_ne {t : Nat} (h : t ≠ tid) : (s.goto tid pc).pc t = s.pc t :=
  Function.update_of_ne h _ _

/-- A thread that goes on holding what it held, or nothing. -/
theorem BootLayout.goto (h : BootLayout s)
    (hpc : ∀ e, pc.held = some e → (s.pc tid).held = some e) : BootLayout (s.goto tid pc) := by
  have hheld : ∀ {t e}, ((s.goto tid pc).pc t).held = some e → (s.pc t).held = some e := by
    intro t e ht
    by_cases htid : t = tid
    · subst htid
      rw [BootSys.goto_pc_self] at ht
      exact hpc e ht
    · rwa [BootSys.goto_pc_of_ne htid] at ht
  exact ⟨h.aligned, fun ht => h.thread (hheld ht), h.block,
    fun hne ht hu => h.threads hne (hheld ht) (hheld hu),
    fun ht hb => h.mixed (hheld ht) hb, h.blocks⟩

/-- The memory is no part of the layout. -/
theorem BootLayout.setMem (h : BootLayout s) (mem : Nat → Nat) :
    BootLayout { s with mem := mem } :=
  ⟨h.aligned, h.thread, h.block, h.threads, h.mixed, h.blocks⟩

/-- What a thread returns is what it held. -/
theorem BootLayout.give (h : BootLayout s) {b : BootBlock} (hpc : pc.held = none)
    (hptr : 16 ≤ b.ptr) (hheld : (s.pc tid).held = some (b.ptr - 16, b.size)) :
    BootLayout ({ s with blocks := b :: s.blocks }.goto tid pc) := by
  have hother : ∀ {t e}, (({ s with blocks := b :: s.blocks }.goto tid pc).pc t).held = some e →
      t ≠ tid ∧ (s.pc t).held = some e := by
    intro t e ht
    by_cases htid : t = tid
    · subst htid
      rw [BootSys.goto_pc_self, hpc] at ht
      cases ht
    · rw [BootSys.goto_pc_of_ne htid] at ht
      exact ⟨htid, ht⟩
  refine ⟨h.aligned, fun ht => h.thread (hother ht).2, ?_, ?_, ?_, ?_⟩
  · intro c hc
    rcases List.mem_cons.mp hc with rfl | hc
    · exact ⟨hptr, h.thread hheld⟩
    · exact h.block hc
  · intro t u off n off' n' hne ht hu
    exact h.threads hne (hother ht).2 (hother hu).2
  · intro t off n c ht hc
    rcases List.mem_cons.mp hc with rfl | hc
    · exact h.threads (hother ht).1 (hother ht).2 hheld
    · exact h.mixed (hother ht).2 hc
  · exact List.pairwise_cons.mpr ⟨fun c hc => h.mixed hheld hc, h.blocks⟩

end Layout

/-! ## A reservation -/

section Reservation

variable {n : Nat}

theorem bootPayload_eq (hn : n ≤ 2 ^ 64 - 16) : bootPayload n = (n + 15) / 16 * 16 := by
  have hsum : add64 n 15 = n + 15 := add64_of_lt (by omega)
  rw [bootPayload, hsum]
  exact and_complement_low (k := 4) (by decide) (by omega)

theorem bootPayload_of_gt (hn : 2 ^ 64 - 16 < n) (hword : n < 2 ^ 64) : bootPayload n = 0 := by
  have hsum : add64 n 15 < 16 := by
    unfold add64
    omega
  have hdown : bootPayload n = add64 n 15 / 16 * 16 :=
    and_complement_low (k := 4) (by decide) (by omega)
  rw [hdown, Nat.div_eq_of_lt hsum]

/-- The code's sum is the unwrapped one, wrapped. -/
theorem add64_bootNeed (off : Nat) (hn : n ≤ 2 ^ 64 - 16) :
    add64 off (bootNeed n) = extentEnd off n % 2 ^ 64 := by
  rw [bootNeed, bootPayload_eq hn]
  unfold add64 extentEnd
  omega

theorem BootLayout.reserve {s : BootSys} {tid : Nat} {clears : Bool} (h : BootLayout s)
    (hn : n ≤ 2 ^ 64 - 16) (hsound : SoundReservation s.used n) :
    BootLayout
      ({ s with used := add64 s.used (bootNeed n) }.goto tid (.check clears n s.used)) := by
  obtain ⟨hwrap, hzero⟩ := hsound
  have hend : extentEnd s.used n = s.used + 16 + (n + 15) / 16 * 16 := rfl
  have haligned := h.aligned
  rw [add64_bootNeed s.used hn]
  -- everything held so far stays below the counter
  have hmono : s.used ≤ extentEnd s.used n % 2 ^ 64 ∨
      hvBootstrapBytes < extentEnd s.used n % 2 ^ 64 := by
    rcases hwrap with hlt | hgt
    · left
      rw [Nat.mod_eq_of_lt hlt]
      omega
    · exact .inr hgt
  have hheld : ∀ {t e}, (({ s with used := extentEnd s.used n % 2 ^ 64 }.goto tid
        (.check clears n s.used)).pc t).held = some e →
      (t = tid ∧ e = (s.used, n) ∧ extentEnd s.used n ≤ hvBootstrapBytes) ∨
        (t ≠ tid ∧ (s.pc t).held = some e) := by
    intro t e ht
    by_cases htid : t = tid
    · subst htid
      rw [BootSys.goto_pc_self] at ht
      obtain ⟨hfits, heq⟩ := Option.ite_none_right_eq_some.mp ht
      exact .inl ⟨rfl, (Option.some.inj heq).symm, hfits⟩
    · rw [BootSys.goto_pc_of_ne htid] at ht
      exact .inr ⟨htid, ht⟩
  refine ⟨?_, ?_, ?_, ?_, ?_, h.blocks⟩
  · show extentEnd s.used n % 2 ^ 64 % 16 = 0
    omega
  · intro t off m ht
    rcases hheld ht with ⟨-, heq, hfits⟩ | ⟨-, hold⟩
    · obtain ⟨rfl, rfl⟩ := Prod.mk.inj heq
      refine ⟨haligned, ?_, hfits, ?_⟩
      · exact (Nat.mod_eq_of_lt (lt_of_le_of_lt hfits (by decide))).ge
      · -- one byte at least, or not at the end of the arena
        rcases Nat.eq_zero_or_pos m with rfl | hpos
        · have hne : extentEnd s.used 0 ≠ hvBootstrapBytes := fun heq => hzero ⟨rfl, heq⟩
          omega
        · omega
    · exact (h.thread hold).mono hmono
  · intro b hb
    exact ⟨(h.block hb).1, (h.block hb).2.mono hmono⟩
  · intro t u off m off' m' hne ht hu
    rcases hheld ht with ⟨rfl, heq, -⟩ | ⟨-, hold⟩
    · rcases hheld hu with ⟨rfl, -, -⟩ | ⟨-, hold'⟩
      · exact absurd rfl hne
      · obtain ⟨rfl, rfl⟩ := Prod.mk.inj heq
        exact .inr (h.thread hold').counted
    · rcases hheld hu with ⟨-, heq', -⟩ | ⟨-, hold'⟩
      · obtain ⟨rfl, rfl⟩ := Prod.mk.inj heq'
        exact .inl (h.thread hold).counted
      · exact h.threads hne hold hold'
  · intro t off m b ht hb
    rcases hheld ht with ⟨-, heq, -⟩ | ⟨-, hold⟩
    · obtain ⟨rfl, rfl⟩ := Prod.mk.inj heq
      exact .inr (h.block hb).2.counted
    · exact h.mixed hold hb

end Reservation

/-! ## What stays written -/

section Contents

variable {s : BootSys} {mem : Nat → Nat}

/-- Writes that miss every header leave every header. -/
theorem BootContents.setMem (h : BootContents s)
    (hstored : ∀ {tid clears n off}, s.pc tid = .storeMagic clears n off →
      ∀ x, off ≤ x → x < off + 8 → mem x = s.mem x)
    (hheader : ∀ {b}, b ∈ s.blocks → ∀ x, b.ptr - 16 ≤ x → x < b.ptr - 16 + 16 →
      mem x = s.mem x) : BootContents { s with mem := mem } where
  stored := by
    intro tid clears n off hpc
    rw [Bytes.load_congr (hstored hpc)]
    exact h.stored hpc
  header := by
    intro b hb
    have hsize : Bytes.load mem (b.ptr - 16) 8 = Bytes.load s.mem (b.ptr - 16) 8 :=
      Bytes.load_congr fun x hlow hhigh => hheader hb x hlow (by omega)
    have hmagic : Bytes.load mem (b.ptr - 16 + 8) 8 = Bytes.load s.mem (b.ptr - 16 + 8) 8 :=
      Bytes.load_congr fun x hlow hhigh => hheader hb x (by omega) (by omega)
    exact ⟨hsize.trans (h.header hb).1, hmagic.trans (h.header hb).2⟩

/-- A thread that moves has either stored its size or is not before its second
store. -/
theorem BootContents.goto (h : BootContents s) {tid : Nat} {pc : BootPc}
    (hpc : ∀ {clears n off}, pc = .storeMagic clears n off → Bytes.load s.mem off 8 = n) :
    BootContents (s.goto tid pc) where
  stored := by
    intro t clears n off ht
    by_cases htid : t = tid
    · subst htid
      rw [BootSys.goto_pc_self] at ht
      exact hpc ht
    · rw [BootSys.goto_pc_of_ne htid] at ht
      exact h.stored ht
  header := h.header

/-- Writes inside the payload of a returned block miss every header. -/
theorem BootContents.payload (h : BootContents s) (hl : BootLayout s) {b : BootBlock}
    (hb : b ∈ s.blocks) (hmem : ∀ x, x < b.ptr ∨ b.ptr + b.size ≤ x → mem x = s.mem x) :
    BootContents { s with mem := mem } := by
  have hend : b.ptr + b.size ≤ extentEnd (b.ptr - 16) b.size := by
    have hptr := (hl.block hb).1
    unfold extentEnd
    omega
  apply h.setMem
  · intro tid clears n off hpc x hlow hhigh
    apply hmem
    have happart : ExtentsApart off n (b.ptr - 16) b.size := hl.mixed (by rw [hpc]; rfl) hb
    unfold ExtentsApart at happart
    have : off + 16 ≤ extentEnd off n := by
      unfold extentEnd
      omega
    omega
  · intro c hc x hlow hhigh
    apply hmem
    have hcptr := (hl.block hc).1
    by_cases heq : c = b
    · subst heq
      omega
    · have : Std.Symm fun b c : BootBlock =>
          ExtentsApart (b.ptr - 16) b.size (c.ptr - 16) c.size := ⟨fun _ _ h => h.symm⟩
      have happart := hl.blocks.forall hc hb heq
      unfold ExtentsApart at happart
      have : c.ptr ≤ extentEnd (c.ptr - 16) c.size := by
        unfold extentEnd
        omega
      omega

/-- Writes inside the header of what a thread holds miss the others. -/
theorem BootContents.ownHeader (h : BootContents s) (hl : BootLayout s) {tid off n : Nat}
    (hheld : (s.pc tid).held = some (off, n))
    (hself : ∀ {clears n' off'}, s.pc tid = .storeMagic clears n' off' →
      ∀ x, off' ≤ x → x < off' + 8 → mem x = s.mem x)
    (hmem : ∀ x, x < off ∨ off + 16 ≤ x → mem x = s.mem x) :
    BootContents { s with mem := mem } := by
  have hend : ∀ off n, off + 16 ≤ extentEnd off n := by
    intro off n
    unfold extentEnd
    omega
  apply h.setMem
  · intro t clears n' off' hpc x hlow hhigh
    by_cases htid : t = tid
    · subst htid
      exact hself hpc x hlow hhigh
    · apply hmem
      have happart : ExtentsApart off' n' off n := hl.threads htid (by rw [hpc]; rfl) hheld
      unfold ExtentsApart at happart
      have := hend off' n'
      have := hend off n
      omega
  · intro b hb x hlow hhigh
    apply hmem
    have happart := hl.mixed hheld hb
    unfold ExtentsApart at happart
    have := hend off n
    have := hend (b.ptr - 16) b.size
    omega

theorem BootContents.give (h : BootContents s) {b : BootBlock}
    (hsize : Bytes.load s.mem (b.ptr - 16) 8 = b.size)
    (hmagic : Bytes.load s.mem (b.ptr - 16 + 8) 8 = hvBootstrapMagic) :
    BootContents { s with blocks := b :: s.blocks } where
  stored := h.stored
  header := by
    intro c hc
    rcases List.mem_cons.mp hc with rfl | hc
    · exact ⟨hsize, hmagic⟩
    · exact h.header hc

end Contents

/-! ## Every step -/

section Steps

variable {s s' : BootSys}

theorem BootInv.init : BootInv BootSys.init where
  layout := ⟨rfl, nofun, nofun, nofun, nofun, List.Pairwise.nil⟩
  contents := ⟨nofun, nofun⟩
  ready := fun _ => trivial

theorem BootPc.Ready.mono {pc : BootPc} {bs cs : List BootBlock} (h : pc.Ready bs)
    (hsub : ∀ b ∈ bs, b ∈ cs) : pc.Ready cs := by
  cases pc with
  | clearing b => exact hsub b h
  | check clears n off => exact h
  | idle | dying | storeSize | storeMagic => trivial

theorem BootInv.goto {tid : Nat} {pc : BootPc} (hl : BootLayout (s.goto tid pc))
    (hc : BootContents (s.goto tid pc)) (hready : ∀ t, (s.pc t).Ready s.blocks)
    (hpc : pc.Ready s.blocks) : BootInv (s.goto tid pc) where
  layout := hl
  contents := hc
  ready := by
    intro t
    show ((s.goto tid pc).pc t).Ready s.blocks
    by_cases htid : t = tid
    · subst htid
      rw [BootSys.goto_pc_self]
      exact hpc
    · rw [BootSys.goto_pc_of_ne htid]
      exact hready t

/-- A call reserves soundly, or returns null and changes nothing. -/
theorem BootInv.call (h : BootInv s) {tid : Nat} {c : BootCall} (hwords : c.inWords = true)
    (hsound : s.Reserves (.call tid c)) : BootInv (s.reserve tid c) := by
  unfold BootSys.reserve
  cases htotal : c.total with
  | none => exact h
  | some n =>
      dsimp only
      split
      · exact h
      · rename_i hpayload
        have hn : n ≤ 2 ^ 64 - 16 := by
          by_contra hgt
          have hword : n < 2 ^ 64 := by
            cases c with
            | malloc m =>
                cases htotal
                exact of_decide_eq_true hwords
            | calloc nmemb size =>
                obtain ⟨hlt, heq⟩ := Option.ite_none_right_eq_some.mp htotal
                rwa [← Option.some.inj heq]
          rw [bootPayload_of_gt (Nat.not_le.mp hgt) hword] at hpayload
          omega
        have hreserve := hsound n htotal hn
        have hcontents : BootContents { s with used := add64 s.used (bootNeed n) } :=
          ⟨h.contents.stored, h.contents.header⟩
        apply BootInv.goto (h.layout.reserve hn hreserve) (hcontents.goto nofun)
        · exact h.ready
        · intro hle
          rw [add64_bootNeed s.used hn] at hle
          have hwrap := hreserve.1
          omega

/-- The store of the magic ends the call: the header is whole, and the block is
the caller's. -/
theorem BootInv.giveBlock (h : BootInv s) {tid n off : Nat} {clears : Bool}
    (hpc : s.pc tid = .storeMagic clears n off) {pc : BootPc} (hheld : pc.held = none)
    (hmagic : ∀ {c m o}, pc ≠ .storeMagic c m o) (hready : pc.Ready (⟨off + 16, n⟩ :: s.blocks)) :
    BootInv ({ s with
      mem := Bytes.store s.mem (off + 8) 8 hvBootstrapMagic
      blocks := ⟨off + 16, n⟩ :: s.blocks }.goto tid pc) := by
  have hold : (s.pc tid).held = some (off, n) := by rw [hpc]; rfl
  have hcontents : BootContents
      { s with mem := Bytes.store s.mem (off + 8) 8 hvBootstrapMagic } := by
    apply h.contents.ownHeader h.layout hold
    · intro c m o heq x hlow hhigh
      rw [hpc] at heq
      cases heq
      exact Bytes.store_of_lt (by omega)
    · rintro x (hlt | hge)
      · exact Bytes.store_of_lt (by omega)
      · exact Bytes.store_of_ge (by omega)
  apply BootInv.goto
  · exact BootLayout.give (b := ⟨off + 16, n⟩)
      (h.layout.setMem (Bytes.store s.mem (off + 8) 8 hvBootstrapMagic)) hheld
      (Nat.le_add_left 16 off) hold
  · apply BootContents.goto
    · apply hcontents.give
      · exact hcontents.stored hpc
      · exact Bytes.load_store s.mem (off + 8) (by decide)
    · intro c m o heq
      exact absurd heq hmagic
  · exact fun t => (h.ready t).mono fun b hb => List.mem_cons_of_mem _ hb
  · exact hready

theorem BootInv.advance (h : BootInv s) {tid : Nat} (hstep : s.advance tid (s.pc tid) = some s') :
    BootInv s' := by
  cases hpc : s.pc tid with
  | idle =>
      rw [hpc] at hstep
      cases hstep
  | check clears n off =>
      rw [hpc] at hstep
      obtain rfl := Option.some.inj hstep
      split
      · show BootInv (s.goto tid .dying)
        exact BootInv.goto (h.layout.goto nofun) (h.contents.goto nofun) h.ready trivial
      · rename_i hpass
        have hready := h.ready tid
        rw [hpc] at hready
        have hfits := hready (Nat.not_lt.mp hpass)
        refine BootInv.goto (h.layout.goto ?_) (h.contents.goto nofun) h.ready trivial
        intro e he
        rw [hpc, BootPc.held, if_pos hfits]
        exact he
  | dying =>
      rw [hpc] at hstep
      obtain rfl := Option.some.inj hstep
      exact ⟨⟨h.layout.aligned, h.layout.thread, h.layout.block, h.layout.threads,
        h.layout.mixed, h.layout.blocks⟩, ⟨h.contents.stored, h.contents.header⟩, h.ready⟩
  | storeSize clears n off =>
      rw [hpc] at hstep
      obtain rfl := Option.some.inj hstep
      have hheld : (s.pc tid).held = some (off, n) := by rw [hpc]; rfl
      have hinside := (h.layout.thread hheld).inside
      have hn : n < 256 ^ 8 := by
        unfold extentEnd hvBootstrapBytes at hinside
        omega
      have hcontents : BootContents { s with mem := Bytes.store s.mem off 8 n } := by
        apply h.contents.ownHeader h.layout hheld
        · intro c m o heq
          rw [hpc] at heq
          cases heq
        · rintro x (hlt | hge)
          · exact Bytes.store_of_lt hlt
          · exact Bytes.store_of_ge (by omega)
      refine BootInv.goto ((h.layout.setMem _).goto ?_) (hcontents.goto ?_) h.ready trivial
      · intro e he
        rw [← he]
        exact hheld
      · intro c m o heq
        cases heq
        exact Bytes.load_store s.mem off hn
  | storeMagic clears n off =>
      rw [hpc] at hstep
      obtain rfl := Option.some.inj hstep
      have hheld : (s.pc tid).held = some (off, n) := by
        rw [hpc]
        rfl
      have hinside := (h.layout.thread hheld).inside
      have hptr : add64 off 16 = off + 16 := by
        apply add64_of_lt
        unfold extentEnd hvBootstrapBytes at hinside
        omega
      rw [hptr]
      cases clears with
      | false => exact h.giveBlock hpc rfl nofun trivial
      | true => exact h.giveBlock hpc rfl nofun List.mem_cons_self
  | clearing b =>
      have hb := h.ready tid
      rw [hpc] at hstep hb
      obtain rfl := Option.some.inj hstep
      have hcontents : BootContents { s with mem := Bytes.fill s.mem b.ptr b.size 0 } := by
        apply h.contents.payload h.layout hb
        rintro x (hlt | hge)
        · exact Bytes.fill_of_lt hlt
        · exact Bytes.fill_of_ge hge
      exact BootInv.goto ((h.layout.setMem _).goto nofun) (hcontents.goto nofun) h.ready trivial

theorem BootInv.step (h : BootInv s) {x : BootAct} (hsound : s.Reserves x)
    (hstep : s.step x = some s') : BootInv s' := by
  obtain ⟨-, hact⟩ := Option.ite_none_left_eq_some.mp hstep
  cases x with
  | call tid c =>
      obtain ⟨hcall, heq⟩ := Option.ite_none_right_eq_some.mp hact
      obtain rfl := Option.some.inj heq
      exact h.call hcall.2 hsound
  | run tid => exact h.advance hact
  | write b i byte =>
      obtain ⟨⟨hb, hi⟩, heq⟩ := Option.ite_none_right_eq_some.mp hact
      obtain rfl := Option.some.inj heq
      refine ⟨h.layout.setMem _, h.contents.payload h.layout hb ?_, h.ready⟩
      rintro x (hlt | hge)
      · exact Bytes.fill_of_lt (by omega)
      · exact Bytes.fill_of_ge (by omega)

theorem BootInv.sound (h : BootInv s) {arena : Nat} (harena : 16 ∣ arena) : s.Sound arena where
  each := by
    intro b hb
    obtain ⟨hptr, haligned, -, hinside, haddress⟩ := h.layout.block hb
    obtain ⟨hsize, hmagic⟩ := h.contents.header hb
    have hend : b.ptr + b.size ≤ extentEnd (b.ptr - 16) b.size := by
      unfold extentEnd
      omega
    have hhdr : sub64 b.ptr 16 = b.ptr - 16 := by
      apply sub64_of_le hptr
      unfold hvBootstrapBytes at hinside
      omega
    refine ⟨hptr, hend.trans hinside, by omega, ?_, ?_⟩
    · rw [hvIsBootstrapPtr, Bool.and_eq_true, decide_eq_true_eq, decide_eq_true_eq]
      omega
    · rw [hvBootstrapSize, hhdr, if_pos hmagic, hsize]
  apart := by
    refine h.layout.blocks.imp_of_mem ?_
    intro b c hb hc happart
    have hbptr := (h.layout.block hb).1
    have hcptr := (h.layout.block hc).1
    unfold ExtentsApart extentEnd at happart
    unfold BootBlock.Apart
    omega

end Steps

/-! ## Every interleaving -/

/-- **The bootstrap arena is sound**, in every state of every run of any number
of threads all of whose reservations are: whatever was returned is in the
arena, aligned, apart from the rest, recognised as the arena's, and of the
size that was asked for. -/
theorem bootstrap_sound {arena : Nat} (harena : 16 ∣ arena) {acts : List BootAct} {s : BootSys}
    (hsound : Run.Guarded BootSys.step BootSys.Reserves BootSys.init acts)
    (hrun : Run.run BootSys.step BootSys.init acts = some s) : s.Sound arena :=
  (Run.guarded_invariant (fun _ _ _ h hg hstep => h.step hg hstep) BootInv.init hsound
    hrun).sound harena

/-- Two threads reserve before either has written its header; the one that
called `calloc` clears its block, and the caller of the other writes to it. -/
def twoBoots : List BootAct :=
  [.call 1 (.calloc 4 8), .call 2 (.malloc 100), .run 2, .run 1, .run 1, .run 2, .run 2, .run 1,
    .run 1, .write ⟨64, 100⟩ 99 255]

theorem bootstrap_sound_two : ∃ s, Run.run BootSys.step BootSys.init twoBoots = some s ∧
    s.blocks = [⟨16, 32⟩, ⟨64, 100⟩] ∧ s.Sound 4096 := by
  have hobs : (Run.run BootSys.step BootSys.init twoBoots).map (fun s => s.blocks) =
      some [⟨16, 32⟩, ⟨64, 100⟩] := by decide
  obtain ⟨s, hs, hblocks⟩ := Option.map_eq_some_iff.mp hobs
  exact ⟨s, hs, hblocks, bootstrap_sound (by decide) (by decide) hs⟩

/-- **A block larger than the address space below it.** For `n = 2^64 - 16` the
payload is `n`, header and payload are zero bytes, and the arena grants them. -/
theorem bootstrap_wraps : ∃ s,
    Run.run BootSys.step BootSys.init
      [.call 1 (.malloc (2 ^ 64 - 16)), .run 1, .run 1, .run 1] = some s ∧
    s.blocks = [⟨16, 2 ^ 64 - 16⟩] ∧ ¬ s.Sound 4096 := by
  have hobs : (Run.run BootSys.step BootSys.init
      [.call 1 (.malloc (2 ^ 64 - 16)), .run 1, .run 1, .run 1]).map (fun s => s.blocks) =
      some [⟨16, 2 ^ 64 - 16⟩] := by decide
  obtain ⟨s, hs, hblocks⟩ := Option.map_eq_some_iff.mp hobs
  refine ⟨s, hs, hblocks, fun hsound => ?_⟩
  have hinside := (hsound.each ⟨16, 2 ^ 64 - 16⟩ (by rw [hblocks]; exact List.mem_cons_self)).inside
  revert hinside
  decide

end Heapviz
