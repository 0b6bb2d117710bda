import Mathlib.Data.Nat.Bitwise
import Mathlib.Data.Nat.Log

/-!
# The shared-memory ABI

The wire format both halves of the program compile: the 32-byte event
packet with its explicit little-endian 24-bit thread id, the opcodes,
the two publication flags carried in the `op` byte, and the sizing
helpers of the ring header (`common/heapviz_abi.h`).

Fixed-width words are natural numbers with the reduction written out
where an operation can leave its width: `add64`, `sub64` and `add32`
are the wrapping operations of `uint64_t` and `uint32_t`. Bit tests stay
bit tests (`&&&`, `|||`, `>>>`), and the lemmas at the bottom are what
the ring proofs use instead of unfolding them.
-/

namespace Heapviz

/-! ## Wrapping words -/

/-- `uint64_t` addition. -/
def add64 (a b : Nat) : Nat := (a + b) % 2 ^ 64

/-- `uint64_t` subtraction: free-running counters are compared by it. -/
def sub64 (a b : Nat) : Nat := (a + 2 ^ 64 - b) % 2 ^ 64

/-- `uint32_t` addition. -/
def add32 (a b : Nat) : Nat := (a + b) % 2 ^ 32

/-- `uint32_t` subtraction, as the millisecond clocks are compared. -/
def sub32 (a b : Nat) : Nat := (a + 2 ^ 32 - b) % 2 ^ 32

theorem add64_of_lt {a b : Nat} (h : a + b < 2 ^ 64) : add64 a b = a + b :=
  Nat.mod_eq_of_lt h

theorem add32_of_lt {a b : Nat} (h : a + b < 2 ^ 32) : add32 a b = a + b :=
  Nat.mod_eq_of_lt h

/-- The counter difference is the true one while the subtrahend is behind. -/
theorem sub64_of_le {a b : Nat} (h : b ≤ a) (ha : a < 2 ^ 64) :
    sub64 a b = a - b := by
  unfold sub64
  omega

/-! ## Events -/

/-- The operation codes `HV_OP_*`. -/
inductive HvOp where
  | malloc
  | free
  | calloc
  | realloc
  | memalign
deriving Repr, DecidableEq

/-- The number an opcode has on the wire. -/
def HvOp.code : HvOp → Nat
  | .malloc => 0
  | .free => 1
  | .calloc => 2
  | .realloc => 3
  | .memalign => 4

/-- `HV_OP_MASK`: bits 0-5 of the `op` byte hold the opcode. -/
def hvOpMask : Nat := 0x3F

/-- `HV_OP_PARITY_BIT`: bit 6 is the lap parity. -/
def hvOpParityBit : Nat := 0x40

/-- `HV_OP_COMMIT_BIT`: bit 7 says a producer finished the slot. -/
def hvOpCommitBit : Nat := 0x80

/-- One allocator event, field by field as the packet lays it out: `tid` is
three explicit bytes and `op` doubles as the publication flag. -/
structure HvEvent where
  timestamp : Nat
  ptr : Nat
  size : Nat
  usable : Nat
  tid0 : Nat
  tid1 : Nat
  tid2 : Nat
  op : Nat
deriving Repr, DecidableEq

/-- An all-zero slot. -/
def HvEvent.zero : HvEvent := ⟨0, 0, 0, 0, 0, 0, 0, 0⟩

/-- `hv_event_set_tid`. -/
def hvEventSetTid (e : HvEvent) (tid : Nat) : HvEvent :=
  { e with
    tid0 := tid &&& 0xFF
    tid1 := (tid >>> 8) &&& 0xFF
    tid2 := (tid >>> 16) &&& 0xFF }

/-- `hv_event_get_tid`. -/
def hvEventGetTid (e : HvEvent) : Nat :=
  e.tid0 ||| (e.tid1 <<< 8) ||| (e.tid2 <<< 16)

/-! ## Sizing helpers -/

/-- `hv_is_pow2`. -/
def hvIsPow2 (v : Nat) : Bool := v != 0 && (v &&& (v - 1)) == 0

/-- The halving loop of `hv_log2_pow2`; a 64-bit word is zero after at most
64 rounds, which is the fuel its caller passes. -/
def hvLog2Loop : Nat → Nat → Nat
  | 0, _ => 0
  | fuel + 1, v => if v >>> 1 = 0 then 0 else hvLog2Loop fuel (v >>> 1) + 1

/-- `hv_log2_pow2`: the number of times `v` can be halved before it is zero. -/
def hvLog2Pow2 (v : Nat) : Nat := hvLog2Loop 64 v

theorem hvLog2Loop_two_pow : ∀ {fuel k : Nat}, k < fuel →
    hvLog2Loop fuel (2 ^ k) = k
  | 0, _, h => absurd h (Nat.not_lt_zero _)
  | _ + 1, 0, _ => rfl
  | fuel + 1, k + 1, h => by
      have hhalf : 2 ^ (k + 1) >>> 1 = 2 ^ k := by
        rw [Nat.shiftRight_eq_div_pow, Nat.pow_succ, pow_one,
          Nat.mul_div_cancel _ (by decide)]
      have hpos := Nat.two_pow_pos k
      rw [hvLog2Loop, hhalf, if_neg (by omega),
        hvLog2Loop_two_pow (Nat.lt_of_succ_lt_succ h)]

theorem hvLog2Pow2_two_pow {k : Nat} (hk : k < 64) : hvLog2Pow2 (2 ^ k) = k :=
  hvLog2Loop_two_pow hk

/-! ## Bits of the packet -/

/-- The three stored bytes are the low 24 bits of the thread id. -/
theorem hvEventGetTid_setTid (e : HvEvent) (tid : Nat) :
    hvEventGetTid (hvEventSetTid e tid) = tid % 2 ^ 24 := by
  simp only [hvEventGetTid, hvEventSetTid]
  apply Nat.eq_of_testBit_eq
  intro i
  rw [Nat.testBit_mod_two_pow]
  simp only [Nat.testBit_or, Nat.testBit_shiftLeft, Nat.testBit_and,
    Nat.testBit_shiftRight, show (0xFF : Nat) = 2 ^ 8 - 1 from rfl,
    Nat.testBit_two_pow_sub_one]
  rcases Nat.lt_or_ge i 8 with h | h
  · simp [h, show ¬ 8 ≤ i by omega, show ¬ 16 ≤ i by omega, show i < 24 by omega]
  · rcases Nat.lt_or_ge i 16 with h' | h'
    · simp [show ¬ i < 8 by omega, h, show ¬ 16 ≤ i by omega, show i - 8 < 8 by omega,
        show 8 + (i - 8) = i by omega, show i < 24 by omega]
    · rcases Nat.lt_or_ge i 24 with h'' | h''
      · simp [show ¬ i < 8 by omega, h, h', show ¬ i - 8 < 8 by omega,
          show i - 16 < 8 by omega, show 16 + (i - 16) = i by omega, h'']
      · simp [show ¬ i < 8 by omega, show ¬ i - 8 < 8 by omega,
          show ¬ i - 16 < 8 by omega, show ¬ i < 24 by omega]

end Heapviz
