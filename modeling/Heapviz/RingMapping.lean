import Mathlib.Data.List.TakeWhile
import Heapviz.Abi
import Heapviz.Checked
import Heapviz.Numerals
import Heapviz.Session

/-!
# The bytes behind a ring

The target sizes the ring from an environment variable, the watcher from
the capacity it finds in the header, and both write slots by masking a
sequence number. `hv_mapping_size` adds the header and the slots and rounds
up to a page, in 64 bits; the variable is accepted up to the largest power
of two there is.

- `hvEnvCapacity_iff`: the capacities a target can have are the powers of
  two from 2^10 to 2^63.
- `hvMappingSize_eq`: while the sum and the rounding fit, the size is the
  header and the slots rounded up to a page.
- `hvMappingSize_of_wrap`: where they do not, it is less than the slots
  need.
-/

namespace Heapviz

open Checked

/-! ## The capacity -/

def isSpace (b : Nat) : Bool := b == 0x20 || (0x09 ≤ b && b ≤ 0x0D)

def isDigit (b : Nat) : Bool := 0x30 ≤ b && b ≤ 0x39

/-- What the decimal digits of a text denote. -/
def decimal (text : List Nat) : Nat := Numerals.value 10 (text.map (· - 0x30))

/-- What `strtoull` makes of a numeral: a minus sign negates in 64 bits, and one
that does not fit gives the largest value. -/
def clampUll (negative : Bool) (v : Nat) : Nat :=
  if v ≥ 2 ^ 64 then 2 ^ 64 - 1 else if negative then sub64 0 v else v

/-- `strtoull(text, &end, 10)` behind white space and sign. -/
def strtoullDigits (text : List Nat) (negative : Bool) (body : List Nat) : Nat × List Nat :=
  if body.takeWhile isDigit = [] then (0, text)
  else (clampUll negative (decimal (body.takeWhile isDigit)), body.dropWhile isDigit)

/-- `strtoull(text, &end, 10)`: the value, and what stands at `end`. -/
def strtoull (text : List Nat) : Nat × List Nat :=
  let body := text.dropWhile isSpace
  if body.head? = some 0x2D then strtoullDigits text true body.tail
  else if body.head? = some 0x2B then strtoullDigits text false body.tail
  else strtoullDigits text false body

/-- `HV_DEFAULT_CAPACITY`. -/
def hvDefaultCapacity : Nat := 1 <<< 20

/-- `hv_env_capacity`, given what `getenv` answers. -/
def hvEnvCapacity : Option (List Nat) → Nat
  | none | some [] => hvDefaultCapacity
  | some raw =>
      let (v, rest) := strtoull raw
      if rest ≠ [] ∨ hvIsPow2 v = false ∨ v < 1024 then hvDefaultCapacity else v

/-! ## The mapping -/

/-- `sizeof(HvRingHeader)`. -/
def hvRingHeaderSize : Nat := 256

/-- `hv_mapping_size`. -/
def hvMappingSize (capacity pageSize : Nat) : Nat :=
  let raw := add64 hvRingHeaderSize (capacity * hvEventSize % 2 ^ 64)
  sub64 (add64 raw pageSize) 1 &&& complement 64 (sub64 pageSize 1)

/-- Where `hv_ring_slot` points, in bytes from the header. -/
def hvRingSlot (capacity seq : Nat) : Nat :=
  hvRingHeaderSize + hvEventSize * (seq &&& (capacity - 1))

inductive OpenAnswer where
  | opened
  | present
  | refused
deriving Repr, DecidableEq

/-- What the kernel answers `hv_ring_setup`: the two tries of `shm_open`, the
second after clearing a stale segment, then `ftruncate` and `mmap`. -/
structure SetupAnswers where
  firstOpen : OpenAnswer
  secondOpen : Bool
  ftruncate : Bool
  mmap : Bool
deriving Repr, DecidableEq

/-- The mapping of the target and the geometry in its header. -/
structure RingSegment where
  bytes : Nat
  abiVersion : Nat
  eventSize : Nat
  capacity : Nat
  capacityLog2 : Nat
deriving Repr, DecidableEq

/-- `hv_ring_setup`; none where telemetry is disabled. -/
def hvRingSetup (env : Option (List Nat)) (page : Nat) (sys : SetupAnswers) : Option RingSegment :=
  let capacity := hvEnvCapacity env
  let bytes := hvMappingSize capacity page
  let fd := match sys.firstOpen with
    | .opened => true
    | .present => sys.secondOpen
    | .refused => false
  if fd = false then none
  else if sys.ftruncate = false then none
  else if sys.mmap = false then none
  else some ⟨bytes, heapvizAbiVersion, hvEventSize, capacity, hvLog2Pow2 capacity⟩

/-- The length `RingSession::attach` maps, from the header it finds. -/
def RingSegment.attachBytes (seg : RingSegment) (page : Nat) : Nat :=
  hvMappingSize seg.capacity page

/-! ## Which capacities there are -/

theorem hvIsPow2_iff {v : Nat} : hvIsPow2 v = true ↔ ∃ k, v = 2 ^ k := by
  rw [hvIsPow2, Bool.and_eq_true, bne_iff_ne, beq_iff_eq]
  exact Nat.ne_zero_and_sub_one_eq_zero_iff_isPowerOfTwo

theorem clampUll_lt (negative : Bool) (v : Nat) : clampUll negative v < 2 ^ 64 := by
  unfold clampUll
  split
  · decide
  · split
    · exact Nat.mod_lt _ (by decide)
    · omega

theorem strtoullDigits_lt (text : List Nat) (negative : Bool) (body : List Nat) :
    (strtoullDigits text negative body).1 < 2 ^ 64 := by
  unfold strtoullDigits
  split
  · exact Nat.two_pow_pos 64
  · exact clampUll_lt _ _

theorem strtoull_lt (text : List Nat) : (strtoull text).1 < 2 ^ 64 := by
  unfold strtoull
  dsimp only
  split
  · exact strtoullDigits_lt _ _ _
  · split
    · exact strtoullDigits_lt _ _ _
    · exact strtoullDigits_lt _ _ _

/-- The text of a number, as one writes it. -/
def decimalText (n : Nat) : List Nat := (Numerals.digits 10 n).map (· + 0x30)

theorem decimal_decimalText (n : Nat) : decimal (decimalText n) = n := by
  rw [decimal, decimalText, List.map_map]
  have hid : ((fun b => b - 0x30) ∘ fun d => d + 0x30) = id := by
    funext d
    simp
  rw [hid, List.map_id, Numerals.value_digits]

theorem isDigit_of_mem_decimalText {n b : Nat} (h : b ∈ decimalText n) : isDigit b = true := by
  obtain ⟨d, hd, rfl⟩ := List.mem_map.mp h
  have hlt := Numerals.digits_lt (by decide) hd
  simp only [isDigit, Bool.and_eq_true, decide_eq_true_eq]
  omega

/-- A numeral begins with neither white space nor a sign, and is digits to its end. -/
theorem decimalText_plain (n : Nat) :
    (decimalText n).dropWhile isSpace = decimalText n ∧
      (decimalText n).head? ≠ some 0x2D ∧ (decimalText n).head? ≠ some 0x2B ∧
      (decimalText n).takeWhile isDigit = decimalText n ∧
      (decimalText n).dropWhile isDigit = [] ∧ decimalText n ≠ [] := by
  have hdigits : ∀ b ∈ decimalText n, isDigit b = true := fun b => isDigit_of_mem_decimalText
  have hne : decimalText n ≠ [] := by
    rw [decimalText, ne_eq, List.map_eq_nil_iff]
    exact Numerals.digits_ne_nil 10 n
  generalize decimalText n = text at hdigits hne
  have htake := List.takeWhile_eq_self_iff.mpr hdigits
  have hdrop := List.dropWhile_eq_nil_iff.mpr hdigits
  obtain ⟨b, rest, rfl⟩ := List.exists_cons_of_ne_nil hne
  have hb := hdigits b List.mem_cons_self
  have hspace : isSpace b = false := by
    simp only [isDigit, Bool.and_eq_true, decide_eq_true_eq] at hb
    simp only [isSpace, Bool.or_eq_false_iff, beq_eq_false_iff_ne, Bool.and_eq_false_imp,
      decide_eq_true_eq, decide_eq_false_iff_not]
    omega
  refine ⟨List.dropWhile_cons_of_neg (by simp [hspace]), ?_, ?_, htake, hdrop, hne⟩
  · intro h
    obtain rfl := Option.some.inj h
    cases hb
  · intro h
    obtain rfl := Option.some.inj h
    cases hb

theorem strtoull_decimalText {n : Nat} (hn : n < 2 ^ 64) : strtoull (decimalText n) = (n, []) := by
  obtain ⟨hspace, hminus, hplus, htake, hdrop, hne⟩ := decimalText_plain n
  unfold strtoull
  rw [hspace]
  dsimp only
  rw [if_neg hminus, if_neg hplus]
  unfold strtoullDigits clampUll
  rw [htake, hdrop, decimal_decimalText, if_neg hne, if_neg (by omega),
    if_neg Bool.false_ne_true]

/-- A target's ring has the capacity of some power of two from 2^10 to 2^63,
and any of them can be asked for. -/
theorem hvEnvCapacity_iff {capacity : Nat} :
    (∃ env, hvEnvCapacity env = capacity) ↔ ∃ k, 10 ≤ k ∧ k < 64 ∧ capacity = 2 ^ k := by
  constructor
  · rintro ⟨env, rfl⟩
    have hdefault : ∃ k, 10 ≤ k ∧ k < 64 ∧ hvDefaultCapacity = 2 ^ k :=
      ⟨20, by decide, by decide, rfl⟩
    unfold hvEnvCapacity
    split
    · exact hdefault
    · exact hdefault
    · rename_i raw hraw
      dsimp only
      split
      · exact hdefault
      · rename_i hok
        rw [not_or, not_or, Bool.not_eq_false, hvIsPow2_iff] at hok
        obtain ⟨-, ⟨k, hk⟩, hmin⟩ := hok
        have hlt := strtoull_lt raw
        rw [hk] at hmin hlt ⊢
        refine ⟨k, ?_, (Nat.pow_lt_pow_iff_right (by decide)).mp hlt, rfl⟩
        exact (Nat.pow_le_pow_iff_right Nat.one_lt_two).mp (Nat.not_lt.mp hmin)
  · rintro ⟨k, hlow, hhigh, rfl⟩
    have hword : 2 ^ k < 2 ^ 64 := Nat.pow_lt_pow_right (by decide) hhigh
    have hmin : 2 ^ 10 ≤ 2 ^ k := Nat.pow_le_pow_right (by decide) hlow
    refine ⟨some (decimalText (2 ^ k)), ?_⟩
    have hread := strtoull_decimalText hword
    unfold hvEnvCapacity
    split
    · rename_i h
      cases h
    · rename_i h
      rw [Option.some.inj h] at hread
      have hzero : (0 : Nat) = 2 ^ k := congrArg Prod.fst hread
      omega
    · rename_i raw hraw h
      obtain rfl := Option.some.inj h
      rw [hread]
      exact if_neg (by simp [hvIsPow2_iff.mpr ⟨k, rfl⟩]; omega)

/-! ## How large the mapping is -/

section Size

variable {capacity k : Nat}

/-- What is left of the size computation once the page is a power of two. -/
theorem hvMappingSize_two_pow (capacity : Nat) (hk : k < 64) :
    hvMappingSize capacity (2 ^ k) =
      (256 + 32 * capacity + 2 ^ k + (2 ^ 64 - 1)) % 2 ^ 64 / 2 ^ k * 2 ^ k := by
  have hpage : 2 ^ k < 2 ^ 64 := Nat.pow_lt_pow_right (by decide) hk
  have hpos := Nat.two_pow_pos k
  have hmask : sub64 (2 ^ k) 1 = 2 ^ k - 1 := sub64_of_le hpos hpage
  have hsum : sub64 (add64 (add64 hvRingHeaderSize (capacity * hvEventSize % 2 ^ 64)) (2 ^ k)) 1 =
      (256 + 32 * capacity + 2 ^ k + (2 ^ 64 - 1)) % 2 ^ 64 := by
    unfold sub64 add64 hvRingHeaderSize hvEventSize
    omega
  unfold hvMappingSize
  dsimp only
  rw [hsum, hmask, and_complement_low hk.le (Nat.mod_lt _ (by decide))]

theorem hvMappingSize_eq (hk : k < 64) (hfit : 256 + 32 * capacity + 2 ^ k ≤ 2 ^ 64) :
    hvMappingSize capacity (2 ^ k) = (256 + 32 * capacity + 2 ^ k - 1) / 2 ^ k * 2 ^ k := by
  have hpos := Nat.two_pow_pos k
  have hmod : (256 + 32 * capacity + 2 ^ k + (2 ^ 64 - 1)) % 2 ^ 64 =
      256 + 32 * capacity + 2 ^ k - 1 := by
    omega
  rw [hvMappingSize_two_pow capacity hk, hmod]

/-- Where the sum or the rounding leaves the word, the mapping is too short. -/
theorem hvMappingSize_of_wrap (hk : k < 64) (hwrap : 2 ^ 64 < 256 + 32 * capacity + 2 ^ k) :
    hvMappingSize capacity (2 ^ k) < 256 + 32 * capacity := by
  rw [hvMappingSize_two_pow capacity hk]
  have hpage : 2 ^ k < 2 ^ 64 := Nat.pow_lt_pow_right (by decide) hk
  rcases Nat.lt_or_ge (256 + 32 * capacity) (2 ^ 64) with hraw | hraw
  · -- only the rounding wraps, to something below a page
    have hlow : (256 + 32 * capacity + 2 ^ k + (2 ^ 64 - 1)) % 2 ^ 64 < 2 ^ k := by
      omega
    rw [Nat.div_eq_of_lt hlow, Nat.zero_mul]
    omega
  · have hle := Nat.div_mul_le_self
      ((256 + 32 * capacity + 2 ^ k + (2 ^ 64 - 1)) % 2 ^ 64) (2 ^ k)
    have hlt := Nat.mod_lt (256 + 32 * capacity + 2 ^ k + (2 ^ 64 - 1)) (Nat.two_pow_pos 64)
    omega

end Size

/-! ## Whether every slot is in it -/

/-- The mapping of a ring of this capacity: its length is the header and the
slots, rounded up to a page, every slot of the target's mapping and of a
watcher's is inside, and the header's logarithm is the capacity's. -/
structure CapacityFits (capacity page : Nat) : Prop where
  aligned : page ∣ hvMappingSize capacity page
  holds : 256 + 32 * capacity ≤ hvMappingSize capacity page
  tight : hvMappingSize capacity page < 256 + 32 * capacity + page
  slots : ∀ env sys seg, hvEnvCapacity env = capacity → hvRingSetup env page sys = some seg →
    2 ^ seg.capacityLog2 = capacity ∧ ∀ seq < 2 ^ 64,
      hvRingSlot seg.capacity seq + 32 ≤ seg.bytes ∧
        hvRingSlot seg.capacity seq + 32 ≤ seg.attachBytes page

/-- What a set-up ring has in its header. -/
theorem hvRingSetup_eq {env : Option (List Nat)} {page : Nat} {sys : SetupAnswers}
    {seg : RingSegment} (h : hvRingSetup env page sys = some seg) :
    seg.bytes = hvMappingSize (hvEnvCapacity env) page ∧ seg.capacity = hvEnvCapacity env ∧
      seg.capacityLog2 = hvLog2Pow2 (hvEnvCapacity env) := by
  obtain ⟨-, htruncate⟩ := Option.ite_none_left_eq_some.mp h
  obtain ⟨-, hmmap⟩ := Option.ite_none_left_eq_some.mp htruncate
  obtain ⟨-, hseg⟩ := Option.ite_none_left_eq_some.mp hmmap
  obtain rfl := Option.some.inj hseg
  exact ⟨rfl, rfl, rfl⟩

theorem hvRingSlot_le (k seq : Nat) : hvRingSlot (2 ^ k) seq + 32 ≤ 256 + 32 * 2 ^ k := by
  have hlt := Nat.mod_lt seq (Nat.two_pow_pos k)
  unfold hvRingSlot hvRingHeaderSize hvEventSize
  rw [Nat.and_two_pow_sub_one_eq_mod]
  omega

/-- **When a capacity fits its mapping**: exactly when the header, the slots
and a page together are at most 2^64. -/
theorem capacityFits_iff {capacity page : Nat} (hcapacity : ∃ env, hvEnvCapacity env = capacity)
    (hpow : ∃ k, page = 2 ^ k) (hmin : 256 ≤ page) (hword : page < 2 ^ 64) :
    CapacityFits capacity page ↔ 256 + 32 * capacity + page ≤ 2 ^ 64 := by
  obtain ⟨k, rfl⟩ := hpow
  have hk : k < 64 := (Nat.pow_lt_pow_iff_right (by decide)).mp hword
  constructor
  · intro hfits
    by_contra hwrap
    exact absurd hfits.holds (Nat.not_le.mpr (hvMappingSize_of_wrap hk (Nat.not_le.mp hwrap)))
  · intro hfit
    have hsize := hvMappingSize_eq hk hfit
    have hpos := Nat.two_pow_pos k
    have hdiv := Nat.div_add_mod (256 + 32 * capacity + 2 ^ k - 1) (2 ^ k)
    have hmod := Nat.mod_lt (256 + 32 * capacity + 2 ^ k - 1) hpos
    rw [Nat.mul_comm] at hdiv
    have hholds : 256 + 32 * capacity ≤ hvMappingSize capacity (2 ^ k) := by omega
    refine ⟨by rw [hsize]; exact Nat.dvd_mul_left _ _, hholds, by omega, ?_⟩
    intro env sys seg henv hseg
    obtain ⟨hbytes, hcap, hlog⟩ := hvRingSetup_eq hseg
    obtain ⟨j, -, hj, rfl⟩ := hvEnvCapacity_iff.mp hcapacity
    rw [RingSegment.attachBytes, hbytes, hcap, hlog, henv, hvLog2Pow2_two_pow hj]
    refine ⟨rfl, fun seq _ => ?_⟩
    have hslot := (hvRingSlot_le j seq).trans hholds
    exact ⟨hslot, hslot⟩

/-- The default ring on pages of 4 KiB. -/
theorem capacityFits_default : CapacityFits (2 ^ 20) 4096 :=
  (capacityFits_iff ⟨none, rfl⟩ ⟨12, rfl⟩ (by decide) (by decide)).mpr (by decide)

/-- **A ring of 2^59 slots in one page.** `HEAPVIZ_CAPACITY=576460752303423488`
is accepted, and the 64-bit length of its slots is zero. -/
theorem capacity_wraps :
    hvEnvCapacity (some ("576460752303423488".toList.map Char.toNat)) = 2 ^ 59 ∧
      hvMappingSize (2 ^ 59) 4096 = 4096 ∧ ¬ CapacityFits (2 ^ 59) 4096 := by
  have hsize : hvMappingSize (2 ^ 59) 4096 = 4096 := by decide
  refine ⟨by decide, hsize, fun hfits => ?_⟩
  have hholds := hfits.holds
  rw [hsize] at hholds
  omega

end Heapviz
