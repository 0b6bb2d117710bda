import Mathlib.Algebra.Order.Ring.Nat
import Mathlib.Data.Nat.Log

/-!
# Arithmetic that must not leave its word

The operations on a word of `w` bits, as functions that answer none where
the machine would wrap around, divide by zero or shift by the width of the
word or more. A computation written with them that answers `some` met none
of these on its way, and what it answers is what the unbounded operations
give.
-/

namespace Checked

variable {w a b : Nat}

def add (w a b : Nat) : Option Nat := if a + b < 2 ^ w then some (a + b) else none

def sub (a b : Nat) : Option Nat := if b ≤ a then some (a - b) else none

def mul (w a b : Nat) : Option Nat := if a * b < 2 ^ w then some (a * b) else none

def div (a b : Nat) : Option Nat := if b = 0 then none else some (a / b)

def mod (a b : Nat) : Option Nat := if b = 0 then none else some (a % b)

def shiftRight (w a k : Nat) : Option Nat := if k < w then some (a >>> k) else none

theorem add_of_lt (h : a + b < 2 ^ w) : add w a b = some (a + b) := if_pos h

theorem sub_of_le (h : b ≤ a) : sub a b = some (a - b) := if_pos h

theorem mul_of_lt (h : a * b < 2 ^ w) : mul w a b = some (a * b) := if_pos h

theorem div_of_pos (h : 0 < b) : div a b = some (a / b) := if_neg h.ne'

theorem mod_of_pos (h : 0 < b) : mod a b = some (a % b) := if_neg h.ne'

theorem shiftRight_of_lt {k : Nat} (h : k < w) : shiftRight w a k = some (a >>> k) := if_pos h

/-! ## Powers of two -/

/-- The least power of two at or above `v`. -/
def ceilPow2 (v : Nat) : Nat := if v ≤ 1 then 1 else 2 ^ (Nat.log2 (v - 1) + 1)

/-- `ceilPow2` in a word; none where no power of two of the word will do. -/
def bitCeil (w v : Nat) : Option Nat := if ceilPow2 v < 2 ^ w then some (ceilPow2 v) else none

theorem bitCeil_of_lt {v : Nat} (h : ceilPow2 v < 2 ^ w) : bitCeil w v = some (ceilPow2 v) :=
  if_pos h

theorem le_ceilPow2 (v : Nat) : v ≤ ceilPow2 v := by
  unfold ceilPow2
  split
  · assumption
  · have hlt := Nat.lt_log2_self (n := v - 1)
    omega

theorem ceilPow2_le {v k : Nat} (h : v ≤ 2 ^ k) : ceilPow2 v ≤ 2 ^ k := by
  unfold ceilPow2
  split
  · exact Nat.one_le_two_pow
  · have hlog : Nat.log2 (v - 1) < k := (Nat.log2_lt (by omega)).mpr (by omega)
    exact Nat.pow_le_pow_right (by decide) hlog

theorem exists_ceilPow2 (v : Nat) : ∃ k, ceilPow2 v = 2 ^ k := by
  unfold ceilPow2
  split
  · exact ⟨0, rfl⟩
  · exact ⟨_, rfl⟩

/-- The number of zeros below the lowest one of a word. -/
def countrZero (w v : Nat) : Nat := ((List.range w).find? fun i => v.testBit i).getD w

theorem countrZero_two_pow {k : Nat} (h : k < w) : countrZero w (2 ^ k) = k := by
  have hfind : (List.range w).find? (fun i => (2 ^ k).testBit i) = some k := by
    rw [List.find?_range_eq_some]
    refine ⟨Nat.testBit_two_pow_self, List.mem_range.mpr h, ?_⟩
    intro j hj
    simp [hj.ne']
  rw [countrZero, hfind, Option.getD_some]

/-! ## Masks -/

/-- The bitwise complement of a word. -/
def complement (w v : Nat) : Nat := 2 ^ w - 1 - v

/-- Clearing the low bits rounds down. -/
theorem and_complement_low {k x : Nat} (hk : k ≤ w) (hx : x < 2 ^ w) :
    x &&& complement w (2 ^ k - 1) = x / 2 ^ k * 2 ^ k := by
  have hlt : 2 ^ k - 1 < 2 ^ w := by
    have hle := Nat.pow_le_pow_right Nat.two_pos hk
    have hpos := Nat.two_pow_pos k
    omega
  have hmask : complement w (2 ^ k - 1) = 2 ^ w - (2 ^ k - 1 + 1) := by
    rw [complement, Nat.sub_sub, Nat.add_comm]
  apply Nat.eq_of_testBit_eq
  intro i
  rw [Nat.testBit_and, hmask, Nat.testBit_two_pow_sub_succ hlt, Nat.testBit_two_pow_sub_one,
    Nat.testBit_mul_two_pow, Nat.testBit_div_two_pow]
  rcases Nat.lt_or_ge i k with hik | hki
  · simp [hik, show ¬ k ≤ i by omega]
  · rcases Nat.lt_or_ge i w with hiw | hwi
    · simp [hiw, hki, show ¬ i < k by omega]
    · have hbit : x.testBit i = false :=
        Nat.testBit_lt_two_pow (lt_of_lt_of_le hx (Nat.pow_le_pow_right Nat.two_pos hwi))
      simp [hki, hbit]

/-! ## Ceiling division -/

/-- The quotient, and one more where something is left over. -/
def ceilQuot (a b : Nat) : Nat := a / b + if a % b ≠ 0 then 1 else 0

theorem ceilQuot_le_iff (hb : 0 < b) {p : Nat} : ceilQuot a b ≤ p ↔ a ≤ p * b := by
  have hdiv := Nat.div_add_mod a b
  unfold ceilQuot
  split
  · rename_i hrem
    rw [Nat.add_one_le_iff, Nat.div_lt_iff_lt_mul hb]
    constructor
    · exact Nat.le_of_lt
    · intro hle
      apply lt_of_le_of_ne hle
      rintro rfl
      exact hrem (Nat.mul_mod_left p b)
  · rename_i hrem
    rw [not_not] at hrem
    rw [Nat.add_zero]
    constructor
    · intro hle
      calc a = b * (a / b) := by omega
        _ ≤ b * p := Nat.mul_le_mul_left b hle
        _ = p * b := Nat.mul_comm b p
    · intro hle
      exact Nat.div_le_of_le_mul (by rwa [Nat.mul_comm b p])

end Checked
