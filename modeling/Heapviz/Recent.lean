import Mathlib.Data.Int.ModEq
import Mathlib.Logic.Function.Basic

/-!
# The last few of a sequence

A circular buffer that only ever takes in: an array of `cap` slots, the slot the
next value goes to, and how many slots are in use. It holds the last `cap` of
the values pushed (`Recent.Holds`), and the slot of the oldest of them is found
from the other two numbers (`oldest_eq`).
-/

structure Recent (α : Type*) (cap : Nat) where
  slots : Nat → α
  next : Nat
  count : Nat

namespace Recent

variable {α : Type*} {cap : Nat}

/-- All slots the same, and none in use. -/
def clear (blank : α) : Recent α cap := ⟨fun _ => blank, 0, 0⟩

def push (r : Recent α cap) (a : α) : Recent α cap where
  slots := Function.update r.slots r.next a
  next := (r.next + 1) % cap
  count := if r.count < cap then r.count + 1 else r.count

/-- The value that has been in the longest. -/
def oldest (r : Recent α cap) : α := r.slots ((r.next + cap - r.count) % cap)

/-- These have been pushed, in this order. -/
structure Holds (r : Recent α cap) (xs : List α) : Prop where
  next : r.next = xs.length % cap
  count : r.count = min xs.length cap
  slots : ∀ k a, xs[k]? = some a → xs.length ≤ k + cap → r.slots (k % cap) = a

theorem clear_holds (blank : α) : (clear blank : Recent α cap).Holds [] :=
  ⟨(Nat.zero_mod cap).symm, (Nat.zero_min cap).symm, fun _ _ h => nomatch h⟩

/-- Two of as many numbers in a row as there are slots are not in the same one. -/
theorem mod_ne {k n : Nat} (hk : k < n) (hn : n < k + cap) : k % cap ≠ n % cap := by
  intro heq
  have hdvd := (Nat.modEq_iff_dvd' hk.le).mp heq
  have hle := Nat.le_of_dvd (by omega) hdvd
  omega

theorem Holds.push {r : Recent α cap} {xs : List α} (h : r.Holds xs) (a : α) :
    (r.push a).Holds (xs ++ [a]) := by
  refine ⟨?_, ?_, fun k b hb hroom => ?_⟩
  · show (r.next + 1) % cap = _
    rw [h.next, List.length_append, List.length_singleton, Nat.mod_add_mod]
  · show (if r.count < cap then r.count + 1 else r.count) = _
    rw [h.count, List.length_append, List.length_singleton]
    split <;> omega
  · rw [List.length_append, List.length_singleton] at hroom
    show Function.update r.slots r.next a (k % cap) = b
    rcases lt_or_ge k xs.length with hold | hnew
    · rw [List.getElem?_append_left hold] at hb
      rw [h.next, Function.update_of_ne (mod_ne hold (by omega))]
      exact h.slots k b hb (by omega)
    · have hlt : k < (xs ++ [a]).length := (List.getElem?_eq_some_iff.mp hb).1
      rw [List.length_append, List.length_singleton] at hlt
      obtain rfl : k = xs.length := by omega
      rw [List.getElem?_concat_length] at hb
      rw [h.next, Function.update_self]
      exact Option.some.inj hb

/-- The oldest is `cap` back, or the first of all. -/
theorem Holds.oldest_eq {r : Recent α cap} {xs : List α} (h : r.Holds xs) {a : α}
    (ha : xs[xs.length - min xs.length cap]? = some a) : r.oldest = a := by
  have hslot : (r.next + cap - r.count) % cap = (xs.length - min xs.length cap) % cap := by
    rw [h.next, h.count]
    rcases Nat.le_total xs.length cap with hle | hle
    · rw [Nat.min_eq_left hle, Nat.sub_self, Nat.zero_mod]
      rcases hle.lt_or_eq with hlt | heq
      · rw [Nat.mod_eq_of_lt hlt, Nat.add_sub_cancel_left, Nat.mod_self]
      · rw [heq, Nat.mod_self, Nat.zero_add, Nat.sub_self, Nat.zero_mod]
    · rw [Nat.min_eq_right hle, Nat.add_sub_cancel, Nat.mod_mod]
      exact (Nat.mod_eq_sub_mod hle)
  rw [oldest, hslot]
  exact h.slots _ a ha (by omega)

end Recent
