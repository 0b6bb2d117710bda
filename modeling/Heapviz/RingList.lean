import Mathlib.Data.List.Basic
import Mathlib.Data.Nat.ModEq
import Mathlib.Tactic.SplitIfs

/-!
# A ring of slots as a list

A queue kept in a buffer of `n` slots with a head and a tail index, one slot
always spare so that a full ring is not an empty one. `queued` reads it off
from the head; the three writes are

- `queued_pop`: advancing the head drops the first element;
- `queued_push`: storing at the tail and advancing it appends;
- `queued_push_full`: when the tail runs into the head, the head gives way and
  the first element is lost.
-/

namespace RingList

variable {α : Type*}

/-- How many elements lie between head and tail. -/
def count (n head tail : Nat) : Nat := if head ≤ tail then tail - head else tail + n - head

/-- The slot `k` places after the head. -/
def slotAt (n head k : Nat) : Nat := if head + k < n then head + k else head + k - n

def queued (buf : List α) (d : α) (head tail : Nat) : List α :=
  (List.range (count buf.length head tail)).map fun k => buf.getD (slotAt buf.length head k) d

theorem succ_mod {n i : Nat} (h : i < n) : (i + 1) % n = if i + 1 = n then 0 else i + 1 := by
  split_ifs with heq
  · rw [heq, Nat.mod_self]
  · exact Nat.mod_eq_of_lt (by omega)

theorem succ_mod_lt {n i : Nat} (h : i < n) : (i + 1) % n < n := Nat.mod_lt _ (by omega)

theorem count_lt {n head tail : Nat} (ht : tail < n) : count n head tail < n := by
  unfold count
  split_ifs <;> omega

/-- The ring is full exactly when the spare slot is the only free one. -/
theorem full_iff {n head tail : Nat} (hh : head < n) (ht : tail < n) :
    (tail + 1) % n = head ↔ count n head tail + 1 = n := by
  rw [succ_mod ht]
  unfold count
  split_ifs <;> omega

section Queue

variable {buf : List α} {d x : α} {head tail : Nat}

@[simp] theorem length_queued : (queued buf d head tail).length = count buf.length head tail := by
  simp [queued]

theorem queued_self : queued buf d head head = [] := by
  simp [queued, count]

theorem queued_pop (hh : head < buf.length) (ht : tail < buf.length) (hne : head ≠ tail) :
    queued buf d head tail = buf.getD head d :: queued buf d ((head + 1) % buf.length) tail := by
  have hcount : count buf.length head tail =
      count buf.length ((head + 1) % buf.length) tail + 1 := by
    rw [succ_mod hh]
    unfold count
    split_ifs <;> omega
  unfold queued
  rw [hcount, List.range_succ_eq_map, List.map_cons, List.map_map]
  refine congrArg₂ List.cons ?_ (List.map_congr_left ?_)
  · simp [slotAt, hh]
  · intro k hk
    have hlt : k < count buf.length ((head + 1) % buf.length) tail := List.mem_range.mp hk
    have hslot : slotAt buf.length head (k + 1) =
        slotAt buf.length ((head + 1) % buf.length) k := by
      rw [succ_mod hh] at hlt ⊢
      unfold count at hlt
      unfold slotAt
      split_ifs at hlt ⊢ <;> omega
    exact congrArg (fun i => buf.getD i d) hslot

theorem queued_set (hh : head < buf.length) :
    queued (buf.set tail x) d head tail = queued buf d head tail := by
  unfold queued
  rw [List.length_set]
  refine List.map_congr_left ?_
  intro k hk
  have hlt := List.mem_range.mp hk
  have hne : tail ≠ slotAt buf.length head k := by
    unfold count at hlt
    unfold slotAt
    split_ifs at hlt ⊢ <;> omega
  simp only [List.getD_eq_getElem?_getD, List.getElem?_set_ne hne]

theorem queued_push (hh : head < buf.length) (ht : tail < buf.length)
    (hroom : (tail + 1) % buf.length ≠ head) :
    queued (buf.set tail x) d head ((tail + 1) % buf.length) = queued buf d head tail ++ [x] := by
  have hcount : count buf.length head ((tail + 1) % buf.length) =
      count buf.length head tail + 1 := by
    rw [succ_mod ht] at hroom ⊢
    unfold count
    split_ifs at hroom ⊢ <;> omega
  have hslot : slotAt buf.length head (count buf.length head tail) = tail := by
    unfold slotAt count
    split_ifs <;> omega
  rw [← queued_set hh]
  unfold queued
  rw [List.length_set, hcount, List.range_succ, List.map_append, List.map_singleton, hslot]
  refine congrArg₂ _ rfl ?_
  simp [List.getD_eq_getElem?_getD, ht]

theorem queued_push_full (hone : 1 < buf.length) (hh : head < buf.length)
    (ht : tail < buf.length) (hfull : (tail + 1) % buf.length = head) :
    queued (buf.set tail x) d ((head + 1) % buf.length) ((tail + 1) % buf.length) =
      (queued buf d head tail).tail ++ [x] := by
  have hne : head ≠ tail := by
    rw [succ_mod ht] at hfull
    split_ifs at hfull <;> omega
  have hne' : (tail + 1) % buf.length ≠ (head + 1) % buf.length := by
    rw [succ_mod ht] at hfull ⊢
    rw [succ_mod hh]
    split_ifs at hfull ⊢ <;> omega
  rw [queued_push (succ_mod_lt hh) ht hne', queued_pop hh ht hne, List.tail_cons]

end Queue

end RingList
