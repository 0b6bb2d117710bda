import Mathlib.Algebra.BigOperators.Group.Finset.Basic
import Mathlib.Algebra.Order.BigOperators.Group.Finset
import Mathlib.Data.Finset.Range

/-!
# Counting, with a list of what was counted

A count for every key, and beside the counts a list that a key is put on when
its count leaves zero. However often a key comes and in whatever order, the
list has each key that was counted once.
-/

/-- The counts, and the keys that have one. -/
structure Tally (κ : Type) where
  counts : κ → Nat
  hot : List κ

namespace Tally

variable {κ : Type} [DecidableEq κ]

def empty : Tally κ := ⟨fun _ => 0, []⟩

/-- One more of this key. -/
def bump (t : Tally κ) (k : κ) : Tally κ where
  counts := Function.update t.counts k (t.counts k + 1)
  hot := if t.counts k = 0 then t.hot ++ [k] else t.hot

/-- The tally of a list of keys. -/
def of (ks : List κ) : Tally κ := ks.foldl bump empty

theorem of_concat (ks : List κ) (k : κ) : of (ks ++ [k]) = (of ks).bump k := by
  rw [of, List.foldl_append]
  rfl

theorem counts_of (ks : List κ) (k : κ) : (of ks).counts k = ks.count k := by
  induction ks using List.reverseRecOn with
  | nil => rfl
  | append_singleton ks k' ih =>
      rw [of_concat, bump, List.count_append, ← ih]
      by_cases h : k = k'
      · subst h
        simp
      · simp [Function.update_of_ne h, Ne.symm h]

theorem mem_hot (ks : List κ) (k : κ) : k ∈ (of ks).hot ↔ k ∈ ks := by
  induction ks using List.reverseRecOn with
  | nil => exact Iff.rfl
  | append_singleton ks k' ih =>
      rw [of_concat, bump, List.mem_append, List.mem_singleton]
      split
      · rw [List.mem_append, List.mem_singleton, ih]
      · rename_i hne
        rw [counts_of, List.count_eq_zero, not_not] at hne
        rw [ih, or_iff_left_of_imp]
        rintro rfl
        exact hne

theorem nodup_hot (ks : List κ) : (of ks).hot.Nodup := by
  induction ks using List.reverseRecOn with
  | nil => exact List.nodup_nil
  | append_singleton ks k ih =>
      rw [of_concat, bump]
      split
      · rename_i hzero
        rw [counts_of, List.count_eq_zero] at hzero
        refine List.nodup_append.mpr ⟨ih, List.nodup_singleton k, ?_⟩
        rintro a ha b hb rfl
        rw [List.mem_singleton.mp hb, mem_hot] at ha
        exact hzero ha
      · exact ih

/-- The counts of all keys there are make up the length of the list. -/
theorem sum_counts (ks : List κ) (s : Finset κ) (h : ∀ k ∈ ks, k ∈ s) :
    ∑ k ∈ s, (of ks).counts k = ks.length := by
  have hsum := Multiset.sum_count_eq_card (s := s) (m := (ks : Multiset κ)) h
  simpa only [counts_of, Multiset.coe_count, Multiset.coe_card] using hsum

end Tally
