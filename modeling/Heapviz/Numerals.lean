import Mathlib.Data.Nat.Digits.Lemmas

/-!
# Positional numerals

The number a row of digits denotes, most significant digit first, and the
shortest row that denotes a number. The value is the fold a hand-written
digit loop computes, so what such a loop does is said by `value_append`
and `value_lt`.
-/

namespace Numerals

variable {base : Nat}

/-- What a row of digits denotes. -/
def value (base : Nat) (ds : List Nat) : Nat := ds.foldl (fun v d => v * base + d) 0

/-- The shortest row that denotes `n`; one digit for zero. -/
def digits (base n : Nat) : List Nat := if n = 0 then [0] else (Nat.digits base n).reverse

@[simp]
theorem value_nil : value base [] = 0 := rfl

@[simp]
theorem value_concat (ds : List Nat) (d : Nat) :
    value base (ds ++ [d]) = value base ds * base + d := by
  rw [value, List.foldl_append]
  rfl

theorem value_eq_ofDigits (ds : List Nat) : value base ds = Nat.ofDigits base ds.reverse := by
  rw [value, Nat.ofDigits_eq_foldr, List.foldr_reverse]
  congr 1
  funext v d
  rw [Nat.mul_comm, Nat.add_comm]
  rfl

theorem value_append (ds es : List Nat) :
    value base (ds ++ es) = value base ds * base ^ es.length + value base es := by
  rw [value_eq_ofDigits, List.reverse_append, Nat.ofDigits_append, List.length_reverse,
    ← value_eq_ofDigits, ← value_eq_ofDigits, Nat.mul_comm, Nat.add_comm]

/-- Leading zeros denote nothing. -/
theorem value_zeros_append (n : Nat) (ds : List Nat) :
    value base (List.replicate n 0 ++ ds) = value base ds := by
  induction n with
  | zero => rfl
  | succ n ih =>
      rw [List.replicate_succ, List.cons_append, value, List.foldl_cons, Nat.zero_mul]
      exact ih

/-- A prefix of a numeral denotes no more than the whole. -/
theorem value_le_append (hbase : 0 < base) (ds es : List Nat) :
    value base ds ≤ value base (ds ++ es) := by
  rw [value_append]
  exact (Nat.le_mul_of_pos_right _ (Nat.pow_pos hbase)).trans (Nat.le_add_right _ _)

theorem value_lt (hbase : 1 < base) {ds : List Nat} (h : ∀ d ∈ ds, d < base) :
    value base ds < base ^ ds.length := by
  rw [value_eq_ofDigits, ← List.length_reverse]
  exact Nat.ofDigits_lt_base_pow_length hbase fun d hd => h d (List.mem_reverse.mp hd)

theorem value_digits (base n : Nat) : value base (digits base n) = n := by
  unfold digits
  split
  · rename_i h
    simp [h, value]
  · rw [value_eq_ofDigits, List.reverse_reverse, Nat.ofDigits_digits]

theorem digits_lt (hbase : 1 < base) {n d : Nat} (h : d ∈ digits base n) : d < base := by
  unfold digits at h
  split at h
  · rw [List.mem_singleton.mp h]
    omega
  · exact Nat.digits_lt_base hbase (List.mem_reverse.mp h)

theorem digits_ne_nil (base n : Nat) : digits base n ≠ [] := by
  unfold digits
  split
  · exact List.cons_ne_nil _ _
  · rename_i h
    rw [ne_eq, List.reverse_eq_nil_iff, Nat.digits_eq_nil_iff_eq_zero]
    exact h

theorem digits_of_lt {n : Nat} (h : n < base) : digits base n = [n] := by
  unfold digits
  split
  · rename_i hn
    rw [hn]
  · rename_i hn
    rw [Nat.digits_of_lt base n hn h]
    rfl

/-- The last digit is the remainder, and what stands before it the quotient. -/
theorem digits_of_le (hbase : 1 < base) {n : Nat} (h : base ≤ n) :
    digits base n = digits base (n / base) ++ [n % base] := by
  have hn : 0 < n := by omega
  have hq : 0 < n / base := Nat.div_pos h (by omega)
  rw [digits, if_neg hn.ne', digits, if_neg hq.ne', Nat.digits_def' hbase hn, List.reverse_cons]

/-- A row without leading zeros is the shortest that denotes its number. -/
theorem digits_value (hbase : 1 < base) {d : Nat} {ds : List Nat}
    (h : ∀ e ∈ d :: ds, e < base) (hlead : d = 0 → ds = []) :
    digits base (value base (d :: ds)) = d :: ds := by
  have hlast (hne : (d :: ds).reverse ≠ []) : (d :: ds).reverse.getLast hne = d :=
    List.getLast_reverse (l := d :: ds) hne
  by_cases hd : d = 0
  · simp [hlead hd, hd, value, digits]
  · have hpos : value base (d :: ds) ≠ 0 := by
      have hle := value_le_append (by omega : 0 < base) [d] ds
      have hone : value base [d] = d := by simp [value]
      rw [hone] at hle
      exact fun h0 => hd (Nat.le_zero.mp (h0 ▸ hle))
    rw [digits, if_neg hpos, value_eq_ofDigits, Nat.digits_ofDigits base hbase _
      (fun e he => h e (List.mem_reverse.mp he)) (fun hne => (hlast hne).symm ▸ hd),
      List.reverse_reverse]

/-- The shortest row for a number that takes more than one digit has no leading zero. -/
theorem digits_head_ne_zero {d : Nat} {ds : List Nat} {n : Nat} (h : digits base n = d :: ds)
    (hds : ds ≠ []) : d ≠ 0 := by
  unfold digits at h
  split at h
  · exact absurd (List.cons.inj h).2.symm hds
  · rename_i hn
    have hrev : Nat.digits base n = (d :: ds).reverse := by
      rw [← h, List.reverse_reverse]
    have hne : Nat.digits base n ≠ [] := Nat.digits_ne_nil_iff_ne_zero.mpr hn
    have hlast := Nat.getLast_digit_ne_zero base hn
    have hd : (Nat.digits base n).getLast hne = d := by
      simp only [hrev, List.getLast_reverse, List.head_cons]
    exact hd ▸ hlast

theorem length_digits_le (hbase : 1 < base) {n k : Nat} (hk : 0 < k) (h : n < base ^ k) :
    (digits base n).length ≤ k := by
  unfold digits
  split
  · exact hk
  · rw [List.length_reverse]
    exact (Nat.digits_length_le_iff hbase n).mpr h

end Numerals
