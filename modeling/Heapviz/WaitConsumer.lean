import Mathlib.Algebra.BigOperators.Group.Finset.Basic
import Mathlib.Algebra.Order.BigOperators.Group.Finset
import Heapviz.RingMapping

/-!
# Waiting for a consumer

`hv_wait_for_consumer` (`preload/preload.c`): a target started with
`HEAPVIZ_WAIT_MS` looks for a consumer of its ring, sleeps half a millisecond, and
does so again until its budget is gone.

The budget is in milliseconds and pays for a sleep of half of one. `waits_until`:
a consumer is found if and only if it is there by the last look, and the sleeps
before that are one fewer than the milliseconds asked for. So where a sleep takes
as long as it says, the target gives up in half the time.
-/

namespace Heapviz

/-! ## The budget -/

/-- What `strtol` makes of a numeral: one that does not fit gives the largest or the
smallest value. -/
def clampLong (negative : Bool) (v : Nat) : Int :=
  if negative then max (-(2 ^ 63)) (-(v : Int)) else min (2 ^ 63 - 1) (v : Int)

/-- `strtol(text, &end, 10)` behind white space and sign. -/
def strtolDigits (text : List Nat) (negative : Bool) (body : List Nat) : Int × List Nat :=
  if body.takeWhile isDigit = [] then (0, text)
  else (clampLong negative (decimal (body.takeWhile isDigit)), body.dropWhile isDigit)

/-- `strtol(text, &end, 10)`: the value, and what stands at `end`. -/
def strtol (text : List Nat) : Int × List Nat :=
  let body := text.dropWhile isSpace
  if body.head? = some 0x2D then strtolDigits text true body.tail
  else if body.head? = some 0x2B then strtolDigits text false body.tail
  else strtolDigits text false body

/-- `budget_ms`, given what `getenv` answers; zero where there is no wait. -/
def hvWaitBudget : Option (List Nat) → Nat
  | none | some [] => 0
  | some raw =>
      let (v, rest) := strtol raw
      if rest ≠ [] ∨ v ≤ 0 then 0 else v.toNat

/-! ## The wait -/

def kWaitPollNs : Nat := 500000

/-- The loop, from the look numbered `polls`. `claimed` is what each look finds; the
result is the sleeps so far, and whether the target went on without a consumer. -/
def hvWaitLoop (claimed : Nat → Bool) : Nat → Nat → Nat × Bool
  | 0, polls => (polls, true)
  | budget + 1, polls =>
      if claimed polls then (polls, false) else hvWaitLoop claimed budget (polls + 1)

def hvWaitForConsumer (env : Option (List Nat)) (claimed : Nat → Bool) : Nat × Bool :=
  if hvWaitBudget env = 0 then (0, false) else hvWaitLoop claimed (hvWaitBudget env) 0

/-- A consumer that comes at `arrival`, when the sleeps take what `lengths` says. -/
def claimedFrom (lengths : Nat → Nat) (arrival i : Nat) : Bool :=
  arrival ≤ ∑ j ∈ Finset.range i, lengths j

/-! ## What it comes to -/

theorem strtol_decimalText {n : Nat} (hn : n < 2 ^ 63) :
    strtol (decimalText n) = ((n : Int), []) := by
  obtain ⟨hspace, hminus, hplus, htake, hdrop, hne⟩ := decimalText_plain n
  unfold strtol
  rw [hspace]
  dsimp only
  rw [if_neg hminus, if_neg hplus]
  unfold strtolDigits clampLong
  rw [htake, hdrop, decimal_decimalText, if_neg hne, if_neg Bool.false_ne_true,
    min_eq_right (by omega)]

/-- The number that a launch writes is the budget. -/
theorem hvWaitBudget_decimalText {n : Nat} (hpos : 0 < n) (hn : n < 2 ^ 63) :
    hvWaitBudget (some (decimalText n)) = n := by
  have hread := strtol_decimalText hn
  have hne := (decimalText_plain n).2.2.2.2.2
  obtain ⟨b, rest, htext⟩ := List.exists_cons_of_ne_nil hne
  rw [htext] at hread ⊢
  unfold hvWaitBudget
  dsimp only
  rw [hread, if_neg (by simp only [ne_eq, not_true_eq_false, false_or]; omega)]
  exact Int.toNat_natCast n

/-- The loop ends at the first look that finds a consumer, or when the budget is gone. -/
theorem hvWaitLoop_spec (claimed : Nat → Bool) (budget : Nat) :
    ∀ polls, (hvWaitLoop claimed budget polls).1 ≤ polls + budget ∧
      ((hvWaitLoop claimed budget polls).2 = true ↔
        ∀ i, polls ≤ i → i < polls + budget → claimed i = false) ∧
      ((hvWaitLoop claimed budget polls).2 = false →
        claimed (hvWaitLoop claimed budget polls).1 = true) ∧
      ∀ i, polls ≤ i → i < (hvWaitLoop claimed budget polls).1 → claimed i = false := by
  induction budget with
  | zero =>
      intro polls
      refine ⟨le_rfl, ⟨fun _ i hi hlt => absurd hlt (by omega), fun _ => rfl⟩,
        (fun h => nomatch h), fun i hi hlt => ?_⟩
      exact absurd hlt (by simp only [hvWaitLoop]; omega)
  | succ budget ih =>
      intro polls
      obtain ⟨hle, hgone, hfound, hbefore⟩ := ih (polls + 1)
      rw [hvWaitLoop]
      by_cases hclaimed : claimed polls = true
      · rw [if_pos hclaimed]
        refine ⟨by omega, ⟨(fun h => nomatch h), fun h => ?_⟩, fun _ => hclaimed,
          fun i hi hlt => absurd hlt (by omega)⟩
        have hnone := h polls le_rfl (by omega)
        rw [hclaimed] at hnone
        cases hnone
      · rw [if_neg hclaimed]
        have hnone := Bool.of_not_eq_true hclaimed
        refine ⟨by omega, ⟨fun h i hi hlt => ?_, fun h => hgone.mpr fun i hi hlt => ?_⟩, hfound,
          fun i hi hlt => ?_⟩
        · rcases hi.eq_or_lt with rfl | hi
          · exact hnone
          · exact hgone.mp h i hi (by omega)
        · exact h i (by omega) (by omega)
        · rcases hi.eq_or_lt with rfl | hi
          · exact hnone
          · exact hbefore i hi hlt

/-- **How long the target waits.** With `n` in the variable and whatever the sleeps
take, it sleeps at most `n` times; it goes on without a consumer exactly where none
has come by the end of the first `n - 1` sleeps; and where one has, it goes on after
the first sleep that sees it. -/
theorem waits_until {n : Nat} (hpos : 0 < n) (hn : n < 2 ^ 63) (lengths : Nat → Nat)
    (arrival : Nat) :
    let waited := hvWaitForConsumer (some (decimalText n)) (claimedFrom lengths arrival)
    waited.1 ≤ n ∧
      (waited.2 = true ↔ ∑ j ∈ Finset.range (n - 1), lengths j < arrival) ∧
      (waited.2 = false → arrival ≤ ∑ j ∈ Finset.range waited.1, lengths j) ∧
      ∀ m < waited.1, ∑ j ∈ Finset.range m, lengths j < arrival := by
  have hbudget := hvWaitBudget_decimalText hpos hn
  have hwait : hvWaitForConsumer (some (decimalText n)) (claimedFrom lengths arrival) =
      hvWaitLoop (claimedFrom lengths arrival) n 0 := by
    unfold hvWaitForConsumer
    rw [hbudget, if_neg hpos.ne']
  obtain ⟨hle, hgone, hfound, hbefore⟩ := hvWaitLoop_spec (claimedFrom lengths arrival) n 0
  have hnot : ∀ i, claimedFrom lengths arrival i = false ↔
      ∑ j ∈ Finset.range i, lengths j < arrival := by
    intro i
    rw [claimedFrom, decide_eq_false_iff_not, Nat.not_le]
  dsimp only
  rw [hwait]
  refine ⟨by omega, ⟨fun h => ?_, fun h => hgone.mpr fun i _ hlt => ?_⟩, fun h => ?_,
    fun m hm => (hnot m).mp (hbefore m (Nat.zero_le m) hm)⟩
  · exact (hnot _).mp (hgone.mp h (n - 1) (Nat.zero_le _) (by omega))
  · refine (hnot i).mpr (lt_of_le_of_lt ?_ h)
    exact Finset.sum_le_sum_of_subset (Finset.range_subset_range.mpr (by omega))
  · exact of_decide_eq_true (hfound h)

/-- Five seconds asked for, and a consumer that comes after two and six tenths. -/
theorem waits_until_halved :
    (hvWaitForConsumer (some (decimalText 5000))
      (claimedFrom (fun _ => kWaitPollNs) 2600000000)).2 = true := by
  refine (waits_until (by decide) (by decide) (fun _ => kWaitPollNs) 2600000000).2.1.mpr ?_
  rw [Finset.sum_const, Finset.card_range]
  decide

end Heapviz
